import LogRules.Eval

/-!
Properties of evaluation that come from its parts. Evaluation puts together what expressions read of
a run and what the functions do that they call, so a property that survives putting together holds
of evaluation as soon as it holds of these.
-/
namespace LogRules

open EvalM

namespace EvalM

/-- A property that needs nothing of outcomes, and that a computation has when its steps have it. -/
structure Modular (P : {α : Type} → EvalM α → Prop) : Prop where
  lift {α : Type} (outcome : Except EvalError α) : P (EvalM.lift outcome)
  bind {α β : Type} {x : EvalM α} {f : α → EvalM β} (hx : P x) (hf : ∀ a, P (f a)) : P (x >>= f)

theorem Modular.pure {P : {α : Type} → EvalM α → Prop} (hP : Modular P) {α : Type} (a : α) :
    P (Pure.pure a : EvalM α) := hP.lift (.ok a)

end EvalM

namespace Expr

/-- What a node takes from a run by itself, its operands apart, has the property. -/
def Draws (P : {α : Type} → EvalM α → Prop) : Expr → Prop
  | var _ name => P (lookup name)
  | field _ _ => P message
  | call _ _ target _ _ _ => ∀ args, P (target.run args)
  | _ => True

/-- A property of expressions that goes over to their operands. -/
def Hereditary (Q : Expr → Prop) : Prop := ∀ e child, Q e → child ∈ e.children → Q child

end Expr

namespace EvalM.Modular

variable {P : {α : Type} → EvalM α → Prop} {Q : Expr → Prop}

theorem binary (hP : Modular P) (site : Site) (op : BinaryOp) {left right : Expr}
    (hl : P left.eval) (hr : P right.eval) : P (Expr.eval (.binary site op left right)) := by
  have hanswer : P (do return Value.boolean (← EvalM.lift (Operator.truthy (← right.eval)))) :=
    hP.bind hr fun _ => hP.bind (hP.lift _) fun _ => hP.pure _
  cases op with
  | and =>
    refine hP.bind hl fun _ => hP.bind (hP.lift _) fun flag => ?_
    cases flag with
    | true => exact hanswer
    | false => exact hP.pure _
  | or =>
    refine hP.bind hl fun _ => hP.bind (hP.lift _) fun flag => ?_
    cases flag with
    | true => exact hP.pure _
    | false => exact hanswer
  | _ => exact hP.bind hl fun _ => hP.bind hr fun _ => hP.lift _

mutual

/-- The property holds of the evaluation of an expression if every node of it draws on nothing else
than what has the property. -/
theorem eval (hP : Modular P) (hQ : Expr.Hereditary Q) (hdraws : ∀ e, Q e → e.Draws P) :
    ∀ e, Q e → P e.eval
  | .literal site value, _ => by
    rw [Expr.eval]
    exact hP.pure value
  | .array site items, h => by
    rw [Expr.eval]
    exact hP.bind (evalItems hP hQ hdraws items fun e he => hQ _ e h he) fun _ => hP.pure _
  | .map site entries, h => by
    rw [Expr.eval]
    have hentries : ∀ entry ∈ entries, Q entry.2 :=
      fun entry he => hQ _ _ h (List.mem_map_of_mem he)
    exact hP.bind (evalEntries hP hQ hdraws entries hentries) fun _ => hP.pure _
  | .var site name, h => by
    rw [Expr.eval]
    exact hdraws _ h
  | .field site name, h => by
    rw [Expr.eval]
    exact hP.bind (hdraws _ h) fun _ => hP.pure _
  | .access site object name, h => by
    rw [Expr.eval]
    have hobject : Q object := hQ _ _ h List.mem_cons_self
    exact hP.bind (eval hP hQ hdraws object hobject) fun _ => hP.lift _
  | .index site object key, h => by
    rw [Expr.eval]
    have hobject : Q object := hQ _ _ h List.mem_cons_self
    have hkey : Q key := hQ _ _ h (List.mem_cons_of_mem _ List.mem_cons_self)
    exact hP.bind (eval hP hQ hdraws object hobject) fun _ =>
      hP.bind (eval hP hQ hdraws key hkey) fun _ => hP.lift _
  | .unary site op operand, h => by
    rw [Expr.eval]
    have hoperand : Q operand := hQ _ _ h List.mem_cons_self
    exact hP.bind (eval hP hQ hdraws operand hoperand) fun _ => hP.lift _
  | .binary site op left right, h => by
    have hleft : Q left := hQ _ _ h List.mem_cons_self
    have hright : Q right := hQ _ _ h (List.mem_cons_of_mem _ List.mem_cons_self)
    exact hP.binary site op (eval hP hQ hdraws left hleft) (eval hP hQ hdraws right hright)
  | .call site name target args named resolved, h => by
    rw [Expr.eval]
    have hargs : ∀ entry ∈ args, Q entry.2 :=
      fun entry he => hQ _ _ h (List.mem_map_of_mem he)
    have htarget : ∀ bound, P (target.run bound) := hdraws _ h
    exact hP.bind (evalEntries hP hQ hdraws args hargs) fun _ =>
      hP.bind (hP.lift _) htarget

theorem evalItems (hP : Modular P) (hQ : Expr.Hereditary Q) (hdraws : ∀ e, Q e → e.Draws P) :
    ∀ items, (∀ e ∈ items, Q e) → P (Expr.evalItems items)
  | [], _ => by
    rw [Expr.evalItems]
    exact hP.pure _
  | e :: rest, h => by
    rw [Expr.evalItems]
    exact hP.bind (eval hP hQ hdraws e (h e List.mem_cons_self)) fun _ =>
      hP.bind (evalItems hP hQ hdraws rest fun e he => h e (List.mem_cons_of_mem _ he))
        fun _ => hP.pure _

theorem evalEntries (hP : Modular P) (hQ : Expr.Hereditary Q) (hdraws : ∀ e, Q e → e.Draws P) :
    ∀ entries : List (String × Expr), (∀ entry ∈ entries, Q entry.2) → P (Expr.evalEntries entries)
  | [], _ => by
    rw [Expr.evalEntries]
    exact hP.pure _
  | (key, e) :: rest, h => by
    rw [Expr.evalEntries]
    exact hP.bind (eval hP hQ hdraws e (h _ List.mem_cons_self)) fun _ =>
      hP.bind (evalEntries hP hQ hdraws rest fun entry he => h entry (List.mem_cons_of_mem _ he))
        fun _ => hP.pure _

end

theorem evalCondition (hP : Modular P) (hQ : Expr.Hereditary Q) (hdraws : ∀ e, Q e → e.Draws P)
    {e : Expr} (h : Q e) : P e.evalCondition :=
  hP.bind (hP.eval hQ hdraws e h) fun _ => hP.lift _

end EvalM.Modular

end LogRules
