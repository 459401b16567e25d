import LogRules.Proofs.Evaluation
import Mathlib.Order.Defs.Unbundled

/-!
Evaluation does to the state of a run what the functions do that it calls, and nothing else. So an
order of states that every called function respects holds between the start of an evaluation and
its end, also when it fails.
-/
namespace LogRules

namespace EvalM

variable {α β : Type} {R : Context → Context → Prop} [IsPreorder Context R]

/-- Whether or not the computation succeeds, the state it leaves is behind the one it found. -/
def Moves (R : Context → Context → Prop) (x : EvalM α) : Prop := ∀ c, R c (x.runOn c).2

theorem moves_pure (a : α) : Moves R (pure a : EvalM α) := fun c => refl_of R c

theorem moves_lift (outcome : Except EvalError α) : Moves R (lift outcome) := by
  intro c
  rw [runOn_lift]
  exact refl_of R c

theorem moves_message : Moves R message := fun c => refl_of R c

theorem Moves.bind {x : EvalM α} {f : α → EvalM β} (hx : Moves R x) (hf : ∀ a, Moves R (f a)) :
    Moves R (x >>= f) := by
  intro c
  have hfirst := hx c
  rw [runOn_bind]
  split
  · next a d hrun =>
    rw [hrun] at hfirst
    exact trans_of R hfirst (hf a d)
  · next error d hrun =>
    rw [hrun] at hfirst
    exact hfirst

theorem moves_modular : Modular fun x => Moves R x := ⟨moves_lift, Moves.bind⟩

theorem moves_lookup (name : String) : Moves R (lookup name) :=
  Moves.bind (fun c => refl_of R c) fun _ => moves_lift _

end EvalM

open EvalM

/-- Every call of the function leaves a state behind the one it found. -/
def Function.Respects (R : Context → Context → Prop) (f : Function) : Prop :=
  ∀ args, Moves R (f.run args)

variable {R : Context → Context → Prop} [IsPreorder Context R]

namespace Expr

/-- Every function that the expression calls respects the order. -/
def Respects (R : Context → Context → Prop) (e : Expr) : Prop :=
  ∀ call ∈ e.calls, call.target.Respects R

theorem moves_eval (e : Expr) (h : e.Respects R) : Moves R e.eval := by
  have hhereditary : Hereditary (Respects R) :=
    fun _ _ h hchild call hcall => h call (calls_of_child hchild hcall)
  refine moves_modular.eval hhereditary (fun n hn => ?_) e h
  cases n with
  | var site name => exact moves_lookup name
  | field site name => exact moves_message
  | call site name target args named resolved => exact hn _ List.mem_cons_self
  | _ => trivial

theorem moves_evalCondition {e : Expr} (h : e.Respects R) : Moves R e.evalCondition :=
  (moves_eval e h).bind fun _ => moves_lift _

end Expr

/-- Statements also bind variables, which the order has to allow. -/
theorem Statement.moves_executeAll
    (hdefine : ∀ c name type value, R c (Context.define c name type value))
    {statements : List Statement} (h : ∀ s ∈ statements, s.expression.Respects R) :
    Moves R (Statement.executeAll statements) := by
  have hexecute (s : Statement) (hs : s.expression.Respects R) : Moves R s.execute := by
    cases s with
    | perform e => exact (Expr.moves_eval e hs).bind fun _ => moves_pure ()
    | bind name type value _ =>
      exact (Expr.moves_eval value hs).bind fun v c => hdefine c name type v
  induction statements with
  | nil => exact moves_pure ()
  | cons s rest ih =>
    exact (hexecute s (h s List.mem_cons_self)).bind fun _ =>
      ih fun t ht => h t (List.mem_cons_of_mem s ht)

end LogRules
