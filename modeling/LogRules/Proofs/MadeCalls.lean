import LogRules.Proofs.Effects
import LogRules.Proofs.Nodes
import LogRules.Proofs.ReachedNodes
import LogRules.Proofs.RelatedRuns

/-!
The calls that are made while a rule is evaluated. Each finds the state of the run as it is then,
and leaves another. An order of states that all of these calls respect holds between the start of
the evaluation and its end, whatever the functions would do when they are called elsewhere.
-/
namespace LogRules

open EvalM

namespace EvalM

variable {α β : Type} {R : Context → Context → Prop} [IsPreorder Context R] {x : EvalM α}
  {c : Context}

/-- From this state, the state that the computation leaves is behind the one it finds. -/
def MovesAt (R : Context → Context → Prop) (x : EvalM α) (c : Context) : Prop :=
  R c (x.runOn c).2

theorem movesAt_lift (outcome : Except EvalError α) : MovesAt R (lift outcome) c :=
  moves_lift outcome c

theorem movesAt_pure (a : α) : MovesAt R (pure a) c := moves_pure a c

theorem MovesAt.bind {f : α → EvalM β} (hx : MovesAt R x c)
    (hf : ∀ a d, x.runOn c = (.ok a, d) → MovesAt R (f a) d) : MovesAt R (x >>= f) c := by
  rw [MovesAt] at hx
  rw [MovesAt, runOn_bind]
  split
  · next a d hrun =>
    rw [hrun] at hx
    exact trans_of R hx (hf a d hrun)
  · next error d hrun =>
    rw [hrun] at hx
    exact hx

end EvalM

theorem Operator.eq_boolean_of_truthy {value : Value} {flag : Bool}
    (h : Operator.truthy value = .ok flag) : value = .boolean flag := by
  cases value with
  | boolean b =>
    cases h
    rfl
  | _ => cases h

namespace Expr

/-- The evaluation of an expression in a state calls a function, in the first of two states, and the
call leaves the second. -/
inductive Calls (e : Expr) (c : Context) : Context → Context → Prop
  | mk {site : Site} {name : String} {target : Function} {args : List (String × Expr)}
      {named resolved : Bool} {d before : Context} {values : List (String × Value)}
      (hreached : e.Reaches c (.call site name target args named resolved) d)
      (hargs : (evalEntries args).runOn d = (.ok values, before)) :
      Calls e c before ((target.invoke name values).runOn before).2

theorem Calls.operand {e next : Expr} {before after : List Expr} {values : List Value}
    {c c' x y : Context} (h : next.Calls c' x y) (hchildren : e.children = before ++ next :: after)
    (hbefore : (evalItems before).runOn c = (.ok values, c')) (hgoes : e.goesOn values = true) :
    e.Calls c x y := by
  cases h with
  | mk hreached hargs => exact .mk (.operand hchildren hbefore hgoes hreached) hargs

theorem Reaches.calls {e n : Expr} {c d : Context} (h : e.Reaches c n d) :
    ∀ site ∈ n.calls, site ∈ e.calls := by
  induction h with
  | here => exact fun _ h => h
  | operand hchildren hbefore hgoes hnext ih =>
    exact fun site hsite => calls_of_child (by simp [hchildren]) (ih site hsite)

/-- An expression makes no calls but those that stand in it. -/
theorem Calls.exists_site {e : Expr} {c x y : Context} (h : e.Calls c x y) :
    ∃ site ∈ e.calls, ∃ values, y = ((site.target.invoke site.name values).runOn x).2 := by
  cases h with
  | mk hreached hargs => exact ⟨_, hreached.calls _ List.mem_cons_self, _, rfl⟩

theorem goesOn_nil (e : Expr) : e.goesOn [] = true := by
  cases e with
  | binary _ op _ _ => cases op <;> rfl
  | _ => rfl

section Operands

variable {R : Context → Context → Prop}

/-- From each state, evaluating the expression moves it no further than the calls do. -/
def MovesByCalls (R : Context → Context → Prop) (e : Expr) : Prop :=
  ∀ c, (∀ x y, e.Calls c x y → R x y) → MovesAt R e.eval c

variable {e next : Expr} (hnext : next.MovesByCalls R) {c : Context}
  (hcalls : ∀ x y, e.Calls c x y → R x y)

include hnext hcalls

theorem movesAt_first {after : List Expr} (hchildren : e.children = next :: after) :
    MovesAt R next.eval c := by
  have hbefore : (evalItems []).runOn c = (.ok [], c) := rfl
  exact hnext c fun x y h => hcalls x y (h.operand hchildren hbefore e.goesOn_nil)

theorem movesAt_second {first : Expr} {d : Context} (hchildren : e.children = [first, next])
    {value : Value} (hrun : first.eval.runOn c = (.ok value, d))
    (hgoes : e.goesOn [value] = true) : MovesAt R next.eval d := by
  have hbefore : (evalItems [first]).runOn c = (.ok [value], d) := by
    simp only [evalItems, runOn_bind, hrun, runOn_pure]
  have hsplit : e.children = [first] ++ next :: [] := hchildren
  exact hnext d fun x y h => hcalls x y (h.operand hsplit hbefore hgoes)

end Operands

variable {R : Context → Context → Prop} [IsPreorder Context R]

theorem movesAt_items {items : List Expr} (hitems : ∀ e ∈ items, e.MovesByCalls R) {c : Context}
    (hcalls : ∀ before next after values c', items = before ++ next :: after →
      (evalItems before).runOn c = (.ok values, c') → ∀ x y, next.Calls c' x y → R x y) :
    MovesAt R (evalItems items) c := by
  induction items generalizing c with
  | nil => exact movesAt_pure []
  | cons e rest ih =>
    obtain ⟨he, hothers⟩ := List.forall_mem_cons.mp hitems
    rw [evalItems]
    refine (he c (hcalls [] e rest [] c rfl rfl)).bind fun value d hrun =>
      (ih hothers fun before next after values c' hsplit hbefore => ?_).bind
        fun values d' _ => movesAt_pure _
    refine hcalls (e :: before) next after (value :: values) c' (by rw [hsplit]; rfl) ?_
    simp only [evalItems, runOn_bind, hrun, hbefore, runOn_pure]

/-- The operands of a node that evaluates all of them. -/
theorem movesAt_children {e : Expr} (hchildren : ∀ child ∈ e.children, child.MovesByCalls R)
    (hgoes : ∀ values, e.goesOn values = true) {c : Context}
    (hcalls : ∀ x y, e.Calls c x y → R x y) : MovesAt R (evalItems e.children) c :=
  movesAt_items hchildren fun _ _ _ values _ hsplit hbefore x y h =>
    hcalls x y (h.operand hsplit hbefore (hgoes values))

theorem movesAt_entries {entries : List (String × Expr)} {c : Context}
    (h : MovesAt R (evalItems (entries.map (·.2))) c) : MovesAt R (evalEntries entries) c := by
  rw [evalEntries_eq]
  exact h.bind fun _ _ _ => movesAt_pure _

/-- The second operand of a connective that the first does not answer. -/
theorem movesAt_answer {site : Site} {op : BinaryOp} {left right : Expr}
    (hright : right.MovesByCalls R) {c d : Context}
    (hcalls : ∀ x y, (binary site op left right).Calls c x y → R x y) {value : Value}
    (hrun : left.eval.runOn c = (.ok value, d))
    (hgoes : (binary site op left right).goesOn [value] = true) :
    MovesAt R (do return Value.boolean (← EvalM.lift (Operator.truthy (← right.eval)))) d :=
  (movesAt_second hright hcalls rfl hrun hgoes).bind fun _ _ _ =>
    (movesAt_lift _).bind fun _ _ _ => movesAt_pure _

theorem movesAt_binary {site : Site} {op : BinaryOp} {left right : Expr}
    (hleft : left.MovesByCalls R) (hright : right.MovesByCalls R) {c : Context}
    (hcalls : ∀ x y, (binary site op left right).Calls c x y → R x y) :
    MovesAt R (binary site op left right).eval c := by
  have hfirst := movesAt_first hleft hcalls rfl
  cases op with
  | and | or =>
    rw [eval]
    refine hfirst.bind fun value d hrun => (movesAt_lift _).bind fun flag d' hflag => ?_
    rw [runOn_lift] at hflag
    obtain ⟨htruthy, rfl⟩ := Prod.mk.inj hflag
    obtain rfl := Operator.eq_boolean_of_truthy htruthy
    cases flag with
    | true | false =>
      first
        | exact movesAt_answer hright hcalls hrun rfl
        | exact movesAt_pure _
  | _ =>
    rw [eval]
    · exact hfirst.bind fun value d hrun =>
        (movesAt_second hright hcalls rfl hrun rfl).bind fun _ _ _ => movesAt_lift _
    all_goals exact fun h => nomatch h

theorem movesByCalls (e : Expr) : e.MovesByCalls R := by
  induction e using children_induction with
  | h e ih =>
    intro c hcalls
    cases e with
    | literal site value => exact movesAt_pure value
    | var site name => exact moves_lookup name c
    | field site name => exact (moves_message.bind fun _ => moves_pure _) c
    | array site items =>
      rw [eval]
      exact (movesAt_children ih (fun _ => rfl) hcalls).bind fun _ _ _ => movesAt_pure _
    | map site entries =>
      have hentries := movesAt_entries (movesAt_children ih (fun _ => rfl) hcalls)
      rw [eval]
      exact hentries.bind fun _ _ _ => movesAt_pure _
    | access site object name =>
      have hobject := movesAt_first (ih object List.mem_cons_self) hcalls rfl
      rw [eval]
      exact hobject.bind fun _ _ _ => movesAt_lift _
    | unary site op operand =>
      have hoperand := movesAt_first (ih operand List.mem_cons_self) hcalls rfl
      rw [eval]
      exact hoperand.bind fun _ _ _ => movesAt_lift _
    | index site object key =>
      have hobject := movesAt_first (ih object List.mem_cons_self) hcalls rfl
      rw [eval]
      refine hobject.bind fun value d hrun => ?_
      have hkey := movesAt_second (ih key (List.mem_cons_of_mem _ List.mem_cons_self)) hcalls rfl
        hrun rfl
      exact hkey.bind fun _ _ _ => movesAt_lift _
    | binary site op left right =>
      exact movesAt_binary (ih left List.mem_cons_self)
        (ih right (List.mem_cons_of_mem _ List.mem_cons_self)) hcalls
    | call site name target args named resolved =>
      have hargs := movesAt_entries (movesAt_children ih (fun _ => rfl) hcalls)
      rw [eval]
      exact hargs.bind fun values d hrun => hcalls _ _ (.mk (.here _ c) hrun)

theorem movesAt_evalCondition {e : Expr} {c : Context} (hcalls : ∀ x y, e.Calls c x y → R x y) :
    MovesAt R e.evalCondition c :=
  (e.movesByCalls c hcalls).bind fun _ _ _ => movesAt_lift _

end Expr

/-- The execution of statements from a state calls a function: the first of them does, or one of
those behind it if it succeeds. -/
inductive Statement.Calls : List Statement → Context → Context → Context → Prop
  | here {s : Statement} {rest : List Statement} {c x y : Context}
      (h : s.expression.Calls c x y) : Calls (s :: rest) c x y
  | later {s : Statement} {rest : List Statement} {c d x y : Context}
      (hrun : s.execute.runOn c = (.ok (), d)) (h : Calls rest d x y) : Calls (s :: rest) c x y

/-- The calls of a rule that is judged, or executed, from a state. -/
def Rule.Calls (r : Rule) : FaultPhase → Context → Context → Context → Prop
  | .condition => r.condition.Calls
  | .execution => Statement.Calls r.statements

theorem Statement.Calls.exists_site {statements : List Statement} {c x y : Context}
    (h : Calls statements c x y) : ∃ s ∈ statements, ∃ site ∈ s.expression.calls,
      ∃ values, y = ((site.target.invoke site.name values).runOn x).2 := by
  induction h with
  | here h => exact ⟨_, List.mem_cons_self, h.exists_site⟩
  | later hrun h ih =>
    obtain ⟨s, hs, hsite⟩ := ih
    exact ⟨s, List.mem_cons_of_mem _ hs, hsite⟩

theorem Rule.Calls.exists_site {r : Rule} {phase : FaultPhase} {c x y : Context}
    (h : r.Calls phase c x y) : ∃ e ∈ r.expressions, ∃ site ∈ e.calls,
      ∃ values, y = ((site.target.invoke site.name values).runOn x).2 := by
  cases phase with
  | condition => exact ⟨r.condition, List.mem_cons_self, Expr.Calls.exists_site h⟩
  | execution =>
    obtain ⟨s, hs, hsite⟩ := Statement.Calls.exists_site h
    exact ⟨s.expression, List.mem_cons_of_mem _ (List.mem_map_of_mem hs), hsite⟩

variable {R : Context → Context → Prop} [IsPreorder Context R]

/-- Statements also bind variables, which the order has to allow. -/
theorem Statement.movesAt_executeAll
    (hdefine : ∀ c name type value, R c (Context.define c name type value))
    {statements : List Statement} {c : Context}
    (hcalls : ∀ x y, Calls statements c x y → R x y) : MovesAt R (executeAll statements) c := by
  induction statements generalizing c with
  | nil => exact movesAt_pure ()
  | cons s rest ih =>
    have hexpression : MovesAt R s.expression.eval c :=
      s.expression.movesByCalls c fun x y h => hcalls x y (.here h)
    have hexecute : MovesAt R s.execute c := by
      cases s with
      | perform e => exact hexpression.bind fun _ _ _ => movesAt_pure ()
      | bind name type value p => exact hexpression.bind fun v d _ => hdefine d name type v
    exact hexecute.bind fun _ d hrun => ih fun x y h => hcalls x y (.later hrun h)

namespace RuleBody

variable {body : RuleBody} {r : Rule} {c : Context}

/-- A form of a rule moves the state of a run no further than the calls of the rule do. -/
theorem FormOf.movesAt_condition (h : body.FormOf r)
    (hcalls : ∀ x y, r.Calls .condition c x y → R x y) : MovesAt R body.condition c := by
  rw [MovesAt, (h.runs c).1]
  exact Expr.movesAt_evalCondition hcalls

theorem FormOf.movesAt_execute (h : body.FormOf r)
    (hdefine : ∀ c name type value, R c (Context.define c name type value))
    (hcalls : ∀ x y, r.Calls .execution c x y → R x y) : MovesAt R body.execute c := by
  rw [MovesAt, (h.runs c).2]
  exact Statement.movesAt_executeAll hdefine hcalls

end RuleBody

end LogRules
