import LogRules.Proofs.MadeCalls
import LogRules.Proofs.TypedOperators

/-!
Where the faults of an evaluation come from. Each is raised by a node that the evaluation comes to:
by a call when its arguments are bound or in the function, by a variable that is not bound, or by an
operator that refuses the values of the operands.
-/
namespace LogRules

open EvalM

namespace EvalM

variable {α β : Type} {x : EvalM α} {f : α → EvalM β} {c d : Context} {error : EvalError}

/-- What fails step by step fails in the first step, or behind it. -/
theorem bind_fails (h : (x >>= f).runOn c = (.error error, d)) :
    x.runOn c = (.error error, d) ∨
      ∃ a c', x.runOn c = (.ok a, c') ∧ (f a).runOn c' = (.error error, d) := by
  rw [runOn_bind] at h
  split at h
  · next a c' hrun => exact .inr ⟨a, c', hrun, h⟩
  · next error' d' hrun =>
    cases h
    exact .inl hrun

theorem pure_never_fails {a : α} (h : (pure a : EvalM α).runOn c = (.error error, d)) : False := by
  rw [runOn_pure] at h
  cases h

theorem lift_fails {outcome : Except EvalError α}
    (h : (lift outcome).runOn c = (.error error, d)) : outcome = .error error := by
  rw [runOn_lift] at h
  exact (Prod.mk.inj h).1

end EvalM

namespace Operator

theorem comparison_faults (op : BinaryOp) (left right : Value) :
    Outcome (fun _ => True) (Excused False) (comparison op left right) := by
  unfold comparison
  split
  · trivial
  · trivial
  · exact (compare_faults left right).map fun _ _ => trivial

theorem binary_faults (op : BinaryOp) (left right : Value) :
    Outcome (fun _ => True) (Excused False) (binary op left right) := by
  rw [binary]
  split
  · exact comparison_faults op left right
  · split
    · exact arithmetic_faults op left right
    · exact (truthy_faults left).bind fun _ _ => (truthy_faults right).bind fun _ _ => trivial

end Operator

namespace Expr

theorem Reaches.mem_nodes {e n : Expr} {c d : Context} (h : e.Reaches c n d) : n ∈ e.nodes := by
  induction h with
  | here e c => exact e.self_mem_nodes
  | operand hchildren hbefore hgoes hnext ih => exact mem_nodes_of_child (by simp [hchildren]) ih

/-- The operator of a node refuses the values of its first operands. -/
inductive Refuses : Expr → List Value → EvalError → Prop
  | access {site : Site} {object : Expr} {name : String} {value : Value} {error : EvalError}
      (h : Operator.access value name = .error error) :
      Refuses (.access site object name) [value] error
  | index {site : Site} {object key : Expr} {value place : Value} {error : EvalError}
      (h : Operator.index value place = .error error) :
      Refuses (.index site object key) [value, place] error
  | unary {site : Site} {op : UnaryOp} {operand : Expr} {value : Value} {error : EvalError}
      (h : Operator.unary op value = .error error) : Refuses (.unary site op operand) [value] error
  | first {site : Site} {op : BinaryOp} {left right : Expr} {value : Value} {error : EvalError}
      (hop : op = .and ∨ op = .or) (h : Operator.truthy value = .error error) :
      Refuses (.binary site op left right) [value] error
  | second {site : Site} {op : BinaryOp} {left right : Expr} {value answer : Value}
      {error : EvalError} (hop : op = .and ∨ op = .or)
      (h : Operator.truthy answer = .error error) :
      Refuses (.binary site op left right) [value, answer] error
  | both {site : Site} {op : BinaryOp} {left right : Expr} {value other : Value}
      {error : EvalError} (hand : op ≠ .and) (hor : op ≠ .or)
      (h : Operator.binary op value other = .error error) :
      Refuses (.binary site op left right) [value, other] error

/-- A node fails by itself, and not because an operand fails. -/
inductive Raises : Expr → Context → EvalError → Prop
  | unbound {site : Site} {name : String} {c : Context} (h : c.bindings.find? name = none) :
      Raises (.var site name) c (.undefinedVariable name)
  | refused {n : Expr} {values : List Value} {c d : Context} {error : EvalError}
      (hrun : (evalItems (n.children.take values.length)).runOn c = (.ok values, d))
      (h : n.Refuses values error) : Raises n c error
  | called {site : Site} {name : String} {target : Function} {args : List (String × Expr)}
      {named resolved : Bool} {values : List (String × Value)} {c d : Context} {error : EvalError}
      (hargs : (evalEntries args).runOn c = (.ok values, d))
      (h : ((target.invoke name values).runOn d).1 = .error error) :
      Raises (.call site name target args named resolved) c error

/-- A fault of the evaluation comes from a node that it comes to. -/
def Traces (e : Expr) (c : Context) (error : EvalError) : Prop :=
  ∃ n d, e.Reaches c n d ∧ n.Raises d error

/-- Every fault of the expression can be traced to a node. -/
def Traceable (e : Expr) : Prop :=
  ∀ c error d, e.eval.runOn c = (.error error, d) → e.Traces c error

variable {e next : Expr} {c c' d : Context} {error : EvalError}

theorem traces_self (h : e.Raises c error) : e.Traces c error := ⟨e, c, .here e c, h⟩

theorem Refuses.excused {n : Expr} {values : List Value} (h : n.Refuses values error) :
    Operator.Excused False error := by
  cases h with
  | access h => exact (Operator.access_faults _ _).of_error h
  | index h => exact (Operator.index_faults _ _).of_error h
  | unary h => exact (Operator.unary_faults _ _).of_error h
  | first _ h => exact (Operator.truthy_faults _).of_error h
  | second _ h => exact (Operator.truthy_faults _).of_error h
  | both _ _ h => exact (Operator.binary_faults _ _ _).of_error h

theorem traces_one {first : Expr} {rest : List Expr} (hchildren : e.children = first :: rest)
    {value : Value} (hrun : first.eval.runOn c = (.ok value, d)) (h : e.Refuses [value] error) :
    e.Traces c error := by
  refine traces_self (.refused (d := d) ?_ h)
  rw [hchildren]
  exact evalItems_one hrun

theorem traces_two {first second : Expr} (hchildren : e.children = [first, second])
    {value other : Value} (hrun : first.eval.runOn c = (.ok value, c'))
    (hother : second.eval.runOn c' = (.ok other, d)) (h : e.Refuses [value, other] error) :
    e.Traces c error := by
  refine traces_self (.refused (d := d) ?_ h)
  rw [hchildren]
  exact evalItems_two hrun hother

section Operands

variable {before after : List Expr} {values : List Value} (hnext : next.Traceable)
  (hfails : next.eval.runOn c' = (.error error, d))

include hnext hfails

theorem traces_operand (hchildren : e.children = before ++ next :: after)
    (hbefore : (evalItems before).runOn c = (.ok values, c'))
    (hgoes : e.goesOn values = true) : e.Traces c error := by
  obtain ⟨n, c'', hreaches, hraises⟩ := hnext c' error d hfails
  exact ⟨n, c'', .operand hchildren hbefore hgoes hreaches, hraises⟩

theorem traces_first (hchildren : e.children = next :: after) : e.Traces c' error := by
  have hbefore : (evalItems []).runOn c' = (.ok [], c') := rfl
  exact traces_operand hnext hfails hchildren hbefore e.goesOn_nil

theorem traces_second {first : Expr} (hchildren : e.children = [first, next]) {value : Value}
    (hrun : first.eval.runOn c = (.ok value, c')) (hgoes : e.goesOn [value] = true) :
    e.Traces c error := by
  have hsplit : e.children = [first] ++ next :: [] := hchildren
  exact traces_operand hnext hfails hsplit (evalItems_one hrun) hgoes

end Operands

theorem evalItems_error {items : List Expr} (h : (evalItems items).runOn c = (.error error, d)) :
    ∃ before next after values c', items = before ++ next :: after ∧
      (evalItems before).runOn c = (.ok values, c') ∧
      next.eval.runOn c' = (.error error, d) := by
  induction items generalizing c with
  | nil => exact (pure_never_fails h).elim
  | cons e rest ih =>
    rw [evalItems] at h
    obtain hfirst | ⟨value, c', hvalue, hrest⟩ := bind_fails h
    · exact ⟨[], e, rest, [], c, rfl, rfl, hfirst⟩
    · obtain hrest | ⟨values, c'', -, hpure⟩ := bind_fails hrest
      · obtain ⟨before, next, after, values, c'', rfl, hbefore, hnext⟩ := ih hrest
        refine ⟨e :: before, next, after, value :: values, c'', rfl, ?_, hnext⟩
        simp only [evalItems, runOn_bind, hvalue, hbefore, runOn_pure]
      · exact (pure_never_fails hpure).elim

/-- A node that evaluates all of its operands traces their faults. -/
theorem traces_items (hchildren : ∀ child ∈ e.children, child.Traceable)
    (hgoes : ∀ values, e.goesOn values = true)
    (h : (evalItems e.children).runOn c = (.error error, d)) : e.Traces c error := by
  obtain ⟨before, next, after, values, c', hsplit, hbefore, hnext⟩ := evalItems_error h
  have hmem : next ∈ e.children := hsplit ▸ List.mem_append_right _ List.mem_cons_self
  exact traces_operand (hchildren next hmem) hnext hsplit hbefore (hgoes values)

theorem evalEntries_error {entries : List (String × Expr)}
    (h : (evalEntries entries).runOn c = (.error error, d)) :
    (evalItems (entries.map (·.2))).runOn c = (.error error, d) := by
  rw [evalEntries_eq] at h
  obtain hitems | ⟨values, c', -, hpure⟩ := bind_fails h
  · exact hitems
  · exact (pure_never_fails hpure).elim

/-- The second operand of a connective that the first does not answer. -/
theorem traces_answer {site : Site} {op : BinaryOp} {left right : Expr} (hop : op = .and ∨ op = .or)
    (hright : right.Traceable) {value : Value} (hrun : left.eval.runOn c = (.ok value, c'))
    (hgoes : (binary site op left right).goesOn [value] = true)
    (h : (do return Value.boolean (← lift (Operator.truthy (← right.eval)))).runOn c' =
      (.error error, d)) : (binary site op left right).Traces c error := by
  obtain hfails | ⟨answer, c'', hanswer, htest⟩ := bind_fails h
  · exact traces_second hright hfails rfl hrun hgoes
  · obtain htruthy | ⟨flag, c''', -, hpure⟩ := bind_fails htest
    · exact traces_two rfl hrun hanswer (.second hop (lift_fails htruthy))
    · exact (pure_never_fails hpure).elim

theorem traceable_binary {site : Site} {op : BinaryOp} {left right : Expr}
    (hleft : left.Traceable) (hright : right.Traceable) :
    (binary site op left right).Traceable := by
  intro c error d h
  by_cases hop : op = .and ∨ op = .or
  · have hfirst {value : Value} {c' : Context} (hrun : left.eval.runOn c = (.ok value, c'))
        {d : Context} (htruthy : (lift (Operator.truthy value)).runOn c' = (.error error, d)) :
        (binary site op left right).Traces c error :=
      traces_one rfl hrun (.first hop (lift_fails htruthy))
    obtain rfl | rfl := hop
    all_goals
      rw [eval] at h
      obtain hfails | ⟨value, c', hrun, htest⟩ := bind_fails h
      · exact traces_first hleft hfails rfl
      · obtain htruthy | ⟨flag, c'', hflag, hrest⟩ := bind_fails htest
        · exact hfirst hrun htruthy
        · rw [runOn_lift] at hflag
          obtain ⟨htruthy, rfl⟩ := Prod.mk.inj hflag
          obtain rfl := Operator.eq_boolean_of_truthy htruthy
          cases flag with
          | true | false =>
            first
              | exact traces_answer (by decide) hright hrun rfl hrest
              | exact (pure_never_fails hrest).elim
  · obtain ⟨hand, hor⟩ := not_or.mp hop
    rw [eval_of_eager hand hor] at h
    obtain hfails | ⟨value, c', hrun, hsecond⟩ := bind_fails h
    · exact traces_first hleft hfails rfl
    · obtain hfails | ⟨other, c'', hother, hown⟩ := bind_fails hsecond
      · exact traces_second hright hfails rfl hrun (goesOn_of_eager hand hor)
      · exact traces_two rfl hrun hother (.both hand hor (lift_fails hown))

theorem raises_lookup {site : Site} {name : String}
    (h : (lookup name).runOn c = (.error error, d)) : (var site name).Raises c error := by
  have hrun : (lookup name).runOn c = (lift (c.lookup name)).runOn c := rfl
  rw [hrun] at h
  have hnone := lift_fails h
  rw [Context.lookup] at hnone
  split at hnone
  · cases hnone
  · next hunbound =>
    cases hnone
    exact .unbound hunbound

/-- Every fault of an expression comes from a node that its evaluation comes to. -/
theorem traceable (e : Expr) : e.Traceable := by
  induction e using children_induction with
  | h e ih =>
    intro c error d h
    cases e with
    | literal site value => exact (pure_never_fails h).elim
    | var site name => exact traces_self (raises_lookup h)
    | field site name =>
      obtain hmessage | ⟨m, c', -, hpure⟩ := bind_fails h
      · cases hmessage
      · exact (pure_never_fails hpure).elim
    | array site items =>
      rw [eval] at h
      obtain hitems | ⟨values, c', -, hpure⟩ := bind_fails h
      · exact traces_items ih (fun _ => rfl) hitems
      · exact (pure_never_fails hpure).elim
    | map site entries =>
      rw [eval] at h
      obtain hentries | ⟨values, c', -, hpure⟩ := bind_fails h
      · exact traces_items ih (fun _ => rfl) (evalEntries_error hentries)
      · exact (pure_never_fails hpure).elim
    | access site object name =>
      rw [eval] at h
      obtain hobject | ⟨value, c', hrun, hown⟩ := bind_fails h
      · exact traces_first (ih object List.mem_cons_self) hobject rfl
      · exact traces_one rfl hrun (.access (lift_fails hown))
    | unary site op operand =>
      rw [eval] at h
      obtain hoperand | ⟨value, c', hrun, hown⟩ := bind_fails h
      · exact traces_first (ih operand List.mem_cons_self) hoperand rfl
      · exact traces_one rfl hrun (.unary (lift_fails hown))
    | index site object key =>
      rw [eval] at h
      obtain hobject | ⟨value, c', hrun, hkey⟩ := bind_fails h
      · exact traces_first (ih object List.mem_cons_self) hobject rfl
      · obtain hkey | ⟨place, c'', hplace, hown⟩ := bind_fails hkey
        · exact traces_second (ih key (List.mem_cons_of_mem _ List.mem_cons_self)) hkey rfl hrun rfl
        · exact traces_two rfl hrun hplace (.index (lift_fails hown))
    | binary site op left right =>
      exact traceable_binary (ih left List.mem_cons_self)
        (ih right (List.mem_cons_of_mem _ List.mem_cons_self)) c error d h
    | call site name target args named resolved =>
      rw [eval] at h
      obtain hargs | ⟨values, c', hrun, hinvoke⟩ := bind_fails h
      · exact traces_items ih (fun _ => rfl) (evalEntries_error hargs)
      · exact traces_self (.called hrun (congrArg Prod.fst hinvoke))

end Expr

/-- Statements that fail do so in one of their expressions, behind statements that succeed. -/
theorem Statement.executeAll_error {statements : List Statement} {c d : Context}
    {error : EvalError} (h : (executeAll statements).runOn c = (.error error, d)) :
    ∃ before s after c', statements = before ++ s :: after ∧
      (executeAll before).runOn c = (.ok (), c') ∧
      s.expression.eval.runOn c' = (.error error, d) := by
  induction statements generalizing c with
  | nil => exact (pure_never_fails h).elim
  | cons s rest ih =>
    rw [executeAll] at h
    obtain hfirst | ⟨⟨⟩, c', hrun, hrest⟩ := bind_fails h
    · refine ⟨[], s, rest, c, rfl, rfl, ?_⟩
      cases s with
      | perform e =>
        obtain hfails | ⟨value, c', -, hpure⟩ := bind_fails hfirst
        · exact hfails
        · exact (pure_never_fails hpure).elim
      | bind name type value p =>
        obtain hfails | ⟨v, c', -, hdefine⟩ := bind_fails hfirst
        · exact hfails
        · cases hdefine
    · obtain ⟨before, t, after, c'', rfl, hbefore, ht⟩ := ih hrest
      refine ⟨s :: before, t, after, c'', rfl, ?_, ht⟩
      rw [executeAll, runOn_bind, hrun]
      exact hbefore

namespace Rule

variable {r : Rule} {c : Context} {error : EvalError}

theorem Reaches.exists_mem_nodes {n : Expr} {d : Context} (h : r.Reaches c n d) :
    ∃ e ∈ r.expressions, n ∈ e.nodes := by
  cases h with
  | condition h => exact ⟨r.condition, List.mem_cons_self, h.mem_nodes⟩
  | @statement before after s c' hstatements hbefore h =>
    have hs : s ∈ r.statements := hstatements ▸ List.mem_append_right _ List.mem_cons_self
    exact ⟨s.expression, List.mem_cons_of_mem _ (List.mem_map_of_mem hs), h.mem_nodes⟩

/-- A fault of a condition comes from a node, or the condition has a value that is not a truth
value. -/
theorem traces_condition (h : (r.condition.evalCondition.runOn c).1 = .error error) :
    (∃ n d, r.Reaches c n d ∧ n.Raises d error) ∨
      ∃ value d, r.condition.eval.runOn c = (.ok value, d) ∧
        Operator.truthy value = .error error := by
  cases hrun : r.condition.evalCondition.runOn c with
  | mk outcome d =>
    rw [hrun] at h
    cases h
    obtain hfails | ⟨value, c', hvalue, htruthy⟩ := bind_fails hrun
    · obtain ⟨n, c', hreaches, hraises⟩ := r.condition.traceable c error d hfails
      exact .inl ⟨n, c', .condition hreaches, hraises⟩
    · exact .inr ⟨value, c', hvalue, lift_fails htruthy⟩

/-- A fault of the statements comes from a node. -/
theorem traces_execution (h : ((Statement.executeAll r.statements).runOn c).1 = .error error) :
    ∃ n d, r.Reaches c n d ∧ n.Raises d error := by
  cases hrun : (Statement.executeAll r.statements).runOn c with
  | mk outcome d =>
    rw [hrun] at h
    cases h
    obtain ⟨before, s, after, c', hsplit, hbefore, hs⟩ := Statement.executeAll_error hrun
    obtain ⟨n, c'', hreaches, hraises⟩ := s.expression.traceable c' error d hs
    exact ⟨n, c'', .statement hsplit hbefore hreaches, hraises⟩

end Rule

end LogRules
