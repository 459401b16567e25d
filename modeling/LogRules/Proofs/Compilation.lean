import LogRules.Compiled
import LogRules.Proofs.Evaluation

/-!
Compiled rules run like their trees: in every context the same outcome, and the same context left
behind, also after a fault.
-/
namespace LogRules
namespace EvalM

variable {α β : Type}

/-- A computation that neither reads nor changes the state. -/
def Stateless (x : EvalM α) : Prop := ∃ outcome, x = lift outcome

theorem stateless_lift (outcome : Except EvalError α) : Stateless (lift outcome) := ⟨outcome, rfl⟩

theorem Stateless.bind {x : EvalM α} {f : α → EvalM β} (hx : Stateless x)
    (hf : ∀ a, Stateless (f a)) : Stateless (x >>= f) := by
  obtain ⟨outcome, rfl⟩ := hx
  cases outcome with
  | error error => exact ⟨.error error, ext_runOn fun c => by simp [runOn_bind]⟩
  | ok a =>
    obtain ⟨next, h⟩ := hf a
    exact ⟨next, ext_runOn fun c => by simp [runOn_bind, h]⟩

theorem stateless_modular : Modular fun x => Stateless x := ⟨stateless_lift, Stateless.bind⟩

/-- One successful run of a stateless computation tells what it always does. -/
theorem Stateless.eq_pure {x : EvalM α} (hx : Stateless x) {c : Context} {a : α}
    (h : (x.runOn c).1 = .ok a) : x = pure a := by
  obtain ⟨outcome, rfl⟩ := hx
  simp only [runOn_lift] at h
  subst h
  exact ext_runOn fun _ => rfl

end EvalM

namespace Expr

open EvalM

theorem isConstantItems_eq (items : List Expr) : isConstantItems items = items.all isConstant := by
  induction items with
  | nil => rfl
  | cons e rest ih => rw [isConstantItems, ih, List.all_cons]

theorem isConstantEntries_eq (entries : List (String × Expr)) :
    isConstantEntries entries = entries.all fun entry => entry.2.isConstant := by
  induction entries with
  | nil => rfl
  | cons entry rest ih => rw [isConstantEntries, ih, List.all_cons]

theorem isConstant_child {e child : Expr} (h : e.isConstant) (hchild : child ∈ e.children) :
    child.isConstant := by
  cases e with
  | literal | var | field => cases hchild
  | call => cases h
  | array site items =>
    rw [isConstant, isConstantItems_eq, List.all_eq_true] at h
    exact h child hchild
  | map site entries =>
    rw [isConstant, isConstantEntries_eq, List.all_eq_true] at h
    obtain ⟨entry, hentry, rfl⟩ := List.mem_map.mp hchild
    exact h entry hentry
  | access _ object | unary _ _ object => exact List.mem_singleton.mp hchild ▸ h
  | index _ left right | binary _ _ left right =>
    rw [isConstant, Bool.and_eq_true] at h
    simp only [children, List.mem_cons, List.not_mem_nil, or_false] at hchild
    obtain rfl | rfl := hchild
    · exact h.1
    · exact h.2

/-- An expression that reads nothing has one outcome for all contexts, and leaves them alone. -/
theorem stateless_eval (e : Expr) (h : e.isConstant) : Stateless e.eval := by
  have hhereditary : Hereditary (isConstant · = true) := fun _ _ => isConstant_child
  refine stateless_modular.eval hhereditary (fun n hn => ?_) e h
  cases n with
  | var | field | call => cases hn
  | _ => trivial

theorem eval_of_foldConstant {e : Expr} {value : Value} (h : e.foldConstant? = some value) :
    e.eval = pure value := by
  unfold foldConstant? at h
  split at h
  · contradiction
  next hc =>
    have hconst : e.isConstant := by simp_all
    split at h
    · next v hv =>
      cases h
      exact (stateless_eval e hconst).eq_pure hv
    · contradiction

/-- Putting in a constant changes nothing where the expression was compiled faithfully. -/
theorem withConstant_run {e : Expr} {compiled : Compiled Value} (h : compiled.run = e.eval) :
    (withConstant e compiled).run = e.eval := by
  unfold withConstant
  split
  · next value hv => exact (eval_of_foldConstant hv).symm
  · exact h

mutual

theorem compile_run : ∀ e : Expr, e.compile.run = e.eval
  | literal _ _ => by rw [compile, eval]
  | array site items => by
    rw [compile]
    exact withConstant_run (by rw [eval, compileItems_run items])
  | map site entries => by
    rw [compile]
    exact withConstant_run (by rw [eval, compileEntries_run entries])
  | var _ _ => by rw [compile, eval]
  | field _ _ => by rw [compile, eval]
  | access site object name => by
    rw [compile]
    exact withConstant_run (by rw [eval, compile_run object])
  | index site object key => by
    rw [compile]
    exact withConstant_run (by rw [eval, compile_run object, compile_run key])
  | unary site op operand => by
    rw [compile]
    exact withConstant_run (by rw [eval, compile_run operand])
  | binary site op left right => by
    simp only [compile, compile_run left, compile_run right]
    apply withConstant_run
    cases op <;> rw [eval] <;> simp
  | call _ _ _ args _ _ => by
    rw [compile, eval, compileEntries_run args]

theorem compileItems_run : ∀ items, (compileItems items).run = evalItems items
  | [] => by rw [compileItems, evalItems]
  | e :: rest => by rw [compileItems, evalItems, compile_run e, compileItems_run rest]

theorem compileEntries_run : ∀ entries, (compileEntries entries).run = evalEntries entries
  | [] => by rw [compileEntries, evalEntries]
  | (key, e) :: rest => by
    rw [compileEntries, evalEntries, compile_run e, compileEntries_run rest]

end

end Expr

theorem Statement.compile_run (s : Statement) : s.compile.run = s.execute := by
  cases s with
  | perform e => simp only [Statement.compile, Statement.execute, Expr.compile_run]
  | bind name type value position =>
    simp only [Statement.compile, Statement.execute, Expr.compile_run]

theorem CompiledRule.runAll_compile (statements : List Statement) :
    CompiledRule.runAll ((statements.map Statement.compile).map (·.run)) =
      Statement.executeAll statements := by
  induction statements with
  | nil => rfl
  | cons s rest ih =>
    simp only [List.map_cons, CompiledRule.runAll, Statement.executeAll, Statement.compile_run, ih]

namespace Rule

variable {limit : Nat} {r : Rule} {code : CompiledRule}

theorem eq_of_compile (h : r.compile limit = .ok code) :
    code.condition = r.condition.compile.run ∧
      code.statements = (r.statements.map Statement.compile).map (·.run) := by
  unfold Rule.compile at h
  split at h
  · contradiction
  · cases h
    exact ⟨rfl, rfl⟩

theorem compiled_condition (h : r.compile limit = .ok code) :
    code.evalCondition = r.condition.evalCondition := by
  rw [CompiledRule.evalCondition, Expr.evalCondition, (eq_of_compile h).1, Expr.compile_run]

theorem compiled_execute (h : r.compile limit = .ok code) :
    code.execute = Statement.executeAll r.statements := by
  rw [CompiledRule.execute, (eq_of_compile h).2, CompiledRule.runAll_compile]

/-- A compiled rule and the walk of its trees agree in every context: on the outcome of the
condition, on that of the statements, and on the message, the variables and the faults left
behind. -/
theorem compile_faithful (limit : Nat) (r : Rule) (code : CompiledRule)
    (h : r.compile limit = .ok code) (c : Context) :
    code.evalCondition.runOn c = r.condition.evalCondition.runOn c ∧
      code.execute.runOn c = (Statement.executeAll r.statements).runOn c := by
  rw [compiled_condition h, compiled_execute h]
  exact ⟨rfl, rfl⟩

/-- A function that drops the message and then fails. -/
def droppingFault : Function where
  id := ⟨1, "drop_and_fail"⟩
  descriptor := (Descriptor.simple "drop_and_fail" .void []).impure
  run := fun _ => do
    EvalM.changeMessage (·.setDropped true)
    throw .divisionByZero

/-- A rule whose second statement of three fails, with constants to be evaluated ahead. -/
def stoppingRule : Rule where
  name := "stopping"
  condition := .binary ⟨.boolean, .nowhere⟩ .eq
    (.binary ⟨.long, .nowhere⟩ .add (.ofValue .nowhere (.long 1)) (.ofValue .nowhere (.long 1)))
    (.ofValue .nowhere (.long 2))
  statements :=
    [.bind "x" .long
        (.unary ⟨.long, .nowhere⟩ .negate (.ofValue .nowhere (.long 3))) .nowhere,
      .perform (.call ⟨.void, .nowhere⟩ "drop_and_fail" droppingFault [] false true),
      .bind "y" .long (.ofValue .nowhere (.long 4)) .nowhere]
  position := .nowhere

theorem compile_faithful_stopping : ∃ code, stoppingRule.compile 64 = .ok code ∧
    code.evalCondition.runOn (.start (.empty .nil .epoch)) =
      (.ok true, .start (.empty .nil .epoch)) ∧
    code.execute.runOn (.start (.empty .nil .epoch)) =
      (.error .divisionByZero,
        ⟨(Message.empty .nil .epoch).setDropped true, [("x", ⟨.long, .long (-3)⟩)], []⟩) := by
  obtain ⟨code, h⟩ : ∃ code, stoppingRule.compile 64 = .ok code := ⟨_, rfl⟩
  obtain ⟨hc, he⟩ := compile_faithful 64 stoppingRule code h (.start (.empty .nil .epoch))
  refine ⟨code, h, hc.trans ?_, he.trans ?_⟩
  · rfl
  · rfl

end Rule

end LogRules
