import LogRules.Proofs.ScopedRelations

/-!
The rules of a pipeline share one state, and what one of them has bound is still bound when the next
one runs. None of them can tell: a rule reads no variable that it has not bound itself before, on
whatever way it comes there.
-/
namespace LogRules

open EvalM

/-- The message is the same, and so are the variables in scope. All other variables may differ, and
the faults as well. -/
structure Context.AgreeOn (scope : Typing.Scope) (c d : Context) : Prop where
  message : c.message = d.message
  bindings : ∀ name, (scope.find? name).isSome →
    c.bindings.find? name = d.bindings.find? name

open Context

/-- Where nothing is in scope, nothing has to be the same but the message. -/
theorem Context.agreeOn_nil {c d : Context} (h : c.message = d.message) : AgreeOn [] c d :=
  ⟨h, fun _ hname => nomatch hname⟩

theorem Context.AgreeOn.define {scope : Typing.Scope} {c d : Context} (h : AgreeOn scope c d)
    (name : String) (type : ValueType) (value : Value) :
    AgreeOn (scope.insert name type) (c.define name type value) (d.define name type value) where
  message := h.message
  bindings := by
    intro other hother
    rw [Context.define, Context.define, Entries.find?_insert, Entries.find?_insert]
    rw [Entries.find?_insert] at hother
    split
    · rfl
    · next hname =>
      rw [if_neg hname] at hother
      exact h.bindings other hother

/-- More variables in scope ask for more. -/
theorem Context.AgreeOn.of_insert {scope : Typing.Scope} {c d : Context} {name : String}
    {type : ValueType} (h : AgreeOn (scope.insert name type) c d) : AgreeOn scope c d where
  message := h.message
  bindings := by
    intro other hother
    refine h.bindings other ?_
    rw [Entries.find?_insert]
    split
    · rfl
    · exact hother

theorem scopedRelation_agreeOn (generation : Nat) :
    ScopedRelation (.builtin generation) AgreeOn where
  message _ _ _ h := h.message
  bindings _ _ _ h := h.bindings
  call _ _ hf args _ := (Registry.onMessage_of_builtin hf args).uniform
    (fun _ _ hstates => hstates.message) fun _ _ _ hstates => ⟨rfl, hstates.bindings⟩
  define _ _ _ h := h.define
  weaken _ _ _ _ _ h := h.of_insert

namespace Rule

/-- Rules do not see what other rules have bound. The condition of a rule of a source without errors
over the built-in functions, and its statements, come to the same from any two states of a run with
the same message, and leave the same message behind, walked as trees or compiled: also where a
statement fails, and where a variable is bound again. -/
theorem bindings_unseen {generation : Nat} {source : String}
    (hclean : (parseSource source (.builtin generation)).isClean) {r : Rule}
    (hr : r ∈ (parseSource source (.builtin generation)).rules) {body : RuleBody}
    (hbody : body.FormOf r) {c d : Context} (hmessage : c.message = d.message) :
    (body.condition.runOn c).1 = (body.condition.runOn d).1 ∧
      (body.condition.runOn c).2.message = (body.condition.runOn d).2.message ∧
      (body.execute.runOn c).1 = (body.execute.runOn d).1 ∧
      (body.execute.runOn c).2.message = (body.execute.runOn d).2.message := by
  have hrule : r.Clean (fun _ => True) (.builtin generation) :=
    clean_of_source (fun _ _ _ => trivial) hclean hr
  have huniform : r.Uniform (AgreeOn []) := (scopedRelation_agreeOn generation).uniform_rule hrule
  have hstates : AgreeOn [] c d := agreeOn_nil hmessage
  obtain ⟨hverdict, hjudged⟩ :=
    hbody.runs.coupled_condition hbody.runs huniform c d hstates
  obtain ⟨hresult, hexecuted⟩ := hbody.runs.coupled_execute hbody.runs huniform c d hstates
  exact ⟨hverdict, hjudged.message, hresult, hexecuted.message⟩

end Rule

def shadowingSource : String :=
  "rule \"shadowing\" when $message.n > 0 then
     let x = $message.n; let x = x + 1; set_field(\"m\", x); let y = x / 0; end"

theorem shadowingSource_rules_ne_nil : (parseSource shadowingSource (.builtin 0)).rules ≠ [] := by
  rw [Ne, ← List.isEmpty_iff]
  decide +kernel

/-- A rule that binds a variable twice and fails when it binds another. -/
def shadowingRule : Rule :=
  (parseSource shadowingSource (.builtin 0)).rules.head shadowingSource_rules_ne_nil

/-- A run in which rules before have left these bindings. -/
def behindBindings (bindings : Entries Binding) : Context :=
  ⟨(Message.empty .nil .epoch).setField "n" (.long 1), bindings, []⟩

theorem Rule.bindings_unseen_shadowingRule :
    ((RuleBody.interpreted shadowingRule).execute.runOn (behindBindings [])).1 =
        .error .divisionByZero ∧
      ((RuleBody.interpreted shadowingRule).execute.runOn
        (behindBindings [("x", ⟨.string, .string "s"⟩), ("y", ⟨.long, .long 7⟩)])).1 =
        .error .divisionByZero ∧
      ((RuleBody.interpreted shadowingRule).execute.runOn (behindBindings [])).2.message =
        ((RuleBody.interpreted shadowingRule).execute.runOn
          (behindBindings [("x", ⟨.string, .string "s"⟩), ("y", ⟨.long, .long 7⟩)])).2.message ∧
      (((RuleBody.interpreted shadowingRule).execute.runOn
        (behindBindings [])).2.message.field "m").plain = "2" := by
  obtain ⟨hclean, hfails, hfield⟩ : (parseSource shadowingSource (.builtin 0)).isClean ∧
      ((RuleBody.interpreted shadowingRule).execute.runOn (behindBindings [])).1 =
        .error .divisionByZero ∧
      (((RuleBody.interpreted shadowingRule).execute.runOn
        (behindBindings [])).2.message.field "m").plain = "2" := by decide +kernel
  have hrule : shadowingRule ∈ (parseSource shadowingSource (.builtin 0)).rules :=
    List.head_mem shadowingSource_rules_ne_nil
  obtain ⟨-, -, hresult, hmessage⟩ := bindings_unseen hclean hrule .interpreted
    (c := behindBindings [])
    (d := behindBindings [("x", ⟨.string, .string "s"⟩), ("y", ⟨.long, .long 7⟩)]) rfl
  exact ⟨hfails, hresult.symm.trans hfails, hmessage, hfield⟩

end LogRules
