import LogRules.Proofs.InertConditions
import LogRules.Proofs.RelatedRuns

/-!
What the rules of a source without errors can tell apart. They draw on the message, on the variables
in scope and on the functions that they call, so states that are the same in these are as good as
one to them.
-/
namespace LogRules

open EvalM

namespace EvalM

variable {α β : Type} {S : Context → Context → Prop}

/-- A computation that answers by the message and changes nothing but the message. -/
def OnMessage (x : EvalM α) : Prop :=
  ∃ act : Message → Except EvalError α × Message,
    ∀ c, x.runOn c = ((act c.message).1, { c with message := (act c.message).2 })

theorem OnlyReads.onMessage {x : EvalM α} (h : OnlyReads x) : OnMessage x := by
  obtain ⟨answer, hanswer⟩ := h
  exact ⟨fun m => (answer m, m), hanswer⟩

theorem onMessage_lift (outcome : Except EvalError α) : OnMessage (lift outcome) :=
  (onlyReads_lift outcome).onMessage

theorem onMessage_throw (error : EvalError) : OnMessage (throw error : EvalM α) :=
  ⟨fun m => (.error error, m), fun _ => rfl⟩

theorem onMessage_changeMessage (f : Message → Message) : OnMessage (changeMessage f) :=
  ⟨fun m => (.ok (), f m), fun _ => rfl⟩

theorem OnMessage.bind {x : EvalM α} {f : α → EvalM β} (hx : OnMessage x)
    (hf : ∀ a, OnMessage (f a)) : OnMessage (x >>= f) := by
  obtain ⟨act, hact⟩ := hx
  choose next hnext using hf
  refine ⟨fun m => match act m with
    | (.ok a, m') => next a m'
    | (.error error, m') => (.error error, m'), fun c => ?_⟩
  simp only [runOn_bind, hact]
  obtain ⟨outcome, m'⟩ := act c.message
  cases outcome with
  | ok a => exact hnext a { c with message := m' }
  | error error => rfl

theorem onMessage_modular : Modular fun x => OnMessage x := ⟨onMessage_lift, OnMessage.bind⟩

/-- Where the message is all that is looked at, states with the same message are as good as one, if
they may take the same message instead of theirs. -/
theorem OnMessage.uniform {x : EvalM α} (h : OnMessage x)
    (hmessage : ∀ c d, S c d → c.message = d.message)
    (hset : ∀ c d m, S c d → S { c with message := m } { d with message := m }) :
    Uniform S x := by
  obtain ⟨act, hact⟩ := h
  intro c d hstates
  rw [hact, hact, hmessage c d hstates]
  exact ⟨rfl, hset c d _ hstates⟩

end EvalM

namespace Builtin

theorem onMessage_setField (args : Args) : OnMessage (setField.2 args) := by
  refine (onMessage_lift (args.requiredString "field")).bind fun field => ?_
  have hset (value : Value) : OnMessage (do
      EvalM.changeMessage (·.setField field value)
      return Value.null) :=
    (onMessage_changeMessage _).bind fun _ => onMessage_modular.pure _
  by_cases hempty : field.isEmpty = true
  · simp only [hempty, if_true]
    refine (onMessage_throw _).bind fun _ => ?_
    split
    · exact hset _
    · exact onMessage_modular.pure _
  · simp only [hempty, Bool.false_eq_true, if_false]
    split
    · exact hset _
    · exact onMessage_modular.pure _

/-- Built-in functions look at their arguments and at the message, and change the message at
most. -/
theorem onMessage_of_mem {definition : Descriptor × (Args → EvalM Value)}
    (h : definition ∈ definitions) (args : Args) : OnMessage (definition.2 args) := by
  cases hpure : definition.1.isPure with
  | true => exact (onlyReads_of_mem definition h hpure args).onMessage
  | false =>
    have himpure : definition ∈ definitions.filter (!·.1.isPure) :=
      List.mem_filter.mpr ⟨h, by rw [hpure]; rfl⟩
    have hthree : definitions.filter (!·.1.isPure) = [setField, removeField, dropMessage] := rfl
    rw [hthree] at himpure
    simp only [List.mem_cons, List.not_mem_nil, or_false] at himpure
    obtain rfl | rfl | rfl := himpure
    · exact onMessage_setField args
    · exact (onMessage_lift _).bind fun _ =>
        (onMessage_changeMessage _).bind fun _ => onMessage_modular.pure _
    · exact (onMessage_changeMessage _).bind fun _ => onMessage_modular.pure _

end Builtin

theorem Registry.onMessage_of_builtin {generation : Nat} {name : String} {f : Function}
    (h : (Registry.builtin generation).find? name = some f) (args : Args) :
    OnMessage (f.run args) := by
  obtain ⟨definition, hdefinition, rfl⟩ := List.mem_map.mp (of_find?_ofList h).1
  exact Builtin.onMessage_of_mem hdefinition args

namespace Grammar.Clean

variable {callable : String → Prop} {env : Env} {e : Expr} {S : Context → Context → Prop}

/-- A tree without errors draws on the message, the variables in scope and the functions of the
registry. -/
theorem uniform_eval (h : Clean callable env e)
    (hmessage : ∀ c d, S c d → c.message = d.message)
    (hscope : ∀ c d, S c d → ∀ name, (env.scope.find? name).isSome →
      c.bindings.find? name = d.bindings.find? name)
    (hcalls : ∀ name f, env.registry.find? name = some f → ∀ args, Uniform S (f.run args)) :
    Uniform S e.eval := by
  refine uniform_modular.eval hereditary (fun n hn => ?_) e h
  cases n with
  | var site name =>
    cases hn with
    | var _ _ hname hfind =>
      exact uniform_lookup fun c d hstates => hscope c d hstates name (by rw [hfind]; rfl)
  | field site name => exact uniform_message hmessage
  | call site name target args named resolved =>
    cases hn with
    | call _ _ _ _ _ hname hfind => exact hcalls name target hfind
  | _ => trivial

end Grammar.Clean

/-- Relations of states, one for each scope, that evaluation over a registry keeps up. Binding a
variable brings it into scope, and may also hide one. -/
structure ScopedRelation (registry : Registry) (S : Typing.Scope → Context → Context → Prop) :
    Prop where
  message : ∀ scope c d, S scope c d → c.message = d.message
  bindings : ∀ scope c d, S scope c d → ∀ name, (scope.find? name).isSome →
    c.bindings.find? name = d.bindings.find? name
  call : ∀ name f, registry.find? name = some f → ∀ args scope, Uniform (S scope) (f.run args)
  define : ∀ scope c d, S scope c d → ∀ name type value,
    S (scope.insert name type) (c.define name type value) (d.define name type value)
  weaken : ∀ scope c d name type, S (scope.insert name type) c d → S scope c d

namespace ScopedRelation

variable {callable : String → Prop} {registry : Registry} {scope : Typing.Scope}
  {S : Typing.Scope → Context → Context → Prop}

theorem uniform_eval (hS : ScopedRelation registry S) {env : Grammar.Env} {e : Expr}
    (h : Grammar.Clean callable env e) (hregistry : env.registry = registry) :
    Uniform (S env.scope) e.eval :=
  h.uniform_eval (hS.message env.scope) (hS.bindings env.scope)
    fun name f hf args => hS.call name f (hregistry ▸ hf) args env.scope

/-- What a statement binds is in scope behind it, whatever stood in its place before. -/
theorem execute (hS : ScopedRelation registry S) {s : Statement}
    (h : s.Clean callable registry scope) {c d : Context} (hstates : S scope c d) :
    (s.execute.runOn c).1 = (s.execute.runOn d).1 ∧
      S scope (s.execute.runOn c).2 (s.execute.runOn d).2 ∧
      ((s.execute.runOn c).1 = .ok () →
        S (s.scopeAfter scope) (s.execute.runOn c).2 (s.execute.runOn d).2) := by
  have hexpression : Uniform (S scope) s.expression.eval := by
    have hclean := h.admits.accepted
    rw [Statement.Clean.env_place] at hclean
    exact hS.uniform_eval hclean rfl
  cases s with
  | perform e =>
    have hperform : Uniform (S scope) (Statement.execute (.perform e)) :=
      hexpression.bind fun _ => uniform_modular.pure ()
    obtain ⟨hsame, hafter⟩ := hperform c d hstates
    exact ⟨hsame, hafter, fun _ => hafter⟩
  | bind name type value p =>
    obtain ⟨hsame, hafter⟩ := hexpression c d hstates
    have hbind : Statement.execute (.bind name type value p) =
        value.eval >>= fun v => EvalM.define name type v := rfl
    rw [hbind, runOn_bind, runOn_bind]
    rw [Statement.expression] at hsame hafter
    obtain ⟨v, c', d', hc, hd⟩ | ⟨error, c', d', hc, hd⟩ := cases_of_same hsame
    · rw [hc, hd] at hafter ⊢
      have hbound : S (scope.insert name type) (c'.define name type v) (d'.define name type v) :=
        hS.define scope c' d' hafter name type v
      exact ⟨rfl, hS.weaken _ _ _ name type hbound, fun _ => hbound⟩
    · rw [hc, hd] at hafter ⊢
      exact ⟨rfl, hafter, fun hok => nomatch hok⟩

theorem of_scopeAfter (hS : ScopedRelation registry S) {s : Statement} {c d : Context}
    (h : S (s.scopeAfter scope) c d) : S scope c d := by
  cases s with
  | perform e => exact h
  | bind name type value p => exact hS.weaken scope c d name type h

/-- Statements behind one another: each sees what those before it have bound. -/
theorem uniform_executeAll (hS : ScopedRelation registry S) {statements : List Statement}
    (h : Statement.AllClean callable registry scope statements) :
    Uniform (S scope) (Statement.executeAll statements) := by
  induction statements generalizing scope with
  | nil => exact uniform_modular.pure ()
  | cons s rest ih =>
    intro c d hstates
    obtain ⟨hsame, hleft, hbound⟩ := hS.execute h.1 hstates
    rw [Statement.executeAll, runOn_bind, runOn_bind]
    obtain ⟨_, c', d', hc, hd⟩ | ⟨error, c', d', hc, hd⟩ := cases_of_same hsame
    · rw [hc, hd] at hbound ⊢
      obtain ⟨hrest, hafter⟩ := ih h.2 c' d' (hbound rfl)
      exact ⟨hrest, hS.of_scopeAfter hafter⟩
    · rw [hc, hd] at hleft ⊢
      exact ⟨rfl, hleft⟩

/-- A rule starts with nothing in scope. -/
theorem uniform_rule (hS : ScopedRelation registry S) {r : Rule}
    (h : r.Clean callable registry) : r.Uniform (S []) where
  condition := (hS.uniform_eval h.condition.accepted rfl).bind fun _ => uniform_lift _
  statements := hS.uniform_executeAll h.statements

end ScopedRelation

end LogRules
