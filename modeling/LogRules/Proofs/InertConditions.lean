import LogRules.Proofs.Builtins
import LogRules.Proofs.CleanSources
import LogRules.Proofs.Compilation

/-!
Conditions have no effect. Parsing lets a condition call only functions that are marked pure, at
every depth of its tree, so where these leave the state of a run alone, judging a condition does
too, whatever comes of it.
-/
namespace LogRules

open EvalM

namespace EvalM

variable {α β : Type}

/-- A computation that leaves every state as it was, whatever comes of it, and so answers the same
when it is run again. -/
def Inert (x : EvalM α) : Prop :=
  ∀ c, (x.runOn c).2 = c ∧ x.runOn (x.runOn c).2 = x.runOn c

theorem Moves.inert {x : EvalM α} (h : Moves Eq x) : Inert x := by
  intro c
  rw [← h c]
  exact ⟨rfl, rfl⟩

/-- A computation that answers by what it reads of the message, and does nothing else. -/
def OnlyReads (x : EvalM α) : Prop :=
  ∃ answer : Message → Except EvalError α, ∀ c, x.runOn c = (answer c.message, c)

theorem onlyReads_lift (outcome : Except EvalError α) : OnlyReads (lift outcome) :=
  ⟨fun _ => outcome, runOn_lift outcome⟩

theorem onlyReads_message : OnlyReads message := ⟨.ok, fun _ => rfl⟩

theorem OnlyReads.bind {x : EvalM α} {f : α → EvalM β} (hx : OnlyReads x)
    (hf : ∀ a, OnlyReads (f a)) : OnlyReads (x >>= f) := by
  obtain ⟨answer, hanswer⟩ := hx
  choose next hnext using hf
  refine ⟨fun m => answer m >>= fun a => next a m, fun c => ?_⟩
  simp only [runOn_bind, hanswer]
  cases answer c.message with
  | error error => rfl
  | ok a => exact hnext a c

theorem onlyReads_modular : Modular fun x => OnlyReads x := ⟨onlyReads_lift, OnlyReads.bind⟩

theorem OnlyReads.moves {x : EvalM α} (h : OnlyReads x) : Moves Eq x := by
  obtain ⟨answer, hanswer⟩ := h
  intro c
  rw [hanswer]

end EvalM

/-- Functions that are marked pure leave the state of a run as they find it. -/
def Registry.KeepsPurity (registry : Registry) : Prop :=
  ∀ name f, registry.find? name = some f → f.descriptor.isPure = true → f.Respects Eq

namespace Builtin

theorem onlyReads_ofArgs (body : Args → Except EvalError Value) (args : Args) :
    OnlyReads (ofArgs body args) := onlyReads_lift _

theorem onlyReads_ofMessage (body : Args → Message → Except EvalError Value) (args : Args) :
    OnlyReads (ofMessage body args) := onlyReads_message.bind fun _ => onlyReads_lift _

/-- Built-in functions that are marked pure look at their arguments and at the message. -/
theorem onlyReads_of_mem : ∀ definition ∈ definitions, definition.1.isPure = true →
    ∀ args, OnlyReads (definition.2 args) := by
  simp only [definitions, List.forall_mem_cons]
  refine ⟨?setField, ?hasField, ?removeField, ?getField, ?toText, ?toLong, ?toDouble, ?toBoolean,
    ?concat, ?lowercase, ?uppercase, ?contains, ?isNull, ?isPrivateIp, ?sourceIpIsPrivate,
    ?dropMessage, by simp⟩
  case setField | removeField | dropMessage => exact fun h => absurd h Bool.false_ne_true
  case hasField | getField | sourceIpIsPrivate => exact fun _ => onlyReads_ofMessage _
  case toBoolean | concat | isNull => exact fun _ _ => onlyReads_modular.pure _
  all_goals exact fun _ => onlyReads_ofArgs _

end Builtin

namespace Registry

variable {generation : Nat}

theorem onlyReads_of_builtin {name : String} {f : Function}
    (h : (Registry.builtin generation).find? name = some f) (hpure : f.descriptor.isPure = true)
    (args : Args) : OnlyReads (f.run args) := by
  obtain ⟨definition, hdefinition, rfl⟩ := List.mem_map.mp (of_find?_ofList h).1
  exact Builtin.onlyReads_of_mem definition hdefinition hpure args

theorem keepsPurity_builtin (generation : Nat) : (Registry.builtin generation).KeepsPurity :=
  fun _ _ h hpure args => (onlyReads_of_builtin h hpure args).moves

end Registry

namespace Grammar.Clean

variable {callable : String → Prop} {env : Env} {e : Expr}

theorem hereditary : Expr.Hereditary (Clean callable env) := fun _ _ => Clean.child

/-- A call in a condition is known to the registry and marked pure. -/
theorem pure_call {site : Site} {name : String} {target : Function} {args : List (String × Expr)}
    {named resolved : Bool} (h : Clean callable env (.call site name target args named resolved))
    (hcondition : env.inCondition = true) :
    env.registry.find? name = some target ∧ target.descriptor.isPure = true := by
  cases h with
  | call _ _ _ _ _ hname hfind htype hargs hparams hnamed hbound hclean =>
    refine ⟨hfind, ?_⟩
    rw [Typing.call_errors _ hfind, List.append_eq_nil_iff, List.append_eq_nil_iff] at hclean
    have heffect := hclean.2.2
    rw [hcondition, Typing.effectErrors] at heffect
    cases hpure : target.descriptor.isPure with
    | true => rfl
    | false =>
      simp [hpure, Typing.fault_ne_nil] at heffect

/-- A condition does what its functions do that are marked pure. -/
theorem moves_condition (hpurity : env.registry.KeepsPurity) (hcondition : env.inCondition = true)
    (h : Clean callable env e) : Moves Eq e.evalCondition := by
  refine moves_modular.evalCondition hereditary (fun n hn => ?_) h
  cases n with
  | var site name => exact moves_lookup name
  | field site name => exact moves_message
  | call site name target args named resolved =>
    obtain ⟨hfind, hpure⟩ := hn.pure_call hcondition
    exact hpurity name target hfind hpure
  | _ => trivial

end Grammar.Clean

namespace Rule

/-- The condition of a rule of a source without errors leaves the message, the variables and the
faults of every run as they were, also where it fails, and answers the same when it is judged again:
walked as a tree and compiled. This holds over the built-in functions, and over any others of which
those marked pure leave the state of a run alone. -/
theorem condition_inert {registry : Registry}
    (hregistry : (∃ generation, registry = .builtin generation) ∨ registry.KeepsPurity)
    {source : String} (hclean : (parseSource source registry).isClean) {r : Rule}
    (hr : r ∈ (parseSource source registry).rules) :
    Inert r.condition.evalCondition ∧
      ∀ limit code, r.compile limit = .ok code → Inert code.evalCondition := by
  have hpurity : registry.KeepsPurity := by
    obtain ⟨generation, rfl⟩ | hpurity := hregistry
    · exact Registry.keepsPurity_builtin generation
    · exact hpurity
  have hrule : r.Clean (fun _ => True) registry :=
    clean_of_source (fun _ _ _ => trivial) hclean hr
  have hinert : Inert r.condition.evalCondition :=
    (hrule.condition.accepted.moves_condition hpurity rfl).inert
  refine ⟨hinert, fun limit code hcode => ?_⟩
  rw [compiled_condition hcode]
  exact hinert

end Rule

def shareSource : String :=
  "rule \"share\" when has_field(\"n\") && 7 / to_long($message.n) > 1 then set_field(\"n\", 1); end"

theorem shareSource_rules_ne_nil : (parseSource shareSource (.builtin 0)).rules ≠ [] := by
  rw [Ne, ← List.isEmpty_iff]
  decide +kernel

/-- A rule whose condition calls two functions before it fails, and whose statement calls one that
is not pure. -/
def shareRule : Rule :=
  (parseSource shareSource (.builtin 0)).rules.head shareSource_rules_ne_nil

/-- A run in which a variable is bound and a fault is recorded. -/
def startedRun : Context :=
  ⟨(Message.empty .nil .epoch).setField "n" (.long 0), [("x", ⟨.long, .long 1⟩)],
    [⟨"p", 0, "first", .execution, .divisionByZero⟩]⟩

theorem Rule.condition_inert_shareRule :
    shareRule.condition.evalCondition.runOn startedRun = (.error .divisionByZero, startedRun) ∧
      ∃ code, shareRule.compile 64 = .ok code ∧
        code.evalCondition.runOn startedRun = (.error .divisionByZero, startedRun) := by
  have hclean : (parseSource shareSource (.builtin 0)).isClean := by decide +kernel
  have hrule : shareRule ∈ (parseSource shareSource (.builtin 0)).rules :=
    List.head_mem shareSource_rules_ne_nil
  have hfault : (shareRule.condition.evalCondition.runOn startedRun).1 =
      .error .divisionByZero := by decide +kernel
  have hcompiles : (shareRule.compile 64).toOption.isSome = true := by decide +kernel
  obtain ⟨code, hcode⟩ : ∃ code, shareRule.compile 64 = .ok code := by
    cases h : shareRule.compile 64 with
    | ok code => exact ⟨code, rfl⟩
    | error error =>
      rw [h] at hcompiles
      cases hcompiles
  obtain ⟨hwalked, hcompiled⟩ := condition_inert (.inl ⟨0, rfl⟩) hclean hrule
  refine ⟨Prod.ext hfault (hwalked startedRun).1, code, hcode,
    Prod.ext ?_ (hcompiled 64 code hcode startedRun).1⟩
  rw [compiled_condition hcode]
  exact hfault

end LogRules
