import LogRules.Function.Registry
import LogRules.Proofs.Effects
import LogRules.Proofs.TypedRuns

/-!
What built-in functions can do to a run, and how they fail. They change the message at most, and
none of them has a fault that names a function or a variable.
-/
namespace LogRules

open EvalM

/-- Faults that name a function or a variable that is not there. -/
def EvalError.IsUnknownName : EvalError → Prop
  | .unresolvedFunction _ | .undefinedVariable _ => True
  | _ => False

/-- The variables and the faults of a run are the same; the message may be another. -/
def Context.SameRun (c d : Context) : Prop := d.bindings = c.bindings ∧ d.faults = c.faults

instance : IsPreorder Context Context.SameRun where
  refl _ := ⟨rfl, rfl⟩
  trans _ _ _ h h' := ⟨h'.1.trans h.1, h'.2.trans h.2⟩

namespace Builtin

/-- Faults that a built-in function may have. -/
abbrev Named (error : EvalError) : Prop := ¬error.IsUnknownName

/-- A computation that changes the message at most, and whose faults are of its own. -/
structure Tame {α : Type} (x : EvalM α) : Prop where
  moves : Moves Context.SameRun x
  faults : Meets (fun _ => True) (fun _ => True) (fun _ => True) Named x

section Computations

variable {α β : Type}

theorem tame_pure (a : α) : Tame (pure a) := ⟨moves_pure a, meets_pure trivial⟩

theorem tame_lift {outcome : Except EvalError α} (h : Outcome (fun _ => True) Named outcome) :
    Tame (EvalM.lift outcome) := ⟨moves_lift outcome, meets_lift h⟩

theorem tame_throw {error : EvalError} (h : Named error) : Tame (throw error : EvalM α) :=
  ⟨fun _ => ⟨rfl, rfl⟩, fun _ _ => h⟩

theorem tame_message : Tame EvalM.message := ⟨moves_message, meets_message⟩

theorem tame_changeMessage (f : Message → Message) : Tame (changeMessage f) :=
  ⟨fun _ => ⟨rfl, rfl⟩, fun _ _ => ⟨trivial, trivial⟩⟩

theorem Tame.bind {x : EvalM α} {f : α → EvalM β} (hx : Tame x) (hf : ∀ a, Tame (f a)) :
    Tame (x >>= f) :=
  ⟨hx.moves.bind fun a => (hf a).moves, hx.faults.bind fun a _ => (hf a).faults⟩

end Computations

section Arguments

variable (args : Args)

theorem outcome_requiredString (name : String) :
    Outcome (fun _ => True) Named (args.requiredString name) := by
  have hrequired : Outcome (fun _ => True) Named (args.required name) := by
    rw [Args.required]
    split
    · trivial
    · exact not_false
  refine hrequired.bind fun value _ => ?_
  split
  · trivial
  · exact not_false

theorem outcome_optionalBoolean (name : String) :
    Outcome (fun _ => True) Named (args.optionalBoolean name) := by
  rw [Args.optionalBoolean]
  split
  · trivial
  · trivial
  · exact not_false

theorem outcome_privateAddress (text : String) :
    Outcome (fun _ => True) Named (privateAddress args text) := by
  rw [privateAddress]
  split
  · trivial
  · exact not_false

end Arguments

theorem tame_ofArgs {body : Args → Except EvalError Value}
    (h : ∀ args, Outcome (fun _ => True) Named (body args)) (args : Args) :
    Tame (ofArgs body args) := tame_lift (h args)

theorem tame_ofMessage {body : Args → Message → Except EvalError Value}
    (h : ∀ args m, Outcome (fun _ => True) Named (body args m)) (args : Args) :
    Tame (ofMessage body args) := tame_message.bind fun m => tame_lift (h args m)

theorem tame_setField (args : Args) : Tame (setField.2 args) := by
  refine (tame_lift (outcome_requiredString args "field")).bind fun field => ?_
  have hset (value : Value) : Tame (do
      changeMessage (·.setField field value)
      return Value.null) :=
    (tame_changeMessage _).bind fun _ => tame_pure _
  have hfailure : Named (.failure args.function "field name must not be empty") := not_false
  by_cases hempty : field.isEmpty = true
  · simp only [hempty, if_true]
    refine (tame_throw hfailure).bind fun _ => ?_
    split
    · exact hset _
    · exact tame_pure _
  · simp only [hempty, Bool.false_eq_true, if_false]
    split
    · exact hset _
    · exact tame_pure _

theorem tame_removeField (args : Args) : Tame (removeField.2 args) :=
  (tame_lift (outcome_requiredString args "field")).bind fun _ =>
    (tame_changeMessage _).bind fun _ => tame_pure _

theorem tame_dropMessage (args : Args) : Tame (dropMessage.2 args) :=
  (tame_changeMessage _).bind fun _ => tame_pure _

/-- Every built-in function is tame. -/
theorem tame_of_mem : ∀ definition ∈ definitions, ∀ args, Tame (definition.2 args) := by
  have hstring {f : String → Value} (args : Args) (name : String) :
      Outcome (fun _ => True) Named (do return f (← args.requiredString name)) :=
    (outcome_requiredString args name).bind fun _ _ => trivial
  simp only [definitions, List.forall_mem_cons]
  refine ⟨tame_setField, ?hasField, tame_removeField, ?getField, ?toText, ?toLong, ?toDouble,
    ?toBoolean, ?concat, ?lowercase, ?uppercase, ?contains, ?isNull, ?isPrivateIp,
    ?sourceIpIsPrivate, tame_dropMessage, by simp⟩
  case hasField | getField => exact tame_ofMessage fun args m => hstring args _
  case lowercase | uppercase => exact tame_ofArgs fun args => hstring args _
  case toBoolean | concat | isNull => exact fun args => tame_pure _
  case toText | toLong | toDouble =>
    apply tame_ofArgs
    intro args
    split
    · trivial
    · trivial
  case contains =>
    apply tame_ofArgs
    intro args
    refine (outcome_requiredString args _).bind fun value _ =>
      (outcome_requiredString args _).bind fun sought _ =>
        (outcome_optionalBoolean args _).bind fun ignoreCase _ => ?_
    split
    · trivial
    · trivial
  case isPrivateIp =>
    apply tame_ofArgs
    exact fun args => (outcome_requiredString args _).bind fun text _ =>
      outcome_privateAddress args text
  case sourceIpIsPrivate =>
    apply tame_ofMessage
    intro args m
    refine (outcome_requiredString args _).bind fun field _ => ?_
    split
    · exact outcome_privateAddress args _
    · trivial
    · exact not_false

end Builtin

/-- What a registry finds is a function that it was made from, by its own name. -/
theorem Registry.of_find?_ofList {functions : List Function} {name : String} {f : Function}
    (h : (Registry.ofList functions).find? name = some f) :
    f ∈ functions ∧ f.descriptor.name = name := by
  obtain ⟨g, hg, hpair⟩ := List.mem_map.mp (Entries.mem_of_mem_ofList (Entries.mem_of_find? h))
  obtain ⟨hname, rfl⟩ := Prod.mk.inj hpair
  exact ⟨hg, hname⟩

theorem Registry.exists_of_mem_names {functions : List Function} {name : String}
    (h : name ∈ (ofList functions).names) : ∃ f ∈ functions, f.descriptor.name = name := by
  obtain ⟨entry, hentry, rfl⟩ := List.mem_map.mp h
  obtain ⟨f, hf, rfl⟩ := List.mem_map.mp (Entries.mem_of_mem_ofList hentry)
  exact ⟨f, hf, rfl⟩

theorem Registry.unreserved_builtin (generation : Nat) :
    (Registry.builtin generation).Unreserved := by
  have hfree : ∀ definition ∈ Builtin.definitions, isReserved definition.1.name = false := by
    decide +kernel
  intro name hname
  obtain ⟨f, hf, rfl⟩ := exists_of_mem_names hname
  obtain ⟨definition, hdefinition, rfl⟩ := List.mem_map.mp hf
  exact hfree definition hdefinition

namespace Registry

variable {generation : Nat} {name : String} {f : Function}
  (h : (Registry.builtin generation).find? name = some f)

include h

theorem tame_of_builtin (args : Args) : Builtin.Tame (f.run args) := by
  obtain ⟨definition, hdefinition, rfl⟩ := List.mem_map.mp (of_find?_ofList h).1
  exact Builtin.tame_of_mem definition hdefinition args

/-- Built-in functions leave the variables alone. They may return what they do not declare. -/
theorem behaves_of_builtin : f.Behaves False := by
  intro args c value d hrun
  have hmoves := (tame_of_builtin h args).moves c
  rw [hrun] at hmoves
  exact ⟨hmoves.1, fun hfalse => hfalse.elim⟩

end Registry

end LogRules
