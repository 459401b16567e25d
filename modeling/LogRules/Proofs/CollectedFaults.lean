import LogRules.Proofs.FaultReports
import Mathlib.Logic.Relation

/-!
The field that collects the texts of faults. Its entries are the faults of the report, one for one
and in order, behind whatever text it held before. Without such a field a run changes the message by
the calls that it makes, and by nothing else.
-/
namespace LogRules

open EvalM

/-- What is written of a fault in the field that collects faults. -/
def RuleFault.entry (fault : RuleFault) : String :=
  s!"For rule '{fault.rule}': {fault.error.message}"

theorem RuleFault.entry_ne_empty (fault : RuleFault) : fault.entry ≠ "" := by
  have htext : fault.entry = "For rule '" ++ fault.rule ++ "': " ++ fault.error.message := rfl
  rw [htext]
  simp [String.append_eq_empty_iff]

namespace Message

/-- The text that a field keeps when faults are collected in it: any value that is not a text is
given up, and an empty text too. -/
def keptText : Option Value → List String
  | some (.string text) => if text.isEmpty then [] else [text]
  | _ => []

/-- What a field holds when faults have been collected in it. -/
def collect (old : Option Value) (faults : List RuleFault) : Option Value :=
  if faults.isEmpty then old
  else some (.string ("; ".intercalate (keptText old ++ faults.map RuleFault.entry)))

theorem intercalate_ne_empty {texts : List String} {last : String} (h : last ≠ "") :
    "; ".intercalate (texts ++ [last]) ≠ "" := by
  cases texts with
  | nil => rwa [List.nil_append, String.intercalate_singleton]
  | cons text rest =>
    rw [List.cons_append, String.intercalate_cons_of_ne_nil (by simp)]
    simp [String.append_eq_empty_iff]

theorem keptText_of_ne_empty {text : String} (h : text ≠ "") :
    keptText (some (.string text)) = [text] := if_neg (by simpa using h)

theorem collect_of_ne_nil (old : Option Value) {faults : List RuleFault} (h : faults ≠ []) :
    collect old faults =
      some (.string ("; ".intercalate (keptText old ++ faults.map RuleFault.entry))) :=
  if_neg (by simpa using h)

/-- Faults can be collected in turns. -/
theorem collect_append (old : Option Value) (faults others : List RuleFault) :
    collect (collect old faults) others = collect old (faults ++ others) := by
  obtain rfl | ⟨first, last, rfl⟩ := List.eq_nil_or_concat faults
  · rfl
  obtain rfl | hothers := eq_or_ne others []
  · rw [List.append_nil]
    rfl
  have htext : "; ".intercalate (keptText old ++ (first.concat last).map RuleFault.entry) ≠ "" := by
    rw [List.concat_eq_append, List.map_append, ← List.append_assoc]
    exact intercalate_ne_empty last.entry_ne_empty
  have hmap : others.map RuleFault.entry ≠ [] := by simpa using hothers
  rw [collect_of_ne_nil old (by simp), collect_of_ne_nil _ hothers, collect_of_ne_nil old (by simp),
    keptText_of_ne_empty htext, List.map_append, ← List.append_assoc,
    String.intercalate_append_of_ne_nil (by simp) hmap,
    String.intercalate_append_of_ne_nil (by simp) hmap, String.intercalate_singleton]

theorem field?_setField (m : Message) (name : String) (value : Value) (other : String) :
    (m.setField name value).field? other = if name = other then some value else m.field? other :=
  Entries.find?_insert name other value m.fields

theorem field?_appendError (m : Message) (field : String) (fault : RuleFault) :
    (m.appendError field fault.entry).field? field = collect (m.field? field) [fault] := by
  rw [appendError, field?_setField, if_pos rfl, collect_of_ne_nil _ (by simp), List.map_singleton]
  obtain _ | value := m.field? field
  · rw [keptText, List.nil_append, String.intercalate_singleton]
    exact fun text h => nomatch h
  · cases value with
    | string text =>
      simp only [keptText]
      split
      · rw [List.nil_append, String.intercalate_singleton]
      · rw [String.intercalate_append_of_ne_nil (by simp) (by simp),
          String.intercalate_singleton, String.intercalate_singleton]
    | _ => exact congrArg (fun text => some (Value.string text)) String.intercalate_singleton.symm

end Message

namespace Context

/-- The faults that have come are those that have been collected in a field. -/
def Collects (field : String) (c d : Context) : Prop :=
  ∃ faults, d.faults = c.faults ++ faults ∧
    d.message.field? field = Message.collect (c.message.field? field) faults

instance (field : String) : IsPreorder Context (Collects field) where
  refl c := ⟨[], by simp, rfl⟩
  trans c d e := by
    rintro ⟨faults, hfaults, hfield⟩ ⟨others, hothers, hothers'⟩
    refine ⟨faults ++ others, by rw [hothers, hfaults, List.append_assoc], ?_⟩
    rw [hothers', hfield, Message.collect_append]

variable {field : String}

/-- Nothing has come where the field and the faults are as they were. -/
theorem collects_of_same {c d : Context}
    (hfield : d.message.field? field = c.message.field? field) (hfaults : d.faults = c.faults) :
    Collects field c d := ⟨[], by rw [hfaults, List.append_nil], hfield⟩

theorem collects_recordFault (fault : RuleFault) (c : Context) :
    Collects field c (Run.recordFault (some field) fault c) :=
  ⟨[fault], rfl, Message.field?_appendError c.message field fault⟩

end Context

namespace Engine

open Run

/-- Some call of the run finds the one message and leaves the other. -/
def ChangesMessage (engine : Engine) (message : Message) (names : List String) (m m' : Message) :
    Prop := ∃ x y, engine.Calls message names x y ∧ x.message = m ∧ y.message = m'

/-- A chain of calls of the run leads from the message of one state to that of another. -/
def LeadsTo (engine : Engine) (message : Message) (names : List String) (c d : Context) : Prop :=
  Relation.ReflTransGen (engine.ChangesMessage message names) c.message d.message

instance (engine : Engine) (message : Message) (names : List String) :
    IsPreorder Context (engine.LeadsTo message names) where
  refl _ := .refl
  trans _ _ _ := .trans

/-- A message that other faults have been collected in. -/
def faultyMessage : Message :=
  (Message.empty .nil .epoch).setField "processing_error" (.string "too late")

/-- The only function that rules of the deployment can call is the one of its registry. -/
theorem call_notingDeployment {message : Message} {names : List String} {x y : Context}
    (h : ((new .interpretedOnly).after [.install notingDeployment]).Calls message names x y) :
    y.message = x.message := by
  obtain ⟨r, hr, e, he, site, hsite, values, rfl⟩ := Calls.exists_site rfl h
  rw [deployment_install] at hr
  have hbuild : Deployment.build notingSources [] notingRegistry = .ok notingDeployment :=
    Deployment.eq_ok_of_isSome notingSources_isSome
  obtain ⟨source, hclean, hdeclared⟩ | ⟨name, rfl⟩ := Deployment.rules_of_build hbuild r hr
  · have hrule : r.Clean (fun _ => True) notingRegistry :=
      clean_of_source (fun _ _ _ => trivial) hclean hdeclared
    have htarget : notingRegistry.find? site.name = some site.target :=
      hrule.resolvedIn e he site hsite
    obtain hnoting | hnone := Registry.eq_or_of_find?_add htarget
    · rw [hnoting]
      rfl
    · cases hnone
  · rw [List.mem_singleton.mp he] at hsite
    cases hsite

end Engine

end LogRules
