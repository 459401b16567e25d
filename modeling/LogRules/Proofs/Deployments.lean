import LogRules.Deployment
import LogRules.Proofs.CleanSources
import LogRules.Proofs.History

/-!
Deployments that could be built. Every rule that they run is declared by a source without errors,
unless its name is not declared at all.
-/
namespace LogRules

/-- The rule is declared by a source without errors. -/
def Rule.IsDeclared (registry : Registry) (r : Rule) : Prop :=
  ∃ source, (parseSource source registry).isClean ∧ r ∈ (parseSource source registry).rules

namespace Deployment

/-- Unless something is wrong with a source, every declared rule is one of a source without
errors. -/
def Declared.Sound (registry : Registry) (declared : Declared) : Prop :=
  declared.invalid = [] → ∀ entry ∈ declared.rules, entry.2.IsDeclared registry

theorem Declared.rules_of_add {declared : Declared} {declaration : Declaration}
    {entry : String × Rule} (h : entry ∈ (declared.add declaration).1.rules) :
    declaration = .rule entry.2 ∨ entry ∈ declared.rules := by
  cases declaration with
  | rule r =>
    rw [add] at h
    split at h
    · exact .inr h
    · cases Entries.mem_of_mem_insert h with
      | inl h => exact .inl (h ▸ rfl)
      | inr h => exact .inr h
  | pipeline p =>
    rw [add] at h
    split at h <;> exact .inr h

theorem Declared.rules_of_addAll {declared : Declared} {declarations : List Declaration}
    {entry : String × Rule} (h : entry ∈ (declared.addAll declarations).1.rules) :
    .rule entry.2 ∈ declarations ∨ entry ∈ declared.rules := by
  induction declarations generalizing declared with
  | nil => exact .inr h
  | cons declaration rest ih =>
    cases ih h with
    | inl h => exact .inl (List.mem_cons_of_mem _ h)
    | inr h =>
      cases rules_of_add h with
      | inl h => exact .inl (h ▸ List.mem_cons_self)
      | inr h => exact .inr h

theorem Declared.invalid_of_add (declared : Declared) (declaration : Declaration) :
    (declared.add declaration).1.invalid = declared.invalid := by
  cases declaration with
  | rule r =>
    rw [add]
    split <;> rfl
  | pipeline p =>
    rw [add]
    split <;> rfl

theorem Declared.invalid_of_addAll (declared : Declared) (declarations : List Declaration) :
    (declared.addAll declarations).1.invalid = declared.invalid := by
  induction declarations generalizing declared with
  | nil => rfl
  | cons declaration rest ih => exact (ih _).trans (invalid_of_add declared declaration)

theorem Declared.Sound.addSource {registry : Registry} {declared : Declared}
    (h : declared.Sound registry) (unit : SourceUnit) :
    (declared.addSource registry unit).Sound registry := by
  rw [Declared.addSource]
  simp only
  split
  · intro hinvalid
    simp at hinvalid
  · next hnone =>
    intro hinvalid entry hentry
    rw [invalid_of_addAll] at hinvalid
    cases rules_of_addAll hentry with
    | inr hmem => exact h hinvalid entry hmem
    | inl hmem =>
      refine ⟨unit.text, ?_, List.mem_filterMap.mpr ⟨_, hmem, rfl⟩⟩
      rw [Diagnostics.ofList?] at hnone
      split at hnone
      · next hempty =>
        have herrors := (List.append_eq_nil_iff.mp (List.isEmpty_iff.mp hempty)).1
        rw [ParsedSource.isClean, herrors]
        rfl
      · cases hnone

theorem Declared.sound_foldl {registry : Registry} (units : List SourceUnit) {declared : Declared}
    (h : declared.Sound registry) :
    (units.foldl (Declared.addSource registry) declared).Sound registry := by
  induction units generalizing declared with
  | nil => exact h
  | cons unit rest ih => exact ih (h.addSource unit)

theorem ruleNamed_cases (rules : Entries Rule) (name : String) :
    (∃ entry ∈ rules, ruleNamed rules name = entry.2) ∨
      ruleNamed rules name = .alwaysFalse name := by
  rw [ruleNamed]
  cases h : rules.find? name with
  | some r => exact .inl ⟨(name, r), Entries.mem_of_find? h, rfl⟩
  | none => exact .inr rfl

/-- The rules of linked stages are those that their references name. -/
theorem exists_ref_of_link {lookup : String → Rule} {pipelines : Entries Pipeline}
    {rules : Entries Rule} {r : Rule}
    (h : r ∈ (Deployment.mk rules
      (pipelines.map fun (name, p) => (name, p.link lookup))).stageRules) :
    ∃ ref, r = lookup ref := by
  obtain ⟨linked, hlinked, hr⟩ := List.mem_flatMap.mp h
  obtain ⟨s, hs, hr⟩ := List.mem_flatMap.mp hr
  obtain ⟨entry, hentry, rfl⟩ := List.mem_map.mp hlinked
  obtain ⟨⟨name, p⟩, -, rfl⟩ := List.mem_map.mp hentry
  obtain ⟨stage, -, rfl⟩ := List.mem_map.mp hs
  obtain ⟨ref, -, rfl⟩ := List.mem_map.mp hr
  exact ⟨ref, rfl⟩

theorem eq_ok_of_isSome {outcome : Except InvalidSources Deployment}
    (h : outcome.toOption.isSome = true) : outcome = .ok (outcome.toOption.get h) := by
  cases outcome with
  | ok d => rfl
  | error invalid => cases h

/-- A rule that a deployment can run comes from a source without errors, or never matches. -/
theorem rules_of_build {ruleSources pipelineSources : List SourceUnit} {registry : Registry}
    {d : Deployment} (h : build ruleSources pipelineSources registry = .ok d) :
    ∀ r ∈ d.stageRules, r.IsDeclared registry ∨ ∃ name, r = .alwaysFalse name := by
  have hsound : Declared.Sound registry ((ruleSources ++ pipelineSources).foldl
      (Declared.addSource registry) ⟨[], [], []⟩) :=
    Declared.sound_foldl _ fun _ _ hentry => absurd hentry List.not_mem_nil
  rw [build] at h
  simp only at h
  split at h
  · next hvalid =>
    cases h
    intro r hr
    obtain ⟨ref, rfl⟩ := exists_ref_of_link hr
    cases ruleNamed_cases _ ref with
    | inl hdeclared =>
      obtain ⟨entry, hentry, hrule⟩ := hdeclared
      exact .inl (hrule ▸ hsound (List.isEmpty_iff.mp hvalid) entry hentry)
    | inr hnever => exact .inr ⟨ref, hnever⟩
  · cases h

end Deployment

end LogRules
