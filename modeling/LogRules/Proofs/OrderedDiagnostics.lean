import LogRules.Diagnostic
import Mathlib.Data.List.Chain
import Mathlib.Data.List.Nodup

/-!
Diagnostics in the order of their places. Sorting keeps what stands at one place in order, so new
diagnostics can be arranged among arranged ones without loss.
-/
namespace LogRules

namespace Position

theorem le_trans {p q r : Position} (h : p ≤ q) (h' : q ≤ r) : p ≤ r := by
  change p.line < q.line ∨ p.line = q.line ∧ p.column ≤ q.column at h
  change q.line < r.line ∨ q.line = r.line ∧ q.column ≤ r.column at h'
  change p.line < r.line ∨ p.line = r.line ∧ p.column ≤ r.column
  omega

theorem le_of_not_le {p q : Position} (h : ¬ p ≤ q) : q ≤ p := by
  change ¬ (p.line < q.line ∨ p.line = q.line ∧ p.column ≤ q.column) at h
  change q.line < p.line ∨ q.line = p.line ∧ q.column ≤ p.column
  omega

end Position

section Sorting

variable {α κ : Type} [LE κ] [DecidableLE κ] {key : α → κ}
  (trans : ∀ {a b c : κ}, a ≤ b → b ≤ c → a ≤ c) (total : ∀ {a b : κ}, ¬ a ≤ b → b ≤ a)

include trans total in
theorem pairwise_insertBy (a : α) {xs : List α} (h : xs.Pairwise fun b c => key b ≤ key c) :
    (insertBy key a xs).Pairwise fun b c => key b ≤ key c := by
  induction xs with
  | nil => exact List.pairwise_singleton _ a
  | cons b rest ih =>
    obtain ⟨hfirst, hrest⟩ := List.pairwise_cons.mp h
    rw [insertBy]
    split
    · next hle =>
      refine List.pairwise_cons.mpr ⟨fun c hc => ?_, h⟩
      obtain rfl | hc := List.mem_cons.mp hc
      exacts [hle, trans hle (hfirst c hc)]
    · next hnot =>
      refine List.pairwise_cons.mpr ⟨fun c hc => ?_, ih hrest⟩
      obtain rfl | hc := List.mem_cons.mp ((insertBy_perm key a rest).mem_iff.mp hc)
      exacts [total hnot, hfirst c hc]

include trans total in
theorem pairwise_sortBy (xs : List α) : (sortBy key xs).Pairwise fun a b => key a ≤ key b := by
  induction xs with
  | nil => exact .nil
  | cons a rest ih => exact pairwise_insertBy trans total a ih

include trans in
/-- In a sorted list the place of an element is found among some of the others, too. -/
theorem insertBy_filter (test : α → Bool) {a : α} (ha : test a = true) {xs : List α}
    (h : xs.Pairwise fun b c => key b ≤ key c) :
    (insertBy key a xs).filter test = insertBy key a (xs.filter test) := by
  induction xs with
  | nil => simp only [insertBy, List.filter_cons, ha, List.filter_nil, if_true]
  | cons b rest ih =>
    obtain ⟨hfirst, hrest⟩ := List.pairwise_cons.mp h
    rw [insertBy]
    split
    · next hle =>
      rw [List.filter_cons_of_pos ha]
      cases hkept : (b :: rest).filter test with
      | nil => rfl
      | cons c more =>
        have hc : c ∈ b :: rest := (List.mem_filter.mp (hkept ▸ List.mem_cons_self)).1
        have hac : key a ≤ key c := by
          obtain rfl | hc := List.mem_cons.mp hc
          exacts [hle, trans hle (hfirst c hc)]
        rw [insertBy, if_pos hac]
    · next hnot =>
      cases hb : test b with
      | true =>
        rw [List.filter_cons_of_pos hb, List.filter_cons_of_pos hb, ih hrest, insertBy, if_neg hnot]
      | false =>
        have hskipped (more : List α) : (b :: more).filter test = more.filter test :=
          List.filter_cons_of_neg (by simp [hb])
        rw [hskipped, hskipped, ih hrest]

theorem insertBy_filter_not (test : α → Bool) {a : α} (ha : test a = false) (xs : List α) :
    (insertBy key a xs).filter test = xs.filter test := by
  induction xs with
  | nil => simp only [insertBy, List.filter_cons, ha, List.filter_nil, Bool.false_eq_true, if_false]
  | cons b rest ih =>
    rw [insertBy]
    split
    · rw [List.filter_cons_of_neg (by simp [ha])]
    · rw [List.filter_cons, List.filter_cons, ih]

include trans total in
/-- Sorting some elements is taking them from all that are sorted. -/
theorem sortBy_filter (test : α → Bool) (xs : List α) :
    (sortBy key xs).filter test = sortBy key (xs.filter test) := by
  induction xs with
  | nil => rfl
  | cons a rest ih =>
    cases ha : test a with
    | true =>
      rw [List.filter_cons_of_pos ha, sortBy, sortBy, ← ih]
      exact insertBy_filter trans test ha (pairwise_sortBy trans total rest)
    | false =>
      rw [List.filter_cons_of_neg (by simp [ha]), sortBy, ← ih]
      exact insertBy_filter_not test ha _

end Sorting

section Repeats

variable {α : Type} [DecidableEq α]

theorem dropRepeats_sublist (xs : List α) : (dropRepeats xs).Sublist xs := by
  induction xs with
  | nil => exact .slnil
  | cons a rest ih =>
    cases rest with
    | nil => exact .refl _
    | cons b more =>
      rw [dropRepeats]
      split
      · exact ih.cons a
      · exact ih.cons_cons a

theorem dropRepeats_of_isChain {xs : List α} (h : xs.IsChain (· ≠ ·)) : dropRepeats xs = xs := by
  induction xs with
  | nil => rfl
  | cons a rest ih =>
    cases rest with
    | nil => rfl
    | cons b more =>
      obtain ⟨hab, hrest⟩ := List.isChain_cons_cons.mp h
      rw [dropRepeats, if_neg hab, ih hrest]

theorem head?_dropRepeats (xs : List α) : (dropRepeats xs).head? = xs.head? := by
  induction xs with
  | nil => rfl
  | cons a rest ih =>
    cases rest with
    | nil => rfl
    | cons b more =>
      rw [dropRepeats]
      split
      · next h => rw [ih, h]; rfl
      · rfl

theorem isChain_dropRepeats (xs : List α) : (dropRepeats xs).IsChain (· ≠ ·) := by
  induction xs with
  | nil => exact .nil
  | cons a rest ih =>
    cases rest with
    | nil => exact .singleton a
    | cons b more =>
      rw [dropRepeats]
      split
      · exact ih
      · next hab =>
        refine List.isChain_cons.mpr ⟨fun c hc => ?_, ih⟩
        rw [head?_dropRepeats] at hc
        obtain rfl := Option.some.inj hc
        exact hab

omit [DecidableEq α] in
/-- Neighbours differ if they do among the elements of either kind. -/
theorem isChain_of_filter (test : α → Bool) {xs : List α}
    (h : (xs.filter test).IsChain (· ≠ ·)) (h' : (xs.filter (!test ·)).Nodup) :
    xs.IsChain (· ≠ ·) := by
  induction xs with
  | nil => exact .nil
  | cons a rest ih =>
    cases ha : test a with
    | true =>
      rw [List.filter_cons_of_pos ha] at h
      rw [List.filter_cons_of_neg (by simp [ha])] at h'
      refine List.isChain_cons.mpr ⟨fun b hb => ?_, ih h.tail h'⟩
      rintro rfl
      cases rest with
      | nil => cases hb
      | cons c more =>
        obtain rfl := Option.some.inj hb
        rw [List.filter_cons_of_pos ha] at h
        exact (List.isChain_cons_cons.mp h).1 rfl
    | false =>
      rw [List.filter_cons_of_neg (by simp [ha])] at h
      rw [List.filter_cons_of_pos (by simp [ha])] at h'
      obtain ⟨hfresh, hnodup⟩ := List.nodup_cons.mp h'
      refine List.isChain_cons.mpr ⟨fun b hb => ?_, ih h hnodup⟩
      rintro rfl
      exact hfresh (List.mem_filter.mpr ⟨List.mem_of_mem_head? hb, by simp [ha]⟩)

end Repeats

namespace Diagnostic

theorem pairwise_sorted (errors : List Diagnostic) :
    (sortBy Diagnostic.position errors).Pairwise fun d d' => d.position ≤ d'.position :=
  pairwise_sortBy Position.le_trans Position.le_of_not_le errors

theorem pairwise_arrange (errors : List Diagnostic) :
    (arrange errors).Pairwise fun d d' => d.position ≤ d'.position :=
  (pairwise_sorted errors).sublist (dropRepeats_sublist _)

/-- Diagnostics that differ from each other are as many when they are arranged. -/
theorem countP_arrange {test : Diagnostic → Bool} {errors : List Diagnostic}
    (h : (errors.filter test).Nodup) : (arrange errors).countP test = errors.countP test := by
  have hsorted : ((sortBy Diagnostic.position errors).filter test).Nodup :=
    ((sortBy_perm Diagnostic.position errors).filter test).nodup_iff.mpr h
  have harranged : ((arrange errors).filter test).Nodup :=
    hsorted.sublist ((dropRepeats_sublist _).filter test)
  have hperm : ((arrange errors).filter test).Perm (errors.filter test) := by
    refine (List.perm_ext_iff_of_nodup harranged h).mpr fun d => ?_
    rw [List.mem_filter, List.mem_filter, mem_arrange]
  rw [List.countP_eq_length_filter, List.countP_eq_length_filter, hperm.length_eq]

/-- Nothing is lost when new diagnostics are arranged among arranged ones. -/
theorem arrange_append_perm {errors added : List Diagnostic} (hfresh : ∀ d ∈ added, d ∉ errors)
    (hnodup : added.Nodup) :
    (arrange (arrange errors ++ added)).Perm (arrange errors ++ added) := by
  have hfilter (test : Diagnostic → Bool) :
      (sortBy Diagnostic.position (arrange errors ++ added)).filter test =
        sortBy Diagnostic.position ((arrange errors ++ added).filter test) :=
    sortBy_filter Position.le_trans Position.le_of_not_le test _
  have hold : (arrange errors ++ added).filter (· ∈ errors) = arrange errors := by
    rw [List.filter_append, List.filter_eq_self.mpr (by simp),
      List.filter_eq_nil_iff.mpr (by simpa using hfresh), List.append_nil]
  have hadded : (arrange errors ++ added).filter (fun d => !decide (d ∈ errors)) = added := by
    rw [List.filter_append, List.filter_eq_nil_iff.mpr (by simp),
      List.filter_eq_self.mpr (by simpa using hfresh), List.nil_append]
  have hchain : (sortBy Diagnostic.position (arrange errors ++ added)).IsChain (· ≠ ·) := by
    refine isChain_of_filter (· ∈ errors) ?_ ?_
    · rw [hfilter, hold, sortBy_of_pairwise (pairwise_arrange errors)]
      exact isChain_dropRepeats _
    · rw [hfilter, hadded]
      exact (sortBy_perm Diagnostic.position added).nodup_iff.mpr hnodup
  have harranged : arrange (arrange errors ++ added) =
      sortBy Diagnostic.position (arrange errors ++ added) := dropRepeats_of_isChain hchain
  rw [harranged]
  exact sortBy_perm Diagnostic.position _

end Diagnostic

end LogRules
