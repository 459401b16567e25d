import LogRules.Proofs.OrderedDiagnostics

/-!
Diagnostics as a set. Arranging keeps every error and brings them into the order of their places.
An error that was reported twice is left once, unless another error at its place was reported in
between: sorting looks at places only, so the two do not become neighbours.
-/
namespace LogRules

section Repeats

variable {α : Type} [DecidableEq α]

/-- What has no repeated neighbours survives where they are dropped. -/
theorem sublist_dropRepeats {xs ys : List α} (hchain : ys.IsChain (· ≠ ·)) (h : ys.Sublist xs) :
    ys.Sublist (dropRepeats xs) := by
  induction xs generalizing ys with
  | nil => exact h
  | cons a rest ih =>
    cases rest with
    | nil => exact h
    | cons b more =>
      rw [dropRepeats]
      split
      · next hab =>
        subst hab
        cases h with
        | cons _ h => exact ih hchain h
        | cons_cons _ h =>
          refine ih hchain ?_
          cases h with
          | cons _ h => exact h.cons_cons a
          | cons_cons _ h => exact absurd rfl (List.isChain_cons_cons.mp hchain).1
      · cases h with
        | cons _ h => exact (ih hchain h).cons a
        | cons_cons _ h => exact (ih hchain.tail h).cons_cons a

/-- Dropping repeated neighbours leaves everything once exactly if nothing comes back behind
something else. -/
theorem nodup_dropRepeats_iff {xs : List α} :
    (dropRepeats xs).Nodup ↔ ∀ a b, [a, b, a].Sublist xs → a = b := by
  constructor
  · intro hnodup a b h
    by_contra hab
    have hchain : [a, b, a].IsChain (· ≠ ·) := by simp [hab, Ne.symm hab]
    have hkept := (sublist_dropRepeats hchain h).nodup hnodup
    simp at hkept
  · intro h
    induction xs with
    | nil => exact .nil
    | cons a rest ih =>
      have hrest := ih fun c d hcd => h c d (hcd.cons a)
      cases rest with
      | nil => exact List.nodup_singleton a
      | cons b more =>
        rw [dropRepeats]
        split
        · exact hrest
        · next hab =>
          refine List.nodup_cons.mpr ⟨fun hmem => ?_, hrest⟩
          obtain rfl | hmem := List.mem_cons.mp (mem_dropRepeats.mp hmem)
          · exact hab rfl
          · exact hab (h a b (((List.singleton_sublist.mpr hmem).cons_cons b).cons_cons a))

end Repeats

namespace Position

theorem le_antisymm {p q : Position} (h : p ≤ q) (h' : q ≤ p) : p = q := by
  change p.line < q.line ∨ p.line = q.line ∧ p.column ≤ q.column at h
  change q.line < p.line ∨ q.line = p.line ∧ q.column ≤ p.column at h'
  obtain ⟨hline, hcolumn⟩ : p.line = q.line ∧ p.column = q.column := by omega
  cases p
  cases q
  exact congrArg₂ mk hline hcolumn

theorem le_refl (p : Position) : p ≤ p := .inr ⟨rfl, Nat.le_refl _⟩

end Position

namespace Diagnostic

/-- Some error is reported again behind another one at its place. -/
def Recurs (errors : List Diagnostic) : Prop :=
  ∃ d e, d ≠ e ∧ d.position = e.position ∧ [d, e, d].Sublist errors

/-- Sorting leaves the errors of one place in the order in which they were reported. -/
theorem filter_sorted (p : Position) (errors : List Diagnostic) :
    (sortBy Diagnostic.position errors).filter (·.position = p) =
      errors.filter (·.position = p) := by
  rw [sortBy_filter Position.le_trans Position.le_of_not_le]
  refine sortBy_of_pairwise (List.pairwise_iff_forall_sublist.mpr fun {d e} h => ?_)
  have hplace : ∀ f ∈ [d, e], f.position = p := fun f hf => by
    simpa using (List.mem_filter.mp (h.subset hf)).2
  rw [hplace d (by simp), hplace e (by simp)]
  exact p.le_refl

theorem sublist_sorted {chosen errors : List Diagnostic} {p : Position}
    (hplace : ∀ d ∈ chosen, d.position = p) :
    chosen.Sublist (sortBy Diagnostic.position errors) ↔ chosen.Sublist errors := by
  have hsame : chosen.filter (·.position = p) = chosen :=
    List.filter_eq_self.mpr fun d hd => by simpa using hplace d hd
  have hmeet (xs : List Diagnostic) :
      chosen.Sublist xs ↔ chosen.Sublist (xs.filter (·.position = p)) :=
    ⟨fun h => hsame ▸ h.filter _, fun h => h.trans List.filter_sublist⟩
  rw [hmeet, filter_sorted, ← hmeet]

/-- Arranged errors are all different exactly if none of them recurs. -/
theorem nodup_arrange_iff (errors : List Diagnostic) :
    (arrange errors).Nodup ↔ ¬Recurs errors := by
  rw [arrange, nodup_dropRepeats_iff]
  constructor
  · rintro h ⟨d, e, hne, hplace, hsub⟩
    exact hne (h d e ((sublist_sorted (p := d.position) (by simp [hplace])).mpr hsub))
  · intro h d e hsub
    by_contra hne
    -- What stands between two errors of one place in a sorted list has that place, too.
    have hsorted := (pairwise_sorted errors).sublist hsub
    have hplace : d.position = e.position := by
      simp only [List.pairwise_cons, List.mem_cons, forall_eq_or_imp] at hsorted
      exact Position.le_antisymm hsorted.1.1 hsorted.2.1.1
    exact h ⟨d, e, hne, hplace,
      (sublist_sorted (p := d.position) (by simp [hplace])).mp hsub⟩

/-- Arranging what is arranged changes nothing. -/
theorem arrange_arrange (errors : List Diagnostic) : arrange (arrange errors) = arrange errors := by
  rw [arrange, sortBy_of_pairwise (pairwise_arrange errors)]
  exact dropRepeats_of_isChain (isChain_dropRepeats _)

end Diagnostic

namespace Diagnostics

theorem ofList?_cons (d : Diagnostic) (rest : List Diagnostic) :
    ofList? (d :: rest) = some ⟨Diagnostic.arrange (d :: rest)⟩ := rfl

theorem ofList?_eq_none {errors : List Diagnostic} : ofList? errors = none ↔ errors = [] := by
  cases errors with
  | nil => exact iff_of_true rfl rfl
  | cons d rest => simp [ofList?_cons]

theorem ofList?_eq_some {errors : List Diagnostic} {found : Diagnostics} :
    ofList? errors = some found ↔ errors ≠ [] ∧ found = ⟨Diagnostic.arrange errors⟩ := by
  cases errors with
  | nil => exact iff_of_false (by simp [ofList?]) (by simp)
  | cons d rest => rw [ofList?_cons, Option.some_inj, eq_comm]; simp

/-- There are no diagnostics exactly where there is no error. Otherwise they are the errors in the
order of their places, and they are all different unless one was reported again behind another one
at its place. Making diagnostics of diagnostics changes nothing. -/
theorem ofList?_ordered (errors : List Diagnostic) :
    (ofList? errors = none ↔ errors = []) ∧
      ∀ found, ofList? errors = some found →
        found.errors.Pairwise (fun d d' => d.position ≤ d'.position) ∧
          (∀ d, d ∈ found.errors ↔ d ∈ errors) ∧
          (found.errors.Nodup ↔ ¬Diagnostic.Recurs errors) ∧
          ofList? found.errors = some found := by
  refine ⟨ofList?_eq_none, fun found hfound => ?_⟩
  obtain ⟨hne, rfl⟩ := ofList?_eq_some.mp hfound
  refine ⟨Diagnostic.pairwise_arrange errors, fun d => Diagnostic.mem_arrange,
    Diagnostic.nodup_arrange_iff errors, ?_⟩
  obtain ⟨d, hd⟩ := List.exists_mem_of_ne_nil errors hne
  have hkept : Diagnostic.arrange errors ≠ [] :=
    List.ne_nil_of_mem (Diagnostic.mem_arrange.mpr hd)
  exact ofList?_eq_some.mpr ⟨hkept, by rw [Diagnostic.arrange_arrange]⟩

/-- Two places, with an error repeated at one of them. -/
def lateAndEarly : List Diagnostic :=
  [.syntactic ⟨3, 1⟩ "late", .syntactic ⟨1, 4⟩ "early", .syntactic ⟨3, 1⟩ "late",
    .syntactic ⟨3, 1⟩ "later"]

theorem ofList?_ordered_lateAndEarly : ∃ found, ofList? lateAndEarly = some found ∧
    found.errors = [.syntactic ⟨1, 4⟩ "early", .syntactic ⟨3, 1⟩ "late",
      .syntactic ⟨3, 1⟩ "later"] ∧
    found.errors.Nodup ∧ ¬Diagnostic.Recurs lateAndEarly ∧ ofList? found.errors = some found := by
  have hfound : ofList? lateAndEarly = some ⟨[.syntactic ⟨1, 4⟩ "early",
    .syntactic ⟨3, 1⟩ "late", .syntactic ⟨3, 1⟩ "later"]⟩ := by decide
  obtain ⟨-, -, hnodup, hagain⟩ := (ofList?_ordered lateAndEarly).2 _ hfound
  exact ⟨_, hfound, rfl, by decide, hnodup.mp (by decide), hagain⟩

/-- An error that comes back behind another one at its place is kept twice. -/
theorem recurring_kept_twice :
    ofList? [.syntactic ⟨1, 1⟩ "a", .syntactic ⟨1, 1⟩ "b", .syntactic ⟨1, 1⟩ "a"] =
        some ⟨[.syntactic ⟨1, 1⟩ "a", .syntactic ⟨1, 1⟩ "b", .syntactic ⟨1, 1⟩ "a"]⟩ ∧
      ¬[Diagnostic.syntactic ⟨1, 1⟩ "a", .syntactic ⟨1, 1⟩ "b", .syntactic ⟨1, 1⟩ "a"].Nodup := by
  decide

end Diagnostics

end LogRules
