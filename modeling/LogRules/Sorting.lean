/-!
Stable sorting by a key, and the removal of repeated neighbours.
-/
namespace LogRules

variable {α κ : Type}

/-- Inserts before the first element that is not smaller. -/
def insertBy [LE κ] [DecidableLE κ] (key : α → κ) (a : α) : List α → List α
  | [] => [a]
  | b :: rest => if key a ≤ key b then a :: b :: rest else b :: insertBy key a rest

/-- Sorts by a key; elements with equal keys keep their order. -/
def sortBy [LE κ] [DecidableLE κ] (key : α → κ) : List α → List α
  | [] => []
  | a :: rest => insertBy key a (sortBy key rest)

/-- Keeps one of each run of equal neighbours. -/
def dropRepeats [DecidableEq α] : List α → List α
  | [] => []
  | [a] => [a]
  | a :: b :: rest =>
    if a = b then dropRepeats (b :: rest) else a :: dropRepeats (b :: rest)

@[simp] theorem mem_dropRepeats [DecidableEq α] {a : α} {xs : List α} :
    a ∈ dropRepeats xs ↔ a ∈ xs := by
  induction xs with
  | nil => rfl
  | cons b rest ih =>
    cases rest with
    | nil => rfl
    | cons c more =>
      rw [dropRepeats]
      split
      · next heq => simp only [ih, heq, List.mem_cons, or_self_left]
      · simp only [List.mem_cons, ih]

theorem insertBy_perm [LE κ] [DecidableLE κ] (key : α → κ) (a : α) (xs : List α) :
    (insertBy key a xs).Perm (a :: xs) := by
  induction xs with
  | nil => exact List.Perm.refl _
  | cons b rest ih =>
    simp only [insertBy]
    split
    · exact List.Perm.refl _
    · exact (ih.cons b).trans (List.Perm.swap a b rest)

theorem sortBy_perm [LE κ] [DecidableLE κ] (key : α → κ) (xs : List α) :
    (sortBy key xs).Perm xs := by
  induction xs with
  | nil => exact List.Perm.refl _
  | cons a rest ih => exact (insertBy_perm key a _).trans (ih.cons a)

/-- What is sorted stays as it is. -/
theorem sortBy_of_pairwise [LE κ] [DecidableLE κ] {key : α → κ} {xs : List α}
    (h : xs.Pairwise fun a b => key a ≤ key b) : sortBy key xs = xs := by
  induction xs with
  | nil => rfl
  | cons a rest ih =>
    rw [List.pairwise_cons] at h
    rw [sortBy, ih h.2]
    cases rest with
    | nil => rfl
    | cons b more => exact if_pos (h.1 b List.mem_cons_self)

theorem insertBy_map {β : Type} [LE κ] [DecidableLE κ] {key : α → κ} {key' : β → κ} {f : α → β}
    (h : ∀ a b, key' (f a) ≤ key' (f b) ↔ key a ≤ key b) (a : α) (xs : List α) :
    insertBy key' (f a) (xs.map f) = (insertBy key a xs).map f := by
  induction xs with
  | nil => rfl
  | cons b rest ih =>
    simp only [List.map_cons, insertBy, h]
    split
    · rfl
    · rw [ih, List.map_cons]

/-- Sorting commutes with a map that keeps the order of the keys. -/
theorem sortBy_map {β : Type} [LE κ] [DecidableLE κ] {key : α → κ} {key' : β → κ} {f : α → β}
    (h : ∀ a b, key' (f a) ≤ key' (f b) ↔ key a ≤ key b) (xs : List α) :
    sortBy key' (xs.map f) = (sortBy key xs).map f := by
  induction xs with
  | nil => rfl
  | cons a rest ih => rw [List.map_cons, sortBy, sortBy, ih, insertBy_map h]

theorem dropRepeats_map {β : Type} [DecidableEq α] [DecidableEq β] {f : α → β}
    (h : ∀ a b, f a = f b → a = b) (xs : List α) :
    dropRepeats (xs.map f) = (dropRepeats xs).map f := by
  induction xs with
  | nil => rfl
  | cons a rest ih =>
    cases rest with
    | nil => rfl
    | cons b more =>
      rw [List.map_cons] at ih
      simp only [List.map_cons, dropRepeats, ih]
      by_cases hab : a = b
      · rw [if_pos hab, if_pos (congrArg f hab)]
      · rw [if_neg hab, if_neg fun hf => hab (h a b hf), List.map_cons]

end LogRules
