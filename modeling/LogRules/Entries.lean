/-!
Maps from text to values as lists of entries in ascending order of their keys, each key once.
Two such lists with the same look-ups are equal.
-/
namespace LogRules

/-- Entries in the order of their keys, by code point. -/
abbrev Entries (α : Type) := List (String × α)

namespace Entries

variable {α β : Type}

def find? (key : String) : Entries α → Option α
  | [] => none
  | (k, v) :: rest => if k = key then some v else find? key rest

def contains (entries : Entries α) (key : String) : Bool := (entries.find? key).isSome

/-- Adds or replaces an entry and keeps the order. -/
def insert (key : String) (value : α) : Entries α → Entries α
  | [] => [(key, value)]
  | (k, v) :: rest =>
    if key < k then (key, value) :: (k, v) :: rest
    else if k = key then (key, value) :: rest
    else (k, v) :: insert key value rest

def erase (key : String) (entries : Entries α) : Entries α := entries.filter (·.1 != key)

/-- Of two values for one key the later one stays. -/
def ofList (pairs : List (String × α)) : Entries α :=
  pairs.foldl (fun entries (key, value) => entries.insert key value) []

def keys (entries : Entries α) : List String := entries.map (·.1)

def values (entries : Entries α) : List α := entries.map (·.2)

/-- Keys ascend strictly. -/
def Sorted (entries : Entries α) : Prop := entries.Pairwise (·.1 < ·.1)

theorem mem_of_find? {key : String} {value : α} {entries : Entries α}
    (h : entries.find? key = some value) : (key, value) ∈ entries := by
  induction entries with
  | nil => simp [find?] at h
  | cons entry rest ih =>
    rw [find?] at h
    split at h
    · next hk =>
      cases h
      simp [← hk]
    · exact List.mem_cons_of_mem _ (ih h)

theorem mem_of_mem_insert {key : String} {value : α} {entry : String × α} {entries : Entries α}
    (h : entry ∈ entries.insert key value) : entry = (key, value) ∨ entry ∈ entries := by
  induction entries with
  | nil => exact .inl (List.mem_singleton.mp h)
  | cons first rest ih =>
    rw [insert] at h
    split at h
    · exact List.mem_cons.mp h
    · split at h
      · exact (List.mem_cons.mp h).imp_right (List.mem_cons_of_mem _)
      · cases h with
        | head => exact .inr List.mem_cons_self
        | tail _ h => exact (ih h).imp_right (List.mem_cons_of_mem _)

theorem mem_of_mem_ofList {pairs : List (String × α)} {entry : String × α}
    (h : entry ∈ ofList pairs) : entry ∈ pairs := by
  have hfold (pairs : List (String × α)) (entries : Entries α)
      (h : entry ∈ pairs.foldl (fun entries (key, value) => entries.insert key value) entries) :
      entry ∈ pairs ∨ entry ∈ entries := by
    induction pairs generalizing entries with
    | nil => exact .inr h
    | cons pair rest ih =>
      cases ih _ h with
      | inl h => exact .inl (List.mem_cons_of_mem _ h)
      | inr h =>
        cases mem_of_mem_insert h with
        | inl h => exact .inl (h ▸ List.mem_cons_self)
        | inr h => exact .inr h
  exact (hfold pairs [] h).resolve_right List.not_mem_nil

theorem find?_insert (key name : String) (value : α) (entries : Entries α) :
    (entries.insert key value).find? name =
      if key = name then some value else entries.find? name := by
  induction entries with
  | nil => rfl
  | cons entry rest ih =>
    rw [insert]
    split
    · rfl
    · split
      · next hsame =>
        rw [find?, find?, hsame]
        split
        · rfl
        · rfl
      · next hother =>
        rw [find?, find?, ih]
        split
        · next hname => rw [if_neg (fun h => hother (hname.trans h.symm))]
        · rfl

end Entries

/-- Adds a name to an ascending list of names, once. -/
def insertName (name : String) : List String → List String
  | [] => [name]
  | n :: rest =>
    if name < n then name :: n :: rest
    else if n = name then n :: rest
    else n :: insertName name rest

end LogRules
