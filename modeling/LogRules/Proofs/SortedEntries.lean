import LogRules.Entries
import Mathlib.Data.List.Sort
import Mathlib.Data.String.Basic

/-!
Entries in the order of their keys, and names in order. Adding keeps entries in order, and they are
determined by what is found under each key.
-/
namespace LogRules.Entries

variable {α β : Type} {entries others : Entries α}

theorem Sorted.insert (h : entries.Sorted) (key : String) (value : α) :
    (entries.insert key value).Sorted := by
  induction entries with
  | nil => exact List.pairwise_singleton _ _
  | cons first rest ih =>
    obtain ⟨k, v⟩ := first
    obtain ⟨hfirst, hrest⟩ := List.pairwise_cons.mp h
    rw [Entries.insert]
    split
    · next hlt =>
      refine List.pairwise_cons.mpr ⟨fun entry hentry => ?_, h⟩
      obtain rfl | hentry := List.mem_cons.mp hentry
      exacts [hlt, hlt.trans (hfirst entry hentry)]
    split
    · next heq => exact List.pairwise_cons.mpr ⟨heq ▸ hfirst, hrest⟩
    · next hlt hne =>
      refine List.pairwise_cons.mpr ⟨fun entry hentry => ?_, ih hrest⟩
      obtain rfl | hentry := mem_of_mem_insert hentry
      exacts [lt_of_le_of_ne (not_lt.mp hlt) hne, hfirst entry hentry]

theorem Sorted.find?_eq_some (h : entries.Sorted) {key : String} {value : α} :
    entries.find? key = some value ↔ (key, value) ∈ entries := by
  refine ⟨mem_of_find?, fun hmem => ?_⟩
  induction entries with
  | nil => cases hmem
  | cons first rest ih =>
    obtain ⟨hfirst, hrest⟩ := List.pairwise_cons.mp h
    rw [find?]
    obtain rfl | hmem := List.mem_cons.mp hmem
    · exact if_pos rfl
    · rw [if_neg (hfirst (key, value) hmem).ne, ih hrest hmem]

/-- Entries in order with the same values under the same keys are the same. -/
theorem Sorted.ext (h : entries.Sorted) (h' : others.Sorted)
    (hfind : ∀ key, entries.find? key = others.find? key) : entries = others := by
  have hmem : ∀ entry, entry ∈ entries ↔ entry ∈ others := fun (key, value) => by
    rw [← h.find?_eq_some, hfind, h'.find?_eq_some]
  have hnodup {entries : Entries α} (h : entries.Sorted) : entries.Nodup :=
    h.imp fun hlt heq => hlt.ne (congrArg Prod.fst heq)
  exact ((List.perm_ext_iff_of_nodup (hnodup h) (hnodup h')).mpr hmem).eq_of_pairwise
    (fun _ _ _ _ hlt hgt => absurd (hlt.trans hgt) (lt_irrefl _)) h h'

theorem insert_of_lt {key : String} (value : α) (h : ∀ entry ∈ entries, entry.1 < key) :
    entries.insert key value = entries ++ [(key, value)] := by
  induction entries with
  | nil => rfl
  | cons first rest ih =>
    obtain ⟨hfirst, hrest⟩ := List.forall_mem_cons.mp h
    rw [Entries.insert, if_neg hfirst.not_gt, if_neg hfirst.ne, ih hrest, List.cons_append]

/-- Entries in order are the ones that they are collected to. -/
theorem Sorted.ofList_eq (h : entries.Sorted) : ofList entries = entries := by
  have hfold (pairs before : Entries α) (h : Sorted (before ++ pairs)) :
      pairs.foldl (fun entries pair => entries.insert pair.1 pair.2) before =
        before ++ pairs := by
    induction pairs generalizing before with
    | nil => exact (List.append_nil before).symm
    | cons pair rest ih =>
      obtain ⟨key, value⟩ := pair
      have hlt : ∀ entry ∈ before, entry.1 < key := fun entry hentry =>
        (List.pairwise_append.mp h).2.2 entry hentry (key, value) List.mem_cons_self
      rw [List.append_cons] at h ⊢
      simp only [List.foldl_cons]
      rw [insert_of_lt value hlt]
      exact ih _ h
  exact hfold entries [] h

theorem find?_map (f : α → β) (key : String) :
    find? key (entries.map fun (k, v) => (k, f v)) = (entries.find? key).map f := by
  induction entries with
  | nil => rfl
  | cons first rest ih =>
    rw [List.map_cons, find?, find?, ih]
    split <;> rfl

/-- Entries in order, with the first of several values of each name. -/
structure FirstOf (name : α → String) (entries : Entries α) (values : List α) : Prop where
  sorted : entries.Sorted
  find? : ∀ key, entries.find? key = values.find? (name · == key)

namespace FirstOf

variable {name : α → String} {values : List α}

theorem contains (h : FirstOf name entries values) (key : String) :
    entries.contains key = true ↔ key ∈ values.map name := by
  rw [Entries.contains, h.find?, List.find?_isSome, List.mem_map]
  simp only [beq_iff_eq]

/-- A value is added unless its name is known. -/
theorem add (h : FirstOf name entries values) (a : α) :
    FirstOf name (if entries.contains (name a) then entries else entries.insert (name a) a)
      (values ++ [a]) where
  sorted := by
    split
    exacts [h.sorted, h.sorted.insert _ _]
  find? key := by
    rw [List.find?_append, ← h.find?]
    by_cases hkey : name a = key
    · rw [List.find?_cons_of_pos (by simpa using hkey), ← hkey]
      split
      · next hsome =>
        obtain ⟨found, hfound⟩ := Option.isSome_iff_exists.mp hsome
        rw [hfound, Option.some_or]
      · next hnone =>
        rw [find?_insert, if_pos rfl, Option.not_isSome_iff_eq_none.mp hnone, Option.none_or]
    · rw [List.find?_cons_of_neg (by simpa using hkey), List.find?_nil, Option.or_none]
      split
      · rfl
      · rw [find?_insert, if_neg hkey]

theorem find?_eq_some (h : FirstOf name entries values) (hnodup : (values.map name).Nodup)
    {key : String} {a : α} : entries.find? key = some a ↔ a ∈ values ∧ name a = key := by
  rw [h.find?]
  constructor
  · exact fun hfind => ⟨List.mem_of_find?_eq_some hfind, by simpa using List.find?_some hfind⟩
  · rintro ⟨hmem, rfl⟩
    have hsome : (values.find? (name · == name a)).isSome = true :=
      List.find?_isSome.mpr ⟨a, hmem, beq_self_eq_true (name a)⟩
    obtain ⟨found, hfound⟩ := Option.isSome_iff_exists.mp hsome
    have hname : name found = name a := by simpa using List.find?_some hfound
    rw [hfound, List.inj_on_of_nodup_map hnodup (List.mem_of_find?_eq_some hfound) hmem hname]

/-- Values of different names make the same entries in every order. -/
theorem ext {values' : List α} (h : FirstOf name entries values) (h' : FirstOf name others values')
    (hnodup : (values.map name).Nodup) (hperm : values'.Perm values) : others = entries := by
  refine h'.sorted.ext h.sorted fun key => Option.ext fun a => ?_
  rw [h.find?_eq_some hnodup, h'.find?_eq_some ((hperm.map name).nodup_iff.mpr hnodup),
    hperm.mem_iff]

end FirstOf

end LogRules.Entries

namespace LogRules

theorem insertName_of_lt {name : String} {names : List String} (h : ∀ n ∈ names, n < name) :
    insertName name names = names ++ [name] := by
  induction names with
  | nil => rfl
  | cons first rest ih =>
    obtain ⟨hfirst, hrest⟩ := List.forall_mem_cons.mp h
    rw [insertName, if_neg hfirst.not_gt, if_neg hfirst.ne, ih hrest, List.cons_append]

/-- Ascending names are the ones that they are collected to. -/
theorem foldl_insertName {names : List String} (h : names.Pairwise (· < ·)) :
    names.foldl (fun names name => insertName name names) [] = names := by
  have hfold (names before : List String) (h : (before ++ names).Pairwise (· < ·)) :
      names.foldl (fun names name => insertName name names) before = before ++ names := by
    induction names generalizing before with
    | nil => exact (List.append_nil before).symm
    | cons name rest ih =>
      have hlt : ∀ n ∈ before, n < name := fun n hn =>
        (List.pairwise_append.mp h).2.2 n hn name List.mem_cons_self
      rw [List.append_cons] at h ⊢
      rw [List.foldl_cons, insertName_of_lt hlt]
      exact ih _ h
  exact hfold names [] h

end LogRules
