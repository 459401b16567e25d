import LogRules.Proofs.JsonNumbers
import Mathlib.Tactic.IntervalCases

/-!
Compact JSON is read back as the document that it was written from. Each part is read up to where it
ends, whatever follows it.
-/
namespace LogRules

namespace Json

open JsonText (escape quote)

section Strings

/-- Control characters that are escaped by a letter. -/
def letterEscaped : List Char := ['\n', '\r', '\t', '\x08', '\x0c']

/-- What is read for a character of a string. Control characters without a letter are escaped by
number. -/
def unitOf (c : Char) : JsonUnit :=
  if c.toNat < 0x20 ∧ c ∉ letterEscaped then .escaped c.toNat else .char c

theorem escape_printable {c : Char} (hcontrol : ¬c.toNat < 0x20) (hquote : c ≠ '"')
    (hslash : c ≠ '\\') : escape c = [c] := by
  have hletter : ∀ d ∈ letterEscaped, c ≠ d := by
    rintro d hd rfl
    have hlow : ∀ d ∈ letterEscaped, d.toNat < 0x20 := by simp [letterEscaped]
    exact hcontrol (hlow c hd)
  simp only [letterEscaped, List.forall_mem_cons] at hletter
  obtain ⟨hn, hr, ht, hb, hf, -⟩ := hletter
  rw [escape, if_neg hquote, if_neg hslash, if_neg hn, if_neg hr, if_neg ht, if_neg hb, if_neg hf,
    if_neg hcontrol]

theorem readString_escape (c : Char) (text : List Char) : readString (escape c ++ text) =
    (readString text).bind fun (units, rest) => some (unitOf c :: units, rest) := by
  by_cases hcontrol : c.toNat < 0x20
  · obtain ⟨n, hn, rfl⟩ : ∃ n < 32, c = Char.ofNat n :=
      ⟨c.toNat, hcontrol, (Char.ofNat_toNat c).symm⟩
    interval_cases n <;> rfl
  · by_cases hquote : c = '"'
    · rw [hquote]
      rfl
    by_cases hslash : c = '\\'
    · rw [hslash]
      rfl
    have hunit : unitOf c = .char c := by simp [unitOf, hcontrol]
    rw [escape_printable hcontrol hquote hslash, hunit, List.singleton_append, readString]
    · simp [hslash, hcontrol]
    all_goals simp_all

theorem readString_text (cs rest : List Char) :
    readString (cs.flatMap escape ++ '"' :: rest) = some (cs.map unitOf, rest) := by
  induction cs with
  | nil => rfl
  | cons c cs ih =>
    rw [List.flatMap_cons, List.append_assoc, readString_escape, ih]
    rfl

theorem textOf?_units (cs : List Char) : textOf? (cs.map unitOf) = some cs := by
  induction cs with
  | nil => rfl
  | cons c cs ih =>
    rw [List.map_cons, unitOf]
    split
    · next hcontrol =>
      rw [textOf?.eq_def]
      simp only
      rw [if_pos (by omega), ih, Char.ofNat_toNat]
      rfl
    · rw [textOf?, ih]
      rfl

/-- The units of a text. -/
def unitsOf (text : String) : List JsonUnit := text.toList.map unitOf

theorem string?_unitsOf (text : String) : string? (unitsOf text) = some text := by
  rw [string?, unitsOf, textOf?_units]
  simp

theorem toList_quote (text : String) :
    (quote text).toList = '"' :: (text.toList.flatMap escape ++ ['"']) := by
  simp [quote]

end Strings

section Values

/-- Nothing stands here that a number would go on with. -/
abbrev Ends (rest : List Char) : Prop := EndsRun JsonNumber.continues rest

/-- The text is read as the document, up to its end. It does not start with a space or with the end
of an array. -/
structure Reads (text : List Char) (json : Json) : Prop where
  first : ∃ c tail, text = c :: tail ∧ isSpace c = false ∧ c ≠ ']'
  reads : ∀ fuel rest, text.length < fuel → Ends rest →
    readValue fuel (text ++ rest) = some (json, rest)

variable {text : List Char} {json : Json}

theorem skipSpace_cons {c : Char} {rest : List Char} (h : isSpace c = false) :
    skipSpace (c :: rest) = c :: rest := by
  rw [skipSpace, List.dropWhile_cons_of_neg (by simp [h])]

theorem reads_null : Reads "null".toList .null where
  first := ⟨'n', _, rfl, rfl, by decide⟩
  reads fuel rest hfuel _ := by
    cases fuel with
    | zero => cases hfuel
    | succ fuel => rfl

theorem reads_boolean (flag : Bool) :
    Reads (if flag then "true" else "false").toList (.boolean flag) where
  first := by
    cases flag with
    | true => exact ⟨'t', _, rfl, rfl, by decide⟩
    | false => exact ⟨'f', _, rfl, rfl, by decide⟩
  reads fuel rest hfuel _ := by
    cases fuel with
    | zero => cases hfuel
    | succ fuel => cases flag <;> rfl

theorem reads_string (text : String) : Reads (quote text).toList (.string (unitsOf text)) where
  first := ⟨'"', _, toList_quote text, rfl, by decide⟩
  reads fuel rest hfuel _ := by
    cases fuel with
    | zero => cases hfuel
    | succ fuel =>
      rw [toList_quote, List.cons_append, List.append_assoc, readValue,
        skipSpace_cons rfl]
      simp only [List.singleton_append, readString_text]
      rfl

theorem reads_number {n : JsonNumber} (hn : n.Proper) : Reads n.text (.number n) := by
  obtain ⟨c, tail, htext, hc⟩ := exists_first hn
  have hspace : isSpace c = false := by
    obtain rfl | hdigit := hc
    · rfl
    · cases hspace : isSpace c with
      | false => rfl
      | true =>
        simp only [isSpace, Bool.or_eq_true, beq_iff_eq] at hspace
        obtain ((rfl | rfl) | rfl) | rfl := hspace <;> cases hdigit
  have hother : ∀ d ∈ ['"', '[', '\x7b', 'n', 't', 'f', ']'], c ≠ d := by
    rintro d hd rfl
    obtain rfl | hdigit := hc
    · exact absurd hd (by decide)
    · have hnot : ∀ d ∈ ['"', '[', '\x7b', 'n', 't', 'f', ']'], d.isDigit = false := by simp
      rw [hnot c hd] at hdigit
      cases hdigit
  refine ⟨⟨c, tail, htext, hspace, hother ']' (by simp)⟩, fun fuel rest hfuel hrest => ?_⟩
  cases fuel with
  | zero => cases hfuel
  | succ fuel =>
    have hread := readNumber_text hn hrest
    rw [htext, List.cons_append] at hread ⊢
    have hne {d : Char} {rest' : List Char} (h : c :: (tail ++ rest) = d :: rest')
        (hd : d ∈ ['"', '[', '\x7b', 'n', 't', 'f', ']']) : False :=
      hother d hd (List.cons.inj h).1
    rw [readValue.eq_def]
    simp only [skipSpace_cons hspace]
    split
    case h_7 => rw [hread]; rfl
    all_goals exact (hne (by assumption) (by decide)).elim

/-- Whatever stands behind an item or a member does not go on with a number. -/
theorem ends_cons {c : Char} {rest : List Char} (h : c ∈ [',', ']', '\x7d']) :
    Ends (c :: rest) := by
  have hall : ∀ c ∈ [',', ']', '\x7d'], JsonNumber.continues c = false := by
    simp [JsonNumber.continues]
  exact endsRun_cons.mpr (hall c h)

/-- Items with commas between them are read up to the end of the array. -/
theorem readItems_texts {texts : List (List Char)} {items : List Json}
    (h : List.Forall₂ Reads texts items) (hne : texts ≠ []) (fuel : Nat) (rest : List Char)
    (hfuel : ([','].intercalate texts).length + 1 < fuel) :
    readItems fuel ([','].intercalate texts ++ ']' :: rest) = some (items, rest) := by
  induction h generalizing fuel with
  | nil => exact absurd rfl hne
  | @cons text item texts items hitem htexts ih =>
    obtain ⟨fuel, rfl⟩ : ∃ n, fuel = n + 1 := ⟨fuel - 1, by omega⟩
    cases htexts with
    | nil =>
      rw [List.intercalate_singleton] at hfuel ⊢
      have hread := hitem.reads fuel (']' :: rest) (by omega) (ends_cons (by simp))
      rw [readItems, hread]
      rfl
    | @cons next item' texts items hnext htexts =>
      rw [List.intercalate_cons_cons] at hfuel ⊢
      simp only [List.length_append, List.length_singleton] at hfuel
      rw [List.append_assoc, List.append_assoc, List.singleton_append]
      have hread := hitem.reads fuel
        (',' :: ([','].intercalate (next :: texts) ++ ']' :: rest)) (by omega) (ends_cons (by simp))
      have hothers := ih (by simp) fuel (by omega)
      rw [readItems, hread]
      change (readItems fuel _).bind _ = _
      rw [hothers]
      rfl

theorem exists_behind (text : List Char) (texts : List (List Char)) :
    ∃ behind, [','].intercalate (text :: texts) = text ++ behind := by
  cases texts with
  | nil => exact ⟨[], by simp⟩
  | cons next texts => exact ⟨_, by rw [List.intercalate_cons_cons, List.append_assoc]⟩

theorem reads_array {texts : List (List Char)} {items : List Json}
    (h : List.Forall₂ Reads texts items) :
    Reads ('[' :: ([','].intercalate texts ++ [']'])) (.array items) := by
  refine ⟨⟨'[', _, rfl, rfl, by decide⟩, fun fuel rest hfuel _ => ?_⟩
  obtain ⟨fuel, rfl⟩ : ∃ n, fuel = n + 1 := ⟨fuel - 1, by omega⟩
  rw [List.cons_append, List.append_assoc, List.singleton_append, readValue, skipSpace_cons rfl]
  cases h with
  | nil => rfl
  | @cons text item texts items hitem htexts =>
    have hitems := readItems_texts (.cons hitem htexts) (by simp) fuel rest
      (by simpa using hfuel)
    obtain ⟨c, tail, htext, hspace, hclose⟩ := hitem.first
    obtain ⟨behind, hbehind⟩ := exists_behind text texts
    rw [hbehind, htext, List.cons_append, List.cons_append] at hitems ⊢
    simp only [skipSpace_cons hspace]
    split
    · next heq => exact absurd (List.cons.inj heq).1 hclose
    · rw [hitems]
      rfl

/-- A member is written as its name and its value with a colon between them. -/
structure ReadsMember (text : List Char) (member : List JsonUnit × Json) : Prop where
  parts : ∃ name value, text = (quote name).toList ++ ':' :: value ∧ member.1 = unitsOf name ∧
    Reads value member.2

/-- Behind the quote that opens its name, a member is read up to its end. -/
theorem ReadsMember.reads {member : List JsonUnit × Json} (h : ReadsMember text member) :
    ∃ tail behind, text = '"' :: tail ∧ ∀ fuel rest, text.length < fuel →
      Ends rest → readString (tail ++ rest) = some (member.1, ':' :: (behind ++ rest)) ∧
        readValue fuel (behind ++ rest) = some (member.2, rest) := by
  obtain ⟨name, value, htext, hname, hvalue⟩ := h.parts
  rw [toList_quote, List.cons_append] at htext
  have hlength : value.length < text.length := by
    rw [htext]
    simp only [List.length_cons, List.length_append]
    omega
  refine ⟨_, value, htext, fun fuel rest hfuel hrest => ⟨?_, ?_⟩⟩
  · rw [List.append_assoc, List.append_assoc, List.singleton_append, readString_text, hname]
    rfl
  · exact hvalue.reads fuel rest (by omega) hrest

/-- Members with commas between them are read up to the end of the object. -/
theorem readMembers_texts {texts : List (List Char)} {members : List (List JsonUnit × Json)}
    (h : List.Forall₂ ReadsMember texts members) (hne : texts ≠ []) (fuel : Nat) (rest : List Char)
    (hfuel : ([','].intercalate texts).length + 1 < fuel) :
    readMembers fuel ([','].intercalate texts ++ '\x7d' :: rest) = some (members, rest) := by
  induction h generalizing fuel with
  | nil => exact absurd rfl hne
  | @cons text member texts members hmember htexts ih =>
    obtain ⟨fuel, rfl⟩ : ∃ n, fuel = n + 1 := ⟨fuel - 1, by omega⟩
    obtain ⟨tail, behind, htext, hreads⟩ := hmember.reads
    cases htexts with
    | nil =>
      rw [List.intercalate_singleton] at hfuel ⊢
      obtain ⟨hname, hvalue⟩ := hreads fuel ('\x7d' :: rest) (by omega) (ends_cons (by simp))
      rw [htext, List.cons_append, readMembers, skipSpace_cons rfl]
      simp only [hname]
      change (readValue fuel _).bind _ = _
      rw [hvalue]
      rfl
    | @cons next member' texts members hnext htexts =>
      rw [List.intercalate_cons_cons] at hfuel ⊢
      simp only [List.length_append, List.length_singleton] at hfuel
      rw [List.append_assoc, List.append_assoc, List.singleton_append]
      obtain ⟨hname, hvalue⟩ := hreads fuel
        (',' :: ([','].intercalate (next :: texts) ++ '\x7d' :: rest)) (by omega)
        (ends_cons (by simp))
      have hothers := ih (by simp) fuel (by omega)
      rw [htext, List.cons_append, readMembers, skipSpace_cons rfl]
      simp only [hname]
      change (readValue fuel _).bind _ = _
      rw [hvalue]
      change (readMembers fuel _).bind _ = _
      rw [hothers]
      rfl

theorem reads_object {texts : List (List Char)} {members : List (List JsonUnit × Json)}
    (h : List.Forall₂ ReadsMember texts members) :
    Reads ('\x7b' :: ([','].intercalate texts ++ ['\x7d'])) (.object members) := by
  refine ⟨⟨'\x7b', _, rfl, rfl, by decide⟩, fun fuel rest hfuel _ => ?_⟩
  obtain ⟨fuel, rfl⟩ : ∃ n, fuel = n + 1 := ⟨fuel - 1, by omega⟩
  rw [List.cons_append, List.append_assoc, List.singleton_append, readValue, skipSpace_cons rfl]
  cases h with
  | nil => rfl
  | @cons text member texts members hmember htexts =>
    have hmembers := readMembers_texts (.cons hmember htexts) (by simp) fuel rest
      (by simpa using hfuel)
    obtain ⟨tail, -, htext, -⟩ := hmember.reads
    obtain ⟨behind, hbehind⟩ := exists_behind text texts
    rw [hbehind, htext, List.cons_append, List.cons_append] at hmembers ⊢
    simp only [skipSpace_cons (show isSpace '"' = false from rfl)]
    split
    · next heq => exact absurd (List.cons.inj heq).1 (by decide)
    · rw [hmembers]
      rfl

/-- A text that is read as a document is one. -/
theorem Reads.read? {document : String} (h : Reads document.toList json) :
    Json.read? document = some json := by
  have hread := h.reads (document.toList.length + 1) [] (Nat.lt_succ_self _) (endsRun_nil _)
  rw [List.append_nil] at hread
  rw [Json.read?, hread]
  rfl

end Values

end Json

end LogRules
