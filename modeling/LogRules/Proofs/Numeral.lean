import LogRules.Number.Layout
import LogRules.Token.Scan
import Mathlib.Algebra.Order.Field.Rat
import Mathlib.Data.List.TakeWhile
import Mathlib.Tactic.FieldSimp
import Mathlib.Tactic.Ring

/-!
Written numbers without a sign: digits, perhaps a fraction, perhaps an exponent. Such a text is
scanned as one number, and the text of a decimal reads back as a decimal of the same value.
-/
namespace LogRules

/-- The run of a class of characters ends where this text starts. -/
def EndsRun (inClass : Char → Bool) (rest : List Char) : Prop :=
  ∀ c ∈ rest.head?, inClass c = false

theorem endsRun_nil (inClass : Char → Bool) : EndsRun inClass [] := by
  intro c hc
  simp at hc

theorem endsRun_cons {inClass : Char → Bool} {c : Char} {rest : List Char} :
    EndsRun inClass (c :: rest) ↔ inClass c = false := by
  simp [EndsRun]

section Runs

variable {inClass : Char → Bool} {run rest : List Char}

theorem takeWhile_run (hrun : ∀ c ∈ run, inClass c) (hrest : EndsRun inClass rest) :
    (run ++ rest).takeWhile inClass = run := by
  rw [List.takeWhile_append_of_pos hrun]
  cases rest with
  | nil => simp
  | cons c rest => simp [endsRun_cons.mp hrest]

theorem dropWhile_run (hrun : ∀ c ∈ run, inClass c) (hrest : EndsRun inClass rest) :
    (run ++ rest).dropWhile inClass = rest := by
  rw [List.dropWhile_append_of_pos hrun]
  cases rest with
  | nil => simp
  | cons c rest => simp [endsRun_cons.mp hrest]

theorem Digits.split_run (hrun : ∀ c ∈ run, c.isDigit) (hrest : EndsRun Char.isDigit rest) :
    Digits.split (run ++ rest) = (run, rest) := by
  rw [Digits.split, takeWhile_run hrun hrest, dropWhile_run hrun hrest]

theorem Cursor.span_run (hrun : ∀ c ∈ run, inClass c) (hrest : EndsRun inClass rest)
    (p : Position) :
    Cursor.span inClass ⟨p, run ++ rest⟩ = (run, ⟨p.advanceAll run, rest⟩) := by
  simp only [Cursor.span, takeWhile_run hrun hrest, dropWhile_run hrun hrest]

end Runs

theorem Digits.value_eq (digits : List Char) : Digits.value digits = Nat.ofDigitChars 10 digits 0 :=
  rfl

theorem Digits.value_toDigits (n : Nat) : Digits.value (Nat.toDigits 10 n) = n :=
  Nat.ofDigitChars_ten_toDigits

theorem Digits.value_zeros_append (count : Nat) (digits : List Char) :
    Digits.value (List.replicate count '0' ++ digits) = Digits.value digits := by
  simp only [Digits.value_eq, Nat.ofDigitChars_append, Nat.ofDigitChars_replicate_zero, mul_zero]

theorem Digits.value_append_zeros (count : Nat) (digits : List Char) :
    Digits.value (digits ++ List.replicate count '0') = Digits.value digits * 10 ^ count := by
  simp only [Digits.value_eq, Nat.ofDigitChars_append, Nat.ofDigitChars_replicate_zero, mul_comm]

theorem isDigit_toDigits {n : Nat} {c : Char} (h : c ∈ Nat.toDigits 10 n) : c.isDigit :=
  Nat.isDigit_of_mem_toDigits (by decide) (by decide) h

theorem isDigit_zeros {count : Nat} {c : Char} (h : c ∈ List.replicate count '0') : c.isDigit := by
  rw [List.eq_of_mem_replicate h]
  rfl

/-- An integer is written as its digits behind a minus if it is negative. -/
theorem Digits.toList_toString (i : Int) : (toString i).toList =
    (if i < 0 then ['-'] else []) ++ Nat.toDigits 10 i.natAbs := by
  rw [Int.toString_eq_repr, Int.repr_eq_if]
  by_cases hneg : i < 0
  · have habs : (-i).toNat = i.natAbs := by omega
    rw [if_neg (by omega), if_pos hneg, String.toList_append, Nat.toList_repr, habs]
    rfl
  · have habs : i.toNat = i.natAbs := by omega
    rw [if_pos (by omega), if_neg hneg, Nat.toList_repr, habs]
    rfl

theorem splitSign_digits {digits : List Char} (h : ∀ c ∈ digits, c.isDigit) :
    splitSign digits = (false, digits) := by
  rw [splitSign.eq_def]
  split
  · exact absurd (h '-' (by simp)) (by decide)
  · exact absurd (h '+' (by simp)) (by decide)
  · rfl

/-- A written number taken apart. Without a fraction there is no point, and an exponent has digits
and perhaps a minus. -/
structure Numeral where
  whole : List Char
  fraction : List Char
  exponent : Option (Bool × List Char)
  whole_ne_nil : whole ≠ []
  isDigit_whole : ∀ c ∈ whole, c.isDigit
  isDigit_fraction : ∀ c ∈ fraction, c.isDigit
  isDigit_exponent : ∀ x ∈ exponent, x.2 ≠ [] ∧ ∀ c ∈ x.2, c.isDigit

namespace Numeral

def fractionText (n : Numeral) : List Char :=
  if n.fraction = [] then [] else '.' :: n.fraction

def exponentText (n : Numeral) : List Char :=
  match n.exponent with
  | none => []
  | some (negative, digits) => 'e' :: (if negative then ['-'] else []) ++ digits

def text (n : Numeral) : List Char := n.whole ++ (n.fractionText ++ n.exponentText)

/-- The power of ten of the exponent. -/
def power (n : Numeral) : Int :=
  match n.exponent with
  | none => 0
  | some (negative, digits) =>
    if negative then -(Digits.value digits : Int) else Digits.value digits

def IsFloat (n : Numeral) : Prop := n.fraction ≠ [] ∨ n.exponent ≠ none

end Numeral

/-- A number ends where this text starts: no character of a name follows, and no point with a digit
behind it. -/
structure EndsNumber (rest : List Char) : Prop where
  endsRun : EndsRun Text.isNameChar rest
  point : ∀ d tail, rest = '.' :: d :: tail → d.isDigit = false

theorem EndsNumber.isDigit {rest : List Char} (h : EndsNumber rest) :
    EndsRun Char.isDigit rest := by
  intro c hc
  have hname := h.endsRun c hc
  simp only [Text.isNameChar, Char.isAlphanum, Bool.or_eq_false_iff] at hname
  exact hname.1.2

namespace Numeral

variable (n : Numeral) {rest : List Char}

theorem endsRun_exponentText (h : EndsNumber rest) :
    EndsRun Char.isDigit (n.exponentText ++ rest) := by
  rw [exponentText]
  split
  · exact h.isDigit
  · rw [List.cons_append, List.cons_append, endsRun_cons]
    rfl

theorem endsRun_fractionText (h : EndsNumber rest) :
    EndsRun Char.isDigit (n.fractionText ++ (n.exponentText ++ rest)) := by
  rw [fractionText]
  split
  · exact n.endsRun_exponentText h
  · rw [List.cons_append, endsRun_cons]
    rfl

theorem scan_fraction (h : EndsNumber rest) (p : Position) :
    ∃ q, Scan.fraction ⟨p, n.fractionText ++ (n.exponentText ++ rest)⟩ =
      (if n.fraction = [] then none else some n.fraction, ⟨q, n.exponentText ++ rest⟩) := by
  by_cases hnone : n.fraction = []
  · refine ⟨p, ?_⟩
    simp only [fractionText, if_pos hnone, List.nil_append, Scan.fraction]
    split
    · next d tail heq =>
      -- A point here can only be that of the rest, which no digit follows.
      have hd : d.isDigit = false := by
        rw [exponentText] at heq
        split at heq
        · exact h.point d tail heq
        · simp at heq
      simp [hd]
    · rfl
  · obtain ⟨d, digits, hcons⟩ := List.exists_cons_of_ne_nil hnone
    have hd : d.isDigit := n.isDigit_fraction d (by simp [hcons])
    refine ⟨(p.advance '.').advanceAll n.fraction, ?_⟩
    have hspan := Cursor.span_run n.isDigit_fraction (n.endsRun_exponentText h) (p.advance '.')
    have hskip : Cursor.skip 1 ⟨p, '.' :: (n.fraction ++ (n.exponentText ++ rest))⟩ =
        ⟨p.advance '.', n.fraction ++ (n.exponentText ++ rest)⟩ := rfl
    simp only [fractionText, if_neg hnone, List.cons_append, Scan.fraction]
    rw [hskip, hspan]
    simp [hcons, hd]

theorem scan_exponent (h : EndsNumber rest) (p : Position) :
    ∃ q, Scan.exponent ⟨p, n.exponentText ++ rest⟩ =
      (n.exponent.map fun _ => n.exponentText, ⟨q, rest⟩) := by
  cases hexp : n.exponent with
  | none =>
    refine ⟨p, ?_⟩
    simp only [exponentText, hexp, List.nil_append, Option.map_none, Scan.exponent]
    split
    · next _ e s more =>
      have he := h.endsRun e (by simp)
      have hne : ¬ (e = 'e' ∨ e = 'E') := by
        rintro (rfl | rfl) <;> exact absurd he (by decide)
      rw [if_neg hne]
    · rfl
  | some x =>
    obtain ⟨negative, digits⟩ := x
    obtain ⟨hne, hdigits⟩ := n.isDigit_exponent (negative, digits) hexp
    obtain ⟨d, more, rfl⟩ := List.exists_cons_of_ne_nil hne
    have hd : d.isDigit := hdigits d (by simp)
    have hspan := fun q => Cursor.span_run hdigits h.isDigit q
    simp only [List.cons_append] at hspan
    cases negative with
    | false =>
      refine ⟨(p.advance 'e').advanceAll (d :: more), ?_⟩
      have hskip : Cursor.skip 1 ⟨p, 'e' :: d :: (more ++ rest)⟩ =
          ⟨p.advance 'e', d :: (more ++ rest)⟩ := rfl
      simp [exponentText, hexp, Scan.exponent, hd, hskip, hspan]
    | true =>
      refine ⟨((p.advance 'e').advance '-').advanceAll (d :: more), ?_⟩
      have hskip : Cursor.skip 2 ⟨p, 'e' :: '-' :: d :: (more ++ rest)⟩ =
          ⟨(p.advance 'e').advance '-', d :: (more ++ rest)⟩ := rfl
      have hminus : Char.isDigit '-' = false := by decide
      simp [exponentText, hexp, Scan.exponent, hd, hskip, hspan, hminus]

/-- A written number is scanned as a whole: as a float if it has a fraction or an exponent. -/
theorem scan_number (h : EndsNumber rest) (p : Position) :
    ∃ q, (n.IsFloat → Scan.number ⟨p, n.text ++ rest⟩ = Scan.float p n.text ⟨q, rest⟩) ∧
      (¬ n.IsFloat → Scan.number ⟨p, n.text ++ rest⟩ = Scan.integer p n.whole ⟨q, rest⟩) := by
  obtain ⟨q, hfraction⟩ := n.scan_fraction h (p.advanceAll n.whole)
  obtain ⟨q', hexponent⟩ := n.scan_exponent h q
  have hspan := Cursor.span_run n.isDigit_whole (n.endsRun_fractionText h) p
  refine ⟨q', ?_, ?_⟩
  · intro hfloat
    simp only [text, Scan.number, List.append_assoc, hspan, hfraction, hexponent]
    by_cases hnone : n.fraction = []
    · obtain ⟨x, hx⟩ := Option.ne_none_iff_exists'.mp (hfloat.resolve_left (by simp [hnone]))
      simp [fractionText, hnone, hx]
    · cases hx : n.exponent <;> simp [fractionText, exponentText, hnone, hx]
  · intro hinteger
    have hnone : n.fraction = [] := by
      by_contra hsome
      exact hinteger (.inl hsome)
    have hx : n.exponent = none := by
      by_contra hsome
      exact hinteger (.inr hsome)
    simp only [text, Scan.number, List.append_assoc, hspan, hfraction, hexponent]
    simp [hnone, hx]

end Numeral

/-- The number that a decimal stands for. -/
def Decimal.toRat (d : Decimal) : ℚ := d.digits * 10 ^ d.exponent

/-- The decimal that a text without a sign writes. -/
def Decimal.read? (text : List Char) : Option Decimal :=
  let (whole, rest) := Digits.split text
  let (fraction, rest) := match rest with
    | '.' :: rest => Digits.split rest
    | _ => ([], rest)
  if whole.isEmpty ∧ fraction.isEmpty then none
  else
    (Double.readExponent? rest).map fun exponent =>
      ⟨Digits.value (whole ++ fraction), exponent - fraction.length⟩

theorem Double.readMagnitude?_eq (negative : Bool) (text : List Char) :
    Double.readMagnitude? negative text =
      (Decimal.read? text).map fun d => Double.ofDecimal negative d.digits d.exponent := by
  rw [Double.readMagnitude?, Decimal.read?, apply_ite (Option.map _)]
  simp only [Option.map_none, Option.map_map]
  rfl

namespace Numeral

/-- The decimal that a written number stands for. -/
def decimal (n : Numeral) : Decimal :=
  ⟨Digits.value (n.whole ++ n.fraction), n.power - n.fraction.length⟩

theorem readExponent?_exponentText (n : Numeral) :
    Double.readExponent? n.exponentText = some n.power := by
  cases hexp : n.exponent with
  | none => simp [exponentText, power, hexp, Double.readExponent?]
  | some x =>
    obtain ⟨negative, digits⟩ := x
    obtain ⟨hne, hdigits⟩ := n.isDigit_exponent (negative, digits) hexp
    have hall : digits.all Char.isDigit = true := List.all_eq_true.mpr hdigits
    have hempty : digits.isEmpty = false := by simpa using hne
    cases negative with
    | false =>
      obtain ⟨d, more, rfl⟩ := List.exists_cons_of_ne_nil hne
      have hsign := splitSign_digits hdigits
      simp [exponentText, power, hexp, Double.readExponent?, hsign]
      simpa using hall
    | true => simp [exponentText, power, hexp, Double.readExponent?, splitSign, hall, hempty]

/-- Reading a written number gives its decimal. -/
theorem read?_text (n : Numeral) : Decimal.read? n.text = some n.decimal := by
  have hnil : EndsNumber [] := ⟨endsRun_nil _, by simp⟩
  have hwhole := Digits.split_run n.isDigit_whole (n.endsRun_fractionText hnil)
  have hfraction := Digits.split_run n.isDigit_fraction (n.endsRun_exponentText hnil)
  have hempty : n.whole.isEmpty = false := by simpa using n.whole_ne_nil
  simp only [List.append_nil] at hwhole hfraction
  simp only [Decimal.read?, text, hwhole]
  by_cases hnone : n.fraction = []
  · have hrest : n.fractionText ++ n.exponentText = n.exponentText := by
      simp [fractionText, hnone]
    have hpoint : (match n.exponentText with
        | '.' :: rest => Digits.split rest
        | _ => ([], n.exponentText)) = ([], n.exponentText) := by
      cases hexp : n.exponent <;> simp [exponentText, hexp]
    simp only [hrest, hempty, hpoint]
    simp [readExponent?_exponentText, decimal, hnone]
  · have hrest : n.fractionText ++ n.exponentText = '.' :: (n.fraction ++ n.exponentText) := by
      simp [fractionText, hnone]
    simp [hrest, hempty, hfraction, readExponent?_exponentText, decimal]

end Numeral

namespace NumberLayout

variable {digits : List Char}

theorem exists_numeral_pointInFront (hne : digits ≠ []) (hdigits : ∀ c ∈ digits, c.isDigit)
    {whole : Int} (h : whole ≤ 0) :
    ∃ n : Numeral, n.text = literal.withPoint digits whole ∧ n.IsFloat ∧
      n.decimal.toRat = Digits.value digits * 10 ^ (whole - digits.length) := by
  obtain ⟨zeros, rfl⟩ : ∃ zeros : Nat, whole = -zeros := ⟨(-whole).toNat, by omega⟩
  have hfraction : ∀ c ∈ List.replicate zeros '0' ++ digits, c.isDigit := by
    intro c hc
    cases List.mem_append.mp hc with
    | inl hc => exact isDigit_zeros hc
    | inr hc => exact hdigits c hc
  have hsome : List.replicate zeros '0' ++ digits ≠ [] := by simp [hne]
  refine ⟨⟨['0'], List.replicate zeros '0' ++ digits, none, by simp, by simp, hfraction,
    by simp⟩, ?_, .inl hsome, ?_⟩
  · simp [Numeral.text, Numeral.fractionText, Numeral.exponentText, withPoint, hne]
  · have hvalue : Digits.value (['0'] ++ (List.replicate zeros '0' ++ digits)) =
        Digits.value digits := by
      rw [← List.append_assoc]
      exact Digits.value_zeros_append (zeros + 1) digits
    simp only [Numeral.decimal, Decimal.toRat, hvalue, Numeral.power]
    congr 2
    simp
    omega

theorem exists_numeral_pointBehind (hne : digits ≠ []) (hdigits : ∀ c ∈ digits, c.isDigit)
    {place : Nat} (hplace : ¬ (place : Int) ≤ 0) (h : digits.length ≤ place) :
    ∃ n : Numeral, n.text = literal.withPoint digits place ∧ n.IsFloat ∧
      n.decimal.toRat = Digits.value digits * 10 ^ ((place : Int) - digits.length) := by
  obtain ⟨zeros, rfl⟩ := Nat.exists_eq_add_of_le h
  have hwhole : ∀ c ∈ digits ++ List.replicate zeros '0', c.isDigit := by
    intro c hc
    cases List.mem_append.mp hc with
    | inl hc => exact hdigits c hc
    | inr hc => exact isDigit_zeros hc
  refine ⟨⟨digits ++ List.replicate zeros '0', ['0'], none, by simp [hne], hwhole, by simp,
    by simp⟩, ?_, .inl (by simp), ?_⟩
  · have hlit : literal.wholeEndsInZero = true := rfl
    simp only [Numeral.text, Numeral.fractionText, Numeral.exponentText, withPoint, hlit]
    rw [if_neg hplace, Int.toNat_natCast, if_pos h]
    simp
  · have hvalue := Digits.value_append_zeros (zeros + 1) digits
    rw [List.replicate_succ', ← List.append_assoc] at hvalue
    simp only [Numeral.decimal, Decimal.toRat, hvalue, Numeral.power]
    push_cast
    rw [pow_succ, add_sub_cancel_left, zpow_natCast]
    norm_num
    ring

theorem exists_numeral_pointInside (hne : digits ≠ []) (hdigits : ∀ c ∈ digits, c.isDigit)
    {place : Nat} (hplace : ¬ (place : Int) ≤ 0) (h : ¬ digits.length ≤ place) :
    ∃ n : Numeral, n.text = literal.withPoint digits place ∧ n.IsFloat ∧
      n.decimal.toRat = Digits.value digits * 10 ^ ((place : Int) - digits.length) := by
  have htake : digits.take place ≠ [] := by
    intro hnil
    cases List.take_eq_nil_iff.mp hnil with
    | inl h => omega
    | inr h => exact hne h
  have hdrop : digits.drop place ≠ [] := by
    intro hnil
    have := List.drop_eq_nil_iff.mp hnil
    omega
  refine ⟨⟨digits.take place, digits.drop place, none, htake,
    fun c hc => hdigits c (List.mem_of_mem_take hc),
    fun c hc => hdigits c (List.mem_of_mem_drop hc), by simp⟩, ?_, .inl hdrop, ?_⟩
  · simp only [Numeral.text, Numeral.fractionText, Numeral.exponentText, withPoint]
    rw [if_neg hplace, Int.toNat_natCast, if_neg h, if_neg hdrop, List.append_nil]
  · simp only [Numeral.decimal, Decimal.toRat, Numeral.power, List.take_append_drop]
    congr 2
    rw [List.length_drop]
    omega

/-- Digits with a point are a written number; the point stands behind `whole` digits. -/
theorem exists_numeral_withPoint (hne : digits ≠ []) (hdigits : ∀ c ∈ digits, c.isDigit)
    (whole : Int) :
    ∃ n : Numeral, n.text = literal.withPoint digits whole ∧ n.IsFloat ∧
      n.decimal.toRat = Digits.value digits * 10 ^ (whole - digits.length) := by
  by_cases hfront : whole ≤ 0
  · exact exists_numeral_pointInFront hne hdigits hfront
  · obtain ⟨place, rfl⟩ : ∃ place : Nat, whole = place := ⟨whole.toNat, by omega⟩
    by_cases hbehind : digits.length ≤ place
    · exact exists_numeral_pointBehind hne hdigits hfront hbehind
    · exact exists_numeral_pointInside hne hdigits hfront hbehind

/-- Digits with an exponent are a written number; the first of them has the power `power`. -/
theorem exists_numeral_withExponent (hne : digits ≠ []) (hdigits : ∀ c ∈ digits, c.isDigit)
    (power : Int) :
    ∃ n : Numeral, n.text = literal.withExponent digits power ∧ n.IsFloat ∧
      n.decimal.toRat = Digits.value digits * 10 ^ (power + 1 - digits.length) := by
  obtain ⟨d, more, rfl⟩ := List.exists_cons_of_ne_nil hne
  have hplus : literal.exponentPlus = false := rfl
  have hexponent : ∀ x ∈ some (decide (power < 0), Nat.toDigits 10 power.natAbs),
      x.2 ≠ [] ∧ ∀ c ∈ x.2, c.isDigit := by
    intro x hx
    obtain rfl := Option.mem_some.mp hx
    exact ⟨Nat.toDigits_ne_nil, fun c hc => isDigit_toDigits hc⟩
  refine ⟨⟨[d], more, some (decide (power < 0), Nat.toDigits 10 power.natAbs), by simp,
    fun c hc => hdigits c (by simp_all), fun c hc => hdigits c (List.mem_cons_of_mem _ hc),
    hexponent⟩, ?_, .inr (by simp), ?_⟩
  · simp only [Numeral.text, Numeral.fractionText, Numeral.exponentText, withExponent, hplus,
      Digits.toList_toString]
    cases more <;> simp
  · have hpower : (if power < 0 then -(power.natAbs : Int) else power.natAbs) = power := by
      split <;> omega
    simp only [Numeral.decimal, Decimal.toRat, Numeral.power, Digits.value_toDigits,
      decide_eq_true_eq, hpower, List.length_cons]
    congr 2
    push_cast
    ring

/-- The text of a decimal is a written number of the same value, and it is a float. -/
theorem exists_numeral (d : Decimal) :
    ∃ n : Numeral, n.text = literal.magnitudeText d ∧ n.IsFloat ∧ n.decimal.toRat = d.toRat := by
  have htext : (toString d.digits).toList = Nat.toDigits 10 d.digits := by simp
  have hdigits : ∀ c ∈ Nat.toDigits 10 d.digits, c.isDigit := fun c hc => isDigit_toDigits hc
  have hexponent (length : Nat) : d.exponent + length - 1 + 1 - length = d.exponent := by omega
  simp only [magnitudeText, htext]
  split
  · obtain ⟨n, hn, hfloat, hvalue⟩ := exists_numeral_withPoint Nat.toDigits_ne_nil hdigits
      (d.exponent + (Nat.toDigits 10 d.digits).length - 1 + 1)
    rw [Digits.value_toDigits, hexponent] at hvalue
    exact ⟨n, hn, hfloat, hvalue⟩
  · obtain ⟨n, hn, hfloat, hvalue⟩ := exists_numeral_withExponent Nat.toDigits_ne_nil hdigits
      (d.exponent + (Nat.toDigits 10 d.digits).length - 1)
    rw [Digits.value_toDigits, hexponent] at hvalue
    exact ⟨n, hn, hfloat, hvalue⟩

/-- Decimals of the same text have the same value. -/
theorem toRat_eq_of_magnitudeText {a b : Decimal}
    (h : literal.magnitudeText a = literal.magnitudeText b) : a.toRat = b.toRat := by
  obtain ⟨n, hn, -, hna⟩ := exists_numeral a
  obtain ⟨m, hm, -, hmb⟩ := exists_numeral b
  have hread : Decimal.read? n.text = Decimal.read? m.text := by rw [hn, hm, h]
  rw [Numeral.read?_text, Numeral.read?_text, Option.some_inj] at hread
  rw [← hna, ← hmb, hread]

end NumberLayout

end LogRules
