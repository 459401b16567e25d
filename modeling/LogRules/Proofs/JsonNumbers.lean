import LogRules.Json.Decode
import LogRules.Json.Encode
import LogRules.Proofs.NearestDouble

/-!
Numbers in JSON documents. The texts of integers and of finite floats are numbers of the grammar,
and each is read up to where it ends. The text of a float has a fraction or an exponent, so it does
not stand for an integer.
-/
namespace LogRules

namespace JsonNumber

/-- Characters that a number may go on with. -/
def continues (c : Char) : Bool := c.isDigit || c == '.' || c == 'e' || c == 'E'

theorem endsDigits {rest : List Char} (h : EndsRun continues rest) : EndsRun Char.isDigit rest := by
  intro c hc
  have hcontinues := h c hc
  simp only [continues, Bool.or_eq_false_iff] at hcontinues
  exact hcontinues.1.1.1

variable (n : JsonNumber)

def fractionText : List Char :=
  match n.fraction with
  | none => []
  | some digits => '.' :: digits

def exponentText : List Char :=
  match n.exponent with
  | none => []
  | some (negative, digits) => 'e' :: (if negative then '-' else '+') :: digits

/-- The spelling as it is written: every exponent has a sign. -/
def text : List Char :=
  (if n.negative then ['-'] else []) ++ (n.whole ++ (n.fractionText ++ n.exponentText))

/-- A number of the grammar: digits wherever there have to be some, and no zero in front of them. -/
structure Proper : Prop where
  whole : n.whole ≠ [] ∧ ∀ c ∈ n.whole, c.isDigit
  zero : n.whole.head? = some '0' → n.whole.length ≤ 1
  fraction : ∀ digits ∈ n.fraction, digits ≠ [] ∧ ∀ c ∈ digits, c.isDigit
  exponent : ∀ x ∈ n.exponent, x.2 ≠ [] ∧ ∀ c ∈ x.2, c.isDigit

/-- The number is spelled with a fraction or an exponent. -/
def IsFractional : Prop := n.fraction.isSome ∨ n.exponent.isSome

/-- Such a number stands for a float, if it stands for anything. -/
theorem IsFractional.scalar? {n : JsonNumber} (h : n.IsFractional) :
    ∀ scalar ∈ n.scalar?, ∃ x, scalar = .float x := by
  intro scalar hscalar
  obtain ⟨x, hx⟩ : ∃ x, n.scalar? = Option.map .float x := by
    simp only [JsonNumber.scalar?]
    cases hfraction : n.fraction with
    | some digits => exact ⟨_, rfl⟩
    | none =>
      have hexponent : n.exponent.isSome := by simpa [IsFractional, hfraction] using h
      exact ⟨_, if_pos (.inl hexponent)⟩
  rw [hx] at hscalar
  obtain ⟨y, -, rfl⟩ := Option.map_eq_some_iff.mp hscalar
  exact ⟨y, rfl⟩

end JsonNumber

namespace Json

open JsonNumber

variable {n : JsonNumber} {rest : List Char}

theorem readDigits_run {run : List Char} (hrun : run ≠ [] ∧ ∀ c ∈ run, c.isDigit)
    (hrest : EndsRun Char.isDigit rest) : readDigits (run ++ rest) = some (run, rest) := by
  rw [readDigits, Digits.split_run hrun.2 hrest]
  exact if_neg (by simpa using hrun.1)

theorem endsRun_exponentText (h : EndsRun continues rest) :
    EndsRun Char.isDigit (n.exponentText ++ rest) := by
  rw [exponentText]
  split
  · exact endsDigits h
  · exact endsRun_cons.mpr rfl

theorem endsRun_fractionText (h : EndsRun continues rest) :
    EndsRun Char.isDigit (n.fractionText ++ (n.exponentText ++ rest)) := by
  rw [fractionText]
  split
  · exact endsRun_exponentText h
  · exact endsRun_cons.mpr rfl

theorem readFraction_text (hn : n.Proper) (h : EndsRun continues rest) :
    readFraction (n.fractionText ++ (n.exponentText ++ rest)) =
      some (n.fraction, n.exponentText ++ rest) := by
  cases hfraction : n.fraction with
  | some digits =>
    have hdigits := readDigits_run (hn.fraction digits hfraction) (endsRun_exponentText (n := n) h)
    simp [fractionText, hfraction, readFraction, hdigits]
  | none =>
    simp only [fractionText, hfraction, List.nil_append, readFraction]
    split
    · next tail heq =>
      -- The point can be neither that of an exponent nor that of the rest.
      rw [exponentText] at heq
      split at heq
      · rw [List.nil_append] at heq
        exact absurd (h '.' (by simp [heq])) (by decide)
      · simp at heq
    · rfl

theorem readExponent_text (hn : n.Proper) (h : EndsRun continues rest) :
    readExponent (n.exponentText ++ rest) = some (n.exponent, rest) := by
  cases hexponent : n.exponent with
  | some x =>
    obtain ⟨negative, digits⟩ := x
    have hdigits := readDigits_run (hn.exponent _ hexponent) (endsDigits h)
    cases negative <;>
      simp [exponentText, hexponent, readExponent, splitSign, hdigits]
  | none =>
    simp only [exponentText, hexponent, List.nil_append, readExponent]
    split
    · next e tail =>
      have he := h e (by simp)
      rw [if_neg]
      rintro (rfl | rfl) <;> exact absurd he (by decide)
    · rfl

/-- A number of the grammar is read up to where it ends. -/
theorem readNumber_text (hn : n.Proper) (h : EndsRun continues rest) :
    readNumber (n.text ++ rest) = some (n, rest) := by
  have hwhole := readDigits_run hn.whole (endsRun_fractionText (n := n) h)
  have hzero : ¬(n.whole.head? = some '0' ∧ 1 < n.whole.length) := by
    rintro ⟨hhead, hlength⟩
    have := hn.zero hhead
    omega
  have htext : n.text ++ rest = (if n.negative then ['-'] else []) ++
      (n.whole ++ (n.fractionText ++ (n.exponentText ++ rest))) := by
    simp only [text, List.append_assoc]
  have hparts := readFraction_text hn h
  have hlast := readExponent_text hn h
  obtain ⟨negative, whole, fraction, exponent⟩ := n
  rw [htext]
  cases negative with
  | true => simp [readNumber, hwhole, hzero, hparts, hlast]
  | false =>
    obtain ⟨d, more, rfl⟩ := List.exists_cons_of_ne_nil hn.whole.1
    have hminus : d ≠ '-' := by
      rintro rfl
      exact absurd (hn.whole.2 '-' List.mem_cons_self) (by decide)
    rw [List.cons_append] at hwhole
    simpa [readNumber, hminus, hwhole, hparts, hlast] using hzero

/-- A number of the grammar starts with a sign or a digit. -/
theorem exists_first (hn : n.Proper) : ∃ c tail, n.text = c :: tail ∧ (c = '-' ∨ c.isDigit) := by
  rw [text]
  cases n.negative with
  | true => exact ⟨'-', _, rfl, .inl rfl⟩
  | false =>
    obtain ⟨d, more, hcons⟩ := List.exists_cons_of_ne_nil hn.whole.1
    rw [hcons]
    exact ⟨d, _, rfl, .inr (hn.whole.2 d (by simp [hcons]))⟩

end Json

/-- A written natural number starts with a zero only if it is zero. -/
theorem Digits.head_toDigits {n : Nat} (h : n ≠ 0) : (Nat.toDigits 10 n).head? ≠ some '0' := by
  induction n using Nat.strongRecOn with
  | ind n ih =>
    by_cases hsmall : n < 10
    · rw [Nat.toDigits_of_lt_base hsmall]
      have hdigit : ∀ k < 10, k ≠ 0 → [Nat.digitChar k].head? ≠ some '0' := by decide
      exact hdigit n hsmall h
    · rw [Nat.toDigits_of_base_le (by decide) (by omega), List.head?_append_of_ne_nil _
        Nat.toDigits_ne_nil]
      exact ih (n / 10) (by omega) (by omega)

theorem Digits.length_of_head {n : Nat} (h : (Nat.toDigits 10 n).head? = some '0') :
    (Nat.toDigits 10 n).length ≤ 1 := by
  by_cases hzero : n = 0
  · rw [hzero]
    decide
  · exact absurd h (head_toDigits hzero)

namespace JsonNumber

/-- The spelling of an integer. -/
def ofInt (i : Int) : JsonNumber := ⟨decide (i < 0), Nat.toDigits 10 i.natAbs, none, none⟩

theorem proper_ofInt (i : Int) : (ofInt i).Proper where
  whole := ⟨Nat.toDigits_ne_nil, fun _ hc => isDigit_toDigits hc⟩
  zero := Digits.length_of_head
  fraction := by simp [ofInt]
  exponent := by simp [ofInt]

theorem text_ofInt (i : Int) : (ofInt i).text = (toString i).toList := by
  rw [Digits.toList_toString]
  simp [text, ofInt, fractionText, exponentText]

theorem accumulate_of_lt {digits : List Char} {start : Nat}
    (h : digits.foldl (fun n c => 10 * n + (c.toNat - '0'.toNat)) start < significandLimit) :
    accumulate start digits =
      (digits.foldl (fun n c => 10 * n + (c.toNat - '0'.toNat)) start, 0) := by
  have hgrows (digits : List Char) (start : Nat) :
      start ≤ digits.foldl (fun n c => 10 * n + (c.toNat - '0'.toNat)) start := by
    induction digits generalizing start with
    | nil => exact Nat.le_refl start
    | cons c rest ih =>
      exact (show start ≤ 10 * start + (c.toNat - '0'.toNat) by omega).trans (ih _)
  induction digits generalizing start with
  | nil => rfl
  | cons c rest ih =>
    rw [List.foldl_cons] at h ⊢
    rw [accumulate]
    simp only [(hgrows rest _).trans_lt h, if_true]
    exact ih h

/-- The spelling of an integer of 64 bits stands for this integer. -/
theorem scalar?_ofInt {i : Int} (hleast : Long.least ≤ i) (hgreatest : i ≤ Long.greatest) :
    (ofInt i).scalar? = some (.integer i) := by
  have hlow : -9223372036854775808 ≤ i := hleast
  have hhigh : i ≤ 9223372036854775807 := hgreatest
  have hvalue : (Nat.toDigits 10 i.natAbs).foldl
      (fun n c => 10 * n + (c.toNat - '0'.toNat)) 0 = i.natAbs := Digits.value_toDigits i.natAbs
  have haccumulate : accumulate 0 (ofInt i).whole = (i.natAbs, 0) := by
    have hlimit : i.natAbs < significandLimit := by
      have hvalue : significandLimit = 18446744073709551616 := rfl
      omega
    rw [ofInt, accumulate_of_lt (by rwa [hvalue]), hvalue]
  rw [scalar?, haccumulate]
  by_cases hneg : i < 0
  · have hrange : ¬(i.natAbs = 0 ∨ 9223372036854775808 < i.natAbs) := by omega
    have habs : -(i.natAbs : Int) = i := by omega
    simp only [ofInt, hneg, decide_true, Option.isSome_none, Bool.false_eq_true, lt_self_iff_false,
      or_self, if_false, Bool.not_true]
    rw [if_neg hrange, habs]
  · have habs : (i.natAbs : Int) = i := by omega
    simp [ofInt, hneg, habs]

end JsonNumber

namespace NumberLayout

variable {digits : List Char}

/-- Digits with a point are a number of the grammar if no zero stands in front of them. -/
theorem exists_spelling_withPoint (hne : digits ≠ []) (hdigits : ∀ c ∈ digits, c.isDigit)
    {whole : Int} (hzero : digits.head? = some '0' → digits = ['0'] ∧ whole ≤ 1) :
    ∃ n : JsonNumber, n.Proper ∧ n.IsFractional ∧ n.negative = false ∧
      n.text = json.withPoint digits whole := by
  have hzeros {count : Nat} : ∀ c ∈ List.replicate count '0', c.isDigit := fun _ => isDigit_zeros
  by_cases hfront : whole ≤ 0
  · refine ⟨⟨false, ['0'], some (List.replicate (-whole).toNat '0' ++ digits), none⟩,
      ⟨by simp, by simp, ?_, by simp⟩, .inl rfl, rfl, ?_⟩
    · rintro _ ⟨⟩
      exact ⟨by simp [hne], List.forall_mem_append.mpr ⟨hzeros, hdigits⟩⟩
    · simp [JsonNumber.text, JsonNumber.fractionText, JsonNumber.exponentText, withPoint, hfront]
  · by_cases hbehind : digits.length ≤ whole.toNat
    · refine ⟨⟨false, digits ++ List.replicate (whole.toNat - digits.length) '0', some ['0'], none⟩,
        ⟨⟨by simp [hne], List.forall_mem_append.mpr ⟨hdigits, hzeros⟩⟩, fun hhead => ?_, by simp,
          by simp⟩, .inl rfl, rfl, ?_⟩
      · rw [List.head?_append_of_ne_nil _ hne] at hhead
        obtain ⟨rfl, hwhole⟩ := hzero hhead
        simp
        omega
      · simp [JsonNumber.text, JsonNumber.fractionText, JsonNumber.exponentText, withPoint, hfront,
          hbehind, json]
    · refine ⟨⟨false, digits.take whole.toNat, some (digits.drop whole.toNat), none⟩,
        ⟨⟨?_, fun c hc => hdigits c (List.mem_of_mem_take hc)⟩, fun hhead => ?_, ?_, by simp⟩,
        .inl rfl, rfl, ?_⟩
      · exact fun hnil => (List.take_eq_nil_iff.mp hnil).elim (by omega) hne
      · rw [List.head?_take, if_neg (by omega)] at hhead
        obtain ⟨rfl, hwhole⟩ := hzero hhead
        simp at hbehind
        omega
      · rintro _ ⟨⟩
        refine ⟨fun hnil => ?_, fun c hc => hdigits c (List.mem_of_mem_drop hc)⟩
        exact hbehind (List.drop_eq_nil_iff.mp hnil)
      · simp [JsonNumber.text, JsonNumber.fractionText, JsonNumber.exponentText, withPoint, hfront,
          hbehind]

/-- Digits with an exponent are a number of the grammar. -/
theorem exists_spelling_withExponent (hne : digits ≠ []) (hdigits : ∀ c ∈ digits, c.isDigit)
    (power : Int) :
    ∃ n : JsonNumber, n.Proper ∧ n.IsFractional ∧ n.negative = false ∧
      n.text = json.withExponent digits power := by
  obtain ⟨d, more, rfl⟩ := List.exists_cons_of_ne_nil hne
  obtain ⟨hd, hmore⟩ := List.forall_mem_cons.mp hdigits
  refine ⟨⟨false, [d], if more = [] then none else some more,
    some (decide (power < 0), Nat.toDigits 10 power.natAbs)⟩,
    ⟨⟨by simp, by simpa using hd⟩, by simp, ?_, ?_⟩, .inr rfl, rfl, ?_⟩
  · intro digits hsome
    split at hsome
    · cases hsome
    · next hmorene =>
      cases hsome
      exact ⟨hmorene, hmore⟩
  · rintro _ ⟨⟩
    exact ⟨Nat.toDigits_ne_nil, fun _ hc => isDigit_toDigits hc⟩
  · have hplus : json.exponentPlus = true := rfl
    simp only [JsonNumber.text, JsonNumber.fractionText, JsonNumber.exponentText, withExponent,
      Digits.toList_toString, hplus]
    by_cases hneg : power < 0
    · cases more <;> simp [hneg]
    · cases more <;> simp [hneg, Int.not_lt.mp hneg]

/-- The text of a decimal is a number of the grammar. Zero is written with a point. -/
theorem exists_spelling (d : Decimal) (hzero : d.digits = 0 → d.exponent = 0) :
    ∃ n : JsonNumber, n.Proper ∧ n.IsFractional ∧ n.negative = false ∧
      n.text = json.magnitudeText d := by
  have htext : (toString d.digits).toList = Nat.toDigits 10 d.digits := by simp
  have hdigits : ∀ c ∈ Nat.toDigits 10 d.digits, c.isDigit := fun _ hc => isDigit_toDigits hc
  rw [magnitudeText, htext]
  split
  · refine exists_spelling_withPoint Nat.toDigits_ne_nil hdigits fun hhead => ?_
    have hnone : d.digits = 0 := by
      by_contra hne
      exact Digits.head_toDigits hne hhead
    rw [hnone, hzero hnone]
    decide
  · exact exists_spelling_withExponent Nat.toDigits_ne_nil hdigits _

/-- A number without digits in its shortest decimal is zero, which has no exponent. -/
theorem shortest_zero {x : Double} (hx : x.isFinite = true) (tie : Tie)
    (hdigits : (Decimal.shortest tie x).digits = 0) : (Decimal.shortest tie x).exponent = 0 := by
  have hrounds := Double.roundsTo_shortest hx tie
  rw [Decimal.toRat, hdigits, Nat.cast_zero, zero_mul] at hrounds
  have hmagnitude : x.magnitude = 0 :=
    hrounds.unique (Double.roundsTo_zero (zpow_pos (by norm_num) _))
  have hparts : x.parts.1 = 0 := by
    rw [Double.parts, hmagnitude]
    rfl
  rw [Decimal.shortest]
  simp [hparts]

/-- The text of a finite float is a number of the grammar, with a fraction or an exponent. -/
theorem exists_spelling_text {x : Double} (hx : x.isFinite = true) :
    ∃ n : JsonNumber, n.Proper ∧ n.IsFractional ∧ n.text = (json.text x).toList := by
  have hfinite : x.magnitude < Double.infiniteMagnitude := by simpa [Double.isFinite] using hx
  have hnan : ¬ x.isNan := by simp [Double.isNan]; omega
  have hinf : ¬ x.isInfinite := by simp [Double.isInfinite]; omega
  obtain ⟨n, hn, hfractional, hsign, htext⟩ :=
    exists_spelling (Decimal.shortest json.tie x) (shortest_zero hx _)
  refine ⟨{ n with negative := x.isNegative }, ⟨hn.whole, hn.zero, hn.fraction, hn.exponent⟩,
    hfractional, ?_⟩
  rw [NumberLayout.text, if_neg hnan]
  simp only [if_neg hinf, String.toList_ofList, ← htext]
  simp [JsonNumber.text, JsonNumber.fractionText, JsonNumber.exponentText, hsign]

end NumberLayout

end LogRules
