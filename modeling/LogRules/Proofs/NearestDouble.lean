import LogRules.Number.Reading
import LogRules.Proofs.ShortestDecimal
import Mathlib.Tactic.FieldSimp

/-!
Reading a decimal gives the nearest number. Since the shortest decimal of a finite number rounds to
it, and to no other, the text of a finite number reads back as the number.
-/
namespace LogRules

namespace Double

/-- The natural number is nearest to `t`, and even if another one is as near. -/
structure NearestNat (t : ℚ) (n : Nat) : Prop where
  below : t < n + 1 / 2 ∨ t = n + 1 / 2 ∧ n % 2 = 0
  above : n - 1 / 2 < t ∨ n - 1 / 2 = t ∧ n % 2 = 0

namespace NearestNat

variable {t : ℚ} {n bound : Nat}

theorem le_of_lt (h : NearestNat t n) (ht : t < bound) : n ≤ bound := by
  have hle : (n : ℚ) - 1 / 2 ≤ t := h.above.elim LT.lt.le fun h => h.1.le
  have hless : (n : ℚ) < (bound + 1 : Nat) := by
    push_cast
    linarith
  exact Nat.lt_succ_iff.mp (by exact_mod_cast hless)

theorem ge_of_le (h : NearestNat t n) (ht : bound ≤ t) : bound ≤ n := by
  have hle : t ≤ n + 1 / 2 := h.below.elim LT.lt.le fun h => h.1.le
  have hless : (bound : ℚ) < (n + 1 : Nat) := by
    push_cast
    linarith
  exact Nat.lt_succ_iff.mp (by exact_mod_cast hless)

end NearestNat

section Quotients

variable {num den : Nat}

theorem nearest_roundQuotient (num : Nat) (hden : 0 < den) :
    NearestNat (num / den) (roundQuotient num den) := by
  have hpos : (0 : ℚ) < den := by exact_mod_cast hden
  have hrest : num % den < den := Nat.mod_lt _ hden
  have hsplit : (num / den : ℚ) = (num / den : Nat) + (num % den : Nat) / den := by
    have hnat : (num : ℚ) = den * (num / den : Nat) + (num % den : Nat) := by
      exact_mod_cast (Nat.div_add_mod num den).symm
    rw [div_eq_iff hpos.ne', add_mul, div_mul_cancel₀ _ hpos.ne', hnat]
    ring
  rw [roundQuotient, hsplit]
  generalize num / den = m at *
  generalize num % den = rest at *
  have hnonneg : (0 : ℚ) ≤ (rest : ℚ) / den := by positivity
  have hlt : (rest : ℚ) / den < 1 := (div_lt_one hpos).mpr (by exact_mod_cast hrest)
  have hhalf : 2 * rest < den ↔ (rest : ℚ) / den < 1 / 2 := by
    rw [div_lt_div_iff₀ hpos (by norm_num), one_mul, mul_comm]
    exact_mod_cast Iff.rfl
  have htie : 2 * rest = den ↔ (rest : ℚ) / den = 1 / 2 := by
    rw [div_eq_div_iff hpos.ne' (by norm_num), one_mul, mul_comm]
    exact_mod_cast Iff.rfl
  split
  · next hdown =>
    rw [hhalf, htie] at hdown
    constructor
    · exact hdown.imp (by intro h; linarith) (by rintro ⟨h, heven⟩; exact ⟨by rw [h], heven⟩)
    · left
      linarith
  · next hup =>
    rw [hhalf, htie] at hup
    push Not at hup
    obtain ⟨hge, hodd⟩ := hup
    have hcast : ((m + 1 : Nat) : ℚ) = m + 1 := Nat.cast_succ m
    constructor
    · left
      linarith
    · obtain hgt | heq := hge.lt_or_eq
      · left
        linarith
      · right
        have := hodd heq.symm
        exact ⟨by linarith, by omega⟩

/-- Scaling both sides of a quotient by powers of two that make up one power. -/
theorem scaled_quotient (num den : Nat) (q : Int) :
    ((num * 2 ^ (-q).toNat : Nat) : ℚ) / (den * 2 ^ q.toNat : Nat) = num / den / 2 ^ q := by
  have hpow := Decimal.pow_toNat_eq (b := 2) (by norm_num) q
  push_cast
  rw [← hpow, mul_comm (2 ^ (-q).toNat) ((2 : ℚ) ^ q), ← mul_assoc,
    mul_div_mul_right _ _ (by positivity), div_div]

theorem lt_two_zpow_iff (hden : 0 < den) (z : Int) :
    num * 2 ^ (-z).toNat < den * 2 ^ z.toNat ↔ (num / den : ℚ) < 2 ^ z := by
  have hpos : (0 : ℚ) < (den * 2 ^ z.toNat : Nat) := by
    exact_mod_cast Nat.mul_pos hden (by positivity)
  rw [← div_lt_one (by positivity : (0 : ℚ) < 2 ^ z), ← scaled_quotient, div_lt_one hpos,
    Nat.cast_lt]

theorem two_zpow_floorLog (hnum : 0 < num) (hden : 0 < den) :
    (2 : ℚ) ^ floorLog num den ≤ num / den ∧ (num / den : ℚ) < 2 ^ (floorLog num den + 1) := by
  have hpos : (0 : ℚ) < den := by exact_mod_cast hden
  have hbounds {n : Nat} (hn : 0 < n) : (2 : ℚ) ^ (n.log2 : Int) ≤ n ∧
      (n : ℚ) < 2 ^ ((n.log2 : Int) + 1) := by
    constructor
    · rw [zpow_natCast]
      exact_mod_cast Nat.log2_self_le hn.ne'
    · rw [show (n.log2 : Int) + 1 = (n.log2 + 1 : Nat) from rfl, zpow_natCast]
      exact_mod_cast Nat.lt_log2_self
  obtain ⟨hnumLow, hnumHigh⟩ := hbounds hnum
  obtain ⟨hdenLow, hdenHigh⟩ := hbounds hden
  simp only [floorLog, lt_two_zpow_iff hden]
  generalize (num.log2 : Int) = a at *
  generalize (den.log2 : Int) = b at *
  split
  · next hless =>
    refine ⟨?_, by simpa using hless⟩
    rw [le_div_iff₀ hpos]
    calc (2 : ℚ) ^ (a - b - 1) * den ≤ 2 ^ (a - b - 1) * 2 ^ (b + 1) := by gcongr
      _ = 2 ^ a := by
        rw [← zpow_add₀ (by norm_num)]
        congr 1
        ring
      _ ≤ num := hnumLow
  · next hmore =>
    refine ⟨not_lt.mp hmore, ?_⟩
    rw [div_lt_iff₀ hpos]
    calc (num : ℚ) < 2 ^ (a + 1) := hnumHigh
      _ = 2 ^ (a - b + 1) * 2 ^ b := by
        rw [← zpow_add₀ (by norm_num)]
        congr 1
        ring
      _ ≤ 2 ^ (a - b + 1) * den := by gcongr

end Quotients

section Magnitudes

/-- The magnitude of `n * 2 ^ q`, up to the carry into the next exponent. -/
def magnitudeOf (n : Nat) (q : Int) : Nat := (q + 1074).toNat * 2 ^ 52 + n

variable {n : Nat} {q : Int} {v : ℚ}

theorem partsOf_magnitudeOf (hq : -1074 ≤ q) (hn : n < 2 ^ 53) (hnormal : -1074 < q → 2 ^ 52 ≤ n) :
    partsOf (magnitudeOf n q) = (n, q) := by
  rw [partsOf, magnitudeOf]
  split
  · rw [Prod.mk.injEq]
    omega
  · rw [Prod.mk.injEq]
    omega

/-- With all 54 bits set the next exponent begins. -/
theorem partsOf_carry (hq : -1074 ≤ q) : partsOf (magnitudeOf (2 ^ 53) q) = (2 ^ 52, q + 1) := by
  have hcarry : magnitudeOf (2 ^ 53) q = magnitudeOf (2 ^ 52) (q + 1) := by
    rw [magnitudeOf, magnitudeOf]
    omega
  rw [hcarry]
  exact partsOf_magnitudeOf (by omega) (by norm_num) fun _ => le_refl _

/-- Before the least number of an exponent the one before ends. -/
theorem partsOf_borrow (hq : -1074 < q) {K : Nat} (hK : K + 1 = magnitudeOf (2 ^ 52) q) :
    partsOf K = (2 ^ 53 - 1, q - 1) := by
  have hborrow : K = magnitudeOf (2 ^ 53 - 1) (q - 1) := by
    rw [magnitudeOf] at hK ⊢
    omega
  rw [hborrow]
  exact partsOf_magnitudeOf (by omega) (by norm_num) fun _ => by norm_num

theorem boundary_eq {M : Nat} (h : partsOf M = (n, q)) : boundary M = (n + 1 / 2) * 2 ^ q := by
  have hhalf : (2 : ℚ) ^ q = 2 ^ (q - 1) * 2 := by
    rw [← zpow_add_one₀ (by norm_num)]
    congr 1
    ring
  rw [boundary, h, hhalf]
  ring

/-- A number of 53 bits before the point, or fewer at the least exponent, rounds as its whole part
does. -/
theorem roundsTo_magnitudeOf (hq : -1074 ≤ q) (hn : NearestNat (v / 2 ^ q) n)
    (hhigh : v < 2 ^ (53 : Int) * 2 ^ q) (hlow : -1074 < q → 2 ^ (52 : Int) * 2 ^ q ≤ v) :
    RoundsTo v (magnitudeOf n q) := by
  have hunit : (0 : ℚ) < 2 ^ q := by positivity
  obtain ⟨t, rfl⟩ : ∃ t, v = t * 2 ^ q := ⟨v / 2 ^ q, by field_simp⟩
  rw [mul_div_cancel_right₀ _ hunit.ne'] at hn
  have hhigh' : t < (2 ^ 53 : Nat) := by
    have := lt_of_mul_lt_mul_right hhigh hunit.le
    exact_mod_cast this
  have hlow' (h : -1074 < q) : ((2 ^ 52 : Nat) : ℚ) ≤ t := by
    have := le_of_mul_le_mul_right (hlow h) hunit
    exact_mod_cast this
  have hleast (h : -1074 < q) : 2 ^ 52 ≤ n := hn.ge_of_le (hlow' h)
  have hparity : magnitudeOf n q % 2 = n % 2 := by
    rw [magnitudeOf]
    omega
  constructor
  · obtain hless | rfl := (hn.le_of_lt hhigh').lt_or_eq
    · rw [boundary_eq (partsOf_magnitudeOf hq hless hleast), hparity,
        mul_lt_mul_iff_left₀ hunit, mul_left_inj' hunit.ne']
      exact hn.below
    · left
      rw [boundary_eq (partsOf_carry hq), zpow_add_one₀ (by norm_num)]
      push_cast at hhigh' ⊢
      nlinarith
  · intro K hK
    rw [hparity]
    by_cases hsmall : -1074 < q ∧ n = 2 ^ 52
    · obtain ⟨hq', hfull⟩ := hsmall
      rw [hfull] at hK
      left
      have hlow := hlow' hq'
      rw [boundary_eq (partsOf_borrow hq' hK.symm), zpow_sub_one₀ (by norm_num)]
      clear hK
      push_cast at hlow ⊢
      nlinarith
    · have hpred : K = magnitudeOf (n - 1) q ∧ 1 ≤ n := by
        rw [magnitudeOf] at hK ⊢
        omega
      have hmost := hn.le_of_lt hhigh'
      have hparts : partsOf K = (n - 1, q) := by
        rw [hpred.1]
        exact partsOf_magnitudeOf hq (by omega) fun h => by have := hleast h; omega
      have hcast : ((n - 1 : Nat) : ℚ) + 1 / 2 = n - 1 / 2 := by
        push_cast [hpred.2]
        ring
      rw [boundary_eq hparts, hcast, mul_lt_mul_iff_left₀ hunit, mul_left_inj' hunit.ne']
      exact hn.above

theorem roundsTo_nearestMagnitude {num den : Nat} (hnum : 0 < num) (hden : 0 < den) :
    RoundsTo (num / den) (nearestMagnitude num den) := by
  obtain ⟨hlow, hhigh⟩ := two_zpow_floorLog hnum hden
  rw [nearestMagnitude]
  generalize floorLog num den = top at hlow hhigh
  apply roundsTo_magnitudeOf (le_max_right _ _)
  · rw [← scaled_quotient]
    exact nearest_roundQuotient _ (Nat.mul_pos hden (by positivity))
  · refine hhigh.trans_le ?_
    rw [← zpow_add₀ (by norm_num)]
    exact zpow_le_zpow_right₀ (by norm_num) (by omega)
  · intro hnormal
    rw [← zpow_add₀ (by norm_num)]
    refine le_trans ?_ hlow
    exact zpow_le_zpow_right₀ (by norm_num) (by omega)

theorem roundsTo_zero (h : v < 2 ^ (-1075 : Int)) : RoundsTo v 0 := by
  constructor
  · left
    rw [boundary_eq (show partsOf 0 = (0, -1074) by decide), Nat.cast_zero, zero_add]
    refine h.trans_eq ?_
    rw [show (-1074 : Int) = -1075 + 1 from rfl, zpow_add_one₀ (by norm_num)]
    ring
  · intro N hN
    omega

/-- What rounds to a finite number is less than the power of two behind the greatest number. -/
theorem RoundsTo.lt_two_zpow {M : Nat} (h : RoundsTo v M) (hM : M < infiniteMagnitude) :
    v < 2 ^ (1024 : Int) := by
  have hfew : ((partsOf M).1 : ℚ) + 1 / 2 < 2 ^ (53 : Int) := by
    have : ((partsOf M).1 : ℚ) ≤ (2 ^ 53 - 1 : Nat) := by
      exact_mod_cast Nat.le_sub_one_of_lt (partsOf_significand_lt M)
    refine lt_of_le_of_lt (add_le_add_left this _) ?_
    norm_num
  calc v ≤ boundary M := h.below.elim le_of_lt fun hmost => hmost.1.le
    _ = ((partsOf M).1 + 1 / 2) * 2 ^ (partsOf M).2 := boundary_eq rfl
    _ < 2 ^ (53 : Int) * 2 ^ (partsOf M).2 := by gcongr
    _ ≤ 2 ^ (53 : Int) * 2 ^ (971 : Int) := by
      gcongr
      · norm_num
      · exact partsOf_le_greatest hM
    _ = 2 ^ (1024 : Int) := by rw [← zpow_add₀ (by norm_num)]; rfl

end Magnitudes

section Signs

variable {m : Nat} (negative : Bool)

theorem bits_ofMagnitude (h : m < 2 ^ 63) :
    (ofMagnitude negative m).bits.toNat = (if negative then 2 ^ 63 else 0) + m := by
  have hsmall : m % 2 ^ 64 = m := Nat.mod_eq_of_lt (by omega)
  rw [ofMagnitude, UInt64.toNat_or, UInt64.toNat_ofNat', hsmall]
  cases negative with
  | false => exact (Nat.zero_or m).trans (Nat.zero_add m).symm
  | true => exact (Nat.two_pow_add_eq_or_of_lt h 1).symm

theorem magnitude_ofMagnitude (h : m < 2 ^ 63) : (ofMagnitude negative m).magnitude = m := by
  rw [magnitude, bits_ofMagnitude negative h]
  split <;> omega

theorem isNegative_ofMagnitude (h : m < 2 ^ 63) :
    (ofMagnitude negative m).isNegative = negative := by
  rw [Bool.eq_iff_iff, isNegative_iff, bits_ofMagnitude negative h]
  cases negative with
  | false => simpa using h
  | true => simp

theorem neg_ofMagnitude (h : m < 2 ^ 63) :
    (ofMagnitude negative m).neg = ofMagnitude (!negative) m := by
  apply ext_of_magnitude
  · rw [magnitude_neg, magnitude_ofMagnitude _ h, magnitude_ofMagnitude _ h]
  · rw [isNegative_neg, isNegative_ofMagnitude _ h, isNegative_ofMagnitude _ h]

theorem neg_ofDecimal (digits : Nat) (exponent : Int) :
    (ofDecimal negative digits exponent).neg = ofDecimal (!negative) digits exponent := by
  have hinfinite : infiniteMagnitude < 2 ^ 63 := by decide
  rw [ofDecimal, ofDecimal]
  refine neg_ofMagnitude negative ?_
  split_ifs <;> omega

end Signs

section Decimals

/-- A number of so many bits has no more digits than this. -/
theorem lt_ten_pow (digits : Nat) : digits < 10 ^ (digits.log2 / 3 + 1) :=
  calc digits < 2 ^ (digits.log2 + 1) := Nat.lt_log2_self
    _ ≤ 2 ^ (3 * (digits.log2 / 3 + 1)) := Nat.pow_le_pow_right (by norm_num) (by omega)
    _ = 8 ^ (digits.log2 / 3 + 1) := by rw [Nat.pow_mul]
    _ ≤ 10 ^ (digits.log2 / 3 + 1) := Nat.pow_le_pow_left (by norm_num) _

theorem two_zpow_le_ten_zpow {z : Int} (hz : 0 ≤ z) : (2 : ℚ) ^ (3 * z) ≤ 10 ^ z := by
  rw [zpow_mul]
  exact zpow_le_zpow_left₀ hz (by norm_num) (by norm_num)

variable (d : Decimal)

theorem toRat_eq_div :
    d.toRat = (d.digits * 10 ^ d.exponent.toNat : Nat) / (10 ^ (-d.exponent).toNat : Nat) := by
  have hpow := Decimal.pow_toNat_eq (b := 10) (by norm_num) d.exponent
  push_cast
  rw [Decimal.toRat, eq_div_iff (by positivity), ← hpow]
  ring

theorem toRat_lt_ten_zpow (hsmall : d.exponent + (d.digits.log2 / 3 + 1 : Nat) < -400) :
    d.toRat < 2 ^ (-1075 : Int) := by
  have hdigits : (d.digits : ℚ) < 10 ^ ((d.digits.log2 / 3 + 1 : Nat) : Int) := by
    rw [zpow_natCast]
    exact_mod_cast lt_ten_pow d.digits
  calc d.toRat < 10 ^ ((d.digits.log2 / 3 + 1 : Nat) : Int) * 10 ^ d.exponent := by
        rw [Decimal.toRat]
        gcongr
    _ = 10 ^ (d.exponent + (d.digits.log2 / 3 + 1 : Nat)) := by
      rw [← zpow_add₀ (by norm_num), add_comm]
    _ ≤ 10 ^ (-401 : Int) := zpow_le_zpow_right₀ (by norm_num) (by omega)
    _ = (10 ^ (401 : Int))⁻¹ := zpow_neg _ _
    _ ≤ (2 ^ (3 * 401 : Int))⁻¹ := inv_anti₀ (by positivity) (two_zpow_le_ten_zpow (by norm_num))
    _ = 2 ^ (-1203 : Int) := (zpow_neg _ _).symm
    _ ≤ 2 ^ (-1075 : Int) := zpow_le_zpow_right₀ (by norm_num) (by norm_num)

/-- The magnitude of a decimal, where powers of ten that are out of range are not computed. -/
theorem ofDecimal_eq_of_roundsTo {d : Decimal} {M : Nat} (h : RoundsTo d.toRat M)
    (hM : M < infiniteMagnitude) (negative : Bool) :
    ofDecimal negative d.digits d.exponent = ofMagnitude negative M := by
  rw [ofDecimal]
  congr 1
  split
  · next hzero =>
    refine (roundsTo_zero ?_).unique h
    rw [Decimal.toRat, hzero, Nat.cast_zero, zero_mul]
    positivity
  · next hnonzero =>
    have hdigits : (1 : ℚ) ≤ d.digits := by exact_mod_cast Nat.one_le_iff_ne_zero.mpr hnonzero
    split
    · next hlarge =>
      have hless := h.lt_two_zpow hM
      have : (2 : ℚ) ^ (1024 : Int) ≤ d.toRat :=
        calc (2 : ℚ) ^ (1024 : Int) ≤ 2 ^ (3 * 401 : Int) :=
              zpow_le_zpow_right₀ (by norm_num) (by norm_num)
          _ ≤ 10 ^ (401 : Int) := two_zpow_le_ten_zpow (by norm_num)
          _ ≤ 10 ^ d.exponent := zpow_le_zpow_right₀ (by norm_num) (by omega)
          _ ≤ d.toRat := le_mul_of_one_le_left (by positivity) hdigits
      exact absurd hless (not_lt.mpr this)
    · split
      · next hsmall => exact (roundsTo_zero (toRat_lt_ten_zpow d hsmall)).unique h
      · have hnum : 0 < d.digits * 10 ^ d.exponent.toNat :=
          Nat.mul_pos (Nat.pos_of_ne_zero hnonzero) (Nat.pow_pos (by decide))
        have hden : 0 < 10 ^ (-d.exponent).toNat := Nat.pow_pos (by decide)
        have hnearest := roundsTo_nearestMagnitude hnum hden
        rw [← toRat_eq_div] at hnearest
        rw [hnearest.unique h, Nat.min_eq_right hM.le]

theorem ofMagnitude_magnitude {x : Double} (h : x.magnitude < 2 ^ 63) :
    ofMagnitude x.isNegative x.magnitude = x :=
  ext_of_magnitude (magnitude_ofMagnitude _ h) (isNegative_ofMagnitude _ h)

end Decimals

end Double

end LogRules
