import LogRules.Proofs.Numeral
import Mathlib.Algebra.Order.Field.Power
import Mathlib.Tactic.Linarith
import Mathlib.Tactic.NormNum
import Mathlib.Tactic.Positivity

/-!
The shortest decimal of a number lies among the decimals that round to it. These sets are disjoint
for different numbers, so that the text of a literal determines its number.
-/
namespace LogRules

namespace Double

/-- Significand and exponent of a magnitude. -/
def partsOf (magnitude : Nat) : Nat × Int :=
  if magnitude / 2 ^ 52 = 0 then (magnitude % 2 ^ 52, -1074)
  else (2 ^ 52 + magnitude % 2 ^ 52, (magnitude / 2 ^ 52 : Nat) - 1075)

/-- The point halfway between a magnitude and the next. -/
def boundary (magnitude : Nat) : ℚ :=
  (2 * (partsOf magnitude).1 + 1) * 2 ^ ((partsOf magnitude).2 - 1)

theorem partsOf_significand_lt (M : Nat) : (partsOf M).1 < 2 ^ 53 := by
  rw [partsOf]
  split <;> simp only <;> omega

theorem least_le_partsOf (M : Nat) : -1074 ≤ (partsOf M).2 := by
  rw [partsOf]
  split <;> simp only <;> omega

theorem partsOf_le_greatest {M : Nat} (h : M < infiniteMagnitude) : (partsOf M).2 ≤ 971 := by
  rw [infiniteMagnitude] at h
  rw [partsOf]
  split <;> simp only <;> omega

theorem partsOf_small {M : Nat} (h : (partsOf M).1 < 2 ^ 52) : (partsOf M).2 = -1074 := by
  rw [partsOf] at h ⊢
  split
  · rfl
  · next hexp =>
    rw [if_neg hexp] at h
    simp only at h
    omega

theorem partsOf_parity (M : Nat) : (partsOf M).1 % 2 = M % 2 := by
  rw [partsOf]
  split <;> simp only <;> omega

theorem partsOf_eq_zero {M : Nat} : (partsOf M).1 = 0 ↔ M = 0 := by
  rw [partsOf]
  split <;> simp only <;> omega

/-- The next magnitude has the next significand, or the least one of the next exponent. -/
theorem partsOf_succ (M : Nat) :
    partsOf (M + 1) = ((partsOf M).1 + 1, (partsOf M).2) ∨
      (partsOf M).1 = 2 ^ 53 - 1 ∧ partsOf (M + 1) = (2 ^ 52, (partsOf M).2 + 1) := by
  simp only [partsOf]
  by_cases hzero : M / 2 ^ 52 = 0
  · by_cases hnext : (M + 1) / 2 ^ 52 = 0
    · left
      rw [if_pos hzero, if_pos hnext, Prod.mk.injEq]
      omega
    · left
      rw [if_pos hzero, if_neg hnext, Prod.mk.injEq]
      omega
  · have hnext : ¬ (M + 1) / 2 ^ 52 = 0 := by omega
    rw [if_neg hzero, if_neg hnext]
    by_cases hfull : (M + 1) % 2 ^ 52 = 0
    · right
      rw [Prod.mk.injEq]
      omega
    · left
      rw [Prod.mk.injEq]
      omega

theorem boundary_pos (M : Nat) : 0 < boundary M := by
  rw [boundary]
  positivity

theorem boundary_lt_succ (M : Nat) : boundary M < boundary (M + 1) := by
  have hpos : (0 : ℚ) < 2 ^ ((partsOf M).2 - 1) := by positivity
  obtain h | ⟨hm, h⟩ := partsOf_succ M
  · simp only [boundary, h]
    push_cast
    nlinarith
  · have hdouble : (2 : ℚ) ^ ((partsOf M).2 + 1 - 1) = 2 ^ ((partsOf M).2 - 1) * 2 := by
      rw [← zpow_add_one₀ (by norm_num)]
      congr 1
      ring
    simp only [boundary, h, hm, hdouble]
    norm_num
    linarith

theorem boundary_strictMono : StrictMono boundary := strictMono_nat_of_lt_succ boundary_lt_succ

/-- The decimals that round to a magnitude: they lie between the neighbouring boundaries, which
belong to the even magnitude beside them. -/
structure RoundsTo (v : ℚ) (M : Nat) : Prop where
  below : v < boundary M ∨ v = boundary M ∧ M % 2 = 0
  above : ∀ N, M = N + 1 → boundary N < v ∨ boundary N = v ∧ M % 2 = 0

/-- A decimal rounds to at most one magnitude. -/
theorem RoundsTo.le {v : ℚ} {M N : Nat} (hM : RoundsTo v M) (hN : RoundsTo v N) : N ≤ M := by
  by_contra hlt
  obtain ⟨K, rfl⟩ : ∃ K, N = K + 1 := ⟨N - 1, by omega⟩
  have hle : boundary M ≤ boundary K := boundary_strictMono.monotone (by omega)
  obtain hb | ⟨hb, heven⟩ := hM.below
  · obtain ha | ⟨ha, -⟩ := hN.above K rfl <;> linarith
  · obtain ha | ⟨ha, heven'⟩ := hN.above K rfl
    · linarith
    · have hMK : M = K := boundary_strictMono.injective (by rw [← hb, ha])
      omega

theorem RoundsTo.unique {v : ℚ} {M N : Nat} (hM : RoundsTo v M) (hN : RoundsTo v N) : M = N :=
  le_antisymm (hN.le hM) (hM.le hN)

end Double

namespace Decimal

/-- A power with any exponent as one with a natural exponent. -/
theorem pow_toNat_eq {b : ℚ} (hb : b ≠ 0) (z : Int) : b ^ (-z).toNat * b ^ z = b ^ z.toNat := by
  rw [← zpow_natCast, ← zpow_natCast, ← zpow_add₀ hb]
  congr 1
  omega

/-- What a multiple of `10 ^ exponent` and a multiple of `2 ^ unit` are multiplied by, so that they
can be compared as natural numbers. -/
theorem step_mul_unit (unit exponent : Int) :
    ((2 ^ (-unit).toNat * 10 ^ exponent.toNat : Nat) : ℚ) * 2 ^ unit =
      10 ^ exponent * (2 ^ unit.toNat * 10 ^ (-exponent).toNat : Nat) := by
  have htwo := pow_toNat_eq (b := 2) (by norm_num) unit
  have hten := pow_toNat_eq (b := 10) (by norm_num) exponent
  push_cast
  rw [← htwo, ← hten]
  ring

namespace Rounding

/-- The decimals of an interval. -/
def Holds (r : Rounding) (v : ℚ) : Prop :=
  (r.low * 2 ^ r.unit < v ∨ r.low * 2 ^ r.unit = v ∧ r.closed) ∧
    (v < r.high * 2 ^ r.unit ∨ v = r.high * 2 ^ r.unit ∧ r.closed)

/-- The number lies inside, two units from the upper end. -/
structure Proper (r : Rounding) : Prop where
  low_lt : r.low < r.center
  high_eq : r.high = r.center + 2

theorem ofParts_proper {m : Nat} (hm : m ≠ 0) (q : Int) : (ofParts m q).Proper := by
  constructor
  · simp only [ofParts]
    split <;> omega
  · rfl

section Grid

variable (r : Rounding) (exponent : Int)

/-- The units of the interval on a grid, as a factor of its bounds. -/
def scale : Nat := 2 ^ r.unit.toNat * 10 ^ (-exponent).toNat

/-- The distance of a grid, in the same measure. -/
def step : Nat := 2 ^ (-r.unit).toNat * 10 ^ exponent.toNat

theorem scale_pos : 0 < r.scale exponent := by
  rw [scale]
  positivity

theorem step_pos : 0 < r.step exponent := by
  rw [step]
  positivity

theorem toRat_mul_scale (n : Nat) :
    (⟨n, exponent⟩ : Decimal).toRat * r.scale exponent =
      (n * r.step exponent : Nat) * 2 ^ r.unit := by
  have hbalance : (r.step exponent : ℚ) * 2 ^ r.unit = 10 ^ exponent * r.scale exponent :=
    step_mul_unit r.unit exponent
  push_cast
  rw [toRat, mul_assoc, ← hbalance, mul_assoc]

theorem bound_mul_scale (bound : Nat) :
    bound * 2 ^ r.unit * (r.scale exponent : ℚ) =
      (bound * r.scale exponent : Nat) * 2 ^ r.unit := by
  push_cast
  ring

theorem grid_lt_iff (n bound : Nat) :
    (⟨n, exponent⟩ : Decimal).toRat < bound * 2 ^ r.unit ↔
      n * r.step exponent < bound * r.scale exponent := by
  have hscale : (0 : ℚ) < r.scale exponent := by exact_mod_cast r.scale_pos exponent
  have hunit : (0 : ℚ) < 2 ^ r.unit := by positivity
  rw [← mul_lt_mul_iff_left₀ hscale, toRat_mul_scale, bound_mul_scale, mul_lt_mul_iff_left₀ hunit,
    Nat.cast_lt]

theorem lt_grid_iff (n bound : Nat) :
    bound * 2 ^ r.unit < (⟨n, exponent⟩ : Decimal).toRat ↔
      bound * r.scale exponent < n * r.step exponent := by
  have hscale : (0 : ℚ) < r.scale exponent := by exact_mod_cast r.scale_pos exponent
  have hunit : (0 : ℚ) < 2 ^ r.unit := by positivity
  rw [← mul_lt_mul_iff_left₀ hscale, toRat_mul_scale, bound_mul_scale, mul_lt_mul_iff_left₀ hunit,
    Nat.cast_lt]

theorem grid_eq_iff (n bound : Nat) :
    (⟨n, exponent⟩ : Decimal).toRat = bound * 2 ^ r.unit ↔
      n * r.step exponent = bound * r.scale exponent := by
  have hlt := r.grid_lt_iff exponent n bound
  have hgt := r.lt_grid_iff exponent n bound
  constructor
  · intro h
    have h1 := mt hlt.mpr (by simp [h])
    have h2 := mt hgt.mpr (by simp [h])
    omega
  · intro h
    have h1 := mt hlt.mp (by omega)
    have h2 := mt hgt.mp (by omega)
    exact le_antisymm (not_lt.mp h2) (not_lt.mp h1)

/-- Whether a multiple of a grid is not below the interval. -/
def reaches (n : Nat) : Bool :=
  if r.closed then r.low * r.scale exponent ≤ n * r.step exponent
  else r.low * r.scale exponent < n * r.step exponent

/-- Whether a multiple of a grid is not above the interval. -/
def keepsTo (n : Nat) : Bool :=
  if r.closed then n * r.step exponent ≤ r.high * r.scale exponent
  else n * r.step exponent < r.high * r.scale exponent

theorem holds_iff (n : Nat) :
    r.Holds (⟨n, exponent⟩ : Decimal).toRat ↔ r.reaches exponent n ∧ r.keepsTo exponent n := by
  have hlow := r.grid_eq_iff exponent n r.low
  rw [eq_comm, eq_comm (a := n * r.step exponent)] at hlow
  rw [Holds, hlow, grid_lt_iff, lt_grid_iff, grid_eq_iff, reaches, keepsTo]
  cases r.closed <;> simp [Nat.le_iff_lt_or_eq]

/-- The last multiple of a grid that does not exceed the number. -/
def below : Nat := r.center * r.scale exponent / r.step exponent

theorem below_mul_le : r.below exponent * r.step exponent ≤ r.center * r.scale exponent :=
  Nat.div_mul_le_self ..

theorem lt_below_succ_mul :
    r.center * r.scale exponent < (r.below exponent + 1) * r.step exponent :=
  Nat.lt_mul_of_div_lt (Nat.lt_succ_self _) (r.step_pos exponent)

theorem onGrid?_eq (tie : Tie) : ∃ roundsUp : Bool, r.onGrid? tie exponent =
    if r.center * r.scale exponent % r.step exponent = 0 then some ⟨r.below exponent, exponent⟩
    else if r.reaches exponent (r.below exponent) then
      if r.keepsTo exponent (r.below exponent + 1) && roundsUp then
        some ⟨r.below exponent + 1, exponent⟩
      else some ⟨r.below exponent, exponent⟩
    else if r.keepsTo exponent (r.below exponent + 1) then some ⟨r.below exponent + 1, exponent⟩
    else none := ⟨_, rfl⟩

/-- What is found on a grid is a neighbour of the number, and nothing shows it to be outside. -/
theorem onGrid?_eq_some {tie : Tie} {found : Decimal} (h : r.onGrid? tie exponent = some found) :
    (found = ⟨r.below exponent, exponent⟩ ∧
      (r.below exponent * r.step exponent = r.center * r.scale exponent ∨
        r.reaches exponent (r.below exponent))) ∨
    found = ⟨r.below exponent + 1, exponent⟩ ∧ r.keepsTo exponent (r.below exponent + 1) := by
  obtain ⟨roundsUp, heq⟩ := r.onGrid?_eq exponent tie
  rw [heq] at h
  split at h
  · next hrest =>
    have hcenter := Nat.div_mul_cancel (Nat.dvd_of_mod_eq_zero hrest)
    exact .inl ⟨(Option.some.inj h).symm, .inl hcenter⟩
  · split at h
    · next hfrom =>
      split at h
      · next hto =>
        exact .inr ⟨(Option.some.inj h).symm, (Bool.and_eq_true _ _ ▸ hto).1⟩
      · exact .inl ⟨(Option.some.inj h).symm, .inr hfrom⟩
    · split at h
      · next hto => exact .inr ⟨(Option.some.inj h).symm, hto⟩
      · cases h

theorem onGrid?_eq_none {tie : Tie} (h : r.onGrid? tie exponent = none) :
    r.below exponent * r.step exponent < r.center * r.scale exponent ∧
      r.keepsTo exponent (r.below exponent + 1) = false := by
  obtain ⟨roundsUp, heq⟩ := r.onGrid?_eq exponent tie
  rw [heq] at h
  split at h
  · cases h
  · next hrest =>
    split at h
    · split at h <;> cases h
    · split at h
      · cases h
      · next hto =>
        have hdiv := Nat.div_add_mod' (r.center * r.scale exponent) (r.step exponent)
        refine ⟨?_, by simpa using hto⟩
        rw [below]
        omega

variable {r exponent}

theorem holds_of_onGrid? (hr : r.Proper) {tie : Tie} {found : Decimal}
    (h : r.onGrid? tie exponent = some found) : r.Holds found.toRat := by
  have hlow : r.low * r.scale exponent < r.center * r.scale exponent :=
    Nat.mul_lt_mul_of_pos_right hr.low_lt (r.scale_pos exponent)
  have hhigh : r.center * r.scale exponent < r.high * r.scale exponent :=
    Nat.mul_lt_mul_of_pos_right (by rw [hr.high_eq]; omega) (r.scale_pos exponent)
  have hbelow := r.below_mul_le exponent
  have habove := r.lt_below_succ_mul exponent
  obtain ⟨rfl, hfrom⟩ | ⟨rfl, hto⟩ := r.onGrid?_eq_some exponent h
  · have hto : r.keepsTo exponent (r.below exponent) := by
      rw [keepsTo]
      split <;> exact decide_eq_true (by omega)
    cases hfrom with
    | inl hcenter =>
      have hfrom : r.reaches exponent (r.below exponent) := by
        rw [reaches]
        split <;> exact decide_eq_true (by omega)
      exact (r.holds_iff exponent _).mpr ⟨hfrom, hto⟩
    | inr hfrom => exact (r.holds_iff exponent _).mpr ⟨hfrom, hto⟩
  · have hfrom : r.reaches exponent (r.below exponent + 1) := by
      rw [reaches]
      split <;> exact decide_eq_true (by omega)
    exact (r.holds_iff exponent _).mpr ⟨hfrom, hto⟩

theorem onGrid?_ne_none (hr : r.Proper) {tie : Tie} (h : r.step exponent ≤ 2 * r.scale exponent) :
    r.onGrid? tie exponent ≠ none := by
  intro hnone
  obtain ⟨hrest, hto⟩ := r.onGrid?_eq_none exponent hnone
  have hhigh : r.high * r.scale exponent = r.center * r.scale exponent + 2 * r.scale exponent := by
    rw [hr.high_eq, Nat.add_mul]
  have hsucc : (r.below exponent + 1) * r.step exponent =
      r.below exponent * r.step exponent + r.step exponent := Nat.succ_mul ..
  rw [keepsTo] at hto
  split at hto <;> exact absurd (of_decide_eq_false hto) (by omega)

end Grid

/-- The search ends inside the interval if one of the grids it tries is fine enough. -/
theorem holds_search {r : Rounding} (hr : r.Proper) (tie : Tie) (steps : Nat) (exponent : Int)
    (h : r.step (exponent - steps) ≤ 2 * r.scale (exponent - steps)) :
    r.Holds (r.search tie (steps + 1) exponent).toRat := by
  induction steps generalizing exponent with
  | zero =>
    rw [search]
    split
    · next found hfound => exact holds_of_onGrid? hr hfound
    · next hnone => exact absurd hnone (onGrid?_ne_none hr (by simpa using h))
  | succ steps ih =>
    rw [search]
    split
    · next found hfound => exact holds_of_onGrid? hr hfound
    · have hexponent : exponent - 1 - steps = exponent - (steps + 1 : Nat) := by omega
      exact ih (exponent - 1) (by rw [hexponent]; exact h)

/-- A power of two below a power of ten, with the logarithm of two rounded up. -/
theorem two_pow_le (n : Nat) : 2 ^ n ≤ 10 ^ (28 * (n / 93) + 4 * (n % 93 / 13 + 1)) :=
  calc 2 ^ n ≤ 2 ^ (93 * (n / 93) + 13 * (n % 93 / 13 + 1)) :=
        Nat.pow_le_pow_right (by decide) (by omega)
    _ = (2 ^ 93) ^ (n / 93) * (2 ^ 13) ^ (n % 93 / 13 + 1) := by rw [pow_add, pow_mul, pow_mul]
    _ ≤ (10 ^ 28) ^ (n / 93) * (10 ^ 4) ^ (n % 93 / 13 + 1) :=
        Nat.mul_le_mul (Nat.pow_le_pow_left (by decide) _) (Nat.pow_le_pow_left (by decide) _)
    _ = 10 ^ (28 * (n / 93) + 4 * (n % 93 / 13 + 1)) := by rw [← pow_mul, ← pow_mul, ← pow_add]

/-- A power of ten below a power of two, with the logarithm of two rounded down. -/
theorem ten_pow_le (n : Nat) : 10 ^ (3 * (n / 10)) ≤ 2 ^ n :=
  calc 10 ^ (3 * (n / 10)) = (10 ^ 3) ^ (n / 10) := by rw [pow_mul]
    _ ≤ (2 ^ 10) ^ (n / 10) := Nat.pow_le_pow_left (by decide) _
    _ = 2 ^ (10 * (n / 10)) := by rw [pow_mul]
    _ ≤ 2 ^ n := Nat.pow_le_pow_right (by decide) (by omega)

theorem step_le_scale {m : Nat} {q : Int} (hm : m < 2 ^ 53) (hlow : -1074 ≤ q) (hhigh : q ≤ 971) :
    let r := ofParts m q
    let last := (m.log2 + 1 + q) * 30103 / 100000 + 1 - 23
    r.step last ≤ 2 * r.scale last := by
  intro r last
  have hlog : m.log2 ≤ 52 := by
    by_cases hzero : m = 0
    · simp [hzero]
    · have := (Nat.log2_lt hzero).mpr hm
      omega
  have hunit : r.unit = q - 2 := rfl
  simp only [step, scale, hunit]
  by_cases hq : 2 ≤ q
  · have hnone : (-(q - 2)).toNat = 0 := by omega
    rw [hnone, pow_zero, one_mul]
    calc 10 ^ last.toNat ≤ 10 ^ (3 * (((q - 2).toNat + 1) / 10)) :=
          Nat.pow_le_pow_right (by decide) (by omega)
      _ ≤ 2 ^ ((q - 2).toNat + 1) := ten_pow_le _
      _ = 2 * 2 ^ (q - 2).toNat * 1 := by rw [pow_succ, mul_one, mul_comm]
      _ ≤ 2 * 2 ^ (q - 2).toNat * 10 ^ (-last).toNat :=
          Nat.mul_le_mul_left _ (Nat.one_le_pow _ _ (by decide))
      _ = 2 * (2 ^ (q - 2).toNat * 10 ^ (-last).toNat) := by rw [mul_assoc]
  · have hnone : (q - 2).toNat = 0 := by omega
    have hlast : last.toNat = 0 := by omega
    rw [hnone, hlast, pow_zero, mul_one, pow_zero, one_mul]
    calc 2 ^ (-(q - 2)).toNat
        ≤ 10 ^ (28 * ((-(q - 2)).toNat / 93) + 4 * ((-(q - 2)).toNat % 93 / 13 + 1)) :=
          two_pow_le _
      _ ≤ 10 ^ (-last).toNat := Nat.pow_le_pow_right (by decide) (by omega)
      _ ≤ 2 * 10 ^ (-last).toNat := by omega

end Rounding

end Decimal

namespace Double

open Decimal

theorem high_eq_boundary (M : Nat) :
    let r := Rounding.ofParts (partsOf M).1 (partsOf M).2
    r.high * 2 ^ r.unit = boundary M := by
  have hdouble : (2 : ℚ) ^ ((partsOf M).2 - 1) = 2 ^ ((partsOf M).2 - 2) * 2 := by
    rw [← zpow_add_one₀ (by norm_num)]
    congr 1
    ring
  simp only [Rounding.ofParts, boundary, hdouble]
  push_cast
  ring

theorem low_eq_boundary (N : Nat) :
    let r := Rounding.ofParts (partsOf (N + 1)).1 (partsOf (N + 1)).2
    r.low * 2 ^ r.unit = boundary N := by
  have hleast := least_le_partsOf N
  obtain h | ⟨hm, h⟩ := partsOf_succ N
  · have hdouble : (2 : ℚ) ^ ((partsOf N).2 - 1) = 2 ^ ((partsOf N).2 - 2) * 2 := by
      rw [← zpow_add_one₀ (by norm_num)]
      congr 1
      ring
    have hplain : ¬ ((partsOf N).1 + 1 = 2 ^ 52 ∧ -1074 < (partsOf N).2) := by
      rintro ⟨hm, hq⟩
      have := partsOf_small (M := N) (by omega)
      omega
    have hlow : 4 * ((partsOf N).1 + 1) - 2 = 4 * (partsOf N).1 + 2 := by omega
    simp only [h, Rounding.ofParts, boundary, hdouble, if_neg hplain, hlow]
    push_cast
    ring
  · have hunit : (partsOf N).2 + 1 - 2 = (partsOf N).2 - 1 := by ring
    simp only [h, hm, Rounding.ofParts, boundary, hunit]
    rw [if_pos ⟨trivial, by omega⟩]
    norm_num

/-- The shortest decimal of a finite number rounds to it. -/
theorem roundsTo_shortest {x : Double} (hx : x.isFinite) (tie : Tie) :
    RoundsTo (shortest tie x).toRat x.magnitude := by
  have hfinite : x.magnitude < infiniteMagnitude := by simpa [isFinite] using hx
  have hshortest : shortest tie x = if (partsOf x.magnitude).1 = 0 then ⟨0, 0⟩
      else (Rounding.ofParts (partsOf x.magnitude).1 (partsOf x.magnitude).2).search tie 24
        (((partsOf x.magnitude).1.log2 + 1 + (partsOf x.magnitude).2) * 30103 / 100000 + 1) := rfl
  rw [hshortest]
  generalize x.magnitude = M at hfinite
  by_cases hzero : (partsOf M).1 = 0
  · have hM := partsOf_eq_zero.mp hzero
    subst hM
    rw [if_pos hzero]
    constructor
    · left
      simpa [toRat] using boundary_pos 0
    · intro N hN
      omega
  · have hfine := Rounding.step_le_scale (partsOf_significand_lt M) (least_le_partsOf M)
      (partsOf_le_greatest hfinite)
    have hholds := Rounding.holds_search (Rounding.ofParts_proper hzero (partsOf M).2) tie 23
      (((partsOf M).1.log2 + 1 + (partsOf M).2) * 30103 / 100000 + 1) hfine
    have hclosed : (Rounding.ofParts (partsOf M).1 (partsOf M).2).closed ↔ M % 2 = 0 := by
      simp [Rounding.ofParts, partsOf_parity]
    rw [if_neg hzero]
    obtain ⟨hlow, hhigh⟩ := hholds
    rw [high_eq_boundary, hclosed] at hhigh
    refine ⟨hhigh, ?_⟩
    rintro N rfl
    rw [low_eq_boundary, hclosed] at hlow
    exact hlow

theorem isNegative_eq_testBit (x : Double) : x.isNegative = x.bits.toNat.testBit 63 := by
  have hand : (x.bits &&& signMask).toNat = x.bits.toNat &&& 2 ^ 63 := UInt64.toNat_and ..
  rw [isNegative, Bool.eq_iff_iff, bne_iff_ne, ne_eq, ← UInt64.toNat_inj, hand, UInt64.toNat_zero,
    not_iff_comm]
  constructor
  · intro hclear
    apply Nat.eq_of_testBit_eq
    intro i
    rw [Nat.testBit_and, Nat.testBit_two_pow, Nat.zero_testBit]
    by_cases hi : 63 = i
    · subst hi
      simpa using hclear
    · simp [hi]
  · intro hzero hset
    have hboth := Nat.zero_testBit 63
    rw [← hzero, Nat.testBit_and, Nat.testBit_two_pow_self, hset] at hboth
    cases hboth

theorem isNegative_iff (x : Double) : x.isNegative ↔ 2 ^ 63 ≤ x.bits.toNat := by
  have hlt : x.bits.toNat < 2 ^ 64 := x.bits.toNat_lt
  rw [isNegative_eq_testBit, Nat.testBit_eq_decide_div_mod_eq, decide_eq_true_eq]
  omega

theorem neg_bits (x : Double) : x.neg.bits.toNat = x.bits.toNat ^^^ 2 ^ 63 := UInt64.toNat_xor ..

theorem magnitude_neg (x : Double) : x.neg.magnitude = x.magnitude := by
  rw [magnitude, magnitude, neg_bits, Nat.xor_mod_two_pow, Nat.mod_self, Nat.xor_zero]

theorem isNegative_neg (x : Double) : x.neg.isNegative = !x.isNegative := by
  rw [isNegative_eq_testBit, isNegative_eq_testBit, neg_bits, Nat.testBit_xor,
    Nat.testBit_two_pow_self, Bool.xor_true]

theorem neg_neg (x : Double) : x.neg.neg = x := by
  cases x with
  | mk bits => simp only [neg, UInt64.xor_assoc, UInt64.xor_self, UInt64.xor_zero]

theorem isFinite_neg (x : Double) : x.neg.isFinite = x.isFinite := by
  rw [isFinite, isFinite, magnitude_neg]

theorem shortest_neg (tie : Tie) (x : Double) : shortest tie x.neg = shortest tie x := by
  have hparts : x.neg.parts = x.parts := by simp only [parts, magnitude_neg]
  rw [shortest, shortest, hparts]

theorem ext_of_magnitude {x y : Double} (hmagnitude : x.magnitude = y.magnitude)
    (hsign : x.isNegative = y.isNegative) : x = y := by
  have hx : x.bits.toNat < 2 ^ 64 := x.bits.toNat_lt
  have hy : y.bits.toNat < 2 ^ 64 := y.bits.toNat_lt
  have hiff : 2 ^ 63 ≤ x.bits.toNat ↔ 2 ^ 63 ≤ y.bits.toNat := by
    rw [← isNegative_iff, ← isNegative_iff, hsign]
  rw [magnitude, magnitude] at hmagnitude
  have hbits : x.bits = y.bits := by
    rw [← UInt64.toNat_inj]
    omega
  cases x
  cases y
  exact congrArg mk hbits

/-- Two finite numbers of one sign with the same text are equal. -/
theorem eq_of_magnitudeText {x y : Double} (hx : x.isFinite) (hy : y.isFinite)
    (hsign : x.isNegative = y.isNegative)
    (h : NumberLayout.literal.magnitudeText (shortest .up x) =
      NumberLayout.literal.magnitudeText (shortest .up y)) : x = y := by
  have hvalue := NumberLayout.toRat_eq_of_magnitudeText h
  have hroundsX := roundsTo_shortest hx .up
  rw [hvalue] at hroundsX
  exact ext_of_magnitude (hroundsX.unique (roundsTo_shortest hy .up)) hsign

end Double

end LogRules
