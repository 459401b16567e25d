import LogRules.Proofs.Compilation
import Mathlib.Data.Int.Init

/-!
Integer arithmetic is exact. An operation on integers gives its exact result, or it says that the
result leaves the range of 64 bits; nothing wraps around. The one exact result in the range that is
refused is the remainder of the least integer by minus one: the quotient that it belongs to leaves
the range.
-/
namespace LogRules

namespace Long

/-- The integers that 64 bits can hold. -/
def InRange (n : Int) : Prop := least ≤ n ∧ n ≤ greatest
deriving Decidable

theorem inRange_toInt (n : Int64) : InRange n.toInt :=
  ⟨n.le_toInt, Int.le_sub_one_of_lt n.toInt_lt⟩

/-- A number of 64 bits is found for itself and for nothing else. -/
theorem ofInt?_eq_some {n : Int} {m : Int64} : ofInt? n = some m ↔ m.toInt = n := by
  rw [ofInt?]
  split
  · next hrange =>
    have hback : (Int64.ofInt n).toInt = n :=
      Int64.toInt_ofInt_of_le hrange.1 (Int.lt_of_le_sub_one hrange.2)
    rw [Option.some_inj]
    constructor
    · rintro rfl
      exact hback
    · intro h
      rw [← h, Int64.ofInt_toInt]
  · next hrange =>
    constructor
    · intro h
      cases h
    · rintro rfl
      exact absurd (inRange_toInt m) hrange

theorem ofInt?_eq_none {n : Int} : ofInt? n = none ↔ ¬InRange n := by
  rw [ofInt?, ite_eq_right_iff]
  constructor
  · intro h hrange
    cases h hrange
  · intro h hrange
    exact absurd hrange h

end Long

section Quotients

/-- A quotient truncated toward zero: what it leaves of the dividend is smaller than the divisor and
lies between zero and the dividend. -/
def IsQuotient (a b q : Int) : Prop :=
  (a - b * q).natAbs < b.natAbs ∧
    (0 ≤ a - b * q ∧ a - b * q ≤ a ∨ a ≤ a - b * q ∧ a - b * q ≤ 0)
deriving Decidable

variable {a b p q : Int}

theorem IsQuotient.ne_zero (h : IsQuotient a b q) : b ≠ 0 := by
  rintro rfl
  exact absurd h.1 (Nat.not_lt_zero _)

theorem isQuotient_tdiv (a : Int) (hb : b ≠ 0) : IsQuotient a b (a.tdiv b) := by
  have hsmaller : a.natAbs % b.natAbs < b.natAbs := Nat.mod_lt _ (Int.natAbs_pos.mpr hb)
  have hless : a.natAbs % b.natAbs ≤ a.natAbs := Nat.mod_le _ _
  rw [← Int.natAbs_tmod] at hsmaller hless
  have hsign : 0 ≤ a ∧ 0 ≤ a.tmod b ∨ a ≤ 0 ∧ a.tmod b ≤ 0 := by
    obtain ha | ha := Int.le_total 0 a
    · exact .inl ⟨ha, Int.tmod_nonneg b ha⟩
    · have hneg := Int.tmod_nonneg b (Int.neg_nonneg_of_nonpos ha)
      rw [Int.neg_tmod] at hneg
      exact .inr ⟨ha, by omega⟩
  rw [IsQuotient, ← Int.tmod_def]
  omega

/-- There is one quotient at most. -/
theorem IsQuotient.unique (hp : IsQuotient a b p) (hq : IsQuotient a b q) : p = q := by
  have hdifference : b * (p - q) = (a - b * q) - (a - b * p) := by
    rw [Int.mul_sub]
    omega
  have hsmall : (b * (p - q)).natAbs < b.natAbs := by
    obtain ⟨hp, hpBetween⟩ := hp
    obtain ⟨hq, hqBetween⟩ := hq
    rw [hdifference]
    omega
  have hzero := Int.eq_zero_of_dvd_of_natAbs_lt_natAbs (Int.dvd_mul_right b (p - q)) hsmall
  exact Int.eq_of_sub_eq_zero ((Int.mul_eq_zero.mp hzero).resolve_left hp.ne_zero)

theorem isQuotient_iff (hb : b ≠ 0) : IsQuotient a b q ↔ q = a.tdiv b := by
  constructor
  · intro h
    exact h.unique (isQuotient_tdiv a hb)
  · rintro rfl
    exact isQuotient_tdiv a hb

/-- A quotient of 64-bit integers leaves the range only for the least of them and minus one. -/
theorem inRange_tdiv (n m : Int64) :
    ¬Long.InRange (n.toInt.tdiv m.toInt) ↔ n.toInt = Long.least ∧ m.toInt = -1 := by
  obtain ⟨hlow, hhigh⟩ := Long.inRange_toInt n
  have hsize : (n.toInt.tdiv m.toInt).natAbs = n.toInt.natAbs / m.toInt.natAbs :=
    Int.natAbs_tdiv n.toInt m.toInt
  simp only [Long.InRange, Long.least, Long.greatest] at hlow hhigh ⊢
  by_cases hunit : m.toInt.natAbs = 1
  · obtain hm | hm : m.toInt = 1 ∨ m.toInt = -1 := by omega
    · rw [hm, Int.tdiv_one]
      omega
    · rw [hm, Int.tdiv_neg, Int.tdiv_one]
      omega
  · have hhalf : n.toInt.natAbs / m.toInt.natAbs ≤ n.toInt.natAbs / 2 := by
      by_cases hzero : m.toInt.natAbs = 0
      · rw [hzero, Nat.div_zero]
        exact Nat.zero_le _
      · exact Nat.div_le_div_left (by omega) (by decide)
    omega

end Quotients

/-- The exact result of an arithmetic operation, if there is one. The remainder is what the quotient
leaves. -/
def BinaryOp.Exact (op : BinaryOp) (a b r : Int) : Prop :=
  match op with
  | .add => r = a + b
  | .sub => r = a - b
  | .mul => r = a * b
  | .div => IsQuotient a b r
  | .rem => ∃ q, IsQuotient a b q ∧ r = a - b * q
  | _ => False

/-- A remainder that is refused together with its quotient. -/
def BinaryOp.Withheld (op : BinaryOp) (a b : Int) : Prop :=
  op = .rem ∧ a = Long.least ∧ b = -1

/-- What arithmetic on integers comes to. The exact result is given if it is in the range and not
`withheld`; a result that is not given is an overflow. -/
structure ExactOutcome (symbol : String) (byZero withheld : Prop) (exact : Int → Prop)
    (outcome : Except EvalError Value) : Prop where
  byZero : outcome = .error .divisionByZero ↔ byZero
  result : ∀ value, outcome = .ok value ↔
    ¬withheld ∧ ∃ n : Int64, exact n.toInt ∧ value = .long n
  overflow : outcome = .error (.overflow symbol) ↔ ∃ r, exact r ∧ (withheld ∨ ¬Long.InRange r)
  total : ∀ error, outcome = .error error → error = .divisionByZero ∨ error = .overflow symbol

namespace ExactOutcome

variable {symbol : String} {byZero withheld : Prop} {exact : Int → Prop}

theorem of_byZero (hzero : byZero) (hnone : ∀ r, ¬exact r) :
    ExactOutcome symbol byZero withheld exact (.error .divisionByZero) where
  byZero := iff_of_true rfl hzero
  result value := by simp [hnone]
  overflow := by simp [hnone]
  total error h := .inl (Except.error.inj h).symm

theorem of_withheld (hzero : ¬byZero) (hwithheld : withheld) {r : Int} (hexact : exact r) :
    ExactOutcome symbol byZero withheld exact (.error (.overflow symbol)) where
  byZero := by simp [hzero]
  result value := by simp [hwithheld]
  overflow := iff_of_true rfl ⟨r, hexact, .inl hwithheld⟩
  total error h := .inr (Except.error.inj h).symm

/-- The only exact result is looked for in the range. -/
theorem of_ofInt? (hzero : ¬byZero) (hkept : ¬withheld) {r : Int}
    (hexact : ∀ r', exact r' ↔ r' = r) :
    ExactOutcome symbol byZero withheld exact
      (match Long.ofInt? r with
        | some n => .ok (.long n)
        | none => .error (.overflow symbol)) := by
  cases hfound : Long.ofInt? r with
  | some n =>
    have hn := Long.ofInt?_eq_some.mp hfound
    refine ⟨by simp [hzero], fun value => ?_, ?_, by simp⟩
    · simp only [Except.ok.injEq, hkept, not_false_eq_true, hexact, true_and]
      constructor
      · rintro rfl
        exact ⟨n, hn, rfl⟩
      · rintro ⟨m, hm, rfl⟩
        rw [Int64.toInt_inj.mp (hm.trans hn.symm)]
    · simp only [reduceCtorEq, hexact, hkept, false_or, exists_eq_left, false_iff]
      exact not_not_intro (hn ▸ Long.inRange_toInt n)
  | none =>
    have hrange := Long.ofInt?_eq_none.mp hfound
    refine ⟨by simp [hzero], fun value => ?_, ?_, by simp⟩
    · simp only [reduceCtorEq, hexact, false_iff, not_and, not_exists]
      rintro - m rfl
      exact absurd (Long.inRange_toInt m) hrange
    · simp only [hexact, hkept, false_or, exists_eq_left, true_iff]
      exact hrange

end ExactOutcome

namespace Operator

theorem exact_arithmetic {op : BinaryOp} (hop : op.isArithmetic) (a b : Int64) :
    ExactOutcome op.symbol ((op = .div ∨ op = .rem) ∧ b.toInt = 0) (op.Withheld a.toInt b.toInt)
      (op.Exact a.toInt b.toInt) (arithmetic op (.long a) (.long b)) := by
  cases op with
  | add | sub | mul => exact .of_ofInt? (by simp) (by simp [BinaryOp.Withheld]) fun _ => Iff.rfl
  | div =>
    by_cases hb : b = 0
    · subst hb
      exact .of_byZero (by simp) fun r hr => hr.ne_zero rfl
    · have hne : b.toInt ≠ 0 := fun h => hb (Int64.toInt_inj.mp h)
      have hkept : arithmetic .div (.long a) (.long b) =
          match Long.ofInt? (a.toInt.tdiv b.toInt) with
          | some n => .ok (.long n)
          | none => .error (.overflow (BinaryOp.symbol .div)) :=
        if_neg (by simp [hb])
      rw [hkept]
      exact .of_ofInt? (by simp [hne]) (by simp [BinaryOp.Withheld]) fun _ => isQuotient_iff hne
  | rem =>
    by_cases hb : b = 0
    · subst hb
      exact .of_byZero (by simp) fun r ⟨q, hq, _⟩ => hq.ne_zero rfl
    · have hne : b.toInt ≠ 0 := fun h => hb (Int64.toInt_inj.mp h)
      have hexact (r : Int) : BinaryOp.Exact .rem a.toInt b.toInt r ↔
          r = a.toInt.tmod b.toInt := by
        simp only [BinaryOp.Exact, isQuotient_iff hne, exists_eq_left, ← Int.tmod_def]
      have hkept : arithmetic .rem (.long a) (.long b) =
          match longArithmetic? .rem a b with
          | some n => .ok (.long n)
          | none => .error (.overflow (BinaryOp.symbol .rem)) :=
        if_neg (by simp [hb])
      rw [hkept, longArithmetic?]
      cases hquotient : Long.ofInt? (a.toInt.tdiv b.toInt) with
      | none =>
        have hleast := (inRange_tdiv a b).mp (Long.ofInt?_eq_none.mp hquotient)
        exact .of_withheld (by simp [hne]) ⟨rfl, hleast⟩ ((hexact _).mpr rfl)
      | some q =>
        refine .of_ofInt? (by simp [hne]) (fun hwithheld => ?_) hexact
        have hout := Long.ofInt?_eq_none.mpr ((inRange_tdiv a b).mpr hwithheld.2)
        rw [hquotient] at hout
        cases hout
  | _ => cases hop

theorem exact_negate (a : Int64) :
    ExactOutcome UnaryOp.negate.symbol False False (· = -a.toInt) (unary .negate (.long a)) :=
  .of_ofInt? id id fun _ => Iff.rfl

end Operator

namespace Expr

open EvalM

/-- An expression has an outcome and leaves a state, whether its tree is walked, it is compiled or,
where it reads nothing, its value is put in its place. -/
structure ComesTo (e : Expr) (c d : Context) (outcome : Except EvalError Value) : Prop where
  walked : e.eval.runOn c = (outcome, d)
  compiled : e.compile.run.runOn c = (outcome, d)
  folded : e.isConstant → e.foldConstant? = outcome.toOption

variable {e left right : Expr} {c d : Context} {outcome : Except EvalError Value}

theorem comesTo_of_eval (hliteral : e.isLiteral = false) (h : e.eval.runOn c = (outcome, d)) :
    e.ComesTo c d outcome where
  walked := h
  compiled := by rw [compile_run, h]
  folded hconstant := by
    obtain ⟨always, halways⟩ := stateless_eval e hconstant
    rw [halways, runOn_lift] at h
    obtain ⟨rfl, -⟩ := Prod.mk.inj h
    rw [foldConstant?, if_neg (by simp [hliteral, hconstant]), halways, runOn_lift]
    cases always <;> rfl

theorem runOn_arithmetic {op : BinaryOp} (hop : op.isArithmetic) {x y : Value} {f : Context}
    (hleft : left.eval.runOn c = (.ok x, d)) (hright : right.eval.runOn d = (.ok y, f))
    (site : Site) :
    (binary site op left right).eval.runOn c = (Operator.arithmetic op x y, f) := by
  cases op with
  | add | sub | mul | div | rem =>
    rw [eval, runOn_bind, hleft]
    · simp only [runOn_bind, hright, runOn_lift]
      rfl
    · exact nofun
    · exact nofun
  | _ => cases hop

/-- Integer arithmetic is exact. Where operands have integers as values, the negative of one, and
every arithmetic operation on two, comes to its exact outcome, walked, compiled or folded. -/
theorem integers_exact {a : Int64} (hleft : left.eval.runOn c = (.ok (.long a), d)) (site : Site) :
    (∃ outcome, (unary site .negate left).ComesTo c d outcome ∧
      ExactOutcome "-" False False (· = -a.toInt) outcome) ∧
    ∀ {op : BinaryOp} {b : Int64} {f : Context}, op.isArithmetic →
      right.eval.runOn d = (.ok (.long b), f) →
      ∃ outcome, (binary site op left right).ComesTo c f outcome ∧
        ExactOutcome op.symbol ((op = .div ∨ op = .rem) ∧ b.toInt = 0)
          (op.Withheld a.toInt b.toInt) (op.Exact a.toInt b.toInt) outcome := by
  constructor
  · refine ⟨Operator.unary .negate (.long a), comesTo_of_eval rfl ?_, Operator.exact_negate a⟩
    rw [eval, runOn_bind, hleft]
    exact runOn_lift _ _
  · intro op b f hop hright
    exact ⟨Operator.arithmetic op (.long a) (.long b),
      comesTo_of_eval rfl (runOn_arithmetic hop hleft hright site),
      Operator.exact_arithmetic hop a b⟩

/-- The least integer, whose negative leaves the range. -/
def leastLiteral : Expr := .ofValue .nowhere (.long Int64.minValue)

def minusOne : Expr := .ofValue .nowhere (.long (-1))

theorem integers_exact_leastLiteral :
    leastLiteral.eval.runOn (.start (.empty .nil .epoch)) =
        (.ok (.long Int64.minValue), .start (.empty .nil .epoch)) ∧
      minusOne.eval.runOn (.start (.empty .nil .epoch)) =
        (.ok (.long (-1)), .start (.empty .nil .epoch)) ∧
      (unary ⟨.long, .nowhere⟩ .negate leastLiteral).ComesTo (.start (.empty .nil .epoch))
        (.start (.empty .nil .epoch)) (.error (.overflow "-")) ∧
      (binary ⟨.long, .nowhere⟩ .div leastLiteral minusOne).ComesTo (.start (.empty .nil .epoch))
        (.start (.empty .nil .epoch)) (.error (.overflow "/")) := by
  have hleast : leastLiteral.eval.runOn (.start (.empty .nil .epoch)) =
      (.ok (.long Int64.minValue), .start (.empty .nil .epoch)) := rfl
  have hone : minusOne.eval.runOn (.start (.empty .nil .epoch)) =
      (.ok (.long (-1)), .start (.empty .nil .epoch)) := rfl
  obtain ⟨⟨negative, hnegative, hnegate⟩, hbinary⟩ :=
    @integers_exact leastLiteral minusOne _ _ _ hleast ⟨.long, .nowhere⟩
  obtain ⟨quotient, hquotient, hdivide⟩ := @hbinary .div _ _ rfl hone
  refine ⟨hleast, hone, ?_, ?_⟩
  · rw [hnegate.overflow.mpr ⟨2 ^ 63, by decide, .inr (by decide)⟩] at hnegative
    exact hnegative
  · have hexact : IsQuotient Int64.minValue.toInt (-1 : Int64).toInt (2 ^ 63) := by decide
    rw [hdivide.overflow.mpr ⟨2 ^ 63, hexact, .inr (by decide)⟩] at hquotient
    exact hquotient

/-- The remainder of the least integer by minus one is zero, and yet refused. -/
theorem least_remainder_refused :
    BinaryOp.Exact .rem Long.least (-1) 0 ∧ Long.InRange 0 ∧
      (binary ⟨.long, .nowhere⟩ .rem leastLiteral minusOne).ComesTo
        (.start (.empty .nil .epoch)) (.start (.empty .nil .epoch)) (.error (.overflow "%")) := by
  refine ⟨⟨2 ^ 63, by decide, by decide⟩, by decide, ?_⟩
  exact comesTo_of_eval rfl rfl

end Expr

end LogRules
