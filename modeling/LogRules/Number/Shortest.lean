import LogRules.Number.Double

/-!
Shortest decimals: among the decimals that round to a given number, those with the fewest digits,
and of these the nearest. All of it is exact arithmetic on natural numbers.
-/
namespace LogRules

/-- The decimal `digits * 10 ^ exponent`. -/
structure Decimal where
  digits : Nat
  exponent : Int
deriving DecidableEq, Repr

/-- Which of two equally near decimals is taken. -/
inductive Tie
  | up
  | even
deriving DecidableEq, Repr

namespace Decimal

-- The instance of the core library, whatever else a file has in scope.
attribute [local instance (high)] instPowNat

/-- The decimals around a positive number that read back as that number: everything between `low`
and `high`, ends included iff `closed`. The bounds and the number count units of `2 ^ unit`. -/
structure Rounding where
  low : Nat
  center : Nat
  high : Nat
  unit : Int
  closed : Bool

/-- Half the gap to each neighbour. Below a power of two the gap is half as wide. -/
def Rounding.ofParts (m : Nat) (q : Int) : Rounding where
  low := if m = 2 ^ (52 : Nat) ∧ -1074 < q then 4 * m - 1 else 4 * m - 2
  center := 4 * m
  high := 4 * m + 2
  unit := q - 2
  closed := m % 2 = 0

/-- The multiple of `10 ^ exponent` that lies in the interval, the nearer one if both neighbours of
the number do. -/
def Rounding.onGrid? (r : Rounding) (tie : Tie) (exponent : Int) : Option Decimal :=
  let scale := 2 ^ r.unit.toNat * 10 ^ (-exponent).toNat
  let step := 2 ^ (-r.unit).toNat * 10 ^ exponent.toNat
  let below := r.center * scale / step
  let rest := r.center * scale % step
  let fromLow : Bool :=
    if r.closed then r.low * scale ≤ below * step else r.low * scale < below * step
  let toHigh : Bool :=
    if r.closed then (below + 1) * step ≤ r.high * scale else (below + 1) * step < r.high * scale
  let roundsUp := match compare (2 * rest) step with
    | .lt => false
    | .gt => true
    | .eq => match tie with
      | .up => true
      | .even => below % 2 == 1
  if rest = 0 then some ⟨below, exponent⟩
  else if fromLow then
    if toHigh && roundsUp then some ⟨below + 1, exponent⟩ else some ⟨below, exponent⟩
  else if toHigh then some ⟨below + 1, exponent⟩
  else none

/-- Tries ever finer grids, from the coarsest that can hold a candidate. -/
def Rounding.search (r : Rounding) (tie : Tie) : Nat → Int → Decimal
  | 0, exponent => ⟨r.center * 2 ^ r.unit.toNat / 2 ^ (-r.unit).toNat, exponent⟩
  | steps + 1, exponent =>
    match r.onGrid? tie exponent with
    | some found => found
    | none => r.search tie steps (exponent - 1)

/-- The shortest decimal of the magnitude of a finite number. Seventeen digits always suffice, and
the first grid tried is at most three places too coarse. -/
def shortest (tie : Tie) (x : Double) : Decimal :=
  let (m, q) := x.parts
  if m = 0 then ⟨0, 0⟩
  else (Rounding.ofParts m q).search tie 24 ((m.log2 + 1 + q) * 30103 / 100000 + 1)

end Decimal

end LogRules
