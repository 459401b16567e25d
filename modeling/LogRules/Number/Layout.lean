import LogRules.Number.Shortest

/-!
Written forms of a number. A layout fixes where positional writing ends, how whole numbers and
exponents look, and which of two equally near decimals is written.
-/
namespace LogRules

structure NumberLayout where
  tie : Tie
  /-- Whether a number whose first digit has this power of ten is written positionally. -/
  positional : Int → Bool
  /-- Whole numbers written positionally end in `.0`. -/
  wholeEndsInZero : Bool
  /-- Exponents that are not negative carry a `+`. -/
  exponentPlus : Bool

namespace NumberLayout

/-- Digits with a point after the first `whole` of them, padded with zeros on either side. -/
def withPoint (layout : NumberLayout) (digits : List Char) (whole : Int) : List Char :=
  if whole ≤ 0 then
    '0' :: '.' :: List.replicate (-whole).toNat '0' ++ digits
  else if digits.length ≤ whole.toNat then
    digits ++ List.replicate (whole.toNat - digits.length) '0' ++
      (if layout.wholeEndsInZero then ['.', '0'] else [])
  else
    digits.take whole.toNat ++ '.' :: digits.drop whole.toNat

/-- One digit before the point, and the power of ten behind an `e`. -/
def withExponent (layout : NumberLayout) (digits : List Char) (power : Int) : List Char :=
  digits.take 1 ++
    (if digits.length ≤ 1 then [] else '.' :: digits.drop 1) ++
    'e' :: (if 0 ≤ power ∧ layout.exponentPlus then ['+'] else []) ++ (toString power).toList

/-- The text of a decimal without a sign. -/
def magnitudeText (layout : NumberLayout) (value : Decimal) : List Char :=
  let digits := (toString value.digits).toList
  let power := value.exponent + digits.length - 1
  if value.digits = 0 ∨ layout.positional power then layout.withPoint digits (power + 1)
  else layout.withExponent digits power

/-- The text of a number; what is not finite looks the same in every layout. -/
def text (layout : NumberLayout) (x : Double) : String :=
  if x.isNan then "NaN"
  else
    let sign := if x.isNegative then ['-'] else []
    let magnitude :=
      if x.isInfinite then ['i', 'n', 'f']
      else layout.magnitudeText (Decimal.shortest layout.tie x)
    String.ofList (sign ++ magnitude)

/-- The form of a literal: a number that reads back as a float, positional from `0.0001` up to
`10 ^ 16`. -/
def literal : NumberLayout where
  tie := .up
  positional := fun power => -4 ≤ power ∧ power < 16
  wholeEndsInZero := true
  exponentPlus := false

/-- The form of a number inside text: always positional, whole numbers without a point. -/
def plain : NumberLayout where
  tie := .up
  positional := fun _ => true
  wholeEndsInZero := false
  exponentPlus := false

/-- The form of a finite number in JSON. -/
def json : NumberLayout where
  tie := .even
  positional := fun power => -5 ≤ power ∧ power < 16
  wholeEndsInZero := true
  exponentPlus := true

end NumberLayout

end LogRules
