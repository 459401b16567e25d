import LogRules.Json
import LogRules.Number.Reading

/-!
What the spelling of a number in JSON stands for. Integers are exact up to 64 bits. Everything else
is a float: as many leading digits as fit into 64 bits, times a power of ten, in floating-point
arithmetic, which may differ from the nearest float in its last bit.
-/
namespace LogRules

/-- The number that a spelling stands for, before it is given a type. -/
inductive JsonScalar
  /-- An integer between `-2 ^ 63` and `2 ^ 64 - 1`. -/
  | integer (n : Int)
  | float (x : Double)
deriving DecidableEq, Repr

namespace JsonNumber

-- The instance of the core library, whatever else a file has in scope.
attribute [local instance (high)] instPowNat

/-- Digits are kept as long as the number they make is below this. -/
def significandLimit : Nat := 2 ^ (64 : Nat)

/-- Adds digits to a significand while it stays below the limit, and tells how many were left. -/
def accumulate : Nat → List Char → Nat × Nat
  | n, [] => (n, 0)
  | n, c :: rest =>
    let next := 10 * n + (c.toNat - '0'.toNat)
    if next < significandLimit then accumulate next rest else (n, rest.length + 1)

/-- Divides by powers of ten until the exponent is within the table, or the number is zero. -/
def scaleDown : Nat → Double → Int → Double × Int
  | 0, x, exponent => (x, exponent)
  | fuel + 1, x, exponent =>
    if exponent < -308 then
      if x.equal .zero then (x, 0)
      else scaleDown fuel (x.div (Double.ofDecimal false 1 308)) (exponent + 308)
    else (x, exponent)

/-- A significand times a power of ten; nothing if that is infinite. -/
def scale? (significand : Nat) (exponent : Int) : Option Double :=
  let x := Double.ofInt significand
  if exponent < 0 then
    let (x, exponent) := scaleDown 4 x exponent
    some (x.div (Double.ofDecimal false 1 exponent.natAbs))
  else if exponent ≤ 308 then
    let product := x.mul (Double.ofDecimal false 1 exponent.natAbs)
    if product.isInfinite then none else some product
  else if significand = 0 then some x
  else none

/-- Exponents from here on are not computed with. -/
def exponentLimit : Nat := 2 ^ (31 : Nat)

/-- The float of a spelling with a significand that was read with a power of ten. -/
def float? (n : JsonNumber) (significand : Nat) (power : Int) : Option Double :=
  let signed (x : Double) := if n.negative then x.neg else x
  match n.exponent with
  | none => (scale? significand power).map signed
  | some (negative, digits) =>
    let exponent := Digits.value digits
    if exponent < exponentLimit then
      (scale? significand (if negative then power - exponent else power + exponent)).map signed
    else if significand = 0 ∨ negative then some (signed .zero)
    else none

/-- The number of a spelling; nothing if it is beyond the range of floats. -/
def scalar? (n : JsonNumber) : Option JsonScalar :=
  let (whole, dropped) := accumulate 0 n.whole
  match n.fraction with
  | some fraction =>
    let (significand, ignored) := accumulate whole fraction
    let power : Int := dropped - ((fraction.length - ignored : Nat) : Int)
    (n.float? significand power).map .float
  | none =>
    if n.exponent.isSome ∨ 0 < dropped then (n.float? whole dropped).map .float
    else if !n.negative then some (.integer whole)
    else if whole = 0 ∨ 2 ^ (63 : Nat) < whole then some (.float (Double.ofInt whole).neg)
    else some (.integer (-whole))

end JsonNumber

end LogRules
