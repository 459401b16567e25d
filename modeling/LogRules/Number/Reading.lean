import LogRules.Number.Double
import LogRules.Number.Long

/-!
Numbers read from text: integers of 64 bits and floating-point numbers, each with a sign.
-/
namespace LogRules

namespace Digits

def value (digits : List Char) : Nat :=
  digits.foldl (fun n c => 10 * n + (c.toNat - '0'.toNat)) 0

def hexDigit? (c : Char) : Option Nat :=
  if c.isDigit then some (c.toNat - '0'.toNat)
  else if 'a' ≤ c ∧ c ≤ 'f' then some (c.toNat - 'a'.toNat + 10)
  else if 'A' ≤ c ∧ c ≤ 'F' then some (c.toNat - 'A'.toNat + 10)
  else none

def isHexDigit (c : Char) : Bool := (hexDigit? c).isSome

/-- The number that a list of hexadecimal digits writes; other characters are skipped. -/
def hexValue (digits : List Char) : Nat :=
  (digits.filterMap hexDigit?).foldl (fun n digit => 16 * n + digit) 0

/-- The leading decimal digits, and what follows them. -/
def split (text : List Char) : List Char × List Char :=
  (text.takeWhile Char.isDigit, text.dropWhile Char.isDigit)

end Digits

/-- A leading sign, true for minus, and what follows it. -/
def splitSign : List Char → Bool × List Char
  | '-' :: rest => (true, rest)
  | '+' :: rest => (false, rest)
  | text => (false, text)

/-- An integer of 64 bits: an optional sign and at least one digit. -/
def Long.read? (text : List Char) : Option Int64 :=
  let (negative, digits) := splitSign text
  if digits.isEmpty ∨ ¬ digits.all Char.isDigit then none
  else Long.ofInt? (if negative then -(Digits.value digits : Int) else Digits.value digits)

namespace Double

-- The instance of the core library, whatever else a file has in scope.
attribute [local instance (high)] instPowNat

/-- The natural number nearest to `num / den`, ties to even. -/
def roundQuotient (num den : Nat) : Nat :=
  let rest := num % den
  if 2 * rest < den ∨ 2 * rest = den ∧ num / den % 2 = 0 then num / den else num / den + 1

/-- The exponent of the greatest power of two up to `num / den`. -/
def floorLog (num den : Nat) : Int :=
  let guess : Int := num.log2 - den.log2
  if num * 2 ^ (-guess).toNat < den * 2 ^ guess.toNat then guess - 1 else guess

/-- The magnitude nearest to `num / den`, ties to even. Magnitudes go on behind the greatest number
as if exponents had no end. -/
def nearestMagnitude (num den : Nat) : Nat :=
  let q := max (floorLog num den - 52) (-1074)
  (q + 1074).toNat * 2 ^ (52 : Nat) + roundQuotient (num * 2 ^ (-q).toNat) (den * 2 ^ q.toNat)

/-- The number nearest to `digits * 10 ^ exponent`, ties to even. Powers that put every nonzero
value outside the range are not computed. -/
def ofDecimal (negative : Bool) (digits : Nat) (exponent : Int) : Double :=
  let magnitude :=
    if digits = 0 then 0
    else if 400 < exponent then infiniteMagnitude
    else if exponent + (digits.log2 / 3 + 1 : Nat) < -400 then 0
    else min infiniteMagnitude
      (nearestMagnitude (digits * 10 ^ exponent.toNat) (10 ^ (-exponent).toNat))
  ofMagnitude negative magnitude

/-- An optional exponent: `e`, an optional sign and digits, to the end of the text. -/
def readExponent? : List Char → Option Int
  | [] => some 0
  | c :: rest =>
    if c = 'e' ∨ c = 'E' then
      let (negative, digits) := splitSign rest
      if digits.isEmpty ∨ ¬ digits.all Char.isDigit then none
      else some (if negative then -(Digits.value digits : Int) else Digits.value digits)
    else none

/-- Digits with at most one point among them and at least one digit, then an optional exponent. -/
def readMagnitude? (negative : Bool) (text : List Char) : Option Double :=
  let (whole, rest) := Digits.split text
  let (fraction, rest) := match rest with
    | '.' :: rest => Digits.split rest
    | _ => ([], rest)
  if whole.isEmpty ∧ fraction.isEmpty then none
  else
    (readExponent? rest).map fun exponent =>
      ofDecimal negative (Digits.value (whole ++ fraction)) (exponent - fraction.length)

/-- A number in any of the accepted spellings: decimal, or `inf`, `infinity` and `nan` in any
case, each with an optional sign. -/
def read? (text : List Char) : Option Double :=
  let (negative, rest) := splitSign text
  let signed (x : Double) := if negative then x.neg else x
  match rest.map Char.toLower with
  | ['i', 'n', 'f'] | ['i', 'n', 'f', 'i', 'n', 'i', 't', 'y'] => some (signed (infinity false))
  | ['n', 'a', 'n'] => some (signed nan)
  | _ => readMagnitude? negative rest

end Double

end LogRules
