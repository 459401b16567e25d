/-!
Floating-point numbers of 64 bits, kept as their bits: two numbers are equal as data exactly when
no operation can tell them apart, the sign of a NaN included.
-/
namespace LogRules

structure Double where
  bits : UInt64
deriving DecidableEq, Inhabited, Repr

namespace Double

-- The instance of the core library, whatever else a file has in scope.
attribute [local instance (high)] instPowNat

def ofFloat (x : Float) : Double := ⟨x.toBits⟩

def toFloat (x : Double) : Float := Float.ofBits x.bits

/-- The nearest number to an integer, ties to even. -/
def ofInt (n : Int) : Double := ofFloat (Float.ofInt n)

def signMask : UInt64 := 0x8000000000000000

/-- The magnitude of infinity; a larger magnitude is not a number. -/
def infiniteMagnitude : Nat := 0x7ff0000000000000

/-- The bits without the sign, which order the magnitudes. -/
def magnitude (x : Double) : Nat := x.bits.toNat % 2 ^ (63 : Nat)

/-- Holds of negative zero and of a NaN whose sign bit is set. -/
def isNegative (x : Double) : Bool := x.bits &&& signMask != 0

def isNan (x : Double) : Bool := infiniteMagnitude < x.magnitude

def isInfinite (x : Double) : Bool := x.magnitude == infiniteMagnitude

def isFinite (x : Double) : Bool := x.magnitude < infiniteMagnitude

def ofMagnitude (negative : Bool) (magnitude : Nat) : Double :=
  ⟨(if negative then signMask else 0) ||| UInt64.ofNat magnitude⟩

def zero : Double := ⟨0⟩

def nan : Double := ⟨0x7ff8000000000000⟩

def infinity (negative : Bool) : Double := ofMagnitude negative infiniteMagnitude

/-- Significand and exponent: a finite number is `m * 2 ^ q` up to its sign. -/
def parts (x : Double) : Nat × Int :=
  let exponent : Nat := x.magnitude / 2 ^ (52 : Nat)
  let fraction := x.magnitude % 2 ^ (52 : Nat)
  if exponent = 0 then (fraction, -1074) else (2 ^ (52 : Nat) + fraction, (exponent : Int) - 1075)

/-- The number `m * 2 ^ q` for a product that needs no rounding. -/
def ofParts (negative : Bool) (m : Nat) (q : Int) : Double :=
  if m = 0 then ofMagnitude negative 0
  else
    let target := max (q + m.log2 - 52) (-1074)
    let shifted := if q ≤ target then m >>> (target - q).toNat else m <<< (q - target).toNat
    ofMagnitude negative ((target + 1074).toNat * 2 ^ (52 : Nat) + shifted)

/-- The opposite sign, for zeros and NaNs too. -/
def neg (x : Double) : Double := ⟨x.bits ^^^ signMask⟩

def add (x y : Double) : Double := ofFloat (x.toFloat + y.toFloat)

def sub (x y : Double) : Double := ofFloat (x.toFloat - y.toFloat)

def mul (x y : Double) : Double := ofFloat (x.toFloat * y.toFloat)

def div (x y : Double) : Double := ofFloat (x.toFloat / y.toFloat)

/-- The remainder of the division truncated toward zero. It is exact and takes the sign of `x`. -/
def rem (x y : Double) : Double :=
  if x.isNan || y.isNan || x.isInfinite || y.magnitude == 0 then nan
  else if y.isInfinite then x
  else
    let (m, q) := x.parts
    let (n, r) := y.parts
    let low := min q r
    ofParts x.isNegative ((m <<< (q - low).toNat) % (n <<< (r - low).toNat)) low

/-- Numeric equality: a NaN differs from itself, and the two zeros are equal. -/
def equal (x y : Double) : Bool := x.toFloat == y.toFloat

/-- Numeric order; nothing compares with a NaN. -/
def compare? (x y : Double) : Option Ordering :=
  if x.isNan || y.isNan then none
  else if x.toFloat < y.toFloat then some .lt
  else if x.equal y then some .eq
  else some .gt

def truncate (x : Double) : Int :=
  let (m, q) := x.parts
  let whole := if q < 0 then m >>> (-q).toNat else m <<< q.toNat
  if x.isNegative then -(whole : Int) else whole

end Double

end LogRules
