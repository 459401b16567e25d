/-!
Integers of 64 bits: exact results, or none when they leave the range.
-/
namespace LogRules.Long

-- The instance of the core library, whatever else a file has in scope.
attribute [local instance (high)] instPowNat

def least : Int := -2 ^ (63 : Nat)

def greatest : Int := 2 ^ (63 : Nat) - 1

def ofInt? (n : Int) : Option Int64 :=
  if least ≤ n ∧ n ≤ greatest then some (Int64.ofInt n) else none

def clamp (n : Int) : Int64 := Int64.ofInt (max least (min greatest n))

end LogRules.Long
