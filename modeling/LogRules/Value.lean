import LogRules.Entries
import LogRules.Number.Double

/-!
Values of message fields and expressions, and the types the rule language gives them.
-/
namespace LogRules

/-- Static types. `any` is not known before a run, and `void` is the type of no value. -/
inductive ValueType
  | any
  | void
  | boolean
  | long
  | double
  | string
  | list
  | map
deriving DecidableEq, Inhabited, Repr

namespace ValueType

def name : ValueType → String
  | any => "any"
  | void => "void"
  | boolean => "boolean"
  | long => "long"
  | double => "double"
  | string => "string"
  | list => "list"
  | map => "map"

def all : List ValueType := [any, void, boolean, long, double, string, list, map]

def ofName? (name : String) : Option ValueType := all.find? (·.name == name)

/-- Whether a value of type `actual` may stand where `expected` is asked for. An unknown type on
either side leaves the check to the run. -/
def accepts (expected actual : ValueType) : Bool :=
  expected == any || actual == any || expected == actual

def isKnown (type : ValueType) : Bool := type != any

def isNumeric (type : ValueType) : Bool := type == long || type == double

end ValueType

/-- Values with a type at run time. The entries of a map ascend by key. -/
inductive Value
  | null
  | boolean (flag : Bool)
  | long (n : Int64)
  | double (x : Double)
  | string (text : String)
  | list (items : List Value)
  | map (entries : List (String × Value))
deriving Inhabited

namespace Value

/-- The type at run time; null counts as no value. -/
def type : Value → ValueType
  | null => .void
  | boolean _ => .boolean
  | long _ => .long
  | double _ => .double
  | string _ => .string
  | list _ => .list
  | map _ => .map

def isNull : Value → Bool
  | null => true
  | _ => false

def asString? : Value → Option String
  | string text => some text
  | _ => none

def asBoolean? : Value → Option Bool
  | boolean flag => some flag
  | _ => none

def asLong? : Value → Option Int64
  | long n => some n
  | _ => none

/-- A number of either kind as a floating-point number. -/
def asDouble? : Value → Option Double
  | long n => some (.ofInt n.toInt)
  | double x => some x
  | _ => none

mutual

/-- Equality without promotion: of one kind, and equal inside. A NaN makes any value that holds it
differ from itself. -/
def same : Value → Value → Bool
  | null, null => true
  | boolean a, boolean b => a == b
  | long a, long b => a == b
  | double a, double b => a.equal b
  | string a, string b => a == b
  | list a, list b => sameItems a b
  | map a, map b => sameEntries a b
  | _, _ => false

def sameItems : List Value → List Value → Bool
  | [], [] => true
  | a :: as, b :: bs => same a b && sameItems as bs
  | _, _ => false

def sameEntries : List (String × Value) → List (String × Value) → Bool
  | [], [] => true
  | (k, a) :: as, (l, b) :: bs => k == l && same a b && sameEntries as bs
  | _, _ => false

end

/-- Equality of the language: an integer and a floating-point number are compared as the latter. -/
def equal : Value → Value → Bool
  | long a, double b => (Double.ofInt a.toInt).equal b
  | double a, long b => a.equal (Double.ofInt b.toInt)
  | a, b => same a b

end Value

end LogRules
