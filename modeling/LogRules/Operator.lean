import LogRules.EvalError
import LogRules.Expr
import LogRules.Number.Long

/-!
What operators do to values. The tree walker and compiled rules share these definitions.
-/
namespace LogRules.Operator

def truthy : Value → Except EvalError Bool
  | .boolean flag => .ok flag
  | other => .error (.mismatch .boolean other)

/-- Texts in the order of their code points. -/
def compareText (a b : String) : Ordering := if a < b then .lt else if a = b then .eq else .gt

def compareInt (a b : Int) : Ordering := if a < b then .lt else if a = b then .eq else .gt

/-- The order of two values: none if either is null or no number. -/
def compare : Value → Value → Except EvalError (Option Ordering)
  | .null, _ => .ok none
  | _, .null => .ok none
  | .long a, .long b => .ok (some (compareInt a.toInt b.toInt))
  | .string a, .string b => .ok (some (compareText a b))
  | a, b => match a.asDouble?, b.asDouble? with
    | some x, some y => .ok (x.compare? y)
    | none, _ => .error (.mismatch .double a)
    | _, none => .error (.mismatch .double b)

/-- Whether an order of operands satisfies a comparison. -/
def holds : BinaryOp → Ordering → Bool
  | .lt, o => o == .lt
  | .le, o => o != .gt
  | .gt, o => o == .gt
  | .ge, o => o != .lt
  | _, _ => false

def comparison (op : BinaryOp) (left right : Value) : Except EvalError Value :=
  match op with
  | .eq => .ok (.boolean (left.equal right))
  | .ne => .ok (.boolean (!left.equal right))
  | _ => (compare left right).map fun order => .boolean (order.any (holds op))

/-- Integer arithmetic: the exact result if it is in the range. Division truncates toward zero, and
the remainder is refused where the quotient is. -/
def longArithmetic? (op : BinaryOp) (a b : Int64) : Option Int64 :=
  match op with
  | .add => Long.ofInt? (a.toInt + b.toInt)
  | .sub => Long.ofInt? (a.toInt - b.toInt)
  | .mul => Long.ofInt? (a.toInt * b.toInt)
  | .div => Long.ofInt? (a.toInt.tdiv b.toInt)
  | .rem => (Long.ofInt? (a.toInt.tdiv b.toInt)).bind fun _ => Long.ofInt? (a.toInt.tmod b.toInt)
  | _ => none

def doubleArithmetic (op : BinaryOp) (x y : Double) : Double :=
  match op with
  | .add => x.add y
  | .sub => x.sub y
  | .mul => x.mul y
  | .div => x.div y
  | .rem => x.rem y
  | _ => .nan

def divides (op : BinaryOp) : Bool := op == .div || op == .rem

def arithmetic (op : BinaryOp) : Value → Value → Except EvalError Value
  | .null, _ => .error (.nullOperand op.symbol)
  | _, .null => .error (.nullOperand op.symbol)
  | .long a, .long b =>
    if divides op && b == 0 then .error .divisionByZero
    else match longArithmetic? op a b with
      | some n => .ok (.long n)
      | none => .error (.overflow op.symbol)
  | left, right =>
    match op, left, right with
    | .add, .string a, .string b => .ok (.string (a ++ b))
    | _, _, _ => match left.asDouble?, right.asDouble? with
      | none, _ => .error (.mismatch .double left)
      | _, none => .error (.mismatch .double right)
      | some x, some y =>
        if divides op && y.equal .zero then .error .divisionByZero
        else .ok (.double (doubleArithmetic op x y))

def unary : UnaryOp → Value → Except EvalError Value
  | .not, value => (truthy value).map fun flag => .boolean (!flag)
  | op, .null => .error (.nullOperand op.symbol)
  | .negate, .long n => match Long.ofInt? (-n.toInt) with
    | some m => .ok (.long m)
    | none => .error (.overflow UnaryOp.negate.symbol)
  | .negate, .double x => .ok (.double x.neg)
  | .plus, .long n => .ok (.long n)
  | .plus, .double x => .ok (.double x)
  | _, other => .error (.mismatch .double other)

/-- A binary operator on two values that are both there. -/
def binary (op : BinaryOp) (left right : Value) : Except EvalError Value :=
  if op.isComparison then comparison op left right
  else if op.isArithmetic then arithmetic op left right
  else do
    let a ← truthy left
    let b ← truthy right
    return .boolean (if op == .and then a && b else a || b)

/-- The entry of a map; null stays null. -/
def access (object : Value) (name : String) : Except EvalError Value :=
  match object with
  | .map entries => .ok ((Entries.find? name entries).getD .null)
  | .null => .ok .null
  | other => .error (.mismatch .map other)

/-- The element of a list at a place that it has, counted from zero. -/
def element? (items : List Value) (place : Int) : Option Value :=
  if place < 0 then none else items[place.toNat]?

/-- The element of a list or the entry of a map; null stays null. -/
def index (object key : Value) : Except EvalError Value :=
  match object, key with
  | .null, _ => .ok .null
  | .list items, .long place => match element? items place.toInt with
    | some value => .ok value
    | none => .error (.indexOutOfBounds place.toInt items.length)
  | .list _, other => .error (.mismatch .long other)
  | .map entries, .string name => .ok ((Entries.find? name entries).getD .null)
  | .map _, other => .error (.mismatch .string other)
  | other, _ => .error (.mismatch .list other)

end LogRules.Operator
