import LogRules.Value

/-!
Faults of evaluation: why a condition or a statement has no value.
-/
namespace LogRules

inductive EvalError
  /-- A call to a function that was unknown when the rule was parsed. -/
  | unresolvedFunction (name : String)
  /-- A value of the wrong type, described by the name of its own type. -/
  | typeMismatch (expected : ValueType) (actual : String)
  | nullOperand (operator : String)
  | divisionByZero
  | overflow (operator : String)
  | indexOutOfBounds (index : Int) (length : Nat)
  | missingArgument (function param : String)
  | undefinedVariable (name : String)
  /-- A failure that a function reports itself. -/
  | failure (name message : String)
  /-- A function that broke off instead of answering. -/
  | panic (message : String)
deriving DecidableEq, Inhabited, Repr

namespace EvalError

/-- The mismatch against a value, which is called null rather than void. -/
def mismatch (expected : ValueType) (actual : Value) : EvalError :=
  .typeMismatch expected (if actual.isNull then "null" else actual.type.name)

def message : EvalError → String
  | unresolvedFunction name => s!"function '{name}' is not defined"
  | typeMismatch expected actual => s!"expected {expected.name}, found {actual}"
  | nullOperand operator => s!"null operand for '{operator}'"
  | divisionByZero => "division by zero"
  | overflow operator => s!"integer overflow in '{operator}'"
  | indexOutOfBounds index length => s!"index {index} out of bounds for list of length {length}"
  | missingArgument function param =>
    s!"missing required argument '{param}' for function '{function}'"
  | undefinedVariable name => s!"variable '{name}' is not bound"
  | failure name message => s!"{name}: {message}"
  | panic message => s!"panic during evaluation: {message}"

end EvalError

end LogRules
