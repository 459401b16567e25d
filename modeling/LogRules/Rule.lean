import LogRules.Expr.Text
import LogRules.Fingerprint

/-!
Rules: a condition and the statements that it guards, their canonical text, and what tells the
bodies of two rules apart.
-/
namespace LogRules

inductive Statement
  /-- An expression evaluated for what it does. -/
  | perform (expression : Expr)
  /-- A variable bound to a value, with the static type of the value. -/
  | bind (name : String) (type : ValueType) (value : Expr) (position : Position)
deriving Inhabited

namespace Statement

def expression : Statement → Expr
  | perform expression => expression
  | bind _ _ value _ => value

def text : Statement → String
  | perform expression => expression.text ++ ";"
  | bind name _ value _ => "let " ++ name ++ " = " ++ value.text ++ ";"

end Statement

structure Rule where
  name : String
  condition : Expr
  statements : List Statement
  position : Position
deriving Inhabited

/-- What compiled code is kept under: the text of a body and the functions that its calls hold. -/
structure RuleKey where
  fingerprint : Fingerprint
  calls : List (String × FunctionId)
deriving DecidableEq, Inhabited, Repr

namespace Rule

/-- The rule of a name that nothing declares: it never matches. -/
def alwaysFalse (name : String) : Rule := ⟨name, .ofValue .nowhere (.boolean false), [], .nowhere⟩

/-- The condition and the expressions of the statements, in order. -/
def expressions (r : Rule) : List Expr := r.condition :: r.statements.map Statement.expression

/-- The canonical text of condition and statements, without the name. -/
def body (r : Rule) : String :=
  "when " ++ r.condition.text ++ "\nthen\n" ++
    String.join (r.statements.map fun statement => "  " ++ statement.text ++ "\n")

def text (r : Rule) : String := "rule " ++ Text.quoteString r.name ++ "\n" ++ r.body ++ "end"

/-- The identity of the body's text, whatever the rule is called. -/
def fingerprint (r : Rule) : Fingerprint := .ofText r.body

/-- The fingerprint and the functions behind every call, so that equal text over other functions
has another key. -/
def key (r : Rule) : RuleKey :=
  ⟨r.fingerprint,
    r.expressions.flatMap fun e => e.calls.map fun call => (call.name, call.target.id)⟩

end Rule

end LogRules
