import LogRules.Expr
import LogRules.Value.Text

/-!
The canonical text of an expression, with the fewest parentheses that its operators need.
-/
namespace LogRules

/-- How tightly an operator binds its operands; more is tighter. -/
def BinaryOp.precedence : BinaryOp → Nat
  | or => 1
  | and => 2
  | eq | ne => 4
  | lt | le | gt | ge => 5
  | add | sub => 6
  | mul | div | rem => 7

namespace Expr

def notPrecedence : Nat := 3
def signPrecedence : Nat := 8
def postfixPrecedence : Nat := 9
def atomPrecedence : Nat := 10

/-- How tightly the outermost part of an expression binds. A literal with a sign binds like one. -/
def precedence : Expr → Nat
  | binary _ op _ _ => op.precedence
  | unary _ .not _ => notPrecedence
  | unary _ _ _ => signPrecedence
  | literal _ (.long n) => if n < 0 then signPrecedence else atomPrecedence
  | literal _ (.double x) => if x.isNegative then signPrecedence else atomPrecedence
  | access _ _ _ | index _ _ _ => postfixPrecedence
  | _ => atomPrecedence

/-- Puts parentheses around a text that binds less tightly than is asked for. -/
def enclose (needed : Bool) (text : String) : String := if needed then "(" ++ text ++ ")" else text

mutual

def text : Expr → String
  | literal _ value => value.literal
  | array _ items => "[" ++ ", ".intercalate (textItems items) ++ "]"
  | map _ entries => "\x7b" ++ ", ".intercalate (textEntries entries) ++ "\x7d"
  | var _ name => name
  | field _ name => "$message." ++ Text.quoteIdentifier name
  | access _ object name =>
    enclose (object.precedence < postfixPrecedence) (text object) ++ "." ++
      Text.quoteIdentifier name
  | index _ object key =>
    enclose (object.precedence < postfixPrecedence) (text object) ++ "[" ++ text key ++ "]"
  | unary _ .not operand => "not " ++ enclose (operand.precedence < notPrecedence) (text operand)
  | unary _ .negate operand => "-" ++ enclose (operand.precedence ≤ signPrecedence) (text operand)
  | unary _ .plus operand => "+" ++ enclose (operand.precedence ≤ signPrecedence) (text operand)
  | binary _ op left right =>
    enclose (left.precedence < op.precedence) (text left) ++ " " ++ op.symbol ++ " " ++
      enclose (right.precedence ≤ op.precedence) (text right)
  | call _ name _ args named _ =>
    name ++ "(" ++ ", ".intercalate (textArgs named args) ++ ")"

def textItems : List Expr → List String
  | [] => []
  | e :: rest => text e :: textItems rest

def textEntries : List (String × Expr) → List String
  | [] => []
  | (key, e) :: rest => (Text.quoteKey key ++ ": " ++ text e) :: textEntries rest

/-- Arguments, with the names of their parameters if the call was written with names. -/
def textArgs (named : Bool) : List (String × Expr) → List String
  | [] => []
  | (param, e) :: rest =>
    ((if named then Text.quoteIdentifier param ++ ": " else "") ++ text e) :: textArgs named rest

end

end Expr

end LogRules
