import LogRules.Grammar.Reply
import LogRules.Grammar.Typing

/-!
The grammar of expressions, from the loosest operator to the tightest. Nesting is bounded twice: a
parser that would nest too deep is not entered, and a tree that has become too deep is refused. The
productions are the same in every monad that runs parsers; how deep they nest is up to it.
-/
namespace LogRules

def maxNesting : Nat := 128

/-- The words that cannot name a variable. -/
def reservedWords : List String :=
  ["rule", "when", "then", "end", "let", "pipeline", "stage", "match", "and", "or", "not", "true",
    "false"]

def isReserved (name : String) : Bool := reservedWords.any (Lexeme.sameWord name)

namespace Grammar

/-- What an expression is parsed against. -/
structure Env where
  registry : Registry
  scope : Typing.Scope
  /-- Calls that change something are refused in a condition. -/
  inCondition : Bool

/-- The parsers of what stands one level deeper. -/
structure Deeper (m : Type → Type) where
  expression : m Expr
  /-- What stands behind `not`. -/
  negated : m Expr
  /-- What stands behind a sign. -/
  signed : m Expr

def tooDeep {α : Type} (position : Position) : Parse α :=
  Parse.failAt position (.nestingTooDeep maxNesting)

/-- Refuses a tree that has become too deep. -/
def checkDepth (e : Expr) : Parse Expr :=
  if maxNesting < e.depth then tooDeep e.position else return e

/-- Reports what is wrong with a construct and goes on with it. -/
def accept (checked : Checked) : Parse Expr := do
  Parse.reportAll checked.errors
  return checked.expr

section Productions

variable {m : Type → Type} [Monad m] [MonadLiftT Parse m]

/-- A chain of operators of one level, grouped to the left. -/
def chainLoop (operand : m Expr) (operator? : Lexeme → Option BinaryOp)
    (join : BinaryOp → Expr → Expr → Position → Checked) : Nat → Expr → m Expr
  | 0, left => return left
  | fuel + 1, left => do
    let position ← Parse.here
    match operator? (← Parse.peek 0) with
    | none => return left
    | some op =>
      Parse.advance
      let right ← operand
      let joined ← accept (join op left right position)
      chainLoop operand operator? join fuel (← checkDepth joined)

def chain (operand : m Expr) (operator? : Lexeme → Option BinaryOp)
    (join : BinaryOp → Expr → Expr → Position → Checked) : m Expr := do
  let first ← operand
  chainLoop operand operator? join (← Parse.remaining) first

def orOperator? (lexeme : Lexeme) : Option BinaryOp :=
  if lexeme.isKeyword "or" ∨ lexeme = .symbol .orOr then some .or else none

def andOperator? (lexeme : Lexeme) : Option BinaryOp :=
  if lexeme.isKeyword "and" ∨ lexeme = .symbol .andAnd then some .and else none

def equalityOperator? : Lexeme → Option BinaryOp
  | .symbol .equal => some .eq
  | .symbol .notEqual => some .ne
  | _ => none

def orderOperator? : Lexeme → Option BinaryOp
  | .symbol .less => some .lt
  | .symbol .lessEqual => some .le
  | .symbol .greater => some .gt
  | .symbol .greaterEqual => some .ge
  | _ => none

def sumOperator? : Lexeme → Option BinaryOp
  | .symbol .plus => some .add
  | .symbol .minus => some .sub
  | _ => none

def productOperator? : Lexeme → Option BinaryOp
  | .symbol .star => some .mul
  | .symbol .slash => some .div
  | .symbol .percent => some .rem
  | _ => none

def signOperator? : Lexeme → Option UnaryOp
  | .symbol .minus => some .negate
  | .symbol .plus => some .plus
  | _ => none

/-- An argument of a call, with a name before it or without. -/
def argument (deeper : Deeper m) : m Typing.RawArg := do
  if (← Parse.peek 1) = .symbol .colon then
    match ← Parse.peek 0 with
    | .name name | .quotedName name =>
      Parse.advance
      Parse.advance
      return ⟨some name, ← deeper.expression⟩
    | _ => return ⟨none, ← deeper.expression⟩
  else return ⟨none, ← deeper.expression⟩

/-- A call; the next token is the name of the function. -/
def call (env : Env) (deeper : Deeper m) (name : String) : m Expr := do
  let position ← Parse.here
  Parse.advance
  Parse.expect .leftParen "'('"
  let args ← Parse.separated (argument deeper) .rightParen "',' or ')'"
  accept (Typing.call env.registry env.inCondition name args position)

def entry (deeper : Deeper m) : m (String × Expr) := do
  match ← Parse.peek 0 with
  | .name key | .quotedName key | .string key =>
    Parse.advance
    Parse.expect .colon "':'"
    return (key, ← deeper.expression)
  | _ => Parse.unexpected "map key"

/-- A field of the message, behind the dollar sign that stands at `position`. -/
def messageField (position : Position) : m Expr := do
  if (← Parse.peek 0).isKeyword "message" then
    Parse.advance
    Parse.expect .dot "'.'"
    return .field ⟨.any, position⟩ (← Parse.expectName "field name")
  else Parse.unexpected "'message' after '$'"

/-- A name that starts an expression: a truth value, a call or a variable. -/
def named (env : Env) (deeper : Deeper m) (name : String) : m Expr := do
  let position ← Parse.here
  if Lexeme.sameWord name "true" then
    Parse.advance
    return .ofValue position (.boolean true)
  else if Lexeme.sameWord name "false" then
    Parse.advance
    return .ofValue position (.boolean false)
  else if (← Parse.peek 1) = .symbol .leftParen then call env deeper name
  else if isReserved name then Parse.unexpected "expression"
  else
    Parse.advance
    accept (Typing.variableIn env.scope name position)

def primary (env : Env) (deeper : Deeper m) : m Expr := do
  let position ← Parse.here
  match ← Parse.peek 0 with
  | .integer n =>
    Parse.advance
    return .ofValue position (.long n)
  | .float x =>
    Parse.advance
    return .ofValue position (.double x)
  | .string text =>
    Parse.advance
    return .ofValue position (.string text)
  | .symbol .leftParen =>
    Parse.advance
    let inner ← deeper.expression
    Parse.expect .rightParen "')'"
    return inner.moveTo position
  | .symbol .leftBracket =>
    Parse.advance
    let items ← Parse.separated deeper.expression .rightBracket "',' or ']'"
    return .array ⟨.list, position⟩ items
  | .symbol .leftBrace =>
    Parse.advance
    let entries ← Parse.separated (entry deeper) .rightBrace "',' or '\x7d'"
    return .map ⟨.map, position⟩ entries
  | .symbol .dollar =>
    Parse.advance
    messageField position
  | .name name => named env deeper name
  | _ => Parse.unexpected "expression"

/-- Accesses by name and by key behind an expression. -/
def postfixLoop (deeper : Deeper m) : Nat → Expr → m Expr
  | 0, object => return object
  | fuel + 1, object => do
    let position ← Parse.here
    if ← Parse.eat .dot then
      let name ← Parse.expectName "field name"
      let found ← accept (Typing.access object name position)
      postfixLoop deeper fuel (← checkDepth found)
    else if ← Parse.eat .leftBracket then
      let key ← deeper.expression
      Parse.expect .rightBracket "']'"
      let found ← accept (Typing.index object key position)
      postfixLoop deeper fuel (← checkDepth found)
    else return object

def postfixTail (deeper : Deeper m) (object : Expr) : m Expr := do
  postfixLoop deeper (← Parse.remaining) object

def number? : Lexeme → Option Value
  | .integer n => some (.long n)
  | .float x => some (.double x)
  | _ => none

def negateNumber : Value → Value
  | .long n => .long (-n)
  | .double x => .double x.neg
  | other => other

/-- Signs. A minus directly before a number makes a negative literal. -/
def signLevel (env : Env) (deeper : Deeper m) : m Expr := do
  let position ← Parse.here
  match signOperator? (← Parse.peek 0) with
  | none => postfixTail deeper (← primary env deeper)
  | some op =>
    Parse.advance
    match number? (← Parse.peek 0), op with
    | some value, .negate =>
      Parse.advance
      postfixTail deeper (.ofValue position (negateNumber value))
    | _, _ => accept (Typing.signed op position (← deeper.signed))

def productLevel (env : Env) (deeper : Deeper m) : m Expr :=
  chain (signLevel env deeper) productOperator? Typing.arithmetic

def sumLevel (env : Env) (deeper : Deeper m) : m Expr :=
  chain (productLevel env deeper) sumOperator? Typing.arithmetic

def orderLevel (env : Env) (deeper : Deeper m) : m Expr :=
  chain (sumLevel env deeper) orderOperator? Typing.comparison

def equalityLevel (env : Env) (deeper : Deeper m) : m Expr :=
  chain (orderLevel env deeper) equalityOperator? Typing.comparison

def notLevel (env : Env) (deeper : Deeper m) : m Expr := do
  let position ← Parse.here
  if ← Parse.eatIf (fun lexeme => lexeme.isKeyword "not" || lexeme == .symbol .bang) then
    accept (Typing.negation position (← deeper.negated))
  else equalityLevel env deeper

def andLevel (env : Env) (deeper : Deeper m) : m Expr :=
  chain (notLevel env deeper) andOperator? fun op left right _ => Typing.logical op left right

def orLevel (env : Env) (deeper : Deeper m) : m Expr :=
  chain (andLevel env deeper) orOperator? fun op left right _ => Typing.logical op left right

end Productions

/-- The parsers that may nest `room` levels deep. Without room left they fail where they stand. -/
def nested (env : Env) : Nat → Deeper Parse
  | 0 =>
    let stop : Parse Expr := do tooDeep (← Parse.here)
    ⟨stop, stop, stop⟩
  | room + 1 =>
    let deeper := nested env room
    { expression := do checkDepth (← orLevel env deeper)
      negated := do checkDepth (← notLevel env deeper)
      signed := do checkDepth (← signLevel env deeper) }

def expression (env : Env) : Parse Expr := (nested env maxNesting).expression

end Grammar

end LogRules
