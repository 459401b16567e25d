import LogRules.Token

/-!
Parsers over tokens. A parser reports errors, leaves a rest of the tokens, and has a result unless
it has failed. Failing does not put back what was consumed: the caller goes on from the rest. What
is built from parsers alone is built in any monad that runs them.
-/
namespace LogRules

structure Reply (α : Type) where
  errors : List Diagnostic
  rest : List Token
  result : Option α

/-- A parser. The tokens end in `eof`, which is never consumed. -/
def Parse (α : Type) : Type := List Token → Reply α

namespace Parse

variable {α β : Type}

def run (p : Parse α) (tokens : List Token) : Reply α := p tokens

protected def pure (a : α) : Parse α := fun tokens => ⟨[], tokens, some a⟩

/-- Errors of both parts, in order; nothing follows a failure. -/
protected def bind (p : Parse α) (f : α → Parse β) : Parse β := fun tokens =>
  let first := p tokens
  match first.result with
  | none => ⟨first.errors, first.rest, none⟩
  | some a =>
    let second := f a first.rest
    ⟨first.errors ++ second.errors, second.rest, second.result⟩

instance : Monad Parse where
  pure := Parse.pure
  bind := Parse.bind

@[simp] theorem liftM_self (p : Parse α) : (liftM p : Parse α) = p := rfl

/-- The token at a distance; behind the last one there are only ends. -/
def tokenAt (n : Nat) (tokens : List Token) : Lexeme :=
  match tokens[n]? with
  | some token => token.lexeme
  | none => .eof

/-- The tokens behind the first, unless that is the end. -/
def behind : List Token → List Token
  | [] => []
  | token :: rest => if token.lexeme = .eof then token :: rest else rest

def positionOf : List Token → Position
  | [] => .nowhere
  | token :: _ => token.position

def peek (n : Nat) : Parse Lexeme := fun tokens => ⟨[], tokens, some (tokenAt n tokens)⟩

def here : Parse Position := fun tokens => ⟨[], tokens, some (positionOf tokens)⟩

/-- How many tokens are left, which bounds the turns of every loop. -/
def remaining : Parse Nat := fun tokens => ⟨[], tokens, some tokens.length⟩

def advance : Parse Unit := fun tokens => ⟨[], behind tokens, some ()⟩

def reportAll (errors : List Diagnostic) : Parse Unit := fun tokens => ⟨errors, tokens, some ()⟩

def report (position : Position) (problem : Problem) : Parse Unit :=
  reportAll [⟨position, problem⟩]

def failAt (position : Position) (problem : Problem) : Parse α := fun tokens =>
  ⟨[⟨position, problem⟩], tokens, none⟩

/-- Fails without a report of its own. -/
def abandon : Parse α := fun tokens => ⟨[], tokens, none⟩

/-- Fails at the next token, which is not what was expected. -/
def unexpected (expected : String) : Parse α := do
  let found ← peek 0
  failAt (← here) (.syntactic s!"expected {expected}, found {found.text}")

/-- Goes on behind a failure, without a result. -/
def attempt (p : Parse α) : Parse (Option α) := fun tokens =>
  let reply := p tokens
  ⟨reply.errors, reply.rest, some reply.result⟩

def eatIf (test : Lexeme → Bool) : Parse Bool := do
  if test (← peek 0) then
    advance
    return true
  else return false

def eat (symbol : Symbol) : Parse Bool := eatIf (· == .symbol symbol)

def eatKeyword (word : String) : Parse Bool := eatIf (·.isKeyword word)

def atKeyword (word : String) : Parse Bool := return (← peek 0).isKeyword word

def expect (symbol : Symbol) (expected : String) : Parse Unit := do
  if ← eat symbol then return () else unexpected expected

def expectKeyword (word : String) : Parse Unit := do
  if ← eatKeyword word then return () else unexpected s!"'{word}'"

def expectString (expected : String) : Parse String := do
  match ← peek 0 with
  | .string text =>
    advance
    return text
  | _ => unexpected expected

def expectName (expected : String) : Parse String := do
  match ← peek 0 with
  | .name text | .quotedName text =>
    advance
    return text
  | _ => unexpected expected

section Lists

variable {m : Type → Type} [Monad m] [MonadLiftT Parse m]

/-- Items up to a closing symbol, with commas between them. -/
def separatedLoop (item : m α) (close : Symbol) (expected : String) : Nat → m (List α)
  | 0 => unexpected expected
  | fuel + 1 => do
    let first ← item
    if ← eat close then return [first]
    expect .comma expected
    return first :: (← separatedLoop item close expected fuel)

/-- A list behind its opening symbol; it may be empty. -/
def separated (item : m α) (close : Symbol) (expected : String) : m (List α) := do
  if ← eat close then return []
  else separatedLoop item close expected (← remaining)

end Lists

end Parse

/-- Monads in which parsing can go on behind a failure. -/
class Attempts (m : Type → Type) where
  attempt {α : Type} (p : m α) : m (Option α)

instance : Attempts Parse := ⟨Parse.attempt⟩

end LogRules
