import LogRules.Grammar.Expression
import LogRules.Pipeline

/-!
The grammar of rules and pipelines, and how parsing goes on behind an error: a broken statement is
skipped to its end, a broken declaration to the start of the next. The productions that hold
expressions leave it to their monad how these are parsed.
-/
namespace LogRules.Grammar

-- The instance of the core library, whatever else a file has in scope.
attribute [local instance (high)] instPowNat

/-- Whether a declaration starts here: a pipeline, or a rule up to its `when`. -/
def startsDeclaration (tokens : List Token) : Bool :=
  (Parse.tokenAt 0 tokens).isKeyword "pipeline" ||
    ((Parse.tokenAt 0 tokens).isKeyword "rule" &&
      (match Parse.tokenAt 1 tokens with
        | .string _ => true
        | _ => false) &&
      (Parse.tokenAt 2 tokens).isKeyword "when")

def atDeclaration : Parse Bool := fun tokens => ⟨[], tokens, some (startsDeclaration tokens)⟩

/-- The tokens from the next declaration on, or from behind the next `end`. -/
def skipToDeclaration : List Token → List Token
  | [] => []
  | token :: rest =>
    if token.lexeme = .eof ∨ startsDeclaration (token :: rest) then token :: rest
    else if token.lexeme.isKeyword "end" then rest
    else skipToDeclaration rest

/-- The tokens from behind the next semicolon on, or from the end of the rule. -/
def skipStatement : List Token → List Token
  | [] => []
  | token :: rest =>
    if token.lexeme = .eof ∨ token.lexeme.isKeyword "end" ∨ startsDeclaration (token :: rest) then
      token :: rest
    else if token.lexeme = .symbol .semicolon then rest
    else skipStatement rest

/-- The tokens from the end of a condition on. -/
def skipCondition : List Token → List Token
  | [] => []
  | token :: rest =>
    if token.lexeme = .eof ∨ token.lexeme.isKeyword "then" ∨ token.lexeme.isKeyword "end" then
      token :: rest
    else skipCondition rest

def skip (f : List Token → List Token) : Parse Unit := fun tokens => ⟨[], f tokens, some ()⟩

/-- The end of a statement: a semicolon, which may be left out before `end`. -/
def statementEnd : Parse Unit := do
  if ← Parse.eat .semicolon then return ()
  else if ← Parse.atKeyword "end" then return ()
  else Parse.unexpected "';'"

/-- Stage numbers have 32 bits. -/
def leastStage : Int := -2 ^ (31 : Nat)

def greatestStage : Int := 2 ^ (31 : Nat) - 1

/-- The references of a stage; a semicolon behind one may be left out. -/
def stageRefs : Nat → Parse (List String)
  | 0 => return []
  | fuel + 1 => do
    if ← Parse.eatKeyword "rule" then
      let name ← Parse.expectString "rule name string"
      let _ ← Parse.eat .semicolon
      return name :: (← stageRefs fuel)
    else return []

def matchPolicy : Parse MatchPolicy := do
  if ← Parse.eatKeyword "all" then return .all
  else if ← Parse.eatKeyword "either" then return .either
  else if ← Parse.eatKeyword "any" then return .either
  else if ← Parse.eatKeyword "pass" then return .pass
  else Parse.unexpected "'all', 'either' or 'pass'"

/-- The number of the stage that starts at `position`. One outside the range becomes zero. -/
def stageNumber (position : Position) : Parse Int := do
  let negative ← Parse.eat .minus
  match ← Parse.peek 0 with
  | .integer n =>
    Parse.advance
    let number : Int := if negative then -n.toInt else n.toInt
    if leastStage ≤ number ∧ number ≤ greatestStage then return number
    else
      Parse.report position (.syntactic s!"stage number {number} out of range")
      return 0
  | _ => Parse.unexpected "stage number"

def stage : Parse Stage := do
  let position ← Parse.here
  Parse.expectKeyword "stage"
  let number ← stageNumber position
  Parse.expectKeyword "match"
  let policy ← matchPolicy
  let refs ← stageRefs (← Parse.remaining)
  return ⟨number, policy, refs, [], position⟩

def stages : Nat → Parse (List Stage)
  | 0 => return []
  | fuel + 1 => do
    if ← Parse.atKeyword "stage" then
      let first ← stage
      return first :: (← stages fuel)
    else return []

/-- What is wrong with the numbers of stages in ascending order: a number twice, or one missing. -/
def stageErrors (pipeline : String) : List Stage → List Diagnostic
  | a :: b :: rest =>
    let next := min (a.number + 1) greatestStage
    (if a.number = b.number then
      Typing.fault b.position (.duplicateStage pipeline b.number)
    else if b.number ≠ next then
      Typing.fault b.position (.nonContiguousStages pipeline next b.number)
    else []) ++ stageErrors pipeline (b :: rest)
  | _ => []

/-- A pipeline with its stages in ascending order. -/
def pipeline : Parse Pipeline := do
  let position ← Parse.here
  Parse.expectKeyword "pipeline"
  let name ← Parse.expectString "pipeline name string"
  let found ← stages (← Parse.remaining)
  Parse.expectKeyword "end"
  if found.isEmpty then Parse.report position (.emptyPipeline name)
  let sorted := sortBy Stage.number found
  Parse.reportAll (stageErrors name sorted)
  return ⟨name, sorted, position⟩

section Productions

open Attempts

variable {m : Type → Type} [Monad m] [MonadLiftT Parse m] [Attempts m] (parse : Env → m Expr)
  (registry : Registry)

/-- The condition of a rule that starts at `position`. A broken one becomes false. -/
def conditionWith (position : Position) : m Expr := do
  match ← attempt (parse ⟨registry, [], true⟩) with
  | some e =>
    Parse.reportAll (Typing.checkBoolean e)
    return e
  | none =>
    skip skipCondition
    return .ofValue position (.boolean false)

/-- A statement up to its end, and the scope behind it. -/
def statementBodyWith (scope : Typing.Scope) : m (Statement × Typing.Scope) := do
  let position ← Parse.here
  if ← Parse.eatKeyword "let" then
    let namePosition ← Parse.here
    let name ← Parse.expectName "variable name"
    if isReserved name then
      Parse.report namePosition (.syntactic s!"'{name}' is a reserved word")
    Parse.expect .assign "'='"
    let value ← parse ⟨registry, scope, false⟩
    return (.bind name value.type value position, scope.insert name value.type)
  else
    let e ← parse ⟨registry, scope, false⟩
    if !e.isCall then
      Parse.report e.position
        (.syntactic "only function calls and 'let' assignments are allowed as statements")
    return (.perform e, scope)

/-- Statements up to the end of the rule. A broken one is left out, but a variable that it has
bound stays in scope. -/
def statementsWith : Nat → Typing.Scope → m (List Statement)
  | 0, _ => return []
  | fuel + 1, scope => do
    if (← Parse.peek 0) = .eof then return []
    else if ← Parse.atKeyword "end" then return []
    else if ← atDeclaration then return []
    else
      match ← attempt (statementBodyWith parse registry scope) with
      | none =>
        skip skipStatement
        statementsWith fuel scope
      | some (statement, scope) =>
        match ← Parse.attempt statementEnd with
        | none =>
          skip skipStatement
          statementsWith fuel scope
        | some () => return statement :: (← statementsWith fuel scope)

def ruleWith : m Rule := do
  let position ← Parse.here
  Parse.expectKeyword "rule"
  let name ← Parse.expectString "rule name string"
  Parse.expectKeyword "when"
  let condition ← conditionWith parse registry position
  Parse.expectKeyword "then"
  let statements ← statementsWith parse registry (← Parse.remaining) []
  Parse.expectKeyword "end"
  return ⟨name, condition, statements, position⟩

def declarationWith : m Declaration := do
  if ← Parse.atKeyword "rule" then return .rule (← ruleWith parse registry)
  else if ← Parse.atKeyword "pipeline" then return .pipeline (← pipeline)
  else
    let found ← Parse.peek 0
    Parse.report (← Parse.here) (.syntactic s!"expected 'rule' or 'pipeline', found {found.text}")
    Parse.advance
    Parse.abandon

/-- All declarations that can be built. -/
def declarationsWith : Nat → m (List Declaration)
  | 0 => return []
  | fuel + 1 => do
    if (← Parse.peek 0) = .eof then return []
    else
      match ← attempt (declarationWith parse registry) with
      | some found => return found :: (← declarationsWith fuel)
      | none =>
        skip skipToDeclaration
        declarationsWith fuel

end Productions

section Declarations

/-! The productions as parsers, with the expressions of `Grammar`. -/

variable (registry : Registry)

abbrev condition (position : Position) : Parse Expr := conditionWith expression registry position

abbrev statementBody (scope : Typing.Scope) : Parse (Statement × Typing.Scope) :=
  statementBodyWith expression registry scope

abbrev statements (fuel : Nat) (scope : Typing.Scope) : Parse (List Statement) :=
  statementsWith expression registry fuel scope

abbrev rule : Parse Rule := ruleWith expression registry

abbrev declaration : Parse Declaration := declarationWith expression registry

abbrev declarations (fuel : Nat) : Parse (List Declaration) :=
  declarationsWith expression registry fuel

end Declarations

end LogRules.Grammar
