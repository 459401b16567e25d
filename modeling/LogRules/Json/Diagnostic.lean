import LogRules.Diagnostic
import LogRules.Json.Decode
import LogRules.Json.Write

/-!
Diagnostics as JSON: the place, and the kind of problem by name with what it is about.
-/
namespace LogRules

namespace JsonText

/-- A document behind a name. -/
def tagged (name : String) (payload : JsonText) : JsonText := .object [(name, payload)]

def record (name : String) (members : List (String × JsonText)) : JsonText :=
  tagged name (.object members)

def ofInt (n : Int) : JsonText := .atom (toString n)

end JsonText

namespace Json

def integer? : Json → Option Int
  | number n => match n.scalar? with
    | some (.integer i) => some i
    | _ => none
  | _ => none

def type? (json : Json) : Option ValueType := json.text?.bind ValueType.ofName?

/-- The members of a record that has all of them. -/
def wholeRecord? (names : List String) (json : Json) : Option (List Json) := do
  (← members? names json).mapM id

end Json

def ValueType.toJson (type : ValueType) : JsonText := .ofString type.name

namespace Problem

def toJson : Problem → JsonText
  | syntactic message => .tagged "Syntax" (.ofString message)
  | undeclaredFunction name => .record "UndeclaredFunction" [("name", .ofString name)]
  | undeclaredVariable name => .record "UndeclaredVariable" [("name", .ofString name)]
  | wrongNumberOfArgs function given =>
    .record "WrongNumberOfArgs" [("function", .ofString function), ("given", .ofNat given)]
  | missingRequiredParam function param =>
    .record "MissingRequiredParam" [("function", .ofString function), ("param", .ofString param)]
  | unknownParameter function param =>
    .record "UnknownParameter" [("function", .ofString function), ("param", .ofString param)]
  | optionalParametersMustBeNamed function =>
    .record "OptionalParametersMustBeNamed" [("function", .ofString function)]
  | incompatibleArgumentType function param expected actual =>
    .record "IncompatibleArgumentType" [("function", .ofString function),
      ("param", .ofString param), ("expected", expected.toJson), ("actual", actual.toJson)]
  | incompatibleTypes operator left right =>
    .record "IncompatibleTypes" [("operator", .ofString operator), ("left", left.toJson),
      ("right", right.toJson)]
  | incompatibleType expected actual =>
    .record "IncompatibleType" [("expected", expected.toJson), ("actual", actual.toJson)]
  | nonIndexableType actual => .record "NonIndexableType" [("actual", actual.toJson)]
  | incompatibleIndexType expected actual =>
    .record "IncompatibleIndexType" [("expected", expected.toJson), ("actual", actual.toJson)]
  | invalidOperation message => .tagged "InvalidOperation" (.ofString message)
  | sideEffectInCondition function =>
    .record "SideEffectInCondition" [("function", .ofString function)]
  | duplicateStage pipeline stage =>
    .record "DuplicateStage" [("pipeline", .ofString pipeline), ("stage", .ofInt stage)]
  | nonContiguousStages pipeline expected found =>
    .record "NonContiguousStages" [("pipeline", .ofString pipeline),
      ("expected", .ofInt expected), ("found", .ofInt found)]
  | emptyPipeline pipeline => .record "EmptyPipeline" [("pipeline", .ofString pipeline)]
  | nestingTooDeep limit => .record "NestingTooDeep" [("limit", .ofNat limit)]
  | duplicateRule name => .record "DuplicateRule" [("name", .ofString name)]
  | duplicatePipeline name => .record "DuplicatePipeline" [("name", .ofString name)]

def ofText? (make : String → Problem) (member : String) (payload : Json) : Option Problem := do
  match ← payload.wholeRecord? [member] with
  | [text] => return make (← text.text?)
  | _ => none

/-- The problem of a kind about a function and a parameter of it. -/
def ofParam? (make : String → String → Problem) (payload : Json) : Option Problem := do
  match ← payload.wholeRecord? ["function", "param"] with
  | [function, param] => return make (← function.text?) (← param.text?)
  | _ => none

/-- The problem of a kind about the type that is there and the one that is asked for. -/
def ofTypes? (make : ValueType → ValueType → Problem) (payload : Json) : Option Problem := do
  match ← payload.wholeRecord? ["expected", "actual"] with
  | [expected, actual] => return make (← expected.type?) (← actual.type?)
  | _ => none

def ofPayload? (kind : String) (payload : Json) : Option Problem :=
  match kind with
  | "Syntax" => payload.text?.map syntactic
  | "UndeclaredFunction" => ofText? undeclaredFunction "name" payload
  | "UndeclaredVariable" => ofText? undeclaredVariable "name" payload
  | "WrongNumberOfArgs" => do
    match ← payload.wholeRecord? ["function", "given"] with
    | [function, given] => return wrongNumberOfArgs (← function.text?) (← given.natural?)
    | _ => none
  | "MissingRequiredParam" => ofParam? missingRequiredParam payload
  | "UnknownParameter" => ofParam? unknownParameter payload
  | "OptionalParametersMustBeNamed" => ofText? optionalParametersMustBeNamed "function" payload
  | "IncompatibleArgumentType" => do
    match ← payload.wholeRecord? ["function", "param", "expected", "actual"] with
    | [function, param, expected, actual] =>
      return incompatibleArgumentType (← function.text?) (← param.text?) (← expected.type?)
        (← actual.type?)
    | _ => none
  | "IncompatibleTypes" => do
    match ← payload.wholeRecord? ["operator", "left", "right"] with
    | [operator, left, right] =>
      return incompatibleTypes (← operator.text?) (← left.type?) (← right.type?)
    | _ => none
  | "IncompatibleType" => ofTypes? incompatibleType payload
  | "NonIndexableType" => do
    match ← payload.wholeRecord? ["actual"] with
    | [actual] => return nonIndexableType (← actual.type?)
    | _ => none
  | "IncompatibleIndexType" => ofTypes? incompatibleIndexType payload
  | "InvalidOperation" => payload.text?.map invalidOperation
  | "SideEffectInCondition" => ofText? sideEffectInCondition "function" payload
  | "DuplicateStage" => do
    match ← payload.wholeRecord? ["pipeline", "stage"] with
    | [pipeline, stage] => return duplicateStage (← pipeline.text?) (← stage.integer?)
    | _ => none
  | "NonContiguousStages" => do
    match ← payload.wholeRecord? ["pipeline", "expected", "found"] with
    | [pipeline, expected, found] =>
      return nonContiguousStages (← pipeline.text?) (← expected.integer?) (← found.integer?)
    | _ => none
  | "EmptyPipeline" => ofText? emptyPipeline "pipeline" payload
  | "NestingTooDeep" => do
    match ← payload.wholeRecord? ["limit"] with
    | [limit] => return nestingTooDeep (← limit.natural?)
    | _ => none
  | "DuplicateRule" => ofText? duplicateRule "name" payload
  | "DuplicatePipeline" => ofText? duplicatePipeline "name" payload
  | _ => none

def ofDocument? : Json → Option Problem
  | .object [(kind, payload)] => do ofPayload? (← Json.string? kind) payload
  | _ => none

end Problem

def Position.toJson (p : Position) : JsonText :=
  .object [("line", .ofNat p.line), ("column", .ofNat p.column)]

def Position.ofDocument? (json : Json) : Option Position := do
  match ← json.wholeRecord? ["line", "column"] with
  | [line, column] => return ⟨← line.natural?, ← column.natural?⟩
  | _ => none

namespace Diagnostic

def toJson (d : Diagnostic) : JsonText :=
  .object [("position", d.position.toJson), ("kind", d.problem.toJson)]

def ofDocument? (json : Json) : Option Diagnostic := do
  match ← json.wholeRecord? ["position", "kind"] with
  | [position, kind] => return ⟨← Position.ofDocument? position, ← Problem.ofDocument? kind⟩
  | _ => none

def ofJson? (text : String) : Option Diagnostic := do ofDocument? (← Json.read? text)

end Diagnostic

end LogRules
