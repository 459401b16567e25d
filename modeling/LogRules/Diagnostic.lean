import LogRules.Sorting
import LogRules.Value

/-!
Diagnostics: what is wrong with a source, and where. A set of them is in the order of the source and
holds nothing twice.
-/
namespace LogRules

/-- A place in a source. Lines and columns count from one, columns in characters. -/
structure Position where
  line : Nat
  column : Nat
deriving DecidableEq, Inhabited, Repr

namespace Position

/-- No place in any source. -/
def nowhere : Position := ⟨0, 0⟩

def start : Position := ⟨1, 1⟩

def advance (p : Position) (c : Char) : Position :=
  if c = '\n' then ⟨p.line + 1, 1⟩ else ⟨p.line, p.column + 1⟩

def advanceAll (p : Position) (text : List Char) : Position := text.foldl advance p

/-- Lines first, then columns. -/
def le (p q : Position) : Prop := p.line < q.line ∨ p.line = q.line ∧ p.column ≤ q.column

instance : LE Position := ⟨le⟩

instance : DecidableLE Position := fun p q =>
  inferInstanceAs (Decidable (p.line < q.line ∨ p.line = q.line ∧ p.column ≤ q.column))

def text (p : Position) : String := toString p.line ++ ":" ++ toString p.column

end Position

inductive Problem
  | syntactic (message : String)
  | undeclaredFunction (name : String)
  | undeclaredVariable (name : String)
  | wrongNumberOfArgs (function : String) (given : Nat)
  | missingRequiredParam (function param : String)
  | unknownParameter (function param : String)
  | optionalParametersMustBeNamed (function : String)
  | incompatibleArgumentType (function param : String) (expected actual : ValueType)
  | incompatibleTypes (operator : String) (left right : ValueType)
  | incompatibleType (expected actual : ValueType)
  | nonIndexableType (actual : ValueType)
  | incompatibleIndexType (expected actual : ValueType)
  | invalidOperation (message : String)
  | sideEffectInCondition (function : String)
  | duplicateStage (pipeline : String) (stage : Int)
  | nonContiguousStages (pipeline : String) (expected found : Int)
  | emptyPipeline (pipeline : String)
  | nestingTooDeep (limit : Nat)
  | duplicateRule (name : String)
  | duplicatePipeline (name : String)
deriving DecidableEq, Inhabited, Repr

def Problem.message : Problem → String
  | syntactic message => s!"syntax error: {message}"
  | undeclaredFunction name => s!"unknown function '{name}'"
  | undeclaredVariable name => s!"undeclared variable '{name}'"
  | wrongNumberOfArgs function given =>
    s!"wrong number of arguments for function '{function}': {given} given"
  | missingRequiredParam function param =>
    s!"missing required parameter '{param}' of function '{function}'"
  | unknownParameter function param => s!"function '{function}' has no parameter '{param}'"
  | optionalParametersMustBeNamed function =>
    s!"function '{function}' has optional parameters before required ones, " ++
      "arguments must be named"
  | incompatibleArgumentType function param expected actual =>
    s!"parameter '{param}' of function '{function}' expects {expected.name}, found {actual.name}"
  | incompatibleTypes operator left right =>
    s!"incompatible types {left.name} and {right.name} for operator '{operator}'"
  | incompatibleType expected actual => s!"expected {expected.name}, found {actual.name}"
  | nonIndexableType actual => s!"values of type {actual.name} cannot be indexed"
  | incompatibleIndexType expected actual =>
    s!"index must be {expected.name}, found {actual.name}"
  | invalidOperation message => s!"invalid operation: {message}"
  | sideEffectInCondition function =>
    s!"function '{function}' modifies state and cannot be used in a condition"
  | duplicateStage pipeline stage => s!"pipeline '{pipeline}' declares stage {stage} twice"
  | nonContiguousStages pipeline expected found =>
    s!"pipeline '{pipeline}' skips from stage {expected - 1} to stage {found}"
  | emptyPipeline pipeline => s!"pipeline '{pipeline}' declares no stages"
  | nestingTooDeep limit => s!"expression nests deeper than {limit} levels"
  | duplicateRule name => s!"rule '{name}' is declared more than once"
  | duplicatePipeline name => s!"pipeline '{name}' is declared more than once"

structure Diagnostic where
  position : Position
  problem : Problem
deriving DecidableEq, Inhabited, Repr

namespace Diagnostic

def syntactic (position : Position) (message : String) : Diagnostic :=
  ⟨position, .syntactic message⟩

def text (d : Diagnostic) : String := d.position.text ++ ": " ++ d.problem.message

/-- In the order of their places, repeated neighbours once. -/
def arrange (errors : List Diagnostic) : List Diagnostic :=
  dropRepeats (sortBy Diagnostic.position errors)

@[simp] theorem mem_arrange {d : Diagnostic} {errors : List Diagnostic} :
    d ∈ arrange errors ↔ d ∈ errors := by
  rw [arrange, mem_dropRepeats, (sortBy_perm Diagnostic.position errors).mem_iff]

end Diagnostic

/-- Why a source is refused: at least one diagnostic, in order. -/
structure Diagnostics where
  errors : List Diagnostic
deriving DecidableEq, Inhabited, Repr

namespace Diagnostics

/-- Nothing to report is no set of diagnostics. -/
def ofList? (errors : List Diagnostic) : Option Diagnostics :=
  if errors.isEmpty then none else some ⟨Diagnostic.arrange errors⟩

/-- The first diagnostic and the number of the others. -/
def text (diagnostics : Diagnostics) : String :=
  match diagnostics.errors with
  | [] => "no diagnostics"
  | [single] => single.text
  | first :: rest => s!"{first.text} (and {rest.length} more)"

end Diagnostics

end LogRules
