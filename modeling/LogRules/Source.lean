import LogRules.Grammar.Declaration
import LogRules.Token.Scan

/-!
Sources: the text of rules and pipelines. Parsing always gives back what could be built together
with everything that is wrong, in the order of the source.
-/
namespace LogRules

/-- What a source holds. With errors the declarations show its structure but are not to be run. -/
structure ParsedSource where
  declarations : List Declaration
  errors : List Diagnostic
deriving Inhabited

namespace ParsedSource

def isClean (s : ParsedSource) : Bool := s.errors.isEmpty

def rules (s : ParsedSource) : List Rule := s.declarations.filterMap Declaration.rule?

def pipelines (s : ParsedSource) : List Pipeline := s.declarations.filterMap Declaration.pipeline?

/-- The canonical text: declarations with a blank line between them. -/
def text (s : ParsedSource) : String := "\n\n".intercalate (s.declarations.map Declaration.text)

def toExcept (s : ParsedSource) : Except Diagnostics (List Declaration) :=
  match Diagnostics.ofList? s.errors with
  | some diagnostics => .error diagnostics
  | none => .ok s.declarations

end ParsedSource

/-- Parses a source against the functions of a registry. -/
def parseSource (source : String) (registry : Registry) : ParsedSource :=
  let (tokens, scanErrors) := tokenize source
  let reply := (Grammar.declarations registry tokens.length).run tokens
  ⟨reply.result.getD [], Diagnostic.arrange (scanErrors ++ reply.errors)⟩

/-- The declarations of a source, or all that is wrong with it. -/
def parse (source : String) (registry : Registry) : Except Diagnostics (List Declaration) :=
  (parseSource source registry).toExcept

def refuse {α : Type} (position : Position) (message : String) : Except Diagnostics α :=
  .error ⟨[.syntactic position message]⟩

/-- All rules among declarations, unless a pipeline stands among them. -/
def rulesOnly : List Declaration → Except Diagnostics (List Rule)
  | [] => .ok []
  | .rule r :: rest => (rulesOnly rest).map (r :: ·)
  | .pipeline p :: _ => refuse p.position "expected a rule, found a pipeline"

/-- All pipelines among declarations, unless a rule stands among them. -/
def pipelinesOnly : List Declaration → Except Diagnostics (List Pipeline)
  | [] => .ok []
  | .pipeline p :: rest => (pipelinesOnly rest).map (p :: ·)
  | .rule r :: _ => refuse r.position "expected a pipeline, found a rule"

/-- A source that is to hold exactly one rule. -/
def parseRule (source : String) (registry : Registry) : Except Diagnostics Rule := do
  match ← rulesOnly (← parse source registry) with
  | [] => refuse .start "expected a rule declaration"
  | [r] => return r
  | _ :: r :: _ => refuse r.position "expected a single rule declaration"

/-- A source that is to hold exactly one pipeline. -/
def parsePipeline (source : String) (registry : Registry) : Except Diagnostics Pipeline := do
  match ← pipelinesOnly (← parse source registry) with
  | [] => refuse .start "expected a pipeline declaration"
  | [p] => return p
  | _ :: p :: _ => refuse p.position "expected a single pipeline declaration"

end LogRules
