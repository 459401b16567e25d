import LogRules.Rule

/-!
Pipelines: stages in ascending order of their numbers, each with rules and a policy that decides
whether the run goes on behind it.
-/
namespace LogRules

/-- How many rules of a stage have to match for the pipeline to go on. -/
inductive MatchPolicy
  | all
  | either
  | pass
deriving DecidableEq, Inhabited, Repr

namespace MatchPolicy

/-- The policy of a stage that asks for none. -/
def standard : MatchPolicy := all

def name : MatchPolicy → String
  | all => "all"
  | either => "either"
  | pass => "pass"

def ofName? (name : String) : Option MatchPolicy := [all, either, pass].find? (·.name == name)

/-- Whether a number of matches out of a total lets the pipeline go on. -/
def satisfied (policy : MatchPolicy) (matched total : Nat) : Bool :=
  match policy with
  | all => matched == total
  | either => total == 0 || 0 < matched
  | pass => true

end MatchPolicy

structure Stage where
  number : Int
  policy : MatchPolicy
  /-- The names of the rules as they are written. -/
  refs : List String
  /-- The rules of those names; none until the pipeline is linked. -/
  rules : List Rule
  position : Position
deriving Inhabited

structure Pipeline where
  name : String
  stages : List Stage
  position : Position
deriving Inhabited

namespace Stage

def text (s : Stage) : String :=
  s!"stage {s.number} match {s.policy.name}\n" ++
    String.join (s.refs.map fun ref => "  rule " ++ Text.quoteString ref ++ ";\n")

def link (lookup : String → Rule) (s : Stage) : Stage := { s with rules := s.refs.map lookup }

end Stage

namespace Pipeline

def text (p : Pipeline) : String :=
  "pipeline " ++ Text.quoteString p.name ++ "\n" ++ String.join (p.stages.map Stage.text) ++ "end"

def link (lookup : String → Rule) (p : Pipeline) : Pipeline :=
  { p with stages := p.stages.map (Stage.link lookup) }

/-- Whether every stage has a rule for each name. -/
def isLinked (p : Pipeline) : Bool := p.stages.all fun s => s.rules.length == s.refs.length

end Pipeline

/-- What a source declares. -/
inductive Declaration
  | rule (r : Rule)
  | pipeline (p : Pipeline)
deriving Inhabited

namespace Declaration

def name : Declaration → String
  | rule r => r.name
  | pipeline p => p.name

def text : Declaration → String
  | rule r => r.text
  | pipeline p => p.text

def rule? : Declaration → Option Rule
  | rule r => some r
  | pipeline _ => none

def pipeline? : Declaration → Option Pipeline
  | rule _ => none
  | pipeline p => some p

end Declaration

end LogRules
