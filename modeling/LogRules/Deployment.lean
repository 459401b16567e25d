import LogRules.Source

/-!
Deployments: rules and pipelines from several sources, linked by name. Either every source is right
and no name is declared twice, or all that is wrong with each of them is reported.
-/
namespace LogRules

/-- A source and the label that errors name it by. -/
structure SourceUnit where
  label : String
  text : String
deriving DecidableEq, Inhabited, Repr

structure SourceDiagnostics where
  label : String
  diagnostics : Diagnostics
deriving DecidableEq, Inhabited, Repr

/-- The sources that keep a deployment from being built. -/
structure InvalidSources where
  sources : List SourceDiagnostics
deriving DecidableEq, Inhabited, Repr

def InvalidSources.text (invalid : InvalidSources) : String :=
  s!"{invalid.sources.length} source(s) failed to parse"

/-- Rules and linked pipelines by name. -/
structure Deployment where
  rules : Entries Rule
  pipelines : Entries Pipeline
deriving Inhabited

namespace Deployment

def empty : Deployment := ⟨[], []⟩

/-- What has been declared so far. Pipelines are not linked yet. -/
structure Declared where
  rules : Entries Rule
  pipelines : Entries Pipeline
  invalid : List SourceDiagnostics

/-- Adds a declaration unless one of its kind and name was declared before, which is an error. -/
def Declared.add (declared : Declared) : Declaration → Declared × List Diagnostic
  | .rule r =>
    if declared.rules.contains r.name then (declared, [⟨r.position, .duplicateRule r.name⟩])
    else ({ declared with rules := declared.rules.insert r.name r }, [])
  | .pipeline p =>
    if declared.pipelines.contains p.name then
      (declared, [⟨p.position, .duplicatePipeline p.name⟩])
    else ({ declared with pipelines := declared.pipelines.insert p.name p }, [])

def Declared.addAll (declared : Declared) : List Declaration → Declared × List Diagnostic
  | [] => (declared, [])
  | declaration :: rest =>
    let (declared, errors) := declared.add declaration
    let (declared, others) := declared.addAll rest
    (declared, errors ++ others)

/-- Adds all that a source declares, and reports what is wrong with it. -/
def Declared.addSource (registry : Registry) (declared : Declared) (unit : SourceUnit) :
    Declared :=
  let parsed := parseSource unit.text registry
  let (declared, repeated) := declared.addAll parsed.declarations
  match Diagnostics.ofList? (parsed.errors ++ repeated) with
  | some diagnostics =>
    { declared with invalid := declared.invalid ++ [⟨unit.label, diagnostics⟩] }
  | none => declared

/-- The rule of a name; one that nothing declares never matches. -/
def ruleNamed (rules : Entries Rule) (name : String) : Rule :=
  (rules.find? name).getD (.alwaysFalse name)

/-- Builds a deployment from sources of rules and sources of pipelines. Either kind may declare
both. -/
def build (ruleSources pipelineSources : List SourceUnit) (registry : Registry) :
    Except InvalidSources Deployment :=
  let declared :=
    (ruleSources ++ pipelineSources).foldl (Declared.addSource registry) ⟨[], [], []⟩
  if declared.invalid.isEmpty then
    .ok ⟨declared.rules,
      declared.pipelines.map fun (name, p) => (name, p.link (ruleNamed declared.rules))⟩
  else .error ⟨declared.invalid⟩

def soleLabel : String := "<source>"

def ofSource (text : String) (registry : Registry) : Except InvalidSources Deployment :=
  build [⟨soleLabel, text⟩] [] registry

def pipeline? (d : Deployment) (name : String) : Option Pipeline := d.pipelines.find? name

def rule? (d : Deployment) (name : String) : Option Rule := d.rules.find? name

/-- Whether a name stands for a declared rule and not for one that never matches. -/
def declaresRule (d : Deployment) (name : String) : Bool := d.rules.contains name

def distinct (keys : List RuleKey) : List RuleKey :=
  keys.foldl (fun found key => if found.contains key then found else found ++ [key]) []

def keys (d : Deployment) : List RuleKey :=
  distinct (d.pipelines.values.flatMap fun p =>
    p.stages.flatMap fun s => s.rules.map Rule.key)

/-- Adds a pipeline to those that use a rule. -/
def addUser (users : Entries (List String)) (rule pipeline : String) : Entries (List String) :=
  let known := (users.find? rule).getD []
  users.insert rule (if known.contains pipeline then known else known ++ [pipeline])

/-- The names of the pipelines that use a rule, by the rule's name. -/
def usage (d : Deployment) : Entries (List String) :=
  d.pipelines.values.foldl (fun users p =>
    p.stages.foldl (fun users s =>
      s.refs.foldl (fun users ref => addUser users ref p.name) users) users) []

def isEmpty (d : Deployment) : Bool := d.pipelines.isEmpty

end Deployment

end LogRules
