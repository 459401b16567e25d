import LogRules.Cache
import LogRules.Config
import LogRules.Deployment
import LogRules.Event

/-!
Engines run messages through pipelines. Within a stage every condition is judged before any rule is
executed, and a fault stays with the rule that raised it: it is recorded and reported, and the run
goes on.
-/
namespace LogRules

/-- The form in which a rule is run. -/
inductive RuleBody
  | interpreted (rule : Rule)
  | compiled (code : CompiledRule)

namespace RuleBody

def condition : RuleBody → EvalM Bool
  | interpreted rule => rule.condition.evalCondition
  | compiled code => code.evalCondition

def execute : RuleBody → EvalM Unit
  | interpreted rule => Statement.executeAll rule.statements
  | compiled code => code.execute

end RuleBody

structure Report where
  faults : List RuleFault
  dropped : Bool
  /-- The pipelines that were entered, in order. -/
  pipelinesRun : List String
deriving DecidableEq, Inhabited, Repr

def Report.isClean (r : Report) : Bool := r.faults.isEmpty

namespace Run

/-- Records a fault, and adds it to the field that collects them. -/
def recordFault (errorField : Option String) (fault : RuleFault) (context : Context) : Context :=
  let context := match errorField with
    | some field => context.mapMessage
        (·.appendError field s!"For rule '{fault.rule}': {fault.error.message}")
    | none => context
  context.recordFault fault

/-- The form in which the cache gives a rule, and the cache afterwards. -/
def bodyOf (cache : RuleCache) (rule : Rule) : RuleBody × RuleCache :=
  match cache.lookup rule with
  | (some code, cache) => (.compiled code, cache)
  | (none, cache) => (.interpreted rule, cache)

/-- A rule whose condition held, and the form in which it was judged. -/
structure Matched where
  rule : Rule
  body : RuleBody

/-- The conditions of a stage, judged. -/
structure Judged where
  matched : List Matched
  events : List Event
  cache : RuleCache
  context : Context

/-- Puts what happened to one rule in front of what happened to those after it. -/
def Judged.prepend (matched : List Matched) (events : List Event) (judged : Judged) : Judged :=
  { judged with matched := matched ++ judged.matched, events := events ++ judged.events }

/-- Judges the conditions of rules in order. -/
def judge (errorField : Option String) (pipeline : String) (stage : Int) :
    List Rule → RuleCache → Context → Judged
  | [], cache, context => ⟨[], [], cache, context⟩
  | rule :: rest, cache, context =>
    let (body, cache) := bodyOf cache rule
    let evaluate := Event.evaluateRule pipeline rule.name
    match body.condition.runOn context with
    | (.ok true, context) =>
      (judge errorField pipeline stage rest cache context).prepend [⟨rule, body⟩]
        [evaluate, .satisfyRule pipeline rule.name]
    | (.ok false, context) =>
      (judge errorField pipeline stage rest cache context).prepend []
        [evaluate, .dissatisfyRule pipeline rule.name]
    | (.error error, context) =>
      let context := recordFault errorField ⟨pipeline, stage, rule.name, .condition, error⟩ context
      (judge errorField pipeline stage rest cache context).prepend []
        [evaluate, .failEvaluateRule pipeline rule.name error]

/-- Executes matched rules in order. -/
def execute (errorField : Option String) (pipeline : String) (stage : Int) :
    List Matched → Context → List Event × Context
  | [], context => ([], context)
  | matched :: rest, context =>
    let name := matched.rule.name
    match matched.body.execute.runOn context with
    | (.ok (), context) =>
      let (events, context) := execute errorField pipeline stage rest context
      (.executeRule pipeline name :: events, context)
    | (.error error, context) =>
      let context := recordFault errorField ⟨pipeline, stage, name, .execution, error⟩ context
      let (events, context) := execute errorField pipeline stage rest context
      (.failExecuteRule pipeline name error :: events, context)

/-- A stage, run: whether its policy lets the pipeline go on, and what was left. -/
structure StageRun where
  proceeds : Bool
  events : List Event
  cache : RuleCache
  context : Context

def runStage (errorField : Option String) (pipeline : String) (stage : Stage) (cache : RuleCache)
    (context : Context) : StageRun :=
  let judged := judge errorField pipeline stage.number stage.rules cache context
  let enter := Event.enterStage pipeline stage.number stage.policy
  if stage.policy.satisfied judged.matched.length stage.rules.length then
    let (events, context) :=
      execute errorField pipeline stage.number judged.matched judged.context
    ⟨true, enter :: judged.events ++ events ++ [.continuePipeline pipeline stage.number],
      judged.cache, context⟩
  else
    ⟨false, enter :: judged.events ++ [.stopPipeline pipeline stage.number], judged.cache,
      judged.context⟩

/-- Stages in order, up to one that does not go on or that leaves the message dropped. -/
def runStages (errorField : Option String) (pipeline : String) :
    List Stage → RuleCache → Context → List Event × RuleCache × Context
  | [], cache, context => ([], cache, context)
  | stage :: rest, cache, context =>
    let done := runStage errorField pipeline stage cache context
    if done.proceeds && !done.context.message.dropped then
      let (events, cache, context) :=
        runStages errorField pipeline rest done.cache done.context
      (done.events ++ events, cache, context)
    else (done.events, done.cache, done.context)

structure PipelinesRun where
  faults : List RuleFault
  names : List String
  events : List Event
  cache : RuleCache
  message : Message

/-- Pipelines in order while the message is not dropped. Each starts without variables and
faults. -/
def runPipelines (errorField : Option String) :
    List Pipeline → RuleCache → Message → PipelinesRun
  | [], cache, message => ⟨[], [], [], cache, message⟩
  | pipeline :: rest, cache, message =>
    if message.dropped then ⟨[], [], [], cache, message⟩
    else
      let (events, cache, context) :=
        runStages errorField pipeline.name pipeline.stages cache (.start message)
      let others := runPipelines errorField rest cache context.message
      { others with
        faults := context.faults ++ others.faults
        names := pipeline.name :: others.names
        events := events ++ others.events }

end Run

structure Engine where
  config : Config
  deployment : Deployment
  cache : RuleCache
deriving Inhabited

/-- All that one run shows: the report, the events, and the message afterwards. -/
structure Processed where
  report : Report
  events : List Event
  message : Message

namespace Engine

def new (config : Config) : Engine :=
  ⟨config, .empty, .empty config.maxCompileDepth config.compileRules config.compileThreshold⟩

/-- Replaces what is run. The cache keeps what the new rules can use. -/
def install (engine : Engine) (deployment : Deployment) : Engine :=
  { engine with deployment, cache := engine.cache.retain deployment.keys }

def deploy (config : Config) (deployment : Deployment) : Engine := (new config).install deployment

/-- Runs a message through the pipelines of some names; unknown names are passed over. The streams
are only told to the observer. -/
def process (engine : Engine) (message : Message) (streams names : List String) :
    Processed × Engine :=
  let selected := names.filterMap engine.deployment.pipeline?
  let run := Run.runPipelines engine.config.errorField selected engine.cache message
  let dropped := run.message.dropped
  let events :=
    .startProcessing message.id ::
      .processStreams message.id streams (selected.map (·.name)) ::
      run.events ++ [.finishProcessing message.id dropped]
  (⟨⟨run.faults, dropped, run.names⟩, events, run.message⟩, { engine with cache := run.cache })

/-- Runs a copy of a message. The engine counts the run like any other. -/
def simulate (engine : Engine) (message : Message) (streams names : List String) :
    Processed × Engine :=
  engine.process message streams names

end Engine

namespace Processed

def trace (p : Processed) : List String := p.events.map Event.text

def ruleEvents (p : Processed) (rule : String) : List EventKind :=
  (p.events.filter (·.rule? == some rule)).map Event.kind

/-- The kind of the last event before the end of processing. -/
def lastTransition? (p : Processed) : Option EventKind :=
  (p.events.map Event.kind).reverse.find? (· != .finishProcessing)

end Processed

end LogRules
