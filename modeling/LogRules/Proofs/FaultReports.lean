import LogRules.Proofs.Deployments
import LogRules.Proofs.RunCalls
import LogRules.Proofs.StageMachine

/-!
What a run reports. The faults of a report are those that its events tell of, unless a function that
is called records a fault by itself.
-/
namespace LogRules

/-- Nothing has been recorded or taken back. -/
def Context.SameFaults (c d : Context) : Prop := d.faults = c.faults

instance : IsPreorder Context Context.SameFaults where
  refl _ := rfl
  trans _ _ _ h h' := Eq.trans h' h

/-- The faults that events tell of, in order, each in the stage that was entered last. -/
def Event.faults : Int → List Event → List RuleFault
  | _, [] => []
  | _, .enterStage _ stage _ :: rest => faults stage rest
  | stage, .failEvaluateRule pipeline rule error :: rest =>
    ⟨pipeline, stage, rule, .condition, error⟩ :: faults stage rest
  | stage, .failExecuteRule pipeline rule error :: rest =>
    ⟨pipeline, stage, rule, .execution, error⟩ :: faults stage rest
  | stage, _ :: rest => faults stage rest

namespace Run

open RuleCache

/-- The fault of a turn, if it failed. -/
def Turn.fault? {α : Type} (pipeline : String) (stage : Int) (phase : FaultPhase)
    (turn : Turn α) : Option RuleFault :=
  match turn.outcome with
  | .ok _ => none
  | .error error => some ⟨pipeline, stage, turn.rule.name, phase, error⟩

def Block.faults (pipeline : String) (b : Block) : List RuleFault :=
  b.judged.filterMap (Turn.fault? pipeline b.stage.number .condition) ++
    if b.proceeds then b.executed.filterMap (Turn.fault? pipeline b.stage.number .execution)
    else []

def Visit.faults (v : Visit) : List RuleFault := v.blocks.flatMap (Block.faults v.pipeline.name)

section Told

variable (pipeline : String) (stage : Int)

theorem faults_judgements (turns : List (Turn Bool)) (rest : List Event) :
    Event.faults stage (turns.flatMap (Turn.judgement pipeline) ++ rest) =
      turns.filterMap (Turn.fault? pipeline stage .condition) ++ Event.faults stage rest := by
  induction turns with
  | nil => rfl
  | cons turn turns ih =>
    rw [List.flatMap_cons, List.filterMap_cons, List.append_assoc]
    match houtcome : turn.outcome with
    | .ok true => simpa [Turn.judgement, Turn.fault?, houtcome, Event.faults] using ih
    | .ok false => simpa [Turn.judgement, Turn.fault?, houtcome, Event.faults] using ih
    | .error error => simpa [Turn.judgement, Turn.fault?, houtcome, Event.faults] using ih

theorem faults_executions (turns : List (Turn Unit)) (rest : List Event) :
    Event.faults stage (turns.map (Turn.execution pipeline) ++ rest) =
      turns.filterMap (Turn.fault? pipeline stage .execution) ++ Event.faults stage rest := by
  induction turns with
  | nil => rfl
  | cons turn turns ih =>
    rw [List.map_cons, List.filterMap_cons]
    match houtcome : turn.outcome with
    | .ok () => simpa [Turn.execution, Turn.fault?, houtcome, Event.faults] using ih
    | .error error => simpa [Turn.execution, Turn.fault?, houtcome, Event.faults] using ih

theorem faults_blocks (blocks : List Block) (rest : List Event) : ∃ last,
    Event.faults stage (blocks.flatMap (Block.events pipeline) ++ rest) =
      blocks.flatMap (Block.faults pipeline) ++ Event.faults last rest := by
  induction blocks generalizing stage with
  | nil => exact ⟨stage, rfl⟩
  | cons b blocks ih =>
    obtain ⟨last, hrest⟩ := ih b.stage.number
    refine ⟨last, ?_⟩
    rw [List.flatMap_cons, List.flatMap_cons, List.append_assoc, List.append_assoc, ← hrest,
      Block.events, Block.faults]
    cases b.proceeds with
    | true => simp [Event.faults, faults_judgements, faults_executions]
    | false => simp [Event.faults, faults_judgements]

theorem faults_visits (visits : List Visit) (rest : List Event) : ∃ last,
    Event.faults stage (visits.flatMap Visit.events ++ rest) =
      visits.flatMap Visit.faults ++ Event.faults last rest := by
  induction visits generalizing stage with
  | nil => exact ⟨stage, rfl⟩
  | cons v visits ih =>
    obtain ⟨last, hblocks⟩ :=
      faults_blocks v.pipeline.name stage v.blocks (visits.flatMap Visit.events ++ rest)
    obtain ⟨last', hrest⟩ := ih last
    refine ⟨last', ?_⟩
    rw [List.flatMap_cons, List.flatMap_cons, List.append_assoc, List.append_assoc, ← hrest]
    exact hblocks

end Told

section Recorded

variable {errorField : Option String} {pipeline : String}

theorem faults_settle {α : Type} (stage : Int) (phase : FaultPhase) (turn : Turn α) (c : Context) :
    (turn.settle errorField pipeline stage phase c).faults =
      c.faults ++ (turn.fault? pipeline stage phase).toList := by
  rw [Turn.settle, Turn.fault?]
  cases turn.outcome with
  | ok a => simp
  | error error => cases errorField <;> rfl

/-- What a turn adds to the faults, with the turns behind it. -/
theorem Turn.faults_cons {α : Type} {stage : Int} {phase : FaultPhase} {turn : Turn α}
    {turns : List (Turn α)} {c d e : Context} (hkept : d.faults = c.faults)
    (hrest : e.faults = (turn.settle errorField pipeline stage phase d).faults ++
      turns.filterMap (Turn.fault? pipeline stage phase)) :
    e.faults = c.faults ++ (turn :: turns).filterMap (Turn.fault? pipeline stage phase) := by
  rw [hrest, faults_settle, hkept, List.append_assoc, List.filterMap_cons]
  cases turn.fault? pipeline stage phase with
  | none => rfl
  | some fault => rfl

theorem Judges.faults {stage : Int} {rules : List Rule} {cache cache' : RuleCache} {c e : Context}
    {turns : List (Turn Bool)}
    (h : Judges errorField pipeline stage rules cache c turns cache' e)
    (hkept : ∀ ev ∈ judgments errorField pipeline stage rules cache c,
      ev.context.SameFaults ev.left) :
    e.faults = c.faults ++ turns.filterMap (Turn.fault? pipeline stage .condition) := by
  induction h with
  | done cache c => simp
  | @next rule rest cache cache' c d e turn turns hrule hbody hrun hrest ih =>
    obtain ⟨hfirst, hothers⟩ := List.forall_mem_cons.mp hkept
    have hone : Judges errorField pipeline stage [rule] cache c [turn] (bodyOf cache rule).2
        (turn.settle errorField pipeline stage .condition d) :=
      .next hrule hbody hrun (.done _ _)
    rw [hone.judge_eq] at hothers
    have hturn : (turn.body.condition.runOn c).2.faults = c.faults := hbody ▸ hfirst
    rw [hrun] at hturn
    exact Turn.faults_cons hturn (ih hothers)

theorem Executes.faults {stage : Int} {ms : List Matched} {c e : Context}
    {turns : List (Turn Unit)} (h : Executes errorField pipeline stage ms c turns e)
    (hkept : ∀ ev ∈ executions errorField pipeline stage ms c, ev.context.SameFaults ev.left) :
    e.faults = c.faults ++ turns.filterMap (Turn.fault? pipeline stage .execution) := by
  induction h with
  | done c => simp
  | @next matched rest c d e turn turns hmatched hrun hrest ih =>
    obtain ⟨hfirst, hothers⟩ := List.forall_mem_cons.mp hkept
    have hone : Executes errorField pipeline stage [matched] c [turn]
        (turn.settle errorField pipeline stage .execution d) := .next hmatched hrun (.done _)
    rw [hone.execute_eq] at hothers
    have hturn : (turn.body.execute.runOn c).2.faults = c.faults := hmatched ▸ hfirst
    rw [hrun] at hturn
    exact Turn.faults_cons hturn (ih hothers)

theorem Enters.faults {stage : Stage} {cache cache' : RuleCache} {c e : Context} {b : Block}
    (h : Enters errorField pipeline stage cache c b cache' e)
    (hkept : ∀ ev ∈ stageEvaluations errorField pipeline stage cache c,
      ev.context.SameFaults ev.left) : e.faults = c.faults ++ b.faults pipeline := by
  obtain ⟨hjudgments, hexecutions⟩ := List.forall_mem_append.mp hkept
  cases h with
  | proceeds hjudges hexecutes hpolicy =>
    have hsatisfied := hpolicy
    rw [Block.proceeds] at hsatisfied
    rw [hjudges.judge_eq, if_pos hsatisfied] at hexecutions
    rw [hexecutes.faults hexecutions, hjudges.faults hjudgments, Block.faults, if_pos hpolicy,
      List.append_assoc]
  | stops hjudges hpolicy => simp [hjudges.faults hjudgments, Block.faults, hpolicy]

theorem Passes.faults {stages : List Stage} {cache cache' : RuleCache} {c e : Context}
    {blocks : List Block} (h : Passes errorField pipeline stages cache c blocks cache' e)
    (hkept : ∀ ev ∈ stagesEvaluations errorField pipeline stages cache c,
      ev.context.SameFaults ev.left) :
    e.faults = c.faults ++ blocks.flatMap (Block.faults pipeline) := by
  induction h with
  | finished cache c => simp
  | left henter hend =>
    simpa using henter.faults (List.forall_mem_append.mp hkept).1
  | next henter hgoes hdropped hrest ih =>
    obtain ⟨hstage, hothers⟩ := List.forall_mem_append.mp hkept
    rw [henter.runStage_eq, hgoes, hdropped] at hothers
    rw [ih hothers, henter.faults hstage, List.append_assoc, List.flatMap_cons]

theorem Visits.faults {pipelines : List Pipeline} {cache cache' : RuleCache} {m m' : Message}
    {visits : List Visit} {faults : List RuleFault}
    (h : Visits errorField pipelines cache m visits faults cache' m')
    (hkept : ∀ ev ∈ evaluations errorField pipelines cache m, ev.context.SameFaults ev.left) :
    faults = visits.flatMap Visit.faults := by
  induction h with
  | finished cache m => rfl
  | dropped cache hdropped => rfl
  | entered hdropped hpasses hrest ih =>
    simp only [evaluations, hdropped, Bool.false_eq_true, if_false, hpasses.runStages_eq] at hkept
    obtain ⟨hstages, hothers⟩ := List.forall_mem_append.mp hkept
    rw [hpasses.faults hstages, ih hothers]
    rfl

end Recorded

end Run

/-- What a run over a message shows, as the machine of stages tells it. -/
structure Processed.Follows (shown : Processed) (engine next : Engine) (message : Message)
    (streams : List String) (selected : List Pipeline) (visits : List Run.Visit) : Prop where
  run : Run.Visits engine.config.errorField selected engine.cache message visits
    shown.report.faults next.cache shown.message
  events : shown.events = .startProcessing message.id ::
    .processStreams message.id streams (selected.map (·.name)) ::
      (visits.flatMap Run.Visit.events ++ [.finishProcessing message.id shown.report.dropped])
  pipelinesRun : shown.report.pipelinesRun = visits.map (·.pipeline.name)
  dropped : shown.report.dropped = shown.message.dropped

namespace Engine

theorem exists_follows (engine : Engine) (message : Message) (streams names : List String) :
    ∃ visits, (engine.process message streams names).1.Follows engine
      (engine.process message streams names).2 message streams
      (names.filterMap engine.deployment.pipeline?) visits := by
  obtain ⟨visits, faults, cache', m', hvisits⟩ := Run.exists_visits engine.config.errorField
    (names.filterMap engine.deployment.pipeline?) engine.cache message
  have heq := hvisits.runPipelines_eq
  refine ⟨visits, ?_, ?_, ?_, rfl⟩
  · simpa only [process, heq] using hvisits
  · simp [process, heq]
  · simp only [process, heq]

/-- A condition that divides by zero. -/
def failingRule : Rule :=
  ⟨"failing", .binary ⟨.boolean, .nowhere⟩ .eq
    (.binary ⟨.long, .nowhere⟩ .div (.ofValue .nowhere (.long 1)) (.ofValue .nowhere (.long 0)))
    (.ofValue .nowhere (.long 1)), [], .nowhere⟩

/-- Two pipelines, of which the first fails, drops the message and has a stage left. -/
def droppingDeployment : Deployment :=
  ⟨[], [("p", ⟨"p", [⟨0, .either, [], [failingRule, Rule.stoppingRule], .nowhere⟩,
      ⟨1, .pass, [], [], .nowhere⟩], .nowhere⟩),
    ("q", ⟨"q", [⟨0, .pass, [], [], .nowhere⟩], .nowhere⟩)]⟩

def droppingHistory : List Operation := [.install droppingDeployment]

/-- The one function that the rules of the history call drops the message and fails. -/
theorem call_droppingHistory {config : Config} (hoff : config.compileRules = false)
    {message : Message} {names : List String} {x y : Context}
    (h : ((new config).after droppingHistory).Calls message names x y) :
    y = x.mapMessage (·.setDropped true) := by
  have hrules : ((new config).after droppingHistory).deployment.stageRules =
      [failingRule, Rule.stoppingRule] := rfl
  have htargets : ∀ r ∈ [failingRule, Rule.stoppingRule], ∀ e ∈ r.expressions, ∀ site ∈ e.calls,
      site.target = Rule.droppingFault := by
    simp [Rule.expressions, failingRule, Rule.stoppingRule, Statement.expression, Expr.calls,
      Expr.callsEntries, Expr.ofValue]
  obtain ⟨r, hr, e, he, site, hsite, values, rfl⟩ := Calls.exists_site hoff h
  rw [htargets r (hrules ▸ hr) e he site hsite]
  rfl

end Engine

/-- A function that records a fault by itself, and succeeds. -/
def notingFunction : Function where
  id := ⟨0, "note"⟩
  descriptor := (Descriptor.simple "note" .void []).impure
  run := fun _ => do
    modify (·.recordFault ⟨"p", 0, "noted", .execution, .divisionByZero⟩)
    return .null

def notingRegistry : Registry := Registry.empty.add notingFunction

def notingSources : List SourceUnit :=
  [⟨"rules", "rule \"noting\" when true then note(); end"⟩,
    ⟨"pipelines", "pipeline \"p\" stage 0 match pass rule \"noting\"; end"⟩]

theorem notingSources_isSome :
    (Deployment.build notingSources [] notingRegistry).toOption.isSome = true := by
  decide +kernel

def notingDeployment : Deployment :=
  (Deployment.build notingSources [] notingRegistry).toOption.get notingSources_isSome

end LogRules
