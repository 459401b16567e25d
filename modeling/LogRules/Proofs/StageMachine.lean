import LogRules.Engine

/-!
Runs as a machine of stages. A run goes through blocks, one for each stage that it enters, and the
blocks tell its events: which rules are judged and executed, in what order, and where it ends.
-/
namespace LogRules.Run

/-- A rule in the form in which it was run, and what came of it. -/
structure Turn (α : Type) extends Matched where
  outcome : Except EvalError α

namespace Turn

def isSatisfied (turn : Turn Bool) : Bool :=
  match turn.outcome with
  | .ok flag => flag
  | .error _ => false

/-- The two events of a rule that was judged. -/
def judgement (pipeline : String) (turn : Turn Bool) : List Event :=
  [.evaluateRule pipeline turn.rule.name,
    match turn.outcome with
    | .ok true => .satisfyRule pipeline turn.rule.name
    | .ok false => .dissatisfyRule pipeline turn.rule.name
    | .error error => .failEvaluateRule pipeline turn.rule.name error]

/-- The event of a rule that was executed. -/
def execution (pipeline : String) (turn : Turn Unit) : Event :=
  match turn.outcome with
  | .ok () => .executeRule pipeline turn.rule.name
  | .error error => .failExecuteRule pipeline turn.rule.name error

/-- The context behind a turn: a fault is recorded in it. -/
def settle {α : Type} (errorField : Option String) (pipeline : String) (stage : Int)
    (phase : FaultPhase) (turn : Turn α) (c : Context) : Context :=
  match turn.outcome with
  | .ok _ => c
  | .error error => recordFault errorField ⟨pipeline, stage, turn.rule.name, phase, error⟩ c

end Turn

/-- The rules that match, in order, in the forms in which they were judged. -/
def matchedOf (judged : List (Turn Bool)) : List Matched :=
  (judged.filter Turn.isSatisfied).map Turn.toMatched

/-- A stage that was entered, with its rules in their turns. -/
structure Block where
  stage : Stage
  judged : List (Turn Bool)
  executed : List (Turn Unit)

namespace Block

/-- Whether the policy of the stage is satisfied by the number of rules that match. -/
def proceeds (b : Block) : Bool :=
  b.stage.policy.satisfied (matchedOf b.judged).length b.stage.rules.length

def events (pipeline : String) (b : Block) : List Event :=
  .enterStage pipeline b.stage.number b.stage.policy ::
    b.judged.flatMap (Turn.judgement pipeline) ++
      if b.proceeds then
        b.executed.map (Turn.execution pipeline) ++ [.continuePipeline pipeline b.stage.number]
      else [.stopPipeline pipeline b.stage.number]

end Block

/-- A pipeline that was entered, with its blocks. -/
structure Visit where
  pipeline : Pipeline
  blocks : List Block

def Visit.events (v : Visit) : List Event := v.blocks.flatMap (Block.events v.pipeline.name)

section Machine

variable (errorField : Option String) (pipeline : String)

/-- The conditions of rules, judged one after the other, each in the form that the cache gives. -/
inductive Judges (stage : Int) :
    List Rule → RuleCache → Context → List (Turn Bool) → RuleCache → Context → Prop
  | done (cache : RuleCache) (c : Context) : Judges stage [] cache c [] cache c
  | next {rule : Rule} {rest : List Rule} {cache cache' : RuleCache} {c d e : Context}
      {turn : Turn Bool} {turns : List (Turn Bool)} (hrule : turn.rule = rule)
      (hbody : turn.body = (bodyOf cache rule).1)
      (hrun : turn.body.condition.runOn c = (turn.outcome, d))
      (hrest : Judges stage rest (bodyOf cache rule).2
        (turn.settle errorField pipeline stage .condition d) turns cache' e) :
      Judges stage (rule :: rest) cache c (turn :: turns) cache' e

/-- The statements of rules, executed one rule after the other. -/
inductive Executes (stage : Int) :
    List Matched → Context → List (Turn Unit) → Context → Prop
  | done (c : Context) : Executes stage [] c [] c
  | next {matched : Matched} {rest : List Matched} {c d e : Context} {turn : Turn Unit}
      {turns : List (Turn Unit)} (hmatched : turn.toMatched = matched)
      (hrun : turn.body.execute.runOn c = (turn.outcome, d))
      (hrest : Executes stage rest (turn.settle errorField pipeline stage .execution d) turns e) :
      Executes stage (matched :: rest) c (turn :: turns) e

/-- A stage from its entry to its end. Nothing is executed unless the policy is satisfied. -/
inductive Enters (stage : Stage) (cache : RuleCache) (c : Context) :
    Block → RuleCache → Context → Prop
  | proceeds {judged : List (Turn Bool)} {executed : List (Turn Unit)} {cache' : RuleCache}
      {d e : Context}
      (hjudged : Judges errorField pipeline stage.number stage.rules cache c judged cache' d)
      (hexecuted : Executes errorField pipeline stage.number (matchedOf judged) d executed e)
      (hpolicy : (Block.mk stage judged executed).proceeds = true) :
      Enters stage cache c ⟨stage, judged, executed⟩ cache' e
  | stops {judged : List (Turn Bool)} {cache' : RuleCache} {d : Context}
      (hjudged : Judges errorField pipeline stage.number stage.rules cache c judged cache' d)
      (hpolicy : (Block.mk stage judged []).proceeds = false) :
      Enters stage cache c ⟨stage, judged, []⟩ cache' d

/-- Stages in order. The next one is entered if the last one has gone on and has not left the
message dropped, and not otherwise. -/
inductive Passes :
    List Stage → RuleCache → Context → List Block → RuleCache → Context → Prop
  | finished (cache : RuleCache) (c : Context) : Passes [] cache c [] cache c
  | left {stage : Stage} {rest : List Stage} {cache cache' : RuleCache} {c d : Context} {b : Block}
      (henter : Enters errorField pipeline stage cache c b cache' d)
      (hend : b.proceeds = false ∨ d.message.dropped = true) :
      Passes (stage :: rest) cache c [b] cache' d
  | next {stage : Stage} {rest : List Stage} {cache cache' cache'' : RuleCache}
      {c d e : Context} {b : Block} {blocks : List Block}
      (henter : Enters errorField pipeline stage cache c b cache' d)
      (hgoes : b.proceeds = true) (hkept : d.message.dropped = false)
      (hrest : Passes rest cache' d blocks cache'' e) :
      Passes (stage :: rest) cache c (b :: blocks) cache'' e

end Machine

/-- Pipelines in order, each from a context without variables and faults. The next one is entered
if the message is not dropped, and not otherwise. The faults are those that the contexts end
with. -/
inductive Visits (errorField : Option String) :
    List Pipeline → RuleCache → Message → List Visit → List RuleFault → RuleCache → Message → Prop
  | finished (cache : RuleCache) (m : Message) : Visits errorField [] cache m [] [] cache m
  | dropped {p : Pipeline} {rest : List Pipeline} (cache : RuleCache) {m : Message}
      (hdropped : m.dropped = true) : Visits errorField (p :: rest) cache m [] [] cache m
  | entered {p : Pipeline} {rest : List Pipeline} {cache cache' cache'' : RuleCache}
      {m m' : Message} {c : Context} {blocks : List Block} {visits : List Visit}
      {faults : List RuleFault} (hkept : m.dropped = false)
      (hpasses : Passes errorField p.name p.stages cache (.start m) blocks cache' c)
      (hrest : Visits errorField rest cache' c.message visits faults cache'' m') :
      Visits errorField (p :: rest) cache m (⟨p, blocks⟩ :: visits) (c.faults ++ faults) cache'' m'

section Runs

variable {errorField : Option String} {pipeline : String}

/-- What the machine says of conditions is what judging them does. -/
theorem Judges.judge_eq {stage : Int} {rules : List Rule} {cache cache' : RuleCache}
    {c e : Context} {turns : List (Turn Bool)}
    (h : Judges errorField pipeline stage rules cache c turns cache' e) :
    judge errorField pipeline stage rules cache c =
      ⟨matchedOf turns, turns.flatMap (Turn.judgement pipeline), cache', e⟩ := by
  induction h with
  | done => rfl
  | @next rule rest cache cache' c d e turn turns hrule hbody hrun hrest ih =>
    obtain ⟨⟨judged, body⟩, outcome⟩ := turn
    obtain rfl : judged = rule := hrule
    obtain rfl : body = (bodyOf cache judged).1 := hbody
    simp only [judge, hrun]
    match outcome with
    | .error error => exact congrArg (Judged.prepend _ _) ih
    | .ok true => exact congrArg (Judged.prepend _ _) ih
    | .ok false => exact congrArg (Judged.prepend _ _) ih

theorem Executes.execute_eq {stage : Int} {ms : List Matched} {c e : Context}
    {turns : List (Turn Unit)} (h : Executes errorField pipeline stage ms c turns e) :
    execute errorField pipeline stage ms c = (turns.map (Turn.execution pipeline), e) := by
  induction h with
  | done => rfl
  | @next matched rest c d e turn turns hmatched hrun hrest ih =>
    obtain ⟨executed, outcome⟩ := turn
    obtain rfl : executed = matched := hmatched
    simp only [execute, hrun]
    cases outcome with
    | error error => exact congrArg (fun told => (_ :: told.1, told.2)) ih
    | ok _ => exact congrArg (fun told => (_ :: told.1, told.2)) ih

theorem Enters.runStage_eq {stage : Stage} {cache cache' : RuleCache} {c e : Context} {b : Block}
    (h : Enters errorField pipeline stage cache c b cache' e) :
    runStage errorField pipeline stage cache c = ⟨b.proceeds, b.events pipeline, cache', e⟩ := by
  cases h with
  | proceeds hjudged hexecuted hpolicy =>
    have hsatisfied := hpolicy
    rw [Block.proceeds] at hsatisfied
    simp only [runStage, hjudged.judge_eq, hexecuted.execute_eq, hsatisfied, if_true, hpolicy,
      Block.events, List.cons_append, List.append_assoc]
  | stops hjudged hpolicy =>
    have hsatisfied := hpolicy
    rw [Block.proceeds] at hsatisfied
    simp only [runStage, hjudged.judge_eq, hsatisfied, Bool.false_eq_true, if_false, hpolicy,
      Block.events, List.cons_append]

theorem Passes.runStages_eq {stages : List Stage} {cache cache' : RuleCache} {c e : Context}
    {blocks : List Block} (h : Passes errorField pipeline stages cache c blocks cache' e) :
    runStages errorField pipeline stages cache c =
      (blocks.flatMap (Block.events pipeline), cache', e) := by
  induction h with
  | finished => rfl
  | left henter hend =>
    simp only [runStages, henter.runStage_eq]
    obtain hend | hend := hend
    · simp [hend]
    · simp [hend]
  | next henter hgoes hkept hrest ih => simp [runStages, henter.runStage_eq, hgoes, hkept, ih]

theorem Visits.runPipelines_eq {pipelines : List Pipeline} {cache cache' : RuleCache}
    {m m' : Message} {visits : List Visit} {faults : List RuleFault}
    (h : Visits errorField pipelines cache m visits faults cache' m') :
    runPipelines errorField pipelines cache m =
      ⟨faults, visits.map (·.pipeline.name), visits.flatMap Visit.events, cache', m'⟩ := by
  induction h with
  | finished => rfl
  | dropped cache hdropped => simp [runPipelines, hdropped]
  | entered hkept hpasses hrest ih =>
    simp [runPipelines, hkept, hpasses.runStages_eq, ih, Visit.events]

variable (errorField pipeline)

theorem exists_judges (stage : Int) (rules : List Rule) (cache : RuleCache) (c : Context) :
    ∃ turns cache' e, Judges errorField pipeline stage rules cache c turns cache' e := by
  induction rules generalizing cache c with
  | nil => exact ⟨[], cache, c, .done cache c⟩
  | cons rule rest ih =>
    obtain ⟨outcome, d, hrun⟩ :
        ∃ outcome d, (bodyOf cache rule).1.condition.runOn c = (outcome, d) := ⟨_, _, rfl⟩
    let turn : Turn Bool := ⟨⟨rule, (bodyOf cache rule).1⟩, outcome⟩
    obtain ⟨turns, cache', e, hrest⟩ := ih (bodyOf cache rule).2
      (turn.settle errorField pipeline stage .condition d)
    exact ⟨turn :: turns, cache', e, .next rfl rfl hrun hrest⟩

theorem judge_judges (stage : Int) (rules : List Rule) (cache : RuleCache) (c : Context) :
    ∃ turns, Judges errorField pipeline stage rules cache c turns
        (judge errorField pipeline stage rules cache c).cache
        (judge errorField pipeline stage rules cache c).context ∧
      (judge errorField pipeline stage rules cache c).matched = matchedOf turns := by
  obtain ⟨turns, cache', e, hjudges⟩ := exists_judges errorField pipeline stage rules cache c
  rw [hjudges.judge_eq]
  exact ⟨turns, hjudges, rfl⟩

theorem exists_executes (stage : Int) (ms : List Matched) (c : Context) :
    ∃ turns e, Executes errorField pipeline stage ms c turns e := by
  induction ms generalizing c with
  | nil => exact ⟨[], c, .done c⟩
  | cons m rest ih =>
    obtain ⟨outcome, d, hrun⟩ : ∃ outcome d, m.body.execute.runOn c = (outcome, d) :=
      ⟨_, _, rfl⟩
    let turn : Turn Unit := ⟨m, outcome⟩
    obtain ⟨turns, e, hrest⟩ := ih (turn.settle errorField pipeline stage .execution d)
    exact ⟨turn :: turns, e, .next rfl hrun hrest⟩

theorem exists_enters (stage : Stage) (cache : RuleCache) (c : Context) :
    ∃ b cache' e, Enters errorField pipeline stage cache c b cache' e := by
  obtain ⟨judged, cache', d, hjudges⟩ :=
    exists_judges errorField pipeline stage.number stage.rules cache c
  cases hpolicy : stage.policy.satisfied (matchedOf judged).length stage.rules.length with
  | true =>
    obtain ⟨executed, e, hexecutes⟩ :=
      exists_executes errorField pipeline stage.number (matchedOf judged) d
    exact ⟨⟨stage, judged, executed⟩, cache', e, .proceeds hjudges hexecutes hpolicy⟩
  | false => exact ⟨⟨stage, judged, []⟩, cache', d, .stops hjudges hpolicy⟩

theorem exists_passes (stages : List Stage) (cache : RuleCache) (c : Context) :
    ∃ blocks cache' e, Passes errorField pipeline stages cache c blocks cache' e := by
  induction stages generalizing cache c with
  | nil => exact ⟨[], cache, c, .finished cache c⟩
  | cons stage rest ih =>
    obtain ⟨b, cache', d, henters⟩ := exists_enters errorField pipeline stage cache c
    cases hgoes : b.proceeds with
    | false => exact ⟨[b], cache', d, .left henters (.inl hgoes)⟩
    | true =>
      cases hdropped : d.message.dropped with
      | true => exact ⟨[b], cache', d, .left henters (.inr hdropped)⟩
      | false =>
        obtain ⟨blocks, cache'', e, hpasses⟩ := ih cache' d
        exact ⟨b :: blocks, cache'', e, .next henters hgoes hdropped hpasses⟩

theorem exists_visits (pipelines : List Pipeline) (cache : RuleCache) (m : Message) :
    ∃ visits faults cache' m', Visits errorField pipelines cache m visits faults cache' m' := by
  induction pipelines generalizing cache m with
  | nil => exact ⟨[], [], cache, m, .finished cache m⟩
  | cons p rest ih =>
    cases hdropped : m.dropped with
    | true => exact ⟨[], [], cache, m, .dropped cache hdropped⟩
    | false =>
      obtain ⟨blocks, cache', c, hpasses⟩ :=
        exists_passes errorField p.name p.stages cache (.start m)
      obtain ⟨visits, faults, cache'', m', hvisits⟩ := ih cache' c.message
      exact ⟨⟨p, blocks⟩ :: visits, c.faults ++ faults, cache'', m',
        .entered hdropped hpasses hvisits⟩

end Runs

end LogRules.Run
