import LogRules.Proofs.ComposedRuns
import LogRules.Proofs.KnownRules
import LogRules.Proofs.ScopedRelations
import LogRules.Proofs.SiblingOrder

/-!
A fault stays with the rule that raises it. Behind a condition that fails, a run goes on as if the
condition had been false. The fault that was recorded is all that makes a difference, so nothing
else can come of it where functions do not look at the faults of a run.
-/
namespace LogRules

open EvalM

/-- Lists that start with `before` and go on alike behind `x` and `y`. -/
def AlikeAround {α : Type} (before x y l l' : List α) : Prop :=
  ∃ after, l = before ++ (x ++ after) ∧ l' = before ++ (y ++ after)

namespace AlikeAround

variable {α : Type} {before x y l l' : List α}

theorem append (h : AlikeAround before x y l l') {rest rest' : List α} (hrest : rest = rest') :
    AlikeAround before x y (l ++ rest) (l' ++ rest') := by
  obtain ⟨after, rfl, rfl⟩ := h
  subst hrest
  exact ⟨after ++ rest, by simp, by simp⟩

theorem prepend (h : AlikeAround before x y l l') (first : List α) :
    AlikeAround (first ++ before) x y (first ++ l) (first ++ l') := by
  obtain ⟨after, rfl, rfl⟩ := h
  exact ⟨after, by simp, by simp⟩

end AlikeAround

/-- The states are the same, but for a fault that was recorded behind others in the first. -/
structure Context.Beside (before : List RuleFault) (own : RuleFault) (c d : Context) : Prop where
  message : c.message = d.message
  bindings : c.bindings = d.bindings
  faults : AlikeAround before [own] [] c.faults d.faults

open Context

theorem Context.beside_recordFault (own : RuleFault) (c : Context) :
    Beside c.faults own (Run.recordFault none own c) c :=
  ⟨rfl, rfl, [], rfl, by simp⟩

theorem coupling_beside (before : List RuleFault) (own : RuleFault) :
    Run.Coupling none (Beside before own) where
  message _ _ h := h.message
  recordFault _ _ _ h := ⟨h.message, h.bindings, h.faults.append rfl⟩

namespace Registry

/-- What functions of the registry do does not depend on the faults of the run so far. -/
def IgnoresFaults (registry : Registry) : Prop :=
  ∀ name f, registry.find? name = some f → ∀ args before own,
    EvalM.Uniform (Beside before own) (f.run args)

theorem ignoresFaults_builtin (generation : Nat) : (Registry.builtin generation).IgnoresFaults :=
  fun _ _ hf args _ _ => (onMessage_of_builtin hf args).uniform (fun _ _ h => h.message)
    fun _ _ _ h => ⟨rfl, h.bindings, h.faults⟩

theorem IgnoresFaults.scopedRelation {registry : Registry} (h : registry.IgnoresFaults)
    (before : List RuleFault) (own : RuleFault) :
    ScopedRelation registry fun _ => Beside before own where
  message _ _ _ h := h.message
  bindings _ _ _ h _ _ := by rw [h.bindings]
  call name f hf args _ := h name f hf args before own
  define _ _ _ h name type value := by
    refine ⟨h.message, ?_, h.faults⟩
    rw [Context.define, Context.define, h.bindings]
  weaken _ _ _ _ _ h := h

end Registry

/-- What a run can take for granted of a rule: judging it has no effect, and nothing that it does
depends on the faults so far. -/
structure Rule.Isolated (r : Rule) : Prop where
  inert : Inert r.condition.evalCondition
  uniform : ∀ before own, r.Uniform (Beside before own)

theorem Rule.isolated_of_clean {registry : Registry} (hpurity : registry.KeepsPurity)
    (hfaults : registry.IgnoresFaults) {callable : String → Prop} {r : Rule}
    (h : r.Clean callable registry) : r.Isolated where
  inert := (h.condition.accepted.moves_condition hpurity rfl).inert
  uniform before own := (hfaults.scopedRelation before own).uniform_rule h

theorem Rule.isolated_alwaysFalse (name : String) : (alwaysFalse name).Isolated where
  inert _ := ⟨rfl, rfl⟩
  uniform _ _ := ⟨uniform_lift (.ok false), uniform_modular.pure ()⟩

theorem Deployment.isolated_of_build {ruleSources pipelineSources : List SourceUnit}
    {registry : Registry} {d : Deployment} (h : build ruleSources pipelineSources registry = .ok d)
    (hpurity : registry.KeepsPurity) (hfaults : registry.IgnoresFaults) :
    ∀ r ∈ d.stageRules, r.Isolated := by
  intro r hr
  obtain ⟨source, hclean, hdeclared⟩ | ⟨name, rfl⟩ := rules_of_build h r hr
  · have hrule : r.Clean (fun _ => True) registry :=
      clean_of_source (fun _ _ _ => trivial) hclean hdeclared
    exact Rule.isolated_of_clean hpurity hfaults hrule
  · exact Rule.isolated_alwaysFalse name

namespace Run

section Appended

variable (errorField : Option String) (pipeline : String)

/-- The stages all let the run go on. -/
def GetsThrough : List Stage → RuleCache → Context → Prop
  | [], _, _ => True
  | stage :: rest, cache, c =>
    let done := runStage errorField pipeline stage cache c
    (done.proceeds && !done.context.message.dropped) = true ∧
      GetsThrough rest done.cache done.context

theorem runStages_append {stages : List Stage} (others : List Stage) {cache : RuleCache}
    {c : Context} (h : GetsThrough errorField pipeline stages cache c) :
    let first := runStages errorField pipeline stages cache c
    let second := runStages errorField pipeline others first.2.1 first.2.2
    runStages errorField pipeline (stages ++ others) cache c =
      (first.1 ++ second.1, second.2) := by
  intro first second
  induction stages generalizing cache c with
  | nil => rfl
  | cons stage rest ih =>
    obtain ⟨hgoes, hrest⟩ := h
    simp only [first, second, List.cons_append, runStages, hgoes, if_true, ih hrest,
      List.append_assoc]

end Appended

section Judged

variable {errorField : Option String} {pipeline : String} {I : RuleCache → Prop}

theorem judge_matched (stage : Int) {rules : List Rule} (hrules : ∀ r ∈ rules, Serves I r)
    {cache : RuleCache} (hcache : I cache) (c : Context) :
    ∀ m ∈ (judge errorField pipeline stage rules cache c).matched,
      m.rule ∈ rules ∧ m.body.Runs m.rule := by
  induction rules generalizing cache c with
  | nil => exact fun _ h => nomatch h
  | cons rule rest ih =>
    obtain ⟨hserves, hothers⟩ := List.forall_mem_cons.mp hrules
    obtain ⟨hruns, hkept⟩ := hserves cache hcache
    have hrest (d : Context) (m : Matched)
        (hm : m ∈ (judge errorField pipeline stage rest (bodyOf cache rule).2 d).matched) :
        m.rule ∈ rule :: rest ∧ m.body.Runs m.rule :=
      (ih hothers hkept d m hm).imp_left (List.mem_cons_of_mem rule)
    simp only [judge]
    split
    · exact List.forall_mem_cons.mpr ⟨⟨List.mem_cons_self, hruns⟩, hrest _⟩
    · exact hrest _
    · exact hrest _

theorem Matched.coupled_self {S : Context → Context → Prop} {m : Matched}
    (hruns : m.body.Runs m.rule) (hrule : m.rule.Uniform S) : m.Coupled S m :=
  ⟨rfl, hruns.coupled_execute hruns hrule⟩

end Judged

end Run

/-- A place for a rule in a stage, among the rules, stages and pipelines around it. -/
structure Spot where
  before : List Pipeline
  /-- The pipeline but for its stages. -/
  pipeline : Pipeline
  earlier : List Stage
  /-- The stage but for its rules. -/
  stage : Stage
  above : List Rule
  below : List Rule
  later : List Stage
  after : List Pipeline

namespace Spot

open Run

/-- The stage with a rule in the place. -/
def stageWith (spot : Spot) (r : Rule) : Stage :=
  { spot.stage with rules := spot.above ++ r :: spot.below }

def pipelineWith (spot : Spot) (r : Rule) : Pipeline :=
  { spot.pipeline with stages := spot.earlier ++ spot.stageWith r :: spot.later }

def pipelines (spot : Spot) (r : Rule) : List Pipeline :=
  spot.before ++ spot.pipelineWith r :: spot.after

/-- The rules around the place. -/
inductive Around (spot : Spot) : Rule → Prop
  | pipeline {p : Pipeline} {s : Stage} {x : Rule} (hp : p ∈ spot.before ++ spot.after)
      (hs : s ∈ p.stages) (hx : x ∈ s.rules) : Around spot x
  | stage {s : Stage} {x : Rule} (hs : s ∈ spot.earlier ++ spot.later) (hx : x ∈ s.rules) :
      Around spot x
  | rule {x : Rule} (hx : x ∈ spot.above ++ spot.below) : Around spot x

section Arrival

variable (spot : Spot) (cache : RuleCache) (m : Message)

/-- The run of the pipelines before the one of the place. -/
def arrived : PipelinesRun := runPipelines none spot.before cache m

/-- The run of the stages before the one of the place. -/
def entered : List Event × RuleCache × Context :=
  runStages none spot.pipeline.name spot.earlier (spot.arrived cache m).cache
    (.start (spot.arrived cache m).message)

/-- The judgement of the rules before the place. -/
def judged : Judged :=
  judge none spot.pipeline.name spot.stage.number spot.above (spot.entered cache m).2.1
    (spot.entered cache m).2.2

/-- A run comes to the stage of the place, and so to every rule of it. -/
structure Visited : Prop where
  kept : (spot.arrived cache m).message.dropped = false
  through : GetsThrough none spot.pipeline.name spot.earlier (spot.arrived cache m).cache
    (.start (spot.arrived cache m).message)

/-- The state in which the rule in the place is judged. -/
def state : Context := (spot.judged cache m).context

/-- All events before the rule in the place is judged. -/
def events : List Event :=
  (spot.arrived cache m).events ++ ((spot.entered cache m).1 ++
    .enterStage spot.pipeline.name spot.stage.number spot.stage.policy ::
      (spot.judged cache m).events)

/-- All faults before the rule in the place is judged. -/
def faults : List RuleFault := (spot.arrived cache m).faults ++ (spot.state cache m).faults

/-- The stages of the pipeline of the place, run with a rule in it. -/
def staged (r : Rule) : List Event × RuleCache × Context :=
  runStages none spot.pipeline.name (spot.pipelineWith r).stages (spot.arrived cache m).cache
    (.start (spot.arrived cache m).message)

end Arrival

/-- The fault of a rule whose condition fails in the place. -/
def fault (spot : Spot) (r : Rule) (error : EvalError) : RuleFault :=
  ⟨spot.pipeline.name, spot.stage.number, r.name, .condition, error⟩

/-- A rule whose condition fails in a state, and one of its name whose condition is false there. -/
structure Replaces (r r' : Rule) (c : Context) (error : EvalError) : Prop where
  fails : (r.condition.evalCondition.runOn c).1 = .error error
  name : r'.name = r.name
  isFalse : r'.condition.evalCondition.runOn c = (.ok false, c)

/-- A run that comes to the place, in its parts. -/
theorem runPipelines_eq {spot : Spot} {cache : RuleCache} {m : Message}
    (hvisited : spot.Visited cache m) (r : Rule) :
    let arrived := spot.arrived cache m
    let staged := spot.staged cache m r
    let others := runPipelines none spot.after staged.2.1 staged.2.2.message
    runPipelines none (spot.pipelines r) cache m =
      ⟨arrived.faults ++ (staged.2.2.faults ++ others.faults),
        arrived.names ++ spot.pipeline.name :: others.names,
        arrived.events ++ (staged.1 ++ others.events), others.cache, others.message⟩ := by
  intro arrived staged others
  have hkept : (runPipelines none spot.before cache m).message.dropped = false := hvisited.kept
  simp only [pipelines, runPipelines_append, runPipelines, hkept, Bool.false_eq_true, if_false]
  rfl

section Isolation

variable {I : RuleCache → Prop} {spot : Spot} {cache : RuleCache} {m : Message} {r r' : Rule}
  {error : EvalError}

/-- The two rules, judged in front of the same others. -/
theorem judge_isolates (hinert : Inert r.condition.evalCondition) (hserves : Serves I r)
    (hserves' : Serves I r') (hbelow : ∀ x ∈ spot.below, x.Isolated ∧ Serves I x)
    (hcache : I cache) {c : Context} (hreplaces : Replaces r r' c error) :
    let a := judge none spot.pipeline.name spot.stage.number (r :: spot.below) cache c
    let b := judge none spot.pipeline.name spot.stage.number (r' :: spot.below) cache c
    List.Forall₂ (Matched.Coupled (Beside c.faults (spot.fault r error))) a.matched b.matched ∧
      AlikeAround [.evaluateRule spot.pipeline.name r.name]
        [.failEvaluateRule spot.pipeline.name r.name error]
        [.dissatisfyRule spot.pipeline.name r.name] a.events b.events ∧
      Beside c.faults (spot.fault r error) a.context b.context ∧ I a.cache ∧ I b.cache := by
  intro a b
  obtain ⟨hruns, hkept⟩ := hserves cache hcache
  obtain ⟨hruns', hkept'⟩ := hserves' cache hcache
  have hfails : (bodyOf cache r).1.condition.runOn c = (.error error, c) := by
    rw [(hruns c).1]
    exact Prod.ext hreplaces.fails (hinert c).1
  have hfalse : (bodyOf cache r').1.condition.runOn c = (.ok false, c) := by
    rw [(hruns' c).1, hreplaces.isFalse]
  have hothers := judge_coupled (coupling_beside c.faults (spot.fault r error))
    spot.pipeline.name spot.stage.number
    (fun x hx => ⟨(hbelow x hx).1.uniform c.faults (spot.fault r error), (hbelow x hx).2⟩)
    hkept hkept' (beside_recordFault (spot.fault r error) c)
  simp only [a, b, judge, hfails, hfalse, hreplaces.name]
  exact ⟨hothers.matched, ⟨_, rfl, by simpa [Judged.prepend, fault] using hothers.events.symm⟩,
    hothers.context, hothers.leftCache, hothers.rightCache⟩

variable (hinert : Inert r.condition.evalCondition) (hserves : Serves I r)
  (hserves' : Serves I r') (hrules : ∀ x, spot.Around x → x.Isolated ∧ Serves I x)
  (hcache : I cache)

include hinert hserves hserves' hrules hcache

/-- The stage with one of the rules and with the other: the policy decides alike. -/
theorem runStage_isolates (hreplaces : Replaces r r' (spot.state cache m) error) :
    let a := runStage none spot.pipeline.name (spot.stageWith r) (spot.entered cache m).2.1
      (spot.entered cache m).2.2
    let b := runStage none spot.pipeline.name (spot.stageWith r') (spot.entered cache m).2.1
      (spot.entered cache m).2.2
    a.proceeds = b.proceeds ∧
      AlikeAround (.enterStage spot.pipeline.name spot.stage.number spot.stage.policy ::
          (spot.judged cache m).events ++ [.evaluateRule spot.pipeline.name r.name])
        [.failEvaluateRule spot.pipeline.name r.name error]
        [.dissatisfyRule spot.pipeline.name r.name] a.events b.events ∧
      Beside (spot.state cache m).faults (spot.fault r error) a.context b.context ∧
      I a.cache ∧ I b.cache := by
  intro a b
  have harrived : I (spot.arrived cache m).cache :=
    (runPipelines_agrees none
      (fun p hp s hs x hx => (hrules x (.pipeline (List.mem_append_left _ hp) hs hx)).2)
      hcache hcache m).leftCache
  have hentered : I (spot.entered cache m).2.1 :=
    (runStages_coupled (coupling_eq none) spot.pipeline.name
      (fun s hs x hx => ⟨x.uniform_eq, (hrules x (.stage (List.mem_append_left _ hs) hx)).2⟩)
      harrived harrived (rfl : Context.start _ = _)).leftCache
  have habove (x : Rule) (hx : x ∈ spot.above) := hrules x (.rule (List.mem_append_left _ hx))
  have hjudged : I (spot.judged cache m).cache :=
    (judge_coupled (coupling_eq none) spot.pipeline.name spot.stage.number
      (fun x hx => ⟨x.uniform_eq, (habove x hx).2⟩) hentered hentered
      (rfl : (spot.entered cache m).2.2 = _)).leftCache
  obtain ⟨hmatched, hevents, hcontext, hleft, hright⟩ := judge_isolates hinert hserves hserves'
    (fun x hx => hrules x (.rule (List.mem_append_right _ hx))) hjudged hreplaces
  have hfirst : List.Forall₂
      (Matched.Coupled (Beside (spot.state cache m).faults (spot.fault r error)))
      (spot.judged cache m).matched (spot.judged cache m).matched := by
    refine List.forall₂_same.mpr fun x hx => ?_
    obtain ⟨hrule, hruns⟩ := judge_matched spot.stage.number (fun x hx => (habove x hx).2)
      hentered (spot.entered cache m).2.2 x hx
    exact Matched.coupled_self hruns ((habove _ hrule).1.uniform _ _)
  have hlength : (spot.stageWith r).rules.length = (spot.stageWith r').rules.length := by
    simp [stageWith]
  obtain ⟨hproceeds, hclosed, hend⟩ :=
    closing_coupled (coupling_beside (spot.state cache m).faults (spot.fault r error))
      spot.pipeline.name (s := spot.stageWith r) (t := spot.stageWith r') rfl rfl hlength
      (List.rel_append hfirst hmatched) hcontext
  simp only [a, b, runStage_eq, stageWith, judge_append]
  exact ⟨hproceeds, (hevents.prepend (.enterStage spot.pipeline.name spot.stage.number
    spot.stage.policy :: (spot.judged cache m).events)).append hclosed, hend, hleft, hright⟩

/-- The stages of the pipeline with one of the rules and with the other. -/
theorem staged_isolates (hvisited : spot.Visited cache m)
    (hreplaces : Replaces r r' (spot.state cache m) error) :
    let a := spot.staged cache m r
    let b := spot.staged cache m r'
    AlikeAround ((spot.entered cache m).1 ++
          (.enterStage spot.pipeline.name spot.stage.number spot.stage.policy ::
            (spot.judged cache m).events ++ [.evaluateRule spot.pipeline.name r.name]))
        [.failEvaluateRule spot.pipeline.name r.name error]
        [.dissatisfyRule spot.pipeline.name r.name] a.1 b.1 ∧
      Beside (spot.state cache m).faults (spot.fault r error) a.2.2 b.2.2 ∧ I a.2.1 ∧ I b.2.1 := by
  intro a b
  obtain ⟨hproceeds, hevents, hcontext, hleft, hright⟩ :=
    runStage_isolates hinert hserves hserves' hrules hcache hreplaces
  simp only [a, b, staged, pipelineWith, runStages_append _ _ _ hvisited.through, runStages]
  rw [← entered, ← hproceeds, ← hcontext.message]
  split
  · have hlater (x : Stage) (hx : x ∈ spot.later) (y : Rule) (hy : y ∈ x.rules) :=
      hrules y (.stage (List.mem_append_right _ hx) hy)
    have hrest := runStages_coupled
      (coupling_beside (spot.state cache m).faults (spot.fault r error)) spot.pipeline.name
      (fun x hx y hy => ⟨(hlater x hx y hy).1.uniform _ _, (hlater x hx y hy).2⟩) hleft hright
      hcontext
    exact ⟨(hevents.append hrest.events).prepend (spot.entered cache m).1, hrest.context,
      hrest.leftCache, hrest.rightCache⟩
  · exact ⟨hevents.prepend (spot.entered cache m).1, hcontext, hleft, hright⟩

/-- All that a run shows, with one of the rules in the place and with the other. -/
theorem isolates (hvisited : spot.Visited cache m)
    (hreplaces : Replaces r r' (spot.state cache m) error) :
    let a := runPipelines none (spot.pipelines r) cache m
    let b := runPipelines none (spot.pipelines r') cache m
    AlikeAround (spot.events cache m ++ [.evaluateRule spot.pipeline.name r.name])
        [.failEvaluateRule spot.pipeline.name r.name error]
        [.dissatisfyRule spot.pipeline.name r.name] a.events b.events ∧
      AlikeAround (spot.faults cache m) [spot.fault r error] [] a.faults b.faults ∧
      a.names = b.names ∧ a.message = b.message := by
  intro a b
  obtain ⟨hevents, hcontext, hleft, hright⟩ :=
    staged_isolates hinert hserves hserves' hrules hcache hvisited hreplaces
  have hafter (p : Pipeline) (hp : p ∈ spot.after) (s : Stage) (hs : s ∈ p.stages) (x : Rule)
      (hx : x ∈ s.rules) := (hrules x (.pipeline (List.mem_append_right _ hp) hs hx)).2
  have hrest := runPipelines_agrees none hafter hleft hright
    (spot.staged cache m r).2.2.message
  simp only [a, b, runPipelines_eq hvisited, ← hcontext.message]
  refine ⟨?events, (hcontext.faults.append hrest.faults).prepend (spot.arrived cache m).faults,
    by rw [hrest.names], hrest.message⟩
  have htold := (hevents.append hrest.events).prepend (spot.arrived cache m).events
  simpa [events] using htold

end Isolation

/-- Whatever is around the place is run, and so is the rule in it. -/
theorem mem_pipelines (spot : Spot) (r : Rule) {x : Rule} (h : x = r ∨ spot.Around x) :
    ∃ p ∈ spot.pipelines r, ∃ s ∈ p.stages, x ∈ s.rules := by
  have hpipeline : spot.pipelineWith r ∈ spot.pipelines r := by simp [pipelines]
  have hstage : spot.stageWith r ∈ (spot.pipelineWith r).stages := by simp [pipelineWith]
  cases h with
  | inl h => exact ⟨_, hpipeline, _, hstage, by simp [h, stageWith]⟩
  | inr h =>
    cases h with
    | @pipeline p s x hp hs hx =>
      have hmem : p ∈ spot.pipelines r := by
        cases List.mem_append.mp hp with
        | inl h => exact List.mem_append_left _ h
        | inr h => exact List.mem_append_right _ (List.mem_cons_of_mem _ h)
      exact ⟨p, hmem, s, hs, hx⟩
    | @stage s x hs hx =>
      have hmem : s ∈ (spot.pipelineWith r).stages := by
        cases List.mem_append.mp hs with
        | inl h => exact List.mem_append_left _ h
        | inr h => exact List.mem_append_right _ (List.mem_cons_of_mem _ h)
      exact ⟨_, hpipeline, s, hmem, hx⟩
    | rule hx =>
      refine ⟨_, hpipeline, _, hstage, ?_⟩
      cases List.mem_append.mp hx with
      | inl h => exact List.mem_append_left _ h
      | inr h => exact List.mem_append_right _ (List.mem_cons_of_mem _ h)

end Spot

namespace Deployment

variable {d : Deployment}

/-- The first pipeline, its first stage, and the first rule of that. -/
def frontPipeline (d : Deployment) : Pipeline := d.pipelines.values.headD default

def frontStage (d : Deployment) : Stage := d.frontPipeline.stages.headD default

def frontRule (d : Deployment) : Rule := d.frontStage.rules.headD default

/-- The place of the first rule, in a run of the first pipeline alone. -/
def frontSpot (d : Deployment) : Spot where
  before := []
  pipeline := d.frontPipeline
  earlier := []
  stage := d.frontStage
  above := []
  below := d.frontStage.rules.tail
  later := d.frontPipeline.stages.tail
  after := []

theorem frontSpot_visited (cache : RuleCache) {m : Message} (h : m.dropped = false) :
    d.frontSpot.Visited cache m := ⟨h, trivial⟩

theorem state_frontSpot (cache : RuleCache) (m : Message) :
    d.frontSpot.state cache m = .start m := rfl

theorem faults_frontSpot (cache : RuleCache) (m : Message) :
    d.frontSpot.faults cache m = [] := rfl

/-- The first pipeline has this name, and a rule in its first stage. -/
def HasFront (d : Deployment) (name : String) : Prop :=
  d.pipelines.keys.head? = some name ∧ d.frontPipeline.stages.isEmpty = false ∧
    d.frontStage.rules.isEmpty = false

instance (d : Deployment) (name : String) : Decidable (d.HasFront name) :=
  inferInstanceAs (Decidable (_ ∧ _ ∧ _))

theorem filterMap_pipeline? {name : String} (h : d.HasFront name) :
    [name].filterMap d.pipeline? = d.frontSpot.pipelines d.frontRule := by
  obtain ⟨hname, hstages, hrules⟩ := h
  obtain ⟨declared, _ | ⟨⟨key, ⟨title, stages, p⟩⟩, rest⟩⟩ := d
  · cases hname
  · cases hname
    have hfind : pipeline? ⟨declared, (key, ⟨title, stages, p⟩) :: rest⟩ key =
        some ⟨title, stages, p⟩ := if_pos rfl
    rw [List.filterMap_cons_some hfind, List.filterMap_nil]
    obtain _ | ⟨⟨number, policy, refs, rules, q⟩, later⟩ := stages
    · cases hstages
    · cases rules with
      | nil => cases hrules
      | cons r below => rfl

end Deployment

namespace Engine

open Run RuleCache

/-- What a run through pipelines shows. -/
def shown (engine : Engine) (message : Message) (streams : List String)
    (pipelines : List Pipeline) : Processed :=
  let run := runPipelines engine.config.errorField pipelines engine.cache message
  ⟨⟨run.faults, run.message.dropped, run.names⟩,
    .startProcessing message.id :: .processStreams message.id streams (pipelines.map (·.name)) ::
      run.events ++ [.finishProcessing message.id run.message.dropped], run.message⟩

theorem process_eq (engine : Engine) (message : Message) (streams names : List String) :
    (engine.process message streams names).1 =
      engine.shown message streams (names.filterMap engine.deployment.pipeline?) := rfl

theorem serves_disabled (r : Rule) : Serves (fun cache => cache.enabled = false) r := by
  intro cache hcache
  rw [bodyOf_disabled hcache]
  exact ⟨RuleBody.runs_interpreted r, hcache⟩

/-- A cache that keeps nothing and one that is faithful both have what serves every rule. -/
theorem exists_serving {config : Config} (ops : List Operation) {r : Rule}
    (hkeys : config.compileRules = false ∨ KeysSound (r :: ops.flatMap Operation.rules)) :
    ∃ I : RuleCache → Prop, I ((new config).after ops).cache ∧
      (∀ x ∈ ((new config).after ops).deployment.stageRules, Serves I x) ∧ Serves I r := by
  obtain hdisabled | hsound := hkeys
  · refine ⟨fun cache => cache.enabled = false, ?_, fun x _ => serves_disabled x,
      serves_disabled r⟩
    rw [cache_after_disabled hdisabled ops]
    exact hdisabled
  · have hknows : ((new config).after ops).Knows (r :: ops.flatMap Operation.rules) :=
      (knows_new _ config).after ops fun _ h => List.mem_cons_of_mem _ h
    exact ⟨Faithful _, hknows.cache, fun x hx => bodyOf_runs hsound (hknows.installed x hx),
      bodyOf_runs hsound List.mem_cons_self⟩

/-- A condition that fails counts as false, and nothing else comes of it. Where the texts of faults
are not collected in a field, take a rule that is judged in a run and fails, in any stage that the
run comes to, and put a rule of the same name in its place whose condition is false there: the run
shows the same, but for the event and the fault of this one judgement. So every policy decides
alike, the same rules are executed in the same order, here and in all that follows, and the message
ends the same. Functions marked pure have to leave the state of a run alone, no function may look at
the faults so far, and where rules are compiled a key has to stand for one behaviour. -/
theorem failed_condition_as_false {config : Config} (hsilent : config.errorField = none)
    (ops : List Operation) {ruleSources pipelineSources : List SourceUnit} {registry : Registry}
    (hbuild : Deployment.build ruleSources pipelineSources registry =
      .ok ((new config).after ops).deployment)
    (hpurity : registry.KeepsPurity) (hfaults : registry.IgnoresFaults) {r r' : Rule}
    (hkeys : config.compileRules = false ∨ KeysSound (r' :: ops.flatMap Operation.rules))
    (message : Message) (streams names : List String) {spot : Spot}
    (hspot : names.filterMap ((new config).after ops).deployment.pipeline? = spot.pipelines r)
    (hvisited : spot.Visited ((new config).after ops).cache message) {error : EvalError}
    (hreplaces : Spot.Replaces r r' (spot.state ((new config).after ops).cache message) error) :
    let engine := (new config).after ops
    let failing := (engine.process message streams names).1
    let other := engine.shown message streams (spot.pipelines r')
    AlikeAround
        (.startProcessing message.id ::
          .processStreams message.id streams ((spot.pipelines r).map (·.name)) ::
            (spot.events engine.cache message ++ [.evaluateRule spot.pipeline.name r.name]))
        [.failEvaluateRule spot.pipeline.name r.name error]
        [.dissatisfyRule spot.pipeline.name r.name] failing.events other.events ∧
      AlikeAround (spot.faults engine.cache message) [spot.fault r error] []
        failing.report.faults other.report.faults ∧
      failing.report.pipelinesRun = other.report.pipelinesRun ∧
      failing.report.dropped = other.report.dropped ∧ failing.message = other.message := by
  intro engine failing other
  have hisolated : ∀ x ∈ engine.deployment.stageRules, x.Isolated :=
    Deployment.isolated_of_build hbuild hpurity hfaults
  have hinstalled (x : Rule) (hx : x = r ∨ spot.Around x) : x ∈ engine.deployment.stageRules := by
    obtain ⟨p, hp, s, hs, hx⟩ := spot.mem_pipelines r hx
    rw [← hspot] at hp
    obtain ⟨name, -, hname⟩ := List.mem_filterMap.mp hp
    exact Deployment.stageRules_of_pipeline hname hs hx
  obtain ⟨I, hcache, hserves, hserves'⟩ := exists_serving ops hkeys
  obtain ⟨hevents, hrecorded, hnames, hmessage⟩ := Spot.isolates
    (hisolated r (hinstalled r (.inl rfl))).inert (hserves r (hinstalled r (.inl rfl))) hserves'
    (fun x hx => ⟨hisolated x (hinstalled x (.inr hx)), hserves x (hinstalled x (.inr hx))⟩)
    hcache hvisited hreplaces
  have hfield : engine.config.errorField = none := by
    rw [config_after]
    exact hsilent
  have hsame : (spot.pipelines r').map (·.name) = (spot.pipelines r).map (·.name) := by
    simp [Spot.pipelines, Spot.pipelineWith]
  have hselected : names.filterMap engine.deployment.pipeline? = spot.pipelines r := hspot
  simp only [failing, other, process_eq, hselected, shown, hfield, hsame]
  refine ⟨?_, hrecorded, hnames, by rw [hmessage], hmessage⟩
  rw [← hmessage]
  exact (hevents.prepend [.startProcessing message.id,
    .processStreams message.id streams ((spot.pipelines r).map (·.name))]).append rfl

theorem alarmDeployment_front : alarmDeployment.HasFront "p" ∧
    (alarmDeployment.frontRule.condition.evalCondition.runOn
      (.start (.empty .nil .epoch))).1 = .error .divisionByZero ∧
    "guard" = alarmDeployment.frontRule.name ∧
    (((new silentConfig).after [.install alarmDeployment]).process (.empty .nil .epoch) []
      ["p"]).1.report.faults = [⟨"p", 0, "guard", .condition, .divisionByZero⟩] := by
  decide +kernel

theorem failed_condition_as_false_alarmDeployment :
    let engine := (new silentConfig).after [.install alarmDeployment]
    let message := Message.empty .nil .epoch
    let failing := (engine.process message [] ["p"]).1
    let other := engine.shown message []
      (alarmDeployment.frontSpot.pipelines (.alwaysFalse "guard"))
    failing.report.faults = [⟨"p", 0, "guard", .condition, .divisionByZero⟩] ∧
      other.report.faults = [] ∧ failing.message = other.message := by
  intro engine message failing other
  obtain ⟨hfront, hfails, hname, hfaults⟩ := alarmDeployment_front
  have hinstalled : engine.deployment = alarmDeployment := deployment_install _ _
  have hbuild : Deployment.build alarmSources [] (.builtin 0) = .ok alarmDeployment :=
    Deployment.eq_ok_of_isSome alarmSources_isSome
  have hselected : ["p"].filterMap engine.deployment.pipeline? =
      alarmDeployment.frontSpot.pipelines alarmDeployment.frontRule := by
    rw [hinstalled]
    exact Deployment.filterMap_pipeline? hfront
  have hreplaces : Spot.Replaces alarmDeployment.frontRule (.alwaysFalse "guard")
      (alarmDeployment.frontSpot.state engine.cache message) .divisionByZero := by
    rw [Deployment.state_frontSpot]
    exact ⟨hfails, hname, rfl⟩
  have hkeys : KeysSound (.alwaysFalse "guard" :: [Operation.install alarmDeployment].flatMap
      Operation.rules) := by
    rw [List.flatMap_singleton]
    exact keysSound_of_builtin (List.forall_mem_cons.mpr ⟨Rule.accepted_alwaysFalse _ _,
      Deployment.accepted_of_build hbuild⟩) (by decide +kernel)
  rw [← hinstalled] at hbuild
  obtain ⟨-, ⟨after, hown, hnone⟩, -, -, hmessage⟩ := failed_condition_as_false
    (show silentConfig.errorField = none from rfl) [.install alarmDeployment] hbuild
    (Registry.keepsPurity_builtin 0) (Registry.ignoresFaults_builtin 0) (.inr hkeys) message []
    ["p"] hselected (Deployment.frontSpot_visited _ rfl) hreplaces
  rw [Deployment.faults_frontSpot, List.nil_append] at hown hnone
  have hlength := congrArg List.length (hown.symm.trans hfaults)
  have hafter : after = [] := by simpa using hlength
  exact ⟨hfaults, by rw [hnone, hafter, List.nil_append], hmessage⟩

end Engine

def countingSources : List SourceUnit :=
  [⟨"rules", "rule \"guard\" when 1 / 0 > 0 then end
      rule \"watch\" when fault_count() > 0 then set_field(\"seen\", true); end"⟩,
    ⟨"pipelines", "pipeline \"p\" stage 0 match pass rule \"guard\"; rule \"watch\"; end"⟩]

/-- A function without effects that asks for the faults so far. -/
def countingFunction : Function where
  id := ⟨0, "fault_count"⟩
  descriptor := .simple "fault_count" .long []
  run := fun _ => return .long (Int64.ofNat (← get).faults.length)

def countingRegistry : Registry := (Registry.builtin 0).add countingFunction

theorem keepsPurity_countingRegistry : countingRegistry.KeepsPurity := by
  intro name f hf hpure
  obtain rfl | hbuiltin := Registry.eq_or_of_find?_add hf
  · exact fun args c => rfl
  · exact Registry.keepsPurity_builtin 0 name f hbuiltin hpure

theorem countingSources_isSome :
    (Deployment.build countingSources [] countingRegistry).toOption.isSome = true := by
  decide +kernel

/-- A rule whose condition fails, and one that sets a field if a fault was recorded before. -/
def countingDeployment : Deployment :=
  (Deployment.build countingSources [] countingRegistry).toOption.get countingSources_isSome

namespace Engine

theorem countingDeployment_front :
    let engine := (new { Config.interpretedOnly with errorField := none }).after
      [.install countingDeployment]
    let message := Message.empty .nil .epoch
    let other := engine.shown message [] (countingDeployment.frontSpot.pipelines
      (.alwaysFalse "guard"))
    countingDeployment.HasFront "p" ∧
      (countingDeployment.frontRule.condition.evalCondition.runOn (.start message)).1 =
        .error .divisionByZero ∧
      "guard" = countingDeployment.frontRule.name ∧
      ((engine.process message [] ["p"]).1.message.field "seen").plain = "true" ∧
      other.message.hasField "seen" = false := by
  decide +kernel

/-- Functions that count the faults so far tell a condition that fails from a false one. -/
theorem failed_condition_counted :
    let config : Config := { Config.interpretedOnly with errorField := none }
    let engine := (new config).after [.install countingDeployment]
    let message := Message.empty .nil .epoch
    let spot := countingDeployment.frontSpot
    let failing := engine.process message [] ["p"]
    let other := engine.shown message [] (spot.pipelines (.alwaysFalse "guard"))
    countingRegistry.KeepsPurity ∧
      Deployment.build countingSources [] countingRegistry = .ok countingDeployment ∧
      ["p"].filterMap countingDeployment.pipeline? =
        spot.pipelines countingDeployment.frontRule ∧
      spot.Visited engine.cache message ∧
      Spot.Replaces countingDeployment.frontRule (.alwaysFalse "guard")
        (spot.state engine.cache message) .divisionByZero ∧
      (failing.1.message.field "seen").plain = "true" ∧
      other.message.hasField "seen" = false := by
  intro config engine message spot failing other
  obtain ⟨hfront, hfails, hname, hseen, hunseen⟩ := countingDeployment_front
  have hbuild : Deployment.build countingSources [] countingRegistry = .ok countingDeployment :=
    Deployment.eq_ok_of_isSome countingSources_isSome
  have hselected : ["p"].filterMap countingDeployment.pipeline? =
      spot.pipelines countingDeployment.frontRule :=
    Deployment.filterMap_pipeline? hfront
  have hreplaces : Spot.Replaces countingDeployment.frontRule (.alwaysFalse "guard")
      (spot.state engine.cache message) .divisionByZero := by
    rw [Deployment.state_frontSpot]
    exact ⟨hfails, hname, rfl⟩
  exact ⟨keepsPurity_countingRegistry, hbuild, hselected, Deployment.frontSpot_visited _ rfl,
    hreplaces, hseen, hunseen⟩

end Engine

end LogRules
