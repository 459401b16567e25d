import LogRules.Proofs.History
import LogRules.Proofs.MadeCalls

/-!
The evaluations that a run is made of, in order: which half of a rule is run, in what form and from
what state. Between them a run does nothing to the state but record faults.
-/
namespace LogRules

open EvalM

/-- One half of a rule, run in some form from a state. -/
structure Evaluation where
  phase : FaultPhase
  body : RuleBody
  context : Context

namespace Evaluation

/-- The state that the evaluation leaves. If it fails, the fault is still to be recorded. -/
def left (e : Evaluation) : Context :=
  match e.phase with
  | .condition => (e.body.condition.runOn e.context).2
  | .execution => (e.body.execute.runOn e.context).2

/-- The evaluation calls a function, in the first of two states, and the call leaves the second. -/
def Calls (e : Evaluation) (x y : Context) : Prop :=
  ∃ r, e.body.FormOf r ∧ r.Calls e.phase e.context x y

theorem moves_left {R : Context → Context → Prop} [IsPreorder Context R] (e : Evaluation)
    (hform : ∃ r, e.body.FormOf r)
    (hdefine : ∀ c name type value, R c (Context.define c name type value))
    (hcalls : ∀ x y, e.Calls x y → R x y) : R e.context e.left := by
  obtain ⟨r, hform⟩ := hform
  obtain ⟨phase, body, c⟩ := e
  cases phase with
  | condition => exact hform.movesAt_condition fun x y h => hcalls x y ⟨r, hform, h⟩
  | execution => exact hform.movesAt_execute hdefine fun x y h => hcalls x y ⟨r, hform, h⟩

end Evaluation

namespace Run

section Listed

variable (errorField : Option String) (pipeline : String)

theorem judge_append (stage : Int) (rules others : List Rule) (cache : RuleCache) (c : Context) :
    let first := judge errorField pipeline stage rules cache c
    judge errorField pipeline stage (rules ++ others) cache c =
      (judge errorField pipeline stage others first.cache first.context).prepend first.matched
        first.events := by
  intro first
  induction rules generalizing cache c with
  | nil => rfl
  | cons rule rest ih =>
    simp only [first, List.cons_append, judge]
    split <;> simp only [ih, Judged.prepend, List.append_assoc]

theorem execute_append (stage : Int) (ms others : List Matched) (c : Context) :
    let first := execute errorField pipeline stage ms c
    let second := execute errorField pipeline stage others first.2
    execute errorField pipeline stage (ms ++ others) c =
      (first.1 ++ second.1, second.2) := by
  intro first second
  induction ms generalizing c with
  | nil => rfl
  | cons m rest ih =>
    simp only [first, second, List.cons_append, execute]
    split <;> simp only [ih, List.cons_append]

/-- The conditions of rules, judged one after the other. -/
def judgments (stage : Int) : List Rule → RuleCache → Context → List Evaluation
  | [], _, _ => []
  | rule :: rest, cache, c =>
    let first := judge errorField pipeline stage [rule] cache c
    ⟨.condition, (bodyOf cache rule).1, c⟩ :: judgments stage rest first.cache first.context

/-- The statements of matched rules, executed one rule after the other. -/
def executions (stage : Int) : List Matched → Context → List Evaluation
  | [], _ => []
  | m :: rest, c =>
    ⟨.execution, m.body, c⟩ ::
      executions stage rest (execute errorField pipeline stage [m] c).2

def stageEvaluations (stage : Stage) (cache : RuleCache) (c : Context) : List Evaluation :=
  let judged := judge errorField pipeline stage.number stage.rules cache c
  judgments errorField pipeline stage.number stage.rules cache c ++
    if stage.policy.satisfied judged.matched.length stage.rules.length then
      executions errorField pipeline stage.number judged.matched judged.context
    else []

def stagesEvaluations : List Stage → RuleCache → Context → List Evaluation
  | [], _, _ => []
  | stage :: rest, cache, c =>
    let done := runStage errorField pipeline stage cache c
    stageEvaluations errorField pipeline stage cache c ++
      if done.proceeds && !done.context.message.dropped then
        stagesEvaluations rest done.cache done.context
      else []

end Listed

/-- All evaluations of a run through pipelines. -/
def evaluations (errorField : Option String) :
    List Pipeline → RuleCache → Message → List Evaluation
  | [], _, _ => []
  | p :: rest, cache, m =>
    if m.dropped then []
    else
      let (_, cache', c) := runStages errorField p.name p.stages cache (.start m)
      stagesEvaluations errorField p.name p.stages cache (.start m) ++
        evaluations errorField rest cache' c.message

section Moved

variable {R : Context → Context → Prop} [IsPreorder Context R] {errorField : Option String}
  {pipeline : String} (hfault : ∀ fault c, R c (recordFault errorField fault c))

include hfault

theorem judge_moves {stage : Int} {rules : List Rule} {cache : RuleCache} {c : Context}
    (h : ∀ e ∈ judgments errorField pipeline stage rules cache c, R e.context e.left) :
    R c (judge errorField pipeline stage rules cache c).context := by
  induction rules generalizing cache c with
  | nil => exact refl_of R c
  | cons rule rest ih =>
    obtain ⟨hfirst, hothers⟩ := List.forall_mem_cons.mp h
    have happend := judge_append errorField pipeline stage [rule] rest cache c
    rw [List.singleton_append] at happend
    rw [happend]
    have hstep : R c (judge errorField pipeline stage [rule] cache c).context := by
      simp only [Evaluation.left] at hfirst
      simp only [judge]
      split
      · next hrun => rwa [hrun] at hfirst
      · next hrun => rwa [hrun] at hfirst
      · next hrun =>
        rw [hrun] at hfirst
        exact trans_of R hfirst (hfault _ _)
    exact trans_of R hstep (ih hothers)

theorem execute_moves {stage : Int} {ms : List Matched} {c : Context}
    (h : ∀ e ∈ executions errorField pipeline stage ms c, R e.context e.left) :
    R c (execute errorField pipeline stage ms c).2 := by
  induction ms generalizing c with
  | nil => exact refl_of R c
  | cons m rest ih =>
    obtain ⟨hfirst, hothers⟩ := List.forall_mem_cons.mp h
    have happend := execute_append errorField pipeline stage [m] rest c
    rw [List.singleton_append] at happend
    rw [happend]
    have hstep : R c (execute errorField pipeline stage [m] c).2 := by
      simp only [Evaluation.left] at hfirst
      simp only [execute]
      split
      · next hrun => rwa [hrun] at hfirst
      · next hrun =>
        rw [hrun] at hfirst
        exact trans_of R hfirst (hfault _ _)
    exact trans_of R hstep (ih hothers)

theorem runStage_moves {stage : Stage} {cache : RuleCache} {c : Context}
    (h : ∀ e ∈ stageEvaluations errorField pipeline stage cache c, R e.context e.left) :
    R c (runStage errorField pipeline stage cache c).context := by
  obtain ⟨hjudged, hexecuted⟩ := List.forall_mem_append.mp h
  have hentry := judge_moves hfault hjudged
  simp only [runStage]
  split
  · next hpolicy =>
    rw [if_pos hpolicy] at hexecuted
    exact trans_of R hentry (execute_moves hfault hexecuted)
  · exact hentry

theorem runStages_moves {stages : List Stage} {cache : RuleCache} {c : Context}
    (h : ∀ e ∈ stagesEvaluations errorField pipeline stages cache c, R e.context e.left) :
    R c (runStages errorField pipeline stages cache c).2.2 := by
  induction stages generalizing cache c with
  | nil => exact refl_of R c
  | cons stage rest ih =>
    obtain ⟨hstage, hothers⟩ := List.forall_mem_append.mp h
    have hentry := runStage_moves hfault hstage
    simp only [runStages]
    split
    · next hgoes =>
      rw [if_pos hgoes] at hothers
      exact trans_of R hentry (ih hothers)
    · exact hentry

/-- What holds of a message and the faults of a run through no pipelines, and goes over to one more
pipeline in front, holds of a run. -/
theorem runPipelines_moves {Q : Message → List RuleFault → Message → Prop}
    (hnil : ∀ m, Q m [] m)
    (hcons : ∀ m c faults m', R (.start m) c → Q c.message faults m' →
      Q m (c.faults ++ faults) m')
    {pipelines : List Pipeline} {cache : RuleCache} {m : Message}
    (h : ∀ e ∈ evaluations errorField pipelines cache m, R e.context e.left) :
    Q m (runPipelines errorField pipelines cache m).faults
      (runPipelines errorField pipelines cache m).message := by
  induction pipelines generalizing cache m with
  | nil => exact hnil m
  | cons p rest ih =>
    simp only [evaluations] at h
    simp only [runPipelines]
    split
    · exact hnil m
    · next hkept =>
      rw [if_neg hkept] at h
      obtain ⟨hstages, hothers⟩ := List.forall_mem_append.mp h
      exact hcons _ _ _ _ (runStages_moves hfault hstages) (ih hothers)

end Moved

section Formed

variable {I : RuleCache → Prop} {T : RuleBody → Prop} {K : Rule → Prop} {cache : RuleCache}
  (errorField : Option String) (pipeline : String)
  (hserve : ∀ cache r, K r → I cache → T (bodyOf cache r).1 ∧ I (bodyOf cache r).2)

include hserve

/-- Whatever is true of the caches and of each form that they give for the rules that are run stays
true. -/
theorem judge_formed (stage : Int) {rules : List Rule} (hrules : ∀ r ∈ rules, K r)
    (hcache : I cache) (c : Context) :
    I (judge errorField pipeline stage rules cache c).cache ∧
      (∀ m ∈ (judge errorField pipeline stage rules cache c).matched, T m.body) ∧
      ∀ e ∈ judgments errorField pipeline stage rules cache c, T e.body := by
  induction rules generalizing cache c with
  | nil => exact ⟨hcache, by simp [judge], by simp [judgments]⟩
  | cons rule rest ih =>
    obtain ⟨hrule, hrest⟩ := List.forall_mem_cons.mp hrules
    obtain ⟨hbody, hkept⟩ := hserve cache rule hrule hcache
    have happend := judge_append errorField pipeline stage [rule] rest cache c
    rw [List.singleton_append] at happend
    rw [happend]
    have hfirst : I (judge errorField pipeline stage [rule] cache c).cache ∧
        ∀ m ∈ (judge errorField pipeline stage [rule] cache c).matched, T m.body := by
      simp only [judge]
      split
      · exact ⟨hkept, by simpa [Judged.prepend] using hbody⟩
      · exact ⟨hkept, by simp [Judged.prepend]⟩
      · exact ⟨hkept, by simp [Judged.prepend]⟩
    obtain ⟨hlast, hmatched, hothers⟩ := ih hrest hfirst.1 _
    exact ⟨hlast, List.forall_mem_append.mpr ⟨hfirst.2, hmatched⟩,
      List.forall_mem_cons.mpr ⟨hbody, hothers⟩⟩

omit hserve in
theorem executions_formed (stage : Int) {ms : List Matched} (hms : ∀ m ∈ ms, T m.body)
    (c : Context) :
    ∀ e ∈ executions errorField pipeline stage ms c, T e.body := by
  induction ms generalizing c with
  | nil => simp [executions]
  | cons m rest ih =>
    obtain ⟨hfirst, hothers⟩ := List.forall_mem_cons.mp hms
    exact List.forall_mem_cons.mpr ⟨hfirst, ih hothers _⟩

theorem runStage_formed {stage : Stage} (hrules : ∀ r ∈ stage.rules, K r) (hcache : I cache)
    (c : Context) :
    I (runStage errorField pipeline stage cache c).cache ∧
      ∀ e ∈ stageEvaluations errorField pipeline stage cache c, T e.body := by
  obtain ⟨hkept, hmatched, hjudged⟩ :=
    judge_formed errorField pipeline hserve stage.number hrules hcache c
  refine ⟨?_, List.forall_mem_append.mpr ⟨hjudged, ?_⟩⟩
  · simp only [runStage]
    split <;> exact hkept
  · split
    · exact executions_formed errorField pipeline stage.number hmatched _
    · simp

theorem runStages_formed {stages : List Stage} (hrules : ∀ s ∈ stages, ∀ r ∈ s.rules, K r)
    (hcache : I cache) (c : Context) :
    I (runStages errorField pipeline stages cache c).2.1 ∧
      ∀ e ∈ stagesEvaluations errorField pipeline stages cache c, T e.body := by
  induction stages generalizing cache c with
  | nil => exact ⟨hcache, by simp [stagesEvaluations]⟩
  | cons stage rest ih =>
    obtain ⟨hfirst, hrest⟩ := List.forall_mem_cons.mp hrules
    obtain ⟨hkept, hstage⟩ := runStage_formed errorField pipeline hserve hfirst hcache c
    obtain ⟨hlast, hothers⟩ :=
      ih hrest hkept (runStage errorField pipeline stage cache c).context
    simp only [runStages, stagesEvaluations]
    split
    · exact ⟨hlast, List.forall_mem_append.mpr ⟨hstage, hothers⟩⟩
    · exact ⟨hkept, by simpa using hstage⟩

omit pipeline in
theorem runPipelines_formed (pipelines : List Pipeline)
    (hrules : ∀ p ∈ pipelines, ∀ s ∈ p.stages, ∀ r ∈ s.rules, K r) (hcache : I cache)
    (m : Message) :
    I (runPipelines errorField pipelines cache m).cache ∧
      ∀ e ∈ evaluations errorField pipelines cache m, T e.body := by
  induction pipelines generalizing cache m with
  | nil => exact ⟨hcache, by simp [evaluations]⟩
  | cons p rest ih =>
    obtain ⟨hfirst, hrest⟩ := List.forall_mem_cons.mp hrules
    obtain ⟨hkept, hstages⟩ :=
      runStages_formed errorField p.name hserve hfirst hcache (.start m)
    obtain ⟨hlast, hothers⟩ := ih hrest hkept
      (runStages errorField p.name p.stages cache (.start m)).2.2.message
    simp only [runPipelines, evaluations]
    split
    · exact ⟨hcache, by simp⟩
    · exact ⟨hlast, List.forall_mem_append.mpr ⟨hstages, hothers⟩⟩

end Formed

end Run

namespace Engine

open Run

theorem config_after (engine : Engine) (ops : List Operation) :
    (engine.after ops).config = engine.config := by
  induction ops generalizing engine with
  | nil => rfl
  | cons op rest ih =>
    rw [after, ih]
    cases op <;> rfl

/-- What is true of a cache whatever it is used for is true of the cache of an engine, whatever the
engine has been through. -/
theorem cache_after {I : RuleCache → Prop} (hretain : ∀ cache keep, I cache → I (cache.retain keep))
    (hwarm : ∀ cache r, I cache → I (cache.warm r).2)
    (hserve : ∀ cache r, I cache → I (bodyOf cache r).2) {engine : Engine} (h : I engine.cache)
    (ops : List Operation) : I (engine.after ops).cache := by
  induction ops generalizing engine with
  | nil => exact h
  | cons op rest ih =>
    refine ih ?_
    cases op with
    | install d => exact hretain _ _ h
    | process message streams names | simulate message streams names =>
      exact (runPipelines_formed (T := fun _ => True) (K := fun _ => True)
        engine.config.errorField (fun cache r _ hcache => ⟨trivial, hserve cache r hcache⟩)
        (names.filterMap engine.deployment.pipeline?) (fun _ _ _ _ _ _ => trivial) h message).1
    | warm r => exact hwarm _ r h

end Engine

end LogRules
