import LogRules.Engine
import LogRules.Proofs.Compilation
import Mathlib.Data.List.Forall2

/-!
Two runs beside one another. Computations that come to the same outcome from related states, and
leave related states, cannot tell such states apart. Where this holds of the rules of a stage, it
holds of the stage: both runs judge and execute the same rules in the same order, whatever form the
caches give them in, and go on or stop together.
-/
namespace LogRules

open EvalM

namespace EvalM

variable {α β : Type} {S : Context → Context → Prop}

/-- From states that `S` relates the computations come to the same outcome, and they leave states
that `S` relates. -/
def Coupled (S : Context → Context → Prop) (x y : EvalM α) : Prop :=
  ∀ c d, S c d → (x.runOn c).1 = (y.runOn d).1 ∧ S (x.runOn c).2 (y.runOn d).2

/-- The computation does not tell states apart that `S` relates. -/
abbrev Uniform (S : Context → Context → Prop) (x : EvalM α) : Prop := Coupled S x x

/-- Two runs of one outcome both succeed or both fail. -/
theorem cases_of_same {p q : Except EvalError α × Context} (h : p.1 = q.1) :
    (∃ a c d, p = (.ok a, c) ∧ q = (.ok a, d)) ∨
      ∃ error c d, p = (.error error, c) ∧ q = (.error error, d) := by
  obtain ⟨outcome, c⟩ := p
  obtain ⟨other, d⟩ := q
  cases h
  cases outcome with
  | ok a => exact .inl ⟨a, c, d, rfl, rfl⟩
  | error error => exact .inr ⟨error, c, d, rfl, rfl⟩

theorem uniform_eq (x : EvalM α) : Uniform Eq x := by
  rintro c _ rfl
  exact ⟨rfl, rfl⟩

theorem uniform_lift (outcome : Except EvalError α) : Uniform S (lift outcome) := by
  intro c d h
  rw [runOn_lift, runOn_lift]
  exact ⟨rfl, h⟩

theorem Coupled.bind {x y : EvalM α} {f g : α → EvalM β} (hx : Coupled S x y)
    (hf : ∀ a, Coupled S (f a) (g a)) : Coupled S (x >>= f) (y >>= g) := by
  intro c d h
  obtain ⟨hsame, hstates⟩ := hx c d h
  rw [runOn_bind, runOn_bind]
  obtain ⟨a, c', d', hc, hd⟩ | ⟨error, c', d', hc, hd⟩ := cases_of_same hsame
  · rw [hc, hd] at hstates ⊢
    exact hf a c' d' hstates
  · rw [hc, hd] at hstates ⊢
    exact ⟨rfl, hstates⟩

theorem uniform_modular : Modular fun x => Uniform S x := ⟨uniform_lift, Coupled.bind⟩

theorem uniform_message (h : ∀ c d, S c d → c.message = d.message) : Uniform S message :=
  fun c d hstates => ⟨congrArg Except.ok (h c d hstates), hstates⟩

theorem uniform_lookup {name : String}
    (h : ∀ c d, S c d → c.bindings.find? name = d.bindings.find? name) :
    Uniform S (lookup name) := by
  intro c d hstates
  have hrun (e : Context) : (EvalM.lookup name).runOn e = (EvalM.lift (e.lookup name)).runOn e :=
    rfl
  rw [hrun, hrun, runOn_lift, runOn_lift, Context.lookup, Context.lookup, h c d hstates]
  exact ⟨rfl, hstates⟩

end EvalM

/-- Two rules that no context tells apart: neither by the condition nor by the statements. -/
def Rule.Alike (r s : Rule) : Prop :=
  ∀ c, r.condition.evalCondition.runOn c = s.condition.evalCondition.runOn c ∧
    (Statement.executeAll r.statements).runOn c = (Statement.executeAll s.statements).runOn c

/-- The rule does not tell states apart that `S` relates. -/
structure Rule.Uniform (S : Context → Context → Prop) (r : Rule) : Prop where
  condition : EvalM.Uniform S r.condition.evalCondition
  statements : EvalM.Uniform S (Statement.executeAll r.statements)

theorem Rule.uniform_eq (r : Rule) : r.Uniform Eq := ⟨EvalM.uniform_eq _, EvalM.uniform_eq _⟩

namespace RuleBody

/-- A form of a rule that runs like its trees. -/
def Runs (body : RuleBody) (r : Rule) : Prop :=
  ∀ c, body.condition.runOn c = r.condition.evalCondition.runOn c ∧
    body.execute.runOn c = (Statement.executeAll r.statements).runOn c

variable {body other : RuleBody} {r s : Rule} {S : Context → Context → Prop}

theorem runs_interpreted (r : Rule) : (interpreted r).Runs r := fun _ => ⟨rfl, rfl⟩

theorem runs_compiled {limit : Nat} {code : CompiledRule} (h : r.compile limit = .ok code) :
    (compiled code).Runs r :=
  fun c => ⟨by rw [condition, Rule.compiled_condition h], by rw [execute, Rule.compiled_execute h]⟩

/-- The forms that a rule can run in: its trees, and whatever compiling them gives. -/
inductive FormOf (r : Rule) : RuleBody → Prop
  | interpreted : FormOf r (.interpreted r)
  | compiled {limit : Nat} {code : CompiledRule} (h : r.compile limit = .ok code) :
    FormOf r (.compiled code)

theorem FormOf.runs (h : body.FormOf r) : body.Runs r := by
  cases h with
  | interpreted => exact runs_interpreted r
  | compiled h => exact runs_compiled h

theorem Runs.trans (h : body.Runs r) (hrs : r.Alike s) : body.Runs s :=
  fun c => ⟨(h c).1.trans (hrs c).1, (h c).2.trans (hrs c).2⟩

theorem Runs.coupled_condition (h : body.Runs r) (h' : other.Runs r) (hr : r.Uniform S) :
    Coupled S body.condition other.condition := by
  intro c d hstates
  rw [(h c).1, (h' d).1]
  exact hr.condition c d hstates

theorem Runs.coupled_execute (h : body.Runs r) (h' : other.Runs r) (hr : r.Uniform S) :
    Coupled S body.execute other.execute := by
  intro c d hstates
  rw [(h c).2, (h' d).2]
  exact hr.statements c d hstates

end RuleBody

namespace Run

/-- Caches with the property `I` give a rule in a form that runs like its trees, and keep the
property. -/
def Serves (I : RuleCache → Prop) (r : Rule) : Prop :=
  ∀ cache, I cache → (bodyOf cache r).1.Runs r ∧ I (bodyOf cache r).2

/-- A relation of states in which two runs can stand to one another. -/
structure Coupling (errorField : Option String) (S : Context → Context → Prop) : Prop where
  message : ∀ c d, S c d → c.message = d.message
  recordFault : ∀ fault c d, S c d →
    S (recordFault errorField fault c) (recordFault errorField fault d)

theorem coupling_eq (errorField : Option String) : Coupling errorField Eq where
  message _ _ h := congrArg Context.message h
  recordFault _ _ _ h := h ▸ rfl

/-- One matched rule in two forms that related states do not tell apart. -/
structure Matched.Coupled (S : Context → Context → Prop) (m n : Matched) : Prop where
  rule : m.rule = n.rule
  execute : EvalM.Coupled S m.body.execute n.body.execute

section Coupled

variable {S : Context → Context → Prop} {I : RuleCache → Prop} {errorField : Option String}
  {rules : List Rule} {a b : RuleCache} {c d : Context}

/-- Two judgements of the same rules. -/
structure Judged.Coupled (S : Context → Context → Prop) (I : RuleCache → Prop) (a b : Judged) :
    Prop where
  matched : List.Forall₂ (Matched.Coupled S) a.matched b.matched
  events : a.events = b.events
  context : S a.context b.context
  leftCache : I a.cache
  rightCache : I b.cache

theorem Judged.Coupled.prepend {a b : Judged} (h : a.Coupled S I b) {ms ns : List Matched}
    (hmatched : List.Forall₂ (Matched.Coupled S) ms ns) (events : List Event) :
    (a.prepend ms events).Coupled S I (b.prepend ns events) where
  matched := List.rel_append hmatched h.matched
  events := congrArg (events ++ ·) h.events
  context := h.context
  leftCache := h.leftCache
  rightCache := h.rightCache

theorem judge_coupled (hS : Coupling errorField S) (pipeline : String) (stage : Int)
    (hrules : ∀ r ∈ rules, r.Uniform S ∧ Serves I r) (ha : I a) (hb : I b) (hstates : S c d) :
    (judge errorField pipeline stage rules a c).Coupled S I
      (judge errorField pipeline stage rules b d) := by
  induction rules generalizing a b c d with
  | nil => exact ⟨.nil, rfl, hstates, ha, hb⟩
  | cons rule rest ih =>
    obtain ⟨⟨huniform, hserves⟩, hothers⟩ := List.forall_mem_cons.mp hrules
    obtain ⟨hruns, ha'⟩ := hserves a ha
    obtain ⟨hruns', hb'⟩ := hserves b hb
    have hnext {c' d' : Context} (h : S c' d') := ih hothers ha' hb' h
    obtain ⟨hsame, hleft⟩ := hruns.coupled_condition hruns' huniform c d hstates
    simp only [judge]
    obtain ⟨flag, c', d', hc, hd⟩ | ⟨error, c', d', hc, hd⟩ := cases_of_same hsame
    · rw [hc, hd] at hleft ⊢
      cases flag with
      | true =>
        have hmatched : Matched.Coupled S ⟨rule, (bodyOf a rule).1⟩ ⟨rule, (bodyOf b rule).1⟩ :=
          ⟨rfl, hruns.coupled_execute hruns' huniform⟩
        exact (hnext hleft).prepend (.cons hmatched .nil) _
      | false => exact (hnext hleft).prepend .nil _
    · rw [hc, hd] at hleft ⊢
      exact (hnext (hS.recordFault _ c' d' hleft)).prepend .nil _

/-- Execution depends on the rules and not on the forms they are given in. -/
theorem execute_coupled (hS : Coupling errorField S) (pipeline : String) (stage : Int)
    {ms ns : List Matched} (hmatched : List.Forall₂ (Matched.Coupled S) ms ns) (hstates : S c d) :
    (execute errorField pipeline stage ms c).1 = (execute errorField pipeline stage ns d).1 ∧
      S (execute errorField pipeline stage ms c).2 (execute errorField pipeline stage ns d).2 := by
  induction hmatched generalizing c d with
  | nil => exact ⟨rfl, hstates⟩
  | cons hfirst hrest ih =>
    obtain ⟨hsame, hleft⟩ := hfirst.execute c d hstates
    simp only [execute, hfirst.rule]
    obtain ⟨_, c', d', hc, hd⟩ | ⟨error, c', d', hc, hd⟩ := cases_of_same hsame
    · rw [hc, hd] at hleft ⊢
      obtain ⟨hevents, hcontext⟩ := ih hleft
      exact ⟨congrArg (_ :: ·) hevents, hcontext⟩
    · rw [hc, hd] at hleft ⊢
      obtain ⟨hevents, hcontext⟩ := ih (hS.recordFault _ c' d' hleft)
      exact ⟨congrArg (_ :: ·) hevents, hcontext⟩

/-- Two runs of a stage. -/
structure StageRun.Coupled (S : Context → Context → Prop) (I : RuleCache → Prop)
    (a b : StageRun) : Prop where
  proceeds : a.proceeds = b.proceeds
  events : a.events = b.events
  context : S a.context b.context
  leftCache : I a.cache
  rightCache : I b.cache

/-- A stage behind the judgement of its rules. -/
structure Closing where
  proceeds : Bool
  events : List Event
  context : Context

/-- What follows on the judgement of a stage: matched rules are executed if the policy lets them. -/
def closing (errorField : Option String) (pipeline : String) (stage : Stage)
    (matched : List Matched) (context : Context) : Closing :=
  if stage.policy.satisfied matched.length stage.rules.length then
    let (events, context) := execute errorField pipeline stage.number matched context
    ⟨true, events ++ [.continuePipeline pipeline stage.number], context⟩
  else ⟨false, [.stopPipeline pipeline stage.number], context⟩

theorem runStage_eq (errorField : Option String) (pipeline : String) (stage : Stage)
    (cache : RuleCache) (c : Context) :
    let judged := judge errorField pipeline stage.number stage.rules cache c
    let closed := closing errorField pipeline stage judged.matched judged.context
    runStage errorField pipeline stage cache c =
      ⟨closed.proceeds, .enterStage pipeline stage.number stage.policy ::
        judged.events ++ closed.events, judged.cache, closed.context⟩ := by
  simp only [runStage, closing]
  split <;> simp

/-- For the end of a stage it matters how many rules it has, and not which. -/
theorem closing_coupled (hS : Coupling errorField S) (pipeline : String) {s t : Stage}
    (hnumber : s.number = t.number) (hpolicy : s.policy = t.policy)
    (hlength : s.rules.length = t.rules.length) {ms ns : List Matched}
    (hmatched : List.Forall₂ (Matched.Coupled S) ms ns) (hstates : S c d) :
    (closing errorField pipeline s ms c).proceeds = (closing errorField pipeline t ns d).proceeds ∧
      (closing errorField pipeline s ms c).events = (closing errorField pipeline t ns d).events ∧
      S (closing errorField pipeline s ms c).context
        (closing errorField pipeline t ns d).context := by
  obtain ⟨hevents, hcontext⟩ :=
    execute_coupled hS pipeline t.number hmatched hstates
  simp only [closing, hnumber, hpolicy, hlength, hmatched.length_eq]
  split
  · exact ⟨rfl, by rw [hevents], hcontext⟩
  · exact ⟨rfl, rfl, hstates⟩

theorem runStage_coupled (hS : Coupling errorField S) (pipeline : String) {stage : Stage}
    (hrules : ∀ r ∈ stage.rules, r.Uniform S ∧ Serves I r) (ha : I a) (hb : I b)
    (hstates : S c d) : (runStage errorField pipeline stage a c).Coupled S I
      (runStage errorField pipeline stage b d) := by
  have hjudged := judge_coupled hS pipeline stage.number hrules ha hb hstates
  obtain ⟨hproceeds, hevents, hcontext⟩ :=
    closing_coupled hS pipeline rfl rfl (rfl : stage.rules.length = _)
      hjudged.matched hjudged.context
  rw [runStage_eq, runStage_eq]
  exact ⟨hproceeds, by rw [hjudged.events, hevents], hcontext, hjudged.leftCache,
    hjudged.rightCache⟩

/-- Two runs of stages: the events, the caches, and the contexts they end in. -/
structure StagesCoupled (S : Context → Context → Prop) (I : RuleCache → Prop)
    (a b : List Event × RuleCache × Context) : Prop where
  events : a.1 = b.1
  context : S a.2.2 b.2.2
  leftCache : I a.2.1
  rightCache : I b.2.1

theorem runStages_coupled (hS : Coupling errorField S) (pipeline : String) {stages : List Stage}
    (hrules : ∀ s ∈ stages, ∀ r ∈ s.rules, r.Uniform S ∧ Serves I r) (ha : I a) (hb : I b)
    (hstates : S c d) : StagesCoupled S I (runStages errorField pipeline stages a c)
      (runStages errorField pipeline stages b d) := by
  induction stages generalizing a b c d with
  | nil => exact ⟨rfl, hstates, ha, hb⟩
  | cons stage rest ih =>
    obtain ⟨hstage, hothers⟩ := List.forall_mem_cons.mp hrules
    have hdone := runStage_coupled hS pipeline hstage ha hb hstates
    have hrest := ih hothers hdone.leftCache hdone.rightCache hdone.context
    simp only [runStages, hdone.proceeds, hS.message _ _ hdone.context, hdone.events]
    split
    · exact ⟨by rw [hrest.events], hrest.context, hrest.leftCache, hrest.rightCache⟩
    · exact ⟨rfl, hdone.context, hdone.leftCache, hdone.rightCache⟩

/-- Two runs of pipelines that differ at most in their caches. -/
structure PipelinesRun.Agrees (I : RuleCache → Prop) (a b : PipelinesRun) : Prop where
  faults : a.faults = b.faults
  names : a.names = b.names
  events : a.events = b.events
  message : a.message = b.message
  leftCache : I a.cache
  rightCache : I b.cache

theorem runPipelines_agrees (errorField : Option String) {pipelines : List Pipeline}
    (hrules : ∀ p ∈ pipelines, ∀ s ∈ p.stages, ∀ r ∈ s.rules, Serves I r) (ha : I a) (hb : I b)
    (m : Message) : (runPipelines errorField pipelines a m).Agrees I
      (runPipelines errorField pipelines b m) := by
  induction pipelines generalizing a b m with
  | nil => exact ⟨rfl, rfl, rfl, rfl, ha, hb⟩
  | cons p rest ih =>
    obtain ⟨hpipeline, hothers⟩ := List.forall_mem_cons.mp hrules
    have hstages := runStages_coupled (coupling_eq errorField) p.name
      (fun s hs r hr => ⟨r.uniform_eq, hpipeline s hs r hr⟩) ha hb (rfl : Context.start m = _)
    have hrest := ih hothers hstages.leftCache hstages.rightCache
      (runStages errorField p.name p.stages b (.start m)).2.2.message
    simp only [runPipelines]
    split
    · exact ⟨rfl, rfl, rfl, rfl, ha, hb⟩
    · rw [hstages.context]
      exact ⟨by rw [hrest.faults], by rw [hrest.names], by rw [hstages.events, hrest.events],
        hrest.message, hrest.leftCache, hrest.rightCache⟩

end Coupled

end Run

end LogRules
