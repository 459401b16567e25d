import LogRules.Proofs.Effects
import LogRules.Proofs.FaultReports

/-!
Rules that an engine is known to run. Whatever an engine runs was made from a rule that it was
given, so the faults of its runs are faults that these rules have in some state.
-/
namespace LogRules

/-- The functions that the rule calls signal a failure by failing: none of them adds to the faults
of a run or removes any. -/
def Rule.KeepsFaults (r : Rule) : Prop :=
  ∀ e ∈ r.expressions, e.Respects Context.SameFaults

theorem Rule.KeepsFaults.runs {r : Rule} (h : r.KeepsFaults) {body : RuleBody}
    (hruns : body.Runs r) :
    body.condition.Moves Context.SameFaults ∧ body.execute.Moves Context.SameFaults := by
  have hcondition := Expr.moves_evalCondition (h r.condition List.mem_cons_self)
  have hexecute := Statement.moves_executeAll (R := Context.SameFaults) (fun _ _ _ _ => rfl)
    fun s hs => h s.expression (List.mem_cons_of_mem _ (List.mem_map_of_mem hs))
  refine ⟨fun c => ?_, fun c => ?_⟩
  · rw [(hruns c).1]
    exact hcondition c
  · rw [(hruns c).2]
    exact hexecute c

namespace Run

open RuleCache

section Made

variable {known : List Rule} {errorField : Option String} {pipeline : String}

/-- The form that a faithful cache gives was made from some known rule. -/
theorem bodyOf_made {cache : RuleCache} (h : Faithful known cache) {rule : Rule}
    (hr : rule ∈ known) :
    (∃ r ∈ known, (bodyOf cache rule).1.Runs r) ∧ Faithful known (bodyOf cache rule).2 := by
  obtain ⟨kept, made⟩ := h.lookup hr
  unfold bodyOf
  split
  · next code next hl =>
    rw [hl] at kept made
    obtain ⟨r, hrk, -, hruns⟩ := made code rfl
    exact ⟨⟨r, hrk, hruns⟩, kept⟩
  · next next hl =>
    rw [hl] at kept
    exact ⟨⟨rule, hr, RuleBody.runs_interpreted rule⟩, kept⟩

/-- The turn shows what the condition of a known rule comes to in some state. -/
def Turn.Judged (known : List Rule) (turn : Turn Bool) : Prop :=
  ∃ r ∈ known, turn.body.Runs r ∧ ∃ c, (r.condition.evalCondition.runOn c).1 = turn.outcome

/-- The turn shows what the statements of a known rule come to in some state. -/
def Turn.Executed (known : List Rule) (turn : Turn Unit) : Prop :=
  ∃ r ∈ known, turn.body.Runs r ∧
    ∃ c, ((Statement.executeAll r.statements).runOn c).1 = turn.outcome

structure Block.Made (known : List Rule) (b : Block) : Prop where
  judged : ∀ turn ∈ b.judged, turn.Judged known
  executed : ∀ turn ∈ b.executed, turn.Executed known

theorem Judges.made {stage : Int} {rules : List Rule} {cache cache' : RuleCache} {c e : Context}
    {turns : List (Turn Bool)}
    (h : Judges errorField pipeline stage rules cache c turns cache' e)
    (hrules : ∀ r ∈ rules, r ∈ known) (hcache : Faithful known cache) :
    Faithful known cache' ∧ ∀ turn ∈ turns, turn.Judged known := by
  induction h with
  | done cache c => exact ⟨hcache, by simp⟩
  | next hrule hbody hrun hrest ih =>
    obtain ⟨⟨r, hr, hruns⟩, hkept⟩ := bodyOf_made hcache (hrules _ List.mem_cons_self)
    obtain ⟨hcache', hturns⟩ := ih (fun r h => hrules r (List.mem_cons_of_mem _ h)) hkept
    refine ⟨hcache', List.forall_mem_cons.mpr ⟨?_, hturns⟩⟩
    rw [← hbody] at hruns
    exact ⟨r, hr, hruns, _, by rw [← (hruns _).1, hrun]⟩

theorem Executes.made {stage : Int} {ms : List Matched} {c e : Context} {turns : List (Turn Unit)}
    (h : Executes errorField pipeline stage ms c turns e)
    (hms : ∀ m ∈ ms, ∃ r ∈ known, m.body.Runs r) : ∀ turn ∈ turns, turn.Executed known := by
  induction h with
  | done c => simp
  | next hmatched hrun hrest ih =>
    refine List.forall_mem_cons.mpr ⟨?_, ih fun m hm => hms m (List.mem_cons_of_mem _ hm)⟩
    obtain ⟨r, hr, hruns⟩ := hms _ List.mem_cons_self
    rw [← hmatched] at hruns
    exact ⟨r, hr, hruns, _, by rw [← (hruns _).2, hrun]⟩

theorem Enters.made {stage : Stage} {cache cache' : RuleCache} {c e : Context} {b : Block}
    (h : Enters errorField pipeline stage cache c b cache' e)
    (hrules : ∀ r ∈ stage.rules, r ∈ known) (hcache : Faithful known cache) :
    Faithful known cache' ∧ b.Made known := by
  cases h with
  | proceeds hjudged hexecuted hpolicy =>
    obtain ⟨hcache', hturns⟩ := hjudged.made hrules hcache
    refine ⟨hcache', hturns, hexecuted.made fun m hm => ?_⟩
    obtain ⟨turn, hturn, rfl⟩ := List.mem_map.mp hm
    obtain ⟨r, hr, hruns, -⟩ := hturns turn (List.mem_filter.mp hturn).1
    exact ⟨r, hr, hruns⟩
  | stops hjudged hpolicy =>
    obtain ⟨hcache', hturns⟩ := hjudged.made hrules hcache
    exact ⟨hcache', hturns, by simp⟩

theorem Passes.made {stages : List Stage} {cache cache' : RuleCache} {c e : Context}
    {blocks : List Block} (h : Passes errorField pipeline stages cache c blocks cache' e)
    (hrules : ∀ s ∈ stages, ∀ r ∈ s.rules, r ∈ known) (hcache : Faithful known cache) :
    Faithful known cache' ∧ ∀ b ∈ blocks, b.Made known := by
  induction h with
  | finished cache c => exact ⟨hcache, by simp⟩
  | left henter hend =>
    obtain ⟨hcache', hb⟩ := henter.made (hrules _ List.mem_cons_self) hcache
    exact ⟨hcache', by simpa using hb⟩
  | next henter hgoes hkept hrest ih =>
    obtain ⟨hcache', hb⟩ := henter.made (hrules _ List.mem_cons_self) hcache
    obtain ⟨hlast, hblocks⟩ := ih (fun s h => hrules s (List.mem_cons_of_mem _ h)) hcache'
    exact ⟨hlast, List.forall_mem_cons.mpr ⟨hb, hblocks⟩⟩

theorem Visits.made {pipelines : List Pipeline} {cache cache' : RuleCache} {m m' : Message}
    {visits : List Visit} {faults : List RuleFault}
    (h : Visits errorField pipelines cache m visits faults cache' m')
    (hrules : ∀ p ∈ pipelines, ∀ s ∈ p.stages, ∀ r ∈ s.rules, r ∈ known)
    (hcache : Faithful known cache) :
    Faithful known cache' ∧ ∀ v ∈ visits, ∀ b ∈ v.blocks, b.Made known := by
  induction h with
  | finished cache m => exact ⟨hcache, by simp⟩
  | dropped cache hdropped => exact ⟨hcache, by simp⟩
  | entered hkept hpasses hrest ih =>
    obtain ⟨hcache', hblocks⟩ := hpasses.made (hrules _ List.mem_cons_self) hcache
    obtain ⟨hlast, hvisits⟩ := ih (fun p h => hrules p (List.mem_cons_of_mem _ h)) hcache'
    exact ⟨hlast, List.forall_mem_cons.mpr ⟨hblocks, hvisits⟩⟩

end Made

end Run

namespace Engine

open RuleCache

variable {known : List Rule} {engine : Engine}

/-- Whatever the engine has installed or compiled comes from known rules. -/
structure Knows (known : List Rule) (engine : Engine) : Prop where
  installed : ∀ r ∈ engine.deployment.stageRules, r ∈ known
  cache : Faithful known engine.cache

theorem knows_new (known : List Rule) (config : Config) : (new config).Knows known where
  installed := by simp [new, Deployment.empty, Deployment.stageRules, Entries.values]
  cache := faithful_empty _ _ _

theorem Knows.install (h : engine.Knows known) {d : Deployment}
    (hd : ∀ r ∈ d.stageRules, r ∈ known) : (engine.install d).Knows known where
  installed := hd
  cache := h.cache.retain _

theorem Knows.selected (h : engine.Knows known) (names : List String) :
    ∀ p ∈ names.filterMap engine.deployment.pipeline?, ∀ s ∈ p.stages, ∀ r ∈ s.rules,
      r ∈ known := by
  intro p hp s hs r hr
  obtain ⟨name, -, hname⟩ := List.mem_filterMap.1 hp
  exact h.installed r (Deployment.stageRules_of_pipeline hname hs hr)

/-- If known rules keep the faults, every evaluation of a run does. -/
theorem Knows.keepsFaults (h : engine.Knows known) (hkeeps : ∀ r ∈ known, r.KeepsFaults)
    (message : Message) (names : List String) :
    ∀ e ∈ engine.evaluations message names, e.context.SameFaults e.left := by
  have hforms := (Run.runPipelines_formed (T := fun body => ∃ r ∈ known, body.Runs r)
    engine.config.errorField (fun _ _ hr hcache => Run.bodyOf_made hcache hr) _
    (h.selected names) h.cache message).2
  intro e he
  obtain ⟨r, hr, hruns⟩ := hforms e he
  obtain ⟨hcondition, hexecute⟩ := (hkeeps r hr).runs hruns
  obtain ⟨phase, body, c⟩ := e
  cases phase with
  | condition => exact hcondition c
  | execution => exact hexecute c

theorem Knows.process (h : engine.Knows known) (message : Message) (streams names : List String) :
    (engine.process message streams names).2.Knows known := by
  obtain ⟨visits, hfollows⟩ := engine.exists_follows message streams names
  exact ⟨h.installed, (hfollows.run.made (h.selected names) h.cache).1⟩

theorem Knows.perform (h : engine.Knows known) {op : Operation}
    (hop : ∀ r ∈ op.rules, r ∈ known) : (engine.perform op).2.Knows known := by
  cases op with
  | install d => exact h.install hop
  | process message streams names => exact h.process message streams names
  | simulate message streams names => exact h.process message streams names
  | warm rule => exact ⟨h.installed, h.cache.warm (hop rule (by simp [Operation.rules]))⟩

theorem Knows.after (h : engine.Knows known) (ops : List Operation)
    (hops : ∀ r ∈ ops.flatMap Operation.rules, r ∈ known) : (engine.after ops).Knows known := by
  induction ops generalizing engine with
  | nil => exact h
  | cons op rest ih =>
    simp only [List.flatMap_cons, List.mem_append] at hops
    exact ih (h.perform fun r hr => hops r (.inl hr)) fun r hr => hops r (.inr hr)

end Engine

end LogRules
