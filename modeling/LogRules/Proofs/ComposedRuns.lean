import LogRules.Proofs.FaultReports

/-!
Runs one behind another. A run through two lists of pipelines is the run through the first of them
and then the run of the message that it leaves through the second. Nothing else goes from one
pipeline to the next: not the variables and faults of the first run, and without compiled rules not
the cache either.
-/
namespace LogRules

namespace Run

/-- A message that the first pipelines have left dropped enters none of the others. -/
theorem runPipelines_append (errorField : Option String) (pipelines others : List Pipeline)
    (cache : RuleCache) (m : Message) :
    let first := runPipelines errorField pipelines cache m
    let second := runPipelines errorField others first.cache first.message
    runPipelines errorField (pipelines ++ others) cache m =
      ⟨first.faults ++ second.faults, first.names ++ second.names, first.events ++ second.events,
        second.cache, second.message⟩ := by
  intro first second
  induction pipelines generalizing cache m with
  | nil => rfl
  | cons p rest ih =>
    simp only [first, second, List.cons_append, runPipelines]
    split
    · next hdropped =>
      cases others with
      | nil => rfl
      | cons q others => simp [runPipelines, hdropped]
    · simp only [ih, List.append_assoc, List.cons_append]

end Run

namespace Engine

open Run

/-- The second run is of the engine that the first one leaves. -/
theorem process_append (engine : Engine) (message : Message)
    (streams streams' streams'' names others : List String) :
    let whole := engine.process message streams (names ++ others)
    let first := engine.process message streams' names
    let second := first.2.process first.1.message streams'' others
    whole.1.report = ⟨first.1.report.faults ++ second.1.report.faults, second.1.report.dropped,
        first.1.report.pipelinesRun ++ second.1.report.pipelinesRun⟩ ∧
      whole.1.message = second.1.message ∧ whole.2 = second.2 := by
  intro whole first second
  simp only [whole, first, second, process, List.filterMap_append, runPipelines_append, and_self]

/-- Runs compose. Where nothing is compiled, running a message through two lists of pipelines leaves
the message as it is left by running it through the first list and what comes of it through the
second. The faults are those of the first run and then those of the second, and so are the pipelines
that were entered, unknown and repeated names included. The second run could as well be that of a
new engine with the same deployment: all that it has of the first one is the message. -/
theorem runs_compose {config : Config} (hoff : config.compileRules = false) (ops : List Operation)
    (message : Message) (streams streams' streams'' names others : List String) :
    let engine := (new config).after ops
    let whole := (engine.process message streams (names ++ others)).1
    let first := engine.process message streams' names
    let second := first.2.process first.1.message streams'' others
    whole.message = second.1.message ∧
      whole.report.dropped = second.1.report.dropped ∧
      whole.report.faults = first.1.report.faults ++ second.1.report.faults ∧
      whole.report.pipelinesRun =
        first.1.report.pipelinesRun ++ second.1.report.pipelinesRun ∧
      second.1 =
        ((deploy config engine.deployment).process first.1.message streams'' others).1 := by
  intro engine whole first second
  obtain ⟨hreport, hmessage, -⟩ :=
    engine.process_append message streams streams' streams'' names others
  have hcache : first.2.cache = (new config).cache := by
    have hafter : ((new config).after (ops ++ [.process message streams' names])) = first.2 :=
      after_append (new config) ops [.process message streams' names]
    rw [← hafter]
    exact cache_after_disabled hoff _
  have hconfig : first.2.config = config := config_after (new config) ops
  have hnew : first.2 = deploy config engine.deployment := by
    calc first.2
      _ = ⟨first.2.config, engine.deployment, first.2.cache⟩ := rfl
      _ = ⟨config, engine.deployment, (new config).cache⟩ := by rw [hconfig, hcache]
      _ = deploy config engine.deployment := rfl
  have hwhole : whole.report = _ := hreport
  rw [← hnew, hwhole]
  exact ⟨hmessage, rfl, rfl, rfl, rfl⟩

/-- The first list ends before a pipeline that fails twice and drops the message; the last pipeline
is not entered again. -/
theorem runs_compose_droppingHistory :
    let engine := (new .interpretedOnly).after droppingHistory
    let message := Message.empty .nil .epoch
    let whole := (engine.process message [] (["q", "none"] ++ ["p", "q"])).1
    let first := engine.process message [] ["q", "none"]
    let second :=
      ((deploy .interpretedOnly droppingDeployment).process first.1.message [] ["p", "q"]).1
    whole.message = second.message ∧ whole.report.dropped = true ∧
      whole.report.faults = first.1.report.faults ++ second.report.faults ∧
      whole.report.faults.length = 2 ∧ whole.report.pipelinesRun = ["q", "p"] := by
  intro engine message whole first second
  obtain ⟨hmessage, -, hfaults, -, hfresh⟩ :=
    runs_compose (rfl : Config.interpretedOnly.compileRules = false) droppingHistory message [] []
      [] ["q", "none"] ["p", "q"]
  rw [hfresh] at hmessage hfaults
  exact ⟨hmessage, by decide, hfaults, by decide, by decide⟩

end Engine

end LogRules
