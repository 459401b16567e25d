import LogRules.Proofs.Deployments
import LogRules.Proofs.KnownRules
import LogRules.Proofs.TypeSoundness

/-!
Rules that are installed never meet an unknown name: what was found when a source was parsed is
there when its rules run, in whatever form they run.
-/
namespace LogRules

/-- In no state does the rule fail because a function or a variable is not there. -/
def Rule.KnowsNames (r : Rule) : Prop :=
  ∀ c error, ((r.condition.evalCondition.runOn c).1 = .error error ∨
    ((Statement.executeAll r.statements).runOn c).1 = .error error) → ¬error.IsUnknownName

section Declared

variable {generation : Nat}

theorem Operator.Excused.knows_name {sure : Prop} {error : EvalError} (h : Excused sure error) :
    ¬error.IsUnknownName := by
  obtain (rfl | ⟨operator, rfl⟩) | ⟨hoperand, -⟩ := h
  · exact not_false
  · exact not_false
  · cases error with
    | typeMismatch | nullOperand | indexOutOfBounds => exact not_false
    | _ => cases hoperand

/-- Calls of built-in functions never fail for a name. -/
theorem Rule.FailsIn.knows_name {callable : String → Prop} {r : Rule}
    (hrule : r.Clean callable (.builtin generation)) {c : Context} {error : EvalError}
    (h : r.FailsIn c error) : ¬error.IsUnknownName := by
  obtain ⟨site, name, target, args, named, resolved, c', values, d, bound, hreaches, -, -, hfails⟩ :=
    h
  obtain ⟨e, he, hnode⟩ := hreaches.exists_mem_nodes
  have htarget := (hrule.call he hnode).1
  exact ((Registry.tame_of_builtin htarget bound).faults d trivial).of_error hfails

theorem Rule.knowsNames_of_declared {r : Rule} (h : r.IsDeclared (.builtin generation)) :
    r.KnowsNames := by
  obtain ⟨source, hclean, hr⟩ := h
  have hrule : r.Clean (fun _ => True) (.builtin generation) :=
    clean_of_source (fun _ _ _ => trivial) hclean hr
  have hbehaves : ∀ e ∈ r.expressions, e.CallsBehave False := fun e he call hcall =>
    Registry.behaves_of_builtin (hrule.resolvedIn e he call hcall)
  intro c error herror
  obtain hexcused | hfails := hrule.faults hbehaves herror
  · exact hexcused.knows_name
  · exact hfails.knows_name hrule

theorem Rule.keepsFaults_of_declared {r : Rule} (h : r.IsDeclared (.builtin generation)) :
    r.KeepsFaults := by
  obtain ⟨source, hclean, hr⟩ := h
  have hrule : r.Clean (fun _ => True) (.builtin generation) :=
    clean_of_source (fun _ _ _ => trivial) hclean hr
  intro e he call hcall args c
  exact ((Registry.tame_of_builtin (hrule.resolvedIn e he call hcall) args).moves c).2

theorem Rule.knowsNames_alwaysFalse (name : String) : (Rule.alwaysFalse name).KnowsNames := by
  rintro c error (herror | herror) <;> cases herror

theorem Rule.keepsFaults_alwaysFalse (name : String) : (Rule.alwaysFalse name).KeepsFaults := by
  intro e he call hcall
  rw [List.mem_singleton.mp he] at hcall
  cases hcall

end Declared

namespace Run

variable {known : List Rule} {pipeline : String} {fault : RuleFault}

/-- A fault of a visit is one that a known rule has in some state. -/
theorem Visit.fault_of_made {v : Visit} (hmade : ∀ b ∈ v.blocks, b.Made known)
    (hfault : fault ∈ v.faults) : ∃ r ∈ known, ∃ c,
      (r.condition.evalCondition.runOn c).1 = .error fault.error ∨
        ((Statement.executeAll r.statements).runOn c).1 = .error fault.error := by
  have hturn {α : Type} {stage : Int} {phase : FaultPhase} {turns : List (Turn α)}
      (h : fault ∈ turns.filterMap (Turn.fault? v.pipeline.name stage phase)) :
      ∃ turn ∈ turns, turn.outcome = .error fault.error := by
    obtain ⟨turn, hmem, hsome⟩ := List.mem_filterMap.mp h
    refine ⟨turn, hmem, ?_⟩
    rw [Turn.fault?] at hsome
    split at hsome
    · cases hsome
    · next error houtcome =>
      cases hsome
      exact houtcome
  obtain ⟨b, hb, hmem⟩ := List.mem_flatMap.mp hfault
  rw [Block.faults, List.mem_append] at hmem
  cases hmem with
  | inl hjudged =>
    obtain ⟨turn, hmem, houtcome⟩ := hturn hjudged
    obtain ⟨r, hr, -, c, hrun⟩ := (hmade b hb).judged turn hmem
    exact ⟨r, hr, c, .inl (hrun.trans houtcome)⟩
  | inr hexecuted =>
    split at hexecuted
    · obtain ⟨turn, hmem, houtcome⟩ := hturn hexecuted
      obtain ⟨r, hr, -, c, hrun⟩ := (hmade b hb).executed turn hmem
      exact ⟨r, hr, c, .inr (hrun.trans houtcome)⟩
    · cases hexecuted

end Run

/-- Whether an operation runs a message, really or for a forecast. -/
def Operation.isRun : Operation → Bool
  | process _ _ _ | simulate _ _ _ => true
  | install _ | warm _ => false

namespace Engine

variable {known : List Rule} {engine : Engine}

/-- Faults of a run are faults that known rules have in some state. -/
theorem Knows.fault_of_process (h : engine.Knows known) (hkeeps : ∀ r ∈ known, r.KeepsFaults)
    (message : Message) (streams names : List String) :
    ∀ fault ∈ (engine.process message streams names).1.report.faults, ∃ r ∈ known, ∃ c,
      (r.condition.evalCondition.runOn c).1 = .error fault.error ∨
        ((Statement.executeAll r.statements).runOn c).1 = .error fault.error := by
  obtain ⟨visits, hfollows⟩ := engine.exists_follows message streams names
  have hmade := (hfollows.run.made (h.selected names) h.cache).2
  intro fault hfault
  rw [hfollows.run.faults (h.keepsFaults hkeeps message names)] at hfault
  obtain ⟨v, hv, hmem⟩ := List.mem_flatMap.mp hfault
  exact Run.Visit.fault_of_made (hmade v hv) hmem

theorem Knows.fault_of_answers (h : engine.Knows known) (hkeeps : ∀ r ∈ known, r.KeepsFaults)
    {ops : List Operation} (hops : ∀ op ∈ ops, op.isRun) :
    ∀ shown, some shown ∈ engine.answers ops → ∀ fault ∈ shown.report.faults, ∃ r ∈ known, ∃ c,
      (r.condition.evalCondition.runOn c).1 = .error fault.error ∨
        ((Statement.executeAll r.statements).runOn c).1 = .error fault.error := by
  induction ops generalizing engine with
  | nil => simp [answers]
  | cons op rest ih =>
    intro shown hshown
    have hrules : ∀ r ∈ op.rules, r ∈ known := by
      have hrun := hops op List.mem_cons_self
      cases op with
      | process | simulate => simp [Operation.rules]
      | _ => cases hrun
    cases List.mem_cons.mp hshown with
    | inr hlater =>
      exact ih (h.perform hrules) (fun op hop => hops op (List.mem_cons_of_mem _ hop)) shown hlater
    | inl hnow =>
      have hrun := hops op List.mem_cons_self
      cases op with
      | process message streams names =>
        cases hnow
        exact h.fault_of_process hkeeps message streams names
      | simulate message streams names =>
        cases hnow
        exact h.fault_of_process hkeeps message streams names
      | _ => cases hrun

/-- Installed rules never meet an unknown name. Once sources can be deployed over the built-in
functions, no run over a message reports a fault for a function or a variable that is not there,
whatever was run before and in whatever form the rules run. -/
theorem deployed_names_known {generation : Nat} {ruleSources pipelineSources : List SourceUnit}
    {d : Deployment}
    (hbuild : Deployment.build ruleSources pipelineSources (.builtin generation) = .ok d)
    (config : Config) {ops : List Operation} (hops : ∀ op ∈ ops, op.isRun) :
    ∀ shown, some shown ∈ (deploy config d).answers ops → ∀ fault ∈ shown.report.faults,
      ∀ name, fault.error ≠ .unresolvedFunction name ∧ fault.error ≠ .undefinedVariable name := by
  have hrules := Deployment.rules_of_build hbuild
  have hkeeps : ∀ r ∈ d.stageRules, r.KeepsFaults := by
    intro r hr
    obtain hdeclared | ⟨name, rfl⟩ := hrules r hr
    · exact Rule.keepsFaults_of_declared hdeclared
    · exact Rule.keepsFaults_alwaysFalse name
  have hnames : ∀ r ∈ d.stageRules, r.KnowsNames := by
    intro r hr
    obtain hdeclared | ⟨name, rfl⟩ := hrules r hr
    · exact Rule.knowsNames_of_declared hdeclared
    · exact Rule.knowsNames_alwaysFalse name
  have hknows : (deploy config d).Knows d.stageRules :=
    (knows_new _ config).install fun _ h => h
  intro shown hshown fault hfault name
  obtain ⟨r, hr, c, herror⟩ := hknows.fault_of_answers hkeeps hops shown hshown fault hfault
  have hknown := hnames r hr c fault.error herror
  refine ⟨?_, ?_⟩
  · intro h
    rw [h] at hknown
    exact hknown trivial
  · intro h
    rw [h] at hknown
    exact hknown trivial

/-- A rule whose first statement fails, in a stage that also names a rule that nothing declares. -/
def partialSources : List SourceUnit :=
  [⟨"rules", "rule \"partial\" when true then let x = 1 / 0; set_field(\"y\", x); end"⟩,
    ⟨"pipelines", "pipeline \"p\" stage 0 match pass rule \"partial\"; rule \"missing\"; end"⟩]

theorem partialSources_isSome :
    (Deployment.build partialSources [] (.builtin 0)).toOption.isSome = true := by
  decide +kernel

def partialDeployment : Deployment :=
  (Deployment.build partialSources [] (.builtin 0)).toOption.get partialSources_isSome

def forecastThenRun : List Operation :=
  [.simulate (.empty .nil .epoch) [] ["p"], .process (.empty .nil .epoch) [] ["p"]]

theorem deployed_names_known_partialSources :
    let answers := (deploy .standard partialDeployment).answers forecastThenRun
    answers.map (Option.map (·.report.faults.length)) = [some 1, some 1] ∧
      ∀ shown, some shown ∈ answers → ∀ fault ∈ shown.report.faults, ∀ name,
        fault.error ≠ .unresolvedFunction name ∧ fault.error ≠ .undefinedVariable name := by
  have hbuild : Deployment.build partialSources [] (.builtin 0) = .ok partialDeployment :=
    Deployment.eq_ok_of_isSome partialSources_isSome
  have hruns : ∀ op ∈ forecastThenRun, op.isRun := by decide
  exact ⟨by decide +kernel, deployed_names_known hbuild .standard hruns⟩

end Engine

end LogRules
