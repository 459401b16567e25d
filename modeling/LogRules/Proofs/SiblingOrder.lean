import LogRules.Proofs.Deployments
import LogRules.Proofs.FaultReports
import LogRules.Proofs.InertConditions
import LogRules.Proofs.KeySoundness

/-!
The order of the rules of a stage. Conditions only read the message, and judging the siblings of a
rule changes nothing of it but the field that collects the texts of faults. So every condition is
judged on the message that entered the stage, up to that field, and where no condition can tell what
is noted there, the same rules match in every order.
-/
namespace LogRules

open EvalM

theorem Registry.id_name_of_builtin {generation : Nat} {name : String} {f : Function}
    (h : (Registry.builtin generation).find? name = some f) : f.id.name = name := by
  obtain ⟨hmem, rfl⟩ := of_find?_ofList h
  obtain ⟨definition, -, rfl⟩ := List.mem_map.mp hmem
  rfl

/-- A condition over the built-in functions reads the message at most: no variable is in scope. -/
theorem Grammar.Clean.onlyReads_condition {callable : String → Prop} {generation : Nat} {e : Expr}
    (h : Clean callable ⟨.builtin generation, [], true⟩ e) : OnlyReads e.evalCondition := by
  refine onlyReads_modular.evalCondition hereditary (fun n hn => ?_) h
  cases n with
  | var site name =>
    cases hn with
    | var _ _ hname hscope => cases hscope
  | field site name => exact onlyReads_message
  | call site name target args named resolved =>
    obtain ⟨hfind, hpure⟩ := hn.pure_call rfl
    exact Registry.onlyReads_of_builtin hfind hpure
  | _ => trivial

namespace Rule

/-- What the condition of a rule comes to on a message. -/
def verdict (r : Rule) (m : Message) : Except EvalError Bool :=
  (r.condition.evalCondition.runOn (.start m)).1

/-- Whether a rule matches a message; one whose condition fails does not. -/
def holdsOn (r : Rule) (m : Message) : Bool :=
  match r.verdict m with
  | .ok flag => flag
  | .error _ => false

theorem runOn_condition {r : Rule} (h : OnlyReads r.condition.evalCondition) (c : Context) :
    r.condition.evalCondition.runOn c = (r.verdict c.message, c) := by
  obtain ⟨answer, hanswer⟩ := h
  rw [verdict, hanswer, hanswer]
  rfl

theorem accepted_alwaysFalse (registry : Registry) (name : String) :
    (alwaysFalse name).Accepted registry where
  condition := {
    accepted := .literal _ _ trivial rfl
    depth_le := Nat.succ_le_succ (Nat.zero_le _)
    boolean := fun _ => rfl
    isCall := fun _ h => nomatch h }
  statements := trivial

end Rule

/-- Rules over the built-in functions have keys that stand for behaviours unless fingerprints
collide. -/
theorem keysSound_of_builtin {generation : Nat} {rules : List Rule}
    (haccepted : ∀ r ∈ rules, r.Accepted (.builtin generation))
    (hbodies : ∀ r ∈ rules, ∀ r' ∈ rules, r.fingerprint = r'.fingerprint → r.body = r'.body) :
    KeysSound rules := by
  refine keysSound_of_accepted (fun id => (Registry.builtin generation).resolve id.name)
    (fun r hr => ⟨_, haccepted r hr⟩) (fun r hr target htarget => ?_) hbodies
  obtain ⟨e, he, hcalls⟩ := List.mem_flatMap.mp htarget
  obtain ⟨call, hcall, rfl⟩ := List.mem_map.mp hcalls
  have hfind := (haccepted r hr).resolvedIn e he call hcall
  simp only [Registry.id_name_of_builtin hfind, Registry.resolve, hfind, Option.getD_some]

namespace Deployment

variable {ruleSources pipelineSources : List SourceUnit} {generation : Nat} {d : Deployment}

theorem accepted_of_build
    (h : build ruleSources pipelineSources (.builtin generation) = .ok d) :
    ∀ r ∈ d.stageRules, r.Accepted (.builtin generation) := by
  intro r hr
  obtain ⟨source, hclean, hdeclared⟩ | ⟨name, rfl⟩ := rules_of_build h r hr
  · exact accepted_of_clean (Registry.unreserved_builtin generation) hclean hdeclared
  · exact Rule.accepted_alwaysFalse _ name

/-- In a deployment over the built-in functions keys stand for behaviours unless fingerprints
collide. -/
theorem keysSound_of_build
    (h : build ruleSources pipelineSources (.builtin generation) = .ok d)
    (hbodies : ∀ r ∈ d.stageRules, ∀ r' ∈ d.stageRules,
      r.fingerprint = r'.fingerprint → r.body = r'.body) : KeysSound d.stageRules :=
  keysSound_of_builtin (accepted_of_build h) hbodies

end Deployment

namespace Message

/-- Adds the entry of a fault to the field that collects them, if there is one. -/
def noteFault (errorField : Option String) (m : Message) (fault : RuleFault) : Message :=
  (Run.recordFault errorField fault (.start m)).message

def noteFaults (errorField : Option String) (m : Message) (faults : List RuleFault) : Message :=
  faults.foldl (noteFault errorField) m

theorem noteFaults_append (errorField : Option String) (m : Message)
    (faults others : List RuleFault) : m.noteFaults errorField (faults ++ others) =
      (m.noteFaults errorField faults).noteFaults errorField others := List.foldl_append

theorem noteFaults_none (m : Message) (faults : List RuleFault) : m.noteFaults none faults = m := by
  induction faults with
  | nil => rfl
  | cons fault rest ih => exact ih

end Message

/-- No condition of the rules tells a message from the same message with entries of faults that the
rules have on it. -/
def BlindToFaults (errorField : Option String) (rules : List Rule) (m : Message) : Prop :=
  ∀ r ∈ rules, ∀ faults : List RuleFault,
    (∀ fault ∈ faults, ∃ sibling ∈ rules, sibling.verdict m = .error fault.error ∧
      sibling.name = fault.rule) →
    r.verdict (m.noteFaults errorField faults) = r.verdict m

theorem blindToFaults_none (rules : List Rule) (m : Message) : BlindToFaults none rules m := by
  intro r hr faults hfaults
  rw [Message.noteFaults_none]

theorem blindToFaults_of_ok {errorField : Option String} {rules : List Rule} {m : Message}
    (h : ∀ r ∈ rules, ∃ flag, r.verdict m = .ok flag) : BlindToFaults errorField rules m := by
  intro r hr faults hfaults
  cases faults with
  | nil => rfl
  | cons fault rest =>
    obtain ⟨sibling, hsibling, herror, -⟩ := hfaults fault List.mem_cons_self
    obtain ⟨flag, hok⟩ := h sibling hsibling
    rw [hok] at herror
    cases herror

theorem BlindToFaults.perm {errorField : Option String} {rules others : List Rule} {m : Message}
    (h : BlindToFaults errorField rules m) (hperm : others.Perm rules) :
    BlindToFaults errorField others m := by
  intro r hr faults hfaults
  refine h r (hperm.mem_iff.mp hr) faults fun fault hfault => ?_
  obtain ⟨sibling, hsibling, hfault⟩ := hfaults fault hfault
  exact ⟨sibling, hperm.mem_iff.mp hsibling, hfault⟩

namespace Run

open RuleCache

variable {known rules : List Rule} {errorField : Option String} {pipeline : String} {stage : Int}
  {cache cache' : RuleCache} {c e : Context} {turns : List (Turn Bool)}

theorem message_settle {α : Type} (phase : FaultPhase) (turn : Turn α) (c : Context) :
    (turn.settle errorField pipeline stage phase c).message =
      c.message.noteFaults errorField (turn.fault? pipeline stage phase).toList := by
  rw [Turn.settle, Turn.fault?]
  cases turn.outcome with
  | ok a => rfl
  | error error => cases errorField <;> rfl

/-- Every condition is judged on the message that was there before all of them, with the entries of
the faults that the conditions before it had. -/
theorem Judges.on_entry (h : Judges errorField pipeline stage rules cache c turns cache' e)
    (hreads : ∀ r ∈ known, OnlyReads r.condition.evalCondition) (sound : KeysSound known)
    (hrules : ∀ r ∈ rules, r ∈ known) (hcache : Faithful known cache) :
    turns.map (·.rule) = rules ∧ ∀ before turn after, turns = before ++ turn :: after →
      turn.outcome = turn.rule.verdict (c.message.noteFaults errorField
        (before.filterMap (Turn.fault? pipeline stage .condition))) := by
  induction h with
  | done cache c => exact ⟨rfl, by simp⟩
  | @next rule rest cache cache' c d e turn turns hrule hbody hrun hrest ih =>
    obtain ⟨hknown, hothers⟩ := List.forall_mem_cons.mp hrules
    obtain ⟨hruns, hkept⟩ := bodyOf_runs sound hknown cache hcache
    rw [hbody, (hruns c).1, Rule.runOn_condition (hreads rule hknown)] at hrun
    obtain ⟨houtcome, rfl⟩ := Prod.mk.inj hrun
    obtain ⟨hsame, hturns⟩ := ih hothers hkept
    refine ⟨by rw [List.map_cons, hrule, hsame], fun before t after hsplit => ?_⟩
    cases before with
    | nil =>
      obtain ⟨rfl, -⟩ := List.cons.inj hsplit
      rw [hrule]
      exact houtcome.symm
    | cons first before =>
      obtain ⟨rfl, hsplit'⟩ := List.cons.inj hsplit
      rw [hturns before t after hsplit', message_settle, ← Message.noteFaults_append,
        List.filterMap_cons]
      cases turn.fault? pipeline stage .condition with
      | none => rfl
      | some fault => rfl

/-- If no condition can tell what is noted of faults, each is judged as if it stood alone. -/
theorem Judges.alone (h : Judges errorField pipeline stage rules cache c turns cache' e)
    (hreads : ∀ r ∈ known, OnlyReads r.condition.evalCondition) (sound : KeysSound known)
    (hrules : ∀ r ∈ rules, r ∈ known) (hcache : Faithful known cache)
    (hblind : BlindToFaults errorField rules c.message) :
    ∀ turn ∈ turns, turn.outcome = turn.rule.verdict c.message := by
  obtain ⟨hsame, hentry⟩ := h.on_entry hreads sound hrules hcache
  -- Along the turns: faults so far are faults on the message that entered, so they cannot be told.
  have halong (before after : List (Turn Bool)) (hsplit : turns = before ++ after) :
      ∀ turn ∈ before, turn.outcome = turn.rule.verdict c.message := by
    induction before using List.reverseRecOn generalizing after with
    | nil => simp
    | append_singleton before turn ih =>
      rw [List.append_assoc] at hsplit
      have hbefore := ih _ hsplit
      have hrule (t : Turn Bool) (ht : t ∈ turns) : t.rule ∈ rules :=
        hsame ▸ List.mem_map_of_mem ht
      have hturn : turn.outcome = turn.rule.verdict c.message := by
        rw [hentry before turn after hsplit]
        refine hblind turn.rule (hrule turn (by simp [hsplit])) _ fun fault hfault => ?_
        obtain ⟨t, ht, hfault⟩ := List.mem_filterMap.mp hfault
        refine ⟨t.rule, hrule t (by simp [hsplit, ht]), ?_⟩
        rw [Turn.fault?] at hfault
        rw [← hbefore t ht]
        split at hfault
        · cases hfault
        · next error herror =>
          cases hfault
          exact ⟨herror, rfl⟩
      exact fun t ht => (List.mem_append.mp ht).elim (hbefore t) fun ht =>
        List.mem_singleton.mp ht ▸ hturn
  exact halong turns [] (List.append_nil turns).symm

theorem rules_matchedOf {m : Message}
    (h : ∀ turn ∈ turns, turn.outcome = turn.rule.verdict m) :
    (matchedOf turns).map (·.rule) = (turns.map (·.rule)).filter (Rule.holdsOn · m) := by
  rw [List.filter_map, matchedOf, List.map_map]
  refine congrArg (List.map _) (List.filter_congr fun turn hturn => ?_)
  rw [Turn.isSatisfied, h turn hturn]
  rfl

/-- What matches then is what matches the message that entered. -/
theorem rules_judge (hreads : ∀ r ∈ known, OnlyReads r.condition.evalCondition)
    (sound : KeysSound known) (hrules : ∀ r ∈ rules, r ∈ known) (hcache : Faithful known cache)
    (hblind : BlindToFaults errorField rules c.message) :
    (judge errorField pipeline stage rules cache c).matched.map (·.rule) =
      rules.filter (Rule.holdsOn · c.message) := by
  obtain ⟨turns, hjudges, hmatched⟩ := judge_judges errorField pipeline stage rules cache c
  rw [hmatched, rules_matchedOf (hjudges.alone hreads sound hrules hcache hblind),
    (hjudges.on_entry hreads sound hrules hcache).1]

end Run

namespace Deployment

open Run

variable {ruleSources pipelineSources : List SourceUnit} {generation : Nat} {d : Deployment}

/-- In whatever order the rules of a stage are judged, each condition is judged on the message that
entered the stage, with the entries of the faults that the conditions before it had in the field
that collects them. So where there is no such field, or no condition fails, or none can tell such
entries, every order matches the same rules and the policy of the stage decides alike. The caches
may hold whatever has been compiled of the rules of the deployment. -/
theorem matched_perm
    (hbuild : build ruleSources pipelineSources (.builtin generation) = .ok d)
    (hbodies : ∀ r ∈ d.stageRules, ∀ r' ∈ d.stageRules,
      r.fingerprint = r'.fingerprint → r.body = r'.body)
    (config : Config) {p : Pipeline} (hp : p ∈ d.pipelines.values) {s : Stage} (hs : s ∈ p.stages)
    {rules : List Rule} (hperm : rules.Perm s.rules) {a b : RuleCache}
    (ha : a.Faithful d.stageRules) (hb : b.Faithful d.stageRules) (c : Context) :
    let written := judge config.errorField p.name s.number s.rules a c
    let permuted := judge config.errorField p.name s.number rules b c
    (∃ turns, Judges config.errorField p.name s.number rules b c turns permuted.cache
          permuted.context ∧
        permuted.matched = matchedOf turns ∧ turns.map (·.rule) = rules ∧
        ∀ before turn after, turns = before ++ turn :: after →
          turn.outcome = turn.rule.verdict (c.message.noteFaults config.errorField
            (before.filterMap (Turn.fault? p.name s.number .condition)))) ∧
      ((config.errorField = none ∨ (∀ r ∈ s.rules, ∃ flag, r.verdict c.message = .ok flag) ∨
          BlindToFaults config.errorField s.rules c.message) →
        (permuted.matched.map (·.rule)).Perm (written.matched.map (·.rule)) ∧
          s.policy.satisfied permuted.matched.length rules.length =
            s.policy.satisfied written.matched.length s.rules.length) := by
  intro written permuted
  have hreads : ∀ r ∈ d.stageRules, OnlyReads r.condition.evalCondition :=
    fun r hr => (accepted_of_build hbuild r hr).condition.accepted.onlyReads_condition
  have hsound : KeysSound d.stageRules := keysSound_of_build hbuild hbodies
  have hknown : ∀ r ∈ s.rules, r ∈ d.stageRules :=
    fun r hr => List.mem_flatMap.mpr ⟨p, hp, List.mem_flatMap.mpr ⟨s, hs, hr⟩⟩
  have hknown' : ∀ r ∈ rules, r ∈ d.stageRules := fun r hr => hknown r (hperm.mem_iff.mp hr)
  obtain ⟨turns, hjudges, hmatched⟩ :=
    judge_judges config.errorField p.name s.number rules b c
  refine ⟨⟨turns, hjudges, hmatched, hjudges.on_entry hreads hsound hknown' hb⟩, fun hcase => ?_⟩
  have hblind : BlindToFaults config.errorField s.rules c.message := by
    obtain hnone | hok | hblind := hcase
    · rw [hnone]
      exact blindToFaults_none s.rules c.message
    · exact blindToFaults_of_ok hok
    · exact hblind
  have hsame : (permuted.matched.map (·.rule)).Perm (written.matched.map (·.rule)) := by
    rw [rules_judge hreads hsound hknown ha hblind,
      rules_judge hreads hsound hknown' hb (hblind.perm hperm)]
    exact hperm.filter _
  have hlength := hsame.length_eq
  rw [List.length_map, List.length_map] at hlength
  exact ⟨hsame, by rw [hlength, hperm.length_eq]⟩

end Deployment

/-- A rule whose condition fails, and one that asks for the field in which faults are collected. -/
def alarmSources : List SourceUnit :=
  [⟨"rules", "rule \"guard\" when 1 / 0 > 0 then end
      rule \"watch\" when has_field(\"processing_error\") then end"⟩,
    ⟨"pipelines", "pipeline \"p\" stage 0 match either rule \"guard\"; rule \"watch\"; end"⟩]

theorem alarmSources_isSome :
    (Deployment.build alarmSources [] (.builtin 0)).toOption.isSome = true := by
  decide +kernel

def alarmDeployment : Deployment :=
  (Deployment.build alarmSources [] (.builtin 0)).toOption.get alarmSources_isSome

/-- Settings under which faults are not noted in the message. -/
def silentConfig : Config := { Config.standard with errorField := none }

theorem Deployment.matched_perm_alarmDeployment :
    ∃ p ∈ alarmDeployment.pipelines.values, ∃ s ∈ p.stages, s.rules.length = 2 ∧
      let judged (rules : List Rule) := Run.judge silentConfig.errorField p.name s.number rules
        (.empty 64 true 1) (.start (.empty .nil .epoch))
      ((judged s.rules.reverse).matched.map (·.rule)).Perm
          ((judged s.rules).matched.map (·.rule)) ∧
        s.policy.satisfied (judged s.rules.reverse).matched.length s.rules.reverse.length =
          s.policy.satisfied (judged s.rules).matched.length s.rules.length := by
  have hbuild : build alarmSources [] (.builtin 0) = .ok alarmDeployment :=
    eq_ok_of_isSome alarmSources_isSome
  have hbodies : ∀ r ∈ alarmDeployment.stageRules, ∀ r' ∈ alarmDeployment.stageRules,
      r.fingerprint = r'.fingerprint → r.body = r'.body := by decide +kernel
  obtain ⟨p, hp, s, hs, hlength⟩ : ∃ p ∈ alarmDeployment.pipelines.values, ∃ s ∈ p.stages,
      s.rules.length = 2 := by decide +kernel
  have hempty : (RuleCache.empty 64 true 1).Faithful alarmDeployment.stageRules :=
    RuleCache.faithful_empty 64 true 1
  exact ⟨p, hp, s, hs, hlength, (matched_perm hbuild hbodies silentConfig hp hs
    s.rules.reverse_perm hempty hempty (.start (.empty .nil .epoch))).2 (.inl rfl)⟩

/-- Which rules of the stage match an empty message when they are judged in an order. -/
def alarmMatches (errorField : Option String) (rules : List Rule) : List String :=
  (Run.judge errorField "p" 0 rules (.empty 64 true 1) (.start (.empty .nil .epoch))).matched.map
    (·.rule.name)

/-- With the standard settings the second rule matches behind the first and not before it. -/
theorem alarm_order_visible :
    alarmDeployment.pipelines.values.map (fun p => (p.name, p.stages.map fun s =>
        (s.number, s.rules.map (·.name)))) = [("p", [(0, ["guard", "watch"])])] ∧
      alarmMatches Config.standard.errorField alarmDeployment.stageRules = ["watch"] ∧
      alarmMatches Config.standard.errorField alarmDeployment.stageRules.reverse = [] := by
  decide +kernel

end LogRules
