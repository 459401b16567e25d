import LogRules.Proofs.History
import LogRules.Proofs.RelatedRuns

/-!
The cache of compiled rules cannot be seen from outside: whatever was looked up, compiled, kept or
forgotten before, a run shows what interpreting every rule would show.
-/
namespace LogRules

/-- Among the given rules a key stands for one behaviour. -/
def KeysSound (rules : List Rule) : Prop :=
  ∀ r ∈ rules, ∀ s ∈ rules, r.key = s.key → r.Alike s

namespace RuleCache

variable {known : List Rule} {cache : RuleCache} {rule : Rule}

/-- Every compiled form in the cache has a property, which may depend on the key. -/
def Keeps (P : RuleKey → CompiledRule → Prop) (cache : RuleCache) : Prop :=
  ∀ key entry code, (key, entry) ∈ cache.entries → entry.outcome = some (some code) → P key code

section Kept

variable {P : RuleKey → CompiledRule → Prop}

theorem keeps_empty (depthLimit : Nat) (enabled : Bool) (threshold : Nat) :
    Keeps P (empty depthLimit enabled threshold) := by
  intro key entry code h
  simp [empty] at h

theorem Keeps.retain (h : Keeps P cache) (keep : List RuleKey) : Keeps P (cache.retain keep) := by
  intro key entry code hm
  exact h key entry code (List.mem_filter.1 hm).1

theorem Keeps.entry (h : Keeps P cache) (rule : Rule) {code : CompiledRule}
    (hc : (cache.entry rule.key).outcome = some (some code)) : P rule.key code := by
  unfold RuleCache.entry at hc
  split at hc
  · next key found hf =>
    have hk : key = rule.key := by simpa using List.find?_some hf
    exact hk ▸ h key found code (List.mem_of_find?_eq_some hf) hc
  · contradiction

theorem mem_put {key k : RuleKey} {entry e : CacheEntry} {entries : List (RuleKey × CacheEntry)}
    (h : (k, e) ∈ put key entry entries) : (k, e) = (key, entry) ∨ (k, e) ∈ entries := by
  induction entries with
  | nil => simpa [put] using h
  | cons first rest ih =>
    rw [put] at h
    split at h
    · next hk =>
      cases List.mem_cons.1 h with
      | inl h => exact .inl (by rw [h, hk])
      | inr h => exact .inr (List.mem_cons_of_mem _ h)
    · cases List.mem_cons.1 h with
      | inl h => exact .inr (by simp [h])
      | inr h => exact (ih h).imp_right (List.mem_cons_of_mem _)

theorem Keeps.setEntry (h : Keeps P cache) {entry : CacheEntry}
    (he : ∀ code, entry.outcome = some (some code) → P rule.key code) :
    Keeps P (cache.setEntry rule.key entry) := by
  intro key found code hm hc
  cases mem_put hm with
  | inl heq =>
    obtain ⟨rfl, rfl⟩ := Prod.mk.inj heq
    exact he code hc
  | inr hold => exact h key found code hold hc

variable (hmade : ∀ limit code, rule.compile limit = .ok code → P rule.key code)

include hmade

/-- Settling an entry hands out a form with the property. -/
theorem Keeps.settle (h : Keeps P cache) {entry : CacheEntry}
    (he : ∀ code, entry.outcome = some (some code) → P rule.key code) :
    Keeps P (cache.settle rule entry).2 ∧
      ∀ code, (cache.settle rule entry).1 = some code → P rule.key code := by
  unfold RuleCache.settle
  split
  · next outcome ho => exact ⟨h.setEntry he, fun code hc => he code (by rw [ho, ← hc])⟩
  · split
    · next compiled hc =>
      have made : P rule.key compiled := hmade _ compiled hc
      refine ⟨h.setEntry fun code hcode => ?_, fun code hcode => ?_⟩
      · simp only [Option.some.injEq] at hcode
        exact hcode ▸ made
      · simp only [Option.some.injEq] at hcode
        exact hcode ▸ made
    · exact ⟨h.setEntry fun code hcode => by simp at hcode, fun code hcode => by simp at hcode⟩

theorem Keeps.warm (h : Keeps P cache) : Keeps P (cache.warm rule).2 := by
  unfold RuleCache.warm
  split
  · exact h
  · exact (h.settle hmade fun _ => h.entry rule).1

theorem Keeps.lookup (h : Keeps P cache) :
    Keeps P (cache.lookup rule).2 ∧
      ∀ code, (cache.lookup rule).1 = some code → P rule.key code := by
  unfold RuleCache.lookup
  split
  · exact ⟨h, fun code hc => by simp at hc⟩
  · have held : ∀ code, { cache.entry rule.key with
        uses := (cache.entry rule.key).uses + 1 }.outcome = some (some code) → P rule.key code :=
      fun _ => h.entry rule
    dsimp only
    split
    · exact ⟨h.setEntry held, fun code hc => held code (Option.join_eq_some_iff.1 hc)⟩
    · exact h.settle hmade held

end Kept

/-- Every compiled form in the cache was made from a known rule of its key. -/
def Faithful (known : List Rule) (cache : RuleCache) : Prop :=
  ∀ key entry code, (key, entry) ∈ cache.entries → entry.outcome = some (some code) →
    ∃ r ∈ known, r.key = key ∧ (RuleBody.compiled code).Runs r

theorem faithful_empty (depthLimit : Nat) (enabled : Bool) (threshold : Nat) :
    Faithful known (empty depthLimit enabled threshold) := keeps_empty _ _ _

theorem Faithful.retain (h : Faithful known cache) (keep : List RuleKey) :
    Faithful known (cache.retain keep) := Keeps.retain h keep

theorem Faithful.warm (h : Faithful known cache) (hr : rule ∈ known) :
    Faithful known (cache.warm rule).2 :=
  Keeps.warm (fun _ _ hc => ⟨rule, hr, rfl, RuleBody.runs_compiled hc⟩) h

theorem Faithful.lookup (h : Faithful known cache) (hr : rule ∈ known) :
    Faithful known (cache.lookup rule).2 ∧
      ∀ code, (cache.lookup rule).1 = some code →
        ∃ r ∈ known, r.key = rule.key ∧ (RuleBody.compiled code).Runs r :=
  Keeps.lookup (fun _ _ hc => ⟨rule, hr, rfl, RuleBody.runs_compiled hc⟩) h

end RuleCache

namespace Run

open RuleCache

variable {known : List Rule}

/-- The form that a faithful cache gives runs like the rule it is asked for. -/
theorem bodyOf_runs (sound : KeysSound known) {rule : Rule} (hr : rule ∈ known) :
    Serves (Faithful known) rule := by
  intro cache h
  obtain ⟨kept, made⟩ := h.lookup hr
  unfold bodyOf
  split
  · next code next hl =>
    rw [hl] at kept made
    obtain ⟨r, hrk, hkey, hruns⟩ := made code rfl
    exact ⟨hruns.trans (sound r hrk rule hr hkey), kept⟩
  · next next hl =>
    rw [hl] at kept
    exact ⟨RuleBody.runs_interpreted rule, kept⟩

end Run

namespace Engine

open RuleCache

variable {known : List Rule} {a b : Engine}

/-- Two engines with the same rules and the same error field. They may have compiled different
rules, at different times. -/
structure Agrees (known : List Rule) (a b : Engine) : Prop where
  errorField : a.config.errorField = b.config.errorField
  deployment : a.deployment = b.deployment
  installed : ∀ r ∈ b.deployment.stageRules, r ∈ known
  leftCache : RuleCache.Faithful known a.cache
  rightCache : RuleCache.Faithful known b.cache

theorem agrees_new (known : List Rule) {a b : Config} (h : a.errorField = b.errorField) :
    Agrees known (new a) (new b) where
  errorField := h
  deployment := rfl
  installed := by simp [new, Deployment.empty, Deployment.stageRules, Entries.values]
  leftCache := faithful_empty _ _ _
  rightCache := faithful_empty _ _ _

theorem Agrees.install (h : Agrees known a b) {d : Deployment}
    (hd : ∀ r ∈ d.stageRules, r ∈ known) : Agrees known (a.install d) (b.install d) where
  errorField := h.errorField
  deployment := rfl
  installed := hd
  leftCache := h.leftCache.retain _
  rightCache := h.rightCache.retain _

/-- A run shows the same on both engines, and they go on agreeing. -/
theorem Agrees.process (sound : KeysSound known) (h : Agrees known a b) (message : Message)
    (streams names : List String) :
    (a.process message streams names).1 = (b.process message streams names).1 ∧
      Agrees known (a.process message streams names).2 (b.process message streams names).2 := by
  have hrules : ∀ p ∈ names.filterMap b.deployment.pipeline?, ∀ s ∈ p.stages, ∀ r ∈ s.rules,
      r ∈ known := by
    intro p hp s hs r hr
    obtain ⟨name, -, hname⟩ := List.mem_filterMap.1 hp
    exact h.installed r (Deployment.stageRules_of_pipeline hname hs hr)
  have run := Run.runPipelines_agrees b.config.errorField
    (fun p hp s hs r hr => Run.bodyOf_runs sound (hrules p hp s hs r hr)) h.leftCache
    h.rightCache message
  simp only [Engine.process, h.errorField, h.deployment, run.faults, run.names, run.events,
    run.message, true_and]
  exact ⟨h.errorField, rfl, h.installed, run.leftCache, run.rightCache⟩

theorem Agrees.perform (sound : KeysSound known) (h : Agrees known a b) {op : Operation}
    (hop : ∀ r ∈ op.rules, r ∈ known) :
    (a.perform op).1 = (b.perform op).1 ∧ Agrees known (a.perform op).2 (b.perform op).2 := by
  cases op with
  | install d => exact ⟨rfl, h.install hop⟩
  | process message streams names =>
    exact (h.process sound message streams names).imp_left (congrArg some)
  | simulate message streams names =>
    exact (h.process sound message streams names).imp_left (congrArg some)
  | warm rule =>
    have hr : rule ∈ known := hop rule (by simp [Operation.rules])
    exact ⟨rfl, { h with leftCache := h.leftCache.warm hr, rightCache := h.rightCache.warm hr }⟩

theorem Agrees.perform_left (sound : KeysSound known) (h : Agrees known a b) {op : Operation}
    (hop : ∀ r ∈ op.rules, r ∈ known) (extra : op.isEssential = false) :
    Agrees known (a.perform op).2 b := by
  cases op with
  | install d => simp [Operation.isEssential] at extra
  | process message streams names => simp [Operation.isEssential] at extra
  | simulate message streams names =>
    have next := (h.process sound message streams names).2
    exact { h with leftCache := next.leftCache }
  | warm rule =>
    exact { h with leftCache := h.leftCache.warm (hop rule (by simp [Operation.rules])) }

theorem Agrees.answers (sound : KeysSound known) (h : Agrees known a b) (ops : List Operation)
    (hops : ∀ r ∈ ops.flatMap Operation.rules, r ∈ known) : a.answers ops = b.answers ops := by
  induction ops generalizing a b with
  | nil => rfl
  | cons op rest ih =>
    simp only [List.flatMap_cons, List.mem_append] at hops
    obtain ⟨same, next⟩ := h.perform sound fun r hr => hops r (.inl hr)
    rw [Engine.answers, Engine.answers, same, ih next fun r hr => hops r (.inr hr)]

/-- Left of the equation the forecasts and compilations ahead are performed, right of it they are
left out. -/
theorem Agrees.processed_filter (sound : KeysSound known) (h : Agrees known a b)
    (ops : List Operation) (hops : ∀ r ∈ ops.flatMap Operation.rules, r ∈ known) :
    a.processed ops = b.processed (ops.filter Operation.isEssential) := by
  induction ops generalizing a b with
  | nil => rfl
  | cons op rest ih =>
    simp only [List.flatMap_cons, List.mem_append] at hops
    have hop : ∀ r ∈ op.rules, r ∈ known := fun r hr => hops r (.inl hr)
    have hrest : ∀ r ∈ rest.flatMap Operation.rules, r ∈ known := fun r hr => hops r (.inr hr)
    cases op with
    | install d => exact ih (h.install hop) hrest
    | process message streams names =>
      obtain ⟨same, next⟩ := h.process sound message streams names
      simp only [List.filter_cons, Operation.isEssential, if_true, Engine.processed, same,
        ih next hrest]
    | simulate message streams names => exact ih (h.perform_left sound hop rfl) hrest
    | warm rule => exact ih (h.perform_left sound hop rfl) hrest

/-- Where a key stands for one behaviour, an engine answers every history of operations like one
that never compiles, whatever the other settings of the two but for the error field. What the runs
over real messages show does not depend on the forecasts and compilations between them. -/
theorem cache_invisible (config other : Config) (hfield : other.errorField = config.errorField)
    (ops : List Operation) (sound : KeysSound (ops.flatMap Operation.rules)) :
    (new config).answers ops = (new { other with compileRules := false }).answers ops ∧
      (new config).processed ops =
        (new config).processed (ops.filter Operation.isEssential) := by
  have plain : Agrees (ops.flatMap Operation.rules) (new config)
      (new { other with compileRules := false }) := agrees_new _ hfield.symm
  have self : Agrees (ops.flatMap Operation.rules) (new config) (new config) := agrees_new _ rfl
  exact ⟨plain.answers sound ops fun _ h => h, self.processed_filter sound ops fun _ h => h⟩

/-- Two rules of one body under different names, and a third that calls a function. -/
def sharedBody (name : String) : Rule :=
  ⟨name, .ofValue .nowhere (.boolean true),
    [.bind "x" .long (.ofValue .nowhere (.long 1)) .nowhere], .nowhere⟩

def failingCall : Rule :=
  ⟨"c", .ofValue .nowhere (.boolean true),
    [.perform (.call ⟨.any, .nowhere⟩ "f" .unresolved [] false false)], .nowhere⟩

def sharedDeployment : Deployment :=
  ⟨[], [("p", ⟨"p", [⟨0, .all, [], [sharedBody "a", sharedBody "b", failingCall], .nowhere⟩],
    .nowhere⟩)]⟩

def sharedHistory : List Operation :=
  let m := Message.empty .nil .epoch
  [.warm failingCall, .install sharedDeployment, .simulate m [] ["p"], .process m [] ["p"],
    .install .empty, .warm (sharedBody "b"), .install sharedDeployment, .process m [] ["p"]]

theorem keysSound_sharedHistory : KeysSound (sharedHistory.flatMap Operation.rules) := by
  have hmem : ∀ r ∈ sharedHistory.flatMap Operation.rules,
      r = failingCall ∨ ∃ name, r = sharedBody name := by
    intro r hr
    simp only [sharedHistory, sharedDeployment, List.flatMap_cons, List.flatMap_nil,
      Operation.rules, Deployment.stageRules, Deployment.empty, Entries.values, List.map_cons,
      List.map_nil, List.append_nil, List.nil_append, List.cons_append, List.mem_cons,
      List.not_mem_nil, or_false] at hr
    obtain rfl | rfl | rfl | rfl | rfl | rfl | rfl | rfl := hr
    all_goals first | exact .inl rfl | exact .inr ⟨_, rfl⟩
  have hcalls : ∀ name, (sharedBody name).key ≠ failingCall.key :=
    fun name h => absurd (congrArg RuleKey.calls h) (by simp [Rule.key, Rule.expressions,
      sharedBody, failingCall, Statement.expression, Expr.calls, Expr.ofValue, Expr.callsEntries])
  intro r hr s hs hkey
  obtain rfl | ⟨n, rfl⟩ := hmem r hr
  · obtain rfl | ⟨m, rfl⟩ := hmem s hs
    · exact fun c => ⟨rfl, rfl⟩
    · exact absurd hkey.symm (hcalls m)
  · obtain rfl | ⟨m, rfl⟩ := hmem s hs
    · exact absurd hkey (hcalls n)
    · exact fun c => ⟨rfl, rfl⟩

theorem cache_invisible_sharedHistory :
    (new .standard).answers sharedHistory = (new .interpretedOnly).answers sharedHistory ∧
      (new .standard).processed sharedHistory =
        (new .standard).processed (sharedHistory.filter Operation.isEssential) :=
  cache_invisible .standard .standard rfl sharedHistory keysSound_sharedHistory

end Engine
end LogRules
