import LogRules.Proofs.CacheHistories
import LogRules.Proofs.Evaluations

/-!
The accounts of a cache. Its counters are those of the compilations there were, its entries are the
keys that were touched and not evicted since, and in an engine they belong to what is installed.
-/
namespace LogRules

namespace RuleCache

variable {limit threshold : Nat} {cache : RuleCache} {key : RuleKey} {op : CacheOp}

theorem counts_perform (h : cache.Has limit threshold) (op : CacheOp) :
    (cache.perform op).compilations =
        cache.compilations + (cache.compiled op).countP (takes limit) ∧
      (cache.perform op).failures =
        cache.failures + (cache.compiled op).countP (!takes limit ·) := by
  cases op with
  | lookup rule =>
    rw [perform, lookup_eq h, ← h.depthLimit]
    exact ⟨rfl, rfl⟩
  | warm rule =>
    rw [perform, warm_eq h, ← h.depthLimit]
    exact ⟨rfl, rfl⟩
  | retain | stats => exact ⟨rfl, rfl⟩

/-- The counters go up by the compilations that operations make, as these end. -/
theorem counts_after (h : cache.Has limit threshold) (ops : List CacheOp) :
    (cache.after ops).compilations =
        cache.compilations + (cache.compiledBy ops).countP (takes limit) ∧
      (cache.after ops).failures =
        cache.failures + (cache.compiledBy ops).countP (!takes limit ·) := by
  induction ops generalizing cache with
  | nil => exact ⟨rfl, rfl⟩
  | cons op rest ih =>
    obtain ⟨hcompilations, hfailures⟩ := counts_perform h op
    obtain ⟨hrest, hrestFailures⟩ := ih (h.perform op)
    rw [compiledBy, List.countP_append, List.countP_append, ← Nat.add_assoc, ← Nat.add_assoc,
      ← hcompilations, ← hfailures]
    exact ⟨hrest, hrestFailures⟩

theorem mem_keys_perform (h : cache.Has limit threshold) : key ∈ (cache.perform op).keys ↔
    op.touches key = true ∨ key ∈ cache.keys ∧ op.evicts key = false := by
  cases op with
  | lookup rule =>
    rw [perform, lookup_eq h, CacheOp.touches_lookup, eq_comm]
    exact mem_keys_setEntry.trans (or_congr_right (by simp [CacheOp.evicts]))
  | warm rule =>
    rw [perform, warm_eq h, CacheOp.touches_warm, eq_comm]
    exact mem_keys_setEntry.trans (or_congr_right (by simp [CacheOp.evicts]))
  | retain keep =>
    refine mem_keys_retain.trans ?_
    simp [CacheOp.touches, CacheOp.looksUp, CacheOp.warms, CacheOp.evicts]
  | stats => simp [perform, CacheOp.touches, CacheOp.looksUp, CacheOp.warms, CacheOp.evicts]

theorem nodup_perform (h : cache.Has limit threshold) (hnodup : cache.keys.Nodup) (op : CacheOp) :
    (cache.perform op).keys.Nodup := by
  cases op with
  | lookup rule =>
    rw [perform, lookup_eq h]
    exact nodup_setEntry hnodup
  | warm rule =>
    rw [perform, warm_eq h]
    exact nodup_setEntry hnodup
  | retain keep => exact nodup_retain hnodup keep
  | stats => exact hnodup

theorem has_empty (limit threshold : Nat) :
    (empty limit true threshold).Has limit threshold := ⟨rfl, rfl, rfl⟩

/-- The keys in a cache that starts empty are those that its operations hold, each once. -/
theorem keys_after (limit threshold : Nat) (ops : List CacheOp) :
    ((empty limit true threshold).after ops).keys.Nodup ∧
      ∀ key, key ∈ ((empty limit true threshold).after ops).keys ↔ Held key ops := by
  induction ops using List.reverseRecOn with
  | nil =>
    refine ⟨List.nodup_nil, fun key => iff_of_false List.not_mem_nil ?_⟩
    rintro ⟨before, op, behind, hops, -⟩
    simp at hops
  | append_singleton ops op ih =>
    have hhas := (has_empty limit threshold).after ops
    rw [after_append]
    refine ⟨nodup_perform hhas ih.1 op, fun key => ?_⟩
    rw [held_append, ← ih.2 key]
    exact mem_keys_perform hhas

/-- What becomes of a key that is not in the cache while operations do not evict it. A rule of it is
compiled once at most. A look-up, itself counted, answers nothing until this compilation is due, and
from then on what came of it. -/
structure SettlesOnce (limit threshold : Nat) (key : RuleKey) (cache : RuleCache)
    (ops : List CacheOp) : Prop where
  once : (cache.runs key ops).length ≤ 1
  interpreted : ∀ rule : Rule, rule.key = key →
    ¬Due threshold key (ops ++ [.lookup rule]) → ((cache.after ops).lookup rule).1 = none
  remembered : ∀ rule : Rule, rule.key = key → Due threshold key (ops ++ [.lookup rule]) →
    ∃ settler, cache.runs key (ops ++ [.lookup rule]) = [settler] ∧
      ((cache.after ops).lookup rule).1 = (settler.compile limit).toOption

/-- A look-up answers with the outcome that it leaves. -/
theorem lookup_answer (h : cache.Has limit threshold) (ops : List CacheOp) (rule : Rule) :
    ((cache.after ops).lookup rule).1 =
      ((cache.after (ops ++ [.lookup rule])).entry rule.key).outcome.join := by
  have hafter := h.after ops
  rw [after_append]
  change _ = (((cache.after ops).lookup rule).2.entry rule.key).outcome.join
  rw [lookup_eq hafter, entry_record, if_pos rfl]

theorem settlesOnce {ops : List CacheOp} (h : cache.Has limit threshold) (hkey : key ∉ cache.keys)
    (hkept : ∀ op ∈ ops, op.evicts key = false) : SettlesOnce limit threshold key cache ops := by
  have htracks (rule : Rule) : Tracks limit threshold key cache (ops ++ [.lookup rule]) := by
    refine tracks_of_absent h hkey (List.forall_mem_append.mpr ⟨hkept, ?_⟩)
    simp [CacheOp.evicts]
  refine ⟨(tracks_of_absent h hkey hkept).remembers.once, ?_, ?_⟩
  · rintro rule rfl hdue
    have hruns := not_not.mp (mt (htracks rule).due.mp hdue)
    rw [lookup_answer h, (htracks rule).remembers.outcome, hruns]
    rfl
  · rintro rule rfl hdue
    obtain ⟨settler, hsettler⟩ := List.length_eq_one_iff.mp
      ((htracks rule).remembers.once.antisymm
        (List.length_pos_iff.mpr ((htracks rule).due.mpr hdue)))
    refine ⟨settler, hsettler, ?_⟩
    rw [lookup_answer h, (htracks rule).remembers.outcome, hsettler]
    rfl

/-- What the counters of a cache say behind operations. -/
structure Accounts (limit : Nat) (cache : RuleCache) (ops : List CacheOp) : Prop where
  compilations : (cache.after ops).stats.compilations = (cache.compiledBy ops).countP (takes limit)
  failures : (cache.after ops).stats.failures = (cache.compiledBy ops).countP (!takes limit ·)
  total : (cache.after ops).stats.compilations + (cache.after ops).stats.failures =
    (cache.compiledBy ops).length
  grow : ∀ more, (cache.after ops).stats.compilations ≤
      (cache.after (ops ++ more)).stats.compilations ∧
    (cache.after ops).stats.failures ≤ (cache.after (ops ++ more)).stats.failures
  entries : ∃ keys : List RuleKey, keys.Nodup ∧ (∀ key, key ∈ keys ↔ Held key ops) ∧
    (cache.after ops).stats.entries = keys.length

theorem accounts (limit threshold : Nat) (ops : List CacheOp) :
    Accounts limit (empty limit true threshold) ops := by
  have hhas := has_empty limit threshold
  obtain ⟨hcompilations, hfailures⟩ := counts_after hhas ops
  rw [show (empty limit true threshold).compilations = 0 from rfl, Nat.zero_add] at hcompilations
  rw [show (empty limit true threshold).failures = 0 from rfl, Nat.zero_add] at hfailures
  refine ⟨hcompilations, hfailures, ?_, fun more => ?_, ?_⟩
  · rw [stats, hcompilations, hfailures, List.length_eq_countP_add_countP (takes limit)]
    simp
  · rw [after_append]
    obtain ⟨hmore, hmoreFailures⟩ := counts_after (hhas.after ops) more
    exact ⟨Nat.le.intro hmore.symm, Nat.le.intro hmoreFailures.symm⟩
  · obtain ⟨hnodup, hheld⟩ := keys_after limit threshold ops
    exact ⟨_, hnodup, hheld, (List.length_map _).symm⟩

/-- A look-up adds the key of its rule at most. -/
theorem mem_keys_lookup {rule : Rule} (h : key ∈ (cache.lookup rule).2.keys) :
    key = rule.key ∨ key ∈ cache.keys := by
  cases henabled : cache.enabled with
  | false =>
    rw [lookup, henabled] at h
    exact .inr h
  | true =>
    rw [lookup_eq ⟨rfl, henabled, rfl⟩] at h
    exact mem_keys_setEntry.mp h

end RuleCache

theorem Deployment.mem_distinct {keys : List RuleKey} {key : RuleKey} :
    key ∈ distinct keys ↔ key ∈ keys := by
  have hfold (keys found : List RuleKey) : key ∈ keys.foldl
      (fun found key => if found.contains key then found else found ++ [key]) found ↔
        key ∈ found ∨ key ∈ keys := by
    induction keys generalizing found with
    | nil => simp
    | cons first rest ih =>
      rw [List.foldl_cons, ih, List.mem_cons]
      split
      · next hfound =>
        have hmem : first ∈ found := by simpa using hfound
        constructor
        · exact Or.imp_right .inr
        · rintro (h | rfl | h)
          · exact .inl h
          · exact .inl hmem
          · exact .inr h
      · rw [List.mem_append, List.mem_singleton, or_assoc]
  exact (hfold keys []).trans (by simp)

/-- The keys of a deployment are those of the rules that a pipeline can run. -/
theorem Deployment.mem_keys {d : Deployment} {key : RuleKey} :
    key ∈ d.keys ↔ ∃ r ∈ d.stageRules, r.key = key := by
  simp only [keys, stageRules, mem_distinct, List.mem_flatMap, List.mem_map]
  constructor
  · rintro ⟨p, hp, s, hs, r, hr, rfl⟩
    exact ⟨r, ⟨p, hp, s, hs, hr⟩, rfl⟩
  · rintro ⟨r, ⟨p, hp, s, hs, hr⟩, rfl⟩
    exact ⟨p, hp, s, hs, r, hr, rfl⟩

namespace Engine

open RuleCache Run

/-- Cached keys are those of installed rules, and another deployment keeps those that it shares,
with their counts and outcomes. -/
structure CachesInstalled (engine : Engine) : Prop where
  installed : ∀ key ∈ engine.cache.keys, ∃ r ∈ engine.deployment.stageRules, r.key = key
  shared : ∀ d key, key ∈ (engine.install d).cache.keys ↔
    key ∈ engine.cache.keys ∧ ∃ r ∈ d.stageRules, r.key = key
  kept : ∀ d key, key ∈ engine.cache.keys → key ∈ (engine.install d).cache.keys →
    (engine.install d).cache.entry key = engine.cache.entry key

theorem mem_keys_install {engine : Engine} {d : Deployment} {key : RuleKey} :
    key ∈ (engine.install d).cache.keys ↔
      key ∈ engine.cache.keys ∧ ∃ r ∈ d.stageRules, r.key = key := by
  rw [← Deployment.mem_keys]
  exact mem_keys_retain

theorem keys_process {engine : Engine} (message : Message) (streams names : List String)
    (h : ∀ key ∈ engine.cache.keys, ∃ r ∈ engine.deployment.stageRules, r.key = key) :
    ∀ key ∈ (engine.process message streams names).2.cache.keys,
      ∃ r ∈ engine.deployment.stageRules, r.key = key := by
  have hserve (cache : RuleCache) (r : Rule) (hr : r ∈ engine.deployment.stageRules)
      (hcache : ∀ key ∈ cache.keys, ∃ r ∈ engine.deployment.stageRules, r.key = key) :
      True ∧ ∀ key ∈ (bodyOf cache r).2.keys, ∃ r ∈ engine.deployment.stageRules, r.key = key := by
    refine ⟨trivial, fun key hkey => ?_⟩
    have hlookup : (bodyOf cache r).2 = (cache.lookup r).2 := by
      rw [bodyOf]
      split <;> next hl => rw [hl]
    rw [hlookup] at hkey
    obtain rfl | hkey := mem_keys_lookup hkey
    · exact ⟨r, hr, rfl⟩
    · exact hcache key hkey
  have hrules : ∀ p ∈ names.filterMap engine.deployment.pipeline?, ∀ s ∈ p.stages,
      ∀ r ∈ s.rules, r ∈ engine.deployment.stageRules := by
    intro p hp s hs r hr
    obtain ⟨name, -, hname⟩ := List.mem_filterMap.mp hp
    exact Deployment.stageRules_of_pipeline hname hs hr
  exact (runPipelines_formed (T := fun _ => True) engine.config.errorField hserve _ hrules h
    message).1

theorem keys_after {engine : Engine} (ops : List Operation) (hops : ∀ rule, .warm rule ∉ ops)
    (h : ∀ key ∈ engine.cache.keys, ∃ r ∈ engine.deployment.stageRules, r.key = key) :
    ∀ key ∈ (engine.after ops).cache.keys,
      ∃ r ∈ (engine.after ops).deployment.stageRules, r.key = key := by
  induction ops generalizing engine with
  | nil => exact h
  | cons op rest ih =>
    refine ih (fun rule hrule => hops rule (List.mem_cons_of_mem _ hrule)) ?_
    cases op with
    | install d => exact fun key hkey => (mem_keys_install.mp hkey).2
    | process message streams names | simulate message streams names =>
      exact keys_process message streams names h
    | warm rule => exact absurd List.mem_cons_self (hops rule)

theorem cachesInstalled (config : Config) {ops : List Operation}
    (hops : ∀ rule, .warm rule ∉ ops) : ((new config).after ops).CachesInstalled where
  installed := keys_after ops hops (fun _ h => absurd h List.not_mem_nil)
  shared _ _ := mem_keys_install
  kept _ _ _ hkey := entry_retain (Deployment.mem_keys.mpr (mem_keys_install.mp hkey).2)

/-- The accounts of a cache are right over every history. Between the moment a key enters the cache
and its eviction a rule of it is compiled once at most, and look-ups answer nothing before and the
outcome of this compilation afterwards. The counters are those of all compilations, and the entries
are the keys that were looked up or compiled and not evicted since. In an engine that only installs,
processes and simulates they belong to installed rules, and what stays installed keeps them. -/
theorem cache_accounted (limit threshold : Nat) :
    (∀ before during key, key ∉ ((empty limit true threshold).after before).keys →
      (∀ op ∈ during, op.evicts key = false) →
        SettlesOnce limit threshold key ((empty limit true threshold).after before) during) ∧
    (∀ ops, Accounts limit (empty limit true threshold) ops) ∧
    ∀ config ops, (∀ rule, .warm rule ∉ ops) → ((new config).after ops).CachesInstalled := by
  refine ⟨fun before during key hkey hkept => ?_, accounts limit threshold, ?_⟩
  · exact settlesOnce ((has_empty limit threshold).after before) hkey hkept
  · exact fun config ops hops => cachesInstalled config hops

/-- One rule that never matches, in one pipeline. -/
def idleDeployment : Deployment :=
  ⟨[], [("p", ⟨"p", [⟨0, .all, [], [.alwaysFalse "a"], .nowhere⟩], .nowhere⟩)]⟩

/-- Two rules of one key, one look-up without an answer, and a key that has been evicted before. -/
theorem cache_accounted_alwaysFalse :
    let a := Rule.alwaysFalse "a"
    let b := Rule.alwaysFalse "b"
    let cache := (empty 64 true 1).after [.lookup a, .retain []]
    (cache.lookup a).1 = none ∧
      (∃ settler, cache.runs a.key [.lookup a, .lookup b] = [settler] ∧
        ((cache.after [.lookup a]).lookup b).1 = (settler.compile 64).toOption) ∧
      ((new .standard).after
        [.install idleDeployment, .process (.empty .nil .epoch) [] ["p"]]).CachesInstalled := by
  intro a b cache
  have hkey : b.key = a.key := rfl
  have habsent : a.key ∉ cache.keys := fun h => List.not_mem_nil (mem_keys_retain.mp h).2
  obtain ⟨hsettles, -, hengine⟩ := cache_accounted 64 1
  refine ⟨?_, ?_, hengine .standard _ (by simp)⟩
  · refine (hsettles _ [] a.key habsent (by simp)).interpreted a rfl ?_
    simp [Due, lookups, CacheOp.looksUp, CacheOp.warms]
  · refine (hsettles _ [.lookup a] a.key habsent (by simp [CacheOp.evicts])).remembered b hkey ?_
    simp [Due, lookups, CacheOp.looksUp, hkey]

end Engine

end LogRules
