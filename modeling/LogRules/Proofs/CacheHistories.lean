import LogRules.Cache
import Mathlib.Data.List.Induction
import Mathlib.Data.List.Nodup

/-!
Histories of one cache: the operations it is given, in order, and the rules that it hands to the
compiler on the way. While a key stays in the cache one rule of it is compiled at most, and what
came of that is the answer to every look-up from then on.
-/
namespace LogRules

/-- What a cache can be asked to do. -/
inductive CacheOp
  | lookup (rule : Rule)
  | warm (rule : Rule)
  | retain (keep : List RuleKey)
  | stats

namespace CacheOp

def looksUp (key : RuleKey) : CacheOp → Bool
  | lookup rule => rule.key == key
  | _ => false

def warms (key : RuleKey) : CacheOp → Bool
  | warm rule => rule.key == key
  | _ => false

def touches (key : RuleKey) (op : CacheOp) : Bool := op.looksUp key || op.warms key

def evicts (key : RuleKey) : CacheOp → Bool
  | retain keep => !keep.contains key
  | _ => false

theorem touches_lookup {key : RuleKey} {rule : Rule} :
    (lookup rule).touches key = true ↔ rule.key = key := by
  simp [touches, looksUp, warms]

theorem touches_warm {key : RuleKey} {rule : Rule} :
    (warm rule).touches key = true ↔ rule.key = key := by
  simp [touches, looksUp, warms]

end CacheOp

/-- The key is touched by one of the operations, and those behind that one do not evict it. -/
def Held (key : RuleKey) (ops : List CacheOp) : Prop :=
  ∃ before op behind, ops = before ++ op :: behind ∧ op.touches key = true ∧
    ∀ later ∈ behind, later.evicts key = false

theorem held_append {key : RuleKey} {ops : List CacheOp} {op : CacheOp} :
    Held key (ops ++ [op]) ↔ op.touches key = true ∨ Held key ops ∧ op.evicts key = false := by
  constructor
  · rintro ⟨before, first, behind, hops, htouches, hkept⟩
    cases behind using List.reverseRecOn with
    | nil =>
      obtain ⟨-, rfl⟩ := List.append_inj_right' hops rfl
      exact .inl htouches
    | append_singleton behind last =>
      rw [← List.cons_append, ← List.append_assoc] at hops
      obtain ⟨rfl, hlast⟩ := List.append_inj' hops rfl
      obtain rfl := List.singleton_inj.mp hlast
      obtain ⟨hbehind, hlast⟩ := List.forall_mem_append.mp hkept
      exact .inr ⟨⟨before, first, behind, rfl, htouches, hbehind⟩, hlast _ List.mem_cons_self⟩
  · rintro (htouches | ⟨⟨before, first, behind, rfl, htouches, hkept⟩, hevicts⟩)
    · exact ⟨ops, op, [], rfl, htouches, by simp⟩
    · refine ⟨before, first, behind ++ [op], by simp, htouches, ?_⟩
      exact List.forall_mem_append.mpr ⟨hkept, by simpa using hevicts⟩

namespace CacheEntry

/-- The entry with an outcome: the one it has, or that of compiling the rule. -/
def settle (limit : Nat) (rule : Rule) (entry : CacheEntry) : CacheEntry :=
  { entry with outcome := some (entry.outcome.getD (rule.compile limit).toOption) }

/-- The entry behind one more look-up. -/
def use (limit threshold : Nat) (rule : Rule) (entry : CacheEntry) : CacheEntry :=
  let used := { entry with uses := entry.uses + 1 }
  if used.uses ≤ threshold then used else used.settle limit rule

theorem use_of_lt {limit threshold : Nat} {rule : Rule} {entry : CacheEntry}
    (h : threshold < entry.uses + 1) : entry.use limit threshold rule =
      { entry with uses := entry.uses + 1 }.settle limit rule :=
  if_neg (Nat.not_le.mpr h)

theorem use_of_le {limit threshold : Nat} {rule : Rule} {entry : CacheEntry}
    (h : entry.uses + 1 ≤ threshold) : entry.use limit threshold rule =
      { entry with uses := entry.uses + 1 } :=
  if_pos h

/-- The rule has to be compiled if the entry has no outcome yet. -/
def compiled (rule : Rule) (entry : CacheEntry) : List Rule :=
  if entry.outcome.isNone then [rule] else []

/-- The outcome of the entry is that of the only compilation there was, if there was one. -/
structure Remembers (limit : Nat) (entry : CacheEntry) (runs : List Rule) : Prop where
  once : runs.length ≤ 1
  outcome : entry.outcome = runs.head?.map fun rule => (rule.compile limit).toOption

theorem Remembers.settle {limit : Nat} {entry : CacheEntry} {runs : List Rule}
    (h : Remembers limit entry runs) (rule : Rule) :
    Remembers limit (entry.settle limit rule) (runs ++ entry.compiled rule) ∧
      runs ++ entry.compiled rule ≠ [] := by
  obtain ⟨honce, houtcome⟩ := h
  cases runs with
  | nil =>
    rw [List.head?_nil, Option.map_none] at houtcome
    have hcompiled : entry.compiled rule = [rule] := by simp [compiled, houtcome]
    rw [hcompiled]
    exact ⟨⟨Nat.le_refl 1, by rw [CacheEntry.settle, houtcome]; rfl⟩, by simp⟩
  | cons first rest =>
    rw [List.head?_cons, Option.map_some] at houtcome
    have hcompiled : entry.compiled rule = [] := by simp [compiled, houtcome]
    rw [hcompiled, List.append_nil]
    exact ⟨⟨honce, by rw [CacheEntry.settle, houtcome]; rfl⟩, by simp⟩

end CacheEntry

namespace RuleCache

section Operations

variable (cache : RuleCache)

/-- The cache behind an operation. -/
def perform : CacheOp → RuleCache
  | .lookup rule => (cache.lookup rule).2
  | .warm rule => (cache.warm rule).2
  | .retain keep => cache.retain keep
  | .stats => cache

/-- The cache behind operations. -/
def after (ops : List CacheOp) : RuleCache := ops.foldl perform cache

/-- The rules that an operation hands to the compiler. -/
def compiled : CacheOp → List Rule
  | .lookup rule =>
    let entry := cache.entry rule.key
    if cache.enabled && cache.threshold < entry.uses + 1 then entry.compiled rule else []
  | .warm rule => if cache.enabled then (cache.entry rule.key).compiled rule else []
  | .retain _ | .stats => []

/-- The rules that operations hand to the compiler, in order. -/
def compiledBy : RuleCache → List CacheOp → List Rule
  | _, [] => []
  | cache, op :: rest => cache.compiled op ++ compiledBy (cache.perform op) rest

/-- Those of them that have the key. -/
def runs (key : RuleKey) (ops : List CacheOp) : List Rule :=
  (cache.compiledBy ops).filter (·.key = key)

def keys : List RuleKey := cache.entries.map (·.1)

theorem after_append (ops others : List CacheOp) :
    cache.after (ops ++ others) = (cache.after ops).after others :=
  List.foldl_append

theorem compiledBy_append (ops : List CacheOp) (op : CacheOp) :
    cache.compiledBy (ops ++ [op]) = cache.compiledBy ops ++ (cache.after ops).compiled op := by
  induction ops generalizing cache with
  | nil => simp [compiledBy, after]
  | cons first rest ih =>
    rw [List.cons_append, compiledBy, compiledBy, ih, List.append_assoc]
    rfl

theorem runs_append (key : RuleKey) (ops : List CacheOp) (op : CacheOp) :
    cache.runs key (ops ++ [op]) =
      cache.runs key ops ++ ((cache.after ops).compiled op).filter (·.key = key) := by
  rw [runs, runs, compiledBy_append, List.filter_append]

end Operations

section Entries

variable {cache : RuleCache} {key k : RuleKey} {e : CacheEntry} {rule : Rule}

theorem entry_eq (cache : RuleCache) (key : RuleKey) :
    cache.entry key = ((cache.entries.find? (·.1 == key)).map (·.2)).getD ⟨0, none⟩ := by
  rw [entry]
  cases cache.entries.find? (·.1 == key) <;> rfl

theorem find?_put (entries : List (RuleKey × CacheEntry)) :
    (put key e entries).find? (·.1 == k) =
      if key = k then some (key, e) else entries.find? (·.1 == k) := by
  induction entries with
  | nil => by_cases h : key = k <;> simp [put, h]
  | cons first rest ih =>
    obtain ⟨other, found⟩ := first
    rw [put]
    by_cases hother : other = key
    · by_cases h : key = k <;> simp [hother, h]
    · rw [if_neg hother]
      by_cases hk : other = k
      · have hkey : key ≠ k := fun h => hother (hk.trans h.symm)
        simp [hk, hkey]
      · simp [hk, ih]

theorem entry_setEntry :
    (cache.setEntry key e).entry k = if key = k then e else cache.entry k := by
  rw [entry_eq, entry_eq, setEntry, find?_put]
  split <;> rfl

theorem map_fst_put (entries : List (RuleKey × CacheEntry)) :
    (put key e entries).map (·.1) =
      if key ∈ entries.map (·.1) then entries.map (·.1) else entries.map (·.1) ++ [key] := by
  induction entries with
  | nil => simp [put]
  | cons first rest ih =>
    rw [put]
    split
    · next hfirst => simp [hfirst]
    · next hfirst =>
      rw [List.map_cons, ih]
      by_cases hmem : key ∈ rest.map (·.1) <;> simp_all [eq_comm]

theorem mem_keys_setEntry : k ∈ (cache.setEntry key e).keys ↔ k = key ∨ k ∈ cache.keys := by
  rw [keys, setEntry, map_fst_put]
  split
  · next hmem =>
    exact ⟨.inr, fun h => h.elim (· ▸ hmem) id⟩
  · rw [List.mem_append, List.mem_singleton, or_comm]
    rfl

theorem nodup_setEntry (h : cache.keys.Nodup) : (cache.setEntry key e).keys.Nodup := by
  rw [keys, setEntry, map_fst_put]
  split
  · exact h
  · next hmem => exact h.append (List.nodup_singleton _) (List.disjoint_singleton.mpr hmem)

theorem mem_keys_retain {keep : List RuleKey} :
    key ∈ (cache.retain keep).keys ↔ key ∈ cache.keys ∧ key ∈ keep := by
  simp only [keys, retain, List.mem_map, List.mem_filter, List.contains_iff_mem]
  constructor
  · rintro ⟨entry, ⟨hentry, hkeep⟩, rfl⟩
    exact ⟨⟨entry, hentry, rfl⟩, hkeep⟩
  · rintro ⟨⟨entry, hentry, rfl⟩, hkeep⟩
    exact ⟨entry, ⟨hentry, hkeep⟩, rfl⟩

theorem nodup_retain (h : cache.keys.Nodup) (keep : List RuleKey) :
    (cache.retain keep).keys.Nodup :=
  h.sublist (List.filter_sublist.map _)

theorem entry_retain {keep : List RuleKey} (h : key ∈ keep) :
    (cache.retain keep).entry key = cache.entry key := by
  have hfind : (cache.retain keep).entries.find? (·.1 == key) =
      cache.entries.find? (·.1 == key) := by
    rw [retain, List.find?_filter]
    congr 1
    funext entry
    by_cases hkey : entry.1 = key <;> simp [hkey, h]
  rw [entry_eq, entry_eq, hfind]

theorem entry_of_not_mem (h : key ∉ cache.keys) : cache.entry key = ⟨0, none⟩ := by
  have hfind : cache.entries.find? (·.1 == key) = none := by
    rw [List.find?_eq_none]
    intro entry hentry hkey
    exact h (List.mem_map.mpr ⟨entry, hentry, by simpa using hkey⟩)
  rw [entry_eq, hfind]
  rfl

end Entries

/-- An enabled cache with these settings. -/
structure Has (limit threshold : Nat) (cache : RuleCache) : Prop where
  depthLimit : cache.depthLimit = limit
  enabled : cache.enabled = true
  threshold : cache.threshold = threshold

/-- Whether the compiler takes the rule. -/
def takes (limit : Nat) (rule : Rule) : Bool := (rule.compile limit).isOk

/-- The cache with another entry for a key, and with the rules counted that were compiled for it. -/
def record (cache : RuleCache) (key : RuleKey) (e : CacheEntry) (compiled : List Rule) :
    RuleCache :=
  { cache.setEntry key e with
    compilations := cache.compilations + compiled.countP (takes cache.depthLimit)
    failures := cache.failures + compiled.countP (!takes cache.depthLimit ·) }

section Steps

variable {limit threshold : Nat} {cache : RuleCache} {key : RuleKey} {rule : Rule} {op : CacheOp}

theorem settle_eq (cache : RuleCache) (rule : Rule) (e : CacheEntry) : cache.settle rule e =
    ((e.settle cache.depthLimit rule).outcome.join,
      cache.record rule.key (e.settle cache.depthLimit rule) (e.compiled rule)) := by
  obtain ⟨uses, outcome⟩ := e
  cases outcome with
  | some outcome => rfl
  | none =>
    rw [settle, record, CacheEntry.settle, CacheEntry.compiled]
    cases hrule : rule.compile cache.depthLimit with
    | ok code => simp [takes, hrule, Except.toOption, Except.isOk, Except.toBool, setEntry]
    | error error => simp [takes, hrule, Except.toOption, Except.isOk, Except.toBool, setEntry]

/-- An enabled cache uses the entry of a rule that is looked up. -/
theorem lookup_eq (h : cache.Has limit threshold) (rule : Rule) : cache.lookup rule =
    (((cache.entry rule.key).use limit threshold rule).outcome.join,
      cache.record rule.key ((cache.entry rule.key).use limit threshold rule)
        (cache.compiled (.lookup rule))) := by
  rw [lookup, CacheEntry.use, compiled]
  simp only [h.enabled, h.threshold, Bool.not_true, Bool.false_eq_true, if_false, Bool.true_and,
    decide_eq_true_eq]
  split
  · next hfew =>
    rw [if_neg (by omega)]
    rfl
  · next hmany => rw [if_pos (by omega), settle_eq, h.depthLimit]; rfl

theorem warm_eq (h : cache.Has limit threshold) (rule : Rule) : cache.warm rule =
    (((cache.entry rule.key).settle limit rule).outcome.join,
      cache.record rule.key ((cache.entry rule.key).settle limit rule)
        (cache.compiled (.warm rule))) := by
  rw [warm, compiled, h.enabled, settle_eq, h.depthLimit]
  rfl

theorem Has.perform (h : cache.Has limit threshold) (op : CacheOp) :
    (cache.perform op).Has limit threshold := by
  cases op with
  | lookup rule =>
    rw [RuleCache.perform, lookup_eq h]
    exact ⟨h.depthLimit, h.enabled, h.threshold⟩
  | warm rule =>
    rw [RuleCache.perform, warm_eq h]
    exact ⟨h.depthLimit, h.enabled, h.threshold⟩
  | retain | stats => exact ⟨h.depthLimit, h.enabled, h.threshold⟩

theorem Has.after (h : cache.Has limit threshold) (ops : List CacheOp) :
    (cache.after ops).Has limit threshold := by
  induction ops generalizing cache with
  | nil => exact h
  | cons op rest ih => exact ih (h.perform op)

theorem entry_record {k : RuleKey} {e : CacheEntry} {compiled : List Rule} :
    (cache.record k e compiled).entry key = if k = key then e else cache.entry key :=
  entry_setEntry

theorem mem_compiled (h : rule ∈ cache.compiled op) : op = .lookup rule ∨ op = .warm rule := by
  have hmem {other : Rule} {e : CacheEntry} (h : rule ∈ e.compiled other) : rule = other := by
    rw [CacheEntry.compiled] at h
    split at h
    · exact List.mem_singleton.mp h
    · cases h
  cases op with
  | lookup other =>
    simp only [compiled] at h
    split at h
    · exact .inl (by rw [hmem h])
    · cases h
  | warm other =>
    simp only [compiled] at h
    split at h
    · exact .inr (by rw [hmem h])
    · cases h
  | retain | stats => cases h

/-- An operation on other keys leaves the entry of a key alone. -/
theorem entry_perform (h : cache.Has limit threshold) (htouches : op.touches key = false)
    (hevicts : op.evicts key = false) : (cache.perform op).entry key = cache.entry key := by
  cases op with
  | lookup rule =>
    rw [perform, lookup_eq h, entry_record, if_neg]
    exact fun hkey => by simp [CacheOp.touches_lookup.mpr hkey] at htouches
  | warm rule =>
    rw [perform, warm_eq h, entry_record, if_neg]
    exact fun hkey => by simp [CacheOp.touches_warm.mpr hkey] at htouches
  | retain keep =>
    exact entry_retain (by simpa [CacheOp.evicts] using hevicts)
  | stats => rfl

theorem compiled_untouched (htouches : op.touches key = false) :
    (cache.compiled op).filter (·.key = key) = [] := by
  rw [List.filter_eq_nil_iff]
  intro rule hrule hkey
  rw [decide_eq_true_eq] at hkey
  obtain rfl | rfl := mem_compiled hrule
  · simp [CacheOp.touches_lookup.mpr hkey] at htouches
  · simp [CacheOp.touches_warm.mpr hkey] at htouches

theorem compiled_touched (hop : op = .lookup rule ∨ op = .warm rule) :
    (cache.compiled op).filter (·.key = rule.key) = cache.compiled op := by
  rw [List.filter_eq_self]
  intro other hother
  rw [decide_eq_true_eq]
  obtain rfl | rfl := hop
  · obtain hsame | hsame := mem_compiled hother <;> cases hsame
    rfl
  · obtain hsame | hsame := mem_compiled hother <;> cases hsame
    rfl

/-- How often the key is looked up. -/
def lookups (key : RuleKey) (ops : List CacheOp) : Nat := ops.countP (·.looksUp key)

/-- A rule of the key has to be compiled: the key is looked up more often than the threshold, or
one of the operations does not wait for that. -/
def Due (threshold : Nat) (key : RuleKey) (ops : List CacheOp) : Prop :=
  threshold < lookups key ops ∨ ∃ op ∈ ops, op.warms key = true

theorem lookups_append (ops : List CacheOp) (op : CacheOp) :
    lookups key (ops ++ [op]) = lookups key ops + if op.looksUp key then 1 else 0 := by
  rw [lookups, List.countP_append, List.countP_singleton]
  rfl

theorem due_append {ops : List CacheOp} : Due threshold key (ops ++ [op]) ↔
    Due threshold key ops ∨ op.warms key = true ∨
      op.looksUp key = true ∧ threshold < lookups key ops + 1 := by
  simp only [Due, lookups_append, List.mem_append, List.mem_singleton, or_and_right, exists_or,
    exists_eq_left]
  by_cases hlooks : op.looksUp key = true
  · simp only [hlooks, if_true, true_and]
    constructor
    · rintro (h | h | h)
      · exact .inr (.inr h)
      · exact .inl (.inr h)
      · exact .inr (.inl h)
    · rintro ((h | h) | h | h)
      · exact .inl (by omega)
      · exact .inr (.inl h)
      · exact .inr (.inr h)
      · exact .inl h
  · simp [hlooks, or_assoc]

/-- What the cache knows of a key behind operations: how often it was looked up, and the outcome of
the one compilation once it was due. -/
structure Tracks (limit threshold : Nat) (key : RuleKey) (cache : RuleCache) (ops : List CacheOp) :
    Prop where
  uses : ((cache.after ops).entry key).uses = lookups key ops
  remembers : ((cache.after ops).entry key).Remembers limit (cache.runs key ops)
  due : cache.runs key ops ≠ [] ↔ Due threshold key ops

variable {ops : List CacheOp}

theorem Tracks.lookup (h : cache.Has limit threshold)
    (ht : Tracks limit threshold rule.key cache ops) :
    Tracks limit threshold rule.key cache (ops ++ [.lookup rule]) := by
  have hafter := h.after ops
  have hentry : ((cache.after (ops ++ [.lookup rule])).entry rule.key) =
      ((cache.after ops).entry rule.key).use limit threshold rule := by
    rw [after_append]
    change ((cache.after ops).lookup rule).2.entry rule.key = _
    rw [lookup_eq hafter, entry_record, if_pos rfl]
  have hlookups : lookups rule.key (ops ++ [.lookup rule]) = lookups rule.key ops + 1 := by
    simp [lookups_append, CacheOp.looksUp]
  have hdue : Due threshold rule.key (ops ++ [.lookup rule]) ↔
      Due threshold rule.key ops ∨ threshold < lookups rule.key ops + 1 := by
    simp [due_append, CacheOp.looksUp, CacheOp.warms]
  have hruns : cache.runs rule.key (ops ++ [.lookup rule]) =
      cache.runs rule.key ops ++ (cache.after ops).compiled (.lookup rule) := by
    rw [runs_append, compiled_touched (.inl rfl)]
  rw [compiled, hafter.enabled, hafter.threshold, ht.uses, Bool.true_and] at hruns
  by_cases hmany : threshold < lookups rule.key ops + 1
  · simp only [hmany, decide_true, if_true] at hruns
    have hused : CacheEntry.Remembers limit
        { (cache.after ops).entry rule.key with
          uses := ((cache.after ops).entry rule.key).uses + 1 } (cache.runs rule.key ops) :=
      ⟨ht.remembers.once, ht.remembers.outcome⟩
    obtain ⟨hsettled, hne⟩ := hused.settle rule
    rw [CacheEntry.use_of_lt (by rwa [ht.uses])] at hentry
    refine ⟨by rw [hentry, hlookups, ← ht.uses]; rfl, ?_, ?_⟩
    · rw [hentry, hruns]
      exact hsettled
    · rw [hruns, hdue]
      exact iff_of_true hne (.inr hmany)
  · simp only [hmany, decide_false, Bool.false_eq_true, if_false, List.append_nil] at hruns
    rw [CacheEntry.use_of_le (by rw [ht.uses]; exact Nat.not_lt.mp hmany)] at hentry
    refine ⟨by rw [hentry, hlookups, ← ht.uses], ?_, ?_⟩
    · rw [hentry, hruns]
      exact ⟨ht.remembers.once, ht.remembers.outcome⟩
    · rw [hruns, hdue, or_iff_left hmany]
      exact ht.due

theorem Tracks.warm (h : cache.Has limit threshold)
    (ht : Tracks limit threshold rule.key cache ops) :
    Tracks limit threshold rule.key cache (ops ++ [.warm rule]) := by
  have hafter := h.after ops
  have hentry : ((cache.after (ops ++ [.warm rule])).entry rule.key) =
      ((cache.after ops).entry rule.key).settle limit rule := by
    rw [after_append]
    change ((cache.after ops).warm rule).2.entry rule.key = _
    rw [warm_eq hafter, entry_record, if_pos rfl]
  have hruns : cache.runs rule.key (ops ++ [.warm rule]) =
      cache.runs rule.key ops ++ ((cache.after ops).entry rule.key).compiled rule := by
    rw [runs_append, compiled_touched (.inr rfl), compiled, hafter.enabled, if_pos rfl]
  obtain ⟨hsettled, hne⟩ := ht.remembers.settle rule
  refine ⟨?_, by rw [hentry, hruns]; exact hsettled, ?_⟩
  · rw [hentry, lookups_append]
    exact ht.uses
  · rw [hruns, due_append]
    exact iff_of_true hne (.inr (.inl (by simp [CacheOp.warms])))

theorem Tracks.other (h : cache.Has limit threshold) (ht : Tracks limit threshold key cache ops)
    (htouches : op.touches key = false) (hevicts : op.evicts key = false) :
    Tracks limit threshold key cache (ops ++ [op]) := by
  have hentry : (cache.after (ops ++ [op])).entry key = (cache.after ops).entry key := by
    rw [after_append]
    exact entry_perform (h.after ops) htouches hevicts
  have hruns : cache.runs key (ops ++ [op]) = cache.runs key ops := by
    rw [runs_append, compiled_untouched htouches, List.append_nil]
  obtain ⟨hlooks, hwarms⟩ := Bool.or_eq_false_iff.mp htouches
  refine ⟨?_, by rw [hentry, hruns]; exact ht.remembers, ?_⟩
  · rw [hentry, lookups_append, hlooks]
    exact ht.uses
  · rw [hruns, due_append, hlooks, hwarms]
    simpa using ht.due

/-- From the moment on in which a key is not in the cache, it is tracked until it is evicted. -/
theorem tracks_of_absent (h : cache.Has limit threshold) (hkey : key ∉ cache.keys)
    (hkept : ∀ op ∈ ops, op.evicts key = false) : Tracks limit threshold key cache ops := by
  induction ops using List.reverseRecOn with
  | nil =>
    have hentry : (cache.after []).entry key = ⟨0, none⟩ := entry_of_not_mem hkey
    refine ⟨by rw [hentry]; rfl, ⟨Nat.zero_le 1, by rw [hentry]; rfl⟩, ?_⟩
    exact iff_of_false (fun h => h rfl) (by simp [Due, lookups])
  | append_singleton ops op ih =>
    obtain ⟨hkept, hop⟩ := List.forall_mem_append.mp hkept
    have ht := ih hkept
    have hevicts := hop op List.mem_cons_self
    cases htouches : op.touches key with
    | false => exact ht.other h htouches hevicts
    | true =>
      cases op with
      | lookup rule =>
        obtain rfl := CacheOp.touches_lookup.mp htouches
        exact ht.lookup h
      | warm rule =>
        obtain rfl := CacheOp.touches_warm.mp htouches
        exact ht.warm h
      | retain | stats => cases htouches

end Steps

end RuleCache

end LogRules
