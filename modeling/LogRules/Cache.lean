import LogRules.Compiled

/-!
The cache of compiled rules. A rule is interpreted until it has been looked up more often than a
threshold, and is then compiled once; a compilation that failed is remembered too. Rules of one key
share an entry.
-/
namespace LogRules

/-- What is kept for one key: how often it was looked up, and the outcome of its compilation, once
there was one. -/
structure CacheEntry where
  uses : Nat
  outcome : Option (Option CompiledRule)
deriving Inhabited

/-- What can be seen of a cache: the distinct keys in it, and how its compilations ended. -/
structure CacheStats where
  entries : Nat
  compilations : Nat
  failures : Nat
deriving DecidableEq, Inhabited, Repr

def CacheStats.listing (stats : CacheStats) : String :=
  "CacheStats \x7b entries: " ++ toString stats.entries ++
    ", compilations: " ++ toString stats.compilations ++
    ", failures: " ++ toString stats.failures ++ " \x7d"

structure RuleCache where
  depthLimit : Nat
  enabled : Bool
  threshold : Nat
  entries : List (RuleKey × CacheEntry)
  compilations : Nat
  failures : Nat
deriving Inhabited

namespace RuleCache

def empty (depthLimit : Nat) (enabled : Bool) (threshold : Nat) : RuleCache :=
  ⟨depthLimit, enabled, threshold, [], 0, 0⟩

/-- The entry of a key; a new one has no uses. -/
def entry (cache : RuleCache) (key : RuleKey) : CacheEntry :=
  match cache.entries.find? (·.1 == key) with
  | some (_, found) => found
  | none => ⟨0, none⟩

/-- Replaces the entry of a key in a list, or adds it at the end. -/
def put (key : RuleKey) (entry : CacheEntry) :
    List (RuleKey × CacheEntry) → List (RuleKey × CacheEntry)
  | [] => [(key, entry)]
  | (k, e) :: rest => if k = key then (k, entry) :: rest else (k, e) :: put key entry rest

def setEntry (cache : RuleCache) (key : RuleKey) (entry : CacheEntry) : RuleCache :=
  { cache with entries := put key entry cache.entries }

/-- The remembered outcome of an entry, or a first compilation. -/
def settle (cache : RuleCache) (rule : Rule) (entry : CacheEntry) :
    Option CompiledRule × RuleCache :=
  match entry.outcome with
  | some outcome => (outcome, cache.setEntry rule.key entry)
  | none =>
    match rule.compile cache.depthLimit with
    | .ok compiled =>
      (some compiled,
        { cache.setEntry rule.key { entry with outcome := some (some compiled) } with
          compilations := cache.compilations + 1 })
    | .error _ =>
      (none,
        { cache.setEntry rule.key { entry with outcome := some none } with
          failures := cache.failures + 1 })

/-- The compiled form of a rule, or none if it is to be interpreted. -/
def lookup (cache : RuleCache) (rule : Rule) : Option CompiledRule × RuleCache :=
  if !cache.enabled then (none, cache)
  else
    let entry := cache.entry rule.key
    let used := { entry with uses := entry.uses + 1 }
    if used.uses ≤ cache.threshold then
      (used.outcome.join, cache.setEntry rule.key used)
    else cache.settle rule used

/-- Compiles a rule now, however often it was looked up. -/
def warm (cache : RuleCache) (rule : Rule) : Option CompiledRule × RuleCache :=
  if !cache.enabled then (none, cache) else cache.settle rule (cache.entry rule.key)

def retain (cache : RuleCache) (keep : List RuleKey) : RuleCache :=
  { cache with entries := cache.entries.filter fun (key, _) => keep.contains key }

def stats (cache : RuleCache) : CacheStats :=
  ⟨cache.entries.length, cache.compilations, cache.failures⟩

def booleanText (flag : Bool) : String := if flag then "true" else "false"

def listing (cache : RuleCache) : String :=
  "RuleCache \x7b enabled: " ++ booleanText cache.enabled ++
    ", threshold: " ++ toString cache.threshold ++
    ", stats: " ++ cache.stats.listing ++ " \x7d"

end RuleCache

end LogRules
