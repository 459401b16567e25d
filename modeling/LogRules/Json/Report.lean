import LogRules.Engine
import LogRules.Json.Diagnostic

/-!
What engines tell of their runs, as JSON.
-/
namespace LogRules

def RuleFault.toJson (f : RuleFault) : JsonText :=
  .object [
    ("pipeline", .ofString f.pipeline),
    ("stage", .ofInt f.stage),
    ("rule", .ofString f.rule),
    ("phase", .ofString f.phase.name),
    ("error", .ofString f.error.message)]

def Report.toJson (r : Report) : JsonText :=
  .object [
    ("faults", .array (r.faults.map RuleFault.toJson)),
    ("dropped", .ofBoolean r.dropped),
    ("pipelines_run", .array (r.pipelinesRun.map .ofString))]

def RuleCache.countsJson (cache : RuleCache) : JsonText :=
  .object [
    ("entries", .ofNat cache.stats.entries),
    ("compilations", .ofNat cache.stats.compilations),
    ("failures", .ofNat cache.stats.failures)]

end LogRules
