import LogRules.Proofs.CacheTransparency
import LogRules.Proofs.Evaluations

/-!
The calls of a run of an engine. Whatever the engine has compiled, an order of states that all calls
of the run respect holds between the start and the end of each of its evaluations.
-/
namespace LogRules

namespace RuleCache

variable {cache : RuleCache} (h : cache.enabled = false) (rule : Rule)

include h

theorem lookup_disabled : cache.lookup rule = (none, cache) := by simp [lookup, h]

theorem warm_disabled : cache.warm rule = (none, cache) := by simp [warm, h]

theorem bodyOf_disabled : Run.bodyOf cache rule = (.interpreted rule, cache) := by
  rw [Run.bodyOf, lookup_disabled h]

end RuleCache

namespace Run

open RuleCache

/-- All compiled forms in the cache were made by compiling rules. -/
def Compiles (cache : RuleCache) : Prop :=
  cache.Keeps fun _ code => ∃ r limit, Rule.compile limit r = .ok code

theorem Compiles.bodyOf {cache : RuleCache} (h : Compiles cache) (rule : Rule) :
    (∃ r, (bodyOf cache rule).1.FormOf r) ∧ Compiles (bodyOf cache rule).2 := by
  obtain ⟨kept, made⟩ := h.lookup fun limit _ hc => ⟨rule, limit, hc⟩
  unfold Run.bodyOf
  split
  · next code next hl =>
    rw [hl] at kept made
    obtain ⟨r, limit, hr⟩ := made code rfl
    exact ⟨⟨r, .compiled hr⟩, kept⟩
  · next next hl =>
    rw [hl] at kept
    exact ⟨⟨rule, .interpreted⟩, kept⟩

end Run

namespace Engine

open Run RuleCache

/-- The evaluations of a run of the engine. -/
def evaluations (engine : Engine) (message : Message) (names : List String) : List Evaluation :=
  Run.evaluations engine.config.errorField (names.filterMap engine.deployment.pipeline?)
    engine.cache message

/-- A run of the engine calls a function, in the first of two states, and the call leaves the
second. -/
def Calls (engine : Engine) (message : Message) (names : List String) (x y : Context) : Prop :=
  ∃ e ∈ engine.evaluations message names, e.Calls x y

variable {config : Config}

theorem deployment_install (config : Config) (d : Deployment) :
    ((new config).after [.install d]).deployment = d := rfl

theorem compiles_after (config : Config) (ops : List Operation) :
    Compiles ((new config).after ops).cache :=
  cache_after (fun _ keep h => h.retain keep) (fun _ r h => h.warm fun limit _ hc => ⟨r, limit, hc⟩)
    (fun _ r h => (h.bodyOf r).2) (keeps_empty _ _ _) ops

/-- What every call of a run respects, every evaluation of the run respects. -/
theorem moves_of_calls {R : Context → Context → Prop} [IsPreorder Context R]
    (hdefine : ∀ c name type value, R c (Context.define c name type value)) (config : Config)
    (ops : List Operation) {message : Message} {names : List String}
    (hcalls : ∀ x y, ((new config).after ops).Calls message names x y → R x y) :
    ∀ e ∈ ((new config).after ops).evaluations message names, R e.context e.left := by
  have hforms := (runPipelines_formed (T := fun body => ∃ r, body.FormOf r)
    (K := fun _ => True) ((new config).after ops).config.errorField
    (fun _ r _ h => Compiles.bodyOf h r)
    (names.filterMap ((new config).after ops).deployment.pipeline?)
    (fun _ _ _ _ _ _ => trivial) (compiles_after config ops) message).2
  exact fun e he => e.moves_left (hforms e he) hdefine fun x y h => hcalls x y ⟨e, he, h⟩

/-- An engine that does not compile has an empty cache. -/
theorem cache_after_disabled (hoff : config.compileRules = false)
    (ops : List Operation) : ((new config).after ops).cache = (new config).cache := by
  have hdisabled : (new config).cache.enabled = false := hoff
  refine cache_after (I := (· = (new config).cache)) ?retain ?warm ?serve rfl ops
  case retain =>
    rintro _ keep rfl
    rfl
  case warm =>
    rintro _ r rfl
    rw [RuleCache.warm_disabled hdisabled]
  case serve =>
    rintro _ r rfl
    rw [RuleCache.bodyOf_disabled hdisabled]

/-- Without compiling, a run makes no calls but those that stand in the rules that it can run. -/
theorem Calls.exists_site (hoff : config.compileRules = false) {ops : List Operation}
    {message : Message} {names : List String} {x y : Context}
    (h : ((new config).after ops).Calls message names x y) :
    ∃ r ∈ ((new config).after ops).deployment.stageRules, ∃ e ∈ r.expressions, ∃ site ∈ e.calls,
      ∃ values, y = ((site.target.invoke site.name values).runOn x).2 := by
  let engine := (new config).after ops
  have hdisabled : engine.cache.enabled = false := by
    rw [cache_after_disabled hoff]
    exact hoff
  have hserve (cache : RuleCache) (r : Rule) (hr : r ∈ engine.deployment.stageRules)
      (hcache : cache.enabled = false) :
      (∃ r' ∈ engine.deployment.stageRules, (bodyOf cache r).1 = .interpreted r') ∧
        (bodyOf cache r).2.enabled = false := by
    rw [bodyOf_disabled hcache]
    exact ⟨⟨r, hr, rfl⟩, hcache⟩
  have hrules : ∀ p ∈ names.filterMap engine.deployment.pipeline?, ∀ s ∈ p.stages,
      ∀ r ∈ s.rules, r ∈ engine.deployment.stageRules := by
    intro p hp s hs r hr
    obtain ⟨name, -, hname⟩ := List.mem_filterMap.mp hp
    exact Deployment.stageRules_of_pipeline hname hs hr
  have hbodies := (runPipelines_formed (T := fun body => ∃ r ∈ engine.deployment.stageRules,
    body = .interpreted r) engine.config.errorField hserve _ hrules hdisabled message).2
  obtain ⟨e, he, r, hform, hcalls⟩ := h
  obtain ⟨r', hr', hbody⟩ := hbodies e he
  rw [hbody] at hform
  cases hform
  exact ⟨r, hr', hcalls.exists_site⟩

end Engine

end LogRules
