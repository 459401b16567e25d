import LogRules.Engine

/-!
Histories of one engine: the operations it is given, in order, and what each of them answers.
-/
namespace LogRules

inductive Operation
  | install (deployment : Deployment)
  | process (message : Message) (streams names : List String)
  | simulate (message : Message) (streams names : List String)
  /-- Asks the cache to compile a rule now, whether or not it is installed. -/
  | warm (rule : Rule)

namespace Deployment

/-- Every rule that a pipeline can run. -/
def stageRules (d : Deployment) : List Rule :=
  d.pipelines.values.flatMap fun p => p.stages.flatMap (·.rules)

theorem stageRules_of_pipeline {d : Deployment} {name : String} {p : Pipeline}
    (h : d.pipeline? name = some p) {s : Stage} (hs : s ∈ p.stages) {r : Rule} (hr : r ∈ s.rules) :
    r ∈ d.stageRules :=
  List.mem_flatMap.2 ⟨p, List.mem_map.2 ⟨(name, p), Entries.mem_of_find? h, rfl⟩,
    List.mem_flatMap.2 ⟨s, hs, hr⟩⟩

end Deployment

/-- The rules that an operation brings along. -/
def Operation.rules : Operation → List Rule
  | install deployment => deployment.stageRules
  | process _ _ _ | simulate _ _ _ => []
  | warm rule => [rule]

/-- Whether an operation is there for more than a forecast: what is installed, and real messages. -/
def Operation.isEssential : Operation → Bool
  | install _ | process _ _ _ => true
  | simulate _ _ _ | warm _ => false

namespace Engine

/-- One operation: what a run shows, if it was one, and the engine afterwards. -/
def perform (engine : Engine) : Operation → Option Processed × Engine
  | .install deployment => (none, engine.install deployment)
  | .process message streams names =>
    ((engine.process message streams names).1, (engine.process message streams names).2)
  | .simulate message streams names =>
    ((engine.simulate message streams names).1, (engine.simulate message streams names).2)
  | .warm rule => (none, { engine with cache := (engine.cache.warm rule).2 })

/-- The answers to operations, one each. -/
def answers : Engine → List Operation → List (Option Processed)
  | _, [] => []
  | engine, op :: rest => (engine.perform op).1 :: answers (engine.perform op).2 rest

/-- The engine behind operations. -/
def after : Engine → List Operation → Engine
  | engine, [] => engine
  | engine, op :: rest => after (engine.perform op).2 rest

theorem after_append (engine : Engine) (ops others : List Operation) :
    engine.after (ops ++ others) = (engine.after ops).after others := by
  induction ops generalizing engine with
  | nil => rfl
  | cons op rest ih => exact ih (engine.perform op).2

/-- What the runs over real messages show, simulations left out. -/
def processed : Engine → List Operation → List Processed
  | _, [] => []
  | engine, .process message streams names :: rest =>
    (engine.process message streams names).1 ::
      processed (engine.process message streams names).2 rest
  | engine, op :: rest => processed (engine.perform op).2 rest

end Engine

end LogRules
