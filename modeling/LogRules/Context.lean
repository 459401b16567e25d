import LogRules.EvalError
import LogRules.Message

/-!
The state of one run of a pipeline over one message, and computations over that state. A computation
that fails keeps what it has done to the state so far.
-/
namespace LogRules

/-- The half of a rule that raised a fault. -/
inductive FaultPhase
  | condition
  | execution
deriving DecidableEq, Inhabited, Repr

def FaultPhase.name : FaultPhase → String
  | condition => "condition"
  | execution => "execution"

/-- A fault and the rule, stage and pipeline that it is confined to. -/
structure RuleFault where
  pipeline : String
  stage : Int
  rule : String
  phase : FaultPhase
  error : EvalError
deriving DecidableEq, Inhabited, Repr

/-- The value of a variable and the static type it was bound with. -/
structure Binding where
  type : ValueType
  value : Value
deriving Inhabited

structure Context where
  message : Message
  bindings : Entries Binding
  faults : List RuleFault
deriving Inhabited

namespace Context

def start (message : Message) : Context := ⟨message, [], []⟩

def define (c : Context) (name : String) (type : ValueType) (value : Value) : Context :=
  { c with bindings := c.bindings.insert name ⟨type, value⟩ }

def lookup (c : Context) (name : String) : Except EvalError Value :=
  match c.bindings.find? name with
  | some binding => .ok binding.value
  | none => .error (.undefinedVariable name)

def bindingType? (c : Context) (name : String) : Option ValueType :=
  (c.bindings.find? name).map (·.type)

def recordFault (c : Context) (fault : RuleFault) : Context :=
  { c with faults := c.faults ++ [fault] }

def mapMessage (c : Context) (f : Message → Message) : Context :=
  { c with message := f c.message }

end Context

abbrev EvalM := ExceptT EvalError (StateM Context)

namespace EvalM

/-- The outcome of a computation and the state it leaves. -/
def runOn {α : Type} (body : EvalM α) (c : Context) : Except EvalError α × Context :=
  (ExceptT.run body).run c

/-- An outcome that does not depend on the state. -/
def lift {α : Type} (outcome : Except EvalError α) : EvalM α := liftExcept outcome

def message : EvalM Message := return (← get).message

def changeMessage (f : Message → Message) : EvalM Unit := modify (·.mapMessage f)

def lookup (name : String) : EvalM Value := do EvalM.lift ((← get).lookup name)

def define (name : String) (type : ValueType) (value : Value) : EvalM Unit :=
  modify (·.define name type value)

theorem ext_runOn {α : Type} {x y : EvalM α} (h : ∀ c, x.runOn c = y.runOn c) : x = y :=
  funext h

@[simp] theorem runOn_pure {α : Type} (a : α) (c : Context) :
    runOn (pure a) c = (.ok a, c) := rfl

/-- A failure keeps the state that the first part has left. -/
theorem runOn_bind {α β : Type} (x : EvalM α) (f : α → EvalM β) (c : Context) :
    runOn (x >>= f) c = match x.runOn c with
      | (.ok a, d) => (f a).runOn d
      | (.error error, d) => (.error error, d) := by
  simp only [runOn, ExceptT.run_bind, StateT.run_bind]
  rcases StateT.run (ExceptT.run x) c with ⟨outcome, d⟩
  cases outcome <;> rfl

@[simp] theorem runOn_lift {α : Type} (outcome : Except EvalError α) (c : Context) :
    runOn (lift outcome) c = (outcome, c) := by
  cases outcome <;> rfl

end EvalM

end LogRules
