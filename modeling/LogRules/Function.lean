import LogRules.Context

/-!
Functions that rules can call: their descriptors, the arguments of a call, and what they do.
-/
namespace LogRules

structure Parameter where
  name : String
  type : ValueType
  optional : Bool
  /-- The value that stands for a missing argument. -/
  default : Option Value
  description : String
deriving Inhabited

namespace Parameter

/-- A parameter that every call must supply. -/
def required (name : String) (type : ValueType) : Parameter := ⟨name, type, false, none, ""⟩

/-- A parameter that a call may leave out. -/
def omissible (name : String) (type : ValueType) : Parameter := ⟨name, type, true, none, ""⟩

def withDefault (p : Parameter) (value : Value) : Parameter := { p with default := some value }

def describe (p : Parameter) (text : String) : Parameter := { p with description := text }

/-- The parameter in a signature; a question mark follows the type of one that may be left out. -/
def text (p : Parameter) : String :=
  p.name ++ ": " ++ p.type.name ++ (if p.optional then "?" else "")

end Parameter

/-- What is known of a function without calling it. -/
structure Descriptor where
  name : String
  params : List Parameter
  returns : ValueType
  /-- Functions that change the message or the state of a run are not pure. -/
  isPure : Bool
  description : String
deriving Inhabited

namespace Descriptor

def simple (name : String) (returns : ValueType) (params : List Parameter) : Descriptor :=
  ⟨name, params, returns, true, ""⟩

def impure (d : Descriptor) : Descriptor := { d with isPure := false }

def describe (d : Descriptor) (text : String) : Descriptor := { d with description := text }

def param? (d : Descriptor) (name : String) : Option Parameter :=
  d.params.find? (·.name == name)

def requiredCount (d : Descriptor) : Nat := d.params.countP (!·.optional)

/-- Whether a parameter that may be left out stands before one that may not. -/
def optionalBeforeRequired (d : Descriptor) : Bool :=
  (d.params.dropWhile (!·.optional)).any (!·.optional)

def text (d : Descriptor) : String :=
  d.name ++ "(" ++ ", ".intercalate (d.params.map Parameter.text) ++ ") -> " ++ d.returns.name

end Descriptor

/-- The arguments of one call, in the order in which they were bound. -/
structure Args where
  /-- The name at the place of the call. -/
  function : String
  values : List (String × Value)
deriving Inhabited

namespace Args

def empty (function : String) : Args := ⟨function, []⟩

/-- The first value bound to a name, null included. -/
def bound? (args : Args) (name : String) : Option Value :=
  (args.values.find? (·.1 == name)).map (·.2)

/-- Replaces the first value bound to a name in a list of arguments, or binds it at the end. -/
def put (name : String) (value : Value) : List (String × Value) → List (String × Value)
  | [] => [(name, value)]
  | (k, v) :: rest => if k = name then (k, value) :: rest else (k, v) :: put name value rest

def insert (args : Args) (name : String) (value : Value) : Args :=
  { args with values := put name value args.values }

def fill (args : Args) (param : Parameter) : Except EvalError Args :=
  if (args.bound? param.name).isSome then .ok args
  else match param.default with
    | some value => .ok (args.insert param.name value)
    | none =>
      if param.optional then .ok args
      else .error (.missingArgument args.function param.name)

/-- The arguments of a call with the defaults of those it left out. -/
def bind (function : String) (d : Descriptor) (supplied : List (String × Value)) :
    Except EvalError Args :=
  d.params.foldlM fill ⟨function, supplied⟩

/-- The value bound to a name; null counts as no value. -/
def get? (args : Args) (name : String) : Option Value :=
  (args.bound? name).filter (!·.isNull)

def required (args : Args) (name : String) : Except EvalError Value :=
  match args.get? name with
  | some value => .ok value
  | none => .error (.missingArgument args.function name)

def requiredString (args : Args) (name : String) : Except EvalError String := do
  let value ← args.required name
  match value with
  | .string text => .ok text
  | _ => .error (.mismatch .string value)

def optionalBoolean (args : Args) (name : String) : Except EvalError (Option Bool) :=
  match args.get? name with
  | none => .ok none
  | some (.boolean flag) => .ok (some flag)
  | some other => .error (.mismatch .boolean other)

end Args

/-- What tells one function from another of the same name: the generation that it was made in.
Functions made together share a generation and have different names. -/
structure FunctionId where
  generation : Nat
  name : String
deriving DecidableEq, Inhabited, Repr

structure Function where
  id : FunctionId
  descriptor : Descriptor
  run : Args → EvalM Value
deriving Inhabited

namespace Function

/-- The name of the function that stands for all unknown ones. -/
def unresolvedName : String := "__unresolved__"

/-- Stands for every unknown function: a call to it always fails. -/
def unresolved : Function where
  id := ⟨0, unresolvedName⟩
  descriptor := .simple unresolvedName .any []
  run := fun args => throw (.unresolvedFunction args.function)

/-- Binds arguments and calls. The name is that at the place of the call. -/
def invoke (f : Function) (name : String) (supplied : List (String × Value)) : EvalM Value := do
  let args ← EvalM.lift (Args.bind name f.descriptor supplied)
  f.run args

end Function

end LogRules
