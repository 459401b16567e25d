import LogRules.Expr
import LogRules.Function.Registry

/-!
Static checks. Each construct is built from parts that are built already, together with what is
wrong with it; an error never keeps a construct from being built.
-/
namespace LogRules

/-- An expression and what is wrong with its outermost part. -/
structure Checked where
  expr : Expr
  errors : List Diagnostic

namespace Typing

def fault (position : Position) (problem : Problem) : List Diagnostic := [⟨position, problem⟩]

/-- What is wrong with an expression that stands for a truth value. -/
def checkBoolean (e : Expr) : List Diagnostic :=
  if ValueType.accepts .boolean e.type then []
  else fault e.position (.incompatibleType .boolean e.type)

def undefinedFor (op : BinaryOp) (type : ValueType) : Problem :=
  .invalidOperation s!"'{op.symbol}' is not defined for {type.name}"

/-- A binary node starts where its left operand does. -/
def binary (type : ValueType) (op : BinaryOp) (left right : Expr) : Expr :=
  .binary ⟨type, left.position⟩ op left right

def logical (op : BinaryOp) (left right : Expr) : Checked :=
  ⟨binary .boolean op left right, checkBoolean left ++ checkBoolean right⟩

/-- What is wrong with comparing two types: they differ and are not both numbers, or they are equal
and have no order. -/
def comparisonErrors (op : BinaryOp) (left right : ValueType) (position : Position) :
    List Diagnostic :=
  let numeric := left.isNumeric && right.isNumeric
  if !(left.isKnown && right.isKnown) then []
  else if left != right && !numeric then
    fault position (.incompatibleTypes op.symbol left right)
  else if op != .eq && op != .ne && !numeric && left != .string then
    fault position (undefinedFor op left)
  else []

def comparison (op : BinaryOp) (left right : Expr) (position : Position) : Checked :=
  ⟨binary .boolean op left right, comparisonErrors op left.type right.type position⟩

def arithmeticType (op : BinaryOp) (left right : ValueType) : ValueType :=
  if left.isNumeric && right.isNumeric then
    if left == .long && right == .long then .long else .double
  else if op == .add && left == .string && right == .string then .string
  else .any

def arithmeticErrors (op : BinaryOp) (left right : ValueType) (position : Position) :
    List Diagnostic :=
  if arithmeticType op left right != .any || !(left.isKnown && right.isKnown) then []
  else if left != right then fault position (.incompatibleTypes op.symbol left right)
  else fault position (undefinedFor op left)

def arithmetic (op : BinaryOp) (left right : Expr) (position : Position) : Checked :=
  ⟨binary (arithmeticType op left.type right.type) op left right,
    arithmeticErrors op left.type right.type position⟩

def negation (position : Position) (operand : Expr) : Checked :=
  ⟨.unary ⟨.boolean, position⟩ .not operand, checkBoolean operand⟩

def signed (op : UnaryOp) (position : Position) (operand : Expr) : Checked :=
  let errors :=
    if operand.type.isKnown && !operand.type.isNumeric then
      fault position
        (.invalidOperation s!"unary '{op.symbol}' is not defined for {operand.type.name}")
    else []
  let type := if operand.type.isNumeric then operand.type else .any
  ⟨.unary ⟨type, position⟩ op operand, errors⟩

/-- The entry of a map by name; `position` is that of the point. -/
def access (object : Expr) (name : String) (position : Position) : Checked :=
  let errors :=
    if object.type == .map || object.type == .any then []
    else fault position (.nonIndexableType object.type)
  ⟨.access ⟨.any, object.position⟩ object name, errors⟩

/-- What is wrong with a key of a type that is to be used with an object of a type. -/
def indexErrors (object : ValueType) (key : Expr) (position : Position) : List Diagnostic :=
  let check (expected : ValueType) : List Diagnostic :=
    if expected.accepts key.type then []
    else fault key.position (.incompatibleIndexType expected key.type)
  match object with
  | .any => []
  | .list => check .long
  | .map => check .string
  | other => fault position (.nonIndexableType other)

def index (object key : Expr) (position : Position) : Checked :=
  ⟨.index ⟨.any, object.position⟩ object key, indexErrors object.type key position⟩

abbrev Scope := Entries ValueType

/-- A variable; one that is not in scope has an unknown type. -/
def variableIn (scope : Scope) (name : String) (position : Position) : Checked :=
  match scope.find? name with
  | some type => ⟨.var ⟨type, position⟩ name, []⟩
  | none => ⟨.var ⟨.any, position⟩ name, fault position (.undeclaredVariable name)⟩

/-- An argument as it is written, with the name before it if there is one. -/
structure RawArg where
  name : Option String
  value : Expr

/-- Arguments with the names they are written with; one without a name takes its place as name. -/
def nameArgs (place : Nat) : List RawArg → List (String × Expr)
  | [] => []
  | arg :: rest => (arg.name.getD (toString place), arg.value) :: nameArgs (place + 1) rest

/-- Arguments by place. One that has no parameter takes its place as name. -/
def placeArgs (params : List Parameter) (place : Nat) : List RawArg → List (String × Expr)
  | [] => []
  | arg :: rest =>
    ((params[place]?.map (·.name)).getD (toString place), arg.value) ::
      placeArgs params (place + 1) rest

def namedErrors (name : String) (d : Descriptor) (args : List (String × Expr))
    (position : Position) : List Diagnostic :=
  (args.flatMap fun (param, value) =>
    if (d.param? param).isSome then []
    else fault value.position (.unknownParameter name param)) ++
  (d.params.filter (!·.optional)).flatMap fun param =>
    if args.any (·.1 == param.name) then []
    else fault position (.missingRequiredParam name param.name)

/-- What is wrong with a number of arguments given by place. -/
def placeErrors (name : String) (d : Descriptor) (given : Nat) (position : Position) :
    List Diagnostic :=
  if d.params.length < given ∨ given < d.requiredCount then
    fault position (.wrongNumberOfArgs name given)
  else if d.optionalBeforeRequired ∧ given < d.params.length then
    fault position (.optionalParametersMustBeNamed name)
  else []

/-- What is wrong with the types of bound arguments. -/
def argumentErrors (name : String) (d : Descriptor) (args : List (String × Expr)) :
    List Diagnostic :=
  args.flatMap fun (param, value) =>
    match d.param? param with
    | none => []
    | some declared =>
      if declared.type.accepts value.type then []
      else fault value.position (.incompatibleArgumentType name param declared.type value.type)

/-- Conditions must not change anything. -/
def effectErrors (name : String) (d : Descriptor) (inCondition : Bool) (position : Position) :
    List Diagnostic :=
  if inCondition && !d.isPure then fault position (.sideEffectInCondition name) else []

def knownCall (f : Function) (inCondition : Bool) (name : String) (named : Bool)
    (raw : List RawArg) (position : Position) : Checked :=
  let d := f.descriptor
  let args := if named then nameArgs 0 raw else placeArgs d.params 0 raw
  let binding :=
    if named then namedErrors name d args position else placeErrors name d raw.length position
  ⟨.call ⟨d.returns, position⟩ name f args named true,
    binding ++ argumentErrors name d args ++ effectErrors name d inCondition position⟩

/-- A call of a function that the registry does not know keeps its shape. -/
def unknownCall (name : String) (named : Bool) (raw : List RawArg) (position : Position) :
    Checked :=
  ⟨.call ⟨.any, position⟩ name .unresolved (nameArgs 0 raw) named false,
    fault position (.undeclaredFunction name)⟩

/-- A call. Arguments are either all named or all given by place. -/
def call (registry : Registry) (inCondition : Bool) (name : String) (raw : List RawArg)
    (position : Position) : Checked :=
  let count := raw.countP (·.name.isSome)
  let named := 0 < count
  let mixed :=
    if named ∧ count ≠ raw.length then
      fault position (.syntactic s!"function '{name}' mixes positional and named arguments")
    else []
  let checked := match registry.find? name with
    | some f => knownCall f inCondition name named raw position
    | none => unknownCall name named raw position
  { checked with errors := mixed ++ checked.errors }

end Typing

end LogRules
