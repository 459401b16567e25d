import LogRules.Proofs.Checks

/-!
Trees alone: what is left of an expression without the types of its nodes and their places. A call
keeps the function that it was resolved to and the names that its arguments are bound to.
-/
namespace LogRules

/-- The site of a node that tells neither its type nor its place. -/
def Site.blank : Site := ⟨.any, .nowhere⟩

namespace Expr

mutual

def bare : Expr → Expr
  | literal _ value => literal .blank value
  | array _ items => array .blank (bareItems items)
  | map _ entries => map .blank (bareEntries entries)
  | var _ name => var .blank name
  | field _ name => field .blank name
  | access _ object name => access .blank (bare object) name
  | index _ object key => index .blank (bare object) (bare key)
  | unary _ op operand => unary .blank op (bare operand)
  | binary _ op left right => binary .blank op (bare left) (bare right)
  | call _ name target args named resolved =>
    call .blank name target (bareEntries args) named resolved

def bareItems : List Expr → List Expr
  | [] => []
  | e :: rest => bare e :: bareItems rest

def bareEntries : List (String × Expr) → List (String × Expr)
  | [] => []
  | (key, e) :: rest => (key, bare e) :: bareEntries rest

end

theorem bareItems_eq (items : List Expr) : bareItems items = items.map bare := by
  induction items with
  | nil => rfl
  | cons e rest ih => rw [bareItems, ih, List.map_cons]

theorem bareEntries_eq (entries : List (String × Expr)) :
    bareEntries entries = Typing.mapArgs bare entries := by
  induction entries with
  | nil => rfl
  | cons entry rest ih =>
    rw [bareEntries, ih]
    rfl

@[simp] theorem bare_moveTo (p : Position) (e : Expr) : (e.moveTo p).bare = e.bare := by
  cases e <;> rw [moveTo, bare, bare]

mutual

@[simp] theorem depth_bare : ∀ e : Expr, e.bare.depth = e.depth
  | literal _ _ | var _ _ | field _ _ => by simp only [bare, depth]
  | array _ items => by simp only [bare, depth, depthItems_bare items]
  | map _ entries => by simp only [bare, depth, depthEntries_bare entries]
  | access _ object _ => by simp only [bare, depth, depth_bare object]
  | index _ object key => by simp only [bare, depth, depth_bare object, depth_bare key]
  | unary _ _ operand => by simp only [bare, depth, depth_bare operand]
  | binary _ _ left right => by simp only [bare, depth, depth_bare left, depth_bare right]
  | call _ _ _ args _ _ => by simp only [bare, depth, depthEntries_bare args]

theorem depthItems_bare : ∀ items, depthItems (bareItems items) = depthItems items
  | [] => rfl
  | e :: rest => by simp only [bareItems, depthItems, depth_bare e, depthItems_bare rest]

theorem depthEntries_bare : ∀ entries, depthEntries (bareEntries entries) = depthEntries entries
  | [] => rfl
  | (_, e) :: rest => by
    simp only [bareEntries, depthEntries, depth_bare e, depthEntries_bare rest]

end

end Expr

/-- The call of a name with arguments as they are written, as a registry resolves it. -/
def Registry.callTree (registry : Registry) (name : String) (raw : List Typing.RawArg) : Expr :=
  match registry.find? name with
  | some f => .call .blank name f (Typing.boundArgs f raw) (Typing.isNamed raw) true
  | none => .call .blank name .unresolved (Typing.nameArgs 0 raw) (Typing.isNamed raw) false

theorem Registry.children_callTree (registry : Registry) (name : String)
    (raw : List Typing.RawArg) : (registry.callTree name raw).children = raw.map (·.value) := by
  rw [callTree]
  split
  · rw [Expr.children, Typing.boundArgs]
    split
    exacts [Typing.values_nameArgs 0 raw, Typing.values_placeArgs _ 0 raw]
  · rw [Expr.children, Typing.values_nameArgs]

namespace Typing

open LogRules.Expr

variable (p : Position)

@[simp] theorem bare_ofValue (value : Value) :
    (Expr.ofValue p value).bare = .literal .blank value := by
  rw [ofValue, bare]

@[simp] theorem bare_join (op : BinaryOp) (left right : Expr) :
    (join op left right p).expr.bare = .binary .blank op left.bare right.bare := by
  rw [join_expr, binary, bare]

@[simp] theorem bare_negation (operand : Expr) :
    (negation p operand).expr.bare = .unary .blank .not operand.bare := by
  rw [negation, bare]

@[simp] theorem bare_signed (op : UnaryOp) (operand : Expr) :
    (signed op p operand).expr.bare = .unary .blank op operand.bare := by
  simp only [signed, bare]

@[simp] theorem bare_access (object : Expr) (name : String) :
    (access object name p).expr.bare = .access .blank object.bare name := by
  simp only [access, bare]

@[simp] theorem bare_index (object key : Expr) :
    (index object key p).expr.bare = .index .blank object.bare key.bare := by
  rw [index, bare]

@[simp] theorem bare_variableIn (scope : Scope) (name : String) :
    (variableIn scope name p).expr.bare = .var .blank name := by
  rw [variableIn]
  split <;> rw [bare]

@[simp] theorem bare_call (registry : Registry) (inCondition : Bool) (name : String)
    (raw : List RawArg) : (call registry inCondition name raw p).expr.bare =
      registry.callTree name (raw.map (RawArg.mapValue bare)) := by
  rw [Registry.callTree]
  cases hfind : registry.find? name with
  | none =>
    rw [call_of_unknown p hfind, bare, bareEntries_eq, nameArgs_mapValue, isNamed_mapValue]
  | some f =>
    simp only [call_expr p hfind, bare, bareEntries_eq, boundArgs_mapValue, isNamed_mapValue]

end Typing

end LogRules
