import LogRules.Diagnostic
import LogRules.Function

/-!
Expressions. Every node carries the type it was given when it was built and its place in the source;
calls hold the function that their name was resolved to.
-/
namespace LogRules

inductive UnaryOp
  | not
  | negate
  | plus
deriving DecidableEq, Inhabited, Repr

namespace UnaryOp

def symbol : UnaryOp → String
  | not => "not"
  | negate => "-"
  | plus => "+"

def all : List UnaryOp := [not, negate, plus]

def ofSymbol? (symbol : String) : Option UnaryOp := all.find? (·.symbol == symbol)

end UnaryOp

inductive BinaryOp
  | and | or
  | eq | ne | lt | le | gt | ge
  | add | sub | mul | div | rem
deriving DecidableEq, Inhabited, Repr

namespace BinaryOp

def symbol : BinaryOp → String
  | and => "and"
  | or => "or"
  | eq => "=="
  | ne => "!="
  | lt => "<"
  | le => "<="
  | gt => ">"
  | ge => ">="
  | add => "+"
  | sub => "-"
  | mul => "*"
  | div => "/"
  | rem => "%"

def all : List BinaryOp := [and, or, eq, ne, lt, le, gt, ge, add, sub, mul, div, rem]

def ofSymbol? (symbol : String) : Option BinaryOp := all.find? (·.symbol == symbol)

def isComparison : BinaryOp → Bool
  | eq | ne | lt | le | gt | ge => true
  | _ => false

def isArithmetic : BinaryOp → Bool
  | add | sub | mul | div | rem => true
  | _ => false

end BinaryOp

/-- What every node has: its static type, and where it starts. -/
structure Site where
  type : ValueType
  position : Position
deriving DecidableEq, Inhabited, Repr

inductive Expr
  | literal (site : Site) (value : Value)
  | array (site : Site) (items : List Expr)
  | map (site : Site) (entries : List (String × Expr))
  /-- A variable bound by an earlier statement of the rule. -/
  | var (site : Site) (name : String)
  | field (site : Site) (name : String)
  /-- An entry of a map, by a name that is written out. -/
  | access (site : Site) (object : Expr) (name : String)
  /-- An element of a list or an entry of a map. -/
  | index (site : Site) (object key : Expr)
  | unary (site : Site) (op : UnaryOp) (operand : Expr)
  | binary (site : Site) (op : BinaryOp) (left right : Expr)
  /-- Arguments stand in the order of the call, each with the parameter it is bound to. An
  unresolved call keeps its shape and holds the function that always fails. -/
  | call (site : Site) (name : String) (target : Function) (args : List (String × Expr))
      (named resolved : Bool)
deriving Inhabited

namespace Expr

/-- A literal with the type of its value; that of null is not known. -/
def ofValue (position : Position) (value : Value) : Expr :=
  .literal ⟨if value.isNull then .any else value.type, position⟩ value

def site : Expr → Site
  | literal site _ | array site _ | map site _ | var site _ | field site _
  | access site _ _ | index site _ _ | unary site _ _ | binary site _ _ _
  | call site _ _ _ _ _ => site

def type (e : Expr) : ValueType := e.site.type

def position (e : Expr) : Position := e.site.position

/-- The same node, said to start elsewhere. -/
def moveTo (position : Position) : Expr → Expr
  | literal site value => literal { site with position } value
  | array site items => array { site with position } items
  | map site entries => map { site with position } entries
  | var site name => var { site with position } name
  | field site name => field { site with position } name
  | access site object name => access { site with position } object name
  | index site object key => index { site with position } object key
  | unary site op operand => unary { site with position } op operand
  | binary site op left right => binary { site with position } op left right
  | call site name target args named resolved =>
    call { site with position } name target args named resolved

/-- The operands of a node, in the order in which they are evaluated. -/
def children : Expr → List Expr
  | literal _ _ | var _ _ | field _ _ => []
  | array _ items => items
  | map _ entries => entries.map (·.2)
  | access _ object _ => [object]
  | index _ object key => [object, key]
  | unary _ _ operand => [operand]
  | binary _ _ left right => [left, right]
  | call _ _ _ args _ _ => args.map (·.2)

def isLiteral : Expr → Bool
  | literal _ _ => true
  | _ => false

def isCall : Expr → Bool
  | call _ _ _ _ _ _ => true
  | _ => false

mutual

/-- The height of the tree: one for a node without operands. -/
def depth : Expr → Nat
  | literal _ _ | var _ _ | field _ _ => 1
  | array _ items => depthItems items + 1
  | map _ entries => depthEntries entries + 1
  | access _ object _ => depth object + 1
  | index _ object key => max (depth object) (depth key) + 1
  | unary _ _ operand => depth operand + 1
  | binary _ _ left right => max (depth left) (depth right) + 1
  | call _ _ _ args _ _ => depthEntries args + 1

def depthItems : List Expr → Nat
  | [] => 0
  | e :: rest => max (depth e) (depthItems rest)

def depthEntries : List (String × Expr) → Nat
  | [] => 0
  | (_, e) :: rest => max (depth e) (depthEntries rest)

end

/-- One call inside an expression, as others look at it. -/
structure CallSite where
  name : String
  target : Function
  params : List String
  named : Bool
  resolved : Bool

mutual

/-- Every call of an expression, an outer one before those in its arguments. -/
def calls : Expr → List CallSite
  | literal _ _ | var _ _ | field _ _ => []
  | array _ items => callsItems items
  | map _ entries => callsEntries entries
  | access _ object _ => calls object
  | index _ object key => calls object ++ calls key
  | unary _ _ operand => calls operand
  | binary _ _ left right => calls left ++ calls right
  | call _ name target args named resolved =>
    ⟨name, target, args.map (·.1), named, resolved⟩ :: callsEntries args

def callsItems : List Expr → List CallSite
  | [] => []
  | e :: rest => calls e ++ callsItems rest

def callsEntries : List (String × Expr) → List CallSite
  | [] => []
  | (_, e) :: rest => calls e ++ callsEntries rest

end

theorem callsItems_eq (items : List Expr) : callsItems items = items.flatMap calls := by
  induction items with
  | nil => rfl
  | cons e rest ih => rw [callsItems, ih, List.flatMap_cons]

theorem callsEntries_eq (entries : List (String × Expr)) :
    callsEntries entries = entries.flatMap fun entry => entry.2.calls := by
  induction entries with
  | nil => rfl
  | cons entry rest ih => rw [callsEntries, ih, List.flatMap_cons]

theorem calls_of_child {e child : Expr} (h : child ∈ e.children) {site : CallSite}
    (hsite : site ∈ child.calls) : site ∈ e.calls := by
  cases e with
  | literal _ _ | var _ _ | field _ _ => cases h
  | array _ items =>
    rw [calls, callsItems_eq]
    exact List.mem_flatMap.mpr ⟨child, h, hsite⟩
  | map _ entries =>
    obtain ⟨entry, hentry, rfl⟩ := List.mem_map.mp h
    rw [calls, callsEntries_eq]
    exact List.mem_flatMap.mpr ⟨entry, hentry, hsite⟩
  | access _ object _ | unary _ _ object => simp_all [children, calls]
  | index _ left right | binary _ _ left right =>
    rw [calls, List.mem_append]
    simp only [children, List.mem_cons, List.not_mem_nil, or_false] at h
    obtain rfl | rfl := h
    · exact .inl hsite
    · exact .inr hsite
  | call _ _ _ args _ _ =>
    obtain ⟨entry, hentry, rfl⟩ := List.mem_map.mp h
    rw [calls, callsEntries_eq]
    exact List.mem_cons_of_mem _ (List.mem_flatMap.mpr ⟨entry, hentry, hsite⟩)

mutual

/-- Whether an expression reads nothing but its own literals. -/
def isConstant : Expr → Bool
  | literal _ _ => true
  | var _ _ | field _ _ | call _ _ _ _ _ _ => false
  | array _ items => isConstantItems items
  | map _ entries => isConstantEntries entries
  | access _ object _ => isConstant object
  | index _ object key => isConstant object && isConstant key
  | unary _ _ operand => isConstant operand
  | binary _ _ left right => isConstant left && isConstant right

def isConstantItems : List Expr → Bool
  | [] => true
  | e :: rest => isConstant e && isConstantItems rest

def isConstantEntries : List (String × Expr) → Bool
  | [] => true
  | (_, e) :: rest => isConstant e && isConstantEntries rest

end

end Expr

end LogRules
