import LogRules.Proofs.Checks
import LogRules.Proofs.LexicalErrors
import LogRules.Proofs.Nodes
import Mathlib.Algebra.BigOperators.Group.List.Basic
import Mathlib.Algebra.GroupWithZero.Nat
import Mathlib.Algebra.Order.Group.Multiset

/-!
Names that nothing declares: the nodes of an expression that use one, and what static checks say
about them. A check reports an unknown name just for the node that it builds, and where that starts.
-/
namespace LogRules

namespace Problem

/-- Whether a name is used that nothing declares. -/
def isUnknownName : Problem → Bool
  | .undeclaredFunction _ | .undeclaredVariable _ => true
  | _ => false

/-- The places that a problem is reported at, each as often as it is. -/
def sites (problem : Problem) (errors : List Diagnostic) : Multiset Position :=
  ↑((errors.filter (·.problem = problem)).map Diagnostic.position)

variable {problem : Problem} {errors more : List Diagnostic}

@[simp] theorem sites_nil : problem.sites [] = 0 := rfl

@[simp] theorem sites_append :
    problem.sites (errors ++ more) = problem.sites errors + problem.sites more := by
  simp only [sites, List.filter_append, List.map_append, Multiset.coe_add]

theorem card_sites : (problem.sites errors).card = errors.countP (·.problem = problem) := by
  rw [sites, Multiset.coe_card, List.length_map, List.countP_eq_length_filter]

theorem sites_eq_zero (h : ∀ d ∈ errors, d.problem ≠ problem) : problem.sites errors = 0 := by
  rw [sites, List.filter_eq_nil_iff.mpr (by simpa using h)]
  rfl

theorem sites_fault (p : Position) (other : Problem) :
    problem.sites (Typing.fault p other) = if other = problem then {p} else 0 := by
  split
  · next heq => simp [sites, Typing.fault, heq]
  · next hne => exact sites_eq_zero (by simpa [Typing.fault] using hne)

end Problem

/-- Errors of which none is an unknown name. -/
def NamesKnown (errors : List Diagnostic) : Prop := ∀ d ∈ errors, d.problem.isUnknownName = false

namespace NamesKnown

variable {errors more : List Diagnostic}

theorem nil : NamesKnown [] := fun _ hd => absurd hd List.not_mem_nil

theorem fault (p : Position) {problem : Problem} (h : problem.isUnknownName = false) :
    NamesKnown (Typing.fault p problem) := by
  intro d hd
  rw [List.mem_singleton.mp hd]
  exact h

theorem append (h : NamesKnown errors) (h' : NamesKnown more) : NamesKnown (errors ++ more) :=
  fun d hd => (List.mem_append.mp hd).elim (h d) (h' d)

theorem flatMap {α : Type} {items : List α} {check : α → List Diagnostic}
    (h : ∀ a, NamesKnown (check a)) : NamesKnown (items.flatMap check) := by
  intro d hd
  obtain ⟨a, -, hd⟩ := List.mem_flatMap.mp hd
  exact h a d hd

theorem sites (h : NamesKnown errors) {problem : Problem}
    (hproblem : problem.isUnknownName = true) : problem.sites errors = 0 := by
  refine Problem.sites_eq_zero fun d hd heq => ?_
  rw [← heq, h d hd] at hproblem
  cases hproblem

end NamesKnown

theorem AllSyntactic.namesKnown {errors : List Diagnostic} (h : AllSyntactic errors) :
    NamesKnown errors := by
  intro d hd
  obtain ⟨message, hmessage⟩ := h d hd
  rw [hmessage]
  rfl

namespace Expr

variable {scope : Typing.Scope} {problem : Problem}

/-- What is wrong with the name that a node uses, if that is not known where `scope` is. -/
def unknownName? (scope : Typing.Scope) : Expr → Option Problem
  | var _ name => if (scope.find? name).isSome then none else some (.undeclaredVariable name)
  | call _ name _ _ _ false => some (.undeclaredFunction name)
  | _ => none

/-- How many nodes of an expression have this wrong with their names. -/
def unknowns (scope : Typing.Scope) (problem : Problem) (e : Expr) : Nat :=
  e.nodes.countP (·.unknownName? scope = some problem)

theorem unknowns_eq (e : Expr) : e.unknowns scope problem =
    (e.children.map (unknowns scope problem)).sum +
      if e.unknownName? scope = some problem then 1 else 0 := by
  rw [unknowns, nodes_eq, List.countP_cons, List.countP_flatMap]
  simp only [decide_eq_true_eq]
  rfl

/-- A node that uses no unknown name has the unknown names of its operands. -/
theorem unknowns_of_none {e : Expr} (h : e.unknownName? scope = none) :
    e.unknowns scope problem = (e.children.map (unknowns scope problem)).sum := by
  rw [unknowns_eq, h, if_neg (by simp), Nat.add_zero]

@[simp] theorem unknowns_ofValue (p : Position) (value : Value) :
    (ofValue p value).unknowns scope problem = 0 :=
  unknowns_of_none rfl

@[simp] theorem unknowns_field (site : Site) (name : String) :
    (field site name).unknowns scope problem = 0 :=
  unknowns_of_none rfl

@[simp] theorem unknowns_moveTo (p : Position) (e : Expr) :
    (e.moveTo p).unknowns scope problem = e.unknowns scope problem := by
  rw [unknowns_eq, unknowns_eq]
  cases e with
  | call _ _ _ _ _ resolved => cases resolved <;> rfl
  | _ => rfl

end Expr

namespace Typing

variable {scope : Scope} {problem : Problem} {e left right : Expr} (p : Position)

theorem namesKnown_checkBoolean (e : Expr) : NamesKnown (checkBoolean e) := by
  rw [checkBoolean]
  split
  exacts [.nil, .fault _ rfl]

theorem namesKnown_join (op : BinaryOp) : NamesKnown (join op left right p).errors := by
  rw [join]
  split_ifs
  · simp only [comparison, comparisonErrors]
    split_ifs
    exacts [.nil, .fault p rfl, .fault p rfl, .nil]
  · simp only [arithmetic, arithmeticErrors]
    split_ifs
    exacts [.nil, .fault p rfl, .fault p rfl]
  · exact (namesKnown_checkBoolean left).append (namesKnown_checkBoolean right)

theorem unknowns_join (op : BinaryOp) : (join op left right p).expr.unknowns scope problem =
    left.unknowns scope problem + right.unknowns scope problem := by
  rw [join_expr]
  exact Expr.unknowns_of_none rfl

theorem unknowns_negation : (negation p e).expr.unknowns scope problem =
    e.unknowns scope problem :=
  Expr.unknowns_of_none rfl

theorem unknowns_signed (op : UnaryOp) : (signed op p e).expr.unknowns scope problem =
    e.unknowns scope problem :=
  Expr.unknowns_of_none rfl

theorem unknowns_access (name : String) : (access e name p).expr.unknowns scope problem =
    e.unknowns scope problem :=
  Expr.unknowns_of_none rfl

theorem unknowns_index : (index left right p).expr.unknowns scope problem =
    left.unknowns scope problem + right.unknowns scope problem :=
  Expr.unknowns_of_none rfl

theorem namesKnown_signed (op : UnaryOp) : NamesKnown (signed op p e).errors := by
  simp only [signed]
  split_ifs
  exacts [.fault p rfl, .nil]

theorem namesKnown_access (name : String) : NamesKnown (access e name p).errors := by
  simp only [access]
  split_ifs
  exacts [.nil, .fault p rfl]

theorem namesKnown_index : NamesKnown (index left right p).errors := by
  simp only [index, indexErrors]
  split
  case h_1 => exact .nil
  case h_4 => exact .fault p rfl
  all_goals
    split
    exacts [.nil, .fault _ rfl]

section Calls

variable {registry : Registry} {inCondition : Bool} {name : String} {raw : List RawArg}

theorem namesKnown_mixedErrors : NamesKnown (mixedErrors name raw p) := by
  rw [mixedErrors]
  split_ifs
  exacts [.fault p rfl, .nil]

theorem namesKnown_bindingErrors (f : Function) : NamesKnown (bindingErrors name f raw p) := by
  rw [bindingErrors]
  split
  · refine .append (.flatMap fun entry => ?_) (.flatMap fun param => ?_)
    · simp only
      split
      exacts [.nil, .fault _ rfl]
    · split
      exacts [.nil, .fault p rfl]
  · rw [placeErrors]
    split_ifs
    exacts [.fault p rfl, .fault p rfl, .nil]

theorem namesKnown_argumentErrors (d : Descriptor) (args : List (String × Expr)) :
    NamesKnown (argumentErrors name d args) := by
  refine .flatMap fun entry => ?_
  simp only
  split
  · exact .nil
  · split
    exacts [.nil, .fault _ rfl]

theorem namesKnown_effectErrors (d : Descriptor) :
    NamesKnown (effectErrors name d inCondition p) := by
  rw [effectErrors]
  split
  exacts [.fault p rfl, .nil]

theorem children_call :
    (call registry inCondition name raw p).expr.children = raw.map (·.value) := by
  obtain ⟨_, _, args, _, _, hexpr, hvalues⟩ := @exists_call_expr registry inCondition name raw p
  rw [hexpr]
  exact hvalues

/-- A call is reported for its name where it starts, just when it is not resolved. -/
theorem sites_call (hproblem : problem.isUnknownName = true) :
    problem.sites (call registry inCondition name raw p).errors =
      if (call registry inCondition name raw p).expr.unknownName? scope = some problem then {p}
      else 0 := by
  cases hfind : registry.find? name with
  | some f =>
    rw [call_expr p hfind, call_errors p hfind, if_neg (by simp [Expr.unknownName?])]
    exact ((namesKnown_mixedErrors p).append (((namesKnown_bindingErrors p f).append
      (namesKnown_argumentErrors _ _)).append (namesKnown_effectErrors p _))).sites hproblem
  | none =>
    rw [call_of_unknown p hfind, Problem.sites_append, (namesKnown_mixedErrors p).sites hproblem,
      zero_add]
    simp only [Expr.unknownName?, Option.some.injEq]
    exact Problem.sites_fault p _

/-- A variable is reported where it stands, just when it is not in scope. -/
theorem sites_variableIn : problem.sites (variableIn scope name p).errors =
    if (variableIn scope name p).expr.unknownName? scope = some problem then {p} else 0 := by
  rw [variableIn]
  split
  · next type hfind => simp [Expr.unknownName?, hfind]
  · next hfind =>
    simp only [Expr.unknownName?, hfind, Option.isSome_none, Bool.false_eq_true, if_false,
      Option.some.injEq]
    exact Problem.sites_fault p _

theorem children_variableIn : (variableIn scope name p).expr.children = [] := by
  rw [variableIn]
  split <;> rfl

end Calls

end Typing

end LogRules
