import LogRules.Expr
import Mathlib.Order.Lattice

/-!
The nodes of an expression. What holds of an expression whenever it holds of its operands holds of
every expression.
-/
namespace LogRules.Expr

mutual

/-- An expression and all that it is made of, an outer node before those in it. -/
def nodes : Expr → List Expr
  | literal site value => [literal site value]
  | array site items => array site items :: nodesItems items
  | map site entries => map site entries :: nodesEntries entries
  | var site name => [var site name]
  | field site name => [field site name]
  | access site object name => access site object name :: nodes object
  | index site object key => index site object key :: (nodes object ++ nodes key)
  | unary site op operand => unary site op operand :: nodes operand
  | binary site op left right => binary site op left right :: (nodes left ++ nodes right)
  | call site name target args named resolved =>
    call site name target args named resolved :: nodesEntries args

def nodesItems : List Expr → List Expr
  | [] => []
  | e :: rest => nodes e ++ nodesItems rest

def nodesEntries : List (String × Expr) → List Expr
  | [] => []
  | (_, e) :: rest => nodes e ++ nodesEntries rest

end

theorem nodesItems_eq (items : List Expr) : nodesItems items = items.flatMap nodes := by
  induction items with
  | nil => rfl
  | cons e rest ih => rw [nodesItems, ih, List.flatMap_cons]

theorem nodesEntries_eq (entries : List (String × Expr)) :
    nodesEntries entries = (entries.map (·.2)).flatMap nodes := by
  induction entries with
  | nil => rfl
  | cons entry rest ih => rw [nodesEntries, ih, List.map_cons, List.flatMap_cons]

theorem nodes_eq (e : Expr) : e.nodes = e :: e.children.flatMap nodes := by
  cases e with
  | literal | var | field => rfl
  | array _ items => rw [nodes, children, nodesItems_eq]
  | map _ entries => rw [nodes, children, nodesEntries_eq]
  | access | unary => rw [nodes, children, List.flatMap_singleton]
  | index | binary => rw [nodes, children, List.flatMap_cons, List.flatMap_singleton]
  | call _ _ _ args _ _ => rw [nodes, children, nodesEntries_eq]

theorem mem_nodes_of_child {e child n : Expr} (hchild : child ∈ e.children) (hn : n ∈ child.nodes) :
    n ∈ e.nodes := by
  rw [nodes_eq]
  exact List.mem_cons_of_mem _ (List.mem_flatMap.mpr ⟨child, hchild, hn⟩)

theorem self_mem_nodes (e : Expr) : e ∈ e.nodes := by
  rw [nodes_eq]
  exact List.mem_cons_self

theorem mem_nodes {e n : Expr} : n ∈ e.nodes ↔ n = e ∨ ∃ child ∈ e.children, n ∈ child.nodes := by
  rw [nodes_eq, List.mem_cons, List.mem_flatMap]

theorem depth_le_items {items : List Expr} {e : Expr} (he : e ∈ items) :
    e.depth ≤ depthItems items := by
  induction items with
  | nil => cases he
  | cons first rest ih =>
    rw [depthItems]
    cases he with
    | head => exact Nat.le_max_left _ _
    | tail _ he => exact (ih he).trans (Nat.le_max_right _ _)

theorem depth_le_entries {entries : List (String × Expr)} {entry : String × Expr}
    (hentry : entry ∈ entries) : entry.2.depth ≤ depthEntries entries := by
  induction entries with
  | nil => cases hentry
  | cons first rest ih =>
    rw [depthEntries]
    cases hentry with
    | head => exact Nat.le_max_left _ _
    | tail _ hentry => exact (ih hentry).trans (Nat.le_max_right _ _)

theorem depth_child_lt {e child : Expr} (h : child ∈ e.children) : child.depth < e.depth := by
  cases e with
  | literal | var | field => cases h
  | array _ items => exact Nat.lt_succ_of_le (depth_le_items h)
  | map | call =>
    obtain ⟨entry, hentry, rfl⟩ := List.mem_map.mp h
    exact Nat.lt_succ_of_le (depth_le_entries hentry)
  | access | unary =>
    rw [List.mem_singleton.mp h]
    exact Nat.lt_succ_self _
  | index _ left right | binary _ _ left right =>
    simp only [children, List.mem_cons, List.not_mem_nil, or_false] at h
    rw [depth]
    obtain rfl | rfl := h <;> omega

theorem children_induction {motive : Expr → Prop}
    (h : ∀ e, (∀ child ∈ e.children, motive child) → motive e) (e : Expr) : motive e := by
  generalize hdepth : e.depth = depth
  induction depth using Nat.strongRecOn generalizing e with
  | ind depth ih =>
    subst hdepth
    exact h e fun child hchild => ih child.depth (depth_child_lt hchild) child rfl

/-- A call in an expression is the expression itself, or a call in one of its operands. -/
theorem mem_calls {e : Expr} {call : CallSite} (h : call ∈ e.calls) :
    (∃ site args, e = .call site call.name call.target args call.named call.resolved) ∨
      ∃ child ∈ e.children, call ∈ child.calls := by
  cases e with
  | literal | var | field => cases h
  | array site items =>
    rw [calls, callsItems_eq] at h
    exact .inr (List.mem_flatMap.mp h)
  | map site entries =>
    rw [calls, callsEntries_eq] at h
    obtain ⟨entry, hentry, hcall⟩ := List.mem_flatMap.mp h
    exact .inr ⟨entry.2, List.mem_map_of_mem hentry, hcall⟩
  | access _ operand | unary _ _ operand => exact .inr ⟨operand, List.mem_cons_self, h⟩
  | index _ left right | binary _ _ left right =>
    cases List.mem_append.mp h with
    | inl h => exact .inr ⟨left, List.mem_cons_self, h⟩
    | inr h => exact .inr ⟨right, List.mem_cons_of_mem _ List.mem_cons_self, h⟩
  | call site name target args named resolved =>
    rw [calls, callsEntries_eq] at h
    cases h with
    | head => exact .inl ⟨site, args, rfl⟩
    | tail _ h =>
      obtain ⟨entry, hentry, hcall⟩ := List.mem_flatMap.mp h
      exact .inr ⟨entry.2, List.mem_map_of_mem hentry, hcall⟩

theorem exists_node_of_mem_calls {e : Expr} {call : CallSite} (h : call ∈ e.calls) :
    ∃ site args, .call site call.name call.target args call.named call.resolved ∈ e.nodes := by
  induction e using children_induction with
  | h e ih =>
    obtain ⟨site, args, rfl⟩ | ⟨child, hchild, hcall⟩ := mem_calls h
    · exact ⟨site, args, self_mem_nodes _⟩
    · obtain ⟨site, args, hnode⟩ := ih child hchild hcall
      exact ⟨site, args, mem_nodes_of_child hchild hnode⟩

end LogRules.Expr
