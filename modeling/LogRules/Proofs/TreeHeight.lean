import LogRules.Proofs.Nodes
import Mathlib.Data.List.Chain

/-!
The depth of an expression is the height of its tree: the number of nodes on the longest way from
the expression down through operands.
-/
namespace LogRules.Expr

/-- Each node stands before one of its operands. -/
def Descends (way : List Expr) : Prop := way.IsChain fun parent child => child ∈ parent.children

/-- The longest way down from an expression has this many nodes. -/
structure IsHeight (e : Expr) (height : Nat) : Prop where
  reached : ∃ way, Descends (e :: way) ∧ (e :: way).length = height
  bound : ∀ way, Descends (e :: way) → (e :: way).length ≤ height

theorem depthEntries_eq (entries : List (String × Expr)) :
    depthEntries entries = depthItems (entries.map (·.2)) := by
  induction entries with
  | nil => rfl
  | cons entry rest ih => rw [depthEntries, ih, List.map_cons, depthItems]

/-- What a node records when it is built of its operands. -/
theorem depth_eq (e : Expr) : e.depth = depthItems e.children + 1 := by
  cases e with
  | literal | var | field => rfl
  | array => rfl
  | map => rw [depth, depthEntries_eq, children]
  | call => rw [depth, depthEntries_eq, children]
  | access | unary => simp [depth, children, depthItems]
  | index | binary => simp [depth, children, depthItems]

theorem exists_deepest {items : List Expr} (h : items ≠ []) :
    ∃ e ∈ items, e.depth = depthItems items := by
  induction items with
  | nil => exact absurd rfl h
  | cons first rest ih =>
    rw [depthItems]
    obtain hle | hlt := le_or_gt (depthItems rest) first.depth
    · exact ⟨first, List.mem_cons_self, (Nat.max_eq_left hle).symm⟩
    · have hrest : rest ≠ [] := by
        rintro rfl
        exact absurd hlt (Nat.not_lt_zero _)
      obtain ⟨e, he, hdepth⟩ := ih hrest
      exact ⟨e, List.mem_cons_of_mem _ he, hdepth.trans (Nat.max_eq_right hlt.le).symm⟩

theorem length_le_depth {e : Expr} {way : List Expr} (h : Descends (e :: way)) :
    (e :: way).length ≤ e.depth := by
  induction way generalizing e with
  | nil =>
    rw [depth_eq]
    exact Nat.le_add_left 1 _
  | cons child way ih =>
    obtain ⟨hchild, hway⟩ := List.isChain_cons_cons.mp h
    exact Nat.succ_le_of_lt ((ih hway).trans_lt (depth_child_lt hchild))

theorem exists_way (e : Expr) : ∃ way, Descends (e :: way) ∧ (e :: way).length = e.depth := by
  induction e using children_induction with
  | h e ih =>
    by_cases hleaf : e.children = []
    · refine ⟨[], List.isChain_singleton e, ?_⟩
      rw [depth_eq, hleaf]
      rfl
    · obtain ⟨child, hchild, hdepth⟩ := exists_deepest hleaf
      obtain ⟨way, hway, hlength⟩ := ih child hchild
      refine ⟨child :: way, List.isChain_cons_cons.mpr ⟨hchild, hway⟩, ?_⟩
      rw [depth_eq, ← hdepth, ← hlength]
      rfl

theorem isHeight_depth (e : Expr) : e.IsHeight e.depth :=
  ⟨exists_way e, fun _ => length_le_depth⟩

end LogRules.Expr
