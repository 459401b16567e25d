import LogRules.Expr.Text
import LogRules.Proofs.Accepted
import LogRules.Proofs.Nodes

/-!
How deep the text of an expression nests, and where a call in it could be taken for something else.
A call of a function that is called `not` is read as one only behind an operator or a sign.
-/
namespace LogRules

open Grammar

namespace Expr

theorem precedence_pos (e : Expr) : 1 ≤ e.precedence := by
  rw [precedence.eq_def]
  split
  · next op left right => cases op <;> decide
  · decide
  · decide
  · split <;> decide
  · split <;> decide
  · decide
  · decide
  · decide

/-- The levels of an operand, with one for the parentheses around it. -/
def enclosedLevels (needed : Bool) (levels : Nat) : Nat := if needed then levels + 1 else levels

mutual

/-- How many levels deep an expression nests, with `extra` more for every sign on the way that
stands before a sign. Brackets take a level, what stands behind `not` or a sign does, and so do the
parentheses around an operand that binds too loosely. -/
def nesting (extra : Nat) : Expr → Nat
  | literal _ _ | var _ _ | field _ _ => 0
  | array _ items => nestingItems extra items
  | map _ entries => nestingEntries extra entries
  | access _ object _ =>
    enclosedLevels (object.precedence < postfixPrecedence) (nesting extra object)
  | index _ object key =>
    max (enclosedLevels (object.precedence < postfixPrecedence) (nesting extra object))
      (nesting extra key + 1)
  | unary _ .not operand =>
    enclosedLevels (operand.precedence < notPrecedence) (nesting extra operand) + 1
  | unary _ _ operand =>
    if operand.precedence = signPrecedence then nesting extra operand + extra + 1
    else enclosedLevels (operand.precedence < signPrecedence) (nesting extra operand) + 1
  | binary _ op left right =>
    max (enclosedLevels (left.precedence < op.precedence) (nesting extra left))
      (enclosedLevels (right.precedence ≤ op.precedence) (nesting extra right))
  | call _ _ _ args _ _ => nestingEntries extra args

def nestingItems (extra : Nat) : List Expr → Nat
  | [] => 0
  | e :: rest => max (nesting extra e + 1) (nestingItems extra rest)

def nestingEntries (extra : Nat) : List (String × Expr) → Nat
  | [] => 0
  | (_, e) :: rest => max (nesting extra e + 1) (nestingEntries extra rest)

end

/-- How many levels deep the text of an expression nests. It has parentheses between two signs. -/
abbrev levels (e : Expr) : Nat := e.nesting 1

section Levels

variable {extra : Nat}

theorem nestingItems_lt {items : List Expr} {bound : Nat} (hbound : 0 < bound) :
    nestingItems extra items < bound ↔ ∀ e ∈ items, e.nesting extra + 1 < bound := by
  induction items with
  | nil => simpa [nestingItems] using hbound
  | cons e rest ih => rw [nestingItems, Nat.max_lt, ih, List.forall_mem_cons]

theorem nestingEntries_lt {entries : List (String × Expr)} {bound : Nat} (hbound : 0 < bound) :
    nestingEntries extra entries < bound ↔
      ∀ e ∈ entries.map (·.2), e.nesting extra + 1 < bound := by
  induction entries with
  | nil => simpa [nestingEntries] using hbound
  | cons entry rest ih =>
    rw [nestingEntries, Nat.max_lt, ih, List.map_cons, List.forall_mem_cons]

theorem nesting_sign {site : Site} {op : UnaryOp} {operand : Expr} (hop : op ≠ .not) :
    nesting extra (.unary site op operand) =
      if operand.precedence = signPrecedence then operand.nesting extra + extra + 1
      else enclosedLevels (operand.precedence < signPrecedence) (operand.nesting extra) + 1 := by
  cases op with
  | not => exact absurd rfl hop
  | negate | plus => rfl

theorem levels_sign {site : Site} {op : UnaryOp} {operand : Expr} (hop : op ≠ .not) :
    levels (.unary site op operand) =
      enclosedLevels (operand.precedence ≤ signPrecedence) operand.levels + 1 := by
  rw [levels, nesting_sign hop]
  split
  · next h => rw [enclosedLevels, if_pos (by simp [h])]
  · next h => rw [decide_eq_decide.mpr (Nat.lt_iff_le_and_ne.trans (and_iff_left h))]

end Levels

theorem enclosedLevels_le (needed : Bool) (levels : Nat) :
    enclosedLevels needed levels ≤ levels + 1 := by
  rw [enclosedLevels]
  split <;> omega

/-- A node takes at most a level, and its parentheses another one. -/
theorem levels_lt (e : Expr) : e.levels < 2 * e.depth := by
  induction e using children_induction with
  | h e ih =>
    have hchild : ∀ child ∈ e.children, child.levels + 2 < 2 * e.depth := by
      intro child hchild
      have hlevels := ih child hchild
      have hdepth := depth_child_lt hchild
      omega
    have hinner : ∀ child ∈ e.children, child.levels + 1 < 2 * e.depth :=
      fun child h => (Nat.lt_succ_self _).trans (hchild child h)
    have henclosed (needed : Bool) {child : Expr} (h : child ∈ e.children) :
        enclosedLevels needed child.levels + 1 < 2 * e.depth :=
      (Nat.succ_le_succ (enclosedLevels_le needed _)).trans_lt (hchild child h)
    have hpos : 0 < 2 * e.depth := by
      cases e <;> simp [depth]
    cases e with
    | literal | var | field => exact hpos
    | array => exact (nestingItems_lt hpos).mpr hinner
    | map | call => exact (nestingEntries_lt hpos).mpr hinner
    | access _ object _ => exact Nat.lt_of_succ_lt (henclosed _ (by simp [children]))
    | index _ object key =>
      exact Nat.max_lt.mpr ⟨Nat.lt_of_succ_lt (henclosed _ (by simp [children])),
        hinner key (by simp [children])⟩
    | unary _ op operand =>
      have hoperand (needed : Bool) : enclosedLevels needed operand.levels + 1 < _ :=
        henclosed needed (by simp [children])
      cases op with
      | not => exact hoperand _
      | negate | plus =>
        rw [levels_sign (by decide)]
        exact hoperand _
    | binary _ op left right =>
      exact Nat.max_lt.mpr ⟨Nat.lt_of_succ_lt (henclosed _ (by simp [children])),
        Nat.lt_of_succ_lt (henclosed _ (by simp [children]))⟩

/-- Whether the text of an expression starts with a call of a function that is called `not`. -/
def startsNot : Expr → Bool
  | access _ object _ | index _ object _ =>
    decide (postfixPrecedence ≤ object.precedence) && startsNot object
  | binary _ op left _ => decide (op.precedence ≤ left.precedence) && startsNot left
  | call _ name _ _ _ _ => Lexeme.sameWord name "not"
  | _ => false

/-- The operands that are read where `not` is the operator: those in brackets or parentheses, and
those of `not`, `and` and `or`. -/
def looseParts : Expr → List Expr
  | literal _ _ | var _ _ | field _ _ => []
  | array _ items => items
  | map _ entries => entries.map (·.2)
  | access _ object _ => [object].filter (·.precedence < postfixPrecedence)
  | index _ object key => key :: [object].filter (·.precedence < postfixPrecedence)
  | unary _ .not operand => [operand]
  | unary _ _ operand => [operand].filter (·.precedence ≤ signPrecedence)
  | binary _ op left right =>
    if op.precedence < notPrecedence then [left, right]
    else [left].filter (·.precedence < op.precedence) ++
      [right].filter (·.precedence ≤ op.precedence)
  | call _ _ _ args _ _ => args.map (·.2)

theorem mem_looseParts_binary {site : Site} {op : BinaryOp} {left right part : Expr} :
    part ∈ looseParts (.binary site op left right) ↔
      part = left ∧ (op.precedence < notPrecedence ∨ left.precedence < op.precedence) ∨
        part = right ∧ (op.precedence < notPrecedence ∨ right.precedence ≤ op.precedence) := by
  rw [looseParts]
  split
  · next h => simp [h]
  · next h =>
    simp only [h, false_or, List.mem_append, List.mem_filter, List.mem_singleton,
      decide_eq_true_eq]
    exact or_congr (and_congr_right fun heq => heq ▸ Iff.rfl)
      (and_congr_right fun heq => heq ▸ Iff.rfl)

/-- Whether a call is one of a function that can be called: the truth values are none. -/
def isCallable : Expr → Bool
  | call _ name _ _ _ _ => !Lexeme.sameWord name "true" && !Lexeme.sameWord name "false"
  | _ => true

/-- Every call stands where it is read as a call. -/
def Placed (e : Expr) : Prop :=
  ∀ n ∈ e.nodes, n.isCallable = true ∧ ∀ part ∈ n.looseParts, part.startsNot = false

namespace Placed

variable {e : Expr}

theorem self (h : e.Placed) :
    e.isCallable = true ∧ ∀ part ∈ e.looseParts, part.startsNot = false :=
  h e e.self_mem_nodes

theorem child {child : Expr} (h : e.Placed) (hchild : child ∈ e.children) : child.Placed :=
  fun n hn => h n (mem_nodes_of_child hchild hn)

theorem of_children (hcallable : e.isCallable = true)
    (hloose : ∀ part ∈ e.looseParts, part.startsNot = false)
    (hchildren : ∀ child ∈ e.children, child.Placed) : e.Placed := by
  intro n hn
  obtain rfl | ⟨child, hchild, hn⟩ := mem_nodes.mp hn
  · exact ⟨hcallable, hloose⟩
  · exact hchildren child hchild n hn

end Placed

section Accepted

variable {env : Env} {e : Expr}

/-- No function that can be called without doubt is called `not`. -/
theorem startsNot_of_accepted (h : Accepted env e) : e.startsNot = false := by
  induction h with
  | literal | array | map | var | field | not | signed => rfl
  | access site object name htype hname hobject hclean ih => rw [startsNot, ih, Bool.and_false]
  | index site object key htype hobject hkey hclean ih => rw [startsNot, ih, Bool.and_false]
  | binary site op left right htype hleft hright hclean ih => rw [startsNot, ih, Bool.and_false]
  | call site name target args named hname =>
    exact sameWord_of_usable ⟨hname.1, hname.2⟩ "not" (by decide)

theorem mem_children_of_mem_looseParts {part : Expr} (h : part ∈ e.looseParts) :
    part ∈ e.children := by
  cases e with
  | literal | var | field => cases h
  | array | map | call => exact h
  | access =>
    rw [looseParts] at h
    exact List.mem_of_mem_filter h
  | index =>
    simp only [looseParts, List.mem_cons, List.mem_filter] at h
    simp only [children, List.mem_cons]
    tauto
  | unary _ op =>
    cases op with
    | not => exact h
    | negate | plus =>
      simp only [looseParts] at h
      exact List.mem_of_mem_filter h
  | binary =>
    simp only [looseParts] at h
    split at h
    · exact h
    · simp only [List.mem_append, List.mem_filter, List.mem_singleton] at h
      simp only [children, List.mem_cons]
      tauto

theorem placed_of_accepted (h : Accepted env e) : e.Placed := by
  induction e using children_induction with
  | h e ih =>
    refine .of_children ?_ (fun part hpart => ?_) fun child hchild =>
      ih child hchild (h.child hchild)
    · cases h with
      | call site name target args named hname =>
        have hword := sameWord_of_usable ⟨hname.1, hname.2⟩
        rw [isCallable, hword "true" (by decide), hword "false" (by decide)]
        rfl
      | _ => rfl
    · exact startsNot_of_accepted (h.child (mem_children_of_mem_looseParts hpart))

end Accepted

end Expr

end LogRules
