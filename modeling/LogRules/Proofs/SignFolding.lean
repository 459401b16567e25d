import LogRules.Eval
import LogRules.Proofs.Relocation

/-!
Trees without their places, and trees whose minus signs before plain numbers have become part of
the numbers. Neither changes the value of an expression.
-/
namespace LogRules

/-- A number without a minus sign. -/
def Value.isUnsigned : Value → Bool
  | .long n => !decide (n < 0)
  | .double x => !x.isNegative
  | _ => false

namespace Expr

mutual

/-- The same tree, said to stand nowhere. -/
def unplaced : Expr → Expr
  | literal site value => literal ⟨site.type, .nowhere⟩ value
  | array site items => array ⟨site.type, .nowhere⟩ (unplacedItems items)
  | map site entries => map ⟨site.type, .nowhere⟩ (unplacedEntries entries)
  | var site name => var ⟨site.type, .nowhere⟩ name
  | field site name => field ⟨site.type, .nowhere⟩ name
  | access site object name => access ⟨site.type, .nowhere⟩ (unplaced object) name
  | index site object key => index ⟨site.type, .nowhere⟩ (unplaced object) (unplaced key)
  | unary site op operand => unary ⟨site.type, .nowhere⟩ op (unplaced operand)
  | binary site op left right => binary ⟨site.type, .nowhere⟩ op (unplaced left) (unplaced right)
  | call site name target args named resolved =>
    call ⟨site.type, .nowhere⟩ name target (unplacedEntries args) named resolved

def unplacedItems : List Expr → List Expr
  | [] => []
  | e :: rest => unplaced e :: unplacedItems rest

def unplacedEntries : List (String × Expr) → List (String × Expr)
  | [] => []
  | (key, e) :: rest => (key, unplaced e) :: unplacedEntries rest

end

/-- The literal that a minus sign before a plain number makes. -/
def signedLiteral? : Expr → Option Value
  | unary _ .negate (literal _ value) =>
    if value.isUnsigned then some (Grammar.negateNumber value) else none
  | _ => none

mutual

/-- Every minus sign before a plain number becomes a part of the number. -/
def foldSigns : Expr → Expr
  | literal site value => literal site value
  | array site items => array site (foldItems items)
  | map site entries => map site (foldEntries entries)
  | var site name => var site name
  | field site name => field site name
  | access site object name => access site (foldSigns object) name
  | index site object key => index site (foldSigns object) (foldSigns key)
  | unary site op operand =>
    match signedLiteral? (unary site op operand) with
    | some value => literal site value
    | none => unary site op (foldSigns operand)
  | binary site op left right => binary site op (foldSigns left) (foldSigns right)
  | call site name target args named resolved =>
    call site name target (foldEntries args) named resolved

def foldItems : List Expr → List Expr
  | [] => []
  | e :: rest => foldSigns e :: foldItems rest

def foldEntries : List (String × Expr) → List (String × Expr)
  | [] => []
  | (key, e) :: rest => (key, foldSigns e) :: foldEntries rest

end

theorem unplacedEntries_map (entries : List (String × Expr)) :
    unplacedEntries entries = entries.map fun entry => (entry.1, entry.2.unplaced) := by
  induction entries with
  | nil => rfl
  | cons entry rest ih => rw [unplacedEntries, ih, List.map_cons]

theorem foldEntries_eq (entries : List (String × Expr)) :
    foldEntries entries = entries.map fun entry => (entry.1, entry.2.foldSigns) := by
  induction entries with
  | nil => rfl
  | cons entry rest ih => rw [foldEntries, ih, List.map_cons]

mutual

theorem unplaced_eq : ∀ e : Expr, e.unplaced = e.relocate fun _ => .nowhere
  | literal _ _ | var _ _ | field _ _ => by rw [unplaced, relocate]; rfl
  | array _ items => by rw [unplaced, relocate, unplacedItems_eq items]; rfl
  | map _ entries => by rw [unplaced, relocate, unplacedEntries_eq entries]; rfl
  | access _ object _ => by rw [unplaced, relocate, unplaced_eq object]; rfl
  | index _ object key => by rw [unplaced, relocate, unplaced_eq object, unplaced_eq key]; rfl
  | unary _ _ operand => by rw [unplaced, relocate, unplaced_eq operand]; rfl
  | binary _ _ left right => by rw [unplaced, relocate, unplaced_eq left, unplaced_eq right]; rfl
  | call _ _ _ args _ _ => by rw [unplaced, relocate, unplacedEntries_eq args]; rfl

theorem unplacedItems_eq :
    ∀ items, unplacedItems items = relocateItems (fun _ => .nowhere) items
  | [] => rfl
  | e :: rest => by rw [unplacedItems, relocateItems, unplaced_eq e, unplacedItems_eq rest]

theorem unplacedEntries_eq :
    ∀ entries, unplacedEntries entries = relocateEntries (fun _ => .nowhere) entries
  | [] => rfl
  | (_, e) :: rest => by
    rw [unplacedEntries, relocateEntries, unplaced_eq e, unplacedEntries_eq rest]

end

@[simp] theorem type_unplaced (e : Expr) : e.unplaced.type = e.type := by
  rw [unplaced_eq, type_relocate]

@[simp] theorem isCall_unplaced (e : Expr) : e.unplaced.isCall = e.isCall := by
  rw [unplaced_eq, isCall_relocate]

theorem depth_unplaced (e : Expr) : e.unplaced.depth = e.depth := by
  rw [unplaced_eq, depth_relocate]

theorem eval_unplaced (e : Expr) : e.unplaced.eval = e.eval := by
  rw [unplaced_eq, eval_relocate]

@[simp] theorem unplaced_moveTo (p : Position) (e : Expr) : (e.moveTo p).unplaced = e.unplaced := by
  cases e <;> rw [moveTo, unplaced, unplaced]

@[simp] theorem type_foldSigns (e : Expr) : e.foldSigns.type = e.type := by
  cases e <;> rw [foldSigns] <;> first | rfl | (split <;> rfl)

theorem isCall_foldSigns (e : Expr) : e.foldSigns.isCall = e.isCall := by
  cases e <;> rw [foldSigns] <;> first | rfl | (split <;> rfl)

mutual

theorem depth_foldSigns_le : ∀ e : Expr, e.foldSigns.depth ≤ e.depth
  | literal _ _ | var _ _ | field _ _ => by simp only [foldSigns, depth, Nat.le_refl]
  | array _ items => by
    have := depthItems_foldItems_le items
    simp only [foldSigns, depth]
    omega
  | map _ entries => by
    have := depthEntries_foldEntries_le entries
    simp only [foldSigns, depth]
    omega
  | access _ object _ => by
    have := depth_foldSigns_le object
    simp only [foldSigns, depth]
    omega
  | index _ object key => by
    have := depth_foldSigns_le object
    have := depth_foldSigns_le key
    simp only [foldSigns, depth]
    omega
  | unary site op operand => by
    have := depth_foldSigns_le operand
    rw [foldSigns]
    split <;> simp only [depth] <;> omega
  | binary _ _ left right => by
    have := depth_foldSigns_le left
    have := depth_foldSigns_le right
    simp only [foldSigns, depth]
    omega
  | call _ _ _ args _ _ => by
    have := depthEntries_foldEntries_le args
    simp only [foldSigns, depth]
    omega

theorem depthItems_foldItems_le : ∀ items, depthItems (foldItems items) ≤ depthItems items
  | [] => Nat.le_refl _
  | e :: rest => by
    have := depth_foldSigns_le e
    have := depthItems_foldItems_le rest
    simp only [foldItems, depthItems]
    omega

theorem depthEntries_foldEntries_le :
    ∀ entries, depthEntries (foldEntries entries) ≤ depthEntries entries
  | [] => Nat.le_refl _
  | (_, e) :: rest => by
    have := depth_foldSigns_le e
    have := depthEntries_foldEntries_le rest
    simp only [foldEntries, depthEntries]
    omega

end

theorem unary_negate_eq {value : Value} (h : value.isUnsigned) :
    Operator.unary .negate value = .ok (Grammar.negateNumber value) := by
  cases value with
  | long n =>
    have hn : ¬ n < 0 := by simpa [Value.isUnsigned] using h
    rw [Int64.lt_iff_toInt_lt, Int64.toInt_zero] at hn
    have hhigh := n.toInt_lt
    have hrange : Long.least ≤ -n.toInt ∧ -n.toInt ≤ Long.greatest := by
      simp only [Long.least, Long.greatest]
      omega
    simp only [Operator.unary, Long.ofInt?, if_pos hrange, Int64.ofInt_neg, Int64.ofInt_toInt,
      Grammar.negateNumber]
  | double x => rfl
  | _ => simp [Value.isUnsigned] at h

/-- What a sign becomes a part of: a minus sign of a plain number. -/
theorem signedLiteral?_eq_some {site : Site} {op : UnaryOp} {operand : Expr} {value : Value}
    (h : signedLiteral? (.unary site op operand) = some value) :
    ∃ literalSite plain, op = .negate ∧ operand = .literal literalSite plain ∧
      plain.isUnsigned ∧ value = Grammar.negateNumber plain := by
  rw [signedLiteral?.eq_def] at h
  split at h
  · next heq =>
    cases heq
    split at h
    · next hplain => exact ⟨_, _, rfl, rfl, hplain, (Option.some.inj h).symm⟩
    · cases h
  · cases h

theorem eval_of_signedLiteral? {site : Site} {op : UnaryOp} {operand : Expr} {value : Value}
    (h : signedLiteral? (.unary site op operand) = some value) :
    eval (.unary site op operand) = pure value := by
  obtain ⟨literalSite, plain, rfl, rfl, hplain, rfl⟩ := signedLiteral?_eq_some h
  simp only [eval, pure_bind, unary_negate_eq hplain]
  exact EvalM.ext_runOn fun _ => rfl

mutual

/-- Evaluation does not tell a sign before a number from a signed number. -/
theorem eval_foldSigns : ∀ e : Expr, e.foldSigns.eval = e.eval
  | literal _ _ | var _ _ | field _ _ => by simp only [foldSigns]
  | array _ items => by simp only [foldSigns, eval, evalItems_foldItems items]
  | map _ entries => by simp only [foldSigns, eval, evalEntries_foldEntries entries]
  | access _ object _ => by simp only [foldSigns, eval, eval_foldSigns object]
  | index _ object key => by simp only [foldSigns, eval, eval_foldSigns object, eval_foldSigns key]
  | unary site op operand => by
    rw [foldSigns]
    split
    · next value h => rw [eval_of_signedLiteral? h, eval]
    · simp only [eval, eval_foldSigns operand]
  | binary _ op left right => by
    rw [foldSigns]
    exact eval_binary_congr op (eval_foldSigns left) (eval_foldSigns right)
  | call _ _ _ args _ _ => by simp only [foldSigns, eval, evalEntries_foldEntries args]

theorem evalItems_foldItems : ∀ items, evalItems (foldItems items) = evalItems items
  | [] => rfl
  | e :: rest => by
    simp only [foldItems, evalItems, eval_foldSigns e, evalItems_foldItems rest]

theorem evalEntries_foldEntries : ∀ entries, evalEntries (foldEntries entries) =
    evalEntries entries
  | [] => rfl
  | (_, e) :: rest => by
    simp only [foldEntries, evalEntries, eval_foldSigns e, evalEntries_foldEntries rest]

end

/-- A tree is another one up to places and to signs that have become a part of their numbers. -/
def Rereads (found e : Expr) : Prop := found.unplaced = e.foldSigns.unplaced

namespace Rereads

variable {found e : Expr}

theorem type_eq (h : Rereads found e) : found.type = e.type := by
  rw [← type_unplaced, h, type_unplaced, type_foldSigns]

theorem isCall_eq (h : Rereads found e) : found.isCall = e.isCall := by
  rw [← isCall_unplaced, h, isCall_unplaced, isCall_foldSigns]

theorem depth_le (h : Rereads found e) : found.depth ≤ e.depth := by
  rw [← depth_unplaced, h, depth_unplaced]
  exact depth_foldSigns_le e

theorem eval_eq (h : Rereads found e) : found.eval = e.eval := by
  rw [← eval_unplaced, h, eval_unplaced, eval_foldSigns]

end Rereads

end Expr

end LogRules
