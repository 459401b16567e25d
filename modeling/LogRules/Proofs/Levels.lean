import LogRules.Expr.Text
import LogRules.Proofs.Checks
import LogRules.Grammar.Expression

/-!
The levels of the grammar by number. The number of a level is the precedence of the operators that
it reads, and every chain of operators joins its operands in the same way.
-/
namespace LogRules.Grammar

theorem chain_congr {operand : Parse Expr} {operator? : Lexeme → Option BinaryOp}
    {join join' : BinaryOp → Expr → Expr → Position → Checked}
    (h : ∀ l op, operator? l = some op → join op = join' op) :
    chain operand operator? join = chain operand operator? join' := by
  have hloop (fuel : Nat) (left : Expr) :
      chainLoop operand operator? join fuel left = chainLoop operand operator? join' fuel left := by
    induction fuel generalizing left with
    | zero => rfl
    | succ fuel ih =>
      simp only [chainLoop, ih]
      congr 1
      funext p
      congr 1
      funext l
      cases hop : operator? l with
      | none => rfl
      | some op => simp only [h l op hop]
  simp only [chain, hloop]

/-- The parser of what binds at least as tightly as a number says. -/
def level (env : Env) (deeper : Deeper Parse) : Nat → Parse Expr
  | 0 | 1 => orLevel env deeper
  | 2 => andLevel env deeper
  | 3 => notLevel env deeper
  | 4 => equalityLevel env deeper
  | 5 => orderLevel env deeper
  | 6 => sumLevel env deeper
  | 7 => productLevel env deeper
  | 8 => signLevel env deeper
  | _ => do postfixTail deeper (← primary env deeper)

/-- The operator that a level reads between two operands. -/
def operatorAt? : Nat → Lexeme → Option BinaryOp
  | 1 => orOperator?
  | 2 => andOperator?
  | 4 => equalityOperator?
  | 5 => orderOperator?
  | 6 => sumOperator?
  | 7 => productOperator?
  | _ => fun _ => none

theorem precedence_of_operatorAt? {k : Nat} {l : Lexeme} {op : BinaryOp}
    (h : operatorAt? k l = some op) : op.precedence = k := by
  rw [operatorAt?.eq_def] at h
  split at h
  · rw [orOperator?] at h
    split at h <;> cases h
    rfl
  · rw [andOperator?] at h
    split at h <;> cases h
    rfl
  · rw [equalityOperator?.eq_def] at h
    split at h <;> cases h <;> rfl
  · rw [orderOperator?.eq_def] at h
    split at h <;> cases h <;> rfl
  · rw [sumOperator?.eq_def] at h
    split at h <;> cases h <;> rfl
  · rw [productOperator?.eq_def] at h
    split at h <;> cases h <;> rfl
  · cases h

/-- The levels that read operators between operands. -/
def IsChain (k : Nat) : Prop := k = 1 ∨ k = 2 ∨ 4 ≤ k ∧ k ≤ 7

theorem isChain_precedence (op : BinaryOp) : IsChain op.precedence := by
  cases op <;> simp [IsChain, BinaryOp.precedence]

/-- A level of operators is a chain of what binds more tightly. -/
theorem level_chain (env : Env) (deeper : Deeper Parse) {k : Nat} (hk : IsChain k) :
    level env deeper k = chain (level env deeper (k + 1)) (operatorAt? k) Typing.join := by
  have hlevel : ∀ l op, operatorAt? k l = some op → op.precedence = k :=
    fun l op => precedence_of_operatorAt?
  obtain rfl | rfl | rfl | rfl | rfl | rfl : k = 1 ∨ k = 2 ∨ k = 4 ∨ k = 5 ∨ k = 6 ∨ k = 7 := by
    rw [IsChain] at hk
    omega
  all_goals
    refine chain_congr fun l op hop => ?_
    have hop := hlevel l op hop
    cases op <;> first | rfl | cases hop

end LogRules.Grammar
