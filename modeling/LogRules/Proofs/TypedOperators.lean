import LogRules.Operator
import LogRules.Proofs.Checks

/-!
Operators on values of the types that the static checks let pass. Whatever its operands are, an
operator fails for arithmetic or for what an operand is. On operands of known types that pass the
checks, it fails for arithmetic only, and its result has the type that the checks give it.
-/
namespace LogRules

namespace EvalError

/-- Faults that depend on which numbers meet. -/
def IsArithmetic (error : EvalError) : Prop :=
  error = .divisionByZero ∨ ∃ operator, error = .overflow operator

/-- Faults that depend on what kind of value an operand is, or on which place it asks for. -/
def IsOperand : EvalError → Prop
  | .typeMismatch _ _ | .nullOperand _ | .indexOutOfBounds _ _ => True
  | _ => False

theorem isOperand_mismatch (expected : ValueType) (actual : Value) :
    (mismatch expected actual).IsOperand := trivial

end EvalError

/-- The result of an outcome satisfies `Q`, or its fault satisfies `E`. -/
def Outcome {α : Type} (Q : α → Prop) (E : EvalError → Prop) : Except EvalError α → Prop
  | .ok a => Q a
  | .error error => E error

namespace Outcome

variable {α β : Type} {Q Q' : α → Prop} {E E' : EvalError → Prop} {outcome : Except EvalError α}

theorem mono (h : Outcome Q E outcome) (hQ : ∀ a, Q a → Q' a) (hE : ∀ error, E error → E' error) :
    Outcome Q' E' outcome := by
  cases outcome with
  | ok a => exact hQ a h
  | error error => exact hE error h

theorem of_error (h : Outcome Q E outcome) {error : EvalError} (herror : outcome = .error error) :
    E error := by
  rw [herror] at h
  exact h

theorem map {R : β → Prop} {f : α → β} (h : Outcome Q E outcome) (hf : ∀ a, Q a → R (f a)) :
    Outcome R E (outcome.map f) := by
  cases outcome with
  | ok a => exact hf a h
  | error error => exact h

theorem bind {R : β → Prop} {f : α → Except EvalError β} (h : Outcome Q E outcome)
    (hf : ∀ a, Q a → Outcome R E (f a)) : Outcome R E (outcome >>= f) := by
  cases outcome with
  | ok a => exact hf a h
  | error error => exact h

end Outcome

/-- Where functions are `honest` about what they return, a value has the type that is known of
it. -/
def Value.Fits (honest : Prop) (type : ValueType) (value : Value) : Prop :=
  honest → type ≠ .any → value.type = type

namespace Operator

open EvalError

/-- The faults of operators. An operand is to blame only if it is not `sure` to be fit. -/
def Excused (sure : Prop) (error : EvalError) : Prop :=
  error.IsArithmetic ∨ error.IsOperand ∧ ¬sure

theorem Excused.mono {sure sure' : Prop} {error : EvalError} (h : Excused sure error)
    (himp : sure' → sure) : Excused sure' error :=
  h.imp_right fun hoperand => ⟨hoperand.1, fun hsure => hoperand.2 (himp hsure)⟩

theorem outcome_excused {α : Type} {sure : Prop} {Q : α → Prop} {outcome : Except EvalError α}
    (hall : Outcome (fun _ => True) (Excused False) outcome)
    (hsure : sure → Outcome Q IsArithmetic outcome) :
    Outcome (fun a => sure → Q a) (Excused sure) outcome := by
  cases outcome with
  | ok a => exact hsure
  | error error =>
    by_cases h : sure
    · exact .inl (hsure h)
    · cases hall with
      | inl harithmetic => exact .inl harithmetic
      | inr hoperand => exact .inr ⟨hoperand.1, h⟩

section AnyValues

theorem excused_mismatch (expected : ValueType) (actual : Value) :
    Excused False (.mismatch expected actual) :=
  .inr ⟨isOperand_mismatch expected actual, not_false⟩

theorem excused_null (symbol : String) : Excused False (.nullOperand symbol) :=
  .inr ⟨trivial, not_false⟩

theorem excused_overflow (symbol : String) (sure : Prop) : Excused sure (.overflow symbol) :=
  .inl (.inr ⟨symbol, rfl⟩)

theorem truthy_faults (value : Value) :
    Outcome (fun _ => True) (Excused False) (truthy value) := by
  cases value with
  | boolean flag => trivial
  | _ => exact excused_mismatch _ _

theorem compare_faults (left right : Value) :
    Outcome (fun _ => True) (Excused False) (compare left right) := by
  unfold compare
  split
  · trivial
  · trivial
  · trivial
  · trivial
  · split
    · trivial
    · exact excused_mismatch _ _
    · exact excused_mismatch _ _

theorem arithmetic_faults (op : BinaryOp) (left right : Value) :
    Outcome (fun _ => True) (Excused False) (arithmetic op left right) := by
  unfold arithmetic
  split
  · exact excused_null _
  · exact excused_null _
  · split
    · exact .inl (.inl rfl)
    · split
      · trivial
      · exact excused_overflow _ _
  · split
    · trivial
    · split
      · exact excused_mismatch _ _
      · exact excused_mismatch _ _
      · split
        · exact .inl (.inl rfl)
        · trivial

theorem unary_faults (op : UnaryOp) (value : Value) :
    Outcome (fun _ => True) (Excused False) (unary op value) := by
  unfold unary
  split
  · exact (truthy_faults value).map fun _ _ => trivial
  · exact excused_null _
  · split
    · trivial
    · exact excused_overflow _ _
  · trivial
  · trivial
  · trivial
  · exact excused_mismatch _ _

theorem access_faults (object : Value) (name : String) :
    Outcome (fun _ => True) (Excused False) (access object name) := by
  cases object with
  | map entries => trivial
  | null => trivial
  | _ => exact excused_mismatch _ _

theorem index_faults (object key : Value) :
    Outcome (fun _ => True) (Excused False) (index object key) := by
  unfold index
  split
  · trivial
  · split
    · trivial
    · exact .inr ⟨trivial, not_false⟩
  · exact excused_mismatch _ _
  · trivial
  · exact excused_mismatch _ _
  · exact excused_mismatch _ _

end AnyValues

section CheckedTypes

variable {honest : Prop} {left right : Value} {a b : ValueType}

theorem boolean_of_type {value : Value} (h : value.type = .boolean) :
    ∃ flag, value = .boolean flag := by
  cases value with
  | boolean flag => exact ⟨flag, rfl⟩
  | _ => cases h

theorem string_of_type {value : Value} (h : value.type = .string) :
    ∃ text, value = .string text := by
  cases value with
  | string text => exact ⟨text, rfl⟩
  | _ => cases h

/-- Values of a numeric type are the numbers. -/
theorem number_of_type {value : Value} (h : value.type.isNumeric = true) :
    (∃ n, value = .long n) ∨ ∃ x, value = .double x := by
  cases value with
  | long n => exact .inl ⟨n, rfl⟩
  | double x => exact .inr ⟨x, rfl⟩
  | _ => cases h

theorem truthy_checked {value : Value} (hfit : value.Fits honest a)
    (hclean : ValueType.accepts .boolean a = true) :
    Outcome (fun _ => True) (Excused (honest ∧ a ≠ .any)) (truthy value) := by
  apply (outcome_excused (truthy_faults value) ?_).mono (fun _ _ => trivial) fun _ h => h
  · exact fun _ => True
  rintro ⟨hhonest, hknown⟩
  have ha : ValueType.boolean = a := by simpa [ValueType.accepts, hknown] using hclean
  obtain ⟨flag, rfl⟩ := boolean_of_type ((hfit hhonest hknown).trans ha.symm)
  trivial

theorem not_checked {value : Value} (hfit : value.Fits honest a)
    (hclean : ValueType.accepts .boolean a = true) :
    Outcome (Value.Fits honest .boolean) (Excused (honest ∧ a ≠ .any)) (unary .not value) :=
  (truthy_checked hfit hclean).map fun _ _ _ _ => rfl

theorem signed_number {op : UnaryOp} {value : Value} (hop : op ≠ .not)
    (h : value.type.isNumeric = true) :
    Outcome (fun result => result.type = value.type) IsArithmetic (unary op value) := by
  obtain ⟨n, rfl⟩ | ⟨x, rfl⟩ := number_of_type h
  · cases op with
    | not => exact absurd rfl hop
    | negate =>
      rw [unary]
      split
      · rfl
      · exact .inr ⟨_, rfl⟩
    | plus => rfl
  · cases op with
    | not => exact absurd rfl hop
    | negate => rfl
    | plus => rfl

theorem signed_checked {op : UnaryOp} {operand : Expr} {value : Value} (hop : op ≠ .not)
    (hfit : value.Fits honest operand.type)
    (hclean : (Typing.signed op .nowhere operand).errors = []) :
    Outcome (Value.Fits honest (Typing.signed op .nowhere operand).expr.type)
      (Excused (honest ∧ operand.type ≠ .any)) (unary op value) := by
  have htype : (Typing.signed op .nowhere operand).expr.type =
      if operand.type.isNumeric then operand.type else .any := rfl
  have hnumeric (hknown : operand.type ≠ .any) : operand.type.isNumeric = true := by
    by_contra hnot
    simp [Typing.signed, Typing.fault, ValueType.isKnown, hknown, hnot] at hclean
  apply (outcome_excused (unary_faults op value) ?_).mono (fun result hresult => ?_) fun _ h => h
  · exact fun result => result.type = operand.type
  · rintro ⟨hhonest, hknown⟩
    have hvalue := hfit hhonest hknown
    rw [← hvalue]
    exact signed_number hop (by rw [hvalue, hnumeric hknown])
  · intro hhonest hknown
    rw [htype] at hknown ⊢
    by_cases hany : operand.type = .any
    · rw [hany] at hknown
      exact absurd rfl hknown
    · rw [if_pos (hnumeric hany)]
      exact hresult ⟨hhonest, hany⟩

/-- Types that the check of an ordering lets pass are two numbers or two texts. -/
theorem ordered_of_clean {op : BinaryOp} {p : Position} (heq : op ≠ .eq) (hne : op ≠ .ne)
    (ha : a ≠ .any) (hb : b ≠ .any) (hclean : Typing.comparisonErrors op a b p = []) :
    (a.isNumeric = true ∧ b.isNumeric = true) ∨ (a = .string ∧ b = .string) := by
  by_cases hsame : a = b
  · subst hsame
    by_cases htext : a = .string
    · exact .inr ⟨htext, htext⟩
    · have hnumeric : a.isNumeric = true := by
        simpa [Typing.comparisonErrors, Typing.fault, ValueType.isKnown, ha, heq, hne, htext]
          using hclean
      exact .inl ⟨hnumeric, hnumeric⟩
  · left
    by_contra hnot
    have hnumeric : (a.isNumeric && b.isNumeric) = false := by simpa using hnot
    simp [Typing.comparisonErrors, Typing.fault, ValueType.isKnown, ha, hb, hsame, hnumeric]
      at hclean

theorem compare_ordered
    (h : (left.type.isNumeric = true ∧ right.type.isNumeric = true) ∨
      (left.type = .string ∧ right.type = .string)) :
    Outcome (fun _ => True) IsArithmetic (compare left right) := by
  obtain ⟨hleft, hright⟩ | ⟨hleft, hright⟩ := h
  · obtain ⟨n, rfl⟩ | ⟨x, rfl⟩ := number_of_type hleft <;>
      obtain ⟨m, rfl⟩ | ⟨y, rfl⟩ := number_of_type hright <;> trivial
  · obtain ⟨text, rfl⟩ := string_of_type hleft
    obtain ⟨text', rfl⟩ := string_of_type hright
    trivial

theorem comparison_checked {op : BinaryOp} {p : Position} (hleft : left.Fits honest a)
    (hright : right.Fits honest b) (hclean : Typing.comparisonErrors op a b p = []) :
    Outcome (fun result => result.type = .boolean) (Excused (honest ∧ a ≠ .any ∧ b ≠ .any))
      (comparison op left right) := by
  unfold comparison
  split
  · rfl
  · rfl
  · next heq hne =>
    have hcompare : Outcome (fun _ => True) (Excused (honest ∧ a ≠ .any ∧ b ≠ .any))
        (compare left right) := by
      apply (outcome_excused (compare_faults left right) ?_).mono (fun _ _ => trivial) fun _ h => h
      · exact fun _ => True
      rintro ⟨hhonest, ha, hb⟩
      apply compare_ordered
      rw [hleft hhonest ha, hright hhonest hb]
      exact ordered_of_clean heq hne ha hb hclean
    exact hcompare.map fun _ _ => rfl

/-- Types that have a type under arithmetic are two numbers, or two texts that are added. -/
theorem operands_of_arithmeticType {op : BinaryOp} (h : Typing.arithmeticType op a b ≠ .any) :
    (a.isNumeric = true ∧ b.isNumeric = true) ∨ (op = .add ∧ a = .string ∧ b = .string) := by
  by_cases hnumeric : a.isNumeric = true ∧ b.isNumeric = true
  · exact .inl hnumeric
  · have hnot : (a.isNumeric && b.isNumeric) = false := by simpa using hnumeric
    right
    by_contra htexts
    simp_all [Typing.arithmeticType]

theorem arithmetic_long (op : BinaryOp) (n m : Int64) :
    Outcome (fun result => result.type = .long) IsArithmetic
      (arithmetic op (.long n) (.long m)) := by
  rw [arithmetic]
  split
  · exact .inl rfl
  · split
    · rfl
    · exact .inr ⟨_, rfl⟩

theorem arithmetic_double (op : BinaryOp) {x y : Double} (hleft : left.asDouble? = some x)
    (hright : right.asDouble? = some y) (hlong : left.type ≠ .long ∨ right.type ≠ .long) :
    Outcome (fun result => result.type = .double) IsArithmetic (arithmetic op left right) := by
  unfold arithmetic
  split
  · cases hleft
  · cases hright
  · cases hlong with
    | inl h => exact absurd rfl h
    | inr h => exact absurd rfl h
  · split
    · cases hleft
    · rw [hleft, hright]
      simp only
      split
      · exact .inl rfl
      · rfl

/-- Arithmetic on values for which the type of the result is known. -/
theorem arithmetic_typed {op : BinaryOp}
    (h : Typing.arithmeticType op left.type right.type ≠ .any) :
    Outcome (fun result => result.type = Typing.arithmeticType op left.type right.type)
      IsArithmetic (arithmetic op left right) := by
  obtain ⟨hleft, hright⟩ | ⟨rfl, hleft, hright⟩ := operands_of_arithmeticType h
  · obtain ⟨n, rfl⟩ | ⟨x, rfl⟩ := number_of_type hleft
    · obtain ⟨m, rfl⟩ | ⟨y, rfl⟩ := number_of_type hright
      · exact arithmetic_long op n m
      · exact arithmetic_double op rfl rfl (.inr (by simp [Value.type]))
    · obtain ⟨m, rfl⟩ | ⟨y, rfl⟩ := number_of_type hright
      · exact arithmetic_double op rfl rfl (.inl (by simp [Value.type]))
      · exact arithmetic_double op rfl rfl (.inl (by simp [Value.type]))
  · obtain ⟨text, rfl⟩ := string_of_type hleft
    obtain ⟨text', rfl⟩ := string_of_type hright
    rfl

theorem arithmetic_checked {op : BinaryOp} {p : Position} (hleft : left.Fits honest a)
    (hright : right.Fits honest b) (hclean : Typing.arithmeticErrors op a b p = []) :
    Outcome (Value.Fits honest (Typing.arithmeticType op a b))
      (Excused (honest ∧ a ≠ .any ∧ b ≠ .any)) (arithmetic op left right) := by
  have hdefined (ha : a ≠ .any) (hb : b ≠ .any) : Typing.arithmeticType op a b ≠ .any := by
    intro hany
    by_cases hsame : a = b
    · subst hsame
      simp [Typing.arithmeticErrors, Typing.fault, ValueType.isKnown, hany, ha] at hclean
    · simp [Typing.arithmeticErrors, Typing.fault, ValueType.isKnown, hany, ha, hb, hsame] at hclean
  apply (outcome_excused (arithmetic_faults op left right) ?_).mono (fun result hresult => ?_)
    fun _ h => h
  · exact fun result => result.type = Typing.arithmeticType op a b
  · rintro ⟨hhonest, ha, hb⟩
    have hknown := hdefined ha hb
    rw [← hleft hhonest ha, ← hright hhonest hb] at hknown ⊢
    exact arithmetic_typed hknown
  · intro hhonest hknown
    obtain ⟨ha, hb⟩ | ⟨-, ha, hb⟩ := operands_of_arithmeticType hknown
    · refine hresult ⟨hhonest, ?_, ?_⟩
      · rintro rfl
        cases ha
      · rintro rfl
        cases hb
    · exact hresult ⟨hhonest, by simp [ha], by simp [hb]⟩

/-- An operator that evaluates both of its operands. -/
theorem binary_checked {op : BinaryOp} {l r : Expr} (hand : op ≠ .and) (hor : op ≠ .or)
    (hleft : left.Fits honest l.type) (hright : right.Fits honest r.type)
    (hclean : (Typing.join op l r .nowhere).errors = []) :
    Outcome (Value.Fits honest (Typing.joinType op l.type r.type))
      (Excused (honest ∧ l.type ≠ .any ∧ r.type ≠ .any)) (binary op left right) := by
  rw [Typing.join] at hclean
  rw [binary, Typing.joinType]
  by_cases hcomparison : op.isComparison = true
  · rw [if_pos hcomparison] at hclean ⊢
    have harithmetic : op.isArithmetic = false := by cases op <;> first | rfl | cases hcomparison
    rw [if_neg (by simp [harithmetic])]
    exact (comparison_checked hleft hright hclean).mono (fun _ h _ _ => h) fun _ h => h
  · rw [if_neg hcomparison] at hclean ⊢
    have harithmetic : op.isArithmetic = true := by
      cases op <;> first | rfl | exact absurd rfl hcomparison | exact absurd rfl hand |
        exact absurd rfl hor
    rw [if_pos harithmetic] at hclean ⊢
    rw [if_pos harithmetic]
    exact arithmetic_checked hleft hright hclean

end CheckedTypes

end Operator

end LogRules
