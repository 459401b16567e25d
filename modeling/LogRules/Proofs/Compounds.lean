import LogRules.Proofs.Atoms

/-!
Accesses, signs and operators are read back if their operands are.
-/
namespace LogRules

open Parse Grammar

namespace Expr

variable {callable : String → Prop} {env : Env} {room : Nat} {site : Site}

/-- The object of an access is read by the tightest level. -/
theorem Legible.leads_object {object : Expr} (h : Legible env object)
    (hroom : enclosedLevels (object.precedence < postfixPrecedence) object.levels ≤ room)
    (hstart : object.precedence < postfixPrecedence → object.startsNot = false) :
    Leads env (nested env room) 9
      (Piece.lexemes (Piece.parens (object.precedence < postfixPrecedence) object.pieces))
      (·.Rereads object) := by
  refine h.leads_operand room hroom (by omega) (Nat.le_refl 9)
    (fun h => Nat.le_of_not_lt (of_decide_eq_false h)) fun h => hstart ?_
  exact h.elim of_decide_eq_true fun h => absurd h (by omega)

theorem leads_access {object : Expr} {name : String} (htype : site.type = .any)
    (hobject : Legible env object) (hclean : (Typing.access object name .nowhere).errors = [])
    (hdepth : depth (.access site object name) ≤ maxNesting)
    (hstart : ∀ part ∈ looseParts (.access site object name), part.startsNot = false)
    (hroom : levels (.access site object name) ≤ room) :
    Leads env (nested env room) 9 (lexemes (.access site object name))
      (·.Rereads (.access site object name)) := by
  have hlexemes : lexemes (.access site object name) =
      Piece.lexemes (Piece.parens (object.precedence < postfixPrecedence) object.pieces) ++
        [.symbol .dot, identifierLexeme name] := by
    simp [lexemes, pieces, Piece.symbol]
  have hoperand := hobject.leads_object hroom (by simpa [looseParts] using hstart)
  rw [hlexemes]
  refine hoperand.extend (endsLevel_access (.inl rfl)) fun left fuel hleft => ?_
  refine .here fun p => .eatIf (by simp) (by simp) ?_
  refine (reads_expectName (identifierLexeme_cases name) _).bind (fun _ _ => trivial)
    fun found hfound => ?_
  rw [hfound]
  have hrereads : Rereads (Typing.access left name p).expr (.access site object name) := by
    rw [Typing.access, Rereads, foldSigns, unplaced, unplaced, hleft, htype]
  refine answers_turn ?_ (hrereads.depth_le.trans hdepth) hrereads
  exact (Typing.access_congr .nowhere p name hleft.type_eq.symm).mp hclean

theorem leads_index {object key : Expr} (htype : site.type = .any) (hobject : Legible env object)
    (hkey : Legible env key) (hclean : (Typing.index object key .nowhere).errors = [])
    (hdepth : depth (.index site object key) ≤ maxNesting)
    (hstart : ∀ part ∈ looseParts (.index site object key), part.startsNot = false)
    (hroom : levels (.index site object key) ≤ room) :
    Leads env (nested env room) 9 (lexemes (.index site object key))
      (·.Rereads (.index site object key)) := by
  have hlexemes : lexemes (.index site object key) =
      Piece.lexemes (Piece.parens (object.precedence < postfixPrecedence) object.pieces) ++
        .symbol .leftBracket :: (key.lexemes ++ [.symbol .rightBracket]) := by
    simp [lexemes, pieces, Piece.symbol]
  obtain ⟨hobjectRoom, hkeyRoom⟩ := Nat.max_le.mp hroom
  have hkeyStart : key.startsNot = false := hstart key (by simp [looseParts])
  have hoperand := hobject.leads_object hobjectRoom fun h => hstart object (by simp [looseParts, h])
  rw [hlexemes]
  refine hoperand.extend (endsLevel_access (.inr rfl)) fun left fuel hleft => ?_
  refine .here fun p => .eatIf_not (by simp) (.eatIf (by simp) (by simp) ?_)
  refine (hkey.reads_expression hkeyStart room hkeyRoom).bind ?_ fun found hfound => ?_
  · rintro _ rfl
    exact endsLevel_closing (by simp) 0
  refine (reads_expect .rightBracket _).bind (fun _ _ => trivial) fun _ _ => ?_
  have hrereads : Rereads (Typing.index left found p).expr (.index site object key) := by
    rw [Typing.index, Rereads, foldSigns, unplaced, unplaced, hleft, hfound, htype]
  refine answers_turn ?_ (hrereads.depth_le.trans hdepth) hrereads
  exact (Typing.index_congr .nowhere p hleft.type_eq.symm hfound.type_eq.symm).mp hclean

/-- What stands behind `not` or a sign is read one level deeper. -/
theorem Legible.reads_prefixed {k : Nat} {e : Expr} (h : Legible env e) (hk : k = 3 ∨ k = 8)
    {needed : Bool} (hroom : enclosedLevels needed e.levels ≤ room)
    (hneeded : needed = false → k ≤ e.precedence)
    (hstart : needed = true ∨ k ≤ 3 → e.startsNot = false) :
    Reads (do checkDepth (← level env (nested env room) k))
      (Piece.lexemes (Piece.parens needed e.pieces)) (·.EndsLevel k) (·.Rereads e) := by
  have hleads := h.leads_operand room hroom (by omega) (by omega) hneeded hstart
  have hlevel := hleads.reads (Nat.le_refl k) (.inr hk) (by omega)
  intro tokens rest hls hends
  obtain ⟨found, hreply, hfound⟩ := hlevel tokens rest hls hends
  have hdepth : found.depth ≤ maxNesting := hfound.depth_le.trans h.depth_le
  refine ⟨found, ?_, hfound⟩
  rw [bind_eq hreply, checkDepth_of_le hdepth]

theorem leads_not {operand : Expr} (htype : site.type = .boolean) (hoperand : Legible env operand)
    (hclean : (Typing.negation .nowhere operand).errors = []) (hstart : operand.startsNot = false)
    (hroom : levels (.unary site .not operand) ≤ room) :
    Leads env (nested env room) 3 (lexemes (.unary site .not operand))
      (·.Rereads (.unary site .not operand)) := by
  have hlexemes : lexemes (.unary site .not operand) = .name "not" ::
      Piece.lexemes (Piece.parens (operand.precedence < notPrecedence) operand.pieces) := by
    simp [lexemes, pieces]
  rw [levels, nesting] at hroom
  obtain ⟨room, rfl⟩ : ∃ n, room = n + 1 := ⟨room - 1, by omega⟩
  have hnegated : Reads (nested env (room + 1)).negated _ (·.EndsLevel 3) (·.Rereads operand) :=
    hoperand.reads_prefixed (.inl rfl) (Nat.le_of_succ_le_succ hroom)
      (fun h => Nat.le_of_not_lt (of_decide_eq_false h)) fun _ => hstart
  rw [hlexemes]
  refine leads_of_reads (.inl rfl) (.here fun p => .eatIf (by simp) (by decide) ?_)
  intro tokens rest hls hends
  obtain ⟨found, hreply, hfound⟩ := hnegated tokens rest hls hends
  have hchecked : (Typing.negation p found).errors = [] :=
    (Typing.negation_congr .nowhere p hfound.type_eq.symm).mp hclean
  have hrereads : Rereads (Typing.negation p found).expr (.unary site .not operand) :=
    rereads_unary rfl htype.symm hfound
  refine ⟨_, ?_, hrereads⟩
  rw [if_pos rfl, bind_eq hreply]
  exact accept_of_clean hchecked rest

/-- A sign that is checked stands before a number or before no literal. -/
theorem isUnsigned_of_signed {op : UnaryOp} {literalSite : Site} {value : Value}
    (hvalue : value.Writable) (htype : literalSite.type = value.type)
    (hprec : 8 < precedence (.literal literalSite value))
    (hclean : (Typing.signed op .nowhere (.literal literalSite value)).errors = []) :
    value.isUnsigned := by
  have hliteral : (literal literalSite value).type = value.type := htype
  simp only [Typing.signed, hliteral] at hclean
  cases value with
  | long n =>
    rw [precedence] at hprec
    split at hprec
    · exact absurd hprec (by decide)
    · next hn => simpa [Value.isUnsigned] using hn
  | double x =>
    rw [precedence] at hprec
    split at hprec
    · exact absurd hprec (by decide)
    · next hx => simpa [Value.isUnsigned] using hx
  | boolean flag | string text =>
    simp [Value.type, ValueType.isKnown, ValueType.isNumeric, Typing.fault] at hclean
  | null | list | map => cases hvalue

theorem exists_lexemes_signed (site literalSite : Site) {plain : Value} (h : plain.isUnsigned) :
    ∃ l, lexemes (.unary site .negate (.literal literalSite plain)) = [.symbol .minus, l] ∧
      number? l = some plain := by
  cases plain with
  | long n =>
    have hn : ¬ n < 0 := by simpa [Value.isUnsigned] using h
    refine ⟨.integer n, ?_, rfl⟩
    simp [lexemes, pieces, Value.pieces, hn, precedence, signPrecedence, atomPrecedence,
      Piece.parens, Piece.symbol]
  | double x =>
    have hx : ¬ x.isNegative := by simpa [Value.isUnsigned] using h
    refine ⟨.float x, ?_, rfl⟩
    simp [lexemes, pieces, Value.pieces, hx, precedence, signPrecedence, atomPrecedence,
      Piece.parens, Piece.symbol]
  | _ => simp [Value.isUnsigned] at h

theorem leads_foldedSign {op : UnaryOp} {operand : Expr} {value : Value}
    (hfold : signedLiteral? (.unary site op operand) = some value)
    (htype : site.type = (Typing.signed op .nowhere operand).expr.type)
    (hoperand : Clean callable env operand) :
    Leads env (nested env room) 8 (lexemes (.unary site op operand))
      (·.Rereads (.unary site op operand)) := by
  obtain ⟨literalSite, plain, rfl, rfl, hplain, rfl⟩ := signedLiteral?_eq_some hfold
  have hliteral : literalSite.type = plain.type := by
    cases hoperand with
    | literal _ _ hvalue htype => exact htype
  have hnumeric : plain.type.isNumeric := by
    cases plain <;> first | rfl | simp [Value.isUnsigned] at hplain
  have hvalue : site.type = (negateNumber plain).type := by
    have hoperandType : (literal literalSite plain).type = plain.type := hliteral
    have hkept : (negateNumber plain).type = plain.type := by cases plain <;> rfl
    rw [htype, hkept]
    simp only [Typing.signed, hoperandType, hnumeric, if_true]
    rfl
  have hnull : (negateNumber plain).isNull = false := by
    cases plain <;> first | rfl | simp [Value.isUnsigned] at hplain
  obtain ⟨l, hlexemes, hl⟩ := exists_lexemes_signed site literalSite hplain
  rw [hlexemes]
  refine leads_of_reads (.inr rfl) (reads_signedNumber hl fun p => ?_)
  rw [Rereads, foldSigns, hfold]
  exact rereads_ofValue p hnull hvalue

/-- The operand of a sign that stays a node does not start with a number behind a minus sign. -/
theorem exists_signedFirst {op : UnaryOp} {operand : Expr}
    (hfold : signedLiteral? (.unary site op operand) = none) (hoperand : Clean callable env operand)
    (hclean : (Typing.signed op .nowhere operand).errors = []) :
    ∃ l more, Piece.lexemes (Piece.parens (operand.precedence ≤ signPrecedence) operand.pieces) =
      l :: more ∧ (op = .negate → number? l = none) := by
  obtain ⟨l, ps, hl⟩ := exists_opening hoperand
  by_cases hneeded : operand.precedence ≤ signPrecedence
  · rw [decide_eq_true hneeded]
    exact ⟨.symbol .leftParen, _, rfl, fun _ => rfl⟩
  · have hprec : 8 < operand.precedence := Nat.lt_of_not_le hneeded
    rw [decide_eq_false hneeded]
    refine ⟨l, Piece.lexemes ps, hl.lexemes_eq, fun hop => hl.number hprec ?_⟩
    cases hoperand with
    | literal literalSite value hvalue htype =>
      have hplain := isUnsigned_of_signed hvalue htype hprec hclean
      rw [hop, signedLiteral?, if_pos hplain] at hfold
      cases hfold
    | _ => rfl

theorem reads_signed {op : UnaryOp} {operand : Expr} (p : Position)
    (hfold : signedLiteral? (.unary site op operand) = none)
    (htype : site.type = (Typing.signed op .nowhere operand).expr.type)
    (hoperand : Legible env operand)
    (hclean : (Typing.signed op .nowhere operand).errors = [])
    (hstart : operand.precedence ≤ signPrecedence → operand.startsNot = false)
    (hroom : enclosedLevels (operand.precedence ≤ signPrecedence) operand.levels ≤ room) :
    Reads (do accept (Typing.signed op p (← (nested env (room + 1)).signed)))
      (Piece.lexemes (Piece.parens (operand.precedence ≤ signPrecedence) operand.pieces))
      (·.EndsLevel 8) (·.Rereads (.unary site op operand)) := by
  have hsigned : Reads (nested env (room + 1)).signed _ (·.EndsLevel 8) (·.Rereads operand) :=
    hoperand.reads_prefixed (.inr rfl) hroom (fun h => Nat.le_of_not_le (of_decide_eq_false h))
      fun h => hstart (h.elim of_decide_eq_true fun h => absurd h (by omega))
  intro tokens rest hls hends
  obtain ⟨found, hreply, hfound⟩ := hsigned tokens rest hls hends
  have hchecked : (Typing.signed op p found).errors = [] :=
    (Typing.signed_congr .nowhere p op hfound.type_eq.symm).mp hclean
  have hsame : (Typing.signed op p found).expr.type = site.type := by
    rw [htype]
    simp only [Typing.signed, hfound.type_eq]
    rfl
  have hrereads : Rereads (Typing.signed op p found).expr (.unary site op operand) :=
    rereads_unary hfold hsame hfound
  exact ⟨_, by rw [bind_eq hreply, accept_of_clean hchecked], hrereads⟩

theorem leads_signed {op : UnaryOp} {operand : Expr} (hop : op ≠ .not)
    (htype : site.type = (Typing.signed op .nowhere operand).expr.type)
    (hcleanOperand : Clean callable env operand) (hoperand : Legible env operand)
    (hclean : (Typing.signed op .nowhere operand).errors = [])
    (hstart : ∀ part ∈ looseParts (.unary site op operand), part.startsNot = false)
    (hroom : levels (.unary site op operand) ≤ room) :
    Leads env (nested env room) 8 (lexemes (.unary site op operand))
      (·.Rereads (.unary site op operand)) := by
  cases hfold : signedLiteral? (.unary site op operand) with
  | some value => exact leads_foldedSign hfold htype hcleanOperand
  | none =>
    have hlexemes : ∃ s, signOperator? (.symbol s) = some op ∧
        lexemes (.unary site op operand) = .symbol s ::
          Piece.lexemes (Piece.parens (operand.precedence ≤ signPrecedence) operand.pieces) := by
      cases op with
      | not => exact absurd rfl hop
      | negate => exact ⟨.minus, rfl, by simp [lexemes, pieces, Piece.symbol]⟩
      | plus => exact ⟨.plus, rfl, by simp [lexemes, pieces, Piece.symbol]⟩
    obtain ⟨s, hs, hlexemes⟩ := hlexemes
    obtain ⟨l, more, hl, hnumber⟩ := exists_signedFirst hfold hcleanOperand hclean
    have hpart (h : operand.precedence ≤ signPrecedence) : operand.startsNot = false := by
      apply hstart
      cases op <;> simp [looseParts, h]
    rw [levels_sign hop] at hroom
    obtain ⟨room, rfl⟩ : ∃ n, room = n + 1 := ⟨room - 1, by omega⟩
    rw [hlexemes]
    refine leads_of_reads (.inr rfl) (.here fun p => .peek ?_)
    rw [hs]
    refine .advance (by simp) ?_
    have hreads := reads_signed p hfold htype hoperand hclean hpart
      (Nat.le_of_succ_le_succ hroom)
    rw [hl] at hreads ⊢
    refine .peek ?_
    cases op with
    | not => exact absurd rfl hop
    | negate =>
      rw [hnumber rfl]
      exact hreads
    | plus => cases number? l <;> exact hreads

theorem leads_binary {op : BinaryOp} {left right : Expr}
    (htype : site.type = Typing.joinType op left.type right.type) (hleft : Legible env left)
    (hright : Legible env right) (hclean : (Typing.join op left right .nowhere).errors = [])
    (hdepth : depth (.binary site op left right) ≤ maxNesting)
    (hstart : ∀ part ∈ looseParts (.binary site op left right), part.startsNot = false)
    (hroom : levels (.binary site op left right) ≤ room) :
    Leads env (nested env room) op.precedence (lexemes (.binary site op left right))
      (·.Rereads (.binary site op left right)) := by
  have hlexemes : lexemes (.binary site op left right) =
      Piece.lexemes (Piece.parens (left.precedence < op.precedence) left.pieces) ++
        op.lexeme ::
          Piece.lexemes (Piece.parens (right.precedence ≤ op.precedence) right.pieces) := by
    simp [lexemes, pieces]
  have hchain := isChain_precedence op
  have hlevel : 1 ≤ op.precedence ∧ op.precedence ≤ 7 := by
    rw [Grammar.IsChain] at hchain
    omega
  obtain ⟨hroomLeft, hroomRight⟩ := Nat.max_le.mp hroom
  have hneeded {p : Prop} [Decidable p] (h : decide p = true ∨ op.precedence ≤ 3) :
      p ∨ op.precedence < notPrecedence := by
    rw [Grammar.IsChain] at hchain
    rw [notPrecedence]
    exact h.imp of_decide_eq_true (by omega)
  have hfirst := hleft.leads_operand room hroomLeft hlevel.1 (by omega)
    (fun h => Nat.le_of_not_lt (of_decide_eq_false h))
    fun h => hstart left (mem_looseParts_binary.mpr (.inl ⟨rfl, (hneeded h).symm⟩))
  have hsecond := hright.leads_operand room hroomRight (k := op.precedence + 1)
    (by omega) (by omega) (fun h => Nat.lt_of_not_le (of_decide_eq_false h))
    fun h => hstart right (mem_looseParts_binary.mpr
      (.inr ⟨rfl, (hneeded (h.imp_right Nat.le_of_succ_le)).symm⟩))
  have hoperand := hsecond.reads (j := op.precedence) (by omega) (by omega) (by omega)
  have heof : op.lexeme ≠ .eof := by cases op <;> simp [BinaryOp.lexeme]
  have hloop (fuel : Nat) (e : Expr) : levelLoop env (nested env room) op.precedence fuel e =
      chainLoop (level env (nested env room) (op.precedence + 1)) (operatorAt? op.precedence)
        Typing.join fuel e := by
    rw [levelLoop, if_neg (by omega)]
  rw [hlexemes]
  refine hfirst.extend (endsLevel_lexeme op) fun found fuel hfound => ?_
  simp only [hloop]
  refine .here fun p => .peek ?_
  rw [operatorAt?_lexeme]
  refine .advance heof ?_
  intro tokens rest hls hends
  obtain ⟨found', hreply, hfound'⟩ := hoperand tokens rest hls hends
  have hrereads : Rereads (Typing.join op found found' p).expr (.binary site op left right) := by
    rw [Typing.join_expr, Typing.binary, Rereads, foldSigns, unplaced, unplaced, hfound, hfound',
      hfound.type_eq, hfound'.type_eq, htype]
  have hchecked : (Typing.join op found found' p).errors = [] :=
    (Typing.join_congr .nowhere p op hfound.type_eq.symm hfound'.type_eq.symm).mp hclean
  rw [bind_eq hreply]
  exact answers_turn hchecked (hrereads.depth_le.trans hdepth) hrereads [] rest rfl hends

end Expr

end LogRules
