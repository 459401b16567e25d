import LogRules.Proofs.Openings

/-!
The canonical text of an accepted expression is readable wherever something follows that cannot go
on with a name or a number.
-/
namespace LogRules

open Piece

/-- What can follow an expression in a text. -/
structure Stops (rest : List Char) : Prop where
  number : EndsNumber rest
  accent : EndsRun (· == Text.accent) rest

theorem stops_nil : Stops [] := ⟨⟨endsRun_nil _, by simp⟩, endsRun_nil _⟩

theorem stops_cons {c : Char} (hname : Text.isNameChar c = false) (haccent : c ≠ Text.accent)
    (hpoint : c ≠ '.') (rest : List Char) : Stops (c :: rest) := by
  refine ⟨⟨endsRun_cons.mpr hname, ?_⟩, endsRun_cons.mpr (by simpa using haccent)⟩
  rintro d tail ⟨⟩
  exact absurd rfl hpoint

theorem spellable_identifierLexeme {name : String} (h : OnOneLine name) :
    (identifierLexeme name).Spellable := by
  rw [identifierLexeme]
  split
  · next hplain => exact hplain
  · exact h

theorem spellable_keyLexeme (key : String) : (keyLexeme key).Spellable := by
  rw [keyLexeme]
  split
  · next hplain => exact hplain
  · trivial

theorem endsBefore_identifierLexeme (name : String) {rest : List Char} (h : Stops rest) :
    (identifierLexeme name).EndsBefore rest := by
  rw [identifierLexeme]
  split
  · exact h.number.endsRun
  · exact h.accent

theorem endsBefore_keyLexeme (key : String) {rest : List Char} (h : Stops rest) :
    (keyLexeme key).EndsBefore rest := by
  rw [keyLexeme]
  split
  · exact h.number.endsRun
  · trivial

/-- A point with a name behind it is not a part of a number. -/
theorem stops_dot (name : String) (rest : List Char) :
    Stops ('.' :: ((identifierLexeme name).spelling ++ rest)) := by
  refine ⟨⟨endsRun_cons.mpr (by decide), ?_⟩, endsRun_cons.mpr (by decide)⟩
  rintro d tail heq
  have htail := (List.cons.inj heq).2
  rw [identifierLexeme] at htail
  split at htail
  · next hplain =>
    obtain ⟨c, more, hlist, hstart, -⟩ := exists_cons_of_plain hplain
    rw [Lexeme.spelling, hlist] at htail
    cases htail
    by_contra hdigit
    rw [not_isNameStart_of_isDigit (by simpa using hdigit)] at hstart
    cases hstart
  · cases htail
    decide

/-- Pieces that are readable before everything that can follow an expression. -/
def Standalone (ps : List Piece) : Prop :=
  (∃ l more, ps = token l :: more) ∧ ∀ rest, Stops rest → Readable rest ps

/-- Symbols that stand before and behind what they enclose. -/
inductive Encloses : Symbol → Symbol → Prop
  | parens : Encloses .leftParen .rightParen
  | brackets : Encloses .leftBracket .rightBracket
  | braces : Encloses .leftBrace .rightBrace

namespace Standalone

variable {ps qs : List Piece}

/-- A closing symbol can follow an expression. -/
theorem enclosed {s s' : Symbol} (hs : Encloses s s') (h : ∀ rest, Stops rest → Readable rest ps) :
    Standalone (symbol s :: (ps ++ [symbol s'])) := by
  cases hs
  all_goals
    refine ⟨⟨_, _, rfl⟩, fun rest _ =>
      ⟨trivial, trivial, readable_append (h _ ?_) ⟨trivial, trivial, trivial⟩⟩⟩
    exact stops_cons (by decide) (by decide) (by decide) rest

theorem parens (h : Standalone ps) (needed : Bool) : Standalone (Piece.parens needed ps) := by
  cases needed with
  | false => exact h
  | true =>
    exact enclosed .parens h.2

/-- What can follow an expression and is readable by itself is readable behind it. -/
theorem append (h : Standalone ps)
    (hqs : ∀ rest, Stops rest → Stops (Piece.text qs ++ rest) ∧ Readable rest qs) :
    Standalone (ps ++ qs) := by
  obtain ⟨⟨l, more, rfl⟩, hps⟩ := h
  refine ⟨⟨l, more ++ qs, rfl⟩, fun rest hrest => ?_⟩
  obtain ⟨hstops, hreadable⟩ := hqs rest hrest
  exact readable_append (hps _ hstops) hreadable

/-- A label stands before a colon and the expression that it belongs to. -/
theorem labelled {l : Lexeme} (hl : l.Spellable) (hends : ∀ {rest}, Stops rest → l.EndsBefore rest)
    (h : Standalone ps) : Standalone (token l :: symbol .colon :: gap :: ps) := by
  refine ⟨⟨_, _, rfl⟩, fun rest hrest => ⟨hl, hends ?_, trivial, trivial, h.1, h.2 rest hrest⟩⟩
  exact stops_cons (by decide) (by decide) (by decide) _

theorem separated {pss : List (List Piece)} (h : ∀ ps ∈ pss, Standalone ps) {rest : List Char}
    (hrest : Stops rest) : Readable rest (Piece.separated pss) := by
  induction pss with
  | nil => trivial
  | cons ps pss ih =>
    have hps := h ps (by simp)
    have hmore := ih fun qs hqs => h qs (by simp [hqs])
    cases pss with
    | nil => simpa [Piece.separated] using hps.2 rest hrest
    | cons qs pss =>
      obtain ⟨⟨l, more, rfl⟩, -⟩ := h qs (by simp)
      obtain ⟨tail, htail⟩ := exists_separated_cons (token l :: more) pss
      rw [Piece.separated, List.intercalate_cons_cons, ← Piece.separated, List.append_assoc]
      rw [htail] at hmore ⊢
      refine readable_append (hps.2 _ ?_) ⟨trivial, trivial, ⟨⟨l, _, rfl⟩, hmore⟩⟩
      exact stops_cons (by decide) (by decide) (by decide) _

end Standalone

theorem readable_literal {value : Value} (h : value.Writable) {rest : List Char}
    (hrest : Stops rest) : Readable rest value.pieces := by
  cases value with
  | boolean flag =>
    refine ⟨?_, hrest.number.endsRun, trivial⟩
    cases flag with
    | true => exact (by decide : Text.isPlainName "true".toList = true)
    | false => exact (by decide : Text.isPlainName "false".toList = true)
  | string text => exact ⟨trivial, trivial, trivial⟩
  | long n =>
    have hneg := Long.toInt_neg h
    have hlt : n < 0 ↔ n.toInt < 0 := by rw [Int64.lt_iff_toInt_lt, Int64.toInt_zero]
    rw [Value.pieces]
    split
    · next hn =>
      have hopposite : 0 ≤ (-n).toInt := by rw [hneg]; rw [hlt] at hn; omega
      exact ⟨trivial, trivial, hopposite, hrest.number, trivial⟩
    · next hn =>
      have hplain : 0 ≤ n.toInt := by rw [hlt] at hn; omega
      exact ⟨hplain, hrest.number, trivial⟩
  | double x =>
    have hfinite : x.isFinite := h
    rw [Value.pieces]
    split
    · next hx =>
      refine ⟨trivial, trivial, ⟨?_, ?_⟩, hrest.number, trivial⟩
      · rw [Double.isFinite_neg, hfinite]
      · rw [Double.isNegative_neg, hx, Bool.not_true]
    · next hx => exact ⟨⟨hfinite, by simpa using hx⟩, hrest.number, trivial⟩
  | null | list | map => cases h

theorem readable_operator (op : BinaryOp) {rest : List Char} {ps : List Piece}
    (hnext : ∃ l more, ps = token l :: more) (h : Readable rest ps) :
    Readable rest (gap :: token op.lexeme :: gap :: ps) := by
  refine ⟨⟨_, _, rfl⟩, ?_, ?_, hnext, h⟩
  · cases op <;> trivial
  · have hspace (inClass : Char → Bool) (hclass : inClass ' ' = false) :
        EndsRun inClass (Piece.text (gap :: ps) ++ rest) := endsRun_cons.mpr hclass
    cases op <;> first | trivial | exact hspace _ (by decide)

/-- The text of an expression without errors is readable before all that can follow it. -/
theorem Expr.standalone_pieces {callable : String → Prop} {env : Grammar.Env} {e : Expr}
    (h : Grammar.Clean callable env e) : Standalone e.pieces := by
  induction h with
  | literal site value hvalue htype =>
    obtain ⟨l, ps, hl⟩ := exists_opening_literal site hvalue
    exact ⟨⟨l, ps, hl.pieces_eq⟩, fun rest hrest => readable_literal hvalue hrest⟩
  | array site items htype hitems ih =>
    refine .enclosed .brackets fun rest hrest => Standalone.separated ?_ hrest
    rw [piecesItems_eq]
    exact List.forall_mem_map.mpr ih
  | map site entries htype hentries ih =>
    refine .enclosed .braces fun rest hrest => Standalone.separated ?_ hrest
    rw [piecesEntries_eq]
    exact List.forall_mem_map.mpr fun entry hentry =>
      .labelled (spellable_keyLexeme _) (endsBefore_keyLexeme _) (ih entry hentry)
  | var site name hname hscope =>
    exact ⟨⟨_, _, rfl⟩, fun rest hrest => ⟨hname.plain, hrest.number.endsRun, trivial⟩⟩
  | field site name htype hname =>
    refine ⟨⟨_, _, rfl⟩, fun rest hrest => ⟨trivial, trivial,
      (by decide : Text.isPlainName _ = true), (stops_dot name rest).number.endsRun, trivial,
      trivial, spellable_identifierLexeme hname, endsBefore_identifierLexeme name hrest, trivial⟩⟩
  | access site object name htype hname hobject hclean ih =>
    refine (ih.parens (object.precedence < Expr.postfixPrecedence)).append fun rest hrest => ⟨?_,
      trivial, trivial, spellable_identifierLexeme hname, endsBefore_identifierLexeme name hrest,
      trivial⟩
    simpa [symbol, Lexeme.spelling, Symbol.text] using stops_dot name rest
  | index site object key htype hobject hkey hclean ih ihKey =>
    have hkey : Standalone (symbol .leftBracket :: (key.pieces ++ [symbol .rightBracket])) :=
      .enclosed .brackets ihKey.2
    exact (ih.parens (object.precedence < Expr.postfixPrecedence)).append fun rest hrest =>
      ⟨stops_cons (by decide) (by decide) (by decide) _, hkey.2 rest hrest⟩
  | not site operand htype hoperand hclean ih =>
    have hoperand := ih.parens (operand.precedence < Expr.notPrecedence)
    exact ⟨⟨_, _, rfl⟩, fun rest hrest => ⟨(by decide : Text.isPlainName _ = true),
      endsRun_cons.mpr (by decide), hoperand.1, hoperand.2 rest hrest⟩⟩
  | signed site op operand hop htype hoperand hclean ih =>
    have hoperand := ih.parens (operand.precedence ≤ Expr.signPrecedence)
    cases op with
    | not => exact absurd rfl hop
    | negate | plus =>
      exact ⟨⟨_, _, rfl⟩, fun rest hrest => ⟨trivial, trivial, hoperand.2 rest hrest⟩⟩
  | binary site op left right htype hleft hright hclean ihLeft ihRight =>
    have hright := ihRight.parens (right.precedence ≤ op.precedence)
    exact (ihLeft.parens (left.precedence < op.precedence)).append fun rest hrest =>
      ⟨stops_cons (by decide) (by decide) (by decide) _,
        readable_operator op hright.1 (hright.2 rest hrest)⟩
  | call site name target args named hname hfind htype hargs hparams hnamed hbound hclean ih =>
    have hlist : Standalone (symbol .leftParen ::
        (Piece.separated (piecesArgs named args) ++ [symbol .rightParen])) := by
      refine .enclosed .parens fun rest hrest => Standalone.separated ?_ hrest
      rw [piecesArgs_eq]
      refine List.forall_mem_map.mpr fun entry hentry => ?_
      cases named with
      | false => exact ih entry hentry
      | true =>
        exact .labelled (spellable_identifierLexeme (hparams rfl entry hentry))
          (endsBefore_identifierLexeme _) (ih entry hentry)
    exact ⟨⟨_, _, rfl⟩, fun rest hrest =>
      ⟨hname.1, endsRun_cons.mpr (by decide), hlist.2 rest hrest⟩⟩

end LogRules
