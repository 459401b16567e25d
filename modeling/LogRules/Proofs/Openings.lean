import LogRules.Proofs.Nesting
import LogRules.Proofs.Rendering

/-!
How the text of an expression starts: what its first lexemes rule out decides which level of the
grammar reads it.
-/
namespace LogRules

open Piece

/-- Symbols that an expression can start with. -/
def Symbol.opens : Symbol → Bool
  | dollar | leftParen | leftBracket | leftBrace | plus | minus => true
  | _ => false

namespace Expr

/-- How the text of an expression starts. What binds tightly starts with no operator before an
operand, if it does not start with a call that looks like one, and the second lexeme is never a
colon. -/
structure Opening (e : Expr) (l : Lexeme) (ps : List Piece) : Prop where
  pieces_eq : e.pieces = token l :: ps
  opens : ∀ s, l = .symbol s → s.opens
  negation : e.startsNot = false → 3 < e.precedence → l.isKeyword "not" = false
  sign : 8 < e.precedence → Grammar.signOperator? l = none
  number : 8 < e.precedence → e.isLiteral = false → Grammar.number? l = none
  colon : (Piece.lexemes ps).head? ≠ some (.symbol .colon)

theorem Opening.parens {e : Expr} {l : Lexeme} {ps : List Piece} (h : Opening e l ps)
    (needed : Bool) (tail : List Piece)
    (htail : (Piece.lexemes tail).head? ≠ some (.symbol .colon)) :
    ∃ l' ps', Piece.parens needed e.pieces ++ tail = token l' :: ps' ∧
      (∀ s, l' = .symbol s → s.opens) ∧ l' = (if needed then .symbol .leftParen else l) ∧
      (Piece.lexemes ps').head? ≠ some (.symbol .colon) := by
  cases needed with
  | true =>
    have hl : l ≠ .symbol .colon := fun hl => absurd (h.opens .colon hl) (by decide)
    refine ⟨.symbol .leftParen, e.pieces ++ [symbol .rightParen] ++ tail, rfl, ?_, rfl, ?_⟩
    · rintro _ ⟨⟩
      rfl
    · simpa [h.pieces_eq] using hl
  | false =>
    refine ⟨l, ps ++ tail, ?_, h.opens, rfl, ?_⟩
    · simp [Piece.parens, h.pieces_eq]
    · have hcolon := h.colon
      rw [Piece.lexemes_append, List.head?_append]
      cases hhead : (Piece.lexemes ps).head? with
      | none => simpa using htail
      | some l' => simpa [hhead] using hcolon

/-- Behind an operator its operand starts, and that is no colon. -/
theorem Opening.head_parens {e : Expr} {l : Lexeme} {ps : List Piece} (h : Opening e l ps)
    (needed : Bool) :
    (Piece.lexemes (Piece.parens needed e.pieces)).head? ≠ some (.symbol .colon) := by
  obtain ⟨l', ps', hpieces, hopens, -, -⟩ := h.parens needed [] (by simp)
  have hl' : l' ≠ .symbol .colon := fun hl' => absurd (hopens .colon hl') (by decide)
  rw [List.append_nil] at hpieces
  simpa [hpieces] using hl'

theorem exists_opening_literal (site : Site) {value : Value} (h : value.Writable) :
    ∃ l ps, Opening (.literal site value) l ps := by
  have hminus (l : Lexeme) (hprec : ¬ 8 < precedence (.literal site value))
      (hpieces : value.pieces = [symbol .minus, token l]) (hl : l ≠ .symbol .colon) :
      Opening (.literal site value) (.symbol .minus) [token l] := by
    refine ⟨hpieces, ?_, fun _ _ => rfl, fun h => absurd h hprec, fun h => absurd h hprec, ?_⟩
    · rintro _ ⟨⟩
      rfl
    · simpa using hl
  have hsingle (l : Lexeme) (hpieces : value.pieces = [token l]) (hsymbol : ∀ s, l ≠ .symbol s)
      (hword : l.isKeyword "not" = false) : Opening (.literal site value) l [] := by
    refine ⟨hpieces, fun s hs => absurd hs (hsymbol s), fun _ _ => hword, fun _ => ?_,
      fun _ hliteral => absurd hliteral (by simp [isLiteral]), by simp⟩
    cases l <;> first | rfl | exact absurd rfl (hsymbol _)
  cases value with
  | boolean flag =>
    refine ⟨_, _, hsingle _ rfl (by simp) ?_⟩
    cases flag <;> decide
  | string text => exact ⟨_, _, hsingle _ rfl (by simp) rfl⟩
  | long n =>
    by_cases hn : n < 0
    · exact ⟨_, _, hminus (.integer (-n)) (by simp [precedence, hn, signPrecedence])
        (by simp [Value.pieces, hn]) (by simp)⟩
    · exact ⟨_, _, hsingle (.integer n) (by simp [Value.pieces, hn]) (by simp) rfl⟩
  | double x =>
    by_cases hx : x.isNegative
    · exact ⟨_, _, hminus (.float x.neg) (by simp [precedence, hx, signPrecedence])
        (by simp [Value.pieces, hx]) (by simp)⟩
    · exact ⟨_, _, hsingle (.float x) (by simp [Value.pieces, hx]) (by simp) rfl⟩
  | null | list | map => cases h

section Clean

variable {callable : String → Prop} {env : Grammar.Env}

theorem isLiteral_of_type {object : Expr} (h : Grammar.Clean callable env object)
    (htype : object.type = .map ∨ object.type = .any ∨ object.type = .list) :
    object.isLiteral = false := by
  cases h with
  | literal site value hvalue hliteral =>
    have hobject : (literal site value).type = value.type := hliteral
    rw [hobject] at htype
    cases value with
    | null | list | map => cases hvalue
    | _ => simp [Value.type] at htype
  | _ => rfl

theorem isLiteral_of_access {object : Expr} (h : Grammar.Clean callable env object)
    {name : String} {p : Position} (hclean : (Typing.access object name p).errors = []) :
    object.isLiteral = false := by
  apply isLiteral_of_type h
  simp only [Typing.access, Bool.or_eq_true, beq_iff_eq] at hclean
  split at hclean
  · next htype => tauto
  · simp [Typing.fault] at hclean

theorem isLiteral_of_index {object key : Expr} (h : Grammar.Clean callable env object)
    {p : Position}
    (hclean : (Typing.index object key p).errors = []) : object.isLiteral = false := by
  apply isLiteral_of_type h
  simp only [Typing.index, Typing.indexErrors] at hclean
  split at hclean
  · next htype => exact .inr (.inl htype)
  · next htype => exact .inr (.inr htype)
  · next htype => exact .inl htype
  · simp [Typing.fault] at hclean

theorem Opening.behind {object e : Expr} {l : Lexeme} {ps tail : List Piece}
    (h : Opening object l ps) (hliteral : object.isLiteral = false)
    (hstart : e.startsNot = (decide (postfixPrecedence ≤ object.precedence) && object.startsNot))
    (hpieces : e.pieces =
      Piece.parens (object.precedence < postfixPrecedence) object.pieces ++ tail)
    (htail : (Piece.lexemes tail).head? ≠ some (.symbol .colon)) :
    ∃ l ps, Opening e l ps := by
  obtain ⟨l', ps', heq, hopens, hl', hcolon⟩ :=
    h.parens (object.precedence < postfixPrecedence) tail htail
  refine ⟨l', ps', by rw [hpieces, heq], hopens, ?_, ?_, ?_, hcolon⟩
  all_goals
    rw [hl']
    split
    · intros
      rfl
    · next hneeded =>
      have hprec : ¬ object.precedence < 9 := fun h => hneeded (decide_eq_true h)
      have hbound : decide (postfixPrecedence ≤ object.precedence) = true :=
        decide_eq_true (Nat.le_of_not_lt hprec)
      rw [hbound, Bool.true_and] at hstart
      first
      | exact fun hfree _ => h.negation (hstart ▸ hfree) (by omega)
      | exact fun _ => h.sign (by omega)
      | exact fun _ _ => h.number (by omega) hliteral

theorem opening_symbol {e : Expr} {s : Symbol} {ps : List Piece}
    (hpieces : e.pieces = symbol s :: ps) (hs : s.opens)
    (hsign : 8 < e.precedence → s ≠ .plus ∧ s ≠ .minus)
    (hcolon : (Piece.lexemes ps).head? ≠ some (.symbol .colon)) :
    Opening e (.symbol s) ps := by
  refine ⟨hpieces, ?_, fun _ _ => rfl, fun h => ?_, fun _ _ => rfl, hcolon⟩
  · rintro _ ⟨⟩
    exact hs
  · obtain ⟨hplus, hminus⟩ := hsign h
    cases s <;> first | rfl | exact absurd rfl hplus | exact absurd rfl hminus

theorem head_items {items : List Expr} (h : ∀ e ∈ items, ∃ l ps, Opening e l ps) :
    (Piece.lexemes (separated (piecesItems items) ++ [symbol .rightBracket])).head? ≠
      some (.symbol .colon) := by
  cases items with
  | nil => simp [piecesItems, separated, symbol]
  | cons e rest =>
    obtain ⟨l, ps, hl⟩ := h e List.mem_cons_self
    obtain ⟨tail, htail⟩ := exists_separated_cons e.pieces (piecesItems rest)
    have hcolon : l ≠ .symbol .colon := fun hl' => absurd (hl.opens .colon hl') (by decide)
    rw [piecesItems, htail, hl.pieces_eq]
    simpa using hcolon

theorem head_entries (entries : List (String × Expr)) :
    (Piece.lexemes (separated (piecesEntries entries) ++ [symbol .rightBrace])).head? ≠
      some (.symbol .colon) := by
  cases entries with
  | nil => simp [piecesEntries, separated, symbol]
  | cons entry rest =>
    obtain ⟨key, e⟩ := entry
    obtain ⟨tail, htail⟩ := exists_separated_cons
      (token (keyLexeme key) :: symbol .colon :: gap :: e.pieces) (piecesEntries rest)
    have hcolon : keyLexeme key ≠ .symbol .colon := by
      rw [keyLexeme]
      split <;> simp
    rw [piecesEntries, htail]
    simpa using hcolon

/-- An operator between operands starts as its left operand does. -/
theorem Opening.binary {left : Expr} {l : Lexeme} {ps : List Piece} (h : Opening left l ps)
    (site : Site) (op : BinaryOp) (right : Expr) :
    ∃ l ps, Opening (.binary site op left right) l ps := by
  have hcolon : op.lexeme ≠ .symbol .colon := by cases op <;> simp [BinaryOp.lexeme]
  obtain ⟨l', ps', hpieces, hopens, hl', hcolon'⟩ := h.parens (left.precedence < op.precedence)
    (gap :: token op.lexeme :: gap ::
      Piece.parens (right.precedence ≤ op.precedence) right.pieces) (by simpa using hcolon)
  have hloose : op.precedence ≤ 7 := by cases op <;> decide
  refine ⟨l', ps', hpieces, hopens, ?_, fun h => absurd h (by simp [precedence]; omega),
    fun h => absurd h (by simp [precedence]; omega), hcolon'⟩
  intro hfree htight
  rw [hl']
  split
  · rfl
  · next hneeded =>
    have hprec : op.precedence ≤ left.precedence := by simpa using hneeded
    rw [startsNot, decide_eq_true hprec, Bool.true_and] at hfree
    exact h.negation hfree (by simp only [precedence] at htight; omega)

/-- The text of an expression without errors starts with a lexeme that can start one. -/
theorem exists_opening {e : Expr} (h : Grammar.Clean callable env e) :
    ∃ l ps, Opening e l ps := by
  induction h with
  | literal site value hvalue htype => exact exists_opening_literal site hvalue
  | array site items htype hitems ih =>
    exact ⟨_, _, opening_symbol rfl rfl (by simp) (head_items ih)⟩
  | map site entries htype hentries ih =>
    exact ⟨_, _, opening_symbol rfl rfl (by simp) (head_entries entries)⟩
  | var site name hname hscope =>
    exact ⟨.name name, [], rfl, by simp, fun _ _ => sameWord_of_usable hname "not" (by decide),
      fun _ => rfl, fun _ _ => rfl, by simp⟩
  | field site name htype hname => exact ⟨_, _, opening_symbol rfl rfl (by simp) (by simp)⟩
  | access site object name htype hname hobject hclean ih =>
    obtain ⟨l, ps, hl⟩ := ih
    exact hl.behind (isLiteral_of_access hobject hclean) rfl rfl (by simp [symbol])
  | index site object key htype hobject hkey hclean ih ihKey =>
    obtain ⟨l, ps, hl⟩ := ih
    exact hl.behind (isLiteral_of_index hobject hclean) rfl rfl (by simp [symbol])
  | not site operand htype hoperand hclean ih =>
    obtain ⟨l, ps, hl⟩ := ih
    exact ⟨.name "not", _, rfl, by simp,
      fun _ h => absurd h (by simp [precedence, notPrecedence]), fun _ => rfl, fun _ _ => rfl,
      hl.head_parens _⟩
  | signed site op operand hop htype hoperand hclean ih =>
    obtain ⟨l, ps, hl⟩ := ih
    cases op with
    | not => exact absurd rfl hop
    | negate | plus =>
      exact ⟨_, _, opening_symbol rfl rfl (by simp [precedence, signPrecedence])
        (hl.head_parens _)⟩
  | binary site op left right htype hleft hright hclean ihLeft ihRight =>
    obtain ⟨l, ps, hl⟩ := ihLeft
    exact hl.binary site op right
  | call site name target args named hname hfind htype hargs hparams hnamed hbound hclean ih =>
    exact ⟨.name name, _, rfl, by simp, fun hfree _ => hfree, fun _ => rfl, fun _ _ => rfl,
      by simp [symbol]⟩

end Clean

end Expr

end LogRules
