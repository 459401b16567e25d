import LogRules.Expr.Text
import LogRules.Proofs.Accepted
import LogRules.Proofs.Pieces

/-!
The canonical text of an accepted expression as pieces.
-/
namespace LogRules

/-- The lexeme of a field or a parameter. -/
def identifierLexeme (name : String) : Lexeme :=
  if Text.isPlainName name.toList then .name name else .quotedName name

/-- The lexeme of a key in a map. -/
def keyLexeme (key : String) : Lexeme :=
  if Text.isPlainName key.toList then .name key else .string key

def BinaryOp.lexeme : BinaryOp → Lexeme
  | and => .name "and"
  | or => .name "or"
  | eq => .symbol .equal
  | ne => .symbol .notEqual
  | lt => .symbol .less
  | le => .symbol .lessEqual
  | gt => .symbol .greater
  | ge => .symbol .greaterEqual
  | add => .symbol .plus
  | sub => .symbol .minus
  | mul => .symbol .star
  | div => .symbol .slash
  | rem => .symbol .percent

namespace Piece

def symbol (s : Symbol) : Piece := token (.symbol s)

/-- Pieces in parentheses, if these are needed. -/
def parens (needed : Bool) (ps : List Piece) : List Piece :=
  if needed then symbol .leftParen :: (ps ++ [symbol .rightParen]) else ps

/-- Pieces with a comma and a space between them. -/
def separated (pss : List (List Piece)) : List Piece :=
  [symbol .comma, gap].intercalate pss

end Piece

open Piece

/-- The pieces of a literal. A minus sign is a piece of its own. -/
def Value.pieces : Value → List Piece
  | boolean flag => [token (.name (if flag then "true" else "false"))]
  | long n => if n < 0 then [symbol .minus, token (.integer (-n))] else [token (.integer n)]
  | double x =>
    if x.isNegative then [symbol .minus, token (.float x.neg)] else [token (.float x)]
  | string text => [token (.string text)]
  | _ => []

namespace Expr

mutual

/-- The pieces of the canonical text. -/
def pieces : Expr → List Piece
  | literal _ value => value.pieces
  | array _ items =>
    symbol .leftBracket :: (separated (piecesItems items) ++ [symbol .rightBracket])
  | map _ entries =>
    symbol .leftBrace :: (separated (piecesEntries entries) ++ [symbol .rightBrace])
  | var _ name => [token (.name name)]
  | field _ name =>
    [symbol .dollar, token (.name "message"), symbol .dot, token (identifierLexeme name)]
  | access _ object name =>
    parens (object.precedence < postfixPrecedence) (pieces object) ++
      [symbol .dot, token (identifierLexeme name)]
  | index _ object key =>
    parens (object.precedence < postfixPrecedence) (pieces object) ++
      symbol .leftBracket :: (pieces key ++ [symbol .rightBracket])
  | unary _ .not operand =>
    token (.name "not") :: gap :: parens (operand.precedence < notPrecedence) (pieces operand)
  | unary _ .negate operand =>
    symbol .minus :: parens (operand.precedence ≤ signPrecedence) (pieces operand)
  | unary _ .plus operand =>
    symbol .plus :: parens (operand.precedence ≤ signPrecedence) (pieces operand)
  | binary _ op left right =>
    parens (left.precedence < op.precedence) (pieces left) ++
      gap :: token op.lexeme :: gap :: parens (right.precedence ≤ op.precedence) (pieces right)
  | call _ name _ args named _ =>
    token (.name name) :: symbol .leftParen ::
      (separated (piecesArgs named args) ++ [symbol .rightParen])

def piecesItems : List Expr → List (List Piece)
  | [] => []
  | e :: rest => pieces e :: piecesItems rest

def piecesEntries : List (String × Expr) → List (List Piece)
  | [] => []
  | (key, e) :: rest =>
    (token (keyLexeme key) :: symbol .colon :: gap :: pieces e) :: piecesEntries rest

def piecesArgs (named : Bool) : List (String × Expr) → List (List Piece)
  | [] => []
  | (param, e) :: rest =>
    ((if named then [token (identifierLexeme param), symbol .colon, gap] else []) ++ pieces e) ::
      piecesArgs named rest

end

/-- The lexemes of the canonical text. -/
def lexemes (e : Expr) : List Lexeme := Piece.lexemes e.pieces

end Expr

theorem toList_quoteIdentifier (name : String) :
    (Text.quoteIdentifier name).toList = (identifierLexeme name).spelling := by
  rw [Text.quoteIdentifier, identifierLexeme]
  split
  · rfl
  · rw [String.toList_ofList, Lexeme.spelling]

theorem toList_quoteKey (key : String) : (Text.quoteKey key).toList = (keyLexeme key).spelling := by
  rw [Text.quoteKey, keyLexeme]
  split
  · rfl
  · rw [Text.quoteString, String.toList_ofList, Lexeme.spelling]

theorem BinaryOp.toList_symbol (op : BinaryOp) : op.symbol.toList = op.lexeme.spelling := by
  cases op <;> rfl

theorem Value.toList_literal {value : Value} (h : value.Writable) :
    value.literal.toList = Piece.text value.pieces := by
  cases value with
  | boolean flag => cases flag <;> rfl
  | string text => simp [literal, pieces, Text.quoteString, Lexeme.spelling]
  | long n =>
    have hneg := Long.toInt_neg h
    have hlt : n < 0 ↔ n.toInt < 0 := by rw [Int64.lt_iff_toInt_lt, Int64.toInt_zero]
    simp only [literal, pieces, Int.toString_eq_repr, Int.repr_eq_if, hlt]
    by_cases hn : n.toInt < 0
    · rw [if_neg (by omega), if_pos hn, String.toList_append, Nat.toList_repr, ← hneg]
      simp [Piece.symbol, Lexeme.spelling, Symbol.text]
    · rw [if_pos (by omega), if_neg hn, Nat.toList_repr]
      simp [Lexeme.spelling]
  | double x =>
    have hfinite : x.magnitude < Double.infiniteMagnitude := by
      simpa [Writable, Double.isFinite] using h
    have hnan : ¬ x.isNan := by simp [Double.isNan]; omega
    have hinf : ¬ x.isInfinite := by simp [Double.isInfinite]; omega
    have htie : NumberLayout.literal.tie = .up := rfl
    simp only [literal, pieces, NumberLayout.text, if_neg hnan, if_neg hinf, htie,
      String.toList_ofList]
    split
    · simp [Piece.symbol, Lexeme.spelling, Symbol.text, Double.shortest_neg]
    · simp [Lexeme.spelling]
  | null | list | map => cases h

theorem exists_separated_cons (ps : List Piece) (pss : List (List Piece)) :
    ∃ tail, separated (ps :: pss) = ps ++ tail := by
  cases pss with
  | nil => exact ⟨[], by simp [separated]⟩
  | cons qs pss => exact ⟨_, by rw [separated, List.intercalate_cons_cons, List.append_assoc]⟩

namespace Expr

theorem toList_enclose (needed : Bool) {text : String} {ps : List Piece}
    (h : text.toList = Piece.text ps) :
    (enclose needed text).toList = Piece.text (parens needed ps) := by
  cases needed with
  | true => simp [enclose, parens, h, Piece.symbol, Lexeme.spelling, Symbol.text]
  | false => simp [enclose, parens, h]

theorem toList_separated {texts : List String} {pss : List (List Piece)}
    (h : texts.map String.toList = pss.map Piece.text) :
    (", ".intercalate texts).toList = Piece.text (separated pss) := by
  have hintercalate : Piece.text (separated pss) =
      [',', ' '].intercalate (pss.map Piece.text) := by
    clear h
    rw [separated]
    induction pss with
    | nil => rfl
    | cons ps pss ih =>
      cases pss with
      | nil => simp
      | cons qs pss =>
        rw [List.intercalate_cons_cons, List.map_cons, List.map_cons, List.intercalate_cons_cons,
          ← List.map_cons, ← ih]
        simp [Piece.symbol, Lexeme.spelling, Symbol.text]
  rw [String.toList_intercalate, h, hintercalate]
  rfl

theorem piecesItems_eq (items : List Expr) : piecesItems items = items.map pieces := by
  induction items with
  | nil => rfl
  | cons e rest ih => rw [piecesItems, ih, List.map_cons]

theorem piecesEntries_eq (entries : List (String × Expr)) :
    piecesEntries entries = entries.map fun entry =>
      token (keyLexeme entry.1) :: symbol .colon :: gap :: entry.2.pieces := by
  induction entries with
  | nil => rfl
  | cons entry rest ih => rw [piecesEntries, ih, List.map_cons]

/-- The pieces of one argument. -/
def argPieces (named : Bool) (entry : String × Expr) : List Piece :=
  (if named then [token (identifierLexeme entry.1), symbol .colon, gap] else []) ++ entry.2.pieces

theorem piecesArgs_eq (named : Bool) (args : List (String × Expr)) :
    piecesArgs named args = args.map (argPieces named) := by
  induction args with
  | nil => rfl
  | cons entry rest ih =>
    rw [piecesArgs, ih, List.map_cons]
    rfl

theorem toList_textItems {items : List Expr}
    (h : ∀ e ∈ items, e.text.toList = Piece.text e.pieces) :
    (textItems items).map String.toList = (piecesItems items).map Piece.text := by
  induction items with
  | nil => rfl
  | cons e rest ih =>
    rw [textItems, piecesItems, List.map_cons, List.map_cons, h e (by simp),
      ih fun e he => h e (by simp [he])]

theorem toList_textEntries {entries : List (String × Expr)}
    (h : ∀ entry ∈ entries, entry.2.text.toList = Piece.text entry.2.pieces) :
    (textEntries entries).map String.toList = (piecesEntries entries).map Piece.text := by
  induction entries with
  | nil => rfl
  | cons entry rest ih =>
    obtain ⟨key, e⟩ := entry
    have he := h (key, e) (by simp)
    rw [textEntries, piecesEntries, List.map_cons, List.map_cons, ih fun x hx => h x (by simp [hx])]
    congr 1
    simp [he, toList_quoteKey, symbol, Lexeme.spelling, Symbol.text]

theorem toList_textArgs (named : Bool) {args : List (String × Expr)}
    (h : ∀ entry ∈ args, entry.2.text.toList = Piece.text entry.2.pieces) :
    (textArgs named args).map String.toList = (piecesArgs named args).map Piece.text := by
  induction args with
  | nil => rfl
  | cons entry rest ih =>
    obtain ⟨param, e⟩ := entry
    have he := h (param, e) (by simp)
    rw [textArgs, piecesArgs, List.map_cons, List.map_cons, ih fun x hx => h x (by simp [hx])]
    congr 1
    cases named <;> simp [he, toList_quoteIdentifier, symbol, Lexeme.spelling, Symbol.text]

/-- The canonical text of an expression without errors is that of its pieces. -/
theorem toList_text {callable : String → Prop} {env : Grammar.Env} {e : Expr}
    (h : Grammar.Clean callable env e) :
    e.text.toList = Piece.text e.pieces := by
  induction h with
  | literal site value hvalue htype => exact Value.toList_literal hvalue
  | array site items htype hitems ih =>
    have hitems := toList_separated (toList_textItems ih)
    simp [text, pieces, hitems, symbol, Lexeme.spelling, Symbol.text]
  | map site entries htype hentries ih =>
    have hentries := toList_separated (toList_textEntries ih)
    simp [text, pieces, hentries, symbol, Lexeme.spelling, Symbol.text]
  | var site name hname hscope => simp [text, pieces, Lexeme.spelling]
  | field site name htype hname =>
    simp [text, pieces, toList_quoteIdentifier, symbol, Lexeme.spelling, Symbol.text]
  | access site object name htype hname hobject hclean ih =>
    have hobject := toList_enclose (object.precedence < postfixPrecedence) ih
    simp [text, pieces, hobject, toList_quoteIdentifier, symbol, Lexeme.spelling, Symbol.text]
  | index site object key htype hobject hkey hclean ih ihKey =>
    have hobject := toList_enclose (object.precedence < postfixPrecedence) ih
    simp [text, pieces, hobject, ihKey, symbol, Lexeme.spelling, Symbol.text]
  | not site operand htype hoperand hclean ih =>
    have hoperand := toList_enclose (operand.precedence < notPrecedence) ih
    simp [text, pieces, hoperand, Lexeme.spelling]
  | signed site op operand hop htype hoperand hclean ih =>
    have hoperand := toList_enclose (operand.precedence ≤ signPrecedence) ih
    cases op with
    | not => exact absurd rfl hop
    | negate => simp [text, pieces, hoperand, symbol, Lexeme.spelling, Symbol.text]
    | plus => simp [text, pieces, hoperand, symbol, Lexeme.spelling, Symbol.text]
  | binary site op left right htype hleft hright hclean ihLeft ihRight =>
    have hleft := toList_enclose (left.precedence < op.precedence) ihLeft
    have hright := toList_enclose (right.precedence ≤ op.precedence) ihRight
    simp [text, pieces, hleft, hright, BinaryOp.toList_symbol]
  | call site name target args named hname hfind htype hargs hparams hnamed hbound hclean ih =>
    have hargs := toList_separated (toList_textArgs named ih)
    simp [text, pieces, hargs, symbol, Lexeme.spelling, Symbol.text]

end Expr

end LogRules
