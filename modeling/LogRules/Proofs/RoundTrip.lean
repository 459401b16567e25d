import LogRules.Proofs.CleanSources
import LogRules.Proofs.NearestDouble
import LogRules.Proofs.Readable
import LogRules.Proofs.Rereading
import LogRules.Proofs.Room

/-!
Rendering keeps the tree: the text of an expression of a source without errors is parsed, where the
expression stands, into the same expression, unless it nests too deep.
-/
namespace LogRules

open Parse Grammar

/-- The text of a number as a literal reads back as the number. -/
def Double.ReadsBack (x : Double) : Prop :=
  Double.read? (NumberLayout.literal.text x).toList = some x

theorem toLower_of_isDigit {c : Char} (h : c.isDigit) : c.toLower = c := by
  have hhigh : c.val ≤ '9'.val := (show '0'.val ≤ c.val ∧ c.val ≤ '9'.val by
    simpa [Char.isDigit] using h).2
  unfold Char.toLower
  rw [dif_neg]
  rintro ⟨hlow, -⟩
  exact absurd (UInt32.le_trans hlow hhigh) (by decide)

/-- A text that starts with a digit behind its sign is neither infinite nor no number. -/
theorem Double.read?_of_isDigit {text tail : List Char} {c : Char} {negative : Bool}
    (hc : c.isDigit) (hsplit : splitSign text = (negative, c :: tail)) :
    Double.read? text = Double.readMagnitude? negative (c :: tail) := by
  have hword (word : List Char) (d : Char) (hd : d.isDigit = false) :
      (c :: tail).map Char.toLower ≠ d :: word := by
    intro heq
    rw [List.map_cons, toLower_of_isDigit hc] at heq
    obtain ⟨rfl, -⟩ := List.cons.inj heq
    rw [hc] at hd
    cases hd
  rw [Double.read?, hsplit]
  simp only
  split
  · next heq => exact absurd heq (hword _ 'i' (by decide))
  · next heq => exact absurd heq (hword _ 'i' (by decide))
  · next heq => exact absurd heq (hword _ 'n' (by decide))
  · rfl

theorem Double.read?_text (n : Numeral) :
    Double.read? n.text = Double.readMagnitude? false n.text ∧
      Double.read? ('-' :: n.text) = Double.readMagnitude? true n.text := by
  obtain ⟨c, tail, htext, hc⟩ : ∃ c tail, n.text = c :: tail ∧ c.isDigit := by
    obtain ⟨c, more, hwhole⟩ := List.exists_cons_of_ne_nil n.whole_ne_nil
    exact ⟨c, more ++ (n.fractionText ++ n.exponentText), by rw [Numeral.text, hwhole]; rfl,
      n.isDigit_whole c (by simp [hwhole])⟩
  have hsign : splitSign (c :: tail) = (false, c :: tail) := by
    rw [splitSign.eq_def]
    split
    · next heq =>
      cases heq
      exact absurd hc (by decide)
    · next heq =>
      cases heq
      exact absurd hc (by decide)
    · rfl
  rw [htext]
  exact ⟨read?_of_isDigit hc hsign, read?_of_isDigit hc rfl⟩

/-- The text of a finite number reads back as the number: the shortest decimal rounds to it. -/
theorem Double.readsBack_of_isFinite {x : Double} (hfinite : x.isFinite) : x.ReadsBack := by
  obtain ⟨n, htext, -, hvalue⟩ := NumberLayout.exists_numeral (Decimal.shortest .up x)
  have hmagnitude : x.magnitude < infiniteMagnitude := by simpa [isFinite] using hfinite
  have hnan : ¬ x.isNan := by simp [isNan]; omega
  have hinfinite : ¬ x.isInfinite := by simp [isInfinite]; omega
  have hrounds := roundsTo_shortest hfinite .up
  rw [← hvalue] at hrounds
  have hread (negative : Bool) :
      readMagnitude? negative n.text = some (ofMagnitude negative x.magnitude) := by
    rw [readMagnitude?_eq, Numeral.read?_text, Option.map_some,
      ofDecimal_eq_of_roundsTo hrounds hmagnitude]
  have hself : ofMagnitude x.isNegative x.magnitude = x :=
    ofMagnitude_magnitude (hmagnitude.trans (by decide))
  obtain ⟨hplain, hminus⟩ := Double.read?_text n
  have htie : NumberLayout.literal.tie = .up := rfl
  rw [ReadsBack, NumberLayout.text, if_neg hnan, String.toList_ofList, if_neg hinfinite, htie,
    ← htext]
  by_cases hx : x.isNegative
  · rw [if_pos hx, List.singleton_append, hminus, hread, ← hx, hself]
  · rw [if_neg hx, List.nil_append, hplain, hread, ← Bool.eq_false_of_not_eq_true hx, hself]

theorem Double.read?_spelling {x : Double} (hfinite : x.isFinite) :
    Double.read? (Lexeme.float (if x.isNegative then x.neg else x)).spelling =
      some (if x.isNegative then x.neg else x) := by
  obtain ⟨n, htext, -, -⟩ := NumberLayout.exists_numeral (Decimal.shortest .up x)
  obtain ⟨hplain, hminus⟩ := Double.read?_text n
  have hnan : ¬ x.isNan := by simp [isNan, isFinite] at hfinite ⊢; omega
  have hinfinite : ¬ x.isInfinite := by simp [isInfinite, isFinite] at hfinite ⊢; omega
  have h := readsBack_of_isFinite hfinite
  rw [ReadsBack, NumberLayout.text, if_neg hnan, String.toList_ofList, if_neg hinfinite] at h
  have htie : NumberLayout.literal.tie = .up := rfl
  rw [htie, ← htext] at h
  by_cases hx : x.isNegative
  · rw [if_pos hx, List.singleton_append, hminus, readMagnitude?_eq, Option.map_eq_some_iff] at h
    obtain ⟨d, hd, hread⟩ := h
    rw [if_pos hx, Lexeme.spelling, shortest_neg, ← htext, hplain, readMagnitude?_eq, hd, ← hread]
    exact congrArg some (neg_ofDecimal true _ _).symm
  · rw [if_neg hx, List.nil_append] at h
    rw [if_neg hx, Lexeme.spelling, ← htext, h]

/-- The floats among the lexemes read back from their text. -/
def Piece.Floats (ps : List Piece) : Prop :=
  ∀ x, .float x ∈ lexemes ps → Double.read? (Lexeme.float x).spelling = some x

namespace Piece.Floats

variable {ps qs : List Piece}

theorem token {l : Lexeme} (hl : ∀ x, l ≠ .float x) (h : Floats ps) :
    Floats (token l :: ps) := by
  intro x hx
  obtain rfl | hx := List.mem_cons.mp hx
  · exact absurd rfl (hl x)
  · exact h x hx

theorem identifier (name : String) (h : Floats ps) :
    Floats (.token (identifierLexeme name) :: ps) := by
  refine h.token fun x => ?_
  obtain hname | hname := Expr.identifierLexeme_cases name <;> simp [hname]

theorem append (hps : Floats ps) (hqs : Floats qs) : Floats (ps ++ qs) := by
  intro x hx
  rw [lexemes_append] at hx
  exact (List.mem_append.mp hx).elim (hps x) (hqs x)

theorem nil : Floats [] := fun _ hx => absurd hx List.not_mem_nil

theorem symbol (s : Symbol) (h : Floats ps) : Floats (.symbol s :: ps) :=
  h.token fun _ => Lexeme.noConfusion

theorem parens (h : Floats ps) (needed : Bool) : Floats (Piece.parens needed ps) := by
  cases needed with
  | false => exact h
  | true => exact (h.append (nil.symbol _)).symbol _

theorem separated {pss : List (List Piece)} (h : ∀ ps ∈ pss, Floats ps) :
    Floats (Piece.separated pss) := by
  induction pss with
  | nil => exact nil
  | cons ps pss ih =>
    obtain ⟨hps, hpss⟩ := List.forall_mem_cons.mp h
    cases pss with
    | nil => simpa [Piece.separated] using hps
    | cons qs pss =>
      rw [Piece.separated, List.intercalate_cons_cons, List.append_assoc]
      exact hps.append ((ih hpss).symbol .comma)

theorem literal {value : Value} (h : value.Writable) : Floats value.pieces := by
  intro x hx
  cases value with
  | double y =>
    have hread := Double.read?_spelling (x := y) h
    by_cases hy : y.isNegative
    · rw [if_pos hy] at hread
      obtain rfl : x = y.neg := by simpa [Value.pieces, hy, Piece.symbol] using hx
      exact hread
    · rw [if_neg hy] at hread
      obtain rfl : x = y := by simpa [Value.pieces, hy] using hx
      exact hread
  | long n => by_cases hn : n < 0 <;> simp [Value.pieces, hn, Piece.symbol] at hx
  | _ => simp [Value.pieces] at hx

end Piece.Floats

namespace Expr

variable {callable : String → Prop} {env : Env} {e : Expr}

/-- The floats of the text of an expression without errors read back. -/
theorem floats_pieces (h : Clean callable env e) : Piece.Floats e.pieces := by
  induction h with
  | literal site value hvalue htype => exact .literal hvalue
  | array site items htype hitems ih =>
    refine ((Piece.Floats.separated ?_).append (.symbol _ .nil)).symbol _
    rw [piecesItems_eq]
    exact List.forall_mem_map.mpr ih
  | map site entries htype hentries ih =>
    rw [pieces, piecesEntries_eq]
    refine ((Piece.Floats.separated (List.forall_mem_map.mpr fun entry hentry => ?_)).append
      (.symbol _ .nil)).symbol _
    refine .token (fun x => ?_) (.symbol .colon (ih entry hentry))
    rw [keyLexeme]
    split <;> simp
  | var site name hname hscope => exact .token (by simp) .nil
  | field site name htype hname =>
    exact .symbol _ (.token (by simp) (.symbol _ (.identifier name .nil)))
  | access site object name htype hname hobject hclean ih =>
    exact (ih.parens _).append (.symbol _ (.identifier name .nil))
  | index site object key htype hobject hkey hclean ih ihKey =>
    exact (ih.parens _).append ((ihKey.append (.symbol .rightBracket .nil)).symbol .leftBracket)
  | not site operand htype hoperand hclean ih => exact .token (by simp) (ih.parens _)
  | signed site op operand hop htype hoperand hclean ih =>
    cases op with
    | not => exact absurd rfl hop
    | negate | plus => exact (ih.parens _).symbol _
  | binary site op left right htype hleft hright hclean ihLeft ihRight =>
    have hop (x : Double) : op.lexeme ≠ .float x := by cases op <;> simp [BinaryOp.lexeme]
    exact (ihLeft.parens _).append (.token hop (ihRight.parens _))
  | call site name target args named hname hfind htype hargs hparams hnamed hbound hclean ih =>
    rw [pieces, piecesArgs_eq]
    refine .token (by simp) (((Piece.Floats.separated
      (List.forall_mem_map.mpr fun entry hentry => ?_)).append (.symbol _ .nil)).symbol _)
    cases named with
    | false => exact ih entry hentry
    | true => exact .identifier entry.1 (.symbol .colon (ih entry hentry))

/-- The text of an expression without errors is scanned into its lexemes. -/
theorem tokenize_text (h : Clean callable env e) :
    ∃ tokens q, tokenize e.text = (tokens ++ [⟨.eof, q⟩], []) ∧
      tokens.map Token.lexeme = e.lexemes := by
  have hreadable : Piece.Readable [] e.pieces := (standalone_pieces h).2 [] stops_nil
  have hscan := Piece.tokens_text hreadable (floats_pieces h)
    (e.text.toList.length + 1) (by rw [toList_text h]; omega) (Cursor.start e.text).position
  have hstart : Cursor.start e.text = ⟨(Cursor.start e.text).position, Piece.text e.pieces⟩ := by
    rw [← toList_text h]
    rfl
  rw [tokenize, hstart]
  exact hscan

end Expr

namespace Parse

variable {α β : Type} {p : Parse α} {tokens : List Token} {d : Diagnostic}

theorem mem_errors_bind (f : α → Parse β) (h : d ∈ (p tokens).errors) :
    d ∈ ((p >>= f) tokens).errors := by
  have hbind : (p >>= f) tokens = Parse.bind p f tokens := rfl
  rw [hbind, Parse.bind]
  split
  · exact h
  · exact List.mem_append_left _ h

end Parse

namespace Place

variable {registry : Registry} {place : Place} {e : Expr}

/-- The parser of an expression where it stands, with all that is checked there. A condition is
said to belong to a rule at a position. -/
def parse (registry : Registry) (p : Position) : Place → Parse Expr
  | condition => Grammar.condition registry p
  | value scope => Grammar.expression ⟨registry, scope, false⟩
  | call scope => do return (← Grammar.statementBody registry scope).1.expression

/-- The text of an expression is read back, unless it nests too deep. -/
theorem Admits.expression_text (h : place.Admits registry e) {tokens rest : List Token}
    (htokens : tokens.map Token.lexeme = e.lexemes) (hends : (tokenAt 0 rest).EndsLevel 0) :
    (∃ d ∈ (Grammar.expression (place.env registry) (tokens ++ rest)).errors, d.IsTooDeep) ∨
      ∃ found, Grammar.expression (place.env registry) (tokens ++ rest) = ⟨[], rest, some found⟩ ∧
        found.Rereads e := by
  obtain ⟨found, hreply, hfound⟩ :=
    Expr.reads_of_accepted h.accepted h.depth_le tokens rest htokens hends
  have hrefines := (refines_nested (place.env registry)
    (show maxNesting ≤ 2 * maxNesting by omega)).expression (tokens ++ rest)
  cases hrefines with
  | inl heq => exact .inr ⟨found, heq.trans hreply, hfound⟩
  | inr hdeep => exact .inl hdeep

theorem exists_callName {env : Env} (h : Accepted env e) (hcall : e.isCall) :
    ∃ name more, e.lexemes = .name name :: more ∧
      ∀ word ∈ reservedWords, Lexeme.sameWord name word = false := by
  cases h with
  | call site name target args named hname =>
    exact ⟨name, _, rfl, Expr.sameWord_of_usable ⟨hname.1, hname.2⟩⟩
  | _ => cases hcall

theorem statementBody_of_first (registry : Registry) (scope : Typing.Scope) {t : Token}
    (ht : t.lexeme.isKeyword "let" = false) (tokens : List Token) :
    statementBody registry scope (t :: tokens) = (do
      let e ← Grammar.expression ⟨registry, scope, false⟩
      if !e.isCall then
        Parse.report e.position
          (.syntactic "only function calls and 'let' assignments are allowed as statements")
      return (.perform e, scope) : Parse (Statement × Typing.Scope)) (t :: tokens) := by
  have hhere : here (t :: tokens) = ⟨[], t :: tokens, some t.position⟩ := rfl
  have heat : eatKeyword "let" (t :: tokens) = ⟨[], t :: tokens, some false⟩ := by
    rw [eatKeyword, eatIf_eq, tokenAt_zero_cons, ht]
    rfl
  rw [statementBody, statementBodyWith, bind_lift hhere, bind_lift heat]
  rfl

/-- A condition is an expression that is a truth value. -/
theorem condition_of_expression {tokens rest : List Token} {found : Expr}
    (hreply : Grammar.expression ⟨registry, [], true⟩ tokens = ⟨[], rest, some found⟩)
    (hboolean : Typing.checkBoolean found = []) (p : Position) :
    Grammar.condition registry p tokens = ⟨[], rest, some found⟩ := by
  have hattempt : attempt (Grammar.expression ⟨registry, [], true⟩) tokens =
      ⟨[], rest, some (some found)⟩ := by
    rw [attempt, hreply]
  have hreport : reportAll (Typing.checkBoolean found) rest = ⟨[], rest, some ()⟩ := by
    rw [hboolean]
    rfl
  exact (bind_eq hattempt).trans (bind_eq hreport)

/-- The text of an expression is parsed where the expression stands into the expression. -/
theorem Admits.parse_text (h : place.Admits registry e) (p : Position) {tokens : List Token}
    {q : Position} (htokens : tokens.map Token.lexeme = e.lexemes)
    (hroom : ∀ d ∈ (place.parse registry p (tokens ++ [⟨.eof, q⟩])).errors, ¬ d.IsTooDeep) :
    ∃ found, place.parse registry p (tokens ++ [⟨.eof, q⟩]) = ⟨[], [⟨.eof, q⟩], some found⟩ ∧
      found.Rereads e := by
  have hends : (tokenAt 0 [⟨.eof, q⟩]).EndsLevel 0 := endsLevel_eof 0
  have hread := h.expression_text htokens hends
  cases place with
  | condition =>
    obtain ⟨d, hd, hdeep⟩ | ⟨found, hreply, hfound⟩ := hread
    · exact absurd hdeep (hroom d (mem_errors_bind (p := attempt _) _ hd))
    · have hboolean := (Typing.checkBoolean_congr hfound.type_eq).mpr (h.boolean rfl)
      exact ⟨found, condition_of_expression hreply hboolean p, hfound⟩
  | value scope =>
    obtain ⟨d, hd, hdeep⟩ | ⟨found, hreply, hfound⟩ := hread
    · exact absurd hdeep (hroom d hd)
    · exact ⟨found, hreply, hfound⟩
  | call scope =>
    obtain ⟨name, more, hlexemes, hname⟩ := exists_callName h.accepted (h.isCall scope rfl)
    obtain ⟨t, tail, rfl, ht, -⟩ := List.map_eq_cons_iff.mp (htokens.trans hlexemes)
    have hlet : t.lexeme.isKeyword "let" = false := by rw [ht]; exact hname "let" (by decide)
    have hstatement := statementBody_of_first registry scope hlet
      (tail ++ [⟨.eof, q⟩])
    obtain ⟨d, hd, hdeep⟩ | ⟨found, hreply, hfound⟩ := hread
    · refine absurd hdeep (hroom d (mem_errors_bind _ ?_))
      rw [List.cons_append, hstatement]
      exact mem_errors_bind _ hd
    · have hcall : found.isCall := by rw [hfound.isCall_eq]; exact h.isCall scope rfl
      have hreply : Grammar.expression ⟨registry, scope, false⟩ (t :: (tail ++ [⟨.eof, q⟩])) =
        ⟨[], [⟨.eof, q⟩], some found⟩ := hreply
      have hbody : statementBody registry scope (t :: (tail ++ [⟨.eof, q⟩])) =
          ⟨[], [⟨.eof, q⟩], some (.perform found, scope)⟩ := by
        rw [hstatement, bind_eq hreply, hcall]
        rfl
      refine ⟨found, ?_, hfound⟩
      rw [parse, List.cons_append, bind_eq hbody]
      rfl

end Place

/-- Rendering keeps the tree. The text of an expression of a source without errors, parsed where
the expression stands, gives no error, unless one that it nests too deep. What it gives is the tree
up to places and to minus signs that have become a part of their numbers, and has its value. -/
theorem Rule.rendering_faithful {source : String} {registry : Registry}
    (hfree : registry.Unreserved) (hclean : (parseSource source registry).isClean) {r : Rule}
    (hr : r ∈ (parseSource source registry).rules) {place : Place} {e : Expr}
    (hpart : (place, e) ∈ r.parts) (p : Position)
    (hroom : ∀ d ∈ (place.parse registry p (tokenize e.text).1).errors, ¬ d.IsTooDeep) :
    (tokenize e.text).2 = [] ∧ ∃ q found,
      place.parse registry p (tokenize e.text).1 = ⟨[], [⟨.eof, q⟩], some found⟩ ∧
        found.Rereads e ∧ found.eval = e.eval := by
  have hadmits : place.Admits registry e := (accepted_of_clean hfree hclean hr).parts _ hpart
  obtain ⟨tokens, q, hscan, hlexemes⟩ := Expr.tokenize_text hadmits.accepted
  rw [hscan] at hroom ⊢
  obtain ⟨found, hreply, hfound⟩ := hadmits.parse_text p hlexemes hroom
  exact ⟨rfl, q, found, hreply, hfound, hfound.eval_eq⟩

/-- A minus sign before a number in parentheses. -/
def signedSource : String := "rule \"signed\" when not ($message.a == -(0.0)) then end"

theorem signedSource_rules_ne_nil : (parseSource signedSource .empty).rules ≠ [] := by
  rw [Ne, ← List.isEmpty_iff]
  decide +kernel

def signedRule : Rule := (parseSource signedSource .empty).rules.head signedSource_rules_ne_nil

theorem Rule.rendering_faithful_signedRule :
    (tokenize signedRule.condition.text).2 = [] ∧ ∃ q found,
      Place.condition.parse .empty signedRule.position (tokenize signedRule.condition.text).1 =
        ⟨[], [⟨.eof, q⟩], some found⟩ ∧
      found.Rereads signedRule.condition ∧ found.eval = signedRule.condition.eval := by
  have herrors : (Place.condition.parse .empty signedRule.position
      (tokenize signedRule.condition.text).1).errors.isEmpty := by
    decide +kernel
  have hunreserved : Registry.empty.Unreserved := fun _ h => absurd h List.not_mem_nil
  have hrule : signedRule ∈ (parseSource signedSource .empty).rules :=
    List.head_mem signedSource_rules_ne_nil
  have hpart : (Place.condition, signedRule.condition) ∈ signedRule.parts := List.mem_cons_self
  refine rendering_faithful hunreserved (by decide +kernel) hrule hpart _ fun d hd => ?_
  rw [List.isEmpty_iff.mp herrors] at hd
  cases hd

end LogRules
