import LogRules.Proofs.Operands

/-!
Literals, variables, fields, arrays and maps are read back from their lexemes.
-/
namespace LogRules

open Parse Grammar

namespace Grammar

variable {env : Env} {deeper : Deeper Parse} {k : Nat} {ls ls' : List Lexeme} {Q R : Expr → Prop}

/-- A level without operators between operands has only to read one. -/
theorem leads_of_reads (hk : k = 3 ∨ k = 8)
    (h : Reads (level env deeper k) ls (·.EndsLevel k) Q) : Leads env deeper k ls Q := by
  intro tokens rest hls hends
  obtain ⟨found, hreply, hQ⟩ := h tokens rest hls hends
  refine ⟨found, rest.length, Nat.le_refl _, hQ, ?_⟩
  rw [hreply, levelLoop_of_ends hends (.inr hk) (by omega)]

/-- A turn of the loop takes a level from one operand to the next. -/
theorem Leads.extend {l : Lexeme} (h : Leads env deeper k ls Q) (hl : l.EndsLevel k)
    (hturn : ∀ left fuel, Q left → Answers (levelLoop env deeper k (fuel + 1) left) (l :: ls')
      (·.EndsLevel k) fun rest reply =>
        ∃ next, R next ∧ reply = levelLoop env deeper k fuel next rest) :
    Leads env deeper k (ls ++ l :: ls') R := by
  intro tokens rest hls hends
  obtain ⟨before, more, rfl, hbefore, hmore⟩ := List.map_eq_append_iff.mp hls
  have hfirst : tokenAt 0 (more ++ rest) = l := first_tokenAt (·.EndsLevel k) hmore hends
  rw [List.append_assoc]
  obtain ⟨left, fuel, hfuel, hQ, hreply⟩ := h before (more ++ rest) hbefore (hfirst ▸ hl)
  have hlength : more.length = ls'.length + 1 := by
    rw [← List.length_map (f := Token.lexeme), hmore, List.length_cons]
  rw [List.length_append] at hfuel
  obtain ⟨fuel, rfl⟩ : ∃ n, fuel = n + 1 := ⟨fuel - 1, by omega⟩
  obtain ⟨next, hR, hnext⟩ := hturn left fuel hQ more rest hmore hends
  exact ⟨next, fuel, by omega, hR, hreply.trans hnext⟩

theorem reads_accept {checked : Checked} (h : checked.errors = []) (hQ : Q checked.expr)
    {ends : Lexeme → Prop} : Reads (accept checked) [] ends Q := by
  intro tokens rest hls _
  rw [List.map_eq_nil_iff.mp hls, List.nil_append, accept_of_clean h]
  exact ⟨_, rfl, hQ⟩

theorem answers_turn {checked : Checked} {loop : Expr → Parse Expr} (h : checked.errors = [])
    (hdepth : checked.expr.depth ≤ maxNesting) (hR : R checked.expr) {ends : Lexeme → Prop} :
    Answers (do
      let found ← accept checked
      loop (← checkDepth found)) [] ends
        fun rest reply => ∃ next, R next ∧ reply = loop next rest := by
  refine .silent (accept_of_clean h) (.silent (checkDepth_of_le hdepth) ?_)
  intro tokens rest hls _
  rw [List.map_eq_nil_iff.mp hls]
  exact ⟨checked.expr, hR, rfl⟩

/-- A sign directly before a number is read as a part of it. -/
theorem reads_signedNumber {l : Lexeme} {value : Value} (hl : number? l = some value)
    (hQ : ∀ p, Q (.ofValue p (negateNumber value))) :
    Reads (signLevel env deeper) [.symbol .minus, l] (·.EndsLevel 8) Q := by
  have heof : l ≠ .eof := by
    rintro rfl
    cases hl
  refine .here fun p => .peek (.advance (by simp) (.peek ?_))
  rw [hl]
  refine .advance heof fun tokens rest hls hends => ⟨_, ?_, hQ p⟩
  have haccess := hends.access (by omega)
  rw [List.map_eq_nil_iff.mp hls]
  exact postfixLoop_of_ends haccess.1 haccess.2 rest.length _

end Grammar

namespace Expr

section Trees

theorem rereads_ofValue (p : Position) {site : Site} {value : Value} (hvalue : value.isNull = false)
    (htype : site.type = value.type) : (ofValue p value).Rereads (.literal site value) := by
  simp [ofValue, Rereads, foldSigns, unplaced, hvalue, htype]

theorem rereads_items {items found : List Expr}
    (h : List.Forall₂ (fun e a => a.Rereads e) items found) :
    unplacedItems found = unplacedItems (foldItems items) := by
  induction h with
  | nil => rfl
  | cons hfirst hrest ih => rw [foldItems, unplacedItems, unplacedItems, hfirst, ih]

theorem rereads_entries {entries found : List (String × Expr)}
    (h : List.Forall₂ (fun entry a => a.1 = entry.1 ∧ a.2.Rereads entry.2) entries found) :
    unplacedEntries found = unplacedEntries (foldEntries entries) := by
  induction h with
  | nil => rfl
  | @cons entry a entries found hfirst hrest ih =>
    obtain ⟨key, e⟩ := entry
    obtain ⟨key', e'⟩ := a
    obtain ⟨rfl, he⟩ := hfirst
    rw [foldEntries, unplacedEntries, unplacedEntries, he, ih]

theorem rereads_unary {site site' : Site} {op : UnaryOp} {operand found : Expr}
    (h : signedLiteral? (.unary site op operand) = none) (htype : site'.type = site.type)
    (hfound : found.Rereads operand) :
    Rereads (.unary site' op found) (.unary site op operand) := by
  rw [Rereads, foldSigns, h, unplaced, unplaced, hfound, htype]

theorem lexemes_separated (pss : List (List Piece)) :
    Piece.lexemes (Piece.separated pss) =
      [.symbol .comma].intercalate (pss.map Piece.lexemes) := by
  induction pss with
  | nil => rfl
  | cons ps pss ih =>
    cases pss with
    | nil => simp [Piece.separated]
    | cons qs pss =>
      rw [Piece.separated, List.intercalate_cons_cons, ← Piece.separated, Piece.lexemes_append,
        Piece.lexemes_append, ih, List.map_cons, List.map_cons, List.map_cons,
        List.intercalate_cons_cons]
      rfl

end Trees

section Literals

variable {env : Env} {deeper : Deeper Parse} {site : Site} {value : Value} {ends : Lexeme → Prop}

theorem reads_truth (flag : Bool) {Q : Expr → Prop} (hQ : ∀ p, Q (.ofValue p (.boolean flag))) :
    Reads (primary env deeper) [.name (if flag then "true" else "false")] ends Q := by
  refine .here fun p => .peek (.here fun q => ?_)
  cases flag with
  | true =>
    rw [if_pos (by decide)]
    exact .advance (by simp) (reads_pure (hQ q))
  | false =>
    rw [if_neg (by decide), if_pos (by decide)]
    exact .advance (by simp) (reads_pure (hQ q))

/-- A literal leads the level of signs if it has one, the level of accesses if not. -/
theorem leads_literal (hvalue : value.Writable) (htype : site.type = value.type) :
    Leads env deeper (min 9 (precedence (.literal site value))) (lexemes (.literal site value))
      (·.Rereads (.literal site value)) := by
  have hback (p : Position) (hnull : value.isNull = false) := rereads_ofValue p hnull htype
  have hsingle (l : Lexeme) (hlevel : min 9 (precedence (.literal site value)) = 9)
      (hpieces : value.pieces = [.token l])
      (h : Reads (primary env deeper) [l] (fun _ => True) (·.Rereads (.literal site value))) :
      Leads env deeper (min 9 (precedence (.literal site value))) (lexemes (.literal site value))
        (·.Rereads (.literal site value)) := by
    have hlexemes : lexemes (.literal site value) = [l] := by simp [lexemes, pieces, hpieces]
    rw [hlevel, hlexemes]
    exact leads_primary (fun _ => True) h fun _ _ => trivial
  have hminus (l : Lexeme) (number : Value)
      (hlevel : min 9 (precedence (.literal site value)) = 8)
      (hpieces : value.pieces = [.symbol .minus, .token l]) (hl : number? l = some number)
      (hnumber : negateNumber number = value) (hnull : value.isNull = false) :
      Leads env deeper (min 9 (precedence (.literal site value))) (lexemes (.literal site value))
        (·.Rereads (.literal site value)) := by
    have hlexemes : lexemes (.literal site value) = [.symbol .minus, l] := by
      simp [lexemes, pieces, hpieces, Piece.symbol]
    rw [hlevel, hlexemes]
    refine leads_of_reads (.inr rfl) (reads_signedNumber hl fun p => ?_)
    rw [hnumber]
    exact hback p hnull
  cases value with
  | boolean flag => exact hsingle _ rfl rfl (reads_truth flag fun p => hback p rfl)
  | string text =>
    exact hsingle _ rfl rfl
      (.here fun p => .peek (.advance (by simp) (reads_pure (hback p rfl))))
  | long n =>
    by_cases hn : n < 0
    · exact hminus (.integer (-n)) (.long (-n)) (by simp [precedence, hn, signPrecedence])
        (by simp [Value.pieces, hn]) rfl (by rw [negateNumber, Int64.neg_neg]) rfl
    · exact hsingle (.integer n) (by simp [precedence, hn, atomPrecedence])
        (by simp [Value.pieces, hn])
        (.here fun p => .peek (.advance (by simp) (reads_pure (hback p rfl))))
  | double x =>
    by_cases hx : x.isNegative
    · exact hminus (.float x.neg) (.double x.neg) (by simp [precedence, hx, signPrecedence])
        (by simp [Value.pieces, hx]) rfl (by rw [negateNumber, Double.neg_neg]) rfl
    · exact hsingle (.float x) (by simp [precedence, hx, atomPrecedence])
        (by simp [Value.pieces, hx])
        (.here fun p => .peek (.advance (by simp) (reads_pure (hback p rfl))))
  | null | list | map => cases hvalue

end Literals

section Atoms

variable {env : Env} {room : Nat}

theorem Opening.ne_symbol {e : Expr} {l : Lexeme} {ps : List Piece} (h : Opening e l ps)
    {s : Symbol} (hs : s.opens = false) : l ≠ .symbol s := by
  intro hl
  rw [h.opens s hl] at hs
  cases hs

theorem Opening.lexemes_eq {e : Expr} {l : Lexeme} {ps : List Piece} (h : Opening e l ps) :
    e.lexemes = l :: Piece.lexemes ps := by
  rw [lexemes, h.pieces_eq, Piece.lexemes_token]

theorem endsLevel_item {close : Symbol} (hclose : close = .rightParen ∨ close = .rightBracket ∨
    close = .rightBrace) {l : Lexeme} (hl : l = .symbol .comma ∨ l = .symbol close) :
    l.EndsLevel 0 := by
  obtain rfl | rfl := hl
  · exact endsLevel_closing (.inl rfl) 0
  · exact endsLevel_closing (by tauto) 0

theorem leads_var {site : Site} {name : String} (hname : Usable name)
    (hscope : env.scope.find? name = some site.type) :
    Leads env (nested env room) 9 (lexemes (.var site name)) (·.Rereads (.var site name)) := by
  refine leads_primary (· ≠ .symbol .leftParen) ?_ fun _ h => h
  have htrue := sameWord_of_usable hname "true" (by decide)
  have hfalse := sameWord_of_usable hname "false" (by decide)
  refine .here fun p => .peek (.here fun q => ?_)
  rw [if_neg (by simp [htrue]), if_neg (by simp [hfalse])]
  refine .peekSecond fun second hsecond => ?_
  rw [if_neg hsecond, if_neg (by simp [hname.free])]
  have hvariable : Typing.variableIn env.scope name q = ⟨.var ⟨site.type, q⟩ name, []⟩ := by
    rw [Typing.variableIn, hscope]
  refine .advance (by simp) (reads_accept ?_ ?_)
  · rw [hvariable]
  · rw [hvariable, Rereads, foldSigns, unplaced, unplaced]

theorem identifierLexeme_cases (name : String) :
    identifierLexeme name = .name name ∨ identifierLexeme name = .quotedName name := by
  rw [identifierLexeme]
  split
  · exact .inl rfl
  · exact .inr rfl

theorem leads_field {site : Site} {name : String} (htype : site.type = .any) :
    Leads env (nested env room) 9 (lexemes (.field site name)) (·.Rereads (.field site name)) := by
  refine leads_primary (fun _ => True) ?_ fun _ _ => trivial
  refine .here fun p => .peek (.advance (by simp) (.peek ?_))
  rw [if_pos (by decide)]
  refine .advance (by simp) ?_
  refine (reads_expect .dot "'.'").bind (fun _ _ => trivial) fun _ _ => ?_
  refine (reads_expectName (identifierLexeme_cases name) _).map ?_
  rintro _ rfl
  rw [Rereads, foldSigns, unplaced, unplaced, htype]

theorem leads_array {site : Site} {items : List Expr} (htype : site.type = .list)
    (hitems : ∀ e ∈ items, Legible env e) (hstart : ∀ e ∈ items, e.startsNot = false)
    (hroom : levels (.array site items) ≤ room) :
    Leads env (nested env room) 9 (lexemes (.array site items))
      (·.Rereads (.array site items)) := by
  have hlexemes : lexemes (.array site items) = .symbol .leftBracket ::
      ([.symbol .comma].intercalate (items.map lexemes) ++ [.symbol .rightBracket]) := by
    simp only [lexemes, pieces, piecesItems_eq, Piece.symbol, Piece.lexemes_token,
      Piece.lexemes_append, lexemes_separated, List.map_map, Piece.lexemes_nil]
    rfl
  have hitem : ∀ e ∈ items, Reads (nested env room).expression e.lexemes
      (fun l => l = .symbol .comma ∨ l = .symbol .rightBracket) (·.Rereads e) := by
    intro e he
    have hlevels := (nestingItems_lt (Nat.succ_pos room)).mp (Nat.lt_succ_of_le hroom) e he
    exact ((hitems e he).reads_expression (hstart e he) room (Nat.lt_of_succ_lt_succ hlevels)).imp
      (fun l hl => endsLevel_item (by simp) hl) fun _ h => h
  have hfirst : ∀ e ∈ items, ∃ l more, e.lexemes = l :: more ∧ l ≠ .symbol .rightBracket := by
    intro e he
    obtain ⟨l, ps, hl⟩ := (hitems e he).opening
    exact ⟨l, _, hl.lexemes_eq, hl.ne_symbol rfl⟩
  rw [hlexemes]
  refine leads_primary (fun _ => True) (.here fun p => .peek (.advance (by simp) ?_))
    fun _ _ => trivial
  refine (reads_separated hitem hfirst (by decide) _).map fun found hfound => ?_
  rw [Rereads, foldSigns, unplaced, unplaced, rereads_items hfound, htype]

theorem reads_entry (key : String) {e : Expr} (he : Legible env e) (hstart : e.startsNot = false)
    (hroom : e.levels < room) :
    Reads (entry (nested env room)) (keyLexeme key :: .symbol .colon :: e.lexemes) (·.EndsLevel 0)
      fun found => found.1 = key ∧ found.2.Rereads e := by
  have hvalue : Reads (do return (key, ← (nested env room).expression)) e.lexemes (·.EndsLevel 0)
      fun found : String × Expr => found.1 = key ∧ found.2.Rereads e :=
    (he.reads_expression hstart room hroom).map fun _ h => ⟨rfl, h⟩
  have hcolon : Reads (do
      expect .colon "':'"
      return (key, ← (nested env room).expression)) (.symbol .colon :: e.lexemes) (·.EndsLevel 0)
      fun found : String × Expr => found.1 = key ∧ found.2.Rereads e :=
    (reads_expect .colon _).bind (fun _ _ => trivial) fun _ _ => hvalue
  rw [keyLexeme]
  split
  · exact .peek (.advance (by simp) hcolon)
  · exact .peek (.advance (by simp) hcolon)

theorem leads_map {site : Site} {entries : List (String × Expr)} (htype : site.type = .map)
    (hentries : ∀ entry ∈ entries, Legible env entry.2)
    (hstart : ∀ e ∈ entries.map (·.2), e.startsNot = false)
    (hroom : levels (.map site entries) ≤ room) :
    Leads env (nested env room) 9 (lexemes (.map site entries))
      (·.Rereads (.map site entries)) := by
  have hlexemes : lexemes (.map site entries) = .symbol .leftBrace ::
      ([.symbol .comma].intercalate (entries.map fun entry =>
        keyLexeme entry.1 :: .symbol .colon :: entry.2.lexemes) ++ [.symbol .rightBrace]) := by
    simp only [lexemes, pieces, piecesEntries_eq, Piece.symbol, Piece.lexemes_token,
      Piece.lexemes_append, lexemes_separated, List.map_map, Piece.lexemes_nil]
    rfl
  have hentry : ∀ x ∈ entries, Reads (entry (nested env room))
      (keyLexeme x.1 :: .symbol .colon :: x.2.lexemes)
      (fun l => l = .symbol .comma ∨ l = .symbol .rightBrace)
      fun found => found.1 = x.1 ∧ found.2.Rereads x.2 := by
    intro x hx
    have hvalue : x.2 ∈ entries.map (·.2) := List.mem_map_of_mem hx
    have hlevels := (nestingEntries_lt (Nat.succ_pos room)).mp (Nat.lt_succ_of_le hroom) x.2 hvalue
    have hentry := reads_entry x.1 (hentries x hx) (hstart x.2 hvalue)
      (Nat.lt_of_succ_lt_succ hlevels)
    exact hentry.imp (fun l hl => endsLevel_item (by simp) hl) fun _ h => h
  have hfirst : ∀ x ∈ entries, ∃ l more,
      keyLexeme x.1 :: .symbol .colon :: x.2.lexemes = l :: more ∧ l ≠ .symbol .rightBrace := by
    intro x hx
    refine ⟨_, _, rfl, ?_⟩
    rw [keyLexeme]
    split <;> simp
  rw [hlexemes]
  refine leads_primary (fun _ => True) (.here fun p => .peek (.advance (by simp) ?_))
    fun _ _ => trivial
  refine (reads_separated hentry hfirst (by decide) _).map fun found hfound => ?_
  rw [Rereads, foldSigns, unplaced, unplaced, rereads_entries hfound, htype]

end Atoms

end Expr

end LogRules
