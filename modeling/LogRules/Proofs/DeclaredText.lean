import LogRules.Proofs.KeySoundness
import LogRules.Proofs.MovedScanning
import LogRules.Proofs.RoundTrip

/-!
The texts of rules and pipelines as lexemes. Each part of such a text is scanned into its lexemes
whatever stands before it, as long as what follows cannot be read as a part of its last lexeme.
-/
namespace LogRules

/-- The text is scanned into these lexemes, without errors, where `rest` stands behind it. -/
def ScansTo (rest text : List Char) (ls : List Lexeme) : Prop :=
  ∀ p, ∃ tokens q, tokens.map Token.lexeme = ls ∧ Cursor.scan ⟨p, text ++ rest⟩ =
    (tokens ++ (Cursor.scan ⟨q, rest⟩).1, (Cursor.scan ⟨q, rest⟩).2)

section Scanning

variable {rest text text' : List Char} {ls ls' : List Lexeme} {l : Lexeme}

theorem scansTo_nil : ScansTo rest [] [] := fun p => ⟨[], p, rfl, rfl⟩

theorem ScansTo.append (h : ScansTo (text' ++ rest) text ls) (h' : ScansTo rest text' ls') :
    ScansTo rest (text ++ text') (ls ++ ls') := by
  intro p
  obtain ⟨tokens, q, hls, hscan⟩ := h p
  obtain ⟨tokens', q', hls', hscan'⟩ := h' q
  refine ⟨tokens ++ tokens', q', ?_, ?_⟩
  · rw [List.map_append, hls, hls']
  · rw [List.append_assoc, hscan, hscan', List.append_assoc]

theorem ScansTo.blank (h : ScansTo rest text ls) (c : Char) (hc : Text.isBlank c = true) :
    ScansTo rest (c :: text) ls := by
  intro p
  obtain ⟨tokens, q, hls, hscan⟩ := h (p.advance c)
  have hblank : Cursor.trivia ⟨p, c :: (text ++ rest)⟩ =
      ([] ++ (Cursor.trivia ⟨p.advance c, text ++ rest⟩).1,
        (Cursor.trivia ⟨p.advance c, text ++ rest⟩).2) :=
    Cursor.trivia_blank p hc (text ++ rest)
  refine ⟨tokens, q, hls, ?_⟩
  rw [List.cons_append, Cursor.scan_of_trivia hblank, hscan]
  rfl

theorem scansTo_token (h : ∀ p, ∃ c tail q, text ++ rest = c :: tail ∧ StartsToken (c :: tail) ∧
    Scan.token c ⟨p, c :: tail⟩ = ⟨some l, [], ⟨q, rest⟩⟩) : ScansTo rest text [l] := by
  intro p
  obtain ⟨c, tail, q, hcons, hstarts, htoken⟩ := h p
  refine ⟨[⟨l, p⟩], q, rfl, ?_⟩
  rw [hcons, Cursor.scan_token (Cursor.trivia_of_startsToken p hstarts), htoken]
  rfl

theorem scansTo_spelling (hl : l.Spellable) (hrest : l.EndsBefore rest)
    (hread : ∀ x, l = .float x → Double.read? l.spelling = some x) :
    ScansTo rest l.spelling [l] :=
  fun p => ⟨[⟨l, p⟩], p.advanceAll l.spelling, rfl, Cursor.scan_spelling hl hrest hread p⟩

/-- A plain name before a character that is not one of a name. -/
theorem ScansTo.word {c : Char} (h : ScansTo rest (c :: text) ls)
    (hc : Text.isNameChar c = false) (word : String)
    (hword : Text.isPlainName word.toList = true) :
    ScansTo rest (word.toList ++ c :: text) (.name word :: ls) := by
  refine ScansTo.append (scansTo_token fun p => ?_) h
  obtain ⟨d, tail, q, hcons, hstarts, htoken⟩ :=
    Scan.token_name hword (endsRun_cons.mpr hc) p
  exact ⟨d, tail, q, hcons, hstarts, htoken⟩

theorem ScansTo.quote (h : ScansTo rest text ls) (string : String) :
    ScansTo rest (Text.quoteChars string.toList ++ text) (.string string :: ls) :=
  ScansTo.append (scansTo_token fun p => Scan.token_string string p) h

theorem ScansTo.symbol (h : ScansTo rest text ls) (s : Symbol)
    (hs : (Lexeme.symbol s).EndsBefore (text ++ rest)) :
    ScansTo rest (s.text.toList ++ text) (.symbol s :: ls) :=
  ScansTo.append (scansTo_token fun p => Scan.token_symbol hs p) h

theorem scansTo_pieces {ps : List Piece} (h : Piece.Readable rest ps)
    (hread : ∀ x, .float x ∈ Piece.lexemes ps →
      Double.read? (Lexeme.float x).spelling = some x) :
    ScansTo rest (Piece.text ps) (Piece.lexemes ps) := by
  induction ps with
  | nil => exact scansTo_nil
  | cons piece ps ih =>
    cases piece with
    | gap => exact (ih h.2 hread).blank ' ' (by decide)
    | token l =>
      obtain ⟨hl, hends, hmore⟩ := h
      have hfirst : ScansTo (Piece.text ps ++ rest) l.spelling [l] :=
        scansTo_spelling hl hends fun x hx => hx ▸ hread x (by simp [hx])
      exact hfirst.append (ih hmore fun x hx => hread x (by simp [hx]))

/-- A source that is scanned to its end. -/
theorem ScansTo.tokenize {source : String} (h : ScansTo [] source.toList ls) :
    ∃ tokens q, tokenize source = (tokens ++ [⟨.eof, q⟩], []) ∧ tokens.map Token.lexeme = ls := by
  obtain ⟨tokens, q, hls, hscan⟩ := h .start
  rw [List.append_nil, Cursor.scan_end (Cursor.trivia_nil q)] at hscan
  exact ⟨tokens, q, hscan, hls⟩

end Scanning

/-- An expression before a character that cannot go on with it. -/
theorem Expr.scansTo_before {env : Grammar.Env} {e : Expr} {rest text : List Char}
    {ls : List Lexeme} {c : Char} (h : Grammar.Accepted env e)
    (hbehind : ScansTo rest (c :: text) ls) (hname : Text.isNameChar c = false)
    (haccent : c ≠ Text.accent) (hpoint : c ≠ '.') :
    ScansTo rest (e.text.toList ++ c :: text) (e.lexemes ++ ls) := by
  have hstops : Stops (c :: text ++ rest) := stops_cons hname haccent hpoint (text ++ rest)
  have hexpression : ScansTo (c :: text ++ rest) e.text.toList e.lexemes := by
    rw [Expr.toList_text h, Expr.lexemes]
    exact scansTo_pieces ((Expr.standalone_pieces h).2 _ hstops) (Expr.floats_pieces h)
  exact hexpression.append hbehind

namespace Statement

/-- Whether a variable is bound under a name that can be written as it is. -/
def isPlain : Statement → Bool
  | perform _ => true
  | bind name _ _ _ => Text.isPlainName name.toList

/-- The lexemes of a statement without the semicolon. -/
def phrase : Statement → List Lexeme
  | perform e => e.lexemes
  | bind name _ value _ => .name "let" :: .name name :: .symbol .assign :: value.lexemes

def lexemes (s : Statement) : List Lexeme := s.phrase ++ [.symbol .semicolon]

variable {registry : Registry} {scope : Typing.Scope} {s : Statement} {rest : List Char}

theorem scansTo (h : s.Accepted registry scope) (hplain : s.isPlain) :
    ScansTo rest s.text.toList s.lexemes := by
  have hend : ScansTo rest [';'] [.symbol .semicolon] := scansTo_nil.symbol .semicolon trivial
  have hexpression : ScansTo rest (s.expression.text.toList ++ [';'])
      (s.expression.lexemes ++ [.symbol .semicolon]) :=
    Expr.scansTo_before h.admits.accepted hend (by decide) (by decide) (by decide)
  cases s with
  | perform e =>
    rw [toList_perform]
    exact hexpression
  | bind name type value p =>
    rw [toList_bind]
    have hvalue := (hexpression.blank ' ' (by decide)).symbol .assign (endsRun_cons.mpr (by decide))
    have hname := (hvalue.blank ' ' (by decide)).word (by decide) name hplain
    exact (hname.blank ' ' (by decide)).word (by decide) "let" (by decide)

/-- Statements on their lines, before something else. -/
theorem scansTo_lines {statements : List Statement} {text : List Char} {ls : List Lexeme}
    (h : AllAccepted registry scope statements) (hplain : ∀ s ∈ statements, s.isPlain)
    (hbehind : ScansTo rest text ls) :
    ScansTo rest (statements.flatMap line ++ text) (statements.flatMap lexemes ++ ls) := by
  induction statements generalizing scope with
  | nil => exact hbehind
  | cons s more ih =>
    have hmore := ih h.2 fun t ht => hplain t (by simp [ht])
    have hfirst := (scansTo h.1 (hplain s (by simp))).append (hmore.blank '\n' (by decide))
    rw [List.flatMap_cons, List.flatMap_cons, line, List.append_assoc]
    simpa using (hfirst.blank ' ' (by decide)).blank ' ' (by decide)

end Statement

/-- A text ends in a word, and no more of the word follows. -/
theorem scansTo_end {rest : List Char} (hrest : EndsRun Text.isNameChar rest) :
    ScansTo rest "end".toList [.name "end"] :=
  scansTo_token fun p =>
    Scan.token_name (show Text.isPlainName "end".toList = true by decide) hrest p

namespace Rule

variable {registry : Registry} {r : Rule} {rest : List Char}

def lexemes (r : Rule) : List Lexeme :=
  .name "rule" :: .string r.name :: .name "when" ::
    (r.condition.lexemes ++ .name "then" :: (r.statements.flatMap Statement.lexemes ++
      [.name "end"]))

/-- What scanning the text of a rule needs. -/
structure Printable (registry : Registry) (r : Rule) : Prop where
  accepted : r.Accepted registry
  plain : ∀ s ∈ r.statements, s.isPlain

theorem toList_text (r : Rule) : r.text.toList =
    "rule".toList ++ ' ' :: (Text.quoteChars r.name.toList ++ '\n' :: ("when".toList ++
      ' ' :: (r.condition.text.toList ++ '\n' :: ("then".toList ++
        '\n' :: (r.statements.flatMap Statement.line ++ "end".toList))))) := by
  rw [text, String.toList_append, String.toList_append, String.toList_append, toList_body]
  simp [Text.quoteString]

theorem scansTo (h : r.Printable registry) (hrest : EndsRun Text.isNameChar rest) :
    ScansTo rest r.text.toList r.lexemes := by
  have hstatements := Statement.scansTo_lines h.accepted.statements h.plain (scansTo_end hrest)
  have hthen := (hstatements.blank '\n' (by decide)).word (by decide) "then" (by decide)
  have hcondition := Expr.scansTo_before h.accepted.condition.accepted
    (hthen.blank '\n' (by decide)) (by decide) (by decide) (by decide)
  have hwhen := (hcondition.blank ' ' (by decide)).word (by decide) "when" (by decide)
  have hname := (hwhen.blank '\n' (by decide)).quote r.name
  rw [toList_text]
  exact (hname.blank ' ' (by decide)).word (by decide) "rule" (by decide)

end Rule

/-- The lexemes of a stage number. -/
def stageNumberLexemes (number : Int) : List Lexeme :=
  Piece.lexemes (Value.long (.ofInt number)).pieces

theorem IsStageNumber.bounds {number : Int} (h : IsStageNumber number) :
    -2147483648 ≤ number ∧ number ≤ 2147483647 := by
  have hleast : Grammar.leastStage = -2147483648 := by decide
  have hgreatest : Grammar.greatestStage = 2147483647 := by decide
  rwa [IsStageNumber, hleast, hgreatest] at h

theorem IsStageNumber.toInt_ofInt {number : Int} (h : IsStageNumber number) :
    (Int64.ofInt number).toInt = number := by
  have hbounds := h.bounds
  exact Int64.toInt_ofInt_of_le (by omega) (by omega)

theorem scansTo_stageNumber {number : Int} {rest : List Char} (h : IsStageNumber number)
    (hrest : Stops rest) :
    ScansTo rest (toString number).toList (stageNumberLexemes number) := by
  have hwritable : (Value.long (.ofInt number)).Writable := by
    have hbounds := h.bounds
    rw [Value.Writable, h.toInt_ofInt, Long.least]
    omega
  have htext : (toString number).toList = Piece.text (Value.long (.ofInt number)).pieces := by
    rw [← Value.toList_literal hwritable, Value.literal, h.toInt_ofInt]
  rw [htext]
  refine scansTo_pieces (readable_literal hwritable hrest) fun x hx => ?_
  rw [Value.pieces] at hx
  split at hx <;> simp [Piece.symbol] at hx

namespace Stage

variable {s : Stage} {rest text : List Char} {ls : List Lexeme}

def refLexemes (ref : String) : List Lexeme := [.name "rule", .string ref, .symbol .semicolon]

def lexemes (s : Stage) : List Lexeme :=
  .name "stage" :: (stageNumberLexemes s.number ++ .name "match" :: .name s.policy.name ::
    s.refs.flatMap refLexemes)

def refLine (ref : String) : List Char :=
  ' ' :: ' ' :: ("rule".toList ++ ' ' :: (Text.quoteChars ref.toList ++ [';', '\n']))

theorem toList_text (s : Stage) : s.text.toList =
    "stage".toList ++ ' ' :: ((toString s.number).toList ++ ' ' :: ("match".toList ++
      ' ' :: (s.policy.name.toList ++ '\n' :: s.refs.flatMap refLine))) := by
  have htext : s.text = "stage " ++ toString s.number ++ " match " ++ s.policy.name ++ "\n" ++
    String.join (s.refs.map fun ref => "  rule " ++ Text.quoteString ref ++ ";\n") := rfl
  have hline (ref : String) :
      ("  rule " ++ Text.quoteString ref ++ ";\n").toList = refLine ref := by
    simp [Text.quoteString, refLine]
  rw [htext]
  simp [String.toList_join, List.flatMap_map, hline]

theorem scansTo_refs (refs : List String) (hbehind : ScansTo rest text ls) :
    ScansTo rest (refs.flatMap refLine ++ text) (refs.flatMap refLexemes ++ ls) := by
  induction refs with
  | nil => exact hbehind
  | cons ref more ih =>
    have hend := (ih.blank '\n' (by decide)).symbol .semicolon trivial
    have hrule := ((hend.quote ref).blank ' ' (by decide)).word (by decide) "rule" (by decide)
    rw [List.flatMap_cons, List.flatMap_cons, refLine, refLexemes]
    simpa [Symbol.text] using (hrule.blank ' ' (by decide)).blank ' ' (by decide)

theorem scansTo (h : IsStageNumber s.number) (hbehind : ScansTo rest text ls) :
    ScansTo rest (s.text.toList ++ text) (s.lexemes ++ ls) := by
  have hrefs := (scansTo_refs s.refs hbehind).blank '\n' (by decide)
  have hpolicy := hrefs.word (by decide) s.policy.name (by cases s.policy <;> decide)
  have hmatch := (hpolicy.blank ' ' (by decide)).word (by decide) "match" (by decide)
  have hnumber := (scansTo_stageNumber h (stops_cons (by decide) (by decide) (by decide) _)).append
    (hmatch.blank ' ' (by decide))
  rw [toList_text, lexemes]
  simpa using (hnumber.blank ' ' (by decide)).word (by decide) "stage" (by decide)

theorem scansTo_stages {stages : List Stage} (h : ∀ s ∈ stages, IsStageNumber s.number)
    (hbehind : ScansTo rest text ls) :
    ScansTo rest (stages.flatMap (·.text.toList) ++ text) (stages.flatMap lexemes ++ ls) := by
  induction stages with
  | nil => exact hbehind
  | cons s more ih =>
    rw [List.flatMap_cons, List.flatMap_cons, List.append_assoc, List.append_assoc]
    exact scansTo (h s (by simp)) (ih fun t ht => h t (by simp [ht]))

end Stage

namespace Pipeline

def lexemes (p : Pipeline) : List Lexeme :=
  .name "pipeline" :: .string p.name :: (p.stages.flatMap Stage.lexemes ++ [.name "end"])

theorem toList_text (p : Pipeline) : p.text.toList =
    "pipeline".toList ++ ' ' :: (Text.quoteChars p.name.toList ++ '\n' ::
      (p.stages.flatMap (·.text.toList) ++ "end".toList)) := by
  simp [text, String.toList_join, Text.quoteString, List.flatMap_map]

theorem scansTo {p : Pipeline} {rest : List Char} (h : ∀ s ∈ p.stages, IsStageNumber s.number)
    (hrest : EndsRun Text.isNameChar rest) : ScansTo rest p.text.toList p.lexemes := by
  have hstages := (Stage.scansTo_stages h (scansTo_end hrest)).blank '\n' (by decide)
  rw [toList_text, lexemes]
  exact ((hstages.quote p.name).blank ' ' (by decide)).word (by decide) "pipeline" (by decide)

end Pipeline

namespace Declaration

def lexemes : Declaration → List Lexeme
  | rule r => r.lexemes
  | pipeline p => p.lexemes

/-- What scanning the text of a declaration needs. -/
def Printable (registry : Registry) : Declaration → Prop
  | rule r => r.Printable registry
  | pipeline p => p.Formed

theorem scansTo {registry : Registry} {d : Declaration} {rest : List Char}
    (h : d.Printable registry) (hrest : EndsRun Text.isNameChar rest) :
    ScansTo rest d.text.toList d.lexemes := by
  cases d with
  | rule r => exact Rule.scansTo h hrest
  | pipeline p => exact Pipeline.scansTo h.numbers hrest

/-- Declarations with a blank line between them. -/
theorem scansTo_source {registry : Registry} {ds : List Declaration}
    (h : ∀ d ∈ ds, d.Printable registry) :
    ScansTo [] ("\n\n".intercalate (ds.map text)).toList (ds.flatMap lexemes) := by
  rw [String.toList_intercalate, List.map_map]
  induction ds with
  | nil => exact scansTo_nil
  | cons d more ih =>
    cases more with
    | nil => simpa using scansTo (h d (by simp)) (endsRun_nil _)
    | cons d' more =>
      have hmore := ih fun e he => h e (by simp [he])
      have hfirst := (scansTo (h d (by simp)) (endsRun_cons.mpr (by decide))).append
        ((hmore.blank '\n' (by decide)).blank '\n' (by decide))
      rw [List.map_cons, List.map_cons, List.intercalate_cons_cons, List.flatMap_cons,
        ← List.map_cons, List.append_assoc]
      exact hfirst

end Declaration

end LogRules
