import LogRules.Proofs.Spelling

/-!
Canonical texts as lexemes with spaces between some of them. Such a text is scanned into its
lexemes, and two of them that are equal as texts have the same lexemes.
-/
namespace LogRules

/-- A part of a canonical text. -/
inductive Piece
  | gap
  | token (l : Lexeme)

namespace Piece

def chars : Piece → List Char
  | gap => [' ']
  | token l => l.spelling

def lexeme? : Piece → Option Lexeme
  | gap => none
  | token l => some l

/-- The text of a list of pieces. -/
def text (ps : List Piece) : List Char := ps.flatMap chars

def lexemes (ps : List Piece) : List Lexeme := ps.filterMap lexeme?

/-- Every lexeme has a spelling and ends before what follows it; a lexeme stands behind every
space. -/
def Readable (rest : List Char) : List Piece → Prop
  | [] => True
  | gap :: ps => (∃ l more, ps = token l :: more) ∧ Readable rest ps
  | token l :: ps => l.Spellable ∧ l.EndsBefore (text ps ++ rest) ∧ Readable rest ps

@[simp] theorem text_nil : text [] = [] := rfl

@[simp] theorem text_gap (ps : List Piece) : text (gap :: ps) = ' ' :: text ps := rfl

@[simp] theorem text_token (l : Lexeme) (ps : List Piece) :
    text (token l :: ps) = l.spelling ++ text ps := rfl

@[simp] theorem text_append (ps qs : List Piece) : text (ps ++ qs) = text ps ++ text qs :=
  List.flatMap_append

@[simp] theorem lexemes_nil : lexemes [] = [] := rfl

@[simp] theorem lexemes_gap (ps : List Piece) : lexemes (gap :: ps) = lexemes ps := rfl

@[simp] theorem lexemes_token (l : Lexeme) (ps : List Piece) :
    lexemes (token l :: ps) = l :: lexemes ps := rfl

@[simp] theorem lexemes_append (ps qs : List Piece) :
    lexemes (ps ++ qs) = lexemes ps ++ lexemes qs :=
  List.filterMap_append

theorem readable_append {rest : List Char} {ps qs : List Piece}
    (hps : Readable (text qs ++ rest) ps) (hqs : Readable rest qs) : Readable rest (ps ++ qs) := by
  induction ps with
  | nil => exact hqs
  | cons piece ps ih =>
    cases piece with
    | gap =>
      obtain ⟨⟨l, more, rfl⟩, hmore⟩ := hps
      exact ⟨⟨l, more ++ qs, rfl⟩, ih hmore⟩
    | token l =>
      obtain ⟨hl, hends, hmore⟩ := hps
      have htext : text (ps ++ qs) ++ rest = text ps ++ (text qs ++ rest) := by
        rw [text_append, List.append_assoc]
      exact ⟨hl, htext.symm ▸ hends, ih hmore⟩

end Piece

theorem Cursor.skipTrivia_of_startsToken {c : Char} {tail : List Char}
    (h : StartsToken (c :: tail)) (fuel : Nat) (p : Position) :
    Cursor.skipTrivia (fuel + 1) ⟨p, c :: tail⟩ = ([], ⟨p, c :: tail⟩) := by
  obtain ⟨hblank, hcomment⟩ := h
  rw [skipTrivia]
  split
  · next heq => cases heq
  · next heq =>
    cases heq
    exact absurd (hcomment rfl) (by simp [endsRun_cons])
  · next heq =>
    cases heq
    exact absurd (hcomment rfl) (by simp [endsRun_cons])
  · next heq =>
    cases heq
    simp [hblank]

theorem Cursor.skipTrivia_space {c : Char} {tail : List Char} (h : StartsToken (c :: tail))
    (fuel : Nat) (p : Position) :
    Cursor.skipTrivia (fuel + 2) ⟨p, ' ' :: c :: tail⟩ = ([], ⟨p.advance ' ', c :: tail⟩) := by
  have hspace : Text.isBlank ' ' = true := by decide
  have hrun : ∀ d ∈ [' '], Text.isBlank d := by simp [hspace]
  have hspan : Cursor.span Text.isBlank ⟨p, ' ' :: c :: tail⟩ =
      ([' '], ⟨p.advance ' ', c :: tail⟩) :=
    Cursor.span_run hrun (endsRun_cons.mpr h.1) p
  have hblank := Cursor.skipTrivia_of_startsToken h fuel (p.advance ' ')
  rw [skipTrivia]
  split
  · next heq => cases heq
  · next heq => cases heq
  · next heq => cases heq
  · next heq =>
    cases heq
    rw [if_pos hspace, hspan, hblank]

theorem Cursor.tokens_space {c : Char} {tail : List Char} (h : StartsToken (c :: tail))
    (fuel : Nat) (p : Position) :
    Cursor.tokens (fuel + 1) ⟨p, ' ' :: c :: tail⟩ =
      Cursor.tokens (fuel + 1) ⟨p.advance ' ', c :: tail⟩ := by
  simp only [tokens, List.length_cons, skipTrivia_space h, skipTrivia_of_startsToken h]

theorem Cursor.tokens_spelling {l : Lexeme} {rest : List Char} (hl : l.Spellable)
    (hrest : l.EndsBefore rest) (hread : ∀ p next, l.scan p next = ⟨some l, [], next⟩)
    (fuel : Nat) (p : Position) :
    ∃ q, Cursor.tokens (fuel + 1) ⟨p, l.spelling ++ rest⟩ =
      (⟨l, p⟩ :: (Cursor.tokens fuel ⟨q, rest⟩).1, (Cursor.tokens fuel ⟨q, rest⟩).2) := by
  obtain ⟨c, tail, q, hcons, hstarts, htoken⟩ := Scan.token_spelling hl hrest p
  refine ⟨q, ?_⟩
  rw [hcons, tokens, List.length_cons, skipTrivia_of_startsToken hstarts]
  simp only [htoken, hread, List.nil_append]

namespace Lexeme

theorem endsBefore_nil (l : Lexeme) : l.EndsBefore [] := by
  have hnumber : EndsNumber [] := ⟨endsRun_nil _, by simp⟩
  cases l with
  | name | quotedName => exact endsRun_nil _
  | integer | float => exact hnumber
  | symbol s => cases s <;> first | exact endsRun_nil _ | trivial
  | string | eof => trivial

theorem spelling_ne_nil {l : Lexeme} (hl : l.Spellable) : l.spelling ≠ [] := by
  intro hnil
  obtain ⟨c, tail, -, hcons, -⟩ := Scan.token_spelling hl l.endsBefore_nil .nowhere
  simp [hnil] at hcons

theorem scan_next (l : Lexeme) (p : Position) (next : Cursor) : (l.scan p next).next = next := by
  cases l with
  | float x =>
    rw [scan, Scan.float]
    split
    · split <;> rfl
    · rfl
  | _ => rfl

theorem scan_float_lexeme {x : Double} {p : Position} {next : Cursor} {l : Lexeme}
    (h : ((Lexeme.float x).scan p next).lexeme = some l) : ∃ y, l = .float y := by
  rw [scan, Scan.float] at h
  split at h
  · split at h <;> exact ⟨_, (Option.some.inj h).symm⟩
  · cases h

/-- A text cannot start with two different lexemes. -/
theorem eq_of_spelling {l l' : Lexeme} (hl : l.Spellable) (hl' : l'.Spellable)
    {rest rest' : List Char} (hrest : l.EndsBefore rest) (hrest' : l'.EndsBefore rest')
    (h : l.spelling ++ rest = l'.spelling ++ rest') : l = l' ∧ rest = rest' := by
  obtain ⟨c, tail, q, hcons, -, htoken⟩ := Scan.token_spelling hl hrest .nowhere
  obtain ⟨c', tail', q', hcons', -, htoken'⟩ := Scan.token_spelling hl' hrest' .nowhere
  rw [h, hcons'] at hcons
  cases hcons
  rw [htoken'] at htoken
  have hnext := congrArg (fun found => found.next.rest) htoken
  simp only [scan_next] at hnext
  subst hnext
  refine ⟨?_, rfl⟩
  have hspelling : l.spelling = l'.spelling := List.append_cancel_right h
  have hlexeme := congrArg Scan.lexeme htoken
  cases l with
  | float x =>
    cases l' with
    | float y =>
      rw [Double.eq_of_magnitudeText hl.1 hl'.1 (by rw [hl.2, hl'.2]) hspelling]
    | _ =>
      obtain ⟨y, hy⟩ := scan_float_lexeme hlexeme.symm
      cases hy
  | _ =>
    cases l' with
    | float y =>
      obtain ⟨y, hy⟩ := scan_float_lexeme hlexeme
      cases hy
    | _ => exact (Option.some.inj hlexeme).symm

end Lexeme

namespace Piece

theorem startsToken_text {l : Lexeme} {rest : List Char} (hl : l.Spellable)
    (hrest : l.EndsBefore rest) : ∃ c tail, l.spelling ++ rest = c :: tail ∧
      StartsToken (c :: tail) := by
  obtain ⟨c, tail, -, hcons, hstarts, -⟩ := Scan.token_spelling hl hrest .nowhere
  exact ⟨c, tail, hcons, hstarts⟩

theorem scan_eq {l : Lexeme} (hl : l.Spellable)
    (hread : ∀ x, l = .float x → Double.read? l.spelling = some x) (p : Position) (next : Cursor) :
    l.scan p next = ⟨some l, [], next⟩ := by
  cases l with
  | float x =>
    rw [Lexeme.scan, Scan.float, hread x rfl]
    exact if_pos hl.1
  | _ => rfl

/-- A readable text is scanned into its lexemes, if all of its floats read back. -/
theorem tokens_text {ps : List Piece} (h : Readable [] ps)
    (hread : ∀ x, .float x ∈ lexemes ps → Double.read? (Lexeme.float x).spelling = some x)
    (fuel : Nat) (hfuel : (text ps).length < fuel) (p : Position) :
    ∃ tokens q, Cursor.tokens fuel ⟨p, text ps⟩ = (tokens ++ [⟨.eof, q⟩], []) ∧
      tokens.map Token.lexeme = lexemes ps := by
  induction ps generalizing fuel p with
  | nil =>
    obtain ⟨fuel, rfl⟩ : ∃ n, fuel = n + 1 := ⟨fuel - 1, by simp at hfuel; omega⟩
    exact ⟨[], p, rfl, rfl⟩
  | cons piece ps ih =>
    obtain ⟨fuel, rfl⟩ : ∃ n, fuel = n + 1 := ⟨fuel - 1, by omega⟩
    cases piece with
    | gap =>
      obtain ⟨⟨l, more, rfl⟩, hmore⟩ := h
      obtain ⟨c, tail, hcons, hstarts⟩ := startsToken_text hmore.1 hmore.2.1
      rw [List.append_nil, ← text_token] at hcons
      rw [text_gap, hcons, Cursor.tokens_space hstarts, ← hcons]
      exact ih hmore hread (fuel + 1) (by simp at hfuel ⊢; omega) _
    | token l =>
      obtain ⟨hl, hends, hmore⟩ := h
      rw [List.append_nil] at hends
      have hscan := scan_eq hl fun x hx => hx ▸ hread x (by simp [hx])
      obtain ⟨q, hfirst⟩ := Cursor.tokens_spelling hl hends hscan fuel p
      have hlength := List.length_pos_of_ne_nil (Lexeme.spelling_ne_nil hl)
      obtain ⟨tokens, q', hrest, hlexemes⟩ := ih hmore (fun x hx => hread x (by simp [hx])) fuel
        (by simp at hfuel; omega) q
      refine ⟨⟨l, p⟩ :: tokens, q', ?_, by simp [hlexemes]⟩
      rw [text_token, hfirst, hrest]
      rfl

/-- Readable texts that are equal have the same lexemes. -/
theorem lexemes_eq_of_text {ps qs : List Piece} (hps : Readable [] ps) (hqs : Readable [] qs)
    (h : text ps = text qs) : lexemes ps = lexemes qs := by
  have hspace (tail : List Char) : ¬ StartsToken (' ' :: tail) := by
    rintro ⟨hblank, -⟩
    exact absurd hblank (by decide)
  induction ps generalizing qs with
  | nil =>
    cases qs with
    | nil => rfl
    | cons piece qs =>
      cases piece with
      | gap => cases h
      | token l => simp [Lexeme.spelling_ne_nil hqs.1] at h
  | cons piece ps ih =>
    cases piece with
    | gap =>
      cases qs with
      | nil => cases h
      | cons piece qs =>
        cases piece with
        | gap => rw [lexemes_gap, lexemes_gap, ih hps.2 hqs.2 (List.cons.inj h).2]
        | token l =>
          obtain ⟨hl, hends, -⟩ := hqs
          obtain ⟨c, tail, hcons, hstarts⟩ := startsToken_text hl hends
          rw [List.append_nil, ← text_token, ← h, text_gap] at hcons
          cases hcons
          exact absurd hstarts (hspace _)
    | token l =>
      obtain ⟨hl, hends, hmore⟩ := hps
      cases qs with
      | nil => simp [Lexeme.spelling_ne_nil hl] at h
      | cons piece qs =>
        cases piece with
        | gap =>
          obtain ⟨c, tail, hcons, hstarts⟩ := startsToken_text hl hends
          rw [List.append_nil, ← text_token, h, text_gap] at hcons
          cases hcons
          exact absurd hstarts (hspace _)
        | token l' =>
          obtain ⟨hl', hends', hmore'⟩ := hqs
          rw [List.append_nil] at hends hends'
          obtain ⟨rfl, htext⟩ := Lexeme.eq_of_spelling hl hl' hends hends' h
          rw [lexemes_token, lexemes_token, ih hmore hmore' htext]

end Piece

end LogRules
