import LogRules.Proofs.Pieces

/-!
Where scanning goes. Every step moves the cursor ahead over the characters that it takes, so more
fuel than there are characters left changes nothing, and loops can be told without their fuel.
-/
namespace LogRules

theorem Position.advanceAll_append (p : Position) (text more : List Char) :
    p.advanceAll (text ++ more) = (p.advanceAll text).advanceAll more :=
  List.foldl_append

namespace Cursor

/-- The second cursor stands in the same text, perhaps further on. -/
def GoesTo (cursor ahead : Cursor) : Prop :=
  ∃ taken, cursor.rest = taken ++ ahead.rest ∧ ahead.position = cursor.position.advanceAll taken

/-- The place behind the whole text. -/
def lastPosition (cursor : Cursor) : Position := cursor.position.advanceAll cursor.rest

section GoesTo

variable {cursor middle ahead : Cursor}

theorem GoesTo.refl (cursor : Cursor) : cursor.GoesTo cursor := ⟨[], rfl, rfl⟩

theorem GoesTo.trans (h : cursor.GoesTo middle) (h' : middle.GoesTo ahead) :
    cursor.GoesTo ahead := by
  obtain ⟨taken, hrest, hposition⟩ := h
  obtain ⟨more, hrest', hposition'⟩ := h'
  refine ⟨taken ++ more, ?_, ?_⟩
  · rw [hrest, hrest', List.append_assoc]
  · rw [hposition', hposition, Position.advanceAll_append]

theorem GoesTo.length_le (h : cursor.GoesTo ahead) : ahead.rest.length ≤ cursor.rest.length := by
  obtain ⟨taken, hrest, -⟩ := h
  rw [hrest, List.length_append]
  omega

theorem GoesTo.lastPosition_eq (h : cursor.GoesTo ahead) :
    ahead.lastPosition = cursor.lastPosition := by
  obtain ⟨taken, hrest, hposition⟩ := h
  rw [lastPosition, lastPosition, hrest, hposition, Position.advanceAll_append]

theorem goesTo_skip (n : Nat) (cursor : Cursor) : cursor.GoesTo (cursor.skip n) :=
  ⟨cursor.rest.take n, (List.take_append_drop n cursor.rest).symm, rfl⟩

theorem goesTo_span (inClass : Char → Bool) (cursor : Cursor) :
    cursor.GoesTo (cursor.span inClass).2 :=
  ⟨cursor.rest.takeWhile inClass, List.takeWhile_append_dropWhile.symm, rfl⟩

theorem goesTo_next (p : Position) (c : Char) (rest : List Char) :
    GoesTo ⟨p, c :: rest⟩ ⟨p.advance c, rest⟩ :=
  ⟨[c], rfl, rfl⟩

theorem span_cons {inClass : Char → Bool} {c : Char} (h : inClass c) (p : Position)
    (rest : List Char) :
    (span inClass ⟨p, c :: rest⟩).2 = (span inClass ⟨p.advance c, rest⟩).2 := by
  simp [span, h, Position.advanceAll]

theorem span_of_endsRun {inClass : Char → Bool} {rest : List Char} (h : EndsRun inClass rest)
    (p : Position) : span inClass ⟨p, rest⟩ = ([], ⟨p, rest⟩) :=
  span_run (show ∀ c ∈ ([] : List Char), inClass c by simp) h p

theorem closeComment_cons (p : Position) (c : Char) (rest : List Char) :
    closeComment p (c :: rest) =
      if c = '*' ∧ rest.head? = some '/' then some ⟨(p.advance '*').advance '/', rest.tail⟩
      else closeComment (p.advance c) rest := by
  by_cases h : c = '*' ∧ rest.head? = some '/'
  · obtain ⟨rfl, hslash⟩ := h
    obtain ⟨behind, rfl⟩ := List.head?_eq_some_iff.mp hslash
    rfl
  · rw [if_neg h, closeComment]
    rintro behind rfl rfl
    exact h ⟨rfl, rfl⟩

theorem goesTo_closeComment {text : List Char} {p : Position}
    (h : closeComment p text = some ahead) : GoesTo ⟨p, text⟩ ahead := by
  induction text generalizing p with
  | nil => cases h
  | cons c rest ih =>
    rw [closeComment_cons] at h
    split at h
    · next hend =>
      obtain ⟨rfl, hslash⟩ := hend
      obtain ⟨behind, rfl⟩ := List.head?_eq_some_iff.mp hslash
      cases h
      exact ⟨['*', '/'], rfl, rfl⟩
    · exact (goesTo_next p c rest).trans (ih h)

end GoesTo

section Trivia

variable {c : Char} {rest : List Char} (p : Position)

theorem skipTrivia_nil (fuel : Nat) : skipTrivia fuel ⟨p, []⟩ = ([], ⟨p, []⟩) := by
  cases fuel <;> rfl

/-- What stands behind a line comment. -/
def behindLine (cursor : Cursor) : Cursor := (cursor.span (· != '\n')).2.skip 1

theorem skipTrivia_line (fuel : Nat) (rest : List Char) :
    skipTrivia (fuel + 1) ⟨p, '/' :: '/' :: rest⟩ =
      skipTrivia fuel (behindLine ⟨p, '/' :: '/' :: rest⟩) :=
  rfl

theorem goesTo_behindLine (cursor : Cursor) : cursor.GoesTo cursor.behindLine :=
  (goesTo_span _ cursor).trans (goesTo_skip 1 _)

/-- Where the text of a block comment starts. -/
def bodyStart : Position := (p.advance '/').advance '*'

theorem skipTrivia_block (fuel : Nat) (rest : List Char) :
    skipTrivia (fuel + 1) ⟨p, '/' :: '*' :: rest⟩ =
      match closeComment (bodyStart p) rest with
      | some behind => skipTrivia fuel behind
      | none =>
        ([.syntactic p "unterminated block comment"], ⟨(bodyStart p).advanceAll rest, []⟩) := by
  rw [skipTrivia]
  simp only
  change (match closeComment (bodyStart p) rest with
    | some behind => skipTrivia fuel behind
    | none =>
      ([.syntactic p "unterminated block comment"], skip rest.length ⟨bodyStart p, rest⟩)) = _
  simp [skip]

theorem skipTrivia_blank (h : Text.isBlank c) (fuel : Nat) (rest : List Char) :
    skipTrivia (fuel + 1) ⟨p, c :: rest⟩ =
      skipTrivia fuel (span Text.isBlank ⟨p, c :: rest⟩).2 := by
  have hslash : c ≠ '/' := by
    rintro rfl
    exact absurd h (by decide)
  rw [skipTrivia]
  split
  · next heq => cases heq
  · next heq => cases heq; exact absurd rfl hslash
  · next heq => cases heq; exact absurd rfl hslash
  · next heq => cases heq; rw [if_pos h]

/-- How a text starts, as far as skipping is concerned. -/
theorem start_cases (text : List Char) :
    text = [] ∨ (∃ rest, text = '/' :: '/' :: rest) ∨ (∃ rest, text = '/' :: '*' :: rest) ∨
      (∃ c rest, text = c :: rest ∧ Text.isBlank c) ∨ StartsToken text := by
  cases text with
  | nil => exact .inl rfl
  | cons c rest =>
    by_cases hblank : Text.isBlank c
    · exact .inr (.inr (.inr (.inl ⟨c, rest, rfl, hblank⟩)))
    by_cases hcomment : c = '/' → EndsRun (fun d => d == '/' || d == '*') rest
    · exact .inr (.inr (.inr (.inr ⟨by simpa using hblank, hcomment⟩)))
    simp only [Classical.not_imp, EndsRun, not_forall] at hcomment
    obtain ⟨rfl, d, hd, hclass⟩ := hcomment
    obtain ⟨more, rfl⟩ := List.head?_eq_some_iff.mp hd
    simp only [Bool.not_eq_false, Bool.or_eq_true, beq_iff_eq] at hclass
    obtain rfl | rfl := hclass
    · exact .inr (.inl ⟨more, rfl⟩)
    · exact .inr (.inr (.inl ⟨more, rfl⟩))

theorem startsToken_ne_nil {text : List Char} (h : StartsToken text) :
    ∃ c rest, text = c :: rest := by
  cases text with
  | nil => cases h
  | cons c rest => exact ⟨c, rest, rfl⟩

theorem length_behindLine (rest : List Char) :
    (behindLine ⟨p, '/' :: '/' :: rest⟩).rest.length ≤ rest.length := by
  rw [behindLine, span_cons (by decide), span_cons (by decide)]
  exact ((goesTo_span _ _).trans (goesTo_skip 1 _)).length_le

theorem skipTrivia_fuel {fuel fuel' : Nat} {cursor : Cursor} (h : cursor.rest.length < fuel)
    (h' : cursor.rest.length < fuel') : skipTrivia fuel cursor = skipTrivia fuel' cursor := by
  induction fuel generalizing fuel' cursor with
  | zero => omega
  | succ fuel ih =>
    obtain ⟨fuel', rfl⟩ : ∃ n, fuel' = n + 1 := ⟨fuel' - 1, by omega⟩
    obtain ⟨p, text⟩ := cursor
    obtain rfl | ⟨rest, rfl⟩ | ⟨rest, rfl⟩ | ⟨c, rest, rfl, hblank⟩ | hstarts := start_cases text
    · rw [skipTrivia_nil, skipTrivia_nil]
    · have hlength := length_behindLine p rest
      simp only [List.length_cons] at h h'
      rw [skipTrivia_line, skipTrivia_line]
      exact ih (by omega) (by omega)
    · rw [skipTrivia_block, skipTrivia_block]
      cases hclose : closeComment (bodyStart p) rest with
      | none => rfl
      | some behind =>
        have hlength := (goesTo_closeComment hclose).length_le
        simp only [List.length_cons] at h h' hlength
        exact ih (by omega) (by omega)
    · have hlength := (goesTo_span Text.isBlank ⟨p.advance c, rest⟩).length_le
      simp only [List.length_cons] at h h' hlength
      rw [skipTrivia_blank p hblank, skipTrivia_blank p hblank, span_cons hblank]
      exact ih (by omega) (by omega)
    · obtain ⟨c, rest, rfl⟩ := startsToken_ne_nil hstarts
      rw [skipTrivia_of_startsToken hstarts, skipTrivia_of_startsToken hstarts]

/-- Skips blanks and comments. -/
def trivia (cursor : Cursor) : List Diagnostic × Cursor :=
  skipTrivia (cursor.rest.length + 1) cursor

theorem skipTrivia_eq_trivia {fuel : Nat} {cursor : Cursor} (h : cursor.rest.length < fuel) :
    skipTrivia fuel cursor = cursor.trivia :=
  skipTrivia_fuel h (Nat.lt_succ_self _)

theorem trivia_nil : trivia ⟨p, []⟩ = ([], ⟨p, []⟩) := rfl

theorem trivia_line (rest : List Char) :
    trivia ⟨p, '/' :: '/' :: rest⟩ = (behindLine ⟨p, '/' :: '/' :: rest⟩).trivia := by
  have hlength := length_behindLine p rest
  rw [trivia, skipTrivia_line]
  exact skipTrivia_eq_trivia (by simp only [List.length_cons]; omega)

theorem trivia_block (rest : List Char) :
    trivia ⟨p, '/' :: '*' :: rest⟩ =
      match closeComment (bodyStart p) rest with
      | some behind => behind.trivia
      | none =>
        ([.syntactic p "unterminated block comment"], ⟨(bodyStart p).advanceAll rest, []⟩) := by
  rw [trivia, skipTrivia_block]
  cases hclose : closeComment (bodyStart p) rest with
  | none => rfl
  | some behind =>
    have hlength := (goesTo_closeComment hclose).length_le
    exact skipTrivia_eq_trivia (by simp only [List.length_cons] at hlength ⊢; omega)

theorem trivia_of_startsToken {text : List Char} (h : StartsToken text) :
    trivia ⟨p, text⟩ = ([], ⟨p, text⟩) := by
  obtain ⟨c, rest, rfl⟩ := startsToken_ne_nil h
  exact skipTrivia_of_startsToken h _ p

/-- Blanks can be skipped one by one. -/
theorem trivia_blank (h : Text.isBlank c) (rest : List Char) :
    trivia ⟨p, c :: rest⟩ = trivia ⟨p.advance c, rest⟩ := by
  have hlength := (goesTo_span Text.isBlank ⟨p.advance c, rest⟩).length_le
  have hrun : trivia ⟨p, c :: rest⟩ = (span Text.isBlank ⟨p.advance c, rest⟩).2.trivia := by
    rw [trivia, skipTrivia_blank p h, span_cons h]
    exact skipTrivia_eq_trivia (by simp only [List.length_cons] at hlength ⊢; omega)
  rw [hrun]
  cases rest with
  | nil => rfl
  | cons d more =>
    by_cases hd : Text.isBlank d
    · rw [trivia, trivia, List.length_cons, skipTrivia_blank _ hd]
      exact skipTrivia_fuel (by simp only [span_cons hd] at hlength ⊢; omega) (by
        have hmore := (goesTo_span Text.isBlank ⟨(p.advance c).advance d, more⟩).length_le
        simp only [span_cons hd] at hmore ⊢
        omega)
    · rw [span_of_endsRun (endsRun_cons.mpr (by simpa using hd))]

/-- Skipping goes on behind a blank and behind a comment that ends. -/
@[elab_as_elim]
theorem trivia_induction {motive : Cursor → Prop} (ends : ∀ p, motive ⟨p, []⟩)
    (line : ∀ p rest, motive (behindLine ⟨p, '/' :: '/' :: rest⟩) → motive ⟨p, '/' :: '/' :: rest⟩)
    (block : ∀ p rest behind, closeComment (bodyStart p) rest = some behind → motive behind →
      motive ⟨p, '/' :: '*' :: rest⟩)
    (unclosed : ∀ p rest, closeComment (bodyStart p) rest = none → motive ⟨p, '/' :: '*' :: rest⟩)
    (blank : ∀ p c rest, Text.isBlank c → motive ⟨p.advance c, rest⟩ → motive ⟨p, c :: rest⟩)
    (starts : ∀ p text, StartsToken text → motive ⟨p, text⟩) (cursor : Cursor) :
    motive cursor := by
  induction hlength : cursor.rest.length using Nat.strong_induction_on generalizing cursor with
  | h n ih =>
    obtain ⟨p, text⟩ := cursor
    obtain rfl | ⟨rest, rfl⟩ | ⟨rest, rfl⟩ | ⟨c, rest, rfl, hblank⟩ | hstarts := start_cases text
    · exact ends p
    · have hbehind := length_behindLine p rest
      exact line p rest (ih _ (by simp only [List.length_cons] at hlength; omega) _ rfl)
    · cases hclose : closeComment (bodyStart p) rest with
      | none => exact unclosed p rest hclose
      | some behind =>
        have hbehind := (goesTo_closeComment hclose).length_le
        simp only [List.length_cons] at hlength hbehind
        exact block p rest behind hclose (ih _ (by omega) _ rfl)
    · exact blank p c rest hblank (ih rest.length (by rw [← hlength]; simp) _ rfl)
    · exact starts p text hstarts

theorem goesTo_bodyStart (rest : List Char) :
    GoesTo ⟨p, '/' :: '*' :: rest⟩ ⟨bodyStart p, rest⟩ :=
  ⟨['/', '*'], rfl, rfl⟩

theorem goesTo_trivia (cursor : Cursor) : cursor.GoesTo cursor.trivia.2 := by
  induction cursor using trivia_induction with
  | ends p => exact .refl _
  | line p rest ih =>
    rw [trivia_line]
    exact (goesTo_behindLine _).trans ih
  | block p rest behind hclose ih =>
    rw [trivia_block, hclose]
    exact (goesTo_bodyStart p rest).trans ((goesTo_closeComment hclose).trans ih)
  | unclosed p rest hclose =>
    rw [trivia_block, hclose]
    exact (goesTo_bodyStart p rest).trans ⟨rest, (List.append_nil rest).symm, rfl⟩
  | blank p c rest hblank ih =>
    rw [trivia_blank p hblank]
    exact (goesTo_next p c rest).trans ih
  | starts p text hstarts =>
    rw [trivia_of_startsToken p hstarts]
    exact .refl _

/-- Skipping stops at the end or at a token. -/
theorem trivia_stops (cursor : Cursor) :
    cursor.trivia.2.rest = [] ∨ StartsToken cursor.trivia.2.rest := by
  induction cursor using trivia_induction with
  | ends p => exact .inl rfl
  | line p rest ih =>
    rw [trivia_line]
    exact ih
  | block p rest behind hclose ih =>
    rw [trivia_block, hclose]
    exact ih
  | unclosed p rest hclose =>
    rw [trivia_block, hclose]
    exact .inl rfl
  | blank p c rest hblank ih =>
    rw [trivia_blank p hblank]
    exact ih
  | starts p text hstarts =>
    rw [trivia_of_startsToken p hstarts]
    exact .inr hstarts

end Trivia

end Cursor

namespace Scan

open Cursor

variable {cursor : Cursor}

theorem goesTo_fraction (cursor : Cursor) : cursor.GoesTo (fraction cursor).2 := by
  rw [fraction.eq_def]
  split
  · split
    · exact (goesTo_skip 1 cursor).trans (goesTo_span _ _)
    · exact .refl cursor
  · exact .refl cursor

theorem goesTo_exponent (cursor : Cursor) : cursor.GoesTo (exponent cursor).2 := by
  rw [exponent.eq_def]
  split
  · split_ifs
    · exact (goesTo_skip 1 cursor).trans (goesTo_span _ _)
    · exact (goesTo_skip 2 cursor).trans (goesTo_span _ _)
    · exact .refl cursor
    · exact .refl cursor
  · exact .refl cursor

theorem next_integer (start : Position) (text : List Char) (next : Cursor) :
    (integer start text next).next = next := by
  rw [integer]
  split <;> rfl

theorem next_float (start : Position) (text : List Char) (next : Cursor) :
    (float start text next).next = next := by
  rw [float]
  split
  · split <;> rfl
  · rfl

theorem next_number (cursor : Cursor) : (number cursor).next =
    (exponent (fraction (cursor.span Char.isDigit).2).2).2 := by
  simp only [number]
  split
  · exact next_integer _ _ _
  · exact next_float _ _ _

theorem goesTo_unicodeEscape (cursor : Cursor) : cursor.GoesTo (unicodeEscape cursor).2 := by
  rw [unicodeEscape.eq_def]
  split
  · simp only
    split
    · exact ((goesTo_skip 1 cursor).trans (goesTo_span _ _)).trans (goesTo_skip 1 _)
    · exact (goesTo_skip 1 cursor).trans (goesTo_span _ _)
  · exact .refl cursor

theorem goesTo_stringBody (start : Position) (fuel : Nat) (cursor : Cursor) :
    cursor.GoesTo (stringBody start fuel cursor).next := by
  induction fuel generalizing cursor with
  | zero => exact .refl cursor
  | succ fuel ih =>
    rw [stringBody.eq_def]
    simp only
    split
    · exact .refl cursor
    · exact goesTo_skip 1 cursor
    · exact goesTo_skip 1 cursor
    · split
      · have hescape := (goesTo_skip 2 cursor).trans (goesTo_unicodeEscape (cursor.skip 2))
        split
        · next heq =>
          rw [heq] at hescape
          exact hescape.trans (ih _)
        · next heq =>
          rw [heq] at hescape
          exact hescape.trans (ih _)
      · split
        · exact (goesTo_skip 2 cursor).trans (ih _)
        · exact (goesTo_skip 2 cursor).trans (ih _)
    · exact (goesTo_skip 1 cursor).trans (ih _)

theorem goesTo_nameBody (start : Position) (fuel : Nat) (cursor : Cursor) :
    cursor.GoesTo (nameBody start fuel cursor).next := by
  induction fuel generalizing cursor with
  | zero => exact .refl cursor
  | succ fuel ih =>
    rw [nameBody.eq_def]
    simp only
    split
    · exact .refl cursor
    · split_ifs
      · exact goesTo_skip 1 cursor
      · exact (goesTo_skip 2 cursor).trans (ih _)
      · exact goesTo_skip 1 cursor
      · exact (goesTo_skip 1 cursor).trans (ih _)

theorem symbol?_length {text : List Char} {symbol : Symbol} {length : Nat}
    (h : symbol? text = some (symbol, length)) : 0 < length ∧ length ≤ text.length := by
  rw [symbol?.eq_def] at h
  split at h <;> cases h <;> simp

theorem token_ne_eof {p : Position} {c : Char} {rest : List Char} {l : Lexeme}
    (h : (token c ⟨p, c :: rest⟩).lexeme = some l) : l ≠ .eof := by
  rintro rfl
  rw [token] at h
  split_ifs at h
  · cases h
  · simp only [number] at h
    split at h
    · rw [integer] at h
      split at h <;> cases h
    · rw [float] at h
      split at h
      · split_ifs at h <;> cases h
      · cases h
  · simp [Body.toScan] at h
  · simp [Body.toScan] at h
  · split at h <;> cases h

/-- A token takes at least the character that it starts with. -/
theorem goesTo_token (p : Position) (c : Char) (rest : List Char) :
    GoesTo ⟨p.advance c, rest⟩ (token c ⟨p, c :: rest⟩).next := by
  rw [token]
  split_ifs with hname hdigit hquote haccent
  · simp only [span_cons (isNameChar_of_isNameStart hname)]
    exact goesTo_span _ _
  · rw [next_number, span_cons hdigit]
    exact (goesTo_span _ _).trans ((goesTo_fraction _).trans (goesTo_exponent _))
  · exact goesTo_stringBody _ _ _
  · exact goesTo_nameBody _ _ _
  · split
    · next heq =>
      obtain ⟨n, hn⟩ := Nat.exists_eq_succ_of_ne_zero (symbol?_length heq).1.ne'
      subst hn
      exact goesTo_skip n _
    · exact .refl _

end Scan

namespace Cursor

theorem length_token (p : Position) (c : Char) (rest : List Char) :
    (Scan.token c ⟨p, c :: rest⟩).next.rest.length ≤ rest.length :=
  (Scan.goesTo_token p c rest).length_le

/-- One turn of scanning, with what is scanned behind it. -/
theorem tokens_succ (fuel : Nat) (cursor : Cursor) : tokens (fuel + 1) cursor =
    match cursor.trivia.2.rest with
    | [] => ([⟨.eof, cursor.trivia.2.position⟩], cursor.trivia.1)
    | c :: _ =>
      let found := Scan.token c cursor.trivia.2
      let behind := tokens fuel found.next
      ((found.lexeme.map (⟨·, cursor.trivia.2.position⟩)).toList ++ behind.1,
        cursor.trivia.1 ++ found.errors ++ behind.2) := by
  have htrivia : skipTrivia (cursor.rest.length + 1) cursor = cursor.trivia := rfl
  rw [tokens, htrivia]
  obtain ⟨skipped, p, text⟩ := cursor.trivia
  cases text with
  | nil => rfl
  | cons c rest =>
    simp only
    cases (Scan.token c ⟨p, c :: rest⟩).lexeme <;> rfl

theorem tokens_fuel {fuel fuel' : Nat} {cursor : Cursor} (h : cursor.rest.length < fuel)
    (h' : cursor.rest.length < fuel') : tokens fuel cursor = tokens fuel' cursor := by
  induction fuel generalizing fuel' cursor with
  | zero => omega
  | succ fuel ih =>
    obtain ⟨fuel', rfl⟩ : ∃ n, fuel' = n + 1 := ⟨fuel' - 1, by omega⟩
    have hskip := (goesTo_trivia cursor).length_le
    rw [tokens_succ, tokens_succ]
    generalize cursor.trivia = found at hskip ⊢
    obtain ⟨skipped, p, text⟩ := found
    cases text with
    | nil => rfl
    | cons c rest =>
      have htoken := length_token p c rest
      have hlength : rest.length + 1 ≤ cursor.rest.length := hskip
      have hmore : tokens fuel (Scan.token c ⟨p, c :: rest⟩).next =
          tokens fuel' (Scan.token c ⟨p, c :: rest⟩).next :=
        ih (by omega) (by omega)
      simp only [hmore]

/-- The tokens from a cursor on and the errors of scanning them. -/
def scan (cursor : Cursor) : List Token × List Diagnostic :=
  tokens (cursor.rest.length + 1) cursor

theorem tokenize_eq (source : String) : tokenize source = (start source).scan := rfl

section Scan

variable {cursor : Cursor} {skipped : List Diagnostic} {p : Position} {c : Char} {rest : List Char}

theorem scan_end (h : cursor.trivia = (skipped, ⟨p, []⟩)) :
    cursor.scan = ([⟨.eof, p⟩], skipped) := by
  rw [scan, tokens_succ, h]

theorem scan_token (h : cursor.trivia = (skipped, ⟨p, c :: rest⟩)) :
    cursor.scan =
      (((Scan.token c ⟨p, c :: rest⟩).lexeme.map (⟨·, p⟩)).toList ++
          (Scan.token c ⟨p, c :: rest⟩).next.scan.1,
        skipped ++ (Scan.token c ⟨p, c :: rest⟩).errors ++
          (Scan.token c ⟨p, c :: rest⟩).next.scan.2) := by
  have hskip := (goesTo_trivia cursor).length_le
  have htoken := length_token p c rest
  rw [h, List.length_cons] at hskip
  have hnext : tokens cursor.rest.length (Scan.token c ⟨p, c :: rest⟩).next =
      (Scan.token c ⟨p, c :: rest⟩).next.scan :=
    tokens_fuel (by omega) (Nat.lt_succ_self _)
  rw [scan, tokens_succ, h]
  simp only [hnext]

/-- Scanning goes on behind a token. -/
@[elab_as_elim]
theorem scan_induction {motive : Cursor → Prop}
    (ends : ∀ cursor skipped p, cursor.trivia = (skipped, ⟨p, []⟩) → motive cursor)
    (token : ∀ cursor skipped p c rest, cursor.trivia = (skipped, ⟨p, c :: rest⟩) →
      motive (Scan.token c ⟨p, c :: rest⟩).next → motive cursor) (cursor : Cursor) :
    motive cursor := by
  induction hlength : cursor.rest.length using Nat.strong_induction_on generalizing cursor with
  | h n ih =>
    have hskip := (goesTo_trivia cursor).length_le
    cases htrivia : cursor.trivia with
    | mk skipped found =>
      obtain ⟨p, text⟩ := found
      rw [htrivia] at hskip
      cases text with
      | nil => exact ends cursor skipped p htrivia
      | cons c rest =>
        have htoken := length_token p c rest
        simp only [List.length_cons] at hskip
        exact token cursor skipped p c rest htrivia (ih _ (by omega) _ rfl)

/-- The only end of the source among the tokens is the last one, which stands behind the text. -/
theorem scan_ends (cursor : Cursor) :
    ∃ inner, cursor.scan.1 = inner ++ [⟨.eof, cursor.lastPosition⟩] ∧
      ∀ t ∈ inner, t.lexeme ≠ .eof := by
  induction cursor using scan_induction with
  | ends cursor skipped p h =>
    have hlast := (goesTo_trivia cursor).lastPosition_eq
    rw [h] at hlast
    exact ⟨[], by rw [scan_end h, ← hlast]; rfl, by simp⟩
  | token cursor skipped p c rest h ih =>
    obtain ⟨inner, htokens, hinner⟩ := ih
    have hlast := (goesTo_trivia cursor).lastPosition_eq
    have hnext : GoesTo ⟨p, c :: rest⟩ (Scan.token c ⟨p, c :: rest⟩).next :=
      (goesTo_next p c rest).trans (Scan.goesTo_token p c rest)
    rw [h, ← hnext.lastPosition_eq] at hlast
    rw [scan_token h, htokens, hlast, ← List.append_assoc]
    refine ⟨_, rfl, fun t ht => ?_⟩
    obtain ht | ht := List.mem_append.mp ht
    · obtain ⟨l, hl, rfl⟩ := Option.map_eq_some_iff.mp (Option.mem_toList.mp ht)
      exact Scan.token_ne_eof hl
    · exact hinner t ht

end Scan

/-- A spelled lexeme is scanned as itself, and whatever follows is scanned behind it. -/
theorem scan_spelling {l : Lexeme} {rest : List Char} (hl : l.Spellable)
    (hrest : l.EndsBefore rest) (hread : ∀ x, l = .float x → Double.read? l.spelling = some x)
    (p : Position) : scan ⟨p, l.spelling ++ rest⟩ =
      (⟨l, p⟩ :: (scan ⟨p.advanceAll l.spelling, rest⟩).1,
        (scan ⟨p.advanceAll l.spelling, rest⟩).2) := by
  obtain ⟨c, tail, q, hcons, hstarts, htoken⟩ := Scan.token_spelling hl hrest p
  have hnext := Scan.goesTo_token p c tail
  rw [htoken, Piece.scan_eq hl hread] at hnext
  obtain ⟨taken, htaken, hposition⟩ := (goesTo_next p c tail).trans hnext
  obtain rfl : taken = l.spelling := List.append_cancel_right (htaken.symm.trans hcons.symm)
  obtain rfl : q = p.advanceAll l.spelling := hposition
  rw [hcons, scan_token (trivia_of_startsToken p hstarts), htoken, Piece.scan_eq hl hread]
  rfl

end Cursor

end LogRules
