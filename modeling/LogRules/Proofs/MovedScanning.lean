import LogRules.Proofs.Relocation
import LogRules.Proofs.Scanning

/-!
Scanning the same text at another place, with more text behind it. The tokens are the same, moved,
if nothing follows, or if nothing is wrong and a new line follows.
-/
namespace LogRules

/-- A move of places that keeps how they advance over a text. -/
def Steady (move : Position → Position) : Prop := ∀ p c, move (p.advance c) = (move p).advance c

/-- Nothing, or a text that starts with the end of a line. -/
def EndsLine (tail : List Char) : Prop := ∀ c ∈ tail.head?, c = '\n'

theorem EndsLine.cases {tail : List Char} (h : EndsLine tail) :
    tail = [] ∨ ∃ rest, tail = '\n' :: rest := by
  cases tail with
  | nil => exact .inl rfl
  | cons c rest =>
    obtain rfl := h c rfl
    exact .inr ⟨rest, rfl⟩

theorem EndsLine.endsRun {tail : List Char} (h : EndsLine tail) {inClass : Char → Bool}
    (hclass : inClass '\n' = false) : EndsRun inClass tail := by
  intro c hc
  rw [h c hc, hclass]

/-- The same cursor at another place, with more text behind its own. -/
def Cursor.shift (move : Position → Position) (tail : List Char) (cursor : Cursor) : Cursor :=
  ⟨move cursor.position, cursor.rest ++ tail⟩

@[simp] theorem Cursor.position_shift (move : Position → Position) (tail : List Char)
    (cursor : Cursor) : (cursor.shift move tail).position = move cursor.position :=
  rfl

def Scan.shift (move : Position → Position) (tail : List Char) (found : Scan) : Scan :=
  ⟨found.lexeme, found.errors.map (Diagnostic.relocate move), found.next.shift move tail⟩

def Scan.Body.shift (move : Position → Position) (tail : List Char) (body : Scan.Body) :
    Scan.Body :=
  ⟨body.text, body.errors.map (Diagnostic.relocate move), body.next.shift move tail⟩

variable {move : Position → Position} {tail : List Char}

theorem Steady.advanceAll (hmove : Steady move) (p : Position) (text : List Char) :
    move (p.advanceAll text) = (move p).advanceAll text := by
  induction text generalizing p with
  | nil => rfl
  | cons c rest ih =>
    have hstep (q : Position) : q.advanceAll (c :: rest) = (q.advance c).advanceAll rest := rfl
    rw [hstep, hstep, ih, hmove]

namespace Cursor

theorem skip_shift (hmove : Steady move) {n : Nat} {cursor : Cursor}
    (h : n ≤ cursor.rest.length) :
    (cursor.shift move tail).skip n = (cursor.skip n).shift move tail := by
  simp only [shift, skip, List.take_append_of_le_length h, List.drop_append_of_le_length h,
    hmove.advanceAll]

theorem skip_one_shift (hmove : Steady move) (p : Position) (c : Char) (rest : List Char) :
    skip 1 (shift move tail ⟨p, c :: rest⟩) = (skip 1 ⟨p, c :: rest⟩).shift move tail :=
  skip_shift hmove (by simp)

theorem rest_shift_cons (p : Position) (c : Char) (rest : List Char) :
    (shift move tail ⟨p, c :: rest⟩).rest = c :: (rest ++ tail) :=
  rfl

theorem span_shift (hmove : Steady move) {inClass : Char → Bool} (htail : EndsRun inClass tail)
    (cursor : Cursor) : (cursor.shift move tail).span inClass =
      ((cursor.span inClass).1, (cursor.span inClass).2.shift move tail) := by
  obtain ⟨p, text⟩ := cursor
  have hrun : ∀ c ∈ text.takeWhile inClass, inClass c := fun c hc => List.mem_takeWhile_imp hc
  have hends : EndsRun inClass (text.dropWhile inClass ++ tail) := by
    cases hrest : text.dropWhile inClass with
    | nil => exact htail
    | cons c rest =>
      have hne : text.dropWhile inClass ≠ [] := by simp [hrest]
      have hhead := List.head_dropWhile_not inClass hne
      simp only [hrest, List.head_cons] at hhead
      exact endsRun_cons.mpr (by simpa using hhead)
  have hsplit : text ++ tail =
      text.takeWhile inClass ++ (text.dropWhile inClass ++ tail) := by
    rw [← List.append_assoc, List.takeWhile_append_dropWhile]
  rw [shift, hsplit, span_run hrun hends]
  simp only [span, shift, hmove.advanceAll]

theorem closeComment_shift (hmove : Steady move) (tail : List Char) {text : List Char}
    {p : Position} {behind : Cursor} (h : closeComment p text = some behind) :
    closeComment (move p) (text ++ tail) = some (behind.shift move tail) := by
  induction text generalizing p with
  | nil => cases h
  | cons c rest ih =>
    rw [closeComment_cons] at h
    rw [List.cons_append, closeComment_cons]
    cases rest with
    | nil => simp [closeComment] at h
    | cons d more =>
      have hhead : (d :: more ++ tail).head? = (d :: more).head? := rfl
      rw [hhead]
      split at h
      · next hend =>
        cases h
        rw [if_pos hend, shift, hmove, hmove]
        rfl
      · next hend => rw [if_neg hend, ← hmove, ih h]

theorem closeComment_none {text : List Char} {p : Position} (h : closeComment p text = none)
    (q : Position) : closeComment q text = none := by
  induction text generalizing p q with
  | nil => rfl
  | cons c rest ih =>
    rw [closeComment_cons] at h ⊢
    split at h
    · cases h
    · next hend => rw [if_neg hend, ih h]

end Cursor

namespace Scan

open Cursor

section Numbers

variable (hmove : Steady move) (htail : EndsLine tail)

include hmove htail

theorem digits_shift (n : Nat) (cursor : Cursor) (h : n ≤ cursor.rest.length) :
    ((cursor.shift move tail).skip n).span Char.isDigit =
      (((cursor.skip n).span Char.isDigit).1,
        ((cursor.skip n).span Char.isDigit).2.shift move tail) := by
  rw [skip_shift hmove h]
  exact span_shift hmove (htail.endsRun (by decide)) _

theorem fraction_shift (cursor : Cursor) : fraction (cursor.shift move tail) =
    ((fraction cursor).1, (fraction cursor).2.shift move tail) := by
  have hnone {text : List Char} (h : text.head? ≠ some '.') (p : Position) :
      fraction ⟨p, text⟩ = (none, ⟨p, text⟩) := by
    rw [fraction.eq_def]
    split
    · next heq =>
      cases heq
      simp at h
    · rfl
  obtain ⟨p, text⟩ := cursor
  cases text with
  | nil => exact hnone (fun h => absurd (htail _ h) (by decide)) (move p)
  | cons c rest =>
    by_cases hc : c = '.'
    · subst hc
      cases rest with
      | nil => obtain rfl | ⟨z, rfl⟩ := htail.cases <;> simp [fraction, Cursor.shift]
      | cons d more =>
        have hdigits := digits_shift hmove htail 1 ⟨p, '.' :: d :: more⟩ (by simp)
        simp only [Cursor.shift, List.cons_append] at hdigits ⊢
        simp only [fraction, hdigits]
        split <;> rfl
    · have hhead (more : List Char) : (c :: more).head? ≠ some '.' := by simpa using hc
      rw [hnone (hhead rest)]
      exact hnone (hhead _) (move p)

theorem exponent_shift (cursor : Cursor) : exponent (cursor.shift move tail) =
    ((exponent cursor).1, (exponent cursor).2.shift move tail) := by
  obtain ⟨p, text⟩ := cursor
  cases text with
  | nil => obtain rfl | ⟨_ | ⟨d, z⟩, rfl⟩ := htail.cases <;> simp [exponent, Cursor.shift]
  | cons e rest =>
    cases rest with
    | nil => obtain rfl | ⟨z, rfl⟩ := htail.cases <;> simp [exponent, Cursor.shift]
    | cons s more =>
      have hdigits := digits_shift hmove htail 1 ⟨p, e :: s :: more⟩ (by simp)
      have hsign : (more ++ tail).head?.any Char.isDigit = more.head?.any Char.isDigit := by
        cases more with
        | nil => obtain rfl | ⟨z, rfl⟩ := htail.cases <;> simp
        | cons d more => rfl
      have hdigits' := digits_shift hmove htail 2 ⟨p, e :: s :: more⟩ (by simp)
      simp only [Cursor.shift, List.cons_append] at hdigits hdigits' ⊢
      simp only [exponent, hdigits, hdigits', hsign]
      split_ifs <;> rfl

omit hmove htail in
theorem integer_shift (start : Position) (text : List Char) (next : Cursor) :
    integer (move start) text (next.shift move tail) =
      (integer start text next).shift move tail := by
  simp only [integer]
  split <;> rfl

omit hmove htail in
theorem float_shift (start : Position) (text : List Char) (next : Cursor) :
    float (move start) text (next.shift move tail) = (float start text next).shift move tail := by
  simp only [float]
  split
  · split <;> rfl
  · rfl

theorem number_shift (cursor : Cursor) :
    number (cursor.shift move tail) = (number cursor).shift move tail := by
  have hwhole : (cursor.shift move tail).span Char.isDigit = _ :=
    span_shift hmove (htail.endsRun (by decide)) cursor
  simp only [number, hwhole, fraction_shift hmove htail, exponent_shift hmove htail,
    Cursor.position_shift]
  split
  · exact integer_shift _ _ _
  · exact float_shift _ _ _

end Numbers

section Literals

variable (hmove : Steady move) (htail : EndsLine tail)

include hmove htail

theorem unicodeEscape_shift (cursor : Cursor) : unicodeEscape (cursor.shift move tail) =
    ((unicodeEscape cursor).1, (unicodeEscape cursor).2.shift move tail) := by
  have hnone {text : List Char} (h : text.head? ≠ some '\x7b') (p : Position) :
      unicodeEscape ⟨p, text⟩ = (none, ⟨p, text⟩) := by
    rw [unicodeEscape.eq_def]
    split
    · next heq =>
      cases heq
      simp at h
    · rfl
  obtain ⟨p, text⟩ := cursor
  cases text with
  | nil => exact hnone (fun h => absurd (htail _ h) (by decide)) (move p)
  | cons c rest =>
    by_cases hc : c = '\x7b'
    · subst hc
      have hdigits : ((skip 1 ⟨p, '\x7b' :: rest⟩).shift move tail).span Digits.isHexDigit = _ :=
        span_shift hmove (htail.endsRun (by decide)) _
      simp only [unicodeEscape, rest_shift_cons, skip_one_shift hmove, hdigits]
      generalize (skip 1 ⟨p, '\x7b' :: rest⟩).span Digits.isHexDigit = found
      obtain ⟨digits, q, behind⟩ := found
      cases behind with
      | nil => obtain rfl | ⟨z, rfl⟩ := htail.cases <;> simp [Cursor.shift]
      | cons d more =>
        by_cases hd : d = '\x7d'
        · subst hd
          simp only [skip_one_shift hmove]
          rfl
        · simp [Cursor.shift, hd]
    · have hhead (more : List Char) : (c :: more).head? ≠ some '\x7b' := by simpa using hc
      rw [hnone (hhead rest)]
      exact hnone (hhead _) (move p)

omit hmove htail

/-- What one turn of reading a literal does: it ends the literal, reads a character or reports. -/
inductive Turn
  | ends (body : Body)
  | reads (c : Char) (next : Cursor)
  | reports (error : Diagnostic) (next : Cursor)

namespace Turn

/-- The literal that a turn makes of what is read behind it. -/
def run (behind : Cursor → Body) : Turn → Body
  | ends body => body
  | reads c next => (behind next).prepend c
  | reports error next => (behind next).report error

def shift (move : Position → Position) (tail : List Char) : Turn → Turn
  | ends body => ends (body.shift move tail)
  | reads c next => reads c (next.shift move tail)
  | reports error next => reports (error.relocate move) (next.shift move tail)

def IsClean : Turn → Prop
  | ends body => body.errors = []
  | reads _ _ => True
  | reports _ _ => False

theorem isClean_of_run {turn : Turn} {behind : Cursor → Body} (h : (turn.run behind).errors = []) :
    turn.IsClean := by
  cases turn with
  | ends body => exact h
  | reads c next => trivial
  | reports error next => cases h

end Turn

/-- Without a report, a loop of turns reads the same with any more fuel and with any text behind. -/
theorem body_shift {loop loop' : Nat → Cursor → Body} {turn turn' : Cursor → Turn}
    (hzero : ∀ cursor, (loop 0 cursor).errors ≠ [] ∧
      loop' 0 (cursor.shift move []) = (loop 0 cursor).shift move [])
    (hloop : ∀ fuel cursor, loop (fuel + 1) cursor = (turn cursor).run (loop fuel))
    (hloop' : ∀ fuel cursor, loop' (fuel + 1) cursor = (turn' cursor).run (loop' fuel))
    (hturn : ∀ cursor, tail = [] ∨ (turn cursor).IsClean →
      turn' (cursor.shift move tail) = (turn cursor).shift move tail)
    {fuel fuel' : Nat} (cursor : Cursor)
    (h : tail = [] ∧ fuel' = fuel ∨ fuel ≤ fuel' ∧ (loop fuel cursor).errors = []) :
    loop' fuel' (cursor.shift move tail) = (loop fuel cursor).shift move tail := by
  induction fuel generalizing fuel' cursor with
  | zero =>
    obtain ⟨rfl, rfl⟩ | ⟨-, h⟩ := h
    · exact (hzero cursor).2
    · exact absurd h (hzero cursor).1
  | succ fuel ih =>
    obtain ⟨fuel', rfl⟩ : ∃ n, fuel' = n + 1 := ⟨fuel' - 1, by omega⟩
    rw [hloop] at h ⊢
    rw [hloop', hturn cursor (h.imp And.left fun h => Turn.isClean_of_run h.2)]
    cases hcase : turn cursor with
    | ends body => rfl
    | reads c next =>
      rw [hcase] at h
      have hbehind : loop' fuel' (next.shift move tail) = (loop fuel next).shift move tail :=
        ih next (h.imp (fun h => ⟨h.1, by omega⟩) fun h => ⟨by omega, h.2⟩)
      rw [Turn.shift, Turn.run, Turn.run, hbehind]
      rfl
    | reports error next =>
      rw [hcase] at h
      obtain ⟨htail, hfuel⟩ := h.resolve_right fun h => by cases h.2
      have hfuel : fuel' = fuel := by omega
      rw [Turn.shift, Turn.run, Turn.run, ih next (.inl ⟨htail, hfuel⟩)]
      rfl

/-- A turn at a backslash before a character. -/
def escapeTurn (cursor : Cursor) (c : Char) : Turn :=
  if c = 'u' then
    match unicodeEscape (cursor.skip 2) with
    | (some found, behind) => .reads found behind
    | (none, behind) => .reports (.syntactic cursor.position "invalid unicode escape") behind
  else match escaped? c with
    | some found => .reads found (cursor.skip 2)
    | none =>
      .reports (.syntactic cursor.position ("unknown escape '\\" ++ toString c ++ "'"))
        (cursor.skip 2)

/-- One turn of reading a string. -/
def stringTurn (start : Position) (cursor : Cursor) : Turn :=
  match cursor.rest with
  | [] => .ends (.unclosed start stringEndMissing cursor)
  | c :: rest =>
    if c = '"' then .ends (.closed (cursor.skip 1))
    else if c = '\\' then
      match rest with
      | [] => .ends (.unclosed start stringEndMissing (cursor.skip 1))
      | d :: _ => escapeTurn cursor d
    else .reads c (cursor.skip 1)

theorem run_escapeTurn (start : Position) (fuel : Nat) (p : Position) (c : Char)
    (rest : List Char) : stringBody start (fuel + 1) ⟨p, '\\' :: c :: rest⟩ =
      (escapeTurn ⟨p, '\\' :: c :: rest⟩ c).run (stringBody start fuel) := by
  rw [stringBody, escapeTurn]
  simp only
  split
  · generalize unicodeEscape _ = found
    obtain ⟨_ | char, behind⟩ := found <;> rfl
  · cases escaped? c <;> rfl

theorem stringBody_succ (start : Position) (fuel : Nat) (cursor : Cursor) :
    stringBody start (fuel + 1) cursor = (stringTurn start cursor).run (stringBody start fuel) := by
  obtain ⟨p, text⟩ := cursor
  cases text with
  | nil => rfl
  | cons c rest =>
    by_cases hquote : c = '"'
    · subst hquote
      rfl
    by_cases hslash : c = '\\'
    · subst hslash
      cases rest with
      | nil => rfl
      | cons d more => exact run_escapeTurn start fuel p d more
    · rw [stringBody_plain hquote hslash]
      simp only [stringTurn, if_neg hquote, if_neg hslash]
      rfl

/-- One turn of reading a quoted identifier. -/
def nameTurn (start : Position) (cursor : Cursor) : Turn :=
  match cursor.rest with
  | [] => .ends (.unclosed start nameEndMissing cursor)
  | c :: rest =>
    if c = '\n' then .ends (.unclosed start nameEndMissing (cursor.skip 1))
    else if c = Text.accent then
      if rest.head? = some Text.accent then .reads Text.accent (cursor.skip 2)
      else .ends (.closed (cursor.skip 1))
    else .reads c (cursor.skip 1)

theorem nameBody_succ (start : Position) (fuel : Nat) (cursor : Cursor) :
    nameBody start (fuel + 1) cursor = (nameTurn start cursor).run (nameBody start fuel) := by
  obtain ⟨p, text⟩ := cursor
  cases text with
  | nil => rfl
  | cons c rest =>
    simp only [nameBody, nameTurn]
    split_ifs <;> rfl

section Turns

variable (hmove : Steady move) (htail : EndsLine tail)

include hmove htail

theorem escapeTurn_shift (p : Position) (c : Char) (rest : List Char) :
    escapeTurn (Cursor.shift move tail ⟨p, '\\' :: c :: rest⟩) c =
      (escapeTurn ⟨p, '\\' :: c :: rest⟩ c).shift move tail := by
  have hskip : skip 2 (Cursor.shift move tail ⟨p, '\\' :: c :: rest⟩) =
      (skip 2 ⟨p, '\\' :: c :: rest⟩).shift move tail :=
    skip_shift hmove (by simp)
  simp only [escapeTurn, hskip, unicodeEscape_shift hmove htail]
  split
  · generalize unicodeEscape _ = found
    obtain ⟨_ | char, behind⟩ := found <;> rfl
  · cases escaped? c <;> rfl

theorem stringTurn_shift (start : Position) (cursor : Cursor)
    (h : tail = [] ∨ (stringTurn start cursor).IsClean) :
    stringTurn (move start) (cursor.shift move tail) =
      (stringTurn start cursor).shift move tail := by
  obtain ⟨p, text⟩ := cursor
  cases text with
  | nil =>
    obtain rfl | h := h
    · rfl
    · cases h
  | cons c rest =>
    by_cases hquote : c = '"'
    · simp only [stringTurn, rest_shift_cons, if_pos hquote, skip_one_shift hmove]
      rfl
    by_cases hslash : c = '\\'
    · subst hslash
      cases rest with
      | nil =>
        obtain rfl | h := h
        · simp only [stringTurn, rest_shift_cons, if_neg hquote, if_true, skip_one_shift hmove,
            List.append_nil]
          rfl
        · cases h
      | cons d more => exact escapeTurn_shift hmove htail p d more
    · simp only [stringTurn, rest_shift_cons, if_neg hquote, if_neg hslash, skip_one_shift hmove]
      rfl

theorem nameTurn_shift (start : Position) (cursor : Cursor)
    (h : tail = [] ∨ (nameTurn start cursor).IsClean) :
    nameTurn (move start) (cursor.shift move tail) = (nameTurn start cursor).shift move tail := by
  obtain ⟨p, text⟩ := cursor
  cases text with
  | nil =>
    obtain rfl | h := h
    · rfl
    · cases h
  | cons c rest =>
    have hhead : (rest ++ tail).head? = some Text.accent ↔ rest.head? = some Text.accent := by
      cases rest with
      | nil =>
        obtain rfl | ⟨z, rfl⟩ := htail.cases
        · rfl
        · simp [Text.accent]
      | cons d more => rfl
    simp only [nameTurn, rest_shift_cons, skip_one_shift hmove, hhead]
    split_ifs with hline haccent hdouble
    · rfl
    · obtain ⟨more, rfl⟩ := List.head?_eq_some_iff.mp hdouble
      have hskip : skip 2 (Cursor.shift move tail ⟨p, c :: Text.accent :: more⟩) =
          (skip 2 ⟨p, c :: Text.accent :: more⟩).shift move tail :=
        skip_shift hmove (by simp)
      rw [hskip]
      rfl
    · rfl
    · rfl

end Turns

theorem stringBody_shift (hmove : Steady move) (htail : EndsLine tail) (start : Position)
    {fuel fuel' : Nat} (cursor : Cursor)
    (h : tail = [] ∧ fuel' = fuel ∨ fuel ≤ fuel' ∧ (stringBody start fuel cursor).errors = []) :
    stringBody (move start) fuel' (cursor.shift move tail) =
      (stringBody start fuel cursor).shift move tail :=
  body_shift (fun _ => ⟨by simp [stringBody, Body.unclosed], rfl⟩) (stringBody_succ start)
    (stringBody_succ (move start)) (stringTurn_shift hmove htail start) cursor h

theorem nameBody_shift (hmove : Steady move) (htail : EndsLine tail) (start : Position)
    {fuel fuel' : Nat} (cursor : Cursor)
    (h : tail = [] ∧ fuel' = fuel ∨ fuel ≤ fuel' ∧ (nameBody start fuel cursor).errors = []) :
    nameBody (move start) fuel' (cursor.shift move tail) =
      (nameBody start fuel cursor).shift move tail :=
  body_shift (fun _ => ⟨by simp [nameBody, Body.unclosed], rfl⟩) (nameBody_succ start)
    (nameBody_succ (move start)) (nameTurn_shift hmove htail start) cursor h

end Literals

section Tokens

/-- A symbol looks no further than whether one of three characters follows its first. -/
theorem symbol?_congr {c : Char} {rest more : List Char} {found : Symbol × Nat}
    (hhead : ∀ d ∈ ['=', '&', '|'], rest.head? = some d ↔ more.head? = some d)
    (h : symbol? (c :: rest) = some found) : symbol? (c :: more) = some found := by
  rw [symbol?.eq_def] at h
  split at h <;> cases h <;> rename_i heq <;> cases heq <;> first | rfl | skip
  -- Two characters.
  case h_1 | h_2 | h_3 | h_4 | h_5 | h_6 =>
    obtain ⟨behind, rfl⟩ := List.head?_eq_some_iff.mp ((hhead _ (by simp)).mp rfl)
    rfl
  -- One character that two may start with.
  all_goals
    rename_i hlonger
    cases more with
    | nil => rfl
    | cons d behind =>
      have hd : d ≠ '=' := by
        rintro rfl
        obtain ⟨tail, rfl⟩ := List.head?_eq_some_iff.mp ((hhead '=' (by simp)).mpr rfl)
        exact hlonger tail rfl
      simp [symbol?, hd]

theorem symbol?_append (htail : EndsLine tail) (c : Char) (rest : List Char) :
    symbol? (c :: (rest ++ tail)) = symbol? (c :: rest) := by
  have hhead : ∀ d ∈ ['=', '&', '|'], (rest ++ tail).head? = some d ↔ rest.head? = some d := by
    intro d hd
    cases rest with
    | nil =>
      obtain rfl | ⟨z, rfl⟩ := htail.cases
      · rfl
      · simp only [List.mem_cons, List.not_mem_nil, or_false] at hd
        obtain rfl | rfl | rfl := hd <;> simp
    | cons e more => rfl
  cases h : symbol? (c :: rest) with
  | some found => exact symbol?_congr (fun d hd => (hhead d hd).symm) h
  | none =>
    cases h' : symbol? (c :: (rest ++ tail)) with
    | none => rfl
    | some found =>
      rw [symbol?_congr hhead h'] at h
      cases h

variable (hmove : Steady move) (htail : EndsLine tail)

include hmove htail

theorem token_shift (p : Position) (c : Char) (rest : List Char)
    (h : tail = [] ∨ (token c ⟨p, c :: rest⟩).errors = []) :
    token c (Cursor.shift move tail ⟨p, c :: rest⟩) =
      (token c ⟨p, c :: rest⟩).shift move tail := by
  -- More fuel is there if more text is.
  have hfuel {errors : List Diagnostic} (hcase : tail = [] ∨ errors = []) :
      tail = [] ∧ (c :: (rest ++ tail)).length = (c :: rest).length ∨
        (c :: rest).length ≤ (c :: (rest ++ tail)).length ∧ errors = [] := by
    refine hcase.imp (fun htail => ⟨htail, ?_⟩) fun herrors => ⟨?_, herrors⟩
    · rw [htail, List.append_nil]
    · simp
  rw [token] at h ⊢
  rw [token]
  split_ifs at h ⊢ with hname hdigit hquote haccent
  · have hspan : (Cursor.shift move tail ⟨p, c :: rest⟩).span Text.isNameChar = _ :=
      span_shift hmove (htail.endsRun (by decide)) _
    simp only [hspan]
    rfl
  · exact number_shift hmove htail _
  · rw [skip_one_shift hmove, rest_shift_cons, Cursor.position_shift,
      stringBody_shift hmove htail p _ (hfuel h)]
    rfl
  · rw [skip_one_shift hmove, rest_shift_cons, Cursor.position_shift,
      nameBody_shift hmove htail p _ (hfuel h)]
    rfl
  · rw [rest_shift_cons, symbol?_append htail]
    cases hsymbol : symbol? (c :: rest) with
    | none =>
      simp only [skip_one_shift hmove]
      rfl
    | some found =>
      obtain ⟨symbol, length⟩ := found
      have hlength : skip length (Cursor.shift move tail ⟨p, c :: rest⟩) = _ :=
        skip_shift hmove (symbol?_length hsymbol).2
      simp only [hlength]
      rfl

end Tokens

end Scan

namespace Cursor

variable (hmove : Steady move) (htail : EndsLine tail)

include hmove htail

/-- The end of a line comment is a blank like any other, if the comment has one. -/
theorem behindLine_shift (cursor : Cursor) : (cursor.shift move tail).behindLine.trivia =
    (cursor.behindLine.shift move tail).trivia := by
  have hspan : (cursor.shift move tail).span (· != '\n') = _ :=
    span_shift hmove (htail.endsRun (by decide)) cursor
  rw [behindLine, behindLine, hspan]
  generalize (cursor.span (· != '\n')).2 = behind
  obtain ⟨p, text⟩ := behind
  cases text with
  | nil =>
    obtain rfl | ⟨z, rfl⟩ := htail.cases
    · rfl
    · exact (trivia_blank (c := '\n') (move p) (by decide) z).symm
  | cons c rest => rw [skip_shift hmove (by simp)]

omit hmove in
theorem startsToken_append {text : List Char} (h : StartsToken text) :
    StartsToken (text ++ tail) := by
  obtain ⟨c, rest, rfl⟩ := startsToken_ne_nil h
  refine ⟨h.1, fun hc => ?_⟩
  cases rest with
  | nil => exact htail.endsRun (by decide)
  | cons d more => exact endsRun_cons.mpr (endsRun_cons.mp (h.2 hc))

/-- Skipping in the longer text goes on where skipping ends. -/
theorem trivia_shift (cursor : Cursor) (h : tail = [] ∨ cursor.trivia.1 = []) :
    (cursor.shift move tail).trivia =
      (cursor.trivia.1.map (Diagnostic.relocate move) ++
          (cursor.trivia.2.shift move tail).trivia.1,
        (cursor.trivia.2.shift move tail).trivia.2) := by
  have hbody (p : Position) : bodyStart (move p) = move (bodyStart p) := by
    rw [bodyStart, bodyStart, hmove, hmove]
  induction cursor using trivia_induction with
  | ends p => rfl
  | line p rest ih =>
    have hshift : (Cursor.shift move tail ⟨p, '/' :: '/' :: rest⟩).trivia = _ :=
      trivia_line (move p) (rest ++ tail)
    rw [trivia_line] at h ⊢
    rw [hshift, ← ih h]
    exact behindLine_shift hmove htail ⟨p, '/' :: '/' :: rest⟩
  | block p rest behind hclose ih =>
    have hshift : (Cursor.shift move tail ⟨p, '/' :: '*' :: rest⟩).trivia = _ :=
      trivia_block (move p) (rest ++ tail)
    rw [trivia_block, hclose] at h ⊢
    rw [hshift, hbody, closeComment_shift hmove tail hclose]
    exact ih h
  | unclosed p rest hclose =>
    have hshift : (Cursor.shift move tail ⟨p, '/' :: '*' :: rest⟩).trivia = _ :=
      trivia_block (move p) (rest ++ tail)
    rw [trivia_block, hclose] at h ⊢
    obtain rfl := h.resolve_right (by simp)
    rw [hshift, hbody, List.append_nil, closeComment_none hclose, ← hmove.advanceAll]
    rfl
  | blank p c rest hblank ih =>
    have hshift : (Cursor.shift move tail ⟨p, c :: rest⟩).trivia = _ :=
      trivia_blank (move p) hblank (rest ++ tail)
    rw [trivia_blank p hblank] at h ⊢
    rw [hshift, ← hmove]
    exact ih h
  | starts p text hstarts =>
    rw [trivia_of_startsToken p hstarts]
    rfl

omit hmove htail in
/-- What is skipped can be skipped before scanning. -/
theorem scan_of_trivia {cursor ahead : Cursor} {skipped : List Diagnostic}
    (h : cursor.trivia = (skipped ++ ahead.trivia.1, ahead.trivia.2)) :
    cursor.scan = (ahead.scan.1, skipped ++ ahead.scan.2) := by
  cases hahead : ahead.trivia with
  | mk more found =>
    obtain ⟨p, text⟩ := found
    rw [hahead] at h
    cases text with
    | nil => rw [scan_end h, scan_end hahead]
    | cons c rest =>
      rw [scan_token h, scan_token hahead]
      simp only [List.append_assoc]

/-- Scanning the longer text goes on where scanning ends. -/
theorem scan_shift (cursor : Cursor) {inner : List Token} {last : Token}
    (hinner : cursor.scan.1 = inner ++ [last]) (h : tail = [] ∨ cursor.scan.2 = []) :
    (cursor.shift move tail).scan =
      (inner.map (Token.relocate move) ++ (scan ⟨move cursor.lastPosition, tail⟩).1,
        cursor.scan.2.map (Diagnostic.relocate move) ++
          (scan ⟨move cursor.lastPosition, tail⟩).2) := by
  induction cursor using scan_induction generalizing inner last with
  | ends cursor skipped p htrivia =>
    have hlast := (goesTo_trivia cursor).lastPosition_eq
    rw [htrivia] at hlast
    rw [scan_end htrivia] at hinner h ⊢
    obtain ⟨rfl, -⟩ := List.append_eq_singleton_iff.mp hinner.symm |>.resolve_right (by simp)
    have hshift := trivia_shift hmove htail cursor (by rwa [htrivia])
    rw [htrivia] at hshift
    rw [← hlast]
    exact scan_of_trivia hshift
  | token cursor skipped p c rest htrivia ih =>
    obtain ⟨innerBehind, hbehind, -⟩ := (Scan.token c ⟨p, c :: rest⟩).next.scan_ends
    have hlast := (goesTo_trivia cursor).lastPosition_eq
    have hnext : GoesTo ⟨p, c :: rest⟩ (Scan.token c ⟨p, c :: rest⟩).next :=
      (goesTo_next p c rest).trans (Scan.goesTo_token p c rest)
    rw [htrivia, ← hnext.lastPosition_eq] at hlast
    rw [scan_token htrivia] at hinner h ⊢
    simp only [List.append_eq_nil_iff] at h
    rw [hbehind, ← List.append_assoc] at hinner
    obtain ⟨rfl, -⟩ := List.append_inj' hinner rfl
    have hstarts : StartsToken (c :: rest) := by
      have hstops := cursor.trivia_stops
      rw [htrivia] at hstops
      exact hstops.resolve_left (by simp)
    -- The first token of the longer text is the same, and the rest is scanned behind it.
    have hskip := trivia_shift hmove htail cursor (by
      rw [htrivia]
      exact h.imp_right fun h => h.1.1)
    have hmore : (Cursor.shift move tail ⟨p, c :: rest⟩).trivia =
        ([], ⟨move p, c :: (rest ++ tail)⟩) :=
      trivia_of_startsToken (move p) (startsToken_append htail hstarts)
    have htoken : Scan.token c ⟨move p, c :: (rest ++ tail)⟩ =
        (Scan.token c ⟨p, c :: rest⟩).shift move tail :=
      Scan.token_shift hmove htail p c rest (h.imp_right fun h => h.1.2)
    have hlexeme : ((Scan.token c ⟨p, c :: rest⟩).lexeme.map (⟨·, move p⟩)).toList =
        ((Scan.token c ⟨p, c :: rest⟩).lexeme.map (⟨·, p⟩)).toList.map (Token.relocate move) := by
      cases (Scan.token c ⟨p, c :: rest⟩).lexeme <;> rfl
    rw [htrivia] at hskip
    rw [scan_of_trivia hskip, scan_token hmore, htoken, Scan.shift]
    simp only [ih hbehind (h.imp_right And.right), hlexeme, hlast, List.map_append,
      List.append_assoc, List.nil_append]

omit htail in
/-- The same text at another place. -/
theorem scan_relocate (cursor : Cursor) : scan ⟨move cursor.position, cursor.rest⟩ =
    (cursor.scan.1.map (Token.relocate move), cursor.scan.2.map (Diagnostic.relocate move)) := by
  obtain ⟨inner, hinner, -⟩ := cursor.scan_ends
  have hshift : ⟨move cursor.position, cursor.rest⟩ = cursor.shift move [] := by
    rw [shift, List.append_nil]
  have hends : EndsLine [] := by simp [EndsLine]
  rw [hshift, scan_shift hmove hends cursor hinner (.inl rfl), scan_end (trivia_nil _), hinner,
    List.map_append, List.append_nil]
  rfl

end Cursor

end LogRules
