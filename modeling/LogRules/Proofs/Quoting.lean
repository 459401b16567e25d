import LogRules.Proofs.Pieces
import Mathlib.Tactic.IntervalCases

/-!
An automaton for the quotes in canonical texts. Outside of quotes a canonical text has no newline
and no equals sign between spaces, so the value of a binding can be told from its name.
-/
namespace LogRules

/-- Two cuts of a text are one, unless something stands between them. -/
theorem eq_of_append_eq {first first' second second' : List Char}
    (h : ∀ between, first' = first ++ between → second = between ++ second' → between = [])
    (h' : ∀ between, first = first' ++ between → second' = between ++ second → between = [])
    (heq : first ++ second = first' ++ second') : first = first' ∧ second = second' := by
  obtain ⟨between, hfirst, hsecond⟩ | ⟨between, hfirst, hsecond⟩ :=
    List.append_eq_append_iff.mp heq
  · obtain rfl := h between hfirst hsecond
    exact ⟨by simpa using hfirst.symm, hsecond⟩
  · obtain rfl := h' between hfirst hsecond
    exact ⟨by simpa using hfirst, hsecond.symm⟩

/-- Where a reader stands. Outside of quotes it knows how much of an equals sign between spaces it
has just read. -/
inductive Quoting
  | bare (seen : Nat)
  | string
  /-- Behind a backslash in a string. -/
  | escaped
  | name

namespace Quoting

/-- One character further. An equals sign between spaces must stand in quotes, and a newline may
stand nowhere. -/
def next (mode : Quoting) (c : Char) : Option Quoting :=
  if c = '\n' then none
  else match mode with
    | bare seen =>
      if c = '"' then some string
      else if c = Text.accent then some name
      else if c = '\\' then none
      else if c = ' ' then if seen = 2 then none else some (bare 1)
      else if c = '=' ∧ seen = 1 then some (bare 2)
      else some (bare 0)
    | string =>
      if c = '"' then some (bare 0) else if c = '\\' then some escaped else some string
    | escaped => some string
    | name => if c = Text.accent then some (bare 0) else some name

def run : Quoting → List Char → Option Quoting
  | mode, [] => some mode
  | mode, c :: rest => (mode.next c).bind (run · rest)

@[simp] theorem run_nil (mode : Quoting) : run mode [] = some mode := rfl

theorem run_cons {mode mode' : Quoting} {c : Char} (h : mode.next c = some mode')
    (rest : List Char) : run mode (c :: rest) = run mode' rest := by
  rw [run, h]
  rfl

theorem run_append (mode : Quoting) (text rest : List Char) :
    run mode (text ++ rest) = (run mode text).bind (run · rest) := by
  induction text generalizing mode with
  | nil => rfl
  | cons c text ih =>
    rw [List.cons_append, run, run]
    cases mode.next c with
    | none => rfl
    | some mode' => exact ih mode'

theorem run_append_of {mode mode' : Quoting} {text : List Char} (h : run mode text = some mode')
    (rest : List Char) : run mode (text ++ rest) = run mode' rest := by
  rw [run_append, h]
  rfl

theorem newline_not_mem {mode mode' : Quoting} {text : List Char} (h : run mode text = some mode') :
    '\n' ∉ text := by
  induction text generalizing mode with
  | nil => exact List.not_mem_nil
  | cons c text ih =>
    rw [run, Option.bind_eq_some_iff] at h
    obtain ⟨mode', hnext, hrest⟩ := h
    intro hmem
    cases hmem with
    | head => simp [next] at hnext
    | tail _ hmem => exact ih hrest hmem

/-- Two readers of which one is inside of the quotes that the other is outside of. -/
def Apart : Quoting → Quoting → Prop
  | bare _, string | bare _, name | string, bare _ | name, bare _ => True
  | string, name | name, string | escaped, name | name, escaped => True
  | _, _ => False

/-- Such readers never meet while they read the same text. -/
theorem Apart.next {mode mode' a b : Quoting} {c : Char} (h : Apart mode mode')
    (ha : mode.next c = some a) (hb : mode'.next c = some b) : Apart a b := by
  have hquote : '"' ≠ Text.accent := by decide
  have hslash : '\\' ≠ Text.accent := by decide
  cases mode <;> cases mode' <;> first | exact absurd h id | skip
  all_goals
    simp only [Quoting.next] at ha hb
    split_ifs at ha hb <;> cases ha <;> cases hb <;> first | exact trivial | simp_all

theorem Apart.run {mode mode' a b : Quoting} {text : List Char} (h : Apart mode mode')
    (ha : mode.run text = some a) (hb : mode'.run text = some b) : Apart a b := by
  induction text generalizing mode mode' with
  | nil =>
    cases ha
    cases hb
    exact h
  | cons c text ih =>
    rw [Quoting.run, Option.bind_eq_some_iff] at ha hb
    obtain ⟨m, hm, ha⟩ := ha
    obtain ⟨m', hm', hb⟩ := hb
    exact ih (h.next hm hm') ha hb

/-- Characters that say nothing outside of quotes. -/
def Plain (c : Char) : Prop :=
  c ≠ '\n' ∧ c ≠ '"' ∧ c ≠ Text.accent ∧ c ≠ '\\' ∧ c ≠ ' ' ∧ c ≠ '='
deriving Decidable

theorem next_plain {c : Char} (h : Plain c) (seen : Nat) : (bare seen).next c = some (bare 0) := by
  obtain ⟨hline, hquote, haccent, hslash, hspace, hequals⟩ := h
  simp [next, *]

theorem run_plain {text : List Char} (hne : text ≠ []) (h : ∀ c ∈ text, Plain c) (seen : Nat) :
    (bare seen).run text = some (bare 0) := by
  induction text generalizing seen with
  | nil => exact absurd rfl hne
  | cons c text ih =>
    rw [run_cons (next_plain (h c (by simp)) seen)]
    cases text with
    | nil => rfl
    | cons d text => exact ih (by simp) (fun e he => h e (by simp [he])) 0

theorem plain_of_isNameChar {c : Char} (h : Text.isNameChar c) : Plain c := by
  refine ⟨?_, ?_, ?_, ?_, ?_, ?_⟩ <;>
  · rintro rfl
    exact absurd h (by decide)

theorem plain_of_isHexDigit {c : Char} (h : Digits.isHexDigit c) : Plain c := by
  refine ⟨?_, ?_, ?_, ?_, ?_, ?_⟩ <;>
  · rintro rfl
    exact absurd h (by decide)

theorem plain_of_isDigit {c : Char} (h : c.isDigit) : Plain c :=
  plain_of_isNameChar (isNameChar_of_isDigit h)

theorem next_string {c : Char} (hline : c ≠ '\n') (hquote : c ≠ '"') (hslash : c ≠ '\\') :
    string.next c = some string := by
  simp [next, hline, hquote, hslash]

theorem run_escape (c : Char) : string.run (Text.escape c) = some string := by
  have hdigits (text : List Char) (htext : ∀ d ∈ text, Plain d) :
      string.run text = some string := by
    induction text with
    | nil => rfl
    | cons d text ih =>
      obtain ⟨hline, hquote, -, hslash, -, -⟩ := htext d (by simp)
      rw [run_cons (next_string hline hquote hslash)]
      exact ih fun e he => htext e (by simp [he])
  rw [Text.escape]
  split
  · rfl
  split
  · rfl
  split
  · rfl
  split
  · rfl
  split
  · rfl
  split
  · next hcontrol =>
    have hlt : c.toNat < 160 := by
      simp only [Text.isControl, Bool.or_eq_true, Bool.and_eq_true, decide_eq_true_eq] at hcontrol
      omega
    have hhex := List.all_eq_true.mp (Scan.codePoint?_hexDigits c.toNat hlt).2
    have hopen : string.run ['\\', 'u', '\x7b'] = some string := rfl
    rw [List.append_assoc, run_append_of hopen,
      run_append_of (hdigits _ fun d hd => plain_of_isHexDigit (hhex d hd))]
    rfl
  · next hquote hslash hline _ _ _ => exact run_cons (next_string hline hquote hslash) []

theorem run_string (text : List Char) (seen : Nat) :
    (bare seen).run (Text.quoteChars text) = some (bare 0) := by
  have hbody : string.run (text.flatMap Text.escape) = some string := by
    induction text with
    | nil => rfl
    | cons c text ih => rw [List.flatMap_cons, run_append_of (run_escape c), ih]
  have hopen : (bare seen).next '"' = some string := rfl
  rw [Text.quoteChars, List.cons_append, run_cons hopen, run_append_of hbody]
  rfl

theorem run_name {text : List Char} (h : '\n' ∉ text) (seen : Nat) :
    (bare seen).run (Text.accentChars text) = some (bare 0) := by
  have hbody : name.run (text.flatMap fun c => if c = Text.accent then [Text.accent, Text.accent]
      else [c]) = some name := by
    induction text with
    | nil => rfl
    | cons c text ih =>
      have hline : c ≠ '\n' := fun hc => h (by simp [hc])
      have hrest := ih fun hmem => h (by simp [hmem])
      have hfirst : name.run (if c = Text.accent then [Text.accent, Text.accent] else [c]) =
          some name := by
        split
        · rfl
        · next haccent =>
          have hnext : name.next c = some name := by simp [next, hline, haccent]
          exact run_cons hnext []
      rw [List.flatMap_cons, run_append_of hfirst, hrest]
  have hopen : (bare seen).next Text.accent = some name := rfl
  rw [Text.accentChars, List.cons_append, run_cons hopen, run_append_of hbody]
  rfl

theorem plain_numeral (n : Numeral) : ∀ c ∈ n.text, Plain c := by
  have hpoint : Plain '.' := by decide
  have he : Plain 'e' := by decide
  have hminus : Plain '-' := by decide
  intro c hc
  rw [Numeral.text, List.mem_append, List.mem_append] at hc
  obtain hc | hc | hc := hc
  · exact plain_of_isDigit (n.isDigit_whole c hc)
  · rw [Numeral.fractionText] at hc
    split at hc
    · cases hc
    · cases hc with
      | head => exact hpoint
      | tail _ hc => exact plain_of_isDigit (n.isDigit_fraction c hc)
  · rw [Numeral.exponentText] at hc
    split at hc
    · cases hc
    · next negative digits hexponent =>
      have hdigits := (n.isDigit_exponent (negative, digits) hexponent).2
      cases negative with
      | false =>
        cases hc with
        | head => exact he
        | tail _ hc => exact plain_of_isDigit (hdigits c hc)
      | true =>
        cases hc with
        | head => exact he
        | tail _ hc =>
          cases hc with
          | head => exact hminus
          | tail _ hc => exact plain_of_isDigit (hdigits c hc)

/-- The spelling of a lexeme is read from outside of quotes to outside of quotes. -/
theorem run_spelling {l : Lexeme} (h : l.Spellable) {seen : Nat} (hseen : seen ≤ 1) :
    (bare seen).run l.spelling = some (bare 0) := by
  have hne := Lexeme.spelling_ne_nil h
  cases l with
  | name text =>
    obtain ⟨c, rest, -, -, hchars⟩ := exists_cons_of_plain h
    exact run_plain hne (fun d hd => plain_of_isNameChar (hchars d hd)) seen
  | quotedName text => exact run_name h seen
  | string text => exact run_string text.toList seen
  | integer n => exact run_plain hne (fun c hc => plain_of_isDigit (isDigit_toDigits hc)) seen
  | float x =>
    obtain ⟨n, htext, -, -⟩ := NumberLayout.exists_numeral (Decimal.shortest .up x)
    exact run_plain hne (fun c hc => plain_numeral n c (htext ▸ hc)) seen
  | symbol s =>
    interval_cases seen <;> cases s <;> first | rfl | exact absurd h id
  | eof => exact absurd h id

/-- A text that is read from outside of quotes to outside of quotes, also behind a space. -/
def Closed (text : List Char) : Prop :=
  ∀ seen ≤ 1, ∃ seen', (bare seen).run text = some (bare seen')

theorem closed_text {rest : List Char} {ps : List Piece} (h : Piece.Readable rest ps) :
    Closed (Piece.text ps) := by
  induction ps with
  | nil => exact fun seen _ => ⟨seen, rfl⟩
  | cons piece ps ih =>
    intro seen hseen
    cases piece with
    | gap =>
      have hgap : (bare seen).next ' ' = some (bare 1) := by interval_cases seen <;> rfl
      rw [Piece.text_gap, run_cons hgap]
      exact ih h.2 1 (Nat.le_refl 1)
    | token l =>
      rw [Piece.text_token, run_append_of (run_spelling h.1 hseen)]
      exact ih h.2.2 0 (Nat.zero_le 1)

theorem Closed.newline_not_mem {text : List Char} (h : Closed text) : '\n' ∉ text := by
  obtain ⟨seen, hrun⟩ := h 0 (Nat.zero_le 1)
  exact Quoting.newline_not_mem hrun

/-- Outside of quotes no equals sign stands between spaces. -/
theorem run_equals (seen : Nat) (rest : List Char) :
    (bare seen).run (' ' :: '=' :: ' ' :: rest) = none := by
  have hspace : (bare seen).next ' ' = if seen = 2 then none else some (bare 1) := rfl
  have hequals : (bare 1).next '=' = some (bare 2) := rfl
  rw [run, hspace]
  split
  · rfl
  · rw [Option.bind_some, run_cons hequals]
    rfl

/-- What stands behind an equals sign between spaces in a closed text is not closed. -/
theorem Closed.ne_append_equals {value value' : List Char} (h : Closed value) (h' : Closed value')
    (before : List Char) : ' ' :: value ≠ before ++ ' ' :: '=' :: ' ' :: value' := by
  intro heq
  obtain ⟨seen, hvalue⟩ := h 1 (Nat.le_refl 1)
  obtain ⟨seen', hvalue'⟩ := h' 0 (Nat.zero_le 1)
  have hspaced : (bare 0).run (' ' :: value) = some (bare seen) := hvalue
  rw [heq, run_append, Option.bind_eq_some_iff] at hspaced
  obtain ⟨mode, -, hrest⟩ := hspaced
  -- one reader is inside of the quotes that the other is outside of, and both end outside
  have hquoted (quoted : Quoting) (hapart : Apart (bare 0) quoted)
      (hread : quoted.run value' = some (bare seen)) : False :=
    hapart.run hvalue' hread
  cases mode with
  | bare seen => simp only [run_equals, reduceCtorEq] at hrest
  | string => exact hquoted string trivial hrest
  | escaped => exact hquoted string trivial hrest
  | name => exact hquoted name trivial hrest

/-- A binding has one name and one value. -/
theorem Closed.eq_of_binding {name name' value value' : List Char} (h : Closed value)
    (h' : Closed value')
    (heq : name ++ ' ' :: '=' :: ' ' :: value = name' ++ ' ' :: '=' :: ' ' :: value') :
    name = name' ∧ value = value' := by
  have hnone {value value' between : List Char} (h : Closed value) (h' : Closed value')
      (heq : ' ' :: '=' :: ' ' :: value = between ++ ' ' :: '=' :: ' ' :: value') :
      between = [] := by
    cases between with
    | nil => rfl
    | cons c between =>
      cases between with
      | nil => simp at heq
      | cons d between => exact absurd (by simp_all) (h.ne_append_equals h' between)
  obtain ⟨hname, hvalue⟩ :=
    eq_of_append_eq (fun _ _ => hnone h h') (fun _ _ => hnone h' h) heq
  exact ⟨hname, by simpa using hvalue⟩

end Quoting

end LogRules
