import LogRules.Proofs.Spelling
import LogRules.Source

/-!
What scanning can find, whether or not it also reports errors: names are plain or stand on one
line, numbers carry no minus sign and are finite.
-/
namespace LogRules

/-- Lexemes that scanning can find. -/
def Lexeme.Found : Lexeme → Prop
  | name text => Text.isPlainName text.toList
  | quotedName text => '\n' ∉ text.toList
  | integer n => 0 ≤ n.toInt
  | float x => x.isFinite
  | string _ | symbol _ | eof => True

namespace Scan

/-- Whatever this step of scanning has found is a lexeme that can be found. -/
def Sound (found : Scan) : Prop := ∀ l ∈ found.lexeme, l.Found

theorem sound_none (errors : List Diagnostic) (next : Cursor) : Sound ⟨none, errors, next⟩ := by
  intro l hl
  simp at hl

theorem sound_some {l : Lexeme} (hl : l.Found) (errors : List Diagnostic) (next : Cursor) :
    Sound ⟨some l, errors, next⟩ := by
  intro l' hl'
  cases hl'
  exact hl

theorem sound_integer (start : Position) {text : List Char} (htext : ∀ c ∈ text, c.isDigit)
    (next : Cursor) : Sound (integer start text next) := by
  have hzero : (Lexeme.integer 0).Found := by rw [Lexeme.Found]; decide
  rw [integer]
  split
  · next n hread =>
    apply sound_some
    rw [Long.read?, splitSign_digits htext] at hread
    simp only [Long.ofInt?, Bool.false_eq_true, if_false] at hread
    split at hread
    · cases hread
    · split at hread
      · next hrange =>
        have hhigh := hrange.2
        rw [Long.greatest] at hhigh
        rw [← Option.some.inj hread, Lexeme.Found, Int64.toInt_ofInt_of_le hrange.1 (by omega)]
        exact Int.natCast_nonneg _
      · cases hread
  · exact sound_some hzero _ _

theorem sound_float (start : Position) (text : List Char) (next : Cursor) :
    Sound (float start text next) := by
  have hzero : (Lexeme.float .zero).Found := by rw [Lexeme.Found]; decide
  rw [float]
  split
  · next x _ =>
    by_cases hx : x.isFinite
    · rw [if_pos hx]
      exact sound_some (l := .float x) hx _ _
    · rw [if_neg hx]
      exact sound_some hzero _ _
  · exact sound_none _ _

theorem sound_number (cursor : Cursor) : Sound (number cursor) := by
  have hwhole : ∀ c ∈ cursor.rest.takeWhile Char.isDigit, c.isDigit :=
    fun c hc => List.mem_takeWhile_imp hc
  simp only [number]
  split
  · exact sound_integer _ hwhole _
  · exact sound_float _ _ _

theorem nameBody_onOneLine (start : Position) (fuel : Nat) (cursor : Cursor) :
    ∀ text ∈ (nameBody start fuel cursor).text, '\n' ∉ text := by
  have hprepend {c : Char} (hc : c ≠ '\n') {body : Body}
      (hbody : ∀ text ∈ body.text, '\n' ∉ text) : ∀ text ∈ (body.prepend c).text, '\n' ∉ text := by
    intro text htext
    obtain ⟨tail, htail, rfl⟩ := Option.mem_map.mp htext
    simp only [List.mem_cons, not_or]
    exact ⟨hc.symm, hbody tail htail⟩
  induction fuel generalizing cursor with
  | zero => simp [nameBody, Body.unclosed]
  | succ fuel ih =>
    rw [nameBody]
    split
    · simp [Body.unclosed]
    · next c rest =>
      split
      · simp [Body.unclosed]
      · next hc =>
        split
        · split
          · exact hprepend (by decide) (ih _)
          · simp [Body.closed]
        · exact hprepend hc (ih _)

theorem sound_token (c : Char) (rest : List Char) (p : Position) :
    Sound (token c ⟨p, c :: rest⟩) := by
  rw [token]
  split
  · next hstart =>
    have hchar := isNameChar_of_isNameStart hstart
    have hrest : ∀ d ∈ rest.takeWhile Text.isNameChar, Text.isNameChar d :=
      fun d hd => List.mem_takeWhile_imp hd
    apply sound_some
    rw [Lexeme.Found, String.toList_ofList, List.takeWhile_cons_of_pos hchar, Text.isPlainName,
      Bool.and_eq_true, List.all_eq_true]
    exact ⟨hstart, hrest⟩
  split
  · exact sound_number _
  split
  · intro l hl
    obtain ⟨text, -, rfl⟩ := Option.mem_map.mp hl
    trivial
  split
  · intro l hl
    obtain ⟨text, htext, rfl⟩ := Option.mem_map.mp hl
    rw [Lexeme.Found, String.toList_ofList]
    exact nameBody_onOneLine _ _ _ text htext
  · split
    · exact sound_some (l := .symbol _) trivial _ _
    · exact sound_none _ _

end Scan

/-- Every token of a list is one that scanning can find. -/
def AllFound (tokens : List Token) : Prop := ∀ t ∈ tokens, t.lexeme.Found

theorem allFound_cons {t : Token} {tokens : List Token} :
    AllFound (t :: tokens) ↔ t.lexeme.Found ∧ AllFound tokens := by
  simp [AllFound]

theorem Cursor.allFound_tokens (fuel : Nat) (cursor : Cursor) :
    AllFound (Cursor.tokens fuel cursor).1 := by
  have hend (p : Position) : AllFound [⟨.eof, p⟩] := by
    intro t ht
    rw [List.mem_singleton.mp ht]
    trivial
  induction fuel generalizing cursor with
  | zero => exact hend _
  | succ fuel ih =>
    rw [tokens]
    generalize cursor.skipTrivia (cursor.rest.length + 1) = skipped
    obtain ⟨errors, p, rest⟩ := skipped
    cases rest with
    | nil => exact hend _
    | cons c rest =>
      have hsound := Scan.sound_token c rest p
      simp only
      split
      · next l hl => exact allFound_cons.mpr ⟨hsound l hl, ih _⟩
      · exact ih _

theorem allFound_tokenize (source : String) : AllFound (tokenize source).1 :=
  Cursor.allFound_tokens _ _

end LogRules
