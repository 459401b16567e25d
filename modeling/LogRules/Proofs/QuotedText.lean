import LogRules.Proofs.MovedScanning
import LogRules.Proofs.Places
import LogRules.Proofs.Quoting

/-!
Quoted text as it is scanned. The canonical text of a string, a key or a name is one token that
holds it, alone and before a space.
-/
namespace LogRules

namespace Position

/-- The place that is so many lines below `q`, or so many columns behind it on the same line. -/
def beyond (q distance : Position) : Position :=
  if distance.line = 0 then ⟨q.line, q.column + distance.column⟩
  else ⟨q.line + distance.line, distance.column⟩

/-- The same place with more characters before it on the first line. -/
def along (n : Nat) (p : Position) : Position := if p.line = 1 then ⟨1, p.column + n⟩ else p

theorem steady_beyond (q : Position) : Steady (beyond q) := by
  intro p c
  by_cases hline : p.line = 0 <;> by_cases hc : c = '\n' <;>
    simp [beyond, advance, hline, hc, Nat.add_assoc]

theorem along_beyond (n : Nat) (p : Position) : (start.beyond p).along n = beyond ⟨1, 1 + n⟩ p := by
  by_cases hline : p.line = 0
  · simp only [along, beyond, start, hline, if_true]
    exact congrArg (Position.mk 1) (by omega)
  · have hbelow : 1 + p.line ≠ 1 := by omega
    simp only [along, beyond, start, if_neg hline, if_neg hbelow]

theorem behind_of_notMem {text : List Char} (h : '\n' ∉ text) :
    behind text = ⟨1, 1 + text.length⟩ := by
  have hrun : text.reverse.takeWhile (· != '\n') = text.reverse :=
    List.takeWhile_eq_self_iff.mpr fun c hc => bne_iff_ne.mpr fun heq =>
      h (List.mem_reverse.mp (heq ▸ hc))
  rw [behind, List.count_eq_zero.mpr h, hrun, List.length_reverse]

end Position

/-- A source with more characters before it on its first line. -/
theorem scan_along (n : Nat) (source : String) : Cursor.scan ⟨⟨1, 1 + n⟩, source.toList⟩ =
    ((tokenize source).1.map (Token.relocate (.along n)),
      (tokenize source).2.map (Diagnostic.relocate (.along n))) := by
  -- Both are the text scanned from the distance zero on, seen from where it starts.
  have hfrom (q : Position) : Cursor.scan ⟨q, source.toList⟩ = _ :=
    Cursor.scan_relocate (Position.steady_beyond q) ⟨.nowhere, source.toList⟩
  have htoken : Token.relocate (.along n) ∘ Token.relocate (.beyond .start) =
      Token.relocate (.beyond ⟨1, 1 + n⟩) :=
    funext fun t => congrArg (Token.mk t.lexeme) (Position.along_beyond n t.position)
  have herror : Diagnostic.relocate (.along n) ∘ Diagnostic.relocate (.beyond .start) =
      Diagnostic.relocate (.beyond ⟨1, 1 + n⟩) :=
    funext fun d => congrArg (Diagnostic.mk · d.problem) (Position.along_beyond n d.position)
  rw [hfrom ⟨1, 1 + n⟩, Cursor.tokenize_eq, Cursor.start, hfrom .start, List.map_map, List.map_map,
    htoken, herror]

/-- A text that is scanned as one token, without errors: alone, and before everything that starts
with a space, whose own tokens and errors follow. -/
structure ReadsAs (written : String) (l : Lexeme) : Prop where
  alone : tokenize written = ([⟨l, .start⟩, ⟨.eof, ⟨1, 1 + written.length⟩⟩], [])
  before : ∀ rest, tokenize (written ++ " " ++ rest) =
    (⟨l, .start⟩ :: (tokenize (" " ++ rest)).1.map (Token.relocate (.along written.length)),
      (tokenize (" " ++ rest)).2.map (Diagnostic.relocate (.along written.length)))

theorem readsAs_spelling {l : Lexeme} {written : String} (hwritten : written.toList = l.spelling)
    (hl : l.Spellable) (hends : ∀ rest, l.EndsBefore (' ' :: rest))
    (hread : ∀ x, l = .float x → Double.read? l.spelling = some x) : ReadsAs written l := by
  have hline : '\n' ∉ l.spelling :=
    Quoting.newline_not_mem (Quoting.run_spelling hl (Nat.zero_le 1))
  have hbehind : Position.start.advanceAll l.spelling = ⟨1, 1 + written.length⟩ := by
    rw [Position.advanceAll_start, Position.behind_of_notMem hline, ← hwritten,
      String.length_toList]
  refine ⟨?_, fun rest => ?_⟩
  · have hscan := Cursor.scan_spelling hl l.endsBefore_nil hread .start
    rw [List.append_nil, hbehind, Cursor.scan_end (Cursor.trivia_nil _)] at hscan
    rw [Cursor.tokenize_eq, Cursor.start, hwritten, hscan]
  · have hscan := Cursor.scan_spelling hl (hends rest.toList) hread .start
    have htext : (written ++ " " ++ rest).toList = l.spelling ++ ' ' :: rest.toList := by
      simp [← hwritten]
    have hmore : (" " ++ rest).toList = ' ' :: rest.toList := by simp
    rw [Cursor.tokenize_eq, Cursor.start, htext, hscan, hbehind, ← hmore, scan_along]

section Quoted

variable {text : String}

theorem readsAs_name (h : Text.isPlainName text.toList) : ReadsAs text (.name text) :=
  readsAs_spelling rfl h (fun _ => endsRun_cons.mpr (by decide)) (by simp)

theorem readsAs_quoteString (text : String) : ReadsAs (Text.quoteString text) (.string text) := by
  have hwritten : (Text.quoteString text).toList = (Lexeme.string text).spelling := by
    rw [Text.quoteString, String.toList_ofList, Lexeme.spelling]
  exact readsAs_spelling hwritten trivial (fun _ => trivial) (by simp)

theorem readsAs_accentChars (h : '\n' ∉ text.toList) :
    ReadsAs (String.ofList (Text.accentChars text.toList)) (.quotedName text) := by
  have hwritten : (String.ofList (Text.accentChars text.toList)).toList =
      (Lexeme.quotedName text).spelling := by
    rw [String.toList_ofList, Lexeme.spelling]
  exact readsAs_spelling hwritten h (fun _ => endsRun_cons.mpr (by decide)) (by simp)

end Quoted

/-- Scanning undoes quoting. Every text comes back from its string and from its key, and every text
on one line from its identifier, as exactly one token. -/
theorem quoting_undone (text : String) :
    ReadsAs (Text.quoteString text) (.string text) ∧
    ReadsAs (Text.quoteKey text)
      (if Text.isPlainName text.toList then .name text else .string text) ∧
    ('\n' ∉ text.toList → ReadsAs (Text.quoteIdentifier text)
      (if Text.isPlainName text.toList then .name text else .quotedName text)) := by
  refine ⟨readsAs_quoteString text, ?_, fun hline => ?_⟩
  · rw [Text.quoteKey]
    split
    · next hplain => exact readsAs_name hplain
    · exact readsAs_quoteString text
  · rw [Text.quoteIdentifier]
    split
    · next hplain => exact readsAs_name hplain
    · exact readsAs_accentChars hline

/-- A text with accents at both ends, a quote, a backslash and a control character. -/
def mixedText : String := "\x60a\"\\\x07\x60"

theorem quoting_undone_mixedText :
    Text.quoteString mixedText = "\"\x60a\\\"\\\\\\u\x7b7\x7d\x60\"" ∧
    ReadsAs (Text.quoteString mixedText) (.string mixedText) ∧
    Text.quoteIdentifier mixedText = "\x60\x60\x60a\"\\\x07\x60\x60\x60" ∧
    ReadsAs (Text.quoteIdentifier mixedText) (.quotedName mixedText) := by
  obtain ⟨hstring, -, hidentifier⟩ := quoting_undone mixedText
  exact ⟨by decide +kernel, hstring, by decide +kernel, hidentifier (by decide +kernel)⟩

end LogRules
