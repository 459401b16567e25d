import LogRules.Proofs.DeclaredPlaces
import LogRules.Proofs.LexicalErrors
import LogRules.Proofs.OrderedDiagnostics

/-!
What places mean. The place of a token is told by the text before its first character, and every
problem of a source is reported at the place of one of its characters or of its end.
-/
namespace LogRules

namespace Position

/-- The place behind a text: one more than its line feeds, and one more than the characters behind
the last of them. -/
def behind (text : List Char) : Position :=
  ⟨1 + text.count '\n', 1 + (text.reverse.takeWhile (· != '\n')).length⟩

/-- The place of a character of a text, or of its end. -/
def Within (text : List Char) (p : Position) : Prop := ∃ before, before <+: text ∧ p = behind before

theorem behind_concat (text : List Char) (c : Char) :
    behind (text ++ [c]) = (behind text).advance c := by
  rw [behind, behind, List.reverse_concat, List.count_append, List.count_singleton, advance]
  by_cases h : c = '\n'
  · simp [h, Nat.add_assoc]
  · simp [h, Nat.add_comm]

theorem advanceAll_start (text : List Char) : start.advanceAll text = behind text := by
  induction text using List.reverseRecOn with
  | nil => rfl
  | append_singleton text c ih =>
    rw [advanceAll_append, ih, behind_concat]
    rfl

/-- No line and no column is greater than the length of the text allows. -/
theorem Within.le_length {text : List Char} {p : Position} (h : p.Within text) :
    p.line ≤ text.length + 1 ∧ p.column ≤ text.length + 1 := by
  obtain ⟨before, hbefore, rfl⟩ := h
  have hlength := hbefore.length_le
  have hline : before.count '\n' ≤ before.length := List.count_le_length
  have hlast : before.reverse.takeWhile (· != '\n') <+: before.reverse := List.takeWhile_prefix _
  have hcolumn := hlast.length_le
  rw [List.length_reverse] at hcolumn
  simp only [behind]
  omega

end Position

/-- How the text of a lexeme starts. -/
def Lexeme.Starts : Lexeme → List Char → Prop
  | name text, rest => text.toList <+: rest
  | quotedName _, rest => rest.head? = some Text.accent
  | string _, rest => rest.head? = some '"'
  | integer _, rest | float _, rest => ∃ c ∈ rest.head?, c.isDigit
  | symbol s, rest => s.text.toList <+: rest
  | eof, rest => rest = []

namespace Scan

theorem symbol?_starts {text : List Char} {symbol : Symbol} {length : Nat}
    (h : symbol? text = some (symbol, length)) : symbol.text.toList <+: text := by
  rw [symbol?.eq_def] at h
  split at h <;> cases h <;> exact ⟨_, rfl⟩

theorem number_numeral {cursor : Cursor} {l : Lexeme} (h : (number cursor).lexeme = some l) :
    (∃ n, l = .integer n) ∨ ∃ x, l = .float x := by
  simp only [number] at h
  split at h
  · rw [integer] at h
    split at h <;> cases h <;> exact .inl ⟨_, rfl⟩
  · rw [float] at h
    split at h
    · split_ifs at h <;> cases h <;> exact .inr ⟨_, rfl⟩
    · cases h

/-- What is found starts where it is looked for. -/
theorem token_starts {p : Position} {c : Char} {rest : List Char} {l : Lexeme}
    (h : (token c ⟨p, c :: rest⟩).lexeme = some l) : l.Starts (c :: rest) := by
  rw [token] at h
  split_ifs at h with hname hdigit hquote haccent
  · cases h
    rw [Lexeme.Starts, String.toList_ofList]
    exact List.takeWhile_prefix _
  · obtain ⟨n, rfl⟩ | ⟨x, rfl⟩ := number_numeral h <;> exact ⟨c, rfl, hdigit⟩
  · obtain ⟨text, -, rfl⟩ := Option.map_eq_some_iff.mp h
    exact congrArg some hquote
  · obtain ⟨text, -, rfl⟩ := Option.map_eq_some_iff.mp h
    exact congrArg some haccent
  · split at h
    · next hsymbol =>
      cases h
      exact symbol?_starts hsymbol
    · cases h

end Scan

namespace Cursor

/-- From every token on, the same is scanned from the cursor at its first character. -/
theorem scan_stands {earlier later : List Token} {t : Token} (cursor : Cursor)
    (h : cursor.scan.1 = earlier ++ t :: later) : ∃ ahead, cursor.GoesTo ahead ∧
      ahead.position = t.position ∧ t.lexeme.Starts ahead.rest ∧ ahead.scan.1 = t :: later := by
  induction cursor using scan_induction generalizing earlier with
  | ends cursor skipped p htrivia =>
    have hgoes := goesTo_trivia cursor
    rw [htrivia] at hgoes
    rw [scan_end htrivia] at h
    obtain ⟨rfl, rfl, rfl⟩ : earlier = [] ∧ t = ⟨.eof, p⟩ ∧ later = [] := by
      simpa using List.singleton_eq_append_iff.mp h
    exact ⟨⟨p, []⟩, hgoes, rfl, rfl, by rw [scan_end (trivia_nil p)]⟩
  | token cursor skipped p c rest htrivia ih =>
    have hgoes := goesTo_trivia cursor
    have hstops := trivia_stops cursor
    rw [htrivia] at hgoes hstops
    have hnext : cursor.GoesTo (Scan.token c ⟨p, c :: rest⟩).next :=
      hgoes.trans ((goesTo_next p c rest).trans (Scan.goesTo_token p c rest))
    rw [scan_token htrivia] at h
    cases hfound : (Scan.token c ⟨p, c :: rest⟩).lexeme with
    | none =>
      rw [hfound] at h
      obtain ⟨ahead, hahead, hthere⟩ := ih h
      exact ⟨ahead, hnext.trans hahead, hthere⟩
    | some l =>
      rw [hfound] at h
      cases earlier with
      | nil =>
        obtain ⟨rfl, hrest⟩ := List.cons.inj h
        have hstarts : StartsToken (c :: rest) := hstops.resolve_left (by simp)
        refine ⟨⟨p, c :: rest⟩, hgoes, rfl, Scan.token_starts hfound, ?_⟩
        rw [scan_token (trivia_of_startsToken p hstarts), hfound, ← hrest]
        rfl
      | cons first earlier =>
        obtain ⟨ahead, hahead, hthere⟩ := ih (List.cons.inj h).2
        exact ⟨ahead, hnext.trans hahead, hthere⟩

theorem staysIn_start (source : String) :
    (start source).StaysIn (Position.Within source.toList) := by
  rintro ahead ⟨before, hrest, hposition⟩
  exact ⟨before, ⟨ahead.rest, hrest.symm⟩, hposition.trans (Position.advanceAll_start before)⟩

end Cursor

/-- Every token stands at its first character, from where on it is scanned with all that follow. -/
theorem tokenize_stands {source : String} {earlier later : List Token} {t : Token}
    (h : (tokenize source).1 = earlier ++ t :: later) : ∃ before rest,
      source.toList = before ++ rest ∧ t.position = .behind before ∧ t.lexeme.Starts rest ∧
        (Cursor.scan ⟨t.position, rest⟩).1 = t :: later := by
  obtain ⟨⟨p, rest⟩, ⟨before, htext, hposition⟩, rfl, hstarts, hscan⟩ :=
    Cursor.scan_stands (Cursor.start source) h
  exact ⟨before, rest, htext, hposition.trans (Position.advanceAll_start before), hstarts, hscan⟩

/-- Whatever is wrong with a source, in whichever stage it is found, is wrong at a place of it. -/
theorem arises_parseSource (source : String) (registry : Registry) :
    ∀ d ∈ (parseSource source registry).errors, d.Arises (Position.Within source.toList) := by
  obtain ⟨inner, last, htokens, -, hlast⟩ := tokenize_ends source
  have hplaces : ∀ t ∈ inner ++ [last], t.position.Within source.toList := by
    intro t ht
    obtain ⟨earlier, later, hsplit⟩ := List.append_of_mem ht
    obtain ⟨before, rest, htext, hposition, -⟩ := tokenize_stands (htokens.trans hsplit)
    exact ⟨before, ⟨rest, htext.symm⟩, hposition⟩
  intro d hd
  simp only [parseSource, Parse.run, Diagnostic.mem_arrange, List.mem_append] at hd
  obtain hd | hd := hd
  · obtain ⟨hplace, message, hproblem⟩ :=
      Cursor.syntactic_scan (Cursor.staysIn_start source) d hd
    refine ⟨hplace, ?_⟩
    rw [hproblem]
    rfl
  · rw [htokens] at hd
    exact (Grammar.reports_declarations registry _ _ (standing_of_ends hlast hplaces)).2.1 d hd

/-- Places are exact. The end of the source is the last token and no other. Every token stands
behind the text before its first character, further on than the tokens before it. Problems are
reported in order at places of the source, none of which has a line or a column greater than the
length of the source allows: both have 32 bits if that length and one is less than `2 ^ 32`. -/
theorem places_exact (source : String) (registry : Registry) :
    (∃ inner last, (tokenize source).1 = inner ++ [last] ∧ last.lexeme = .eof ∧
      ∀ t ∈ inner, t.lexeme ≠ .eof) ∧
    (∀ earlier t later, (tokenize source).1 = earlier ++ t :: later → ∃ before rest,
      source.toList = before ++ rest ∧ t.position = .behind before ∧ t.lexeme.Starts rest ∧
        (Cursor.scan ⟨t.position, rest⟩).1 = t :: later) ∧
    ((tokenize source).1.Pairwise fun t t' => t.position.Before t'.position) ∧
    (∀ d ∈ (parseSource source registry).errors, d.position.Within source.toList) ∧
    ((parseSource source registry).errors.Pairwise fun d d' => d.position ≤ d'.position) ∧
    ∀ p : Position, p.Within source.toList →
      p.line ≤ source.length + 1 ∧ p.column ≤ source.length + 1 := by
  obtain ⟨inner, last, htokens, hinner, hlast⟩ := tokenize_ends source
  refine ⟨⟨inner, last, htokens, hlast, hinner⟩, fun _ _ _ h => tokenize_stands h,
    pairwise_tokenize source, fun d hd => (arises_parseSource source registry d hd).place,
    Diagnostic.pairwise_arrange _, fun p hp => ?_⟩
  rw [← String.length_toList]
  exact hp.le_length

/-- A rule with comments and a string over lines, and with problems of all kinds. -/
def faultySource : String :=
  "rule \"a\" // one\nwhen n > /* two\n*/ 99999999999999999999 + \"b\n\\q\" then § go()\nend"

/-- Its string starts on the third line and ends on the fourth, where an escape is unknown. -/
theorem places_exact_faultySource :
    (∃ before rest, faultySource.toList = before ++ rest ∧
      (⟨3, 27⟩ : Position) = .behind before ∧ (Lexeme.string "b\n").Starts rest ∧
      (Cursor.scan ⟨⟨3, 27⟩, rest⟩).1 =
        ⟨.string "b\n", ⟨3, 27⟩⟩ :: (tokenize faultySource).1.drop 8) ∧
    (parseSource faultySource (.ofList [])).errors.map (·.position) =
      [⟨2, 6⟩, ⟨3, 4⟩, ⟨3, 25⟩, ⟨4, 1⟩, ⟨4, 10⟩, ⟨4, 12⟩] ∧
    ∀ d ∈ (parseSource faultySource (.ofList [])).errors,
      d.position.Within faultySource.toList := by
  obtain ⟨-, hplaces, -, hwithin, -⟩ := places_exact faultySource (.ofList [])
  exact ⟨hplaces ((tokenize faultySource).1.take 7) ⟨.string "b\n", ⟨3, 27⟩⟩ _ (by decide +kernel),
    by decide +kernel, hwithin⟩

end LogRules
