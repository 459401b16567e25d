import LogRules.Proofs.ShortestDecimal

/-!
Lexemes and how they are written. Scanning the spelling of a lexeme gives the lexeme back and
leaves what follows, provided that this cannot be read as a part of the lexeme.
-/
namespace LogRules

namespace Lexeme

/-- The characters of a lexeme. A float is written without its sign. -/
def spelling : Lexeme → List Char
  | name text => text.toList
  | quotedName text => Text.accentChars text.toList
  | string text => Text.quoteChars text.toList
  | integer n => Nat.toDigits 10 n.toInt.toNat
  | float x => NumberLayout.literal.magnitudeText (Decimal.shortest .up x)
  | symbol s => s.text.toList
  | eof => []

/-- Lexemes of an expression that their spelling can stand for: plain names, names on one line,
numbers without a sign. -/
def Spellable : Lexeme → Prop
  | name text => Text.isPlainName text.toList
  | quotedName text => '\n' ∉ text.toList
  | integer n => 0 ≤ n.toInt
  | float x => x.isFinite ∧ x.isNegative = false
  | symbol .assign | eof => False
  | string _ | symbol _ => True

/-- The text goes on without being read as a part of the lexeme before it. -/
def EndsBefore : Lexeme → List Char → Prop
  | name _, rest => EndsRun Text.isNameChar rest
  | quotedName _, rest => EndsRun (· == Text.accent) rest
  | integer _, rest | float _, rest => EndsNumber rest
  | symbol .slash, rest => EndsRun (fun c => c == '/' || c == '*') rest
  | symbol .less, rest | symbol .greater, rest | symbol .bang, rest | symbol .assign, rest =>
    EndsRun (· == '=') rest
  | _, _ => True

end Lexeme

/-- A token starts here: neither blanks nor a comment. -/
def StartsToken : List Char → Prop
  | [] => False
  | c :: rest => Text.isBlank c = false ∧ (c = '/' → EndsRun (fun d => d == '/' || d == '*') rest)

section Characters

variable {c : Char}

theorem isBlank_of_isNameChar (h : Text.isNameChar c) : Text.isBlank c = false := by
  have hrange : c.toNat = '_'.toNat ∨ (48 ≤ c.toNat ∧ c.toNat ≤ 122) := by
    unfold Text.isNameChar Char.isAlphanum Char.isAlpha Char.isUpper Char.isLower Char.isDigit at h
    simp only [Bool.or_eq_true, Bool.and_eq_true, decide_eq_true_eq, beq_iff_eq,
      UInt32.le_iff_toNat_le] at h
    obtain ((h | h) | h) | rfl := h
    · exact .inr ⟨le_trans (by decide) h.1, le_trans h.2 (by decide)⟩
    · exact .inr ⟨le_trans (by decide) h.1, h.2⟩
    · exact .inr ⟨h.1, le_trans h.2 (by decide)⟩
    · exact .inl rfl
  have hunderscore : '_'.toNat = 95 := rfl
  simp only [Text.isBlank, Text.inRanges, Text.blankRanges, List.any_cons, List.any_nil,
    Bool.or_false, Bool.or_eq_false_iff, Bool.and_eq_false_iff, decide_eq_false_iff_not]
  omega

theorem isNameChar_of_isNameStart (h : Text.isNameStart c) : Text.isNameChar c := by
  simp only [Text.isNameStart, Text.isNameChar, Char.isAlphanum, Bool.or_eq_true] at h ⊢
  tauto

theorem exists_cons_of_plain {name : List Char} (h : Text.isPlainName name) :
    ∃ c rest, name = c :: rest ∧ Text.isNameStart c ∧ ∀ d ∈ name, Text.isNameChar d := by
  cases name with
  | nil => cases h
  | cons c rest =>
    rw [Text.isPlainName, Bool.and_eq_true, List.all_eq_true] at h
    refine ⟨c, rest, rfl, h.1, fun d hd => ?_⟩
    cases hd with
    | head => exact isNameChar_of_isNameStart h.1
    | tail _ hd => exact h.2 d hd

theorem isNameChar_of_isDigit (h : c.isDigit) : Text.isNameChar c := by
  simp [Text.isNameChar, Char.isAlphanum, h]

theorem not_isNameStart_of_isDigit (h : c.isDigit) : Text.isNameStart c = false := by
  by_contra hstart
  unfold Text.isNameStart Char.isAlpha Char.isUpper Char.isLower at hstart
  unfold Char.isDigit at h
  simp only [Bool.not_eq_false, Bool.or_eq_true, Bool.and_eq_true, decide_eq_true_eq, beq_iff_eq,
    UInt32.le_iff_toNat_le] at h hstart
  have hnine : c.val.toNat ≤ 57 := h.2
  obtain (hstart | hstart) | rfl := hstart
  · have : 65 ≤ c.val.toNat := hstart.1
    omega
  · have : 97 ≤ c.val.toNat := hstart.1
    omega
  · exact absurd hnine (by decide)

end Characters

theorem Scan.symbol?_text (s : Symbol) {rest : List Char} (h : (Lexeme.symbol s).EndsBefore rest) :
    Scan.symbol? (s.text.toList ++ rest) = some (s, s.text.toList.length) := by
  cases rest with
  | nil => cases s <;> rfl
  | cons d rest =>
    -- Only these symbols are the start of a longer one.
    have hlonger : s = .less ∨ s = .greater ∨ s = .bang ∨ s = .assign → d ≠ '=' := by
      intro hs
      have hends : EndsRun (· == '=') (d :: rest) := by
        obtain rfl | rfl | rfl | rfl := hs <;> exact h
      simpa using endsRun_cons.mp hends
    cases s <;> first | rfl | simp [Symbol.text, Scan.symbol?, hlonger]

namespace Scan

theorem codePoint?_hexDigits :
    ∀ n < 160, codePoint? (Text.hexDigits n) = some (Char.ofNat n) ∧
      (Text.hexDigits n).all Digits.isHexDigit = true := by
  decide +kernel

theorem unicodeEscape_control {c : Char} (h : Text.isControl c) (rest : List Char) (p : Position) :
    ∃ q, unicodeEscape ⟨p, '\x7b' :: (Text.hexDigits c.toNat ++ '\x7d' :: rest)⟩ =
      (some c, ⟨q, rest⟩) := by
  have hlt : c.toNat < 160 := by
    simp only [Text.isControl, Bool.or_eq_true, Bool.and_eq_true, decide_eq_true_eq] at h
    omega
  obtain ⟨hpoint, hdigits⟩ := codePoint?_hexDigits c.toNat hlt
  rw [Char.ofNat_toNat] at hpoint
  have hends : EndsRun Digits.isHexDigit ('\x7d' :: rest) := endsRun_cons.mpr (by decide)
  have hspan := Cursor.span_run (List.all_eq_true.mp hdigits) hends (p.advance '\x7b')
  have hskip : Cursor.skip 1 ⟨p, '\x7b' :: (Text.hexDigits c.toNat ++ '\x7d' :: rest)⟩ =
      ⟨p.advance '\x7b', Text.hexDigits c.toNat ++ '\x7d' :: rest⟩ := rfl
  refine ⟨((p.advance '\x7b').advanceAll (Text.hexDigits c.toNat)).advance '\x7d', ?_⟩
  rw [unicodeEscape]
  simp only [hskip, hspan, hpoint]
  rfl

theorem stringBody_plain {c : Char} (hquote : c ≠ '"') (hslash : c ≠ '\\') (start : Position)
    (fuel : Nat) (rest : List Char) (p : Position) :
    stringBody start (fuel + 1) ⟨p, c :: rest⟩ =
      (stringBody start fuel ⟨p.advance c, rest⟩).prepend c := by
  rw [stringBody]
  split
  · next heq => cases heq
  · next heq => exact absurd (List.cons.inj heq).1 hquote
  · next heq => exact absurd (List.cons.inj heq).1 hslash
  · next heq => exact absurd (List.cons.inj heq).1 hslash
  · next heq =>
    cases heq
    rfl

theorem stringBody_escape (start : Position) (fuel : Nat) (c : Char) (rest : List Char)
    (p : Position) :
    ∃ q, stringBody start (fuel + 1) ⟨p, Text.escape c ++ rest⟩ =
      (stringBody start fuel ⟨q, rest⟩).prepend c := by
  have hletter (letter found : Char) (hu : letter ≠ 'u') (hfound : escaped? letter = some found) :
      ∃ q, stringBody start (fuel + 1) ⟨p, '\\' :: letter :: rest⟩ =
        (stringBody start fuel ⟨q, rest⟩).prepend found := by
    refine ⟨(p.advance '\\').advance letter, ?_⟩
    simp only [stringBody, if_neg hu, hfound]
    rfl
  rw [Text.escape]
  split
  · next h => exact h ▸ hletter '"' '"' (by decide) rfl
  split
  · next h => exact h ▸ hletter '\\' '\\' (by decide) rfl
  split
  · next h => exact h ▸ hletter 'n' '\n' (by decide) rfl
  split
  · next h => exact h ▸ hletter 'r' '\r' (by decide) rfl
  split
  · next h => exact h ▸ hletter 't' '\t' (by decide) rfl
  split
  · next h =>
    obtain ⟨q, hescape⟩ := unicodeEscape_control h rest ((p.advance '\\').advance 'u')
    refine ⟨q, ?_⟩
    have hskip : Cursor.skip 2
        ⟨p, '\\' :: 'u' :: '\x7b' :: (Text.hexDigits c.toNat ++ '\x7d' :: rest)⟩ =
        ⟨(p.advance '\\').advance 'u',
          '\x7b' :: (Text.hexDigits c.toNat ++ '\x7d' :: rest)⟩ := rfl
    simp only [List.cons_append, List.nil_append, List.append_assoc, stringBody, hskip, hescape]
    rfl
  · next hquote hslash _ _ _ _ =>
    exact ⟨p.advance c, stringBody_plain hquote hslash start fuel rest p⟩

/-- The text of a string literal is read back. -/
theorem stringBody_quoteChars (start : Position) (text rest : List Char) (fuel : Nat)
    (hfuel : text.length < fuel) (p : Position) :
    ∃ q, stringBody start fuel ⟨p, text.flatMap Text.escape ++ '"' :: rest⟩ =
      ⟨some text, [], ⟨q, rest⟩⟩ := by
  induction text generalizing fuel p with
  | nil =>
    obtain ⟨fuel, rfl⟩ : ∃ n, fuel = n + 1 := ⟨fuel - 1, by simp at hfuel; omega⟩
    exact ⟨p.advance '"', rfl⟩
  | cons c text ih =>
    obtain ⟨fuel, rfl⟩ : ∃ n, fuel = n + 1 := ⟨fuel - 1, by simp at hfuel; omega⟩
    obtain ⟨q, hc⟩ := stringBody_escape start fuel c (text.flatMap Text.escape ++ '"' :: rest) p
    obtain ⟨q', hrest⟩ := ih fuel (by simpa using hfuel) q
    refine ⟨q', ?_⟩
    rw [List.flatMap_cons, List.append_assoc, hc, hrest]
    rfl

/-- How a quoted identifier writes one character. -/
def accentChar (c : Char) : List Char := if c = Text.accent then [Text.accent, Text.accent] else [c]

theorem nameBody_accentChars (start : Position) (text rest : List Char) (fuel : Nat)
    (hfuel : text.length < fuel) (hline : '\n' ∉ text) (hrest : EndsRun (· == Text.accent) rest)
    (p : Position) :
    ∃ q, nameBody start fuel ⟨p, text.flatMap accentChar ++ Text.accent :: rest⟩ =
      ⟨some text, [], ⟨q, rest⟩⟩ := by
  have hbreak : Text.accent ≠ '\n' := by decide
  induction text generalizing fuel p with
  | nil =>
    obtain ⟨fuel, rfl⟩ : ∃ n, fuel = n + 1 := ⟨fuel - 1, by simp at hfuel; omega⟩
    have hhead : rest.head? ≠ some Text.accent := by
      intro hhead
      simpa using hrest Text.accent hhead
    refine ⟨p.advance Text.accent, ?_⟩
    simp only [List.flatMap_nil, List.nil_append, nameBody, if_neg hbreak, if_neg hhead, if_true]
    rfl
  | cons c text ih =>
    obtain ⟨fuel, rfl⟩ : ∃ n, fuel = n + 1 := ⟨fuel - 1, by simp at hfuel; omega⟩
    have hc : c ≠ '\n' := fun h => hline (by simp [h])
    have htext : '\n' ∉ text := fun h => hline (List.mem_cons_of_mem c h)
    rw [List.flatMap_cons, accentChar]
    by_cases haccent : c = Text.accent
    · subst haccent
      obtain ⟨q, hq⟩ := ih fuel (by simpa using hfuel) htext
        ((p.advance Text.accent).advance Text.accent)
      refine ⟨q, ?_⟩
      simp only [if_true, List.cons_append, List.nil_append, nameBody, if_neg hc, List.head?_cons]
      have hskip : Cursor.skip 2 ⟨p, Text.accent :: Text.accent ::
          (text.flatMap accentChar ++ Text.accent :: rest)⟩ =
          ⟨(p.advance Text.accent).advance Text.accent,
            text.flatMap accentChar ++ Text.accent :: rest⟩ := rfl
      rw [hskip, hq]
      rfl
    · obtain ⟨q, hq⟩ := ih fuel (by simpa using hfuel) htext (p.advance c)
      refine ⟨q, ?_⟩
      simp only [if_neg haccent, List.cons_append, List.nil_append, nameBody, if_neg hc]
      have hskip : Cursor.skip 1 ⟨p, c :: (text.flatMap accentChar ++ Text.accent :: rest)⟩ =
          ⟨p.advance c, text.flatMap accentChar ++ Text.accent :: rest⟩ := rfl
      rw [hskip, hq]
      rfl

end Scan

theorem Long.read?_toDigits {n : Int64} (h : 0 ≤ n.toInt) :
    Long.read? (Nat.toDigits 10 n.toInt.toNat) = some n := by
  obtain ⟨k, hk⟩ : ∃ k : Nat, n.toInt = k := ⟨n.toInt.toNat, (Int.toNat_of_nonneg h).symm⟩
  have hdigits : ∀ c ∈ Nat.toDigits 10 k, c.isDigit := fun c hc => isDigit_toDigits hc
  have hall : (Nat.toDigits 10 k).all Char.isDigit = true := List.all_eq_true.mpr hdigits
  have hrange : Long.least ≤ (k : Int) ∧ (k : Int) ≤ Long.greatest := by
    have hlow := n.le_toInt
    have hhigh := n.toInt_lt
    simp only [Long.least, Long.greatest]
    omega
  have hback : Int64.ofInt (k : Int) = n := by rw [← hk, Int64.ofInt_toInt]
  rw [hk, Int.toNat_natCast, Long.read?, splitSign_digits hdigits]
  simp [Nat.toDigits_ne_nil, hall, Digits.value_toDigits, Long.ofInt?, hrange, hback]

/-- What scanning makes of the spelling of a lexeme: the lexeme itself, but a float only if its
text reads back. -/
def Lexeme.scan (p : Position) (next : Cursor) : Lexeme → Scan
  | .float x => Scan.float p (Lexeme.float x).spelling next
  | l => ⟨some l, [], next⟩

namespace Scan

variable {rest : List Char}

theorem token_name {text : String} (hl : (Lexeme.name text).Spellable)
    (hrest : (Lexeme.name text).EndsBefore rest) (p : Position) :
    ∃ c tail q, text.toList ++ rest = c :: tail ∧ StartsToken (c :: tail) ∧
      token c ⟨p, c :: tail⟩ = ⟨some (.name text), [], ⟨q, rest⟩⟩ := by
  obtain ⟨c, name, hlist, hstart, hchars⟩ := exists_cons_of_plain hl
  have hspan := Cursor.span_run hchars hrest p
  rw [hlist] at hchars hspan
  refine ⟨c, name ++ rest, p.advanceAll (c :: name), by rw [hlist]; rfl, ⟨?_, ?_⟩, ?_⟩
  · exact isBlank_of_isNameChar (hchars c (by simp))
  · rintro rfl
    exact absurd hstart (by decide)
  · rw [List.cons_append] at hspan
    simp only [token, if_pos hstart, hspan, ← hlist, String.ofList_toList]

theorem token_numeral (n : Numeral) (rest : List Char) (p : Position) :
    ∃ c tail, n.text ++ rest = c :: tail ∧ StartsToken (c :: tail) ∧
      token c ⟨p, c :: tail⟩ = number ⟨p, n.text ++ rest⟩ := by
  obtain ⟨c, whole, hwhole⟩ := List.exists_cons_of_ne_nil n.whole_ne_nil
  have hdigit : c.isDigit := n.isDigit_whole c (by simp [hwhole])
  refine ⟨c, whole ++ (n.fractionText ++ n.exponentText) ++ rest, ?_, ⟨?_, ?_⟩, ?_⟩
  · rw [Numeral.text, hwhole]
    rfl
  · exact isBlank_of_isNameChar (isNameChar_of_isDigit hdigit)
  · rintro rfl
    exact absurd hdigit (by decide)
  · rw [token, if_neg (by simp [not_isNameStart_of_isDigit hdigit]), if_pos hdigit, Numeral.text,
      hwhole]
    rfl

theorem token_integer {n : Int64} (hl : (Lexeme.integer n).Spellable)
    (hrest : (Lexeme.integer n).EndsBefore rest) (p : Position) :
    ∃ c tail q, Nat.toDigits 10 n.toInt.toNat ++ rest = c :: tail ∧ StartsToken (c :: tail) ∧
      token c ⟨p, c :: tail⟩ = ⟨some (.integer n), [], ⟨q, rest⟩⟩ := by
  let numeral : Numeral := ⟨Nat.toDigits 10 n.toInt.toNat, [], none, Nat.toDigits_ne_nil,
    fun c hc => isDigit_toDigits hc, by simp, by simp⟩
  have htext : numeral.text = Nat.toDigits 10 n.toInt.toNat := by
    simp [numeral, Numeral.text, Numeral.fractionText, Numeral.exponentText]
  obtain ⟨c, tail, hcons, hstarts, htoken⟩ := token_numeral numeral rest p
  obtain ⟨q, -, hinteger⟩ := numeral.scan_number hrest p
  have hnot : ¬ numeral.IsFloat := by simp [numeral, Numeral.IsFloat]
  refine ⟨c, tail, q, by rw [← htext, hcons], hstarts, ?_⟩
  rw [htoken, hinteger hnot]
  simp only [integer, numeral, Long.read?_toDigits hl]

theorem token_float {x : Double} (hrest : (Lexeme.float x).EndsBefore rest) (p : Position) :
    ∃ c tail q, (Lexeme.float x).spelling ++ rest = c :: tail ∧ StartsToken (c :: tail) ∧
      token c ⟨p, c :: tail⟩ = float p (Lexeme.float x).spelling ⟨q, rest⟩ := by
  obtain ⟨numeral, htext, hfloat, -⟩ := NumberLayout.exists_numeral (Decimal.shortest .up x)
  obtain ⟨c, tail, hcons, hstarts, htoken⟩ := token_numeral numeral rest p
  obtain ⟨q, hscan, -⟩ := numeral.scan_number hrest p
  rw [htext] at hcons
  exact ⟨c, tail, q, hcons, hstarts, by rw [htoken, hscan hfloat, htext, Lexeme.spelling]⟩

theorem length_flatMap_le {f : Char → List Char} (hf : ∀ c, 1 ≤ (f c).length) (text : List Char) :
    text.length ≤ (text.flatMap f).length := by
  induction text with
  | nil => simp
  | cons c text ih =>
    have := hf c
    simp only [List.flatMap_cons, List.length_append, List.length_cons]
    omega

theorem token_string (text : String) (p : Position) :
    ∃ c tail q, Text.quoteChars text.toList ++ rest = c :: tail ∧ StartsToken (c :: tail) ∧
      token c ⟨p, c :: tail⟩ = ⟨some (.string text), [], ⟨q, rest⟩⟩ := by
  have hescape (c : Char) : 1 ≤ (Text.escape c).length := by
    rw [Text.escape]
    repeat' split
    all_goals simp
  have hfuel := length_flatMap_le hescape text.toList
  have hstarts (tail : List Char) : StartsToken ('"' :: tail) := ⟨by decide, by simp⟩
  obtain ⟨q, hbody⟩ := stringBody_quoteChars p text.toList rest
    ('"' :: (text.toList.flatMap Text.escape ++ '"' :: rest)).length
    (by simp only [List.length_cons, List.length_append]; omega) (p.advance '"')
  refine ⟨'"', text.toList.flatMap Text.escape ++ '"' :: rest, q, ?_, hstarts _, ?_⟩
  · simp [Text.quoteChars]
  · have hskip : Cursor.skip 1 ⟨p, '"' :: (text.toList.flatMap Text.escape ++ '"' :: rest)⟩ =
        ⟨p.advance '"', text.toList.flatMap Text.escape ++ '"' :: rest⟩ := rfl
    have hname : Text.isNameStart '"' = false := by decide
    have hdigit : Char.isDigit '"' = false := by decide
    rw [token, if_neg (by simp [hname]), if_neg (by simp [hdigit]), if_pos rfl, hskip, hbody]
    simp [Body.toScan]

theorem token_quotedName {text : String} (hl : (Lexeme.quotedName text).Spellable)
    (hrest : (Lexeme.quotedName text).EndsBefore rest) (p : Position) :
    ∃ c tail q, Text.accentChars text.toList ++ rest = c :: tail ∧ StartsToken (c :: tail) ∧
      token c ⟨p, c :: tail⟩ = ⟨some (.quotedName text), [], ⟨q, rest⟩⟩ := by
  have haccent (c : Char) : 1 ≤ (accentChar c).length := by
    rw [accentChar]
    split <;> simp
  have hfuel := length_flatMap_le haccent text.toList
  have hstarts (tail : List Char) : StartsToken (Text.accent :: tail) :=
    ⟨by decide, fun h => absurd h (by decide)⟩
  obtain ⟨q, hbody⟩ := nameBody_accentChars p text.toList rest
    (Text.accent :: (text.toList.flatMap accentChar ++ Text.accent :: rest)).length
    (by simp only [List.length_cons, List.length_append]; omega) hl hrest (p.advance Text.accent)
  refine ⟨Text.accent, text.toList.flatMap accentChar ++ Text.accent :: rest, q, ?_,
    hstarts _, ?_⟩
  · have hchars : Text.accentChars text.toList =
        Text.accent :: text.toList.flatMap accentChar ++ [Text.accent] := rfl
    simp [hchars]
  · have hskip : Cursor.skip 1
        ⟨p, Text.accent :: (text.toList.flatMap accentChar ++ Text.accent :: rest)⟩ =
        ⟨p.advance Text.accent, text.toList.flatMap accentChar ++ Text.accent :: rest⟩ := rfl
    have hname : ¬ Text.isNameStart Text.accent := by decide
    have hdigit : ¬ Char.isDigit Text.accent := by decide
    have hquote : Text.accent ≠ '"' := by decide
    rw [token, if_neg hname, if_neg hdigit, if_neg hquote, if_pos rfl, hskip, hbody]
    simp [Body.toScan]

theorem token_symbol {s : Symbol} (hrest : (Lexeme.symbol s).EndsBefore rest) (p : Position) :
    ∃ c tail q, s.text.toList ++ rest = c :: tail ∧ StartsToken (c :: tail) ∧
      token c ⟨p, c :: tail⟩ = ⟨some (.symbol s), [], ⟨q, rest⟩⟩ := by
  have hfound := symbol?_text s hrest
  obtain ⟨c, more, hcons⟩ : ∃ c more, s.text.toList = c :: more := by
    cases s <;> exact ⟨_, _, rfl⟩
  have hclass : Text.isNameStart c = false ∧ c.isDigit = false ∧ c ≠ '"' ∧ c ≠ Text.accent ∧
      Text.isBlank c = false := by
    cases s <;> cases hcons <;> decide
  have hcomment : c = '/' → EndsRun (fun d => d == '/' || d == '*') (more ++ rest) := by
    intro hslash
    cases s <;> cases hcons <;> first | exact hrest | exact absurd hslash (by decide)
  obtain ⟨hname, hdigit, hquote, haccent, hblank⟩ := hclass
  refine ⟨c, more ++ rest, (p.advanceAll (s.text.toList)), ?_, ⟨hblank, hcomment⟩, ?_⟩
  · rw [hcons, List.cons_append]
  · have hskip : Cursor.skip s.text.toList.length ⟨p, s.text.toList ++ rest⟩ =
        ⟨p.advanceAll s.text.toList, rest⟩ := by
      simp [Cursor.skip]
    rw [← List.cons_append, ← hcons, token, if_neg (by simp [hname]), if_neg (by simp [hdigit]),
      if_neg hquote, if_neg haccent]
    simp only [hfound, hskip]

/-- A spelled lexeme is scanned as itself, up to the start of what follows. -/
theorem token_spelling {l : Lexeme} (hl : l.Spellable) (hrest : l.EndsBefore rest)
    (p : Position) :
    ∃ c tail q, l.spelling ++ rest = c :: tail ∧ StartsToken (c :: tail) ∧
      token c ⟨p, c :: tail⟩ = l.scan p ⟨q, rest⟩ := by
  cases l with
  | name text => exact token_name hl hrest p
  | quotedName text => exact token_quotedName hl hrest p
  | string text => exact token_string text p
  | integer n => exact token_integer hl hrest p
  | float x => exact token_float hrest p
  | symbol s => exact token_symbol hrest p
  | eof => exact hl.elim

end Scan

end LogRules
