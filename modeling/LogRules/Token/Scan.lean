import LogRules.Number.Reading
import LogRules.Text.Blank
import LogRules.Text.Quoted
import LogRules.Token

/-!
Sources split into tokens. Scanning never fails: what cannot be read is reported, and scanning goes
on behind it. Every loop has as much fuel as there are characters left, which is always enough,
since each of its turns takes at least one.
-/
namespace LogRules

/-- The text still to be scanned and the place of its first character. -/
structure Cursor where
  position : Position
  rest : List Char

namespace Cursor

def start (source : String) : Cursor := ⟨.start, source.toList⟩

def skip (n : Nat) (cursor : Cursor) : Cursor :=
  ⟨cursor.position.advanceAll (cursor.rest.take n), cursor.rest.drop n⟩

/-- The longest run of characters of a class, and the cursor behind it. -/
def span (inClass : Char → Bool) (cursor : Cursor) : List Char × Cursor :=
  let run := cursor.rest.takeWhile inClass
  (run, ⟨cursor.position.advanceAll run, cursor.rest.dropWhile inClass⟩)

end Cursor

/-- What one step of scanning found: perhaps a token, perhaps errors, and where to go on. -/
structure Scan where
  lexeme : Option Lexeme
  errors : List Diagnostic
  next : Cursor

/-- Behind the end of a block comment, if it has one. -/
def Cursor.closeComment (position : Position) : List Char → Option Cursor
  | [] => none
  | c :: rest =>
    match c, rest with
    | '*', '/' :: behind => some ⟨(position.advance '*').advance '/', behind⟩
    | _, _ => Cursor.closeComment (position.advance c) rest

/-- Skips blanks and comments. A block comment without an end takes the rest of the source. -/
def Cursor.skipTrivia : Nat → Cursor → List Diagnostic × Cursor
  | 0, cursor => ([], cursor)
  | fuel + 1, cursor =>
    match cursor.rest with
    | [] => ([], cursor)
    | '/' :: '/' :: _ =>
      let line := (cursor.span (· != '\n')).2
      Cursor.skipTrivia fuel (line.skip 1)
    | '/' :: '*' :: _ =>
      let body := cursor.skip 2
      match Cursor.closeComment body.position body.rest with
      | some behind => Cursor.skipTrivia fuel behind
      | none =>
        ([.syntactic cursor.position "unterminated block comment"], body.skip body.rest.length)
    | c :: _ =>
      if Text.isBlank c then Cursor.skipTrivia fuel (cursor.span Text.isBlank).2
      else ([], cursor)

namespace Scan

/-- The digits after a point. A point without a digit behind it does not belong to the number. -/
def fraction (cursor : Cursor) : Option (List Char) × Cursor :=
  match cursor.rest with
  | '.' :: d :: _ =>
    if d.isDigit then
      let (digits, behind) := (cursor.skip 1).span Char.isDigit
      (some digits, behind)
    else (none, cursor)
  | _ => (none, cursor)

/-- An exponent, written with a small `e`. It needs a digit, with or without a sign before it. -/
def exponent (cursor : Cursor) : Option (List Char) × Cursor :=
  match cursor.rest with
  | e :: s :: more =>
    if e = 'e' ∨ e = 'E' then
      if s.isDigit then
        let (digits, behind) := (cursor.skip 1).span Char.isDigit
        (some ('e' :: digits), behind)
      else if (s = '+' ∨ s = '-') ∧ (more.head?.any Char.isDigit) then
        let (digits, behind) := (cursor.skip 2).span Char.isDigit
        (some ('e' :: s :: digits), behind)
      else (none, cursor)
    else (none, cursor)
  | _ => (none, cursor)

def integer (start : Position) (text : List Char) (next : Cursor) : Scan :=
  match Long.read? text with
  | some n => ⟨some (.integer n), [], next⟩
  | none =>
    let message := s!"integer literal '{String.ofList text}' out of range"
    ⟨some (.integer 0), [.syntactic start message], next⟩

def float (start : Position) (text : List Char) (next : Cursor) : Scan :=
  match Double.read? text with
  | some x =>
    if x.isFinite then ⟨some (.float x), [], next⟩
    else
      let message := s!"number literal '{String.ofList text}' out of range"
      ⟨some (.float .zero), [.syntactic start message], next⟩
  | none => ⟨none, [.syntactic start s!"invalid number '{String.ofList text}'"], next⟩

/-- A number that starts with a digit. With a fraction or an exponent it is a float. -/
def number (cursor : Cursor) : Scan :=
  let (whole, behindWhole) := cursor.span Char.isDigit
  let (fraction, behindFraction) := fraction behindWhole
  let (exponent, next) := exponent behindFraction
  if fraction.isNone ∧ exponent.isNone then integer cursor.position whole next
  else
    let point := match fraction with
      | some digits => '.' :: digits
      | none => []
    float cursor.position (whole ++ point ++ exponent.getD []) next

/-- The text of a literal as it is read: nothing if its end is missing. -/
structure Body where
  text : Option (List Char)
  errors : List Diagnostic
  next : Cursor

namespace Body

def prepend (c : Char) (body : Body) : Body := { body with text := body.text.map (c :: ·) }

def report (error : Diagnostic) (body : Body) : Body := { body with errors := error :: body.errors }

def closed (next : Cursor) : Body := ⟨some [], [], next⟩

def unclosed (start : Position) (message : String) (next : Cursor) : Body :=
  ⟨none, [.syntactic start message], next⟩

def toScan (make : String → Lexeme) (body : Body) : Scan :=
  ⟨body.text.map fun text => make (String.ofList text), body.errors, body.next⟩

end Body

/-- The character that a one-letter escape stands for. -/
def escaped? : Char → Option Char
  | '"' => some '"'
  | '\\' => some '\\'
  | 'n' => some '\n'
  | 'r' => some '\r'
  | 't' => some '\t'
  | _ => none

/-- The character that hexadecimal digits name: there is at least one digit, and the number is a
code point that is no surrogate. -/
def codePoint? (digits : List Char) : Option Char :=
  let n := Digits.hexValue digits
  if digits.isEmpty then none
  else if n < 0xd800 ∨ (0xdfff < n ∧ n < 0x110000) then some (Char.ofNat n)
  else none

/-- The braces and digits behind `\u`. Digits that are read stay read when the end is missing. -/
def unicodeEscape (cursor : Cursor) : Option Char × Cursor :=
  match cursor.rest with
  | '\x7b' :: _ =>
    let (digits, behind) := (cursor.skip 1).span Digits.isHexDigit
    match behind.rest with
    | '\x7d' :: _ => (codePoint? digits, behind.skip 1)
    | _ => (none, behind)
  | _ => (none, cursor)

def stringEndMissing : String := "unterminated string literal"

/-- A string literal behind its opening quote, which stands at `start`. -/
def stringBody (start : Position) : Nat → Cursor → Body
  | 0, cursor => .unclosed start stringEndMissing cursor
  | fuel + 1, cursor =>
    match cursor.rest with
    | [] => .unclosed start stringEndMissing cursor
    | '"' :: _ => .closed (cursor.skip 1)
    | ['\\'] => .unclosed start stringEndMissing (cursor.skip 1)
    | '\\' :: c :: _ =>
      if c = 'u' then
        match unicodeEscape (cursor.skip 2) with
        | (some found, behind) => (stringBody start fuel behind).prepend found
        | (none, behind) =>
          (stringBody start fuel behind).report
            (.syntactic cursor.position "invalid unicode escape")
      else match escaped? c with
        | some found => (stringBody start fuel (cursor.skip 2)).prepend found
        | none =>
          (stringBody start fuel (cursor.skip 2)).report
            (.syntactic cursor.position ("unknown escape '\\" ++ toString c ++ "'"))
    | c :: _ => (stringBody start fuel (cursor.skip 1)).prepend c

def nameEndMissing : String := "unterminated quoted identifier"

/-- A quoted identifier behind its opening accent, which stands at `start`. It ends on its line. -/
def nameBody (start : Position) : Nat → Cursor → Body
  | 0, cursor => .unclosed start nameEndMissing cursor
  | fuel + 1, cursor =>
    match cursor.rest with
    | [] => .unclosed start nameEndMissing cursor
    | c :: rest =>
      if c = '\n' then .unclosed start nameEndMissing (cursor.skip 1)
      else if c = Text.accent then
        if rest.head? = some Text.accent then
          (nameBody start fuel (cursor.skip 2)).prepend Text.accent
        else .closed (cursor.skip 1)
      else (nameBody start fuel (cursor.skip 1)).prepend c

/-- A symbol and its length, two characters where two belong together. -/
def symbol? : List Char → Option (Symbol × Nat)
  | '=' :: '=' :: _ => some (.equal, 2)
  | '!' :: '=' :: _ => some (.notEqual, 2)
  | '<' :: '=' :: _ => some (.lessEqual, 2)
  | '>' :: '=' :: _ => some (.greaterEqual, 2)
  | '&' :: '&' :: _ => some (.andAnd, 2)
  | '|' :: '|' :: _ => some (.orOr, 2)
  | '$' :: _ => some (.dollar, 1)
  | '(' :: _ => some (.leftParen, 1)
  | ')' :: _ => some (.rightParen, 1)
  | '[' :: _ => some (.leftBracket, 1)
  | ']' :: _ => some (.rightBracket, 1)
  | '\x7b' :: _ => some (.leftBrace, 1)
  | '\x7d' :: _ => some (.rightBrace, 1)
  | ',' :: _ => some (.comma, 1)
  | ':' :: _ => some (.colon, 1)
  | ';' :: _ => some (.semicolon, 1)
  | '.' :: _ => some (.dot, 1)
  | '+' :: _ => some (.plus, 1)
  | '-' :: _ => some (.minus, 1)
  | '*' :: _ => some (.star, 1)
  | '/' :: _ => some (.slash, 1)
  | '%' :: _ => some (.percent, 1)
  | '=' :: _ => some (.assign, 1)
  | '!' :: _ => some (.bang, 1)
  | '<' :: _ => some (.less, 1)
  | '>' :: _ => some (.greater, 1)
  | _ => none

/-- The token that starts with the character `c`, which is the first at the cursor. -/
def token (c : Char) (cursor : Cursor) : Scan :=
  if Text.isNameStart c then
    let (name, behind) := cursor.span Text.isNameChar
    ⟨some (.name (String.ofList name)), [], behind⟩
  else if c.isDigit then number cursor
  else if c = '"' then
    (stringBody cursor.position cursor.rest.length (cursor.skip 1)).toScan .string
  else if c = Text.accent then
    (nameBody cursor.position cursor.rest.length (cursor.skip 1)).toScan .quotedName
  else match symbol? cursor.rest with
    | some (symbol, length) => ⟨some (.symbol symbol), [], cursor.skip length⟩
    | none =>
      ⟨none, [.syntactic cursor.position ("unexpected character '" ++ toString c ++ "'")],
        cursor.skip 1⟩

end Scan

/-- All tokens from a cursor on, and all errors in the order in which they are met. -/
def Cursor.tokens : Nat → Cursor → List Token × List Diagnostic
  | 0, cursor => ([⟨.eof, cursor.position⟩], [])
  | fuel + 1, cursor =>
    let (skipped, cursor) := cursor.skipTrivia (cursor.rest.length + 1)
    match cursor.rest with
    | [] => ([⟨.eof, cursor.position⟩], skipped)
    | c :: _ =>
      let found := Scan.token c cursor
      let (tokens, errors) := Cursor.tokens fuel found.next
      match found.lexeme with
      | some lexeme => (⟨lexeme, cursor.position⟩ :: tokens, skipped ++ found.errors ++ errors)
      | none => (tokens, skipped ++ found.errors ++ errors)

/-- The tokens of a source, ending in `eof`, and the errors of scanning. -/
def tokenize (source : String) : List Token × List Diagnostic :=
  Cursor.tokens (source.toList.length + 1) (Cursor.start source)

end LogRules
