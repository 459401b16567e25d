import LogRules.Json
import LogRules.Number.Reading
import LogRules.Text.Reader

/-!
The grammar of JSON. Nothing but blanks may follow a document.
-/
namespace LogRules.Json

open Text (Reader)

def isSpace (c : Char) : Bool := c == ' ' || c == '\n' || c == '\t' || c == '\r'

def skipSpace (text : List Char) : List Char := text.dropWhile isSpace

/-- The unit that a one-letter escape stands for. -/
def shortEscape? : Char → Option Char
  | '"' => some '"'
  | '\\' => some '\\'
  | '/' => some '/'
  | 'b' => some '\x08'
  | 'f' => some '\x0c'
  | 'n' => some '\n'
  | 'r' => some '\r'
  | 't' => some '\t'
  | _ => none

/-- A string behind its opening quote. Control characters have to be escaped. -/
def readString : List Char → Option (List JsonUnit × List Char)
  | '"' :: rest => some ([], rest)
  | '\\' :: 'u' :: a :: b :: c :: d :: rest =>
    if [a, b, c, d].all Digits.isHexDigit then do
      let (units, rest) ← readString rest
      return (.escaped (Digits.hexValue [a, b, c, d]) :: units, rest)
    else none
  | '\\' :: e :: rest => do
    let c ← shortEscape? e
    let (units, rest) ← readString rest
    return (.char c :: units, rest)
  | c :: rest =>
    if c = '\\' ∨ c.toNat < 0x20 then none
    else do
      let (units, rest) ← readString rest
      return (.char c :: units, rest)
  | [] => none

def readDigits : Reader (List Char) := fun text =>
  let (digits, rest) := Digits.split text
  if digits.isEmpty then none else some (digits, rest)

def readFraction : Reader (Option (List Char)) := fun text =>
  match text with
  | '.' :: rest => (readDigits rest).map fun (digits, rest) => (some digits, rest)
  | _ => some (none, text)

def readExponent : Reader (Option (Bool × List Char)) := fun text =>
  match text with
  | e :: rest =>
    if e = 'e' ∨ e = 'E' then
      let (negative, rest) := splitSign rest
      (readDigits rest).map fun (digits, rest) => (some (negative, digits), rest)
    else some (none, text)
  | [] => some (none, text)

/-- A number: no zero before another digit, and digits on both sides of a point. -/
def readNumber : Reader JsonNumber := fun text => do
  let (negative, text) := match text with
    | '-' :: rest => (true, rest)
    | _ => (false, text)
  let (whole, text) ← readDigits text
  if whole.head? = some '0' ∧ 1 < whole.length then none
  else
    let (fraction, text) ← readFraction text
    let (exponent, text) ← readExponent text
    return (⟨negative, whole, fraction, exponent⟩, text)

def readWord (word : List Char) (result : Json) : Reader Json := fun text =>
  if word.isPrefixOf text then some (result, text.drop word.length) else none

mutual

/-- A value and what follows it. The depth of the document is at most the fuel. -/
def readValue : Nat → List Char → Option (Json × List Char)
  | 0, _ => none
  | fuel + 1, text =>
    match skipSpace text with
    | '"' :: rest => (readString rest).map fun (units, rest) => (.string units, rest)
    | '[' :: rest =>
      match skipSpace rest with
      | ']' :: rest => some (.array [], rest)
      | rest => (readItems fuel rest).map fun (items, rest) => (.array items, rest)
    | '\x7b' :: rest =>
      match skipSpace rest with
      | '\x7d' :: rest => some (.object [], rest)
      | rest => (readMembers fuel rest).map fun (members, rest) => (.object members, rest)
    | 'n' :: rest => readWord ['u', 'l', 'l'] .null rest
    | 't' :: rest => readWord ['r', 'u', 'e'] (.boolean true) rest
    | 'f' :: rest => readWord ['a', 'l', 's', 'e'] (.boolean false) rest
    | text => (readNumber text).map fun (n, rest) => (.number n, rest)

/-- The items of an array behind its bracket. -/
def readItems : Nat → List Char → Option (List Json × List Char)
  | 0, _ => none
  | fuel + 1, text => do
    let (first, rest) ← readValue fuel text
    match skipSpace rest with
    | ']' :: rest => return ([first], rest)
    | ',' :: rest =>
      let (others, rest) ← readItems fuel rest
      return (first :: others, rest)
    | _ => none

/-- The members of an object behind its brace. -/
def readMembers : Nat → List Char → Option (List (List JsonUnit × Json) × List Char)
  | 0, _ => none
  | fuel + 1, text =>
    match skipSpace text with
    | '"' :: rest => do
      let (key, rest) ← readString rest
      match skipSpace rest with
      | ':' :: rest =>
        let (value, rest) ← readValue fuel rest
        match skipSpace rest with
        | '\x7d' :: rest => return ([(key, value)], rest)
        | ',' :: rest =>
          let (others, rest) ← readMembers fuel rest
          return ((key, value) :: others, rest)
        | _ => none
      | _ => none
    | _ => none

end

def read? (text : String) : Option Json :=
  let cs := text.toList
  match readValue (cs.length + 1) cs with
  | some (json, rest) => if (skipSpace rest).isEmpty then some json else none
  | none => none

end LogRules.Json
