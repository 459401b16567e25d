/-!
Quoted text of the rule language. String literals escape quotes, backslashes and control
characters; identifiers that are not plain names stand between grave accents.
-/
namespace LogRules.Text

/-- The grave accent, which encloses a quoted identifier. -/
def accent : Char := '\x60'

/-- The digits of a code point in lowercase hexadecimal, without leading zeros. -/
def hexDigits (n : Nat) : List Char := Nat.toDigits 16 n

/-- The control characters, all below `U+00A0`. -/
def isControl (c : Char) : Bool := c.toNat < 0x20 || (0x7f ≤ c.toNat && c.toNat < 0xa0)

/-- How one character is written inside a string literal. -/
def escape (c : Char) : List Char :=
  if c = '"' then ['\\', '"']
  else if c = '\\' then ['\\', '\\']
  else if c = '\n' then ['\\', 'n']
  else if c = '\r' then ['\\', 'r']
  else if c = '\t' then ['\\', 't']
  else if isControl c then ['\\', 'u', '\x7b'] ++ hexDigits c.toNat ++ ['\x7d']
  else [c]

def quoteChars (text : List Char) : List Char := '"' :: text.flatMap escape ++ ['"']

def quoteString (text : String) : String := String.ofList (quoteChars text.toList)

/-- A character that starts a plain name: an ASCII letter or the underscore. -/
def isNameStart (c : Char) : Bool := c.isAlpha || c == '_'

/-- A character that continues a plain name. -/
def isNameChar (c : Char) : Bool := c.isAlphanum || c == '_'

/-- A name that can be written as it is. -/
def isPlainName : List Char → Bool
  | [] => false
  | c :: rest => isNameStart c && rest.all isNameChar

/-- A quoted identifier: a grave accent inside it is written twice. -/
def accentChars (name : List Char) : List Char :=
  accent :: name.flatMap (fun c => if c = accent then [accent, accent] else [c]) ++ [accent]

/-- An identifier, quoted only if it is not a plain name. -/
def quoteIdentifier (name : String) : String :=
  if isPlainName name.toList then name else String.ofList (accentChars name.toList)

/-- A map key: a plain name as it is, anything else as a string literal. -/
def quoteKey (name : String) : String :=
  if isPlainName name.toList then name else quoteString name

end LogRules.Text
