/-!
Documents to be written as JSON, on one line or over many lines.
-/
namespace LogRules

/-- A document whose scalars have their text already. -/
inductive JsonText
  | atom (text : String)
  | array (items : List JsonText)
  | object (members : List (String × JsonText))
deriving Inhabited

namespace JsonText

def hexDigit (n : Nat) : Char := Nat.digitChar n

def escape (c : Char) : List Char :=
  if c = '"' then ['\\', '"']
  else if c = '\\' then ['\\', '\\']
  else if c = '\n' then ['\\', 'n']
  else if c = '\r' then ['\\', 'r']
  else if c = '\t' then ['\\', 't']
  else if c = '\x08' then ['\\', 'b']
  else if c = '\x0c' then ['\\', 'f']
  else if c.toNat < 0x20 then
    ['\\', 'u', '0', '0', hexDigit (c.toNat / 16), hexDigit (c.toNat % 16)]
  else [c]

def quote (text : String) : String := String.ofList ('"' :: text.toList.flatMap escape ++ ['"'])

def ofString (text : String) : JsonText := .atom (quote text)

def ofBoolean (flag : Bool) : JsonText := .atom (if flag then "true" else "false")

def ofNat (n : Nat) : JsonText := .atom (toString n)

def null : JsonText := .atom "null"

mutual

/-- The document without any space. -/
def compact : JsonText → String
  | atom text => text
  | array items => "[" ++ ",".intercalate (compactItems items) ++ "]"
  | object members => "\x7b" ++ ",".intercalate (compactMembers members) ++ "\x7d"

def compactItems : List JsonText → List String
  | [] => []
  | item :: rest => compact item :: compactItems rest

def compactMembers : List (String × JsonText) → List String
  | [] => []
  | (key, value) :: rest => (quote key ++ ":" ++ compact value) :: compactMembers rest

end

def newline (level : Nat) : String := "\n" ++ String.ofList (List.replicate (2 * level) ' ')

/-- Parts one level deeper than what encloses them; without parts the ends stand together. -/
def enclose (level : Nat) (opening closing : String) (parts : List String) : String :=
  if parts.isEmpty then opening ++ closing
  else
    opening ++ newline (level + 1) ++ ("," ++ newline (level + 1)).intercalate parts ++
      newline level ++ closing

mutual

/-- The document with each part on a line of its own, at a level. -/
def prettyAt (level : Nat) : JsonText → String
  | atom text => text
  | array items => enclose level "[" "]" (prettyItems (level + 1) items)
  | object members => enclose level "\x7b" "\x7d" (prettyMembers (level + 1) members)

def prettyItems (level : Nat) : List JsonText → List String
  | [] => []
  | item :: rest => prettyAt level item :: prettyItems level rest

def prettyMembers (level : Nat) : List (String × JsonText) → List String
  | [] => []
  | (key, value) :: rest =>
    (quote key ++ ": " ++ prettyAt level value) :: prettyMembers level rest

end

def pretty (document : JsonText) : String := document.prettyAt 0

end JsonText

end LogRules
