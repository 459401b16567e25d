/-!
JSON documents as they are written: numbers and strings keep the spelling of the text, objects keep
every member. What a spelling stands for is decided where a document is decoded.
-/
namespace LogRules

/-- One part of a string: a character, or a unit of sixteen bits that was escaped by number. -/
inductive JsonUnit
  | char (c : Char)
  | escaped (unit : Nat)
deriving DecidableEq, Inhabited, Repr

/-- The spelling of a number. -/
structure JsonNumber where
  negative : Bool
  whole : List Char
  fraction : Option (List Char)
  /-- The sign of the exponent, true for minus, and its digits. -/
  exponent : Option (Bool × List Char)
deriving DecidableEq, Inhabited, Repr

inductive Json
  | null
  | boolean (flag : Bool)
  | number (n : JsonNumber)
  | string (units : List JsonUnit)
  | array (items : List Json)
  | object (members : List (List JsonUnit × Json))
deriving Inhabited

end LogRules
