import LogRules.Number.Reading

/-!
Identifiers of messages: 128 bits, written as hexadecimal digits in five groups.
-/
namespace LogRules

structure MessageId where
  bits : BitVec 128
deriving DecidableEq, Inhabited, Repr

namespace MessageId

-- The instance of the core library, whatever else a file has in scope.
attribute [local instance (high)] instPowNat

def nil : MessageId := ⟨0⟩

/-- Thirty-two digits without hyphens. -/
def readDigits? (text : List Char) : Option MessageId :=
  if text.length = 32 ∧ text.all Digits.isHexDigit then
    some ⟨BitVec.ofNat 128 (Digits.hexValue text)⟩
  else none

/-- Groups of 8, 4, 4, 4 and 12 digits with hyphens between them. -/
def readGroups? (text : List Char) : Option MessageId :=
  if text.length = 36 ∧ [8, 13, 18, 23].all (fun i => text[i]? == some '-') then
    readDigits? (text.take 8 ++ (text.drop 9).take 4 ++ (text.drop 14).take 4 ++
      (text.drop 19).take 4 ++ text.drop 24)
  else none

/-- The accepted spellings: digits alone, groups, groups in braces, and groups behind `urn:uuid:`
in letters of either case. -/
def read? (text : String) : Option MessageId :=
  let cs := text.toList
  if cs.length = 32 then readDigits? cs
  else if cs.length = 36 then readGroups? cs
  else if cs.length = 38 ∧ cs.head? = some '\x7b' ∧ cs.getLast? = some '\x7d' then
    readGroups? (cs.drop 1).dropLast
  else if cs.length = 45 ∧ (cs.take 9).map Char.toLower = "urn:uuid:".toList then
    readGroups? (cs.drop 9)
  else none

/-- The hexadecimal digit at a place, counted from the most significant. -/
def digit (id : MessageId) (place : Nat) : Char :=
  Nat.digitChar (id.bits.toNat / 16 ^ (31 - place) % 16)

def digits (id : MessageId) (first count : Nat) : List Char :=
  (List.range count).map fun i => id.digit (first + i)

/-- Groups of lowercase digits. -/
def text (id : MessageId) : String :=
  String.ofList (id.digits 0 8 ++ '-' :: id.digits 8 4 ++ '-' :: id.digits 12 4 ++
    '-' :: id.digits 16 4 ++ '-' :: id.digits 20 12)

end MessageId

end LogRules
