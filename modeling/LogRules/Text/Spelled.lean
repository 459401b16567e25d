import LogRules.Text.HiddenTable
import LogRules.Text.Quoted
import LogRules.Text.Ranges

/-!
Names spelled for a person to read: in double quotes, with every character that has no glyph of its
own written by its code point.
-/
namespace LogRules.Text

def isHidden (c : Char) : Bool := inRanges hiddenRanges c.toNat

def spellChar (c : Char) : List Char :=
  if c.toNat = 0 then ['\\', '0']
  else if c = '\t' then ['\\', 't']
  else if c = '\r' then ['\\', 'r']
  else if c = '\n' then ['\\', 'n']
  else if c = '"' then ['\\', '"']
  else if c = '\\' then ['\\', '\\']
  else if isHidden c then ['\\', 'u', '\x7b'] ++ hexDigits c.toNat ++ ['\x7d']
  else [c]

/-- A name in a listing or a path in an error. -/
def spell (name : String) : String :=
  String.ofList ('"' :: name.toList.flatMap spellChar ++ ['"'])

end LogRules.Text
