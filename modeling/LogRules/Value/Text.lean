import LogRules.Number.Layout
import LogRules.Text.Quoted
import LogRules.Value

/-!
Two texts of a value: the literal that the rule language reads back, and the plain text that
string functions see.
-/
namespace LogRules.Value

mutual

/-- The source of a literal. -/
def literal : Value → String
  | null => "null"
  | boolean flag => if flag then "true" else "false"
  | long n => toString n.toInt
  | double x => NumberLayout.literal.text x
  | string text => Text.quoteString text
  | list items => "[" ++ ", ".intercalate (literalItems items) ++ "]"
  | map entries => "\x7b" ++ ", ".intercalate (literalEntries entries) ++ "\x7d"

def literalItems : List Value → List String
  | [] => []
  | v :: rest => literal v :: literalItems rest

def literalEntries : List (String × Value) → List String
  | [] => []
  | (key, v) :: rest => (Text.quoteKey key ++ ": " ++ literal v) :: literalEntries rest

end

mutual

/-- The plain text: nothing for null, strings as they are. -/
def plain : Value → String
  | null => ""
  | boolean flag => if flag then "true" else "false"
  | long n => toString n.toInt
  | double x => NumberLayout.plain.text x
  | string text => text
  | list items => "[" ++ ", ".intercalate (plainItems items) ++ "]"
  | map entries => "\x7b" ++ ", ".intercalate (plainEntries entries) ++ "\x7d"

def plainItems : List Value → List String
  | [] => []
  | v :: rest => plain v :: plainItems rest

def plainEntries : List (String × Value) → List String
  | [] => []
  | (key, v) :: rest => (key ++ "=" ++ plain v) :: plainEntries rest

end

end LogRules.Value
