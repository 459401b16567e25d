/-!
Readers of text: functions from a text to what they found and what is left of it.
-/
namespace LogRules.Text

/-- A reader; it finds nothing if the text does not start as it should. -/
abbrev Reader (α : Type) := List Char → Option (α × List Char)

end LogRules.Text
