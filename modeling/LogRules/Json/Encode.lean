import LogRules.Config
import LogRules.Json.Write
import LogRules.Message
import LogRules.Number.Layout

/-!
Values, messages and settings encoded as JSON.
-/
namespace LogRules

namespace Value

mutual

/-- The document of a value. Numbers that are not finite become null. -/
def toJson : Value → JsonText
  | null => .null
  | boolean flag => .ofBoolean flag
  | long n => .atom (toString n.toInt)
  | double x => if x.isFinite then .atom (NumberLayout.json.text x) else .null
  | string text => .ofString text
  | list items => .array (toJsonItems items)
  | map entries => .object (toJsonEntries entries)

def toJsonItems : List Value → List JsonText
  | [] => []
  | v :: rest => toJson v :: toJsonItems rest

def toJsonEntries : List (String × Value) → List (String × JsonText)
  | [] => []
  | (key, v) :: rest => (key, toJson v) :: toJsonEntries rest

end

end Value

def Message.toJson (m : Message) : JsonText :=
  .object [
    ("id", .ofString m.id.text),
    ("timestamp", .ofString m.timestamp.text),
    ("fields", .object (Value.toJsonEntries m.fields)),
    ("streams", .array (m.streams.map .ofString)),
    ("dropped", .ofBoolean m.dropped)]

def Config.toJson (c : Config) : JsonText :=
  .object [
    ("compile_rules", .ofBoolean c.compileRules),
    ("compile_threshold", .ofNat c.compileThreshold),
    ("max_compile_depth", .ofNat c.maxCompileDepth),
    ("processing_error_field", match c.errorField with
      | some field => .ofString field
      | none => .null)]

end LogRules
