import LogRules.Config
import LogRules.Json.Number
import LogRules.Json.Read
import LogRules.Message

/-!
Values, messages and settings decoded from JSON. Values may nest only so deep. Records are objects
with each known member at most once, or arrays of their members in order.
-/
namespace LogRules

namespace Json

/-- The text of a string. Two escaped halves of a surrogate pair make one character, and a half that
stands alone makes the string unreadable. -/
def textOf? : List JsonUnit → Option (List Char)
  | [] => some []
  | .char c :: rest => (textOf? rest).map (c :: ·)
  | .escaped high :: rest =>
    if high < 0xd800 ∨ 0xdfff < high then (textOf? rest).map (Char.ofNat high :: ·)
    else match rest with
      | .escaped low :: rest =>
        if high < 0xdc00 ∧ 0xdc00 ≤ low ∧ low ≤ 0xdfff then
          let code := 0x10000 + (high - 0xd800) * 0x400 + (low - 0xdc00)
          (textOf? rest).map (Char.ofNat code :: ·)
        else none
      | _ => none

def string? (units : List JsonUnit) : Option String := (textOf? units).map String.ofList

/-- How deep a document may nest, counted in arrays and objects. -/
def maxDepth : Nat := 127

mutual

/-- A value. Integers beyond 64 bits with a sign are floats; `room` is how deep it may nest. -/
def value? (room : Nat) : Json → Option Value
  | null => some .null
  | boolean flag => some (.boolean flag)
  | number n => (n.scalar?).map fun scalar => match scalar with
    | .integer i => match Long.ofInt? i with
      | some long => .long long
      | none => .double (Double.ofInt i)
    | .float x => .double x
  | string units => (string? units).map .string
  | array items => if room = 0 then none else (values? (room - 1) items).map .list
  | object members =>
    if room = 0 then none
    else (entries? (room - 1) members).map fun pairs => .map (Entries.ofList pairs)

def values? (room : Nat) : List Json → Option (List Value)
  | [] => some []
  | item :: rest => do
    let first ← value? room item
    let others ← values? room rest
    return first :: others

def entries? (room : Nat) : List (List JsonUnit × Json) → Option (List (String × Value))
  | [] => some []
  | (key, item) :: rest => do
    let name ← string? key
    let first ← value? room item
    let others ← entries? room rest
    return (name, first) :: others

end

/-- The fields of a message: an object of values. Of two members of one name the later one stays. -/
def fields? (room : Nat) : Json → Option (Entries Value)
  | object members =>
    if room = 0 then none else (entries? (room - 1) members).map Entries.ofList
  | _ => none

def boolean? : Json → Option Bool
  | boolean flag => some flag
  | _ => none

def text? : Json → Option String
  | string units => string? units
  | _ => none

def optionalText? : Json → Option (Option String)
  | null => some none
  | json => (text? json).map some

def texts? : Json → Option (List String)
  | array items => items.mapM text?
  | _ => none

/-- An integer that is not negative and has at most 64 bits. -/
def natural? : Json → Option Nat
  | number n => match n.scalar? with
    | some (.integer i) => if 0 ≤ i then some i.toNat else none
    | _ => none
  | _ => none

/-- The known members of a record in their order, each with the document it has, if it has one.
Unknown members of an object are passed over; a known one that is repeated is refused. -/
def members? (names : List String) : Json → Option (List (Option Json))
  | object members => do
    let keys ← members.mapM fun (key, _) => string? key
    let known := (keys.zip (members.map (·.2))).filter fun (key, _) => names.contains key
    if names.any fun name => 1 < known.countP (·.1 == name) then none
    else return names.map fun name => (known.find? (·.1 == name)).map (·.2)
  | array items =>
    if names.length < items.length then none
    else some (items.map some ++ List.replicate (names.length - items.length) none)
  | _ => none

/-- A member that may be missing. -/
def orElse {α : Type} (decode : Json → Option α) (standard : α) : Option Json → Option α
  | none => some standard
  | some json => decode json

end Json

namespace Value

def ofJson? (text : String) : Option Value := (Json.read? text).bind (Json.value? Json.maxDepth)

def fieldsOfJson? (text : String) : Option (Entries Value) :=
  (Json.read? text).bind (Json.fields? Json.maxDepth)

end Value

namespace Message

def memberNames : List String := ["id", "timestamp", "fields", "streams", "dropped"]

def ofMembers? : List (Option Json) → Option Message
  | [some id, some timestamp, fields, streams, dropped] => do
    let id ← MessageId.read? (← id.text?)
    let timestamp ← Instant.read? (← timestamp.text?)
    let fields ← Json.orElse (Json.fields? (Json.maxDepth - 1)) [] fields
    let streams ← Json.orElse Json.texts? [] streams
    let dropped ← Json.orElse Json.boolean? false dropped
    return ⟨id, timestamp, fields, streams.foldl (fun names name => insertName name names) [],
      dropped⟩
  | _ => none

/-- The message of a JSON text. Only the identifier and the timestamp have to be there. -/
def ofJson? (text : String) : Option Message := do
  ofMembers? (← Json.members? memberNames (← Json.read? text))

end Message

namespace Config

def memberNames : List String :=
  ["compile_rules", "compile_threshold", "max_compile_depth", "processing_error_field"]

def ofMembers? : List (Option Json) → Option Config
  | [compileRules, compileThreshold, maxCompileDepth, errorField] => do
    let compileRules ← Json.orElse Json.boolean? standard.compileRules compileRules
    let compileThreshold ← Json.orElse Json.natural? standard.compileThreshold compileThreshold
    let maxCompileDepth ← Json.orElse Json.natural? standard.maxCompileDepth maxCompileDepth
    let errorField ← Json.orElse Json.optionalText? standard.errorField errorField
    return ⟨compileRules, compileThreshold, maxCompileDepth, errorField⟩
  | _ => none

/-- The settings of a JSON text; what is missing is as usual. -/
def ofJson? (text : String) : Option Config := do
  ofMembers? (← Json.members? memberNames (← Json.read? text))

end Config

end LogRules
