import LogRules.Function
import LogRules.NetAddress
import LogRules.Text.Blank
import LogRules.Text.Case
import LogRules.Text.Search
import LogRules.Value.Text

/-!
The functions that every rule can call: access to the fields of the message, conversions, text, and
private addresses.
-/
namespace LogRules.Builtin

/-- A function that looks at its arguments only. -/
def ofArgs (body : Args → Except EvalError Value) : Args → EvalM Value :=
  fun args => EvalM.lift (body args)

/-- A function that may also read the message. -/
def ofMessage (body : Args → Message → Except EvalError Value) : Args → EvalM Value :=
  fun args => do EvalM.lift (body args (← EvalM.message))

def fieldParam : Parameter := (Parameter.required "field" .string).describe "message field name"

def setField : Descriptor × (Args → EvalM Value) :=
  (((Descriptor.simple "set_field" .void [fieldParam, .required "value" .any]).impure).describe
      "Set a message field; null values are ignored",
    fun args => do
      let field ← EvalM.lift (args.requiredString "field")
      if field.isEmpty then
        throw (.failure args.function "field name must not be empty")
      match args.get? "value" with
      | some value => EvalM.changeMessage (·.setField field value)
      | none => pure ()
      return .null)

def hasField : Descriptor × (Args → EvalM Value) :=
  (.simple "has_field" .boolean [fieldParam],
    ofMessage fun args m => do
      let field ← args.requiredString "field"
      return .boolean (m.hasField field))

def removeField : Descriptor × (Args → EvalM Value) :=
  ((Descriptor.simple "remove_field" .void [fieldParam]).impure,
    fun args => do
      let field ← EvalM.lift (args.requiredString "field")
      EvalM.changeMessage (·.removeField field)
      return .null)

def getField : Descriptor × (Args → EvalM Value) :=
  (.simple "get_field" .any [fieldParam],
    ofMessage fun args m => do
      let field ← args.requiredString "field"
      return m.field field)

def toText : Descriptor × (Args → EvalM Value) :=
  (.simple "to_string" .string
      [.required "value" .any, (Parameter.omissible "default" .string).withDefault (.string "")],
    ofArgs fun args =>
      match args.get? "value" with
      | some value => .ok (.string value.plain)
      | none => .ok ((args.get? "default").getD .null))

/-- The integer that a value converts to. Fractions are cut off, and numbers outside the range
become its ends. -/
def longOf? : Value → Option Int64
  | .long n => some n
  | .double x =>
    if x.isFinite then
      some (Long.clamp x.truncate)
    else none
  | .string text => Long.read? (Text.trim text.toList)
  | .boolean flag => some (if flag then 1 else 0)
  | _ => none

def toLong : Descriptor × (Args → EvalM Value) :=
  (.simple "to_long" .long
      [.required "value" .any, (Parameter.omissible "default" .long).withDefault (.long 0)],
    ofArgs fun args =>
      match (args.get? "value").bind longOf? with
      | some n => .ok (.long n)
      | none => .ok ((args.get? "default").getD (.long 0)))

def doubleOf? : Value → Option Double
  | .string text => Double.read? (Text.trim text.toList)
  | value => value.asDouble?

def toDouble : Descriptor × (Args → EvalM Value) :=
  (.simple "to_double" .double
      [.required "value" .any, (Parameter.omissible "default" .double).withDefault (.double .zero)],
    ofArgs fun args =>
      match (args.get? "value").bind doubleOf? with
      | some x => .ok (.double x)
      | none => .ok ((args.get? "default").getD (.double .zero)))

def booleanOf : Value → Bool
  | .boolean flag => flag
  | .string text => (Text.trim text.toList).map Char.toLower == "true".toList
  | .long n => n != 0
  | .double x => !x.equal .zero
  | _ => false

def toBoolean : Descriptor × (Args → EvalM Value) :=
  (.simple "to_bool" .boolean [.required "value" .any],
    ofArgs fun args => .ok (.boolean (((args.get? "value").map booleanOf).getD false)))

def concat : Descriptor × (Args → EvalM Value) :=
  (.simple "concat" .string [.required "first" .string, .required "second" .string],
    ofArgs fun args =>
      let text (name : String) := ((args.get? name).map Value.plain).getD ""
      .ok (.string (text "first" ++ text "second")))

def lowercase : Descriptor × (Args → EvalM Value) :=
  (.simple "lowercase" .string [.required "value" .string],
    ofArgs fun args => do return .string (Text.lowercase (← args.requiredString "value")))

def uppercase : Descriptor × (Args → EvalM Value) :=
  (.simple "uppercase" .string [.required "value" .string],
    ofArgs fun args => do return .string (Text.uppercase (← args.requiredString "value")))

def contains : Descriptor × (Args → EvalM Value) :=
  (.simple "contains" .boolean
      [.required "value" .string, .required "search" .string,
        (Parameter.omissible "ignore_case" .boolean).withDefault (.boolean false)],
    ofArgs fun args => do
      let value ← args.requiredString "value"
      let sought ← args.requiredString "search"
      let ignoreCase ← args.optionalBoolean "ignore_case"
      if ignoreCase.getD false then
        return .boolean
          (Text.occursIn (Text.lowercase sought).toList (Text.lowercase value).toList)
      else return .boolean (Text.occursIn sought.toList value.toList))

def isNull : Descriptor × (Args → EvalM Value) :=
  (.simple "is_null" .boolean [.required "value" .any],
    ofArgs fun args => .ok (.boolean (args.get? "value").isNone))

/-- Whether the address that a text writes is private. -/
def privateAddress (args : Args) (text : String) : Except EvalError Value :=
  match NetAddress.read? (Text.trim text.toList) with
  | some address => .ok (.boolean address.isPrivate)
  | none => .error (.failure args.function s!"'{text}' is not an IP address")

def isPrivateIp : Descriptor × (Args → EvalM Value) :=
  (.simple "is_private_ip" .boolean [.required "ip" .string],
    ofArgs fun args => do privateAddress args (← args.requiredString "ip"))

def sourceIpIsPrivate : Descriptor × (Args → EvalM Value) :=
  ((Descriptor.simple "source_ip_is_private" .boolean
      [((Parameter.omissible "field" .string).withDefault (.string "source")).describe
        "field holding the address"]).describe
      "Whether the message's source address is private; false when absent",
    ofMessage fun args m => do
      let field ← args.requiredString "field"
      match m.field field with
      | .string text => privateAddress args text
      | .null => return .boolean false
      | other => throw (.mismatch .string other))

def dropMessage : Descriptor × (Args → EvalM Value) :=
  (((Descriptor.simple "drop_message" .void []).impure).describe
      "Stop processing after the current stage and discard the message",
    fun _ => do
      EvalM.changeMessage (·.setDropped true)
      return .null)

def definitions : List (Descriptor × (Args → EvalM Value)) :=
  [setField, hasField, removeField, getField, toText, toLong, toDouble, toBoolean, concat,
    lowercase, uppercase, contains, isNull, isPrivateIp, sourceIpIsPrivate, dropMessage]

def all (generation : Nat) : List Function :=
  definitions.map fun (descriptor, run) => ⟨⟨generation, descriptor.name⟩, descriptor, run⟩

end LogRules.Builtin
