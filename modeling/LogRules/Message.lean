import LogRules.Message.Id
import LogRules.Message.Instant
import LogRules.Value

/-!
Log messages: named fields, the streams a message went through, and whether a rule dropped it.
-/
namespace LogRules

/-- Fields and streams are in ascending order, each once. -/
structure Message where
  id : MessageId
  timestamp : Instant
  fields : Entries Value
  streams : List String
  dropped : Bool
deriving Inhabited

namespace Message

def empty (id : MessageId) (timestamp : Instant) : Message := ⟨id, timestamp, [], [], false⟩

def field? (m : Message) (name : String) : Option Value := m.fields.find? name

/-- The value of a field; null if there is none. -/
def field (m : Message) (name : String) : Value := (m.field? name).getD .null

def hasField (m : Message) (name : String) : Bool := m.fields.contains name

def setField (m : Message) (name : String) (value : Value) : Message :=
  { m with fields := m.fields.insert name value }

def removeField (m : Message) (name : String) : Message :=
  { m with fields := m.fields.erase name }

def addStream (m : Message) (stream : String) : Message :=
  { m with streams := insertName stream m.streams }

def setDropped (m : Message) (dropped : Bool) : Message := { m with dropped := dropped }

/-- Adds an entry to a field that collects error texts. Whatever is no text is replaced. -/
def appendError (m : Message) (name entry : String) : Message :=
  let text := match m.field? name with
    | some (.string existing) => if existing.isEmpty then entry else existing ++ "; " ++ entry
    | _ => entry
  m.setField name (.string text)

end Message

end LogRules
