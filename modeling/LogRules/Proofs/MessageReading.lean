import LogRules.Proofs.JsonReading
import LogRules.Proofs.SortedEntries

/-!
Messages are read back from their JSON. Every value keeps its kind at every depth: integers have
neither a point nor an exponent, and floats have one or the other.
-/
namespace LogRules

namespace Value

mutual

/-- A value and all values inside it. -/
def parts : Value → List Value
  | null => [null]
  | boolean flag => [boolean flag]
  | long n => [long n]
  | double x => [double x]
  | string text => [string text]
  | list items => list items :: partsItems items
  | map entries => map entries :: partsEntries entries

def partsItems : List Value → List Value
  | [] => []
  | v :: rest => parts v ++ partsItems rest

def partsEntries : List (String × Value) → List Value
  | [] => []
  | (_, v) :: rest => parts v ++ partsEntries rest

end

mutual

/-- How deep lists and maps stand inside each other. -/
def nesting : Value → Nat
  | null | boolean _ | long _ | double _ | string _ => 0
  | list items => nestingItems items + 1
  | map entries => nestingEntries entries + 1

def nestingItems : List Value → Nat
  | [] => 0
  | v :: rest => max (nesting v) (nestingItems rest)

def nestingEntries : List (String × Value) → Nat
  | [] => 0
  | (_, v) :: rest => max (nesting v) (nestingEntries rest)

end

end Value

/-- A number of a document as a float: integers are rounded. -/
def JsonScalar.toDouble : JsonScalar → Double
  | integer n => Double.ofInt n
  | float x => x

/-- A document read where a float is asked for. -/
def Json.double? : Json → Option Double
  | number n => n.scalar?.map JsonScalar.toDouble
  | _ => none

/-- What JSON can carry, apart from what is inside: a float that is finite and that its text reads
back as where a float is asked for, and a map in the order of its keys. -/
def Value.Carried : Value → Prop
  | double x =>
    x.isFinite = true ∧ (Json.read? (NumberLayout.json.text x)).bind Json.double? = some x
  | map entries => Entries.Sorted entries
  | _ => True

namespace Json

theorem toList_array (items : List JsonText) : (JsonText.array items).compact.toList =
    '[' :: ([','].intercalate ((JsonText.compactItems items).map String.toList) ++ [']']) := by
  rw [JsonText.compact]
  simp [String.toList_intercalate]

theorem toList_object (members : List (String × JsonText)) :
    (JsonText.object members).compact.toList =
      '\x7b' :: ([','].intercalate ((JsonText.compactMembers members).map String.toList) ++
        ['\x7d']) := by
  rw [JsonText.compact]
  simp [String.toList_intercalate]

/-- The text of a float that reads back where a float is asked for stands for a float wherever it
is read, and never for an integer. -/
theorem reads_double {x : Double} (hx : (Value.double x).Carried) :
    ∃ json, Reads (NumberLayout.json.text x).toList json ∧
      ∀ room, value? room json = some (.double x) := by
  obtain ⟨hfinite, hread⟩ := hx
  obtain ⟨n, hn, hfractional, htext⟩ := NumberLayout.exists_spelling_text hfinite
  have hreads : Reads (NumberLayout.json.text x).toList (.number n) := htext ▸ reads_number hn
  rw [hreads.read?, Option.bind_some, double?, Option.map_eq_some_iff] at hread
  obtain ⟨scalar, hscalar, hvalue⟩ := hread
  obtain ⟨y, rfl⟩ := hfractional.scalar? scalar hscalar
  obtain rfl : y = x := hvalue
  refine ⟨.number n, hreads, fun room => ?_⟩
  rw [value?, hscalar]
  rfl

theorem reads_long (i : Int64) : ∃ json, Reads (toString i.toInt).toList json ∧
    ∀ room, value? room json = some (.long i) := by
  have hleast : Long.least ≤ i.toInt := i.le_toInt
  have hgreatest : i.toInt ≤ Long.greatest := Int.le_sub_one_of_lt i.toInt_lt
  refine ⟨.number (.ofInt i.toInt), ?_, fun room => ?_⟩
  · rw [← JsonNumber.text_ofInt]
    exact reads_number (JsonNumber.proper_ofInt _)
  · rw [value?, JsonNumber.scalar?_ofInt hleast hgreatest, Option.map_some]
    simp only [Long.ofInt?, if_pos (And.intro hleast hgreatest), Int64.ofInt_toInt]

mutual

/-- The text of a value that JSON can carry is read as a document that stands for this value where
there is room for it. -/
theorem reads_value : ∀ v : Value, (∀ part ∈ v.parts, part.Carried) →
    ∃ json, Reads v.toJson.compact.toList json ∧
      ∀ room, v.nesting ≤ room → value? room json = some v
  | .null, _ => ⟨.null, reads_null, fun _ _ => rfl⟩
  | .boolean flag, _ => ⟨.boolean flag, reads_boolean flag, fun _ _ => rfl⟩
  | .long n, _ => by
    obtain ⟨json, hreads, hvalue⟩ := reads_long n
    exact ⟨json, hreads, fun room _ => hvalue room⟩
  | .double x, h => by
    have hx := h _ List.mem_cons_self
    obtain ⟨json, hreads, hvalue⟩ := reads_double hx
    refine ⟨json, ?_, fun room _ => hvalue room⟩
    rw [Value.toJson, if_pos hx.1]
    exact hreads
  | .string text, _ => by
    refine ⟨.string (unitsOf text), reads_string text, fun room _ => ?_⟩
    rw [value?, string?_unitsOf]
    rfl
  | .list items, h => by
    rw [Value.parts] at h
    obtain ⟨jsons, hreads, hvalues⟩ := reads_items items (List.forall_mem_cons.mp h).2
    refine ⟨.array jsons, ?_, fun room hroom => ?_⟩
    · rw [Value.toJson, toList_array]
      exact reads_array hreads
    · rw [Value.nesting] at hroom
      rw [value?, if_neg (by omega), hvalues _ (by omega)]
      rfl
  | .map entries, h => by
    rw [Value.parts] at h
    obtain ⟨hsorted, hinside⟩ := List.forall_mem_cons.mp h
    obtain ⟨members, hreads, hvalues⟩ := reads_entries entries hinside
    refine ⟨.object members, ?_, fun room hroom => ?_⟩
    · rw [Value.toJson, toList_object]
      exact reads_object hreads
    · rw [Value.nesting] at hroom
      rw [value?, if_neg (by omega), hvalues _ (by omega), Option.map_some,
        hsorted.ofList_eq]

theorem reads_items : ∀ items : List Value, (∀ part ∈ Value.partsItems items, part.Carried) →
    ∃ jsons, List.Forall₂ Reads
        ((JsonText.compactItems (Value.toJsonItems items)).map String.toList) jsons ∧
      ∀ room, Value.nestingItems items ≤ room → values? room jsons = some items
  | [], _ => ⟨[], .nil, fun _ _ => rfl⟩
  | v :: rest, h => by
    rw [Value.partsItems, List.forall_mem_append] at h
    obtain ⟨json, hreads, hvalue⟩ := reads_value v h.1
    obtain ⟨jsons, hothers, hvalues⟩ := reads_items rest h.2
    refine ⟨json :: jsons, .cons hreads hothers, fun room hroom => ?_⟩
    rw [Value.nestingItems] at hroom
    rw [values?, hvalue room (by omega), hvalues room (by omega)]
    rfl

theorem reads_entries : ∀ entries : List (String × Value),
    (∀ part ∈ Value.partsEntries entries, part.Carried) →
    ∃ members, List.Forall₂ ReadsMember
        ((JsonText.compactMembers (Value.toJsonEntries entries)).map String.toList) members ∧
      ∀ room, Value.nestingEntries entries ≤ room → entries? room members = some entries
  | [], _ => ⟨[], .nil, fun _ _ => rfl⟩
  | (key, v) :: rest, h => by
    rw [Value.partsEntries, List.forall_mem_append] at h
    obtain ⟨json, hreads, hvalue⟩ := reads_value v h.1
    obtain ⟨members, hothers, hvalues⟩ := reads_entries rest h.2
    refine ⟨(unitsOf key, json) :: members, .cons ⟨key, _, ?_, rfl, hreads⟩ hothers,
      fun room hroom => ?_⟩
    · simp
    · rw [Value.nestingEntries] at hroom
      rw [entries?, string?_unitsOf, hvalue room (by omega), hvalues room (by omega)]
      rfl

end

theorem texts?_strings (names : List String) :
    texts? (.array (names.map fun name => .string (unitsOf name))) = some names := by
  induction names with
  | nil => rfl
  | cons name rest ih =>
    rw [texts?] at ih ⊢
    rw [List.map_cons, List.mapM_cons, text?, string?_unitsOf, ih]
    rfl

theorem reads_strings (names : List String) : List.Forall₂ Reads
    ((JsonText.compactItems (names.map .ofString)).map String.toList)
    (names.map fun name => .string (unitsOf name)) := by
  induction names with
  | nil => exact .nil
  | cons name rest ih => exact .cons (reads_string name) ih

theorem readsMember_member (name : String) {value : JsonText} {json : Json}
    (h : Reads value.compact.toList json) :
    ReadsMember (JsonText.quote name ++ ":" ++ value.compact).toList (unitsOf name, json) :=
  ⟨name, _, by simp, rfl, h⟩

end Json

namespace MessageId

theorem hexDigit?_digitChar : ∀ d < 16, Digits.hexDigit? (Nat.digitChar d) = some d := by
  decide

theorem hexDigit?_digit (id : MessageId) (place : Nat) :
    Digits.hexDigit? (id.digit place) = some (id.bits.toNat / 16 ^ (31 - place) % 16) :=
  hexDigit?_digitChar _ (Nat.mod_lt _ (by decide))

/-- The first digits of an identifier write the number that the others are cut off from. -/
theorem hexValue_digits (id : MessageId) {count : Nat} (h : count ≤ 32) :
    Digits.hexValue (id.digits 0 count) = id.bits.toNat / 16 ^ (32 - count) := by
  induction count with
  | zero => exact (Nat.div_eq_of_lt id.bits.isLt).symm
  | succ k ih =>
    have hdigits : id.digits 0 (k + 1) = id.digits 0 k ++ [id.digit k] := by
      simp [digits, List.range_succ]
    have hcut : id.bits.toNat / 16 ^ (32 - k) = id.bits.toNat / 16 ^ (31 - k) / 16 := by
      rw [Nat.div_div_eq_div_mul, ← pow_succ]
      congr 2
      omega
    have hlast : 32 - (k + 1) = 31 - k := by omega
    have hbefore := ih (by omega)
    rw [Digits.hexValue] at hbefore ⊢
    rw [hdigits, List.filterMap_append, List.foldl_append, hbefore, hcut, hlast]
    simp only [List.filterMap_cons, hexDigit?_digit, List.filterMap_nil, List.foldl_cons,
      List.foldl_nil]
    omega

theorem readDigits?_digits (id : MessageId) : readDigits? (id.digits 0 32) = some id := by
  have hlength : (id.digits 0 32).length = 32 := by simp [digits]
  have hall : (id.digits 0 32).all Digits.isHexDigit = true := by
    simp [digits, Digits.isHexDigit, hexDigit?_digit]
  rw [readDigits?, if_pos ⟨hlength, hall⟩, hexValue_digits id (Nat.le_refl 32)]
  simp

/-- An identifier is read back from its text. -/
theorem read?_text (id : MessageId) : read? id.text = some id := by
  have htext : id.text.toList = id.digits 0 8 ++ '-' :: id.digits 8 4 ++ '-' :: id.digits 12 4 ++
      '-' :: id.digits 16 4 ++ '-' :: id.digits 20 12 := String.toList_ofList
  have hgroups : readGroups? id.text.toList = readDigits? (id.digits 0 32) := by
    rw [htext, readGroups?, if_pos ⟨rfl, rfl⟩]
    rfl
  have hlength : id.text.toList.length = 36 := by
    rw [htext]
    rfl
  rw [read?]
  simp only [hlength]
  rw [if_neg (by decide), if_pos trivial, hgroups, readDigits?_digits]

end MessageId

namespace Message

/-- All values in the fields of a message, at every depth. -/
def values (m : Message) : List Value := Value.partsEntries m.fields

/-- How deep lists and maps may stand inside each other in a field. -/
def fieldRoom : Nat := Json.maxDepth - 2

theorem read?_toJson {m : Message} (hvalues : ∀ value ∈ m.values, value.Carried) :
    ∃ members, Json.read? m.toJson.compact = some (.object [
        (Json.unitsOf "id", .string (Json.unitsOf m.id.text)),
        (Json.unitsOf "timestamp", .string (Json.unitsOf m.timestamp.text)),
        (Json.unitsOf "fields", .object members),
        (Json.unitsOf "streams", .array (m.streams.map fun name => .string (Json.unitsOf name))),
        (Json.unitsOf "dropped", .boolean m.dropped)]) ∧
      ∀ room, Value.nestingEntries m.fields ≤ room →
        Json.entries? room members = some m.fields := by
  obtain ⟨members, hreads, hentries⟩ := Json.reads_entries m.fields hvalues
  refine ⟨members, Json.Reads.read? ?_, hentries⟩
  rw [toJson, Json.toList_object]
  have hfields := Json.reads_object hreads
  rw [← Json.toList_object] at hfields
  have hstreams := Json.reads_array (Json.reads_strings m.streams)
  rw [← Json.toList_array] at hstreams
  exact Json.reads_object (.cons (Json.readsMember_member "id" (Json.reads_string _))
    (.cons (Json.readsMember_member "timestamp" (Json.reads_string _))
    (.cons (Json.readsMember_member "fields" hfields)
    (.cons (Json.readsMember_member "streams" hstreams)
    (.cons (Json.readsMember_member "dropped" (Json.reads_boolean _)) .nil)))))

theorem members?_object (id timestamp fields streams dropped : Json) :
    Json.members? memberNames (.object [(Json.unitsOf "id", id),
        (Json.unitsOf "timestamp", timestamp), (Json.unitsOf "fields", fields),
        (Json.unitsOf "streams", streams), (Json.unitsOf "dropped", dropped)]) =
      some [some id, some timestamp, some fields, some streams, some dropped] := by
  simp [Json.members?, Json.string?_unitsOf, memberNames]

theorem nestingEntries_le {entries : Entries Value} {room : Nat}
    (h : ∀ entry ∈ entries, entry.2.nesting ≤ room) : Value.nestingEntries entries ≤ room := by
  induction entries with
  | nil => exact Nat.zero_le room
  | cons first rest ih =>
    obtain ⟨hfirst, hrest⟩ := List.forall_mem_cons.mp h
    exact Nat.max_le.mpr ⟨hfirst, ih hrest⟩

/-- A message is read back from its JSON as it is: the same values of the same kinds at every depth,
the same streams and the same mark of a dropped message. Its maps and streams are in order, its
values nest no deeper than can be read and its floats are finite. Of the reading of floats it is
assumed only that a float comes back where one is asked for; nothing asks for one in a message. The
timestamp is assumed to be read back from its text. -/
theorem ofJson?_toJson {m : Message} (hfields : m.fields.Sorted)
    (hmaps : ∀ entries, Value.map entries ∈ m.values → Entries.Sorted entries)
    (hstreams : m.streams.Pairwise (· < ·))
    (hnesting : ∀ entry ∈ m.fields, entry.2.nesting ≤ fieldRoom)
    (hfinite : ∀ x, Value.double x ∈ m.values → x.isFinite = true)
    (hdoubles : ∀ x, Value.double x ∈ m.values →
      (Json.read? (NumberLayout.json.text x)).bind Json.double? = some x)
    (htimestamp : Instant.read? m.timestamp.text = some m.timestamp) :
    ofJson? m.toJson.compact = some m := by
  have hvalues : ∀ value ∈ m.values, value.Carried := by
    intro value hvalue
    cases value with
    | double x => exact ⟨hfinite x hvalue, hdoubles x hvalue⟩
    | map entries => exact hmaps entries hvalue
    | _ => trivial
  obtain ⟨members, hread, hentries⟩ := read?_toJson hvalues
  have hdecoded : Json.fields? (Json.maxDepth - 1) (.object members) = some m.fields := by
    have hroom := hentries (Json.maxDepth - 1 - 1) (nestingEntries_le hnesting)
    rw [Json.fields?, if_neg (by decide), hroom, Option.map_some, hfields.ofList_eq]
  rw [ofJson?, hread]
  simp only [Option.bind_eq_bind, Option.bind_some, members?_object, ofMembers?, Json.text?,
    Json.string?_unitsOf, Json.orElse, Json.boolean?, Json.texts?_strings, hdecoded,
    MessageId.read?_text, htimestamp, foldl_insertName hstreams]
  rfl

/-- Values of every kind, some of them inside others, with a float that is an integer. -/
def carriedEntries : Entries Value :=
  [("items", .list [.null, .double ⟨0x3ff8000000000000⟩, .double ⟨0x3ff0000000000000⟩, .list []]),
    ("text", .string "a \"quoted\"\n\x01 text")]

def carriedMessage : Message where
  id := ⟨0x00112233445566778899aabbccddeeff⟩
  timestamp := .epoch
  fields := [("last", .long Int64.maxValue), ("nested", .map carriedEntries), ("one", .long 1),
    ("zero", .double ⟨0x8000000000000000⟩)]
  streams := ["audit", "default"]
  dropped := true

theorem ofJson?_toJson_carriedMessage :
    ofJson? carriedMessage.toJson.compact = some carriedMessage := by
  have hvalues : carriedMessage.values = [.long Int64.maxValue, .map carriedEntries,
      .list [.null, .double ⟨0x3ff8000000000000⟩, .double ⟨0x3ff0000000000000⟩, .list []], .null,
      .double ⟨0x3ff8000000000000⟩, .double ⟨0x3ff0000000000000⟩, .list [],
      .string "a \"quoted\"\n\x01 text", .long 1, .double ⟨0x8000000000000000⟩] := rfl
  have hmaps : ∀ entries, Value.map entries ∈ carriedMessage.values → entries = carriedEntries := by
    simp [hvalues]
  have hfloats : ∀ x, Value.double x ∈ carriedMessage.values →
      x = ⟨0x3ff8000000000000⟩ ∨ x = ⟨0x3ff0000000000000⟩ ∨ x = ⟨0x8000000000000000⟩ := by
    simp [hvalues]
  have hsorted {entries : Entries Value} (h : entries.keys.Pairwise (· < ·)) : entries.Sorted :=
    List.pairwise_map.mp h
  refine ofJson?_toJson (hsorted (by decide)) (fun entries hentries => ?_) (by decide) (by decide)
    (fun x hx => ?_) (fun x hx => ?_) (by decide +kernel)
  · rw [hmaps entries hentries]
    exact hsorted (by decide)
  · obtain rfl | rfl | rfl := hfloats x hx <;> decide
  · obtain rfl | rfl | rfl := hfloats x hx <;> decide +kernel

end Message

end LogRules
