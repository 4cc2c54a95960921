import FleetTelemetry.Envelope.Bindings
import FleetTelemetry.Lib.Dict
import FleetTelemetry.Lib.Utf8
import FleetTelemetry.Records.Proto

/-!
# Records

`Topic`, `Record` with `fields`, and `parseRecord`, the boundary to untrusted
bytes.  The protobuf runtime is a parameter: `parse topic payload` is what
`ParseFromString` of the topic's class reads, `none` when it raises `DecodeError`.

    parseTopic b = some t ↔ b = t.bytes        (parseTopic_eq_some)
-/

namespace FleetTelemetry

variable {V : Type}

inductive Topic where
  | data
  | alerts
  | errors
  | connectivity
deriving DecidableEq

namespace Topic

/-- The value of the `StrEnum` member. -/
def value : Topic → String
  | .data => "V"
  | .alerts => "alerts"
  | .errors => "errors"
  | .connectivity => "connectivity"

/-- `Topic(value)`, which raises `ValueError` for any other string. -/
def ofValue (value : String) : Option Topic :=
  [Topic.data, .alerts, .errors, .connectivity].find? (·.value = value)

/-- The octets of the topic on the wire. -/
def bytes (t : Topic) : Bytes := t.value.toList.map fun c => UInt8.ofNat c.toNat

/-- The message class `_PARSERS` maps the topic to. -/
def Message (V : Type) : Topic → Type
  | .data => Payload V
  | .alerts => VehicleAlerts
  | .errors => VehicleErrors
  | .connectivity => VehicleConnectivity

end Topic

/-- `createdAt` counts microseconds since the epoch. -/
structure Record (V : Type) where
  vin : String
  topic : Topic
  createdAt : Nat
  txid : String
  message : topic.Message V
  raw : Bytes

/-- The name a datum goes under: that of its `Field` number, else `Field_<int>`. -/
def signalName (key : Int) : String := (fieldName key).getD ("Field_" ++ toString key)

def Record.fields (r : Record V) : Dict String (Option V) :=
  match r with
  | ⟨_, .data, _, _, message, _⟩ =>
    message.data.foldl (fun result datum => result.set (signalName datum.key) datum.value) Dict.empty
  | _ => Dict.empty

/-- What `parse_record` raises: `ValueError` for a topic, protobuf's `DecodeError`, and the error
of `datetime.fromtimestamp`. -/
inductive ParseError where
  | unknownTopic (topic : Bytes)
  | decodeError
  | timestampOutOfRange

/-- `bytes.decode(errors="replace")` -/
def decodeReplace (b : Bytes) : String := String.ofList (Utf8.decodeReplace b)

/-- `Topic(topic.decode(errors="replace"))` -/
def parseTopic (topic : Bytes) : Option Topic := Topic.ofValue (decodeReplace topic)

/-- `datetime.fromtimestamp(created_at, tz=timezone.utc)`; the last second a `datetime` holds is
the end of the year 9999. -/
def fromtimestamp (createdAt : Nat) : Option Nat :=
  if createdAt ≤ 253402300799 then some (createdAt * 1000000) else none

def parseRecord (parse : (t : Topic) → Bytes → Option (t.Message V)) (vin : String)
    (topic txid : Bytes) (createdAt : Nat) (payload : Bytes) : Except ParseError (Record V) :=
  match parseTopic topic with
  | none => .error (.unknownTopic topic)
  | some t =>
    match parse t payload with
    | none => .error .decodeError
    | some message =>
      match fromtimestamp createdAt with
      | none => .error .timestampOutOfRange
      | some time => .ok ⟨vin, t, time, decodeReplace txid, message, payload⟩

/-! ## Lemmas -/

theorem Topic.ofValue_eq_some (s : String) (t : Topic) : ofValue s = some t ↔ t.value = s := by
  constructor
  · intro h
    simpa using List.find?_some h
  · rintro rfl
    cases t <;> decide

theorem Topic.value_ascii (t : Topic) : ∀ c ∈ t.value.toList, c.toNat < 0x80 := by
  cases t <;> simp [Topic.value]

/-- **The replacing decode accepts the four topics only as their own octets.** -/
theorem parseTopic_eq_some (topic : Bytes) (t : Topic) :
    parseTopic topic = some t ↔ topic = t.bytes := by
  unfold parseTopic decodeReplace
  rw [Topic.ofValue_eq_some]
  constructor
  · intro h
    have hl : Utf8.decodeReplace topic = t.value.toList := by rw [h, String.toList_ofList]
    have ha : ∀ c ∈ Utf8.decodeReplace topic, c.toNat < 0x80 := by
      rw [hl]; exact t.value_ascii
    have hm := Utf8.ascii_of_decodeReplace topic ha
    rw [hl] at hm
    unfold Topic.bytes
    calc topic = (topic.map UInt8.toNat).map UInt8.ofNat := by simp [Function.comp_def]
      _ = (t.value.toList.map Char.toNat).map UInt8.ofNat := by rw [hm]
      _ = t.value.toList.map fun c => UInt8.ofNat c.toNat := by rw [List.map_map]; rfl
  · rintro rfl
    cases t <;> decide

end FleetTelemetry
