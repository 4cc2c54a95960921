import FleetTelemetry.Lib.FlatBuffersRuntime

/-!
# The generated FlatBuffers bindings

`tesla_generated`: the accessors of `FlatbuffersEnvelope` and `FlatbuffersStream`
and the functions that build an envelope.  The `[ubyte]` fields share one accessor
and one length, with the field's vtable offset as parameter.
-/

namespace FleetTelemetry

open FlatBuffers

abbrev Bytes := List UInt8

/-- A table of a buffer: the generated class after `Init(buf, pos)`. -/
structure Table where
  bytes : Bytes
  pos : Int

variable (rt : Runtime)

/-- Element `j` of a `[ubyte]` field. -/
def Table.element (t : Table) (vtableOffset j : Nat) : Option Nat :=
  (rt.offset t.bytes t.pos vtableOffset).bind fun o =>
    if o ≠ 0 then (rt.vector t.bytes t.pos o).bind fun a => rt.getUint8 t.bytes (a + j) else some 0

/-- Length of a `[ubyte]` field. -/
def Table.elementCount (t : Table) (vtableOffset : Nat) : Option Nat :=
  (rt.offset t.bytes t.pos vtableOffset).bind fun o =>
    if o ≠ 0 then rt.vectorLen t.bytes t.pos o else some 0

namespace FlatbuffersEnvelope

/-- `GetRootAs(buf, 0)` -/
def getRootAs (buf : Bytes) : Option Table := (rt.getUint32 buf 0).map fun (n : Nat) => ⟨buf, n + 0⟩

def txid (t : Table) : Nat → Option Nat := t.element rt 4

def txidLength (t : Table) : Option Nat := t.elementCount rt 4

def topic (t : Table) : Nat → Option Nat := t.element rt 6

def topicLength (t : Table) : Option Nat := t.elementCount rt 6

def messageType (t : Table) : Option Nat :=
  (rt.offset t.bytes t.pos 8).bind fun o =>
    if o ≠ 0 then rt.getUint8 t.bytes (o + t.pos) else some 0

/-- `Message()`: the union's table, `None` when absent. -/
def message (t : Table) : Option (Option Table) :=
  (rt.offset t.bytes t.pos 10).bind fun o =>
    if o ≠ 0 then (rt.union t.bytes t.pos o).map fun pos => some ⟨t.bytes, pos⟩ else some none

def messageId (t : Table) : Nat → Option Nat := t.element rt 12

def messageIdLength (t : Table) : Option Nat := t.elementCount rt 12

def start (b : rt.Builder) : Option rt.Builder := rt.startObject b 5

def addTxid (b : rt.Builder) (txid : Nat) : Option rt.Builder :=
  rt.prependUOffsetTRelativeSlot b 0 txid 0

def addTopic (b : rt.Builder) (topic : Nat) : Option rt.Builder :=
  rt.prependUOffsetTRelativeSlot b 1 topic 0

def addMessageType (b : rt.Builder) (messageType : Nat) : Option rt.Builder :=
  rt.prependUint8Slot b 2 messageType 0

def addMessage (b : rt.Builder) (message : Nat) : Option rt.Builder :=
  rt.prependUOffsetTRelativeSlot b 3 message 0

def addMessageId (b : rt.Builder) (messageId : Nat) : Option rt.Builder :=
  rt.prependUOffsetTRelativeSlot b 4 messageId 0

/-- `FlatbuffersEnvelopeEnd` -/
def finish (b : rt.Builder) : Option (rt.Builder × Nat) := rt.endObject b

end FlatbuffersEnvelope

namespace FlatbuffersStream

def createdAt (t : Table) : Option Nat :=
  (rt.offset t.bytes t.pos 4).bind fun o =>
    if o ≠ 0 then rt.getUint32 t.bytes (o + t.pos) else some 0

def senderId (t : Table) : Nat → Option Nat := t.element rt 6

def senderIdLength (t : Table) : Option Nat := t.elementCount rt 6

def payload (t : Table) : Nat → Option Nat := t.element rt 8

def payloadLength (t : Table) : Option Nat := t.elementCount rt 8

def deviceType (t : Table) : Nat → Option Nat := t.element rt 10

def deviceTypeLength (t : Table) : Option Nat := t.elementCount rt 10

def deviceId (t : Table) : Nat → Option Nat := t.element rt 12

def deviceIdLength (t : Table) : Option Nat := t.elementCount rt 12

end FlatbuffersStream

namespace FlatbuffersStreamAck

def start (b : rt.Builder) : Option rt.Builder := rt.startObject b 0

/-- `FlatbuffersStreamAckEnd` -/
def finish (b : rt.Builder) : Option (rt.Builder × Nat) := rt.endObject b

end FlatbuffersStreamAck

end FleetTelemetry
