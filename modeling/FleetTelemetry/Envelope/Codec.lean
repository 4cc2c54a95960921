import FleetTelemetry.Envelope.Bindings

/-!
# The transport envelope

`_envelope`: `messageType`, `decode`, `decodeAck`, `encodeAck`.  The read path turns
every exception of the bindings into `EnvelopeError`; `encodeAck` answers `none`
where the builder raises.

    readVector accessor n = some xs ↔
      xs.length = n ∧ ∀ j (hj : j < xs.length), accessor j = some xs[j].toNat    (readVector_eq_some)
-/

namespace FleetTelemetry

open FlatBuffers

/-! ## Algorithm -/

def MESSAGE_TYPE_STREAM : Nat := 4

def MESSAGE_TYPE_STREAM_ACK : Nat := 5

structure EnvelopeError where
  text : String
deriving DecidableEq

structure StreamFrame where
  topic : Bytes
  txid : Bytes
  senderId : Bytes
  deviceType : Bytes
  deviceId : Bytes
  payload : Bytes
  createdAt : Nat
  messageId : Bytes
deriving DecidableEq

structure AckFrame where
  topic : Bytes
  txid : Bytes
  messageId : Bytes
deriving DecidableEq

variable (rt : Runtime)

/-- `bytes` of one number, which raises outside `0..255`. -/
def toOctet (n : Nat) : Option UInt8 := if n < 256 then some (UInt8.ofNat n) else none

/-- `_read_vector`: the elements in order, up to the first that raises. -/
def readVector (accessor : Nat → Option Nat) : Nat → Option Bytes
  | 0 => some []
  | length + 1 => do
    let xs ← readVector accessor length
    let x ← (accessor length).bind toOctet
    return xs ++ [x]

/-- `except Exception as exc: raise EnvelopeError(text) from exc` -/
def orEnvelopeError {α : Type} (text : String) : Option α → Except EnvelopeError α
  | some a => .ok a
  | none => .error ⟨text⟩

/-- `_root` -/
def root (frame : Bytes) : Except EnvelopeError Table :=
  orEnvelopeError "frame is not a valid envelope" (FlatbuffersEnvelope.getRootAs rt frame)

def messageType (frame : Bytes) : Except EnvelopeError Nat := do
  let env ← root rt frame
  orEnvelopeError "failed to read envelope message type" (FlatbuffersEnvelope.messageType rt env)

/-- The arguments of `StreamFrame(...)`, read in their order. -/
def readStream (env stream : Table) : Option StreamFrame := do
  let topic ← readVector (FlatbuffersEnvelope.topic rt env) (← FlatbuffersEnvelope.topicLength rt env)
  let txid ← readVector (FlatbuffersEnvelope.txid rt env) (← FlatbuffersEnvelope.txidLength rt env)
  let senderId ←
    readVector (FlatbuffersStream.senderId rt stream) (← FlatbuffersStream.senderIdLength rt stream)
  let deviceType ←
    readVector (FlatbuffersStream.deviceType rt stream) (← FlatbuffersStream.deviceTypeLength rt stream)
  let deviceId ←
    readVector (FlatbuffersStream.deviceId rt stream) (← FlatbuffersStream.deviceIdLength rt stream)
  let payload ←
    readVector (FlatbuffersStream.payload rt stream) (← FlatbuffersStream.payloadLength rt stream)
  let createdAt ← FlatbuffersStream.createdAt rt stream
  let messageId ←
    readVector (FlatbuffersEnvelope.messageId rt env) (← FlatbuffersEnvelope.messageIdLength rt env)
  return ⟨topic, txid, senderId, deviceType, deviceId, payload, createdAt, messageId⟩

def decode (frame : Bytes) : Except EnvelopeError StreamFrame := do
  let env ← root rt frame
  let tag ← orEnvelopeError "failed to decode stream frame" (FlatbuffersEnvelope.messageType rt env)
  if tag ≠ MESSAGE_TYPE_STREAM then
    .error
      ⟨"expected Stream (type " ++ toString MESSAGE_TYPE_STREAM ++ "), got type " ++ toString tag⟩
  else
    let union ← orEnvelopeError "failed to decode stream frame" (FlatbuffersEnvelope.message rt env)
    match union with
    | none => .error ⟨"Stream envelope has no message value"⟩
    | some stream => orEnvelopeError "failed to decode stream frame" (readStream rt env stream)

/-- The arguments of `AckFrame(...)`. -/
def readAck (env : Table) : Option AckFrame := do
  let topic ← readVector (FlatbuffersEnvelope.topic rt env) (← FlatbuffersEnvelope.topicLength rt env)
  let txid ← readVector (FlatbuffersEnvelope.txid rt env) (← FlatbuffersEnvelope.txidLength rt env)
  let messageId ←
    readVector (FlatbuffersEnvelope.messageId rt env) (← FlatbuffersEnvelope.messageIdLength rt env)
  return ⟨topic, txid, messageId⟩

def decodeAck (frame : Bytes) : Except EnvelopeError AckFrame := do
  let env ← root rt frame
  let tag ← orEnvelopeError "failed to decode ack frame" (FlatbuffersEnvelope.messageType rt env)
  if tag ≠ MESSAGE_TYPE_STREAM_ACK then
    .error ⟨"expected StreamAck (type " ++ toString MESSAGE_TYPE_STREAM_ACK ++ "), got type " ++
      toString tag⟩
  else orEnvelopeError "failed to decode ack frame" (readAck rt env)

def encodeAck (txid topic messageId : Bytes) : Option Bytes := do
  let (builder, txidOff) ← rt.createByteVector rt.new txid
  let (builder, topicOff) ← rt.createByteVector builder topic
  let (builder, messageIdOff) ← rt.createByteVector builder messageId
  let builder ← FlatbuffersStreamAck.start rt builder
  let (builder, ackOff) ← FlatbuffersStreamAck.finish rt builder
  let builder ← FlatbuffersEnvelope.start rt builder
  let builder ← FlatbuffersEnvelope.addTxid rt builder txidOff
  let builder ← FlatbuffersEnvelope.addTopic rt builder topicOff
  let builder ← FlatbuffersEnvelope.addMessageType rt builder MESSAGE_TYPE_STREAM_ACK
  let builder ← FlatbuffersEnvelope.addMessage rt builder ackOff
  let builder ← FlatbuffersEnvelope.addMessageId rt builder messageIdOff
  let (builder, envOff) ← FlatbuffersEnvelope.finish rt builder
  let builder ← rt.finish builder envOff
  rt.output builder

/-! ## Lemmas -/

theorem toOctet_eq_some {n : Nat} {x : UInt8} : toOctet n = some x ↔ n = x.toNat := by
  unfold toOctet
  constructor
  · intro h
    split at h
    · next hn => rw [← Option.some.inj h, UInt8.toNat_ofNat', Nat.mod_eq_of_lt hn]
    · cases h
  · rintro rfl
    rw [if_pos x.toNat_lt, UInt8.ofNat_toNat]

/-- Reading a vector is reading every element. -/
theorem readVector_eq_some {accessor : Nat → Option Nat} {n : Nat} {xs : Bytes} :
    readVector accessor n = some xs ↔
      xs.length = n ∧ ∀ j (hj : j < xs.length), accessor j = some xs[j].toNat := by
  induction n generalizing xs with
  | zero => cases xs <;> simp [readVector]
  | succ n ih =>
    unfold readVector
    simp only [Option.bind_eq_bind, Option.bind_eq_some_iff, ih, toOctet_eq_some]
    constructor
    · rintro ⟨ys, ⟨hys, hget⟩, x, ⟨m, hm, rfl⟩, hx⟩
      obtain rfl := Option.some.inj hx
      refine ⟨by simp [hys], fun j hj => ?_⟩
      by_cases hjn : j < ys.length
      · rw [hget j hjn, List.getElem_append_left hjn]
      · obtain rfl : j = n := by rw [List.length_append, List.length_singleton] at hj; omega
        rw [List.getElem_append_right (by omega)]
        simpa using hm
    · rintro ⟨hlen, hget⟩
      obtain ⟨ys, x, rfl⟩ : ∃ ys x, xs = ys ++ [x] := by
        rcases List.eq_nil_or_concat xs with rfl | ⟨ys, x, hx⟩
        · simp at hlen
        · exact ⟨ys, x, by simpa using hx⟩
      have hys : ys.length = n := by simpa using hlen
      refine ⟨ys, ⟨hys, fun j hj => ?_⟩, x, ⟨x.toNat, ?_, rfl⟩, rfl⟩
      · rw [hget j (by simp; omega), List.getElem_append_left hj]
      · have := hget n (by simp [hys])
        rw [this, List.getElem_append_right (by omega)]
        simp [hys]

/-- The table holds `xs` in a `[ubyte]` field, or leaves the field out when `xs` is empty. -/
def HoldsVector (b : Bytes) (pos : Int) (vtableOffset : Nat) (xs : Bytes) : Prop :=
  xs.length < 256 ^ 4 ∧
    ((fieldOffset b pos vtableOffset = some 0 ∧ xs = []) ∨
      ∃ q, RefField b pos vtableOffset q ∧ VectorAt b q xs)

/-- `xs` is what the accessors of a `[ubyte]` field read. -/
def ReadAs (t : Table) (vtableOffset : Nat) (xs : Bytes) : Prop :=
  ∃ n, t.elementCount rt vtableOffset = some n ∧
    readVector (t.element rt vtableOffset) n = some xs

section
variable {rt} (hrt : rt.Reads)
include hrt

/-- A field that holds `xs` is read as `xs`. -/
theorem readAs_of_holds {t : Table} {vtableOffset : Nat} {xs : Bytes}
    (hlen : t.bytes.length ≤ 2 ^ 32) (h : HoldsVector t.bytes t.pos vtableOffset xs) :
    ReadAs rt t vtableOffset xs := by
  obtain ⟨hlt, ⟨ho, rfl⟩ | ⟨q, ⟨o, ho, hne, hq⟩, hvec⟩⟩ := h
  · refine ⟨0, ?_, rfl⟩
    unfold Table.elementCount
    rw [(hrt.offset ..).2 hlen, ho]
    rfl
  · refine ⟨xs.length, ?_, ?_⟩
    · unfold Table.elementCount
      rw [(hrt.offset ..).2 hlen, ho, Option.bind_some, if_pos hne, (hrt.vectorLen ..).2 hlen, hq,
        Option.bind_some]
      exact hvec.left.read_toLE hlt
    · rw [readVector_eq_some]
      refine ⟨rfl, fun j hj => ?_⟩
      unfold Table.element
      rw [(hrt.offset ..).2 hlen, ho, Option.bind_some, if_pos hne, (hrt.vector ..).2 hlen, hq,
        Option.map_some, Option.bind_some, (hrt.getUint8 ..).2 hlen]
      have := hvec.right.read_byte hj
      rwa [length_toLE] at this

/-- What is read of a field stands in the buffer, after its length. -/
theorem vectorAt_of_read {t : Table} {vtableOffset : Nat} {xs : Bytes}
    (h : ReadAs rt t vtableOffset xs) :
    xs.length < 2 ^ 32 ∧ (xs = [] ∨ ∃ i, VectorAt t.bytes i xs) := by
  obtain ⟨n, hn, hx⟩ := h
  obtain ⟨hlen, hget⟩ := readVector_eq_some.mp hx
  unfold Table.elementCount at hn
  obtain ⟨o, ho, hn⟩ := Option.bind_eq_some_iff.mp hn
  split at hn
  · next hne =>
    obtain ⟨q, hq, hn⟩ := Option.bind_eq_some_iff.mp ((hrt.vectorLen ..).1 _ hn)
    have hb := read_bounds hn
    refine ⟨by omega, .inr ⟨q, ?_⟩⟩
    have hcount : At t.bytes q (toLE 4 xs.length) := hlen ▸ at_of_read hn
    refine hcount.append (at_of_read_bytes ?_ ?_ fun j hj => ?_)
    · rw [length_toLE]; omega
    · rw [length_toLE]; omega
    · have hj := hget j hj
      unfold Table.element at hj
      rw [ho, Option.bind_some, if_pos hne] at hj
      obtain ⟨a, ha, hj⟩ := Option.bind_eq_some_iff.mp hj
      have ha := (hrt.vector ..).1 _ ha
      rw [hq, Option.map_some, Option.some.injEq] at ha
      obtain rfl := ha
      rw [length_toLE]
      exact (hrt.getUint8 ..).1 _ hj
  · obtain rfl : 0 = n := Option.some.inj hn
    exact ⟨by omega, .inl (List.eq_nil_of_length_eq_zero hlen)⟩

theorem length_le_of_read {t : Table} {vtableOffset : Nat} {xs : Bytes}
    (h : ReadAs rt t vtableOffset xs) : xs.length ≤ t.bytes.length := by
  rcases (vectorAt_of_read hrt h).2 with rfl | ⟨i, pre, rest, hb, -⟩
  · exact Nat.zero_le _
  · rw [hb]; simp only [List.length_append]; omega

end

/-! ### Decoding -/

theorem orEnvelopeError_eq_ok {α : Type} {text : String} {x : Option α} {a : α} :
    orEnvelopeError text x = .ok a ↔ x = some a := by
  cases x <;> simp [orEnvelopeError]

theorem bind_eq_ok {α β : Type} {x : Except EnvelopeError α} {f : α → Except EnvelopeError β}
    {b : β} : (x >>= f) = .ok b ↔ ∃ a, x = .ok a ∧ f a = .ok b := by
  cases x <;> simp [bind, Except.bind]

theorem root_eq_ok {frame : Bytes} {env : Table} :
    root rt frame = .ok env ↔ ∃ n, rt.getUint32 frame 0 = some n ∧ (⟨frame, n⟩ : Table) = env := by
  unfold root FlatbuffersEnvelope.getRootAs
  rw [orEnvelopeError_eq_ok, Option.map_eq_some_iff]
  simp only [add_zero]

theorem messageType_eq_ok {b : Bytes} {env : Table} {tag : Nat} (hroot : root rt b = .ok env)
    (htag : FlatbuffersEnvelope.messageType rt env = some tag) : messageType rt b = .ok tag := by
  unfold messageType
  rw [hroot]
  show orEnvelopeError _ _ = _
  rw [htag]
  rfl

/-- What `decode` finds when it returns. -/
theorem decode_eq_ok {frame : Bytes} {f : StreamFrame} :
    decode rt frame = .ok f ↔
      ∃ env stream, root rt frame = .ok env ∧
        FlatbuffersEnvelope.messageType rt env = some MESSAGE_TYPE_STREAM ∧
        FlatbuffersEnvelope.message rt env = some (some stream) ∧
        readStream rt env stream = some f := by
  unfold decode
  simp only [bind_eq_ok, orEnvelopeError_eq_ok]
  constructor
  · rintro ⟨env, hroot, tag, htag, h⟩
    split at h
    · cases h
    · next hne =>
      obtain rfl : tag = MESSAGE_TYPE_STREAM := not_not.mp hne
      obtain ⟨union, hunion, h⟩ := bind_eq_ok.mp h
      cases union with
      | none => cases h
      | some stream =>
        exact ⟨env, stream, hroot, htag, orEnvelopeError_eq_ok.mp hunion, orEnvelopeError_eq_ok.mp h⟩
  · rintro ⟨env, stream, hroot, htag, hunion, h⟩
    refine ⟨env, hroot, _, htag, ?_⟩
    rw [if_neg (not_not.mpr rfl)]
    exact bind_eq_ok.mpr ⟨_, orEnvelopeError_eq_ok.mpr hunion, orEnvelopeError_eq_ok.mpr h⟩

theorem decodeAck_eq_ok {frame : Bytes} {a : AckFrame} :
    decodeAck rt frame = .ok a ↔
      ∃ env, root rt frame = .ok env ∧
        FlatbuffersEnvelope.messageType rt env = some MESSAGE_TYPE_STREAM_ACK ∧
        readAck rt env = some a := by
  unfold decodeAck
  simp only [bind_eq_ok, orEnvelopeError_eq_ok]
  constructor
  · rintro ⟨env, hroot, tag, htag, h⟩
    split at h
    · cases h
    · next hne =>
      obtain rfl : tag = MESSAGE_TYPE_STREAM_ACK := not_not.mp hne
      exact ⟨env, hroot, htag, orEnvelopeError_eq_ok.mp h⟩
  · rintro ⟨env, hroot, htag, h⟩
    refine ⟨env, hroot, _, htag, ?_⟩
    rw [if_neg (not_not.mpr rfl)]
    exact orEnvelopeError_eq_ok.mpr h

theorem bind_read_eq_some {α : Type} {t : Table} {vtableOffset : Nat} {k : Bytes → Option α}
    {a : α} :
    ((t.elementCount rt vtableOffset).bind fun n =>
        (readVector (t.element rt vtableOffset) n).bind k) = some a ↔
      ∃ xs, ReadAs rt t vtableOffset xs ∧ k xs = some a := by
  simp only [Option.bind_eq_some_iff]
  constructor
  · rintro ⟨n, hn, xs, hx, h⟩
    exact ⟨xs, ⟨n, hn, hx⟩, h⟩
  · rintro ⟨xs, ⟨n, hn, hx⟩, h⟩
    exact ⟨n, hn, xs, hx, h⟩

theorem readStream_eq_some {env stream : Table} {f : StreamFrame} :
    readStream rt env stream = some f ↔
      ReadAs rt env 6 f.topic ∧ ReadAs rt env 4 f.txid ∧ ReadAs rt stream 6 f.senderId ∧
      ReadAs rt stream 10 f.deviceType ∧ ReadAs rt stream 12 f.deviceId ∧
      ReadAs rt stream 8 f.payload ∧ FlatbuffersStream.createdAt rt stream = some f.createdAt ∧
      ReadAs rt env 12 f.messageId := by
  unfold readStream FlatbuffersEnvelope.topic FlatbuffersEnvelope.topicLength
    FlatbuffersEnvelope.txid FlatbuffersEnvelope.txidLength FlatbuffersStream.senderId
    FlatbuffersStream.senderIdLength FlatbuffersStream.deviceType FlatbuffersStream.deviceTypeLength
    FlatbuffersStream.deviceId FlatbuffersStream.deviceIdLength FlatbuffersStream.payload
    FlatbuffersStream.payloadLength FlatbuffersEnvelope.messageId FlatbuffersEnvelope.messageIdLength
  constructor
  · intro h
    obtain ⟨topic, h₁, h⟩ := (bind_read_eq_some rt).mp h
    obtain ⟨txid, h₂, h⟩ := (bind_read_eq_some rt).mp h
    obtain ⟨senderId, h₃, h⟩ := (bind_read_eq_some rt).mp h
    obtain ⟨deviceType, h₄, h⟩ := (bind_read_eq_some rt).mp h
    obtain ⟨deviceId, h₅, h⟩ := (bind_read_eq_some rt).mp h
    obtain ⟨payload, h₆, h⟩ := (bind_read_eq_some rt).mp h
    obtain ⟨createdAt, h₇, h⟩ := Option.bind_eq_some_iff.mp h
    obtain ⟨messageId, h₈, h⟩ := (bind_read_eq_some rt).mp h
    obtain rfl := Option.some.inj h
    exact ⟨h₁, h₂, h₃, h₄, h₅, h₆, h₇, h₈⟩
  · rintro ⟨h₁, h₂, h₃, h₄, h₅, h₆, h₇, h₈⟩
    refine (bind_read_eq_some rt).mpr ⟨_, h₁, (bind_read_eq_some rt).mpr ⟨_, h₂, ?_⟩⟩
    refine (bind_read_eq_some rt).mpr ⟨_, h₃, (bind_read_eq_some rt).mpr ⟨_, h₄, ?_⟩⟩
    refine (bind_read_eq_some rt).mpr ⟨_, h₅, (bind_read_eq_some rt).mpr ⟨_, h₆, ?_⟩⟩
    exact Option.bind_eq_some_iff.mpr ⟨_, h₇, (bind_read_eq_some rt).mpr ⟨_, h₈, rfl⟩⟩

theorem readAck_eq_some {env : Table} {a : AckFrame} :
    readAck rt env = some a ↔
      ReadAs rt env 6 a.topic ∧ ReadAs rt env 4 a.txid ∧ ReadAs rt env 12 a.messageId := by
  unfold readAck FlatbuffersEnvelope.topic FlatbuffersEnvelope.topicLength
    FlatbuffersEnvelope.txid FlatbuffersEnvelope.txidLength FlatbuffersEnvelope.messageId
    FlatbuffersEnvelope.messageIdLength
  simp only [Option.bind_eq_bind, bind_read_eq_some, Option.pure_def]
  constructor
  · rintro ⟨topic, h₁, txid, h₂, messageId, h₃, h⟩
    obtain rfl := Option.some.inj h
    exact ⟨h₁, h₂, h₃⟩
  · rintro ⟨h₁, h₂, h₃⟩
    exact ⟨_, h₁, _, h₂, _, h₃, rfl⟩

section
variable {rt} (hrt : rt.Reads)
include hrt

theorem createdAt_lt {t : Table} {n : Nat} (h : FlatbuffersStream.createdAt rt t = some n) :
    n < 2 ^ 32 := by
  unfold FlatbuffersStream.createdAt at h
  obtain ⟨o, -, h⟩ := Option.bind_eq_some_iff.mp h
  split at h
  · have := (read_bounds ((hrt.getUint32 ..).1 _ h)).2.2
    omega
  · obtain rfl := Option.some.inj h
    decide

/-- **A decoded frame invents nothing**: what the server echoes is no longer than the frame, and
`created_at` is a 32-bit number. -/
theorem decode_bounds {frame : Bytes} {f : StreamFrame} (h : decode rt frame = .ok f) :
    f.topic.length ≤ frame.length ∧ f.txid.length ≤ frame.length ∧
      f.messageId.length ≤ frame.length ∧ f.createdAt < 2 ^ 32 := by
  obtain ⟨env, stream, hroot, -, -, h⟩ := decode_eq_ok rt |>.mp h
  obtain ⟨n, -, rfl⟩ := root_eq_ok rt |>.mp hroot
  obtain ⟨htopic, htxid, -, -, -, -, hcreated, hid⟩ := (readStream_eq_some rt).mp h
  exact ⟨length_le_of_read hrt htopic, length_le_of_read hrt htxid, length_le_of_read hrt hid,
    createdAt_lt hrt hcreated⟩

end

end FleetTelemetry
