import FleetTelemetry.Envelope.Serialisation

/-!
# What the decoders accept

Every offset that the decoders follow was chosen by the sender.  A buffer is accepted
exactly if each one leads to what the schema has there, by the documented reads of the
format alone:

    decode rt b = .ok f ↔ HoldsStream b f                    (decode_holds)
    decodeAck rt b = .ok a ↔ HoldsAck b a                    (decodeAck_holds)

Nothing else in the buffer counts: octets after it change nothing (`decode_iff`), and no
runtime that reads as documented accepts more or less than another.
-/

namespace FleetTelemetry

open FlatBuffers

/-! ## The schema, as it is read -/

/-- The table holds the number of `width` octets in a field, or leaves the field out when it
is 0. -/
def HoldsNumber (b : Bytes) (pos : Int) (vtableOffset width n : Nat) : Prop :=
  ∃ o, fieldOffset b pos vtableOffset = some o ∧
    ((o = 0 ∧ n = 0) ∨ (o ≠ 0 ∧ read width b (pos + o) = some n))

/-- The buffer starts with the place of a table that has the tag of a `FlatbuffersEnvelope`. -/
def HoldsTag (b : Bytes) (pos : Int) (tag : Nat) : Prop :=
  (∃ n : Nat, read 4 b 0 = some n ∧ (n : Int) = pos) ∧ HoldsNumber b pos 8 1 tag

/-- What both kinds of envelope hold. -/
structure HoldsEnvelope (b : Bytes) (pos : Int) (tag : Nat) (txid topic messageId : Bytes) :
    Prop where
  tag : HoldsTag b pos tag
  txid : HoldsVector b pos 4 txid
  topic : HoldsVector b pos 6 topic
  messageId : HoldsVector b pos 12 messageId

def HoldsAck (b : Bytes) (a : AckFrame) : Prop :=
  ∃ pos, HoldsEnvelope b pos MESSAGE_TYPE_STREAM_ACK a.txid a.topic a.messageId

/-- An envelope whose union refers to a `FlatbuffersStream`. -/
def HoldsStream (b : Bytes) (f : StreamFrame) : Prop :=
  ∃ pos message, HoldsEnvelope b pos MESSAGE_TYPE_STREAM f.txid f.topic f.messageId ∧
    RefField b pos 10 message ∧ HoldsNumber b message 4 4 f.createdAt ∧
    HoldsVector b message 6 f.senderId ∧ HoldsVector b message 8 f.payload ∧
    HoldsVector b message 10 f.deviceType ∧ HoldsVector b message 12 f.deviceId

/-! ## Lemmas -/

section
variable {rt : Runtime} (hrt : rt.Reads) {b : Bytes} (hlen : b.length ≤ 2 ^ 32)
include hrt hlen

/-- What is read of a field is held by it. -/
theorem readAs_iff (pos : Int) (vtableOffset : Nat) (xs : Bytes) :
    ReadAs rt ⟨b, pos⟩ vtableOffset xs ↔ HoldsVector b pos vtableOffset xs := by
  refine ⟨fun h => ?_, readAs_of_holds hrt (t := ⟨b, pos⟩) hlen⟩
  have hlt := (vectorAt_of_read hrt h).1
  refine ⟨by omega, ?_⟩
  obtain ⟨n, hn, hx⟩ := h
  obtain ⟨hcount, hget⟩ := readVector_eq_some.mp hx
  unfold Table.elementCount at hn
  unfold Table.element at hget
  simp only [(hrt.offset ..).2 hlen, (hrt.vectorLen ..).2 hlen] at hn
  simp only [(hrt.offset ..).2 hlen, (hrt.vector ..).2 hlen, (hrt.getUint8 ..).2 hlen] at hget
  obtain ⟨o, ho, hn⟩ := Option.bind_eq_some_iff.mp hn
  simp only [ho, Option.bind_some] at hget
  split at hn
  · next hne =>
    obtain ⟨q, hq, hn⟩ := Option.bind_eq_some_iff.mp hn
    simp only [hq, Option.map_some, Option.bind_some, if_pos hne] at hget
    have hb := read_bounds hn
    refine .inr ⟨q, ⟨o, ho, hne, hq⟩, ?_⟩
    have hat : At b q (toLE 4 xs.length) := hcount ▸ at_of_read hn
    refine hat.append (at_of_read_bytes ?_ ?_ fun j hj => ?_)
    · rw [length_toLE]; omega
    · rw [length_toLE]; omega
    · rw [length_toLE]
      exact hget j hj
  · next hne =>
    obtain rfl : 0 = n := Option.some.inj hn
    exact .inl ⟨by rw [ho, not_not.mp hne], List.eq_nil_of_length_eq_zero hcount⟩

/-- The accessor of a number reads what the field holds. -/
theorem number_iff {get : Bytes → Int → Option Nat} {width : Nat}
    (hget : ∀ i, ReadsAs b (get b i) (read width b i)) (pos : Int) (vtableOffset n : Nat) :
    ((rt.offset b pos vtableOffset).bind fun o =>
        if o ≠ 0 then get b (o + pos) else some 0) = some n ↔
      HoldsNumber b pos vtableOffset width n := by
  rw [(hrt.offset ..).2 hlen, Option.bind_eq_some_iff]
  refine exists_congr fun o => and_congr_right fun _ => ?_
  split
  · next hne =>
    rw [(hget _).2 hlen, Int.add_comm]
    simp [hne]
  · next hne =>
    have ho : o = 0 := not_not.mp hne
    simp [ho, eq_comm]

theorem root_iff (env : Table) :
    root rt b = .ok env ↔ ∃ n : Nat, read 4 b 0 = some n ∧ env = ⟨b, n⟩ := by
  rw [root_eq_ok rt, (hrt.getUint32 ..).2 hlen]
  exact exists_congr fun n => and_congr_right fun _ => eq_comm

theorem message_iff (pos : Int) (stream : Table) :
    FlatbuffersEnvelope.message rt ⟨b, pos⟩ = some (some stream) ↔
      ∃ message, RefField b pos 10 message ∧ stream = ⟨b, message⟩ := by
  unfold FlatbuffersEnvelope.message RefField
  simp only [(hrt.offset ..).2 hlen, (hrt.union ..).2 hlen, Option.bind_eq_some_iff]
  constructor
  · rintro ⟨o, ho, h⟩
    split at h
    · next hne =>
      obtain ⟨message, hm, hs⟩ := Option.map_eq_some_iff.mp h
      exact ⟨message, ⟨o, ho, hne, hm⟩, (Option.some.inj hs).symm⟩
    · cases h
  · rintro ⟨message, ⟨o, ho, hne, hm⟩, rfl⟩
    refine ⟨o, ho, ?_⟩
    rw [if_pos hne, hm]
    rfl

theorem tag_iff (tag : Nat) :
    messageType rt b = .ok tag ↔ ∃ pos, HoldsTag b pos tag := by
  unfold messageType HoldsTag
  simp only [bind_eq_ok, orEnvelopeError_eq_ok, root_iff hrt hlen]
  constructor
  · rintro ⟨env, ⟨n, hn, rfl⟩, htag⟩
    exact ⟨n, ⟨n, hn, rfl⟩, (number_iff hrt hlen (hrt.getUint8 b) n 8 tag).mp htag⟩
  · rintro ⟨pos, ⟨n, hn, rfl⟩, htag⟩
    exact ⟨_, ⟨n, hn, rfl⟩, (number_iff hrt hlen (hrt.getUint8 b) n 8 tag).mpr htag⟩

/-- **`decode` accepts what holds a stream, and reads what it holds.** -/
theorem decode_holds (f : StreamFrame) : decode rt b = .ok f ↔ HoldsStream b f := by
  rw [decode_eq_ok]
  constructor
  · rintro ⟨env, stream, hroot, htag, hunion, hread⟩
    obtain ⟨n, hn, rfl⟩ := (root_iff hrt hlen env).mp hroot
    obtain ⟨message, hm, rfl⟩ := (message_iff hrt hlen n stream).mp hunion
    obtain ⟨htopic, htxid, hsender, htype, hdevice, hpayload, hcreated, hid⟩ :=
      (readStream_eq_some rt).mp hread
    simp only [readAs_iff hrt hlen] at htopic htxid hsender htype hdevice hpayload hid
    refine ⟨n, message, ⟨⟨⟨n, hn, rfl⟩, ?_⟩, htxid, htopic, hid⟩, hm, ?_, hsender, hpayload, htype,
      hdevice⟩
    · exact (number_iff hrt hlen (hrt.getUint8 b) n 8 _).mp htag
    · exact (number_iff hrt hlen (hrt.getUint32 b) message 4 _).mp hcreated
  · rintro ⟨pos, message, ⟨⟨⟨n, hn, rfl⟩, htag⟩, htxid, htopic, hid⟩, hm, hcreated, hsender, hpayload,
      htype, hdevice⟩
    simp only [← readAs_iff hrt hlen] at htopic htxid hsender htype hdevice hpayload hid
    refine ⟨⟨b, n⟩, ⟨b, message⟩, (root_iff hrt hlen _).mpr ⟨n, hn, rfl⟩, ?_,
      (message_iff hrt hlen n _).mpr ⟨message, hm, rfl⟩, (readStream_eq_some rt).mpr
        ⟨htopic, htxid, hsender, htype, hdevice, hpayload, ?_, hid⟩⟩
    · exact (number_iff hrt hlen (hrt.getUint8 b) n 8 _).mpr htag
    · exact (number_iff hrt hlen (hrt.getUint32 b) message 4 _).mpr hcreated

/-- **`decode_ack` accepts what holds an acknowledgement.** -/
theorem decodeAck_holds (a : AckFrame) : decodeAck rt b = .ok a ↔ HoldsAck b a := by
  rw [decodeAck_eq_ok]
  constructor
  · rintro ⟨env, hroot, htag, hread⟩
    obtain ⟨n, hn, rfl⟩ := (root_iff hrt hlen env).mp hroot
    obtain ⟨htopic, htxid, hid⟩ := (readAck_eq_some rt).mp hread
    simp only [readAs_iff hrt hlen] at htopic htxid hid
    exact ⟨n, ⟨⟨n, hn, rfl⟩, (number_iff hrt hlen (hrt.getUint8 b) n 8 _).mp htag⟩, htxid, htopic,
      hid⟩
  · rintro ⟨pos, ⟨⟨n, hn, rfl⟩, htag⟩, htxid, htopic, hid⟩
    simp only [← readAs_iff hrt hlen] at htopic htxid hid
    exact ⟨⟨b, n⟩, (root_iff hrt hlen _).mpr ⟨n, hn, rfl⟩,
      (number_iff hrt hlen (hrt.getUint8 b) n 8 _).mpr htag, (readAck_eq_some rt).mpr
        ⟨htopic, htxid, hid⟩⟩

end

/-! ### Serialisations -/

theorem SerialisesEnvelope.holds {b txid topic messageId : Bytes} {tag : Nat} {message : Int}
    (h : SerialisesEnvelope b txid topic messageId tag message) :
    ∃ pos, HoldsEnvelope b pos tag txid topic messageId ∧ RefField b pos 10 message := by
  obtain ⟨-, n, hn, hat, henv⟩ := h
  refine ⟨n, ⟨⟨⟨n, hat.read_toLE hn, rfl⟩, ?_⟩, ?_, ?_, ?_⟩, ?_⟩
  · exact henv.scalar (k := 2) rfl
  · exact henv.vector (k := 0) rfl
  · exact henv.vector (k := 1) rfl
  · exact henv.vector (k := 4) rfl
  · exact henv.table (k := 3) rfl

/-- A serialisation holds what it was made of. -/
theorem SerialisesStream.holds {b : Bytes} {f : StreamFrame} (h : SerialisesStream b f) :
    HoldsStream b f := by
  obtain ⟨message, henvelope, hstream⟩ := h
  obtain ⟨pos, henv, hm⟩ := henvelope.holds
  refine ⟨pos, message, henv, hm, ?_, ?_, ?_, ?_, ?_⟩
  · exact hstream.scalar (k := 0) rfl
  · exact hstream.vector (k := 1) rfl
  · exact hstream.vector (k := 2) rfl
  · exact hstream.vector (k := 3) rfl
  · exact hstream.vector (k := 4) rfl

/-! ### Octets after the buffer -/

section
variable {b : Bytes} {pos : Int} {vtableOffset : Nat} (rest : Bytes)

theorem HoldsNumber.extend {width n : Nat} (h : HoldsNumber b pos vtableOffset width n) :
    HoldsNumber (b ++ rest) pos vtableOffset width n := by
  obtain ⟨o, ho, h⟩ := h
  exact ⟨o, fieldOffset_extend rest ho, h.imp id (And.imp id (read_extend rest))⟩

theorem HoldsVector.extend {xs : Bytes} (h : HoldsVector b pos vtableOffset xs) :
    HoldsVector (b ++ rest) pos vtableOffset xs := by
  obtain ⟨hlt, ⟨ho, hx⟩ | ⟨q, hq, hvec⟩⟩ := h
  · exact ⟨hlt, .inl ⟨fieldOffset_extend rest ho, hx⟩⟩
  · exact ⟨hlt, .inr ⟨q, hq.extend rest, hvec.extend rest⟩⟩

theorem HoldsEnvelope.extend {tag : Nat} {txid topic messageId : Bytes}
    (h : HoldsEnvelope b pos tag txid topic messageId) :
    HoldsEnvelope (b ++ rest) pos tag txid topic messageId where
  tag := by
    obtain ⟨⟨n, hn, hpos⟩, htag⟩ := h.tag
    exact ⟨⟨n, read_extend rest hn, hpos⟩, htag.extend rest⟩
  txid := h.txid.extend rest
  topic := h.topic.extend rest
  messageId := h.messageId.extend rest

theorem HoldsStream.extend {f : StreamFrame} (h : HoldsStream b f) : HoldsStream (b ++ rest) f := by
  obtain ⟨pos, message, henv, hm, hcreated, hsender, hpayload, htype, hdevice⟩ := h
  exact ⟨pos, message, henv.extend rest, hm.extend rest, hcreated.extend rest, hsender.extend rest,
    hpayload.extend rest, htype.extend rest, hdevice.extend rest⟩

end

/-! ## Top theorems (proved from the lemmas above) -/

/-- **Exactly what is well formed is accepted.**  `message_type`, `decode` and `decode_ack` return
on a buffer exactly if what they follow leads to what the schema has there, and return just that;
and a stream that is accepted is accepted as the same stream with any octets after it. -/
theorem decode_iff (rt : Runtime) (hrt : rt.Reads) (b : Bytes) (hlen : b.length ≤ 2 ^ 32) :
    (∀ tag, messageType rt b = .ok tag ↔ ∃ pos, HoldsTag b pos tag) ∧
    (∀ f, decode rt b = .ok f ↔ HoldsStream b f) ∧
    (∀ a, decodeAck rt b = .ok a ↔ HoldsAck b a) ∧
    ∀ f rest, (b ++ rest).length ≤ 2 ^ 32 → decode rt b = .ok f → decode rt (b ++ rest) = .ok f := by
  refine ⟨tag_iff hrt hlen, decode_holds hrt hlen, decodeAck_holds hrt hlen, fun f rest hrest h => ?_⟩
  rw [decode_holds hrt hrest]
  exact ((decode_holds hrt hlen f).mp h).extend rest

theorem sampleBytes_accepted :
    HoldsStream sampleBytes sampleFrame ∧
      decode reference (sampleBytes ++ [0, 7]) = .ok sampleFrame := by
  obtain ⟨-, hiff, -, hextend⟩ := decode_iff reference reference_documented.toReads sampleBytes
    (by decide)
  have h : decode reference sampleBytes = .ok sampleFrame := rfl
  exact ⟨(hiff _).mp h, hextend _ [0, 7] (by decide) h⟩

end FleetTelemetry
