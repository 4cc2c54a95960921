import FleetTelemetry.Envelope.Codec

/-!
# Acknowledgements decode to what was put in

    rt.Documented → encodeAck rt txid topic messageId = some ack →
      messageType rt ack = .ok MESSAGE_TYPE_STREAM_ACK ∧
      decodeAck rt ack = .ok ⟨topic, txid, messageId⟩ ∧
      decode rt ack is an EnvelopeError                                (encodeAck_decodes)

and `encodeAck` does answer unless the builder's limit of 2 GiB is in reach.
-/

namespace FleetTelemetry

open FlatBuffers

variable (rt : Runtime)

/-- `x`, written as a vector at offset `off`. -/
def Stored (w : Bytes) (off : Nat) (x : Bytes) : Prop :=
  0 < off ∧ off ≤ w.length ∧ VectorAt w (w.length - off) x

theorem Stored.prepend {w : Bytes} {off : Nat} {x : Bytes} (h : Stored w off x) (pre : Bytes) :
    Stored (pre ++ w) off x := by
  obtain ⟨h0, hle, hv⟩ := h
  refine ⟨h0, by rw [List.length_append]; omega, ?_⟩
  have := At.prepend hv pre
  rwa [show (pre.length : Int) + (w.length - off) = (pre ++ w).length - off by
    rw [List.length_append]; omega] at this

/-- `encodeAck` writes three vectors, an empty table and the envelope. -/
theorem encodeAck_eq (txid topic messageId : Bytes) :
    encodeAck rt txid topic messageId =
      ((rt.createByteVector rt.new txid).bind fun r₁ =>
        (rt.createByteVector r₁.1 topic).bind fun r₂ =>
        (rt.createByteVector r₂.1 messageId).bind fun r₃ =>
        (rt.object r₃.1 0 []).bind fun r₄ =>
        (rt.object r₄.1 5 [(0, .ref r₁.2), (1, .ref r₂.2), (2, .octet MESSAGE_TYPE_STREAM_ACK),
          (3, .ref r₄.2), (4, .ref r₃.2)]).bind fun r₅ =>
        (rt.finish r₅.1 r₅.2).bind rt.output) := by
  simp only [encodeAck, Runtime.object, Runtime.putAll, Runtime.put, FlatbuffersStreamAck.start,
    FlatbuffersStreamAck.finish, FlatbuffersEnvelope.start, FlatbuffersEnvelope.addTxid,
    FlatbuffersEnvelope.addTopic, FlatbuffersEnvelope.addMessageType,
    FlatbuffersEnvelope.addMessage, FlatbuffersEnvelope.addMessageId, FlatbuffersEnvelope.finish,
    Option.bind_eq_bind, Option.bind_assoc, Option.bind_some]

section
variable {rt} (hrt : rt.Documented)
include hrt

theorem createByteVector_stored {b : rt.Builder} {w : Bytes} (x : Bytes)
    (hw : rt.written b = some w) :
    Builds (w.length + x.length + 8) (rt.createByteVector b x) fun r =>
      ∃ ext, rt.written r.1 = some (ext ++ w) ∧ ext.length ≤ x.length + 8 ∧
        (ext ++ w).length ≤ maxBufferSize ∧ Stored (ext ++ w) r.2 x := by
  refine (hrt.createByteVector b w x hw).mono ?_
  rintro ⟨b', off⟩ ⟨pad, hw', hpad, hoff, hmax⟩
  have hl : (toLE 4 x.length ++ x ++ pad).length = 4 + x.length + pad.length := by
    simp [Nat.add_assoc]
  have hlen : (toLE 4 x.length ++ x ++ pad ++ w).length = off := by
    rw [List.length_append, hl]
    omega
  refine ⟨toLE 4 x.length ++ x ++ pad, hw', by omega, by rw [hlen]; exact hmax, ?_, ?_, ?_⟩
  · show 0 < off
    omega
  · show off ≤ _
    omega
  · exact ⟨[], pad ++ w, by simp, by rw [hlen]; simp⟩

/-- The envelope in an acknowledgement: its union tag and its three vectors. -/
theorem encodeAck_layout (txid topic messageId : Bytes) :
    Builds (txid.length + topic.length + messageId.length + 128)
      (encodeAck rt txid topic messageId) fun ack =>
        ∃ env, ack.length ≤ 2 ^ 32 ∧ root rt ack = .ok ⟨ack, env⟩ ∧
          OctetField ack env 8 MESSAGE_TYPE_STREAM_ACK ∧ HoldsVector ack env 4 txid ∧
          HoldsVector ack env 6 topic ∧ HoldsVector ack env 12 messageId := by
  rw [encodeAck_eq]
  -- the three vectors
  refine Builds.bind (createByteVector_stored hrt txid hrt.new) (by simp; omega) ?_
  rintro ⟨b₁, o₁⟩ ⟨e₁, hw₁, hl₁, hm₁, hs₁⟩
  rw [List.append_nil] at hw₁ hs₁ hm₁
  refine Builds.bind (createByteVector_stored hrt topic hw₁) (by omega) ?_
  rintro ⟨b₂, o₂⟩ ⟨e₂, hw₂, hl₂, hm₂, hs₂⟩
  have hlen₂ : (e₂ ++ e₁).length = e₂.length + e₁.length := List.length_append
  refine Builds.bind (createByteVector_stored hrt messageId hw₂) (by omega) ?_
  rintro ⟨b₃, o₃⟩ ⟨e₃, hw₃, hl₃, hm₃, hs₃⟩
  set w₃ := e₃ ++ (e₂ ++ e₁) with hw₃e
  have hlen₃ : w₃.length = e₃.length + (e₂.length + e₁.length) := by
    rw [hw₃e, List.length_append, hlen₂]
  -- the empty table of the acknowledgement
  refine Builds.bind (hrt.object b₃ w₃ 0 [] hw₃ hm₃ ⟨by decide, List.nodup_nil, by simp⟩)
    (by simp; omega) ?_
  rintro ⟨b₄, o₄⟩ ⟨e₄, hw₄, hl₄, hm₄, ho₄, hle₄, -⟩
  simp only [List.length_nil, Nat.mul_zero, Nat.zero_add] at hl₄
  set w₄ := e₄ ++ w₃ with hw₄e
  have hlen₄ : w₄.length = e₄.length + w₃.length := by rw [hw₄e, List.length_append]
  have hs₁' : Stored w₄ o₁ txid := ((hs₁.prepend e₂).prepend e₃).prepend e₄
  have hs₂' : Stored w₄ o₂ topic := (hs₂.prepend e₃).prepend e₄
  have hs₃' : Stored w₄ o₃ messageId := hs₃.prepend e₄
  -- the envelope
  set slots : List (Nat × Slot) := [(0, .ref o₁), (1, .ref o₂),
    (2, .octet MESSAGE_TYPE_STREAM_ACK), (3, .ref o₄), (4, .ref o₃)] with hslots
  have hfit : SlotsFit w₄ 5 slots := by
    refine ⟨by decide, by simp [hslots], ?_⟩
    simp only [hslots, List.mem_cons, List.not_mem_nil, or_false, forall_eq_or_imp, forall_eq,
      Slot.Fits, MESSAGE_TYPE_STREAM_ACK]
    exact ⟨⟨by decide, hs₁'.1, hs₁'.2.1⟩, ⟨by decide, hs₂'.1, hs₂'.2.1⟩, by decide,
      ⟨by decide, ho₄, hle₄⟩, by decide, hs₃'.1, hs₃'.2.1⟩
  have hcount : slots.length = 5 := rfl
  refine Builds.bind (hrt.object b₄ w₄ 5 slots hw₄ hm₄ hfit) (by omega) ?_
  rintro ⟨b₅, o₅⟩ ⟨e₅, hw₅, hl₅, hm₅, ho₅, hle₅, hheld⟩
  rw [hcount] at hl₅
  set w₅ := e₅ ++ w₄ with hw₅e
  have hlen₅ : w₅.length = e₅.length + w₄.length := by rw [hw₅e, List.length_append]
  -- the finished buffer
  refine Builds.bind (hrt.finish b₅ w₅ o₅ hw₅ hm₅ hle₅) (by omega) ?_
  rintro b₆ ⟨pad, hout, hpad⟩
  set d := 4 + pad.length + (w₅.length - o₅) with hd
  rw [hout]
  refine ⟨fun _ => ⟨_, rfl⟩, ?_⟩
  rintro ack hack
  obtain rfl := Option.some.inj hack
  unfold maxBufferSize at hm₅
  have hhead : (toLE 4 d ++ pad).length = 4 + pad.length := by simp
  have hpos : ((toLE 4 d ++ pad).length : Int) + (w₅.length - o₅) = d := by
    rw [hhead, hd]; omega
  have hacklen : (toLE 4 d ++ pad ++ w₅).length ≤ 2 ^ 32 := by
    rw [List.length_append, hhead]; omega
  have hfield {s : Nat × Slot} (hs : s ∈ slots) := hheld s hs
  have hvec (slot : Nat) {off : Nat} {x : Bytes} (hs : (slot, Slot.ref off) ∈ slots)
      (hst : Stored w₄ off x) :
      HoldsVector (toLE 4 d ++ pad ++ w₅) d (4 + 2 * slot) x := by
    have href := RefField.prepend (hfield hs) (toLE 4 d ++ pad)
    rw [hpos] at href
    have hx : x.length ≤ w₄.length := by
      obtain ⟨-, -, pre, rest, hb, -⟩ := hst
      rw [hb]; simp only [List.length_append]; omega
    exact ⟨by omega, .inr ⟨_, href, At.prepend (hst.prepend e₅).2.2 _⟩⟩
  refine ⟨d, hacklen, ?_, ?_, ?_, ?_, ?_⟩
  · rw [root_eq_ok, (hrt.getUint32 ..).2 hacklen]
    have hat : At (toLE 4 d ++ pad ++ w₅) 0 (toLE 4 d) := ⟨[], pad ++ w₅, by simp, rfl⟩
    exact ⟨d, hat.read_toLE (by omega), rfl⟩
  · have htag := OctetField.prepend
      (hfield (s := (2, .octet MESSAGE_TYPE_STREAM_ACK)) (by simp [hslots])) (toLE 4 d ++ pad)
    rwa [hpos] at htag
  · exact hvec 0 (by simp [hslots]) hs₁'
  · exact hvec 1 (by simp [hslots]) hs₂'
  · exact hvec 4 (by simp [hslots]) hs₃'

end

section
variable {rt} (hrt : rt.Reads)
include hrt

theorem messageType_of_octetField {b : Bytes} {pos : Int} {tag : Nat} (hlen : b.length ≤ 2 ^ 32)
    (h : OctetField b pos 8 tag) : FlatbuffersEnvelope.messageType rt ⟨b, pos⟩ = some tag := by
  obtain ⟨o, ho, hne, hv⟩ := h
  unfold FlatbuffersEnvelope.messageType
  rw [(hrt.offset ..).2 hlen, ho, Option.bind_some, if_pos hne, (hrt.getUint8 ..).2 hlen,
    Int.add_comm, hv]

end

/-- An envelope with another tag is not decoded as a stream. -/
theorem decode_of_tag {b : Bytes} {env : Table} {tag : Nat} (hroot : root rt b = .ok env)
    (htag : FlatbuffersEnvelope.messageType rt env = some tag) (hne : tag ≠ MESSAGE_TYPE_STREAM) :
    decode rt b = .error
      ⟨"expected Stream (type " ++ toString MESSAGE_TYPE_STREAM ++ "), got type " ++ toString tag⟩ := by
  unfold decode
  rw [hroot]
  show (orEnvelopeError _ _ >>= _) = _
  rw [htag]
  exact if_pos hne

theorem decodeAck_of_layout {rt : Runtime} (hrt : rt.Reads) {ack txid topic messageId : Bytes}
    {env : Int} (hlen : ack.length ≤ 2 ^ 32) (hroot : root rt ack = .ok ⟨ack, env⟩)
    (htag : FlatbuffersEnvelope.messageType rt ⟨ack, env⟩ = some MESSAGE_TYPE_STREAM_ACK)
    (htxid : HoldsVector ack env 4 txid) (htopic : HoldsVector ack env 6 topic)
    (hid : HoldsVector ack env 12 messageId) :
    decodeAck rt ack = .ok ⟨topic, txid, messageId⟩ := by
  refine (decodeAck_eq_ok rt).mpr ⟨_, hroot, htag, (readAck_eq_some rt).mpr ⟨?_, ?_, ?_⟩⟩
  · exact readAs_of_holds hrt hlen htopic
  · exact readAs_of_holds hrt hlen htxid
  · exact readAs_of_holds hrt hlen hid

/-- **Acknowledgement round trip.** -/
theorem decodeAck_encodeAck {rt : Runtime} (hrt : rt.Documented) (txid topic messageId : Bytes)
    (hsize : txid.length + topic.length + messageId.length + 128 ≤ maxBufferSize) :
    ∃ ack, encodeAck rt txid topic messageId = some ack ∧
      decodeAck rt ack = .ok ⟨topic, txid, messageId⟩ := by
  have hlay := encodeAck_layout hrt txid topic messageId
  obtain ⟨ack, hack⟩ := hlay.1 hsize
  obtain ⟨env, hlen, hroot, htag, htxid, htopic, hid⟩ := hlay.2 ack hack
  have htag := messageType_of_octetField hrt.toReads hlen htag
  exact ⟨ack, hack, decodeAck_of_layout hrt.toReads hlen hroot htag htxid htopic hid⟩

/-! ## Top theorems (proved from the lemmas above) -/

/-- **What `encode_ack` produces is an acknowledgement of what it was given**, and it produces it
whenever the three fields and 128 octets more are within the builder's limit. -/
theorem encodeAck_decodes (rt : Runtime) (hrt : rt.Documented) (txid topic messageId : Bytes) :
    (txid.length + topic.length + messageId.length + 128 ≤ maxBufferSize →
      ∃ ack, encodeAck rt txid topic messageId = some ack) ∧
    ∀ ack, encodeAck rt txid topic messageId = some ack →
      messageType rt ack = .ok MESSAGE_TYPE_STREAM_ACK ∧
      decodeAck rt ack = .ok ⟨topic, txid, messageId⟩ ∧
      decode rt ack = .error ⟨"expected Stream (type 4), got type 5"⟩ := by
  have hlay := encodeAck_layout hrt txid topic messageId
  refine ⟨hlay.1, fun ack hack => ?_⟩
  obtain ⟨env, hlen, hroot, htag, htxid, htopic, hid⟩ := hlay.2 ack hack
  have htag := messageType_of_octetField hrt.toReads hlen htag
  exact ⟨messageType_eq_ok rt hroot htag,
    decodeAck_of_layout hrt.toReads hlen hroot htag htxid htopic hid,
    decode_of_tag rt hroot htag (by decide)⟩

theorem encodeAck_decodes_reference :
    ∃ ack, encodeAck reference [1, 2] [86] [] = some ack ∧
      messageType reference ack = .ok MESSAGE_TYPE_STREAM_ACK ∧
      decodeAck reference ack = .ok ⟨[86], [1, 2], []⟩ := by
  obtain ⟨hreturns, hack⟩ := encodeAck_decodes reference reference_documented [1, 2] [86] []
  obtain ⟨ack, henc⟩ := hreturns (by unfold maxBufferSize; decide)
  exact ⟨ack, henc, (hack ack henc).1, (hack ack henc).2.1⟩

end FleetTelemetry
