import FleetTelemetry.Envelope.Serialisation

/-!
# What a decoded frame can be

Any octets at all may come in.  When `decode` returns, the frame is a stream and
not an acknowledgement, and each of its fields is empty or stands in the frame
behind its own length:

    decode rt b = .ok f → x a field of f → x = [] ∨ ∃ i, VectorAt b i x     (decode_sound)

When it does not return it raises `EnvelopeError`, with one of four texts.
-/

namespace FleetTelemetry

open FlatBuffers

variable (rt : Runtime)

/-- The fields of a frame that are octets. -/
def StreamFrame.octets (f : StreamFrame) : List Bytes :=
  [f.topic, f.txid, f.senderId, f.deviceType, f.deviceId, f.payload, f.messageId]

/-! ## Lemmas -/

theorem decodeAck_of_tag {b : Bytes} {env : Table} {tag : Nat} (hroot : root rt b = .ok env)
    (htag : FlatbuffersEnvelope.messageType rt env = some tag) (hne : tag ≠ MESSAGE_TYPE_STREAM_ACK) :
    decodeAck rt b = .error
      ⟨"expected StreamAck (type " ++ toString MESSAGE_TYPE_STREAM_ACK ++ "), got type " ++
        toString tag⟩ := by
  unfold decodeAck
  rw [hroot]
  show (orEnvelopeError _ _ >>= _) = _
  rw [htag]
  exact if_pos hne

theorem orEnvelopeError_eq_error {α : Type} {text : String} {x : Option α} {e : EnvelopeError}
    (h : orEnvelopeError text x = .error e) : e = ⟨text⟩ := by
  cases x with
  | none => exact (Except.error.inj h).symm
  | some a => cases h

/-- The texts of the errors, the union tag in the one that names it. -/
theorem decode_eq_error {b : Bytes} {e : EnvelopeError} (h : decode rt b = .error e) :
    e = ⟨"frame is not a valid envelope"⟩ ∨ e = ⟨"failed to decode stream frame"⟩ ∨
    e = ⟨"Stream envelope has no message value"⟩ ∨
    ∃ tag, messageType rt b = .ok tag ∧ tag ≠ MESSAGE_TYPE_STREAM ∧
      e = ⟨"expected Stream (type 4), got type " ++ toString tag⟩ := by
  unfold decode at h
  cases hroot : root rt b with
  | error e' =>
    rw [hroot] at h
    obtain rfl := Except.error.inj h
    exact .inl (orEnvelopeError_eq_error hroot)
  | ok env =>
    rw [hroot] at h
    replace h : (orEnvelopeError "failed to decode stream frame" _ >>= _) = Except.error e := h
    cases htag : FlatbuffersEnvelope.messageType rt env with
    | none =>
      rw [htag] at h
      exact .inr (.inl (Except.error.inj h).symm)
    | some tag =>
      rw [htag] at h
      replace h : ite _ _ _ = Except.error e := h
      split at h
      · next hne =>
        refine .inr (.inr (.inr ⟨tag, ?_, hne, (Except.error.inj h).symm⟩))
        exact messageType_eq_ok rt hroot htag
      · replace h : (orEnvelopeError "failed to decode stream frame" _ >>= _) = Except.error e := h
        cases hunion : FlatbuffersEnvelope.message rt env with
        | none =>
          rw [hunion] at h
          exact .inr (.inl (Except.error.inj h).symm)
        | some union =>
          rw [hunion] at h
          cases union with
          | none => exact .inr (.inr (.inl (Except.error.inj h).symm))
          | some stream => exact .inr (.inl (orEnvelopeError_eq_error h))

/-! ## Top theorems (proved from the lemmas above) -/

/-- **Nothing outside the frame is delivered**, whatever octets come in. -/
theorem decode_sound (hrt : rt.Reads) (b : Bytes) :
    (∀ f, decode rt b = .ok f →
      messageType rt b = .ok MESSAGE_TYPE_STREAM ∧
      decodeAck rt b = .error ⟨"expected StreamAck (type 5), got type 4"⟩ ∧
      f.createdAt < 2 ^ 32 ∧
      ∀ x ∈ f.octets, x.length < 2 ^ 32 ∧ x.length ≤ b.length ∧
        (x = [] ∨ ∃ i, VectorAt b i x)) ∧
    ((∃ f, decode rt b = .ok f) ∨ ∃ e : EnvelopeError, decode rt b = .error e ∧
      (e = ⟨"frame is not a valid envelope"⟩ ∨ e = ⟨"failed to decode stream frame"⟩ ∨
      e = ⟨"Stream envelope has no message value"⟩ ∨
      ∃ tag, messageType rt b = .ok tag ∧ tag ≠ MESSAGE_TYPE_STREAM ∧
        e = ⟨"expected Stream (type 4), got type " ++ toString tag⟩)) := by
  constructor
  · intro f hf
    obtain ⟨env, stream, hroot, htag, hunion, hread⟩ := (decode_eq_ok rt).mp hf
    have henv : env.bytes = b := by
      obtain ⟨n, -, rfl⟩ := (root_eq_ok rt).mp hroot
      rfl
    have hstream : stream.bytes = b := by
      unfold FlatbuffersEnvelope.message at hunion
      obtain ⟨o, -, hunion⟩ := Option.bind_eq_some_iff.mp hunion
      split at hunion
      · obtain ⟨pos, -, hs⟩ := Option.map_eq_some_iff.mp hunion
        rw [← Option.some.inj hs, henv]
      · cases hunion
    have hfield {t : Table} {vtableOffset : Nat} {x : Bytes} (ht : t.bytes = b)
        (h : ReadAs rt t vtableOffset x) : x.length < 2 ^ 32 ∧ x.length ≤ b.length ∧
          (x = [] ∨ ∃ i, VectorAt b i x) := by
      subst ht
      obtain ⟨hlt, hat⟩ := vectorAt_of_read hrt h
      exact ⟨hlt, length_le_of_read hrt h, hat⟩
    obtain ⟨htopic, htxid, hsender, htype, hdevice, hpayload, hcreated, hid⟩ :=
      (readStream_eq_some rt).mp hread
    refine ⟨messageType_eq_ok rt hroot htag, decodeAck_of_tag rt hroot htag (by decide),
      createdAt_lt hrt hcreated, ?_⟩
    simp only [StreamFrame.octets, List.forall_mem_cons]
    exact ⟨hfield henv htopic, hfield henv htxid, hfield hstream hsender, hfield hstream htype,
      hfield hstream hdevice, hfield hstream hpayload, hfield henv hid, by simp⟩
  · cases h : decode rt b with
    | ok f => exact .inl ⟨f, rfl⟩
    | error e => exact .inr ⟨e, rfl, decode_eq_error rt h⟩

theorem sampleFrame_sound :
    decode reference sampleBytes = .ok sampleFrame ∧
      messageType reference sampleBytes = .ok MESSAGE_TYPE_STREAM ∧
      ∃ i, VectorAt sampleBytes i sampleFrame.payload := by
  have hdecode : decode reference sampleBytes = .ok sampleFrame := rfl
  obtain ⟨htag, -, -, hfields⟩ :=
    (decode_sound reference reference_documented.toReads sampleBytes).1 _ hdecode
  refine ⟨hdecode, htag, ?_⟩
  obtain ⟨-, -, h | h⟩ := hfields sampleFrame.payload (by simp [StreamFrame.octets])
  · cases h
  · exact h

end FleetTelemetry
