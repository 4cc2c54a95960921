import FleetTelemetry.Envelope.AckRoundTrip
import FleetTelemetry.Server.SessionLog

/-!
# Frames: acknowledged, then dispatched

With the documented FlatBuffers runtime every accepted frame has an acknowledgement,
so no message makes `_handle` raise:

    lib.flatbuffers.Documented → the acts on messages are X.flatMap exchange, in order,
      and every frame accepted has its acknowledgement        (frames_acked_then_dispatched)
-/

namespace FleetTelemetry

namespace Server

variable {V : Type} {lib : Libraries V}

/-! ## Lemmas -/

theorem accept_eq_some {msg : WSMessage} {f : StreamFrame} :
    accept lib msg = some f ↔ msg.type = .binary ∧ msg.data.length ≤ SIZE_LIMIT ∧
      decode lib.flatbuffers msg.data = .ok f := by
  unfold accept
  constructor
  · intro h
    split at h
    · next hc =>
      cases hd : decode lib.flatbuffers msg.data with
      | error e => rw [hd] at h; cases h
      | ok g =>
        rw [hd] at h
        exact ⟨hc.1, hc.2, congrArg _ (Option.some.inj h)⟩
    · cases h
  · rintro ⟨ht, hl, hd⟩
    rw [if_pos ⟨ht, hl⟩, hd]
    rfl

/-- A frame that is accepted can be acknowledged: the builder has room for what it echoes. -/
theorem reply_of_accept (hdoc : lib.flatbuffers.Documented) {msg : WSMessage} {f : StreamFrame}
    (h : accept lib msg = some f) :
    ∃ ack, reply lib msg = some (f, ack) ∧
      decodeAck lib.flatbuffers ack = .ok ⟨f.topic, f.txid, f.messageId⟩ := by
  obtain ⟨-, hl, hd⟩ := accept_eq_some.mp h
  obtain ⟨ht, hx, hm, -⟩ := decode_bounds hdoc.toReads hd
  have hsize : f.txid.length + f.topic.length + f.messageId.length + 128 ≤
      FlatBuffers.maxBufferSize := by
    unfold SIZE_LIMIT at hl
    unfold FlatBuffers.maxBufferSize
    omega
  obtain ⟨ack, henc, hdec⟩ := decodeAck_encodeAck hdoc f.txid f.topic f.messageId hsize
  exact ⟨ack, reply_eq_some.mpr ⟨h, henc⟩, hdec⟩

theorem reply_isSome (hdoc : lib.flatbuffers.Documented) (msg : WSMessage) :
    (reply lib msg).isSome = (accept lib msg).isSome := by
  cases h : accept lib msg with
  | none => rw [reply_eq_none h]; rfl
  | some f =>
    obtain ⟨ack, hr, -⟩ := reply_of_accept hdoc h
    rw [hr]; rfl

/-- The record of a frame: its topic is one of the four, octet by octet, and its class parses the
payload. -/
theorem recordOf_eq_some (hdoc : lib.flatbuffers.Documented) (vin : String) {msg : WSMessage}
    {f : StreamFrame} (h : accept lib msg = some f) (r : Record V) :
    recordOf lib vin f = some r ↔ ∃ t m, f.topic = t.bytes ∧ lib.parse t f.payload = some m ∧
      r = ⟨vin, t, f.createdAt * 1000000, decodeReplace f.txid, m, f.payload⟩ := by
  obtain ⟨-, -, hd⟩ := accept_eq_some.mp h
  have hlt := (decode_bounds hdoc.toReads hd).2.2.2
  have htime : fromtimestamp f.createdAt = some (f.createdAt * 1000000) := if_pos (by omega)
  unfold recordOf parseRecord
  rw [htime]
  constructor
  · intro hr
    split at hr
    · cases hr
    · next t ht =>
      split at hr
      · cases hr
      · next m hm => exact ⟨t, m, (parseTopic_eq_some _ t).mp ht, hm, (Option.some.inj hr).symm⟩
  · rintro ⟨t, m, ht, hm, rfl⟩
    rw [(parseTopic_eq_some _ t).mpr ht]
    simp only [hm]
    rfl

/-! ## Top theorems (proved from the lemmas above) -/

/-- **Frames are acknowledged, then dispatched.**  What a session does on the messages it gets, in
any run in which nothing raises in it, is one `exchange` for each message, in order; each frame
accepted has an acknowledgement that decodes to its own fields; and the session is not left by
an exception. -/
theorem frames_acked_then_dispatched (lib : Libraries V) (hdoc : lib.flatbuffers.Documented)
    (n : Nat) (es : List Event) (i : Nat) (ss : Session V)
    (hs : (after lib n es).session i = some ss) (hno : ∀ now, .raises i now ∉ es) :
    (∃ X : List Exchange,
      (acts i (log lib n es)).filterMap Act.message = X.map Prod.fst ∧
      (acts i (log lib n es)).filterMap Act.outcome = X.filterMap Prod.snd ∧
      (acts i (log lib n es)).filter Act.onMessage = X.flatMap (exchange lib ss.vin i) ∧
      (∀ x ∈ X, x.2.isSome → (accept lib x.1).isSome) ∧
      ((∀ f, ss.phase ≠ .acking f) → ∀ x ∈ X, (accept lib x.1).isSome → x.2.isSome)) ∧
    (∀ msg f, accept lib msg = some f ↔ msg.type = .binary ∧ msg.data.length ≤ SIZE_LIMIT ∧
      decode lib.flatbuffers msg.data = .ok f) ∧
    (∀ msg f, accept lib msg = some f → ∃ ack, reply lib msg = some (f, ack) ∧
      decodeAck lib.flatbuffers ack = .ok ⟨f.topic, f.txid, f.messageId⟩) ∧
    (∀ msg f, accept lib msg = some f → ∀ r, recordOf lib ss.vin f = some r ↔
      ∃ t m, f.topic = t.bytes ∧ lib.parse t f.payload = some m ∧
        r = ⟨ss.vin, t, f.createdAt * 1000000, decodeReplace f.txid, m, f.payload⟩) ∧
    (Raised ss.phase → acts i (log lib n es) = []) := by
  obtain ⟨X, hm, ho, hf, -, hsome, hdone, hraised⟩ :=
    ((scripted_run lib (init n) es rfl hno).script hs).exchanges
  simp only [reply_isSome hdoc] at hsome hdone
  refine ⟨⟨X, hm, ho, hf, hsome, hdone⟩, fun _ _ => accept_eq_some, fun _ _ => reply_of_accept hdoc,
    fun _ _ h => recordOf_eq_some hdoc ss.vin h, fun h => ?_⟩
  rcases hraised h with hnil | ⟨x, -, ha, hr⟩
  · exact hnil
  · obtain ⟨f, hacc⟩ := Option.ne_none_iff_exists'.mp ha
    obtain ⟨ack, hrep, -⟩ := reply_of_accept hdoc hacc
    rw [hr] at hrep
    cases hrep

/-- A `Stream` envelope of the topic `V` with no other field. -/
def emptyFrame : Bytes :=
  [16, 0, 0, 0, 12, 0, 16, 0, 0, 0, 4, 0, 12, 0, 8, 0, 12, 0, 0, 0, 12, 0, 0, 0, 20, 0, 0, 0,
    4, 0, 0, 0, 1, 0, 0, 0, 86, 0, 0, 0, 4, 0, 4, 0, 4, 0, 0, 0]

/-- A frame that is acknowledged, after a message that is not one. -/
def oneFrame : List Event :=
  [.request 0 sampleRequest, .prepared 0 5, .message 0 ⟨.text, []⟩ 6,
    .message 0 ⟨.binary, emptyFrame⟩ 7, .sent 0 true]

theorem oneFrame_acked :
    let X : List Exchange := [(⟨.text, []⟩, none), (⟨.binary, emptyFrame⟩, some true)]
    (acts 0 (log sampleLibraries 1 oneFrame)).filter Act.onMessage =
        X.flatMap (exchange sampleLibraries "V" 0) ∧
      ∃ ack call, exchange sampleLibraries "V" 0 (⟨.binary, emptyFrame⟩, some true) =
          [.received ⟨.binary, emptyFrame⟩, .sending ack, .sent true, .dispatched call] ∧
        frameCall sampleLibraries "V" 0 (⟨.binary, emptyFrame⟩, some true) = some call ∧
        decodeAck sampleLibraries.flatbuffers ack = .ok ⟨Topic.data.bytes, [], []⟩ ∧
        call.record = ⟨"V", .data, 0, "", emptyMessage .data, []⟩ := by
  intro X
  have hs : (after sampleLibraries 1 oneFrame).session 0 =
      some ⟨"V", "192.0.2.1", none, .receiving⟩ := by rfl
  have hdoc : sampleLibraries.flatbuffers.Documented := FlatBuffers.reference_documented
  obtain ⟨⟨Y, hm, ho, hf, hbegun, hdone⟩, -, hack, hrecord, -⟩ :=
    frames_acked_then_dispatched sampleLibraries hdoc 1 oneFrame 0 _ hs (by simp [oneFrame])
  simp only [← reply_isSome hdoc] at hbegun hdone
  have hX : ∀ x ∈ X, Complete sampleLibraries x := by
    unfold Complete
    decide +kernel
  obtain rfl : Y = X := exchanges_determined (complete_iff.mpr ⟨hbegun, hdone nofun⟩) hX
    (hm.symm.trans rfl) (ho.symm.trans rfl)
  refine ⟨hf, ?_⟩
  have hacc : accept sampleLibraries ⟨.binary, emptyFrame⟩ =
      some ⟨Topic.data.bytes, [], [], [], [], [], 0, []⟩ := by decide +kernel
  obtain ⟨ack, hrep, hdec⟩ := hack _ _ hacc
  have hr : recordOf sampleLibraries "V" _ = _ := (hrecord _ _ hacc _).mpr ⟨.data, emptyMessage .data, rfl, rfl, rfl⟩
  refine ⟨ack, ⟨0, .frame, _⟩, ?_, ?_, hdec, rfl⟩
  · rw [exchange_sent hrep, exchange_sending hrep, hr]
    rfl
  · unfold frameCall
    rw [hrep]
    exact congrArg (Option.map _) hr

end Server

end FleetTelemetry
