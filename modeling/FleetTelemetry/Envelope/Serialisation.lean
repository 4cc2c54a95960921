import FleetTelemetry.Envelope.Codec

/-!
# Every serialisation decodes to what it holds

`Serialises…` says that a buffer is an envelope under `tesla.fbs`: tables, vtables and
vectors anywhere in it, fields that have their default left out or not.

    SerialisesStream b f → decode rt b = .ok f
    SerialisesAck b a → decodeAck rt b = .ok a                  (decode_of_serialises)
-/

namespace FleetTelemetry

open FlatBuffers

/-! ## The schema -/

/-- The slots of `FlatbuffersEnvelope`: `txid`, `topic`, the tag and the table of the union
`message`, `message_id`. -/
def SerialisesEnvelope (b txid topic messageId : Bytes) (tag : Nat) (message : Int) : Prop :=
  b.length ≤ 2 ^ 32 ∧ ∃ root < 256 ^ 4, At b 0 (toLE 4 root) ∧
    Holds b root
      [.vector txid, .vector topic, .scalar 1 tag, .table message, .vector messageId]

/-- The slots of `FlatbuffersStream`: `created_at`, `sender_id`, `payload`, `device_type`,
`device_id`. -/
def SerialisesStream (b : Bytes) (f : StreamFrame) : Prop :=
  ∃ message, SerialisesEnvelope b f.txid f.topic f.messageId MESSAGE_TYPE_STREAM message ∧
    Holds b message [.scalar 4 f.createdAt, .vector f.senderId, .vector f.payload,
      .vector f.deviceType, .vector f.deviceId]

/-- `FlatbuffersStreamAck` has no slots. -/
def SerialisesAck (b : Bytes) (a : AckFrame) : Prop :=
  ∃ message, SerialisesEnvelope b a.txid a.topic a.messageId MESSAGE_TYPE_STREAM_ACK message ∧
    Holds b message []

/-! ## Lemmas -/

section
variable {rt : Runtime} (hrt : rt.Reads) {b : Bytes} (hlen : b.length ≤ 2 ^ 32)
include hrt hlen

/-- The accessor of a number reads what the table holds. -/
theorem scalar_of_holds {get : Bytes → Int → Option Nat} {width n k : Nat} {pos : Int}
    {fields : List Field} (hget : ∀ i, ReadsAs b (get b i) (read width b i))
    (h : Holds b pos fields) (hk : fields[k]? = some (.scalar width n)) :
    ((rt.offset b pos (4 + 2 * k)).bind fun o => if o ≠ 0 then get b (o + pos) else some 0) =
      some n := by
  obtain ⟨o, ho, ⟨rfl, rfl⟩ | ⟨hne, hr⟩⟩ := h.scalar hk
  · rw [(hrt.offset ..).2 hlen, ho]
    rfl
  · rw [(hrt.offset ..).2 hlen, ho, Option.bind_some, if_pos hne, (hget _).2 hlen, Int.add_comm, hr]

theorem readAs_of_vector {pos : Int} {fields : List Field} (h : Holds b pos fields) {k : Nat}
    {xs : Bytes} (hk : fields[k]? = some (.vector xs)) : ReadAs rt ⟨b, pos⟩ (4 + 2 * k) xs :=
  readAs_of_holds hrt (t := ⟨b, pos⟩) hlen (h.vector hk)

omit hlen in
/-- What an envelope of either kind has: its tag, its union and its three vectors. -/
theorem reads_of_envelope {txid topic messageId : Bytes} {tag : Nat} {message : Int}
    (h : SerialisesEnvelope b txid topic messageId tag message) :
    ∃ env, root rt b = .ok env ∧ FlatbuffersEnvelope.messageType rt env = some tag ∧
      FlatbuffersEnvelope.message rt env = some (some ⟨b, message⟩) ∧
      ReadAs rt env 4 txid ∧ ReadAs rt env 6 topic ∧ ReadAs rt env 12 messageId := by
  obtain ⟨hlen, r, hr, hat, henv⟩ := h
  refine ⟨⟨b, r⟩, (root_eq_ok rt).mpr ⟨r, ?_, rfl⟩, ?_, ?_, ?_, ?_, ?_⟩
  · rw [(hrt.getUint32 ..).2 hlen]
    exact hat.read_toLE hr
  · exact scalar_of_holds hrt hlen (hrt.getUint8 b) henv (k := 2) rfl
  · obtain ⟨o, ho, hne, hq⟩ := henv.table (k := 3) rfl
    unfold FlatbuffersEnvelope.message
    rw [(hrt.offset ..).2 hlen, ho, Option.bind_some, if_pos hne, (hrt.union ..).2 hlen, hq]
    rfl
  · exact readAs_of_vector hrt hlen henv (k := 0) rfl
  · exact readAs_of_vector hrt hlen henv (k := 1) rfl
  · exact readAs_of_vector hrt hlen henv (k := 4) rfl

end

/-! ## Top theorems (proved from the lemmas above) -/

/-- **A serialisation decodes to what it holds**, however it is laid out. -/
theorem decode_of_serialises (rt : Runtime) (hrt : rt.Reads) (b : Bytes) :
    (∀ f, SerialisesStream b f → decode rt b = .ok f) ∧
    (∀ a, SerialisesAck b a → decodeAck rt b = .ok a) := by
  constructor
  · rintro f ⟨message, henvelope, hstream⟩
    obtain ⟨env, hroot, htag, hunion, htxid, htopic, hid⟩ := reads_of_envelope hrt henvelope
    have hlen := henvelope.1
    refine (decode_eq_ok rt).mpr ⟨env, _, hroot, htag, hunion, (readStream_eq_some rt).mpr ?_⟩
    refine ⟨htopic, htxid, ?_, ?_, ?_, ?_, ?_, hid⟩
    · exact readAs_of_vector hrt hlen hstream (k := 1) rfl
    · exact readAs_of_vector hrt hlen hstream (k := 3) rfl
    · exact readAs_of_vector hrt hlen hstream (k := 4) rfl
    · exact readAs_of_vector hrt hlen hstream (k := 2) rfl
    · exact scalar_of_holds hrt hlen (hrt.getUint32 b) hstream (k := 0) rfl
  · rintro a ⟨message, henvelope, -⟩
    obtain ⟨env, hroot, htag, -, htxid, htopic, hid⟩ := reads_of_envelope hrt henvelope
    exact (decodeAck_eq_ok rt).mpr
      ⟨env, hroot, htag, (readAck_eq_some rt).mpr ⟨htopic, htxid, hid⟩⟩

/-- A frame laid out as `encodeAck` would not: the envelope's vtable behind its table and cut
short, two fields of the stream left out. -/
def sampleBytes : Bytes :=
  -- the root, the envelope at 4, its vtable at 24
  [4, 0, 0, 0, 236, 255, 255, 255, 60, 0, 0, 0, 64, 0, 0, 0, 32, 0, 0, 0, 4, 0, 0, 0,
   12, 0, 20, 0, 4, 0, 8, 0, 16, 0, 12, 0,
   -- the vtable of the stream at 36, the stream at 48
   10, 0, 12, 0, 4, 0, 0, 0, 8, 0, 0, 0, 12, 0, 0, 0, 9, 0, 0, 0, 4, 0, 0, 0,
   -- the vectors at 60, 68 and 76
   2, 0, 0, 0, 10, 20, 0, 0, 1, 0, 0, 0, 7, 0, 0, 0, 1, 0, 0, 0, 86]

def sampleFrame : StreamFrame := ⟨[86], [7], [], [], [], [10, 20], 9, []⟩

theorem sampleBytes_decode :
    SerialisesStream sampleBytes sampleFrame ∧
      decode reference sampleBytes = .ok sampleFrame := by
  have hat (n : Nat) (hn : n ≤ sampleBytes.length) (xs : Bytes)
      (h : (sampleBytes.drop n).take xs.length = xs) : At sampleBytes n xs := at_of_take hn h
  have h : SerialisesStream sampleBytes sampleFrame := by
    refine ⟨48, ⟨by decide, 4, by decide, hat 0 (by decide) _ (by decide), [4, 8, 16, 12],
      ⟨24, 20, ⟨by decide, by decide, hat 4 (by decide) _ (by decide)⟩, by decide,
        hat 24 (by decide) _ (by decide)⟩, ?_⟩, [4, 0, 8],
      ⟨36, 12, ⟨by decide, by decide, hat 48 (by decide) _ (by decide)⟩, by decide,
        hat 36 (by decide) _ (by decide)⟩, ?_⟩
    · rintro (_ | _ | _ | _ | _ | k) f hk
      · obtain rfl := Option.some.inj hk
        exact ⟨by decide, .inr ⟨by decide, 60, by decide, hat 8 (by decide) _ (by decide),
          hat 68 (by decide) _ (by decide)⟩⟩
      · obtain rfl := Option.some.inj hk
        exact ⟨by decide, .inr ⟨by decide, 64, by decide, hat 12 (by decide) _ (by decide),
          hat 76 (by decide) _ (by decide)⟩⟩
      · obtain rfl := Option.some.inj hk
        exact ⟨by decide, .inr ⟨by decide, hat 20 (by decide) _ (by decide)⟩⟩
      · obtain rfl := Option.some.inj hk
        exact ⟨by decide, 32, by decide, hat 16 (by decide) _ (by decide), by decide⟩
      · obtain rfl := Option.some.inj hk
        exact ⟨by decide, .inl ⟨rfl, rfl⟩⟩
      · cases hk
    · rintro (_ | _ | _ | _ | _ | k) f hk
      · obtain rfl := Option.some.inj hk
        exact ⟨by decide, .inr ⟨by decide, hat 52 (by decide) _ (by decide)⟩⟩
      · obtain rfl := Option.some.inj hk
        exact ⟨by decide, .inl ⟨rfl, rfl⟩⟩
      · obtain rfl := Option.some.inj hk
        exact ⟨by decide, .inr ⟨by decide, 4, by decide, hat 56 (by decide) _ (by decide),
          hat 60 (by decide) _ (by decide)⟩⟩
      · obtain rfl := Option.some.inj hk
        exact ⟨by decide, .inl ⟨rfl, rfl⟩⟩
      · obtain rfl := Option.some.inj hk
        exact ⟨by decide, .inl ⟨rfl, rfl⟩⟩
      · cases hk
  exact ⟨h, (decode_of_serialises reference reference_documented.toReads sampleBytes).1 _ h⟩

end FleetTelemetry
