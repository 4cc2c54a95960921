import FleetTelemetry.Envelope.Acceptance
import FleetTelemetry.Server.Frames

/-!
# Another FlatBuffers runtime

`_envelope` is the one module that knows the FlatBuffers runtime.  Two runtimes that keep
the documented interface cannot be told apart by the server, and by a vehicle only by the
octets of an acknowledgement, never by what it decodes to:

    after lib n es = after lib' n es ∧
      (log lib n es).map decoded = (log lib' n es).map decoded          (backend_independent)
-/

namespace FleetTelemetry

open Runs

/-! ## Algorithm -/

/-- The same packages with another FlatBuffers runtime. -/
def Libraries.withFlatbuffers {V : Type} (lib : Libraries V) (rt : FlatBuffers.Runtime) :
    Libraries V := { lib with flatbuffers := rt }

namespace Server

variable {V : Type}

/-- An observation, with an acknowledgement as what it decodes to. -/
def Obs.decoded (rt : FlatBuffers.Runtime) : Obs V → Obs V × Option AckFrame
  | .sending i ack => (.sending i [], (decodeAck rt ack).toOption)
  | o => (o, none)

/-! ## Lemmas -/

theorem toOption_eq_some {ε α : Type} {x : Except ε α} {a : α} :
    x.toOption = some a ↔ x = .ok a := by
  cases x <;> simp [Except.toOption]

/-- Which messages are accepted, and as which frames, is documented. -/
theorem accept_withFlatbuffers {lib : Libraries V} {rt : FlatBuffers.Runtime}
    (hrt : lib.flatbuffers.Reads) (hrt' : rt.Reads) (msg : WSMessage) :
    accept (lib.withFlatbuffers rt) msg = accept lib msg := by
  unfold accept
  split
  · next h =>
    have hlen : msg.data.length ≤ 2 ^ 32 := h.2.trans (by decide)
    refine Option.ext fun f => ?_
    rw [toOption_eq_some, toOption_eq_some, decode_holds hrt hlen]
    exact decode_holds hrt' hlen f
  · rfl

section
variable {lib : Libraries V} (s : Server V) (i : Nat) (ss : Session V) (msg : WSMessage)
  (now : Nat)

/-- A message that is not accepted is skipped. -/
theorem handleMessage_skips (h : accept lib msg = none) :
    s.handleMessage lib i ss msg now = (s.goto i ss .receiving, []) := by
  unfold handleMessage
  split
  · rfl
  · next ht =>
    split
    · rfl
    · next hl =>
      unfold accept at h
      rw [if_pos ⟨not_not.mp ht, by omega⟩] at h
      unfold processFrame
      cases hd : decode lib.flatbuffers msg.data with
      | error e => rfl
      | ok f =>
        rw [hd] at h
        cases h

/-- A message that is accepted is acknowledged. -/
theorem handleMessage_replies {f : StreamFrame} {ack : Bytes} (h : reply lib msg = some (f, ack)) :
    s.handleMessage lib i ss msg now = (s.goto i ss (.acking f), [.sending i ack]) := by
  obtain ⟨hacc, hack⟩ := reply_eq_some.mp h
  obtain ⟨ht, hl, hd⟩ := accept_eq_some.mp hacc
  replace hack : encodeAck lib.flatbuffers f.txid f.topic f.messageId = some ack := hack
  unfold handleMessage processFrame
  rw [if_neg (not_not.mpr ht), if_neg (by omega), hd]
  simp only [hack]

end

theorem sending_not_mem_invoked (i : Nat) (ack : Bytes) (d : Option (Delivery V)) :
    .sending i ack ∉ invoked d := by
  cases d <;> simp [invoked]

/-- Only a message leads to an acknowledgement. -/
theorem sending_message {lib : Libraries V} {s : Server V} {e : Event} {i : Nat} {ack : Bytes}
    (h : .sending i ack ∈ s.seen lib e) : ∃ j msg now, e = .message j msg now := by
  have hm := step_move lib s e
  generalize s.step lib e = s' at hm
  generalize s.seen lib e = obs at hm h
  have hdispatch (s : Server V) (j : Nat) (ss : Session V) (stage : Stage) (record : Record V) :
      .sending i ack ∉ (s.dispatch j ss stage record).2 := by
    rw [dispatch_seen, List.mem_cons, not_or]
    exact ⟨by simp, sending_not_mem_invoked i ack _⟩
  cases hm with
  | idle | environment => cases h
  | opened j request ss obs hnew hphase hobs =>
    obtain ⟨r, hr⟩ := hobs _ h
    cases hr
  | quiet e j ss p obs hs hq =>
    generalize ss.phase = p₀ at hq
    cases hq with
    | acknowledged msg now f ack' => exact ⟨j, msg, now, rfl⟩
    | skipped | unsent | unparsable | abandoned => simp at h
  | connect j ss now hs hp =>
    rcases List.mem_cons.mp h with h | h
    · cases h
    · exact absurd h (hdispatch _ _ _ _ _)
  | frame j ss f record hs hp hr =>
    rcases List.mem_cons.mp h with h | h
    · cases h
    · exact absurd h (hdispatch _ _ _ _ _)
  | disconnect e j ss raised now pre hs hl =>
    rcases List.mem_append.mp h with hpre | hrest
    · generalize ss.phase = p₀ at hl
      cases hl <;> simp at hpre
    · by_cases hj : s.holder ss.vin = some j
      · rw [disconnect_of_holder s j ss hj] at hrest
        rcases List.mem_cons.mp hrest with hrest | hrest
        · cases hrest
        · exact absurd hrest (hdispatch _ _ _ _ _)
      · rw [disconnect_of_not_holder s j ss hj] at hrest
        simp at hrest
  | resume j ss stage d hs hp => exact absurd h (sending_not_mem_invoked i ack _)

section
variable {lib : Libraries V} {rt : FlatBuffers.Runtime}

/-- A step that is not one on a message. -/
theorem decoded_of_not_message (s : Server V) {e : Event} (he : ∀ i msg now, e ≠ .message i msg now) :
    s.step lib e = s.step (lib.withFlatbuffers rt) e ∧
      (s.seen lib e).map (Obs.decoded lib.flatbuffers) =
        (s.seen (lib.withFlatbuffers rt) e).map (Obs.decoded rt) := by
  have hexec : s.exec lib e = s.exec (lib.withFlatbuffers rt) e := by
    cases e with
    | message i msg now => exact absurd rfl (he i msg now)
    | _ => rfl
  have hseen : s.seen lib e = s.seen (lib.withFlatbuffers rt) e := congrArg Prod.snd hexec
  refine ⟨congrArg Prod.fst hexec, ?_⟩
  rw [← hseen]
  refine List.map_congr_left fun o ho => ?_
  cases o with
  | sending i ack =>
    obtain ⟨j, msg, now, rfl⟩ := sending_message ho
    exact absurd rfl (he j msg now)
  | _ => rfl

/-- Two runtimes handle a message alike. -/
theorem decoded_handleMessage (hdoc : lib.flatbuffers.Documented) (hdoc' : rt.Documented)
    (s : Server V) (i : Nat) (ss : Session V) (msg : WSMessage) (now : Nat) :
    (s.handleMessage lib i ss msg now).1 =
        (s.handleMessage (lib.withFlatbuffers rt) i ss msg now).1 ∧
      (s.handleMessage lib i ss msg now).2.map (Obs.decoded lib.flatbuffers) =
        (s.handleMessage (lib.withFlatbuffers rt) i ss msg now).2.map (Obs.decoded rt) := by
  have hsame := accept_withFlatbuffers hdoc.toReads hdoc'.toReads msg
  cases hacc : accept lib msg with
  | none =>
    rw [handleMessage_skips s i ss msg now hacc,
      handleMessage_skips s i ss msg now (hsame.trans hacc)]
    simp only [List.map_nil, and_self]
  | some f =>
    obtain ⟨ack, hreply, hdec⟩ := reply_of_accept hdoc hacc
    obtain ⟨ack', hreply', hdec'⟩ := @reply_of_accept V (lib.withFlatbuffers rt) hdoc' msg f
      (hsame.trans hacc)
    rw [handleMessage_replies s i ss msg now hreply, handleMessage_replies s i ss msg now hreply']
    refine ⟨rfl, ?_⟩
    simp only [List.map_cons, List.map_nil, Obs.decoded]
    rw [hdec]
    replace hdec' : decodeAck rt ack' = _ := hdec'
    rw [hdec']

theorem decoded_step (hdoc : lib.flatbuffers.Documented) (hdoc' : rt.Documented) (s : Server V)
    (e : Event) :
    s.step lib e = s.step (lib.withFlatbuffers rt) e ∧
      (s.seen lib e).map (Obs.decoded lib.flatbuffers) =
        (s.seen (lib.withFlatbuffers rt) e).map (Obs.decoded rt) := by
  by_cases he : ∃ i msg now, e = .message i msg now
  · obtain ⟨i, msg, now, rfl⟩ := he
    unfold step seen
    simp only [exec]
    split
    · next ss hs =>
      split
      · obtain ⟨hstate, hobs⟩ := decoded_handleMessage hdoc hdoc' s i ss msg now
        refine ⟨hstate, ?_⟩
        simp only [List.map_cons, hobs, Obs.decoded]
      · simp only [List.map_nil, and_self]
    · simp only [List.map_nil, and_self]
  · exact decoded_of_not_message s fun i msg now h => he ⟨i, msg, now, h⟩

end

/-! ## Top theorems (proved from the lemmas above) -/

/-- **The FlatBuffers runtime can be replaced.**  With any two runtimes that keep the documented
interface, every run leads to the same state of the server and shows the same, but for the octets
of the acknowledgements; and these decode to the same. -/
theorem backend_independent (lib : Libraries V) (rt : FlatBuffers.Runtime)
    (hdoc : lib.flatbuffers.Documented) (hdoc' : rt.Documented) (n : Nat) (es : List Event) :
    after lib n es = after (lib.withFlatbuffers rt) n es ∧
      (log lib n es).map (Obs.decoded lib.flatbuffers) =
        (log (lib.withFlatbuffers rt) n es).map (Obs.decoded rt) := by
  unfold after log
  induction es using List.reverseRecOn with
  | nil => simp only [run_nil, outputs, List.map_nil, and_self]
  | append_singleton es e ih =>
    obtain ⟨hstate, hlog⟩ := ih
    rw [run_snoc, run_snoc, outputs_snoc, outputs_snoc, List.map_append, List.map_append, hlog,
      ← hstate]
    obtain ⟨hstep, hseen⟩ := decoded_step hdoc hdoc' (run (step lib) (init n) es) e
    exact ⟨hstep, congrArg _ hseen⟩

/-- The reference runtime with a builder that writes vectors without padding. -/
def unpadded : FlatBuffers.Runtime :=
  { FlatBuffers.reference with
    createByteVector := fun b x =>
      match b.object with
      | some _ => none
      | none => ((b.prepend x).prepend (FlatBuffers.toLE 4 x.length)).fits.map fun b =>
        (b, b.bytes.length) }

theorem unpadded_putAll (b : FlatBuffers.Builder) (slots : List (Nat × FlatBuffers.Slot)) :
    unpadded.putAll b slots = FlatBuffers.reference.putAll b slots := by
  induction slots generalizing b with
  | nil => rfl
  | cons slot slots ih =>
    obtain ⟨k, v | off⟩ := slot
    · exact congrArg (Option.bind (b.prependUint8Slot k v 0)) (funext ih)
    · exact congrArg (Option.bind (b.prependUOffsetTRelativeSlot k off 0)) (funext ih)

theorem unpadded_object (b : FlatBuffers.Builder) (n : Nat) (slots : List (Nat × FlatBuffers.Slot)) :
    unpadded.object b n slots = FlatBuffers.reference.object b n slots :=
  congrArg (Option.bind (b.startObject n)) (funext fun b =>
    congrArg (fun b => Option.bind b FlatBuffers.Builder.endObject) (unpadded_putAll b slots))

theorem unpadded_documented : unpadded.Documented :=
  { FlatBuffers.reference_documented with
    object := by
      intro (b : FlatBuffers.Builder) w n slots hw hmax hfit
      rw [unpadded_object]
      exact FlatBuffers.reference_documented.object b w n slots hw hmax hfit
    createByteVector := by
      rintro ⟨bytes, object⟩ w x hw
      cases object with
      | some o => cases hw
      | none =>
        obtain rfl : bytes = w := Option.some.inj hw
        have hlen : (FlatBuffers.toLE 4 x.length ++ (x ++ bytes)).length =
            4 + x.length + bytes.length := by
          simp only [List.length_append, FlatBuffers.length_toLE]
          omega
        refine .map (FlatBuffers.builds_fits ?_ fun hmax => ⟨[], ?_, by decide, ?_, hmax⟩)
        · show (FlatBuffers.toLE 4 x.length ++ (x ++ bytes)).length ≤ _
          omega
        · show some (FlatBuffers.toLE 4 x.length ++ (x ++ bytes)) = _
          simp
        · exact hlen }

theorem oneFrame_unpadded :
    after sampleLibraries 1 oneFrame = after (sampleLibraries.withFlatbuffers unpadded) 1 oneFrame ∧
      log sampleLibraries 1 oneFrame ≠ log (sampleLibraries.withFlatbuffers unpadded) 1 oneFrame := by
  obtain ⟨hstate, -⟩ := backend_independent sampleLibraries unpadded
    FlatBuffers.reference_documented unpadded_documented 1 oneFrame
  refine ⟨hstate, fun h => ?_⟩
  have hack := congrArg (List.filterMap fun | .sending _ ack => some ack | _ => none) h
  revert hack
  decide +kernel

end Server

end FleetTelemetry
