import FleetTelemetry.Dispatch.StreamLoss
import FleetTelemetry.Server.ConnectionHistory
import FleetTelemetry.Server.Delivery

/-!
# Delivery to iterators

From the socket of a vehicle to a `records()` loop: what a stream has yielded, with
what is queued for it, is the calls the sessions made since it was opened, but for
what its queue dropped:

    yielded ++ queued = fanned out ↔ the queue always had room            (iterator_lossless_iff)
    of session i: a subsequence of CONNECTED, one call for each frame acknowledged
    and parsed, DISCONNECTED; all of them where the queue always had room (iterator_receives_session)
-/

namespace FleetTelemetry

open Runs

namespace Server

variable {V : Type} (lib : Libraries V)

/-! ## Algorithm -/

/-- The queue of stream `q` has room for what the step dispatches. -/
def KeepsUp (n q : Nat) (s : Server V) (e : Event) : Prop :=
  (s.seen lib e).filterMap dispatched ≠ [] → q ∈ s.streams.queues →
    (s.streams.stream q).queued.length < n

/-- The events that a run gives to the iterators. -/
def streamRun (n : Nat) (es : List Event) : List (StreamEvent (Call V)) :=
  outputs (step lib) (streamEvents lib) (init n) es

/-! ## Lemmas -/

variable {lib}

theorem streams_after (n : Nat) (es : List Event) :
    (after lib n es).streams = Streams.after n (streamRun lib n es) := streams_refines n es

theorem filterMap_dispatched (obs : List (Obs V)) :
    (obs.filterMap fun o => (dispatched o).bind fun call => some (StreamEvent.dispatch call)) =
      (obs.filterMap dispatched).map .dispatch := by
  rw [List.map_filterMap]
  refine List.filterMap_congr fun o _ => ?_
  cases dispatched o <;> rfl

theorem dispatched_of_dispatch (s : Server V) (i : Nat) (ss : Session V) (stage : Stage)
    (record : Record V) :
    (s.dispatch i ss stage record).2.filterMap dispatched = [⟨i, stage.origin, record⟩] := by
  have h := dispatch_dispatched s i ss some stage record
  simpa using h

/-- A step makes one call at most. -/
theorem dispatched_step (lib : Libraries V) (s : Server V) (e : Event) :
    (s.seen lib e).filterMap dispatched = [] ∨
      ∃ call, ¬ Environment e ∧ (s.seen lib e).filterMap dispatched = [call] := by
  have hnil {obs : List (Obs V)} (h : (obs.filterMap fun o => (dispatched o).bind some) = []) :
      obs.filterMap dispatched = [] := by simpa using h
  have hm := step_move lib s e
  generalize s.step lib e = s' at hm
  generalize s.seen lib e = obs at hm ⊢
  cases hm with
  | idle | environment => exact .inl rfl
  | opened i request ss obs hnew hphase hobs =>
    exact .inl (filterMap_responded (fun _ _ => rfl) hobs)
  | quiet e i ss p obs hs hq => exact .inl (hnil (hq.dispatched_eq some))
  | connect i ss now hs hp =>
    exact .inr ⟨_, id, dispatched_of_dispatch
      { s with connections := s.connections.set ss.vin _ } i ss .connect _⟩
  | frame i ss f record hs hp hr => exact .inr ⟨_, id, dispatched_of_dispatch s i ss .frame record⟩
  | disconnect e i ss raised now pre hs hl =>
    rw [List.filterMap_append, hnil (hl.dispatched_eq some), List.nil_append]
    by_cases hh : s.holder ss.vin = some i
    · refine .inr ⟨⟨i, .disconnect, connectivityRecord ss.vin .disconnected now⟩, ?_, ?_⟩
      · generalize ss.phase = p at hl
        cases hl <;> exact id
      · rw [disconnect_of_holder s i ss hh]
        exact dispatched_of_dispatch { s with connections := s.connections.erase ss.vin } i ss
          (.disconnect raised) _
    · rw [disconnect_of_not_holder s i ss hh]
      exact .inl rfl
  | resume i ss stage d hs hp => exact .inl (hnil (dispatched_invoked some _))

/-- What a step gives to the iterators: a call it makes, or something of theirs. -/
theorem streamEvents_cases (lib : Libraries V) (s : Server V) (e : Event) :
    (∃ call, (s.seen lib e).filterMap dispatched = [call] ∧
      s.streamEvents lib e = [.dispatch call]) ∨
    ((s.seen lib e).filterMap dispatched = [] ∧ ∀ x ∈ s.streamEvents lib e,
      (∀ call, x ≠ .dispatch call) ∧ (x = .close → e = .cleanedUp)) := by
  unfold streamEvents
  rw [filterMap_dispatched]
  rcases dispatched_step lib s e with h | ⟨call, henv, h⟩
  · rw [h, List.map_nil, List.append_nil]
    refine .inr ⟨rfl, fun x hx => ?_⟩
    cases e with
    | records | onStream q m =>
      obtain rfl := List.mem_singleton.mp hx
      exact ⟨fun call => by simp, by simp⟩
    | cleanedUp =>
      refine ⟨?_, fun _ => rfl⟩
      rintro call rfl
      dsimp only at hx
      split at hx <;> simp at hx
    | _ => cases hx
  · rw [h]
    refine .inl ⟨call, rfl, ?_⟩
    cases e with
    | records | onStream | cleanedUp => exact absurd trivial henv
    | _ => rfl

theorem on_of_streamEvents {s : Server V} {e : Event} {q : Nat} {m : Method}
    (h : .on q m ∈ s.streamEvents lib e) : e = .onStream q m := by
  unfold streamEvents at h
  rw [filterMap_dispatched, List.mem_append] at h
  rcases h with h | h
  · cases e with
    | onStream p m' =>
      obtain ⟨rfl, rfl⟩ := StreamEvent.on.inj (List.mem_singleton.mp h)
      rfl
    | records => cases List.mem_singleton.mp h
    | cleanedUp =>
      dsimp only at h
      split at h <;> simp at h
    | _ => cases h
  · obtain ⟨call, -, hc⟩ := List.mem_map.mp h
    cases hc

/-- What the `Streams` machine fans out to a stream is what the server is seen to. -/
theorem fanned_eq (lib : Libraries V) (n q : Nat) (es : List Event) :
    Streams.fanned n q (streamRun lib n es) = (log lib n es).filterMap (fannedTo q) := by
  induction es using List.reverseRecOn with
  | nil => rfl
  | append_singleton es e ih =>
    unfold log streamRun Streams.fanned at *
    rw [outputs_snoc, outputs_snoc, outputs_append, List.filterMap_append, ih]
    refine congrArg _ ?_
    show outputs Streams.step _ (Streams.after n (streamRun lib n es))
      ((after lib n es).streamEvents lib e) = ((after lib n es).seen lib e).filterMap (fannedTo q)
    rw [← streams_after, fannedTo_seen]
    rcases streamEvents_cases lib (after lib n es) e with ⟨call, hd, hs⟩ | ⟨hd, hs⟩
    · rw [hd, hs]
      simp [outputs]
    · rw [hd, ite_self]
      generalize (after lib n es).streamEvents lib e = xs at hs
      generalize (after lib n es).streams = d
      induction xs generalizing d with
      | nil => rfl
      | cons x xs ihx =>
        rw [outputs, ihx fun y hy => hs y (List.mem_cons_of_mem _ hy), List.append_nil]
        cases x with
        | dispatch call => exact absurd rfl ((hs _ List.mem_cons_self).1 call)
        | records | on | close => rfl

theorem keepsUp_iff (lib : Libraries V) (n q : Nat) (s : Server V) (e : Event) :
    KeepsUp lib n q s e ↔
      Along Streams.step (Streams.Room n q) s.streams (s.streamEvents lib e) := by
  unfold KeepsUp
  rcases streamEvents_cases lib s e with ⟨call, hd, hs⟩ | ⟨hd, hs⟩
  · rw [hd, hs]
    show (_ → Streams.Room n q s.streams (.dispatch call)) ↔ _ ∧ True
    simp
  · rw [hd]
    refine iff_of_true (fun h => absurd rfl h) ?_
    generalize s.streamEvents lib e = xs at hs
    generalize s.streams = d
    induction xs generalizing d with
    | nil => trivial
    | cons x xs ih =>
      refine ⟨?_, ih (fun y hy => hs y (List.mem_cons_of_mem _ hy)) _⟩
      cases x with
      | dispatch call => exact absurd rfl ((hs _ List.mem_cons_self).1 call)
      | records | on | close => trivial

/-- **An iterator has lost nothing exactly if its queue had room for every call.** -/
theorem lossless_after (lib : Libraries V) {n : Nat} (hn : 0 < n) {es : List Event}
    (hes : .close ∉ streamRun lib n es) (q : Nat) :
    Along (step lib) (KeepsUp lib n q) (init n) es ↔
      ((after lib n es).streams.stream q).yielded ++ ((after lib n es).streams.stream q).queued =
        (log lib n es).filterMap (fannedTo q) := by
  rw [along_refines (step lib) _ step_streams (keepsUp_iff lib n q), streams_after, ← fanned_eq]
  exact Streams.stream_lossless_iff hn hes q

/-- A stream is registered only until the dispatcher is closed. -/
theorem close_not_mem {n q : Nat} {es : List Event}
    (hq : q ∈ (after lib n es).streams.queues) : .close ∉ streamRun lib n es := by
  rw [streams_after] at hq
  exact ((Streams.registered_iff n _ q).mp hq).2.1

theorem dispatchedBy_eq (i : Nat) (log : List (Obs V)) :
    log.filterMap (dispatchedBy i) =
      (log.filterMap dispatched).filter fun call => call.session = i := by
  induction log with
  | nil => rfl
  | cons o log ih =>
    cases o with
    | dispatched call queues =>
      rw [List.filterMap_cons_some (by rfl : dispatched (.dispatched call queues) = some call)]
      by_cases hi : call.session = i
      · have hd : dispatchedBy i (.dispatched call queues) = some call := if_pos hi
        rw [List.filterMap_cons_some hd, List.filter_cons_of_pos (by simpa), ih]
      · have hd : dispatchedBy i (.dispatched call queues) = none := if_neg hi
        rw [List.filterMap_cons_none hd, List.filter_cons_of_neg (by simpa), ih]
    | _ => exact ih

/-- A run on from where a stream was opened. -/
theorem after_records (lib : Libraries V) (n : Nat) (es₁ es₂ : List Event) :
    after lib n (es₁ ++ .records :: es₂) =
      run (step lib) (after lib n (es₁ ++ [.records])) es₂ := by
  unfold after
  rw [← run_append, List.append_assoc]
  rfl

/-- What was fanned out to a stream since it was opened, while it is open. -/
theorem fannedTo_since (lib : Libraries V) (n : Nat) (es₁ es₂ : List Event) :
    let q := (after lib n es₁).streams.created
    let since := outputs (step lib) (seen lib) (after lib n (es₁ ++ [.records])) es₂
    ((log lib n (es₁ ++ .records :: es₂)).filterMap (fannedTo q)) <+: since.filterMap dispatched ∧
      (q ∈ (after lib n (es₁ ++ .records :: es₂)).streams.queues →
        (log lib n (es₁ ++ .records :: es₂)).filterMap (fannedTo q) =
          since.filterMap dispatched) := by
  intro q since
  have hfirst : after lib n (es₁ ++ [.records]) = (after lib n es₁).step lib .records := run_snoc ..
  have hq : q < (after lib n (es₁ ++ [.records])).streams.created := by
    rw [hfirst]
    exact Nat.lt_succ_self _
  have hlog : log lib n (es₁ ++ .records :: es₂) = log lib n es₁ ++ since := by
    show outputs (step lib) (seen lib) (init n) (es₁ ++ .records :: es₂) = _
    rw [outputs_append, outputs]
    show _ ++ ([] ++ outputs (step lib) (seen lib) ((after lib n es₁).step lib .records) es₂) = _
    rw [List.nil_append, ← hfirst]
    rfl
  obtain ⟨a, b, rfl, hf, hb⟩ := fanned_prefix lib hq es₂
  rw [hlog, List.filterMap_append, fanned_before n es₁ q (Nat.le_refl _), List.nil_append, hf]
  constructor
  · show _ <+: (outputs (step lib) (seen lib) _ (a ++ b)).filterMap dispatched
    rw [outputs_append, List.filterMap_append]
    exact List.prefix_append _ _
  · intro hmem
    rw [after_records] at hmem
    obtain rfl := hb hmem
    show _ = (outputs (step lib) (seen lib) _ (a ++ [])).filterMap dispatched
    rw [List.append_nil]

theorem held_sublist (lib : Libraries V) (n q : Nat) (es : List Event) :
    (((after lib n es).streams.stream q).yielded ++
      ((after lib n es).streams.stream q).queued).Sublist ((log lib n es).filterMap (fannedTo q)) := by
  rw [streams_after, ← fanned_eq]
  exact Streams.held_sublist_fanned n q _

/-- What a stream holds of what was dispatched since it was opened. -/
theorem held_since (lib : Libraries V) (n : Nat) (es₁ es₂ : List Event) :
    let q := (after lib n es₁).streams.created
    let s := after lib n (es₁ ++ .records :: es₂)
    let since := (outputs (step lib) (seen lib) (after lib n (es₁ ++ [.records])) es₂).filterMap
      dispatched
    let held := (s.streams.stream q).yielded ++ (s.streams.stream q).queued
    held.Sublist since ∧
      (0 < n → q ∈ s.streams.queues → (held = since ↔
        Along (step lib) (KeepsUp lib n q) (init n) (es₁ ++ .records :: es₂))) := by
  intro q s since held
  obtain ⟨hfront, hall⟩ := fannedTo_since lib n es₁ es₂
  refine ⟨(held_sublist lib n q _).trans hfront.sublist, fun hn hq => ?_⟩
  rw [lossless_after lib hn (close_not_mem hq) q, hall hq]

/-! ## Top theorems (proved from the lemmas above) -/

/-- **What a `records()` loop gets.**  Of everything dispatched since its stream was opened it gets
a part, in order, in any run; and all of it, as long as the stream is registered, exactly if its
queue had room whenever something was dispatched. -/
theorem iterator_lossless_iff (lib : Libraries V) (n : Nat) (es₁ es₂ : List Event) :
    let q := (after lib n es₁).streams.created
    let s := after lib n (es₁ ++ .records :: es₂)
    let since := (outputs (step lib) (seen lib) (after lib n (es₁ ++ [.records])) es₂).filterMap
      dispatched
    let held := (s.streams.stream q).yielded ++ (s.streams.stream q).queued
    held.Sublist since ∧
      (0 < n → q ∈ s.streams.queues → (held = since ↔
        Along (step lib) (KeepsUp lib n q) (init n) (es₁ ++ .records :: es₂))) :=
  held_since lib n es₁ es₂

/-- **What a `records()` loop gets of a session** that begins after the stream was opened and in
which nothing raises: a part, in order, of its CONNECTED, one record for each message acknowledged
and parsed, in the order of the messages, and its DISCONNECTED, if it made one; and all of that as
long as the stream is registered and its queue had room whenever something was dispatched. -/
theorem iterator_receives_session (lib : Libraries V) (n : Nat) (es₁ es₂ : List Event) (i : Nat)
    (ss : Session V) (hnew : (after lib n es₁).session i = none) (hno : ∀ now, .raises i now ∉ es₂)
    (hs : (after lib n (es₁ ++ .records :: es₂)).session i = some ss) :
    let q := (after lib n es₁).streams.created
    let s := after lib n (es₁ ++ .records :: es₂)
    let since := outputs (step lib) (seen lib) (after lib n (es₁ ++ [.records])) es₂
    let held := ((s.streams.stream q).yielded ++ (s.streams.stream q).queued).filter
      fun call => call.session = i
    held.Sublist (since.filterMap (dispatchedBy i)) ∧
    (0 < n → q ∈ s.streams.queues →
      Along (step lib) (KeepsUp lib n q) (init n) (es₁ ++ .records :: es₂) →
        held = since.filterMap (dispatchedBy i)) ∧
    ∃ X : List Exchange,
      (acts i since).filterMap Act.message = X.map Prod.fst ∧
      (acts i since).filterMap Act.outcome = X.filterMap Prod.snd ∧
      (acts i since).filter Act.onMessage = X.flatMap (exchange lib ss.vin i) ∧
      (∀ x ∈ X, x.2.isSome → (reply lib x.1).isSome) ∧
      ((∀ f, ss.phase ≠ .acking f) → ∀ x ∈ X, (reply lib x.1).isSome → x.2.isSome) ∧
      (acts i since = [] ∨ ∃ now closing, since.filterMap (dispatchedBy i) =
          ⟨i, .connect, connectivityRecord ss.vin .connected now⟩ ::
            X.filterMap (frameCall lib ss.vin i) ++ closing ∧
        (closing = [] ∨
          ∃ now, closing = [⟨i, .disconnect, connectivityRecord ss.vin .disconnected now⟩])) := by
  intro q s since held
  obtain ⟨hsub, hall⟩ := held_since lib n es₁ es₂
  have hfirst : after lib n (es₁ ++ [.records]) = (after lib n es₁).step lib .records := run_snoc ..
  have hafter : s = run (step lib) (after lib n (es₁ ++ [.records])) es₂ := after_records ..
  have hnew' : (after lib n (es₁ ++ [.records])).session i = none := by
    rw [hfirst]
    exact hnew
  have hscript := scripted_run lib (after lib n (es₁ ++ [.records])) es₂ hnew' hno
  rw [← hafter] at hscript
  obtain ⟨X, hm, ho, hf, hc, hbegun, hdone, -⟩ := (hscript.script hs).exchanges
  rw [call_acts] at hc
  refine ⟨?_, fun hn hq hroom => ?_, X, hm, ho, hf, hbegun, hdone, hc⟩
  · rw [dispatchedBy_eq]
    exact hsub.filter _
  · rw [dispatchedBy_eq]
    exact congrArg (List.filter _) ((hall hn hq).mpr hroom)

/-- A loop that takes each record before the next is dispatched. -/
def promptLoop : List Event :=
  [.request 0 sampleRequest, .prepared 0 5, .onStream 0 (.anext 0),
    .message 0 ⟨.binary, emptyFrame⟩ 6, .sent 0 true, .onStream 0 (.anext 1), .finished 0 7]

theorem promptLoop_lossless :
    let s : Server Unit := after sampleLibraries 1 (.records :: promptLoop)
    ((s.streams.stream 0).yielded ++ (s.streams.stream 0).queued).map Call.origin =
        [.connect, .frame, .disconnect] ∧
      Along (step sampleLibraries) (KeepsUp sampleLibraries 1 0) (init 1)
        (.records :: promptLoop) := by
  intro s
  have h := (iterator_lossless_iff sampleLibraries 1 [] promptLoop).2 (by decide) (by decide)
  exact ⟨by decide +kernel, h.mp rfl⟩

theorem promptLoop_received :
    let s : Server Unit := after sampleLibraries 1 (.records :: promptLoop)
    let since := outputs (step sampleLibraries) (seen sampleLibraries)
      (after sampleLibraries 1 [.records]) promptLoop
    let X : List Exchange := [(⟨.binary, emptyFrame⟩, some true)]
    ((s.streams.stream 0).yielded ++ (s.streams.stream 0).queued).filter
        (fun call => call.session = 0) = since.filterMap (dispatchedBy 0) ∧
      (acts 0 since).filter Act.onMessage = X.flatMap (exchange sampleLibraries "V" 0) ∧
      (X.map fun x => (frameCall sampleLibraries "V" 0 x).isSome) = [true] ∧
      ∃ now₁ now₂, since.filterMap (dispatchedBy 0) =
        ⟨0, .connect, connectivityRecord "V" .connected now₁⟩ ::
          X.filterMap (frameCall sampleLibraries "V" 0) ++
            [⟨0, .disconnect, connectivityRecord "V" .disconnected now₂⟩] := by
  intro s since X
  have hs : s.session 0 = some ⟨"V", "192.0.2.1", none, .ended false⟩ := by rfl
  have hroom : Along (step sampleLibraries) (KeepsUp sampleLibraries 1 0) (init 1)
      (.records :: promptLoop) :=
    ((held_since sampleLibraries 1 [] promptLoop).2 (by decide) (by decide)).mp rfl
  obtain ⟨-, hheld, Y, hm, ho, hf, hbegun, hdone, hc⟩ :=
    iterator_receives_session sampleLibraries 1 [] promptLoop 0 _ rfl (by simp [promptLoop]) hs
  have hX : ∀ x ∈ X, Complete sampleLibraries x := by
    unfold Complete
    decide +kernel
  obtain rfl : Y = X := exchanges_determined (complete_iff.mpr ⟨hbegun, hdone nofun⟩) hX
    (hm.symm.trans rfl) (ho.symm.trans rfl)
  exact ⟨hheld (by decide) (by decide) hroom, hf, by decide +kernel,
    calls_of_length (call_acts 0 since) hc (by decide +kernel)⟩

end Server

end FleetTelemetry
