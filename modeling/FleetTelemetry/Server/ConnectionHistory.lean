import FleetTelemetry.Dispatch.StreamInvariant
import FleetTelemetry.Server.Registry

/-!
# The registry and the synthesized records

The server's iterators are the `Streams` machine on the events the server gives it
(`streams_refines`), so a stream sees the dispatches between its opening and its
end.  With the registry's announcements this gives what a `records()` stream shows
of a VIN:

    h := (CONNECTED if connected at the opening) ++ statuses fanned out since
    every DISCONNECTED of h right after a CONNECTED; while the stream is registered,
    isConnected vin ↔ h.getLast? = some CONNECTED                 (registry_and_history)
    isConnected vin ↔ the session registered last has not disconnected
                                                             (isConnected_iff_last_live)
-/

namespace FleetTelemetry

open Runs

namespace Streams

variable {R : Type}

theorem created_le_step (d : Streams R) (e : StreamEvent R) : d.created ≤ (d.step e).created := by
  cases e with
  | records => exact Nat.le_succ _
  | dispatch r => rw [step_dispatch]; exact Nat.le_refl _
  | on q m =>
    simp only [step]
    split
    · rw [put_created]
    · exact Nat.le_refl _
  | close => rw [step, close_created]

/-- A stream out of the fan-out set never comes back. -/
theorem step_out {d : Streams R} {q : Nat} (hq : q < d.created) (hout : q ∉ d.queues)
    (e : StreamEvent R) : q ∉ (d.step e).queues := by
  cases e with
  | records =>
    show q ∉ (if d.closed then d.queues else d.queues.insert d.created)
    split
    · exact hout
    · simp [hout]; omega
  | dispatch r => rw [step_dispatch]; exact hout
  | on p m =>
    simp only [step]
    split
    · rw [mem_put_queues]; exact fun h => hout h.1
    · exact hout
  | close => simp [step]

theorem run_out {d : Streams R} {q : Nat} (hq : q < d.created) (hout : q ∉ d.queues)
    (es : List (StreamEvent R)) : q < (run step d es).created ∧ q ∉ (run step d es).queues :=
  Runs.invariant step (I := fun d => q < d.created ∧ q ∉ d.queues)
    (fun d e h => ⟨Nat.lt_of_lt_of_le h.1 (created_le_step d e), step_out h.1 h.2 e⟩) ⟨hq, hout⟩ es

theorem created_le_run (d : Streams R) (es : List (StreamEvent R)) :
    d.created ≤ (run step d es).created :=
  Runs.invariant step (I := fun d' => d.created ≤ d'.created)
    (fun d' e h => h.trans (created_le_step d' e)) (Nat.le_refl _) es

end Streams

namespace Server

variable {V : Type} (lib : Libraries V)

/-- The events a step gives to the iterators. -/
def streamEvents (s : Server V) (e : Event) : List (StreamEvent (Call V)) :=
  (match e with
    | .records => [.records]
    | .onStream q m => [.on q m]
    | .cleanedUp => if s.closed then [.close] else []
    | _ => []) ++
  (s.seen lib e).filterMap fun o => (dispatched o).bind fun call => some (.dispatch call)

/-- The call, when its fan-out reached stream `q`. -/
def fannedTo (q : Nat) : Obs V → Option (Call V)
  | .dispatched call queues => if q ∈ queues then some call else none
  | _ => none

/-! ## Lemmas -/

variable {lib}

theorem dispatch_run (s : Server V) (i : Nat) (ss : Session V) (stage : Stage)
    (record : Record V) :
    (s.dispatch i ss stage record).1.streams = run Streams.step s.streams
      ((s.dispatch i ss stage record).2.filterMap fun o =>
        (dispatched o).bind fun call => some (.dispatch call)) := by
  rw [dispatch_dispatched]
  rfl

theorem disconnect_streams (s : Server V) (i : Nat) (ss : Session V) (raised : Bool) (now : Nat) :
    (s.disconnect i ss raised now).1.streams = run Streams.step s.streams
      ((s.disconnect i ss raised now).2.filterMap fun o =>
        (dispatched o).bind fun call => some (.dispatch call)) := by
  by_cases h : s.holder ss.vin = some i
  · rw [disconnect_of_holder s i ss h]
    exact dispatch_run { s with connections := s.connections.erase ss.vin } i ss
      (.disconnect raised) (connectivityRecord ss.vin .disconnected now)
  · rw [disconnect_of_not_holder s i ss h]
    rfl

theorem step_streams (s : Server V) (e : Event) :
    (s.step lib e).streams = run Streams.step s.streams (s.streamEvents lib e) := by
  unfold streamEvents
  by_cases he : Environment e
  · unfold step seen
    cases e with
    | cleanedUp => simp only [exec]; split <;> simp [*]
    | addListener | unsubscribe | records | onStream | stop => rfl
    | request | prepared | returned | message | sent | finished | raises => cases he
  · have hnone : (match e with
        | .records => [.records]
        | .onStream q m => [.on q m]
        | .cleanedUp => if s.closed then [.close] else []
        | _ => ([] : List (StreamEvent (Call V)))) = [] := by
      cases e <;> first | rfl | exact absurd trivial he
    rw [hnone, List.nil_append]
    have hm := step_move lib s e
    generalize s.step lib e = s' at hm ⊢
    generalize s.seen lib e = obs at hm ⊢
    cases hm with
    | idle => rfl
    | environment e he' => exact absurd he' he
    | opened i request ss obs hnew hphase hobs =>
      rw [filterMap_responded (fun _ _ => rfl) hobs]; rfl
    | quiet e i ss p obs h hq => rw [hq.dispatched_eq]; rfl
    | connect i ss now h hp =>
      exact dispatch_run ({ s with connections := s.connections.set ss.vin _ } : Server V) i ss
        .connect (connectivityRecord ss.vin .connected now)
    | frame i ss f record h hp hr =>
      exact dispatch_run s i ss .frame record
    | disconnect e i ss raised now pre h hl =>
      rw [List.filterMap_append, hl.dispatched_eq, List.nil_append]
      exact disconnect_streams s i ss raised now
    | resume i ss stage d h hp => rw [dispatched_invoked]; rfl

/-- **The iterators of the server are the `Streams` machine.** -/
theorem streams_refines (n : Nat) (es : List Event) :
    (after lib n es).streams =
      Streams.after n (outputs (step lib) (streamEvents lib) (init n) es) :=
  run_refines (step lib) (f := Server.streams) step_streams (init n) es

theorem streams_sound (n : Nat) (es : List Event) : (after lib n es).streams.Sound := by
  rw [streams_refines]
  exact Streams.sound_after n _

/-- The ways a step comes to make a call. -/
inductive Dispatches (lib : Libraries V) (s : Server V) (e : Event) : Call V → Prop where
  | connect (i : Nat) (ss : Session V) (now : Nat) (h : s.session i = some ss)
      (hseen : .registered i ss.vin ∈ s.seen lib e)
      (hstep : s.step lib e = (s.connect i ss now).1) :
      Dispatches lib s e ⟨i, .connect, connectivityRecord ss.vin .connected now⟩
  | frame (i : Nat) (ss : Session V) (f : StreamFrame) (record : Record V)
      (h : s.session i = some ss) (hp : ss.phase = .acking f)
      (hr : recordOf lib ss.vin f = some record) : Dispatches lib s e ⟨i, .frame, record⟩
  | disconnect (i : Nat) (ss : Session V) (raised : Bool) (now : Nat) (h : s.session i = some ss)
      (hh : s.holder ss.vin = some i) (hstep : s.step lib e = (s.disconnect i ss raised now).1) :
      Dispatches lib s e ⟨i, .disconnect, connectivityRecord ss.vin .disconnected now⟩

theorem invoked_not_dispatched {d : Option (Delivery V)} {call : Call V} {queues : List Nat} :
    .dispatched call queues ∉ invoked d := by
  cases d <;> simp [invoked]

theorem not_dispatched {obs : List (Obs V)}
    (h : (obs.filterMap fun o => (dispatched o).bind some) = []) {call : Call V}
    {queues : List Nat} : .dispatched call queues ∉ obs := by
  intro hm
  have := List.filterMap_eq_nil_iff.mp h _ hm
  cases this

/-- Where a dispatch comes from, and the fan-out set it found. -/
theorem dispatched_cases {s : Server V} {e : Event} {call : Call V} {queues : List Nat}
    (h : .dispatched call queues ∈ s.seen lib e) :
    queues = s.streams.queues ∧ Dispatches lib s e call := by
  have hm := step_move lib s e
  generalize hstep : s.step lib e = s' at hm
  generalize hseen : s.seen lib e = obs at hm h
  have hdisp {c : Call V} {qs : List Nat} {o : Obs V} {d : Option (Delivery V)}
      (ho : dispatched o = none) (h : .dispatched call queues ∈ o :: .dispatched c qs :: invoked d) :
      call = c ∧ queues = qs := by
    rcases List.mem_cons.mp h with rfl | h
    · cases ho
    · rcases List.mem_cons.mp h with h | h
      · exact Obs.dispatched.inj h
      · exact absurd h invoked_not_dispatched
  cases hm with
  | idle => cases h
  | environment => cases h
  | opened i request ss obs hnew hphase hobs =>
    obtain ⟨r, hr⟩ := hobs _ h
    cases hr
  | quiet e i ss p obs hs hq => exact absurd h (not_dispatched (hq.dispatched_eq some))
  | connect i ss now hs hp =>
    obtain ⟨rfl, rfl⟩ := hdisp rfl h
    exact ⟨rfl, .connect i ss now hs (by rw [hseen]; exact List.mem_cons_self) hstep⟩
  | frame i ss f record hs hp hr =>
    obtain ⟨rfl, rfl⟩ := hdisp rfl h
    exact ⟨rfl, .frame i ss f record hs hp hr⟩
  | disconnect e i ss raised now pre hs hl =>
    rcases List.mem_append.mp h with h | h
    · exact absurd h (not_dispatched (hl.dispatched_eq some))
    · by_cases hh : s.holder ss.vin = some i
      · rw [disconnect_of_holder s i ss hh] at h
        obtain ⟨rfl, rfl⟩ := hdisp rfl h
        exact ⟨rfl, .disconnect i ss raised now hs hh hstep⟩
      · rw [disconnect_of_not_holder s i ss hh] at h
        simp at h
  | resume i ss stage d hs hp => exact absurd h invoked_not_dispatched

/-- A synthesized record has the status of the place it was made at. -/
theorem Dispatches.made {s : Server V} {e : Event} {call : Call V} (h : Dispatches lib s e call) :
    Made call := by
  cases h with
  | connect => exact ⟨fun _ => rfl, nofun⟩
  | frame => exact ⟨nofun, nofun⟩
  | disconnect => exact ⟨nofun, fun _ => rfl⟩

theorem fannedTo_seen (lib : Libraries V) (s : Server V) (e : Event) (q : Nat) :
    (s.seen lib e).filterMap (fannedTo q) =
      if q ∈ s.streams.queues then (s.seen lib e).filterMap dispatched else [] := by
  split
  · next hq =>
    refine List.filterMap_congr fun o ho => ?_
    cases o with
    | dispatched call queues =>
      rw [(dispatched_cases ho).1]
      exact if_pos hq
    | _ => rfl
  · next hq =>
    refine List.filterMap_eq_nil_iff.mpr fun o ho => ?_
    cases o with
    | dispatched call queues =>
      rw [(dispatched_cases ho).1]
      exact if_neg hq
    | _ => rfl

theorem fanned_out {s : Server V} {q : Nat} (hq : q < s.streams.created)
    (hout : q ∉ s.streams.queues) (es : List Event) :
    (outputs (step lib) (seen lib) s es).filterMap (fannedTo q) = [] ∧
      q ∉ (run (step lib) s es).streams.queues := by
  induction es generalizing s with
  | nil => exact ⟨rfl, hout⟩
  | cons e es ih =>
    have hs := Streams.run_out hq hout (s.streamEvents lib e)
    rw [← step_streams] at hs
    obtain ⟨hf, hr⟩ := ih hs.1 hs.2
    refine ⟨?_, hr⟩
    rw [outputs, List.filterMap_append, fannedTo_seen, if_neg hout, hf]
    rfl

/-- A stream sees every dispatch up to some point of the run, and none after it. -/
theorem fanned_prefix (lib : Libraries V) {s : Server V} {q : Nat} (hq : q < s.streams.created)
    (es : List Event) :
    ∃ a b, es = a ++ b ∧
      (outputs (step lib) (seen lib) s es).filterMap (fannedTo q) =
        (outputs (step lib) (seen lib) s a).filterMap dispatched ∧
      (q ∈ (run (step lib) s es).streams.queues → b = []) := by
  induction es generalizing s with
  | nil => exact ⟨[], [], rfl, rfl, fun _ => rfl⟩
  | cons e es ih =>
    by_cases hin : q ∈ s.streams.queues
    · have hlt : q < (s.step lib e).streams.created := by
        rw [step_streams]
        exact Nat.lt_of_lt_of_le hq (Streams.created_le_run _ _)
      obtain ⟨a, b, rfl, hf, hb⟩ := ih hlt
      refine ⟨e :: a, b, rfl, ?_, hb⟩
      rw [outputs, outputs, List.filterMap_append, List.filterMap_append, fannedTo_seen,
        if_pos hin, hf]
    · obtain ⟨hf, hr⟩ := fanned_out hq hin (e :: es)
      exact ⟨[], e :: es, rfl, hf, fun h => absurd h hr⟩

/-- Nothing was fanned out to a stream that was not made yet. -/
theorem fanned_before (n : Nat) (es : List Event) (q : Nat)
    (hq : (after lib n es).streams.created ≤ q) : (log lib n es).filterMap (fannedTo q) = [] := by
  induction es using List.reverseRecOn with
  | nil => rfl
  | append_singleton es e ih =>
    unfold after at hq
    unfold log
    rw [run_snoc] at hq
    rw [outputs_snoc, List.filterMap_append]
    have hle : (after lib n es).streams.created ≤ q := by
      have := Streams.created_le_run (after lib n es).streams
        ((after lib n es).streamEvents lib e)
      rw [← step_streams] at this
      exact this.trans hq
    have hout : q ∉ (after lib n es).streams.queues := fun hmem => by
      have := ((streams_sound n es).registered q).mp hmem
      omega
    have hseen := fannedTo_seen lib (after lib n es) e q
    rw [if_neg hout] at hseen
    rw [show (outputs (step lib) (seen lib) (init n) es).filterMap (fannedTo q) = [] from ih hle]
    exact hseen

/-- The statuses of the synthesized records of `vin`, by what the registry announced. -/
theorem connectivity_eq {log : List (Obs V)} (vin : String)
    (hmade : ∀ call queues, .dispatched call queues ∈ log → Made call) :
    (log.filterMap dispatched).filterMap (connectivity vin) =
      ((log.filterMap fun o => (dispatched o).bind announcement).filterMap
        fun a => if a.1 = vin then some a.2 else none).map toEvent := by
  rw [List.filterMap_filterMap, List.filterMap_filterMap, List.map_filterMap]
  refine List.filterMap_congr fun o ho => ?_
  cases o with
  | dispatched call queues =>
    obtain ⟨hc, hd⟩ := hmade call queues ho
    show connectivity vin call = _
    simp only [dispatched, Option.bind_some, announcement, connectivity]
    cases ho : call.origin with
    | frame => rfl
    | connect =>
      rw [hc ho]
      by_cases hv : call.record.vin = vin <;> simp [hv, toEvent]
    | disconnect =>
      rw [hd ho]
      by_cases hv : call.record.vin = vin <;> simp [hv, toEvent]
  | _ => rfl

/-- A disconnect by a session that does not hold its slot. -/
theorem stale_disconnect {s : Server V} {e : Event} {i : Nat} {vin : String}
    (hd : .disconnecting i vin ∈ s.seen lib e) (hne : s.holder vin ≠ some i) :
    (s.step lib e).connections = s.connections ∧ (s.seen lib e).filterMap dispatched = [] := by
  obtain ⟨j, ss, -, ⟨now, hop, -⟩ | ⟨raised, now, pre, hop, hl, hstep, hseen⟩⟩ :=
    registryOp_cases (release_mem_iff.mpr hd)
  · cases hop
  · obtain ⟨rfl, rfl⟩ := TokenRegistry.Op.release.inj hop
    rw [disconnect_of_not_holder s i ss hne] at hstep hseen
    have hpre : pre.filterMap dispatched = [] := by simpa using hl.dispatched_eq some
    rw [hstep, hseen, List.filterMap_append, hpre]
    exact ⟨rfl, rfl⟩

/-- Every DISCONNECTED comes right after a CONNECTED. -/
def Alternates (h : List ConnectivityEvent) : Prop :=
  ∀ pre post, h = pre ++ .disconnected :: post → ∃ p, pre = p ++ [.connected]

theorem alternates_of_paired {h : List Bool} (hp : TokenRegistry.Paired h) :
    Alternates (h.map toEvent) := by
  intro pre post he
  obtain ⟨a, b, rfl, rfl, hb⟩ := List.map_eq_append_iff.mp he
  obtain ⟨x, b, rfl, hx, -⟩ := List.map_eq_cons_iff.mp hb
  cases x with
  | true => cases hx
  | false =>
    obtain ⟨p, rfl⟩ := hp a b rfl
    exact ⟨p.map toEvent, by simp [toEvent]⟩

theorem isConnected_eq (s : Server V) (vin : String) :
    s.isConnected vin = (s.holder vin).isSome := by
  unfold isConnected holder
  rw [Option.isSome_map]

/-- The statuses dispatched in a run are what the registry announces. -/
theorem statuses_eq (s : Server V) (es : List Event) (vin : String) :
    ((outputs (step lib) (seen lib) s es).filterMap dispatched).filterMap (connectivity vin) =
      (TokenRegistry.announced vin s.holder
        ((outputs (step lib) (seen lib) s es).filterMap registryOp)).map toEvent := by
  unfold TokenRegistry.announced
  rw [← announcements_run]
  refine connectivity_eq vin fun call queues hm => ?_
  have := forall_outputs (step lib) (seen lib)
    (P := fun o => ∀ call queues, o = .dispatched call queues → Made call)
    (fun s e o ho call queues h => (dispatched_cases (h ▸ ho)).2.made) s es _ hm
  exact this call queues rfl

/-- From any state on, the synthesized records of a VIN follow its registry slot. -/
theorem history_alternates (lib : Libraries V) (s : Server V) (es : List Event) (vin : String) :
    let h := (if s.isConnected vin then [.connected] else []) ++
      ((outputs (step lib) (seen lib) s es).filterMap dispatched).filterMap (connectivity vin)
    Alternates h ∧
      ((run (step lib) s es).isConnected vin = true ↔ h.getLast? = some .connected) := by
  intro h
  obtain ⟨hpair, hlast⟩ := TokenRegistry.announcements vin s.holder
    ((outputs (step lib) (seen lib) s es).filterMap registryOp)
  have hh : h = ((if (s.holder vin).isSome then [true] else []) ++
      TokenRegistry.announced vin s.holder
        ((outputs (step lib) (seen lib) s es).filterMap registryOp)).map toEvent := by
    rw [List.map_append, ← statuses_eq, ← isConnected_eq]
    show _ ++ _ = _ ++ _
    congr 1
    split <;> rfl
  refine ⟨hh ▸ alternates_of_paired hpair, ?_⟩
  rw [isConnected_eq, holder_run, hlast, hh, List.getLast?_map]
  cases List.getLast? (_ ++ _) with
  | none => simp
  | some b => cases b <;> simp [toEvent]

/-! ## Top theorems (proved from the lemmas above) -/

variable (lib)

/-- **Registry and synthesized records, over every run.**  The registry has the session registered
last until it disconnects; a disconnect of any other session changes and dispatches nothing; and
what a stream shows of a VIN, after a CONNECTED that stands for a VIN connected when the stream was
opened, alternates and ends in CONNECTED exactly while the VIN is connected. -/
theorem registry_and_history (n : Nat) (es : List Event) (vin : String) :
    (∀ i, (after lib n es).holder vin = some i ↔
      lastRegistered vin (log lib n es) = some i ∧ .disconnecting i vin ∉ log lib n es) ∧
    (∀ e i, .disconnecting i vin ∈ (after lib n es).seen lib e →
      (after lib n es).holder vin ≠ some i →
      ((after lib n es).step lib e).connections = (after lib n es).connections ∧
        ((after lib n es).seen lib e).filterMap dispatched = []) ∧
    (∀ es₁ es₂, es = es₁ ++ .records :: es₂ →
      let q := (after lib n es₁).streams.created
      let h := (if (after lib n es₁).isConnected vin then [.connected] else []) ++
        ((log lib n es).filterMap (fannedTo q)).filterMap (connectivity vin)
      Alternates h ∧ (q ∈ (after lib n es).streams.queues →
        ((after lib n es).isConnected vin = true ↔ h.getLast? = some .connected))) := by
  refine ⟨holder_eq_some_iff n es vin, ?_, ?_⟩
  · intro e i hd hne
    exact stale_disconnect hd hne
  · rintro es₁ es₂ rfl
    intro q
    set s₁ := (after lib n es₁).step lib .records with hs₁
    have hq : q < s₁.streams.created := Nat.lt_succ_self _
    have hafter : after lib n (es₁ ++ .records :: es₂) = run (step lib) s₁ es₂ := run_append _ _ _ _
    have hlog : log lib n (es₁ ++ .records :: es₂) =
        log lib n es₁ ++ outputs (step lib) (seen lib) s₁ es₂ := outputs_append _ _ _ _ _
    obtain ⟨a, b, rfl, hf, hb⟩ := fanned_prefix lib hq es₂
    obtain ⟨halt, hlast⟩ := history_alternates lib s₁ a vin
    rw [hlog, List.filterMap_append, fanned_before n es₁ q (Nat.le_refl _), List.nil_append, hf]
    refine ⟨halt, fun hmem => ?_⟩
    rw [hafter] at hmem ⊢
    obtain rfl := hb hmem
    rw [List.append_nil]
    exact hlast

/-- A stream opened while a VIN is connected starts with its DISCONNECTED. -/
def lateStream : List Event :=
  [.request 0 sampleRequest, .prepared 0 5, .records, .finished 0 7]

theorem lateStream_not_alternating :
    ((log sampleLibraries 1 lateStream).filterMap (fannedTo 0)).filterMap (connectivity "V") =
        [.disconnected] ∧
      ¬ Alternates (((log sampleLibraries 1 lateStream).filterMap (fannedTo 0)).filterMap
        (connectivity "V")) := by
  have hh : ((log sampleLibraries 1 lateStream).filterMap (fannedTo 0)).filterMap
      (connectivity "V") = [.disconnected] := by decide
  refine ⟨hh, fun h => ?_⟩
  rw [hh] at h
  obtain ⟨p, hp⟩ := h [] [] rfl
  simp at hp

/-- **`is_connected` follows the session registered last.** -/
theorem isConnected_iff_last_live (n : Nat) (es : List Event) (vin : String) :
    (after lib n es).isConnected vin = true ↔
      ∃ i, lastRegistered vin (log lib n es) = some i ∧ .disconnecting i vin ∉ log lib n es := by
  rw [isConnected_eq, Option.isSome_iff_exists]
  exact exists_congr fun i => holder_eq_some_iff n es vin i

/-- A session for `vin` that has registered and not yet disconnected. -/
def Served (vin : String) (log : List (Obs V)) (i : Nat) : Prop :=
  .register vin i ∈ log.filterMap registryOp ∧ .release vin i ∉ log.filterMap registryOp

instance (vin : String) (log : List (Obs V)) (i : Nat) : Decidable (Served vin log i) := by
  unfold Served; infer_instance

/-- Two sessions of one vehicle, the newer ends first. -/
def newestEndsFirst : List Event :=
  [.request 0 sampleRequest, .prepared 0 5, .request 1 sampleRequest, .prepared 1 6, .finished 1 7]

theorem served_not_connected :
    ¬ ((after sampleLibraries 1 newestEndsFirst).isConnected "V" = true ↔
      ∃ i, Served "V" (log sampleLibraries 1 newestEndsFirst) i) := by
  have hconn : (after sampleLibraries 1 newestEndsFirst).isConnected "V" = false := by decide
  have hserved : Served "V" (log sampleLibraries 1 newestEndsFirst) 0 := by decide
  intro h
  rw [h.mpr ⟨0, hserved⟩] at hconn
  cases hconn

end Server

end FleetTelemetry
