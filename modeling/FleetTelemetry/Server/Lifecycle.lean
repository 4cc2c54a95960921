import FleetTelemetry.Certs.Trust
import FleetTelemetry.Server.Cleanup
import FleetTelemetry.Server.Noninterference
import FleetTelemetry.Server.Shutdown
import FleetTelemetry.Server.StreamDelivery

/-!
# From `__init__` to the end of `stop`

`stop` sets `_closed`, waits for the runner to clean up, and then closes the dispatcher.
Where the handlers have ended when it does that (`Stopped`), the server is at rest for
good, and the `records()` loops end with what was dispatched:

    Stopped → every later observation is a 503, and no VIN is connected      (stopped_run)
    a loop has ended → (it got everything ↔ its queue always had room)       (graceful_stop)
-/

namespace FleetTelemetry

open Runs

namespace Server

variable {V : Type} (lib : Libraries V)

/-! ## Algorithm -/

/-- `TelemetryServer.__init__`, for a context with that `verify_mode`. -/
def create (verifyMode : Certs.VerifyMode) (queueMaxsize : Nat) : Except String (Server V) :=
  if verifyMode ≠ .certRequired then
    .error "ssl_context must set verify_mode = ssl.CERT_REQUIRED for mTLS"
  else .ok (init queueMaxsize)

/-- Every `_handle` has ended. -/
def Idle (s : Server V) : Prop :=
  ∀ i ss, s.session i = some ss → ∃ raised, ss.phase = .ended raised

/-- What a request gets after `stop` has set `_closed`. -/
def Refused (o : Obs V) : Prop := ∃ i, o = .responded i ⟨503, "server is shutting down"⟩

/-- The run has come to `self._dispatcher.close()`: `_closed` is set, the handlers have ended and
none of them left its `Connection` behind. -/
structure Stopped (n : Nat) (es : List Event) : Prop where
  closed : (after lib n es).closed = true
  idle : (after lib n es).Idle
  clean : Along (step lib) CleanExit (init n) es

/-! ## Lemmas -/

variable {lib}

/-- The contexts of `build_ssl_context` are accepted. -/
theorem create_of_build {X : Certs.Cryptography} [DecidableEq X.PublicKey] {d : Certs.Directory X}
    {certsDir : String} {staging : Bool} {ctx : Certs.SslContext X}
    (h : Certs.buildSslContext d certsDir staging = .ok ctx) (n : Nat) :
    (create ctx.verifyMode n : Except String (Server V)) = .ok (init n) := by
  have hmode := (Certs.buildSslContext_eq_ok.mp h).2.2.2.2
  unfold create
  rw [hmode]
  rfl

theorem refused_handle (lib : Libraries V) {s : Server V} (hc : s.closed = true) (i : Nat)
    (request : Request) :
    (∃ ss, (s.handle lib i request).1 = { s with session := Function.update s.session i (some ss) } ∧
      ss.phase = .ended false) ∧ ∀ o ∈ (s.handle lib i request).2, Refused o := by
  unfold handle
  rw [if_pos hc]
  refine ⟨⟨_, rfl, rfl⟩, fun o ho => ?_⟩
  exact ⟨i, List.mem_singleton.mp ho⟩

/-- A closed server whose handlers have ended only refuses. -/
theorem idle_step (lib : Libraries V) {s : Server V} (hc : s.closed = true) (hi : s.Idle)
    (hsound : DeliveriesSound s) (e : Event) :
    (s.step lib e).Idle ∧ (s.step lib e).connections = s.connections ∧
      ∀ o ∈ s.seen lib e, Refused o := by
  have hstay (h : s.exec lib e = (s, [])) : (s.step lib e).Idle ∧
      (s.step lib e).connections = s.connections ∧ ∀ o ∈ s.seen lib e, Refused o := by
    unfold step seen
    rw [h]
    exact ⟨hi, rfl, fun o ho => by cases ho⟩
  cases he : sessionOf e with
  | none =>
    have henv : Environment e := (environment_iff e).mpr he
    obtain ⟨hcon, hses⟩ := environment_frame lib s henv
    rw [seen_environment hsound he]
    refine ⟨?_, hcon, fun o ho => by cases ho⟩
    show ∀ i ss, (s.exec lib e).1.session i = some ss → _
    rw [hses]
    exact hi
  | some i =>
    cases hs : s.session i with
    | some ss =>
      obtain ⟨raised, hp⟩ := hi i ss hs
      exact hstay (ended_step hs hp he)
    | none =>
      cases e with
      | request j request =>
        obtain rfl := Option.some.inj he
        have hexec : s.exec lib (.request j request) = s.handle lib j request := by
          simp only [exec, hs]
        obtain ⟨⟨ss, hstate, hp⟩, hobs⟩ := refused_handle lib hc j request
        unfold step seen
        rw [hexec, hstate]
        refine ⟨fun k ss' hk => ?_, rfl, hobs⟩
        replace hk : Function.update s.session j (some ss) k = some ss' := hk
        rw [Function.update_apply] at hk
        split at hk
        · obtain rfl := Option.some.inj hk
          exact ⟨false, hp⟩
        · exact hi k ss' hk
      | prepared j | returned j | message j | sent j | finished j | raises j =>
        obtain rfl := Option.some.inj he
        exact hstay (by simp only [exec, hs])
      | addListener | unsubscribe | records | onStream | stop | cleanedUp => cases he

/-- **A server that has stopped stays at rest.** -/
theorem idle_run (lib : Libraries V) {s : Server V} (hc : s.closed = true) (hi : s.Idle)
    (hsound : DeliveriesSound s) (es : List Event) :
    (run (step lib) s es).connections = s.connections ∧
      ∀ o ∈ outputs (step lib) (seen lib) s es, Refused o := by
  induction es generalizing s with
  | nil => exact ⟨rfl, fun o ho => by cases ho⟩
  | cons e es ih =>
    obtain ⟨hidle, hcon, hobs⟩ := idle_step lib hc hi hsound e
    obtain ⟨hcon', hobs'⟩ := ih (closed_step lib hc e) hidle (deliveriesSound_step lib hsound e)
    refine ⟨hcon'.trans hcon, fun o ho => ?_⟩
    exact (List.mem_append.mp ho).elim (hobs o) (hobs' o)

/-- No `Connection` is left behind. -/
theorem Stopped.no_holder {n : Nat} {es : List Event} (h : Stopped lib n es) (vin : String) :
    (after lib n es).holder vin = none := by
  have h0 : SlotsLive (init n : Server V) := fun vin i hi => by cases hi
  have hslots : SlotsLive (after lib n es) :=
    Along.invariant _ _ (I := SlotsLive) (fun _ _ h hc => slotsLive_step h hc) h0 h.clean
  cases hh : (after lib n es).holder vin with
  | none => rfl
  | some i =>
    obtain ⟨ss, hss, -, hp⟩ := hslots vin i hh
    obtain ⟨raised, hend⟩ := h.idle i ss hss
    exact absurd hp (not_holding_disconnect (.inr hend))

/-- The run of the iterators up to `close` and after it. -/
theorem streamRun_cleanedUp {n : Nat} {es : List Event} (hc : (after lib n es).closed = true)
    (es' : List Event) :
    ∃ rest, streamRun lib n (es ++ .cleanedUp :: es') = streamRun lib n es ++ .close :: rest ∧
      ∀ q m, .on q m ∈ rest → .onStream q m ∈ es' := by
  have hclose : (after lib n es).streamEvents lib .cleanedUp = [.close] := by
    unfold streamEvents seen
    simp only [exec, hc]
    rfl
  refine ⟨outputs (step lib) (streamEvents lib) ((after lib n es).step lib .cleanedUp) es', ?_, ?_⟩
  · show outputs (step lib) (streamEvents lib) (init n) (es ++ .cleanedUp :: es') = _
    rw [outputs_append, outputs]
    exact congrArg (fun xs => streamRun lib n es ++ (xs ++ _)) hclose
  · intro q m hm
    obtain ⟨e, he, s, hs⟩ := mem_outputs _ _ hm
    rw [← on_of_streamEvents hs]
    exact he

/-! ## Top theorems (proved from the lemmas above) -/

/-- **At rest for good.**  Once the handlers have ended after `stop` has set `_closed`, no VIN is
connected, and whatever happens then, all that is seen of the server is a 503 for each request. -/
theorem stopped_run (lib : Libraries V) (n : Nat) (es es' : List Event) (h : Stopped lib n es) :
    (∀ vin, (after lib n (es ++ es')).isConnected vin = false) ∧
      ∀ o ∈ outputs (step lib) (seen lib) (after lib n es) es', Refused o := by
  obtain ⟨hcon, hobs⟩ := idle_run lib h.closed h.idle (deliveriesSound_run lib n es) es'
  refine ⟨fun vin => ?_, hobs⟩
  have hholder : (after lib n (es ++ es')).holder vin = (after lib n es).holder vin := by
    unfold after holder
    rw [run_append]
    exact congrArg (fun c => (Dict.get c vin).map Connection.ident) hcon
  rw [isConnected_eq, hholder, h.no_holder vin]
  rfl

/-- A vehicle is served, a loop takes its first record, and the server is stopped. -/
def servedThenStopped : List Event :=
  [.request 0 sampleRequest, .prepared 0 5, .onStream 0 (.anext 0), .finished 0 7, .stop]

theorem servedThenStopped_stopped : Stopped sampleLibraries 2 (.records :: servedThenStopped) where
  closed := rfl
  idle i ss hs := by
    cases i with
    | zero =>
      have hp : ((after sampleLibraries 2 (.records :: servedThenStopped)).session 0).map
          Session.phase = some (.ended false) := rfl
      rw [hs] at hp
      exact ⟨false, Option.some.inj hp⟩
    | succ i =>
      have hnone : (after sampleLibraries 2 (.records :: servedThenStopped)).session (i + 1) =
          none := rfl
      rw [hnone] at hs
      cases hs
  clean := ⟨trivial, trivial, trivial, trivial, trivial, trivial, trivial⟩

theorem servedThenStopped_refuses :
    (after sampleLibraries 2 (.records :: servedThenStopped ++
      [.cleanedUp, .request 1 sampleRequest, .prepared 1 9])).isConnected "V" = false ∧
    Refused (.responded 1 ⟨503, "server is shutting down"⟩ : Obs Unit) := by
  obtain ⟨hout, hseen⟩ := stopped_run sampleLibraries 2 (.records :: servedThenStopped)
    [.cleanedUp, .request 1 sampleRequest, .prepared 1 9] servedThenStopped_stopped
  exact ⟨hout "V", hseen _ List.mem_cons_self⟩

/-- **A graceful stop.**  The dispatcher is closed when `stop` has set `_closed` and the handlers
have ended, none of them by an exception in its CONNECTED dispatch while it held its slot
(`Stopped`).  A `records()` loop that is open then, and that nobody ends, yields of what was
dispatched since its stream was opened a part, in order.  When it has ended it has yielded
everything exactly if its queue had room for every record, and for the sentinel; and in what was
dispatched every vehicle that had connected has disconnected. -/
theorem graceful_stop (lib : Libraries V) (n : Nat) (hn : 0 < n) (es₁ es₂ es₃ : List Event)
    (h : Stopped lib n (es₁ ++ .records :: es₂))
    (hopen : (after lib n es₁).streams.created ∈
      (after lib n (es₁ ++ .records :: es₂)).streams.queues)
    (hleave : ∀ m, .onStream (after lib n es₁).streams.created m ∈ es₃ → m ≠ .aclose ∧ m ≠ .aexit) :
    let q := (after lib n es₁).streams.created
    let since := (outputs (step lib) (seen lib) (after lib n (es₁ ++ [.records])) es₂).filterMap
      dispatched
    let st := (after lib n (es₁ ++ .records :: es₂ ++ .cleanedUp :: es₃)).streams.stream q
    st.yielded.Sublist since ∧
    ((∃ call, (call, none) ∈ st.results) →
      (st.yielded = since ↔
        Along (step lib) (KeepsUp lib n q) (init n) (es₁ ++ .records :: es₂) ∧
          ((after lib n (es₁ ++ .records :: es₂)).streams.stream q).queued.length < n)) ∧
    (∀ vin, let history := (if (after lib n es₁).isConnected vin then [.connected] else []) ++
        since.filterMap (connectivity vin)
      Alternates history ∧ history.getLast? ≠ some .connected) := by
  intro q since st
  set es := es₁ ++ .records :: es₂ with hes
  obtain ⟨rest, hrun, hrest⟩ := streamRun_cleanedUp h.closed es₃
  have hst : st = (Streams.after n (streamRun lib n es ++ .close :: rest)).stream q := by
    rw [← hrun, ← streams_after]
  have hq : q ∈ (Streams.after n (streamRun lib n es)).queues := by
    rw [← streams_after]
    exact hopen
  have hstay {m : Method} (hm : m = .aclose ∨ m = .aexit) : .on q m ∉ rest := by
    intro hmem
    obtain ⟨h1, h2⟩ := hleave m (hrest q m hmem)
    exact hm.elim h1 h2
  obtain ⟨hsub, hended⟩ := Streams.ended_lossless_iff hn hq
    ⟨Streams.not_left hq trivial (hstay (.inl rfl)), Streams.not_left hq trivial (hstay (.inr rfl))⟩
  have hsince : Streams.fanned n q (streamRun lib n es) = since := by
    rw [fanned_eq]
    exact (fannedTo_since lib n es₁ es₂).2 hopen
  rw [← hst, hsince] at hsub hended
  refine ⟨hsub, fun hend => ?_, fun vin => ?_⟩
  · rw [along_refines (step lib) _ step_streams (keepsUp_iff lib n q), streams_after]
    exact hended hend
  · -- the registry is empty in the end, so no history of a VIN ends in CONNECTED
    have hfirst : after lib n (es₁ ++ [.records]) = (after lib n es₁).step lib .records :=
      run_snoc ..
    have hlast : run (step lib) (after lib n (es₁ ++ [.records])) es₂ = after lib n es :=
      (after_records ..).symm
    obtain ⟨halt, hconn⟩ := history_alternates lib (after lib n (es₁ ++ [.records])) es₂ vin
    have hsame : (after lib n (es₁ ++ [.records])).isConnected vin =
        (after lib n es₁).isConnected vin := by rw [hfirst]; rfl
    rw [hlast, isConnected_eq, h.no_holder vin, hsame] at hconn
    rw [hsame] at halt
    exact ⟨halt, fun hc => by cases hconn.mpr hc⟩

theorem servedThenStopped_complete :
    let st := (after sampleLibraries 2 ([] ++ .records :: servedThenStopped ++
      .cleanedUp :: [.onStream 0 (.anext 1), .onStream 0 (.anext 2)])).streams.stream 0
    st.yielded.map Call.origin = [.connect, .disconnect] ∧
      Along (step sampleLibraries) (KeepsUp sampleLibraries 2 0) (init 2)
        ([] ++ .records :: servedThenStopped) := by
  intro st
  obtain ⟨hsub, hended, -⟩ := graceful_stop sampleLibraries 2 (by decide) [] servedThenStopped
    [.onStream 0 (.anext 1), .onStream 0 (.anext 2)] servedThenStopped_stopped (by decide) (by
      intro m hm
      simp only [List.mem_cons, Event.onStream.injEq, List.not_mem_nil, or_false] at hm
      rcases hm with ⟨-, rfl⟩ | ⟨-, rfl⟩ <;> simp)
  have hall := hsub.eq_of_length (by decide +kernel)
  have hany : (st.results.any fun r => r.2.isNone) = true := by decide +kernel
  obtain ⟨⟨call, r⟩, hmem, hnone⟩ := List.any_eq_true.mp hany
  obtain rfl := Option.isNone_iff_eq_none.mp hnone
  exact ⟨by decide +kernel, ((hended ⟨call, hmem⟩).mp hall).1⟩

end Server

end FleetTelemetry
