import FleetTelemetry.Server.Admission

/-!
# The `connections` snapshot

What `connections` shows of a vehicle is what its session brought with it: the address and
the version in its request, and the time at which its `ws.prepare` returned.

    Described es (after lib n es)                                              (described_run)
    (vin, conn) in the registry ↔ conn is of the session that registered vin last and has not
    left, and is what that session brought                                     (connections_iff)
-/

namespace FleetTelemetry

open Runs

namespace Server

variable {V : Type} (lib : Libraries V)

/-! ## Algorithm -/

/-- The clock at a return of the `ws.prepare` of session `i`. -/
def clockAt (i : Nat) : Event → Option Nat
  | .prepared j now => if j = i then some now else none
  | _ => none

/-- When the `ws.prepare` of session `i` returned: the first time after its request. -/
def preparedAt (i : Nat) : List Event → Option Nat
  | [] => none
  | .request j _ :: es => if j = i then es.findSome? (clockAt i) else preparedAt i es
  | _ :: es => preparedAt i es

/-- The `Connection` that session `i` makes for `vin`. -/
def connectionOf (i : Nat) (vin : String) (es : List Event) : Option Connection :=
  (requestOf i es).bind fun request => (preparedAt i es).map fun now =>
    ⟨i, vin, now, request.remote.getD "", request.version⟩

/-- The sessions and the registry hold what the requests brought. -/
structure Described (es : List Event) (s : Server V) : Prop where
  session : ∀ i ss, s.session i = some ss → ∃ request, requestOf i es = some request ∧
    ss.peer = request.remote.getD "" ∧ ss.clientVersion = request.version
  preparing : ∀ i, s.Preparing i → preparedAt i es = none
  registry : ∀ vin conn, s.connections.get vin = some conn →
    connectionOf conn.ident vin es = some conn

/-! ## Lemmas -/

variable {lib}

theorem preparedAt_snoc (i : Nat) (es : List Event) (e : Event) :
    preparedAt i (es ++ [e]) =
      (preparedAt i es).or (if (requestOf i es).isSome then clockAt i e else none) := by
  induction es with
  | nil =>
    cases e with
    | request j request =>
      show (if j = i then none else none) = none
      rw [ite_self]
    | _ => rfl
  | cons e' es ih =>
    cases e' with
    | request j request =>
      by_cases hj : j = i
      · subst hj
        simp [preparedAt, requestOf, List.findSome?_append]
      · have hreq : requestOf i (.request j request :: es) = requestOf i es := by
          simp [requestOf, hj]
        rw [hreq, List.cons_append, preparedAt, if_neg hj, preparedAt, if_neg hj, ih]
    | _ => exact ih

theorem preparedAt_eq_none {i : Nat} {es : List Event} (h : requestOf i es = none) :
    preparedAt i es = none := by
  induction es using List.reverseRecOn with
  | nil => rfl
  | append_singleton es e ih =>
    rw [requestOf_append, Option.or_eq_none_iff] at h
    rw [preparedAt_snoc, ih h.1, h.1]
    rfl

theorem connectionOf_snoc {i : Nat} {vin : String} {es : List Event} {conn : Connection}
    (h : connectionOf i vin es = some conn) (e : Event) :
    connectionOf i vin (es ++ [e]) = some conn := by
  obtain ⟨request, hr, h⟩ := Option.bind_eq_some_iff.mp h
  obtain ⟨now, ht, rfl⟩ := Option.map_eq_some_iff.mp h
  unfold connectionOf
  rw [requestOf_append, preparedAt_snoc, hr, ht]
  rfl

/-- A step changes nothing of a session but its phase. -/
theorem session_phase (lib : Libraries V) {s : Server V} {i : Nat} {ss : Session V}
    (h : s.session i = some ss) (e : Event) :
    ∃ p, (s.step lib e).session i = some { ss with phase := p } := by
  have hm := step_move lib s e
  generalize s.step lib e = s' at hm ⊢
  generalize s.seen lib e = obs at hm
  have hupdate {j : Nat} {sj : Session V} {p : Phase V} (hj : s.session j = some sj)
      (hses : s'.session = Function.update s.session j (some { sj with phase := p })) :
      ∃ p, s'.session i = some { ss with phase := p } := by
    rw [hses, Function.update_apply]
    split
    · next hij =>
      rw [← hij, h] at hj
      obtain rfl := Option.some.inj hj
      exact ⟨p, rfl⟩
    · exact ⟨ss.phase, h⟩
  cases hm with
  | idle => exact ⟨ss.phase, h⟩
  | environment e he =>
    rw [(environment_frame lib s he).2]
    exact ⟨ss.phase, h⟩
  | opened j request sj obs hnew =>
    have hij : i ≠ j := by
      rintro rfl
      rw [hnew] at h
      cases h
    exact ⟨ss.phase, (Function.update_of_ne hij ..).trans h⟩
  | disconnect e j sj raised now pre hj hl =>
    obtain ⟨p, hses, -⟩ := disconnect_session s j sj raised now
    exact hupdate hj hses
  | quiet e j sj p obs hj => exact hupdate hj rfl
  | connect j sj now hj => exact hupdate hj rfl
  | frame j sj f record hj => exact hupdate hj rfl
  | resume j sj stage d hj => exact hupdate hj rfl

/-- A session that was not there was opened by its request, and holds what that brought. -/
theorem session_opened (lib : Libraries V) {s : Server V} {i : Nat} {ss : Session V} {e : Event}
    (hnone : s.session i = none) (h : (s.step lib e).session i = some ss) :
    ∃ request, e = .request i request ∧ ss.peer = request.remote.getD "" ∧
      ss.clientVersion = request.version := by
  have hof : sessionOf e = some i := by
    by_contra hne
    rw [session_of_other lib s hne, hnone] at h
    cases h
  unfold step at h
  cases e with
  | request j request =>
    obtain rfl := Option.some.inj hof
    refine ⟨request, rfl, ?_⟩
    simp only [exec, hnone, handle] at h
    -- every branch makes the same session, but for the VIN and the phase
    have hmade {sj : Session V} (hsj : Function.update s.session j (some sj) j = some ss)
        (hpeer : sj.peer = request.remote.getD "")
        (hversion : sj.clientVersion = request.version) :
        ss.peer = request.remote.getD "" ∧ ss.clientVersion = request.version := by
      rw [Function.update_self] at hsj
      rw [← Option.some.inj hsj]
      exact ⟨hpeer, hversion⟩
    split at h
    · exact hmade h rfl rfl
    · split at h
      · exact hmade h rfl rfl
      · exact hmade h rfl rfl
      · exact hmade h rfl rfl
  | prepared | returned | message | sent | finished | raises =>
    obtain rfl := Option.some.inj hof
    simp only [exec, hnone] at h
    cases h
  | addListener | unsubscribe | records | onStream | stop | cleanedUp => cases hof

/-- A `ws.prepare` that has returned is over. -/
theorem not_preparing_prepared (lib : Libraries V) (s : Server V) (i now : Nat) :
    ¬ (s.step lib (.prepared i now)).Preparing i := by
  intro h
  obtain ⟨ss, hs, hp⟩ := preparing_back lib (fun _ => .inl (by simp)) h
  unfold step at h
  simp only [exec, hs, hp] at h
  exact ((preparing_update (s := s) rfl (walk_ne_preparing _ _) i).mp h).2 rfl

/-- The registry changes where a session connects or disconnects. -/
theorem connections_step (lib : Libraries V) (s : Server V) (e : Event) (vin : String)
    (conn : Connection) (h : (s.step lib e).connections.get vin = some conn) :
    s.connections.get vin = some conn ∨
      ∃ i ss now, e = .prepared i now ∧ s.session i = some ss ∧ ss.phase = .preparing ∧
        conn = ⟨i, vin, now, ss.peer, ss.clientVersion⟩ := by
  have hm := step_move lib s e
  generalize s.step lib e = s' at hm h
  generalize s.seen lib e = obs at hm
  cases hm with
  | environment e he =>
    rw [(environment_frame lib s he).1] at h
    exact .inl h
  | connect i ss now hs hp =>
    unfold connect at h
    rw [dispatch_connections, Dict.get_set] at h
    split at h
    · next hv => exact .inr ⟨i, ss, now, rfl, hs, hp, by rw [hv]; exact (Option.some.inj h).symm⟩
    · exact .inl h
  | disconnect e i ss raised now pre hs hl =>
    by_cases hh : s.holder ss.vin = some i
    · rw [disconnect_of_holder s i ss hh, dispatch_connections, Dict.get_erase] at h
      split at h
      · cases h
      · exact .inl h
    · rw [disconnect_of_not_holder s i ss hh] at h
      exact .inl h
  | idle | opened | quiet | frame | resume => exact .inl h

/-- **A step keeps the description.** -/
theorem described_step (lib : Libraries V) {es : List Event} {s : Server V} (h : Described es s)
    (hnone : ∀ i, s.session i = none → requestOf i es = none) (e : Event) :
    Described (es ++ [e]) (s.step lib e) where
  session i ss hss := by
    cases hs : s.session i with
    | none =>
      obtain ⟨request, rfl, hpeer⟩ := session_opened lib hs hss
      refine ⟨request, ?_, hpeer⟩
      rw [requestOf_append, hnone i hs]
      simp [requestOf]
    | some ss₀ =>
      obtain ⟨request, hr, hpeer⟩ := h.session i ss₀ hs
      obtain ⟨p, hp⟩ := session_phase lib hs e
      obtain rfl := Option.some.inj (hp.symm.trans hss)
      exact ⟨request, by rw [requestOf_append, hr]; rfl, hpeer⟩
  preparing i hi := by
    rw [preparedAt_snoc]
    cases hs : s.session i with
    | none =>
      rw [hnone i hs, preparedAt_eq_none (hnone i hs)]
      rfl
    | some ss =>
      have hback := preparing_back lib (fun _ => .inr (by rw [hs]; exact Option.some_ne_none ss)) hi
      have hclock : clockAt i e = none := by
        cases e with
        | prepared j now =>
          refine if_neg ?_
          rintro rfl
          exact not_preparing_prepared lib s j now hi
        | _ => rfl
      rw [h.preparing i hback, hclock, ite_self]
      rfl
  registry vin conn hc := by
    rcases connections_step lib s e vin conn hc with hold | ⟨i, ss, now, rfl, hs, hp, rfl⟩
    · exact connectionOf_snoc (h.registry vin conn hold) e
    · obtain ⟨request, hr, hpeer, hversion⟩ := h.session i ss hs
      have hat : preparedAt i (es ++ [.prepared i now]) = some now := by
        rw [preparedAt_snoc, h.preparing i ⟨ss, hs, hp⟩, hr]
        simp [clockAt]
      unfold connectionOf
      rw [requestOf_append, hr, hat, hpeer, hversion]
      rfl

theorem described_run (lib : Libraries V) (n : Nat) (es : List Event) :
    Described es (after lib n es) := by
  induction es using List.reverseRecOn with
  | nil =>
    refine ⟨fun i ss hs => ?_, fun i hi => ?_, fun vin conn hc => ?_⟩
    · cases hs
    · rfl
    · cases hc
  | append_singleton es e ih =>
    unfold after
    rw [run_snoc]
    exact described_step lib ih (fun i => requestOf_eq_none n es) e

/-! ## Top theorem (proved from the lemmas above) -/

/-- **What `connections` shows.**  In every run a vehicle is in the snapshot with a `Connection`
exactly if this is of the session that registered it last and that has not yet disconnected, and
has the address and the version of the request that opened the session and the time at which its
`ws.prepare` returned. -/
theorem connections_iff (lib : Libraries V) (n : Nat) (es : List Event) (vin : String)
    (conn : Connection) :
    (vin, conn) ∈ (after lib n es).connections.entries ↔
      lastRegistered vin (log lib n es) = some conn.ident ∧
        .disconnecting conn.ident vin ∉ log lib n es ∧
        connectionOf conn.ident vin es = some conn := by
  have hd := (described_run lib n es).registry vin
  rw [Dict.mem_entries_iff, ← and_assoc, ← holder_eq_some_iff]
  constructor
  · intro h
    exact ⟨by unfold holder; rw [h]; rfl, hd conn h⟩
  · rintro ⟨hh, hconn⟩
    obtain ⟨conn', hget, hident⟩ := Option.map_eq_some_iff.mp hh
    have hconn' := hd conn' hget
    rw [hident, hconn] at hconn'
    rw [hget, Option.some.inj hconn']

end Server

end FleetTelemetry
