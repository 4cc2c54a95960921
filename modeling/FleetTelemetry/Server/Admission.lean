import FleetTelemetry.Server.SessionIdentity
import FleetTelemetry.Server.Shutdown

/-!
# Which vehicles connect

A session registers exactly if its request came before `stop`, `_authorize` found a
certificate that stands for a VIN, and `ws.prepare` returned:

    authorize lib.loadDer lib.repr request = .vin vin ↔ Admissible lib request vin    (authorize_iff)
    .registered i vin ∈ log lib n es ↔ Admitted lib i vin es                           (admitted_iff)

So no vehicle with such a certificate is turned away from an open server, and `stop` does not
turn away a request that it finds in `ws.prepare`.
-/

namespace FleetTelemetry

open Runs

namespace Server

variable {V : Type} (lib : Libraries V)

/-! ## Algorithm -/

/-- `ssl_object.getpeercert(binary_form=True)`, where there is a TLS session. -/
def peercert (request : Request) : Option Bytes :=
  (request.transport.bind Transport.sslObject).bind SslObject.peercert

/-- The client certificate of the request stands for `vin`. -/
def Admissible (request : Request) (vin : String) : Prop :=
  ∃ der cert, peercert request = some der ∧ der ≠ [] ∧ lib.loadDer der = some cert ∧
    cert.StandsFor vin

/-- The request of session `i` came before `stop`, its certificate stands for `vin`, and its
`ws.prepare` returned. -/
def Admitted (i : Nat) (vin : String) (es : List Event) : Prop :=
  ∃ es₁ request es₂, es = es₁ ++ .request i request :: es₂ ∧ (∀ r, .request i r ∉ es₁) ∧
    .stop ∉ es₁ ∧ Admissible lib request vin ∧ Prepares i es₂

/-! ## Lemmas -/

variable {lib}

/-! ### Authorization -/

/-- Every known issuer makes a `vehicle_device`. -/
theorem identityFromCert_of_standsFor {cert : Certificate} {vin : String}
    (h : cert.StandsFor vin) : identityFromCert cert = some ⟨vin, "vehicle_device"⟩ := by
  obtain ⟨hsubject, -, issuerCn, hissuer, hknown⟩ := h
  obtain ⟨cn, hcn, rfl⟩ := Option.map_eq_some_iff.mp hsubject
  have hs : commonName cert.subject = cn := by
    unfold commonName
    rw [List.headD_eq_head?_getD, hcn]
    rfl
  have hi : commonName cert.issuer = issuerCn := by
    unfold commonName
    rw [List.headD_eq_head?_getD, hissuer]
    rfl
  unfold identityFromCert
  simp only [hs, hi]
  split
  · rfl
  · next hno =>
    have hlookup : knownIssuers.lookup issuerCn = some "vehicle_device" := by
      have hmem := hknown.resolve_left hno
      simp only [knownIssuers, List.map_cons, List.map_nil, List.mem_cons, List.not_mem_nil,
        or_false] at hmem
      rcases hmem with rfl | rfl | rfl <;> decide
    rw [hlookup]
    rfl

theorem authorize_of_peercert {request : Request} {der : Bytes}
    (h : peercert request = some der) :
    authorize lib.loadDer lib.repr request = match der with
      | [] => .response ⟨496, "no client certificate"⟩
      | _ :: _ => match lib.loadDer der with
        | none => .raised
        | some cert => match identityFromCert cert with
          | none => .response ⟨496, "unrecognized issuer: " ++ lib.repr (commonName cert.issuer)⟩
          | some identity =>
            if identity.vin = "" then .response ⟨496, "client certificate has no VIN"⟩
            else .vin identity.vin := by
  obtain ⟨sslObject, hssl, hpeer⟩ := Option.bind_eq_some_iff.mp h
  obtain ⟨transport, ht, hs⟩ := Option.bind_eq_some_iff.mp hssl
  unfold authorize
  rw [ht]
  simp only [hs, hpeer]
  cases der <;> rfl

/-- **`_authorize` lets in exactly the certificates that stand for a VIN.** -/
theorem authorize_iff (request : Request) (vin : String) :
    authorize lib.loadDer lib.repr request = .vin vin ↔ Admissible lib request vin := by
  constructor
  · intro h
    obtain ⟨cert, hcert, hstands⟩ := standsFor_of_authorize h
    obtain ⟨der, hder, hload⟩ := Option.bind_eq_some_iff.mp hcert
    refine ⟨der, cert, hder, ?_, hload, hstands⟩
    rintro rfl
    rw [authorize_of_peercert hder] at h
    cases h
  · rintro ⟨der, cert, hder, hne, hload, hstands⟩
    rw [authorize_of_peercert hder]
    cases der with
    | nil => exact absurd rfl hne
    | cons x xs =>
      simp only [hload, identityFromCert_of_standsFor hstands]
      rw [if_neg hstands.nonempty]

/-! ### Steps -/

/-- A registration is seen where a `ws.prepare` returns. -/
theorem registered_seen_iff (lib : Libraries V) (s : Server V) (e : Event) (i : Nat) (vin : String) :
    .registered i vin ∈ s.seen lib e ↔
      ∃ ss now, e = .prepared i now ∧ s.session i = some ss ∧ ss.phase = .preparing ∧ ss.vin = vin := by
  constructor
  · intro h
    obtain ⟨j, now, rfl, ss, hs, hp⟩ := (connects_seen lib s e).mp ⟨_, h, trivial⟩
    unfold seen at h
    simp only [exec, hs, hp, connect, dispatch_seen, List.mem_cons, Obs.registered.injEq,
      reduceCtorEq, false_or] at h
    rcases h with ⟨rfl, rfl⟩ | h
    · exact ⟨ss, now, rfl, hs, hp, rfl⟩
    · exact absurd trivial (not_connects_invoked _ h)
  · rintro ⟨ss, now, rfl, hs, hp, rfl⟩
    unfold seen
    simp only [exec, hs, hp]
    exact List.mem_cons_self

/-- A session that is not there, or past `ws.prepare`, does not come to be in it without a
request. -/
theorem preparing_back (lib : Libraries V) {s : Server V} {e : Event} {i : Nat}
    (hreq : ∀ request, e ≠ .request i request ∨ s.session i ≠ none)
    (h : (s.step lib e).Preparing i) : s.Preparing i := by
  have hm := step_move lib s e
  generalize s.step lib e = s' at hm h
  generalize s.seen lib e = obs at hm
  cases hm with
  | idle => exact h
  | environment e he =>
    unfold Preparing at h
    rw [(environment_frame lib s he).2] at h
    exact h
  | opened j request ss obs hnew =>
    have hij : i ≠ j := by
      rintro rfl
      exact (hreq request).elim (fun h => h rfl) (fun h => h hnew)
    obtain ⟨ss', hss, hp⟩ := h
    replace hss : Function.update s.session j (some ss) i = some ss' := hss
    rw [Function.update_of_ne hij] at hss
    exact ⟨ss', hss, hp⟩
  | quiet e j ss p obs hs hq => exact ((preparing_update rfl hq.ne_preparing i).mp h).1
  | connect j ss now hs hp => exact ((preparing_update rfl (walk_ne_preparing _ _) i).mp h).1
  | frame j ss f record hs hp hr =>
    exact ((preparing_update rfl (walk_ne_preparing _ _) i).mp h).1
  | disconnect e j ss raised now pre hs hl =>
    obtain ⟨p, hses, hp⟩ := disconnect_session s j ss raised now
    have hne : p ≠ .preparing := by rcases hp with ⟨d, rfl⟩ | rfl <;> intro h <;> cases h
    exact ((preparing_update hses hne i).mp h).1
  | resume j ss stage d hs hp => exact ((preparing_update rfl (walk_ne_preparing _ _) i).mp h).1

/-- A session in `ws.prepare` stays as it is until that returns or raises. -/
theorem preparing_session (lib : Libraries V) {s : Server V} {e : Event} {i : Nat} {ss : Session V}
    (hs : s.session i = some ss) (hp : ss.phase = .preparing)
    (hprep : ∀ now, e ≠ .prepared i now) (hraise : ∀ now, e ≠ .raises i now) :
    (s.step lib e).session i = some ss := by
  by_cases hof : sessionOf e = some i
  · cases e with
    | prepared j now =>
      obtain rfl := Option.some.inj hof
      exact absurd rfl (hprep now)
    | raises j now =>
      obtain rfl := Option.some.inj hof
      exact absurd rfl (hraise now)
    | request | returned | message | sent | finished =>
      obtain rfl := Option.some.inj hof
      unfold step
      simp only [exec, hs, hp]
    | addListener | unsubscribe | records | onStream | stop | cleanedUp => cases hof
  · rw [session_of_other lib s hof, hs]

/-- After its return or its exception `ws.prepare` is over. -/
theorem not_preparing_after (lib : Libraries V) {s : Server V} {i now : Nat} {ss : Session V}
    (hs : s.session i = some ss) (hp : ss.phase = .preparing) {e : Event}
    (he : e = .prepared i now ∨ e = .raises i now) : ¬ (s.step lib e).Preparing i := by
  intro h
  rcases he with rfl | rfl
  · unfold step at h
    simp only [exec, hs, hp] at h
    exact ((preparing_update (s := s) rfl (walk_ne_preparing _ _) i).mp h).2 rfl
  · unfold step at h
    simp only [exec, hs, raises, hp] at h
    exact ((preparing_update (s := s) rfl (by intro h; cases h) i).mp h).2 rfl

/-- What a request makes of a session that is not there. -/
theorem request_session (lib : Libraries V) {s : Server V} {i : Nat} (hnew : s.session i = none)
    (request : Request) :
    ∃ ss, (s.step lib (.request i request)).session i = some ss ∧
      (ss.phase = .preparing ↔ s.closed = false ∧ Admissible lib request ss.vin) ∧
      ∀ vin, s.closed = false → Admissible lib request vin → ss.vin = vin := by
  unfold step
  simp only [exec, hnew, handle]
  split
  · next hc =>
    refine ⟨_, Function.update_self .., ?_, fun vin hopen => ?_⟩
    · exact iff_of_false (fun h => by cases h) fun h => by rw [h.1] at hc; cases hc
    · rw [hopen] at hc
      cases hc
  · next hc =>
    have hopen : s.closed = false := Bool.eq_false_of_not_eq_true hc
    have hno {vin : String} (h : ∀ v, authorize lib.loadDer lib.repr request ≠ .vin v) :
        ¬ Admissible lib request vin := fun ha => h vin ((authorize_iff request vin).mpr ha)
    split
    · next vin hv =>
      have ha := (authorize_iff request vin).mp hv
      refine ⟨_, Function.update_self .., iff_of_true rfl ⟨hopen, ha⟩, fun vin' _ ha' => ?_⟩
      have hv' := (authorize_iff request vin').mpr ha'
      rw [hv] at hv'
      exact Authorization.vin.inj hv'
    · next r hr =>
      have hne : ∀ v, authorize lib.loadDer lib.repr request ≠ .vin v := by
        intro v hv
        rw [hr] at hv
        cases hv
      exact ⟨_, Function.update_self .., iff_of_false (fun h => by cases h) fun h => hno hne h.2,
        fun vin _ ha => absurd ha (hno hne)⟩
    · next hr =>
      have hne : ∀ v, authorize lib.loadDer lib.repr request ≠ .vin v := by
        intro v hv
        rw [hr] at hv
        cases hv
      exact ⟨_, Function.update_self .., iff_of_false (fun h => by cases h) fun h => hno hne h.2,
        fun vin _ ha => absurd ha (hno hne)⟩

/-- Only a request opens a session. -/
theorem session_none_kept (lib : Libraries V) {s : Server V} {e : Event} {i : Nat}
    (hs : s.session i = none) (he : ∀ request, e ≠ .request i request) :
    (s.step lib e).session i = none := by
  by_cases hof : sessionOf e = some i
  · cases e with
    | request j request =>
      obtain rfl := Option.some.inj hof
      exact absurd rfl (he request)
    | prepared | returned | message | sent | finished | raises =>
      obtain rfl := Option.some.inj hof
      unfold step
      simp only [exec, hs]
    | addListener | unsubscribe | records | onStream | stop | cleanedUp => cases hof
  · rw [session_of_other lib s hof, hs]

theorem closed_step_iff (lib : Libraries V) (s : Server V) (e : Event) :
    (s.step lib e).closed = true ↔ s.closed = true ∨ e = .stop := by
  by_cases he : Environment e
  · cases e with
    | stop => exact iff_of_true rfl (.inr rfl)
    | cleanedUp =>
      unfold step
      simp only [exec]
      split <;> simp
    | addListener | unsubscribe | records | onStream =>
      show s.closed = true ↔ _
      simp
    | request | prepared | returned | message | sent | finished | raises => cases he
  · rw [(sessions_frame lib s he).1]
    refine (or_iff_left ?_).symm
    rintro rfl
    exact he trivial

/-! ### Runs -/

theorem closed_run_iff (lib : Libraries V) (s : Server V) (es : List Event) :
    (run (step lib) s es).closed = true ↔ s.closed = true ∨ .stop ∈ es := by
  induction es generalizing s with
  | nil => simp
  | cons e es ih =>
    rw [run_cons, ih, closed_step_iff, List.mem_cons, or_assoc, @eq_comm _ e]

/-- A session past `ws.prepare` does not register again. -/
theorem not_registered_again (lib : Libraries V) {s : Server V} {i : Nat}
    (hs : s.session i ≠ none) (hp : ¬ s.Preparing i) (vin : String) (es : List Event) :
    .registered i vin ∉ outputs (step lib) (seen lib) s es := by
  induction es generalizing s with
  | nil => exact List.not_mem_nil
  | cons e es ih =>
    intro h
    rcases List.mem_append.mp h with h | h
    · obtain ⟨ss, now, -, hss, hphase, -⟩ := (registered_seen_iff lib s e i vin).mp h
      exact hp ⟨ss, hss, hphase⟩
    · exact ih (session_kept hs e) (fun h => hp (preparing_back lib (fun _ => .inr hs) h)) h

/-- A session in `ws.prepare` registers exactly if that returns. -/
theorem registered_of_preparing (lib : Libraries V) {s : Server V} {i : Nat} {ss : Session V}
    (hs : s.session i = some ss) (hp : ss.phase = .preparing) (vin : String) (es : List Event) :
    .registered i vin ∈ outputs (step lib) (seen lib) s es ↔ ss.vin = vin ∧ Prepares i es := by
  induction es generalizing s with
  | nil => exact iff_of_false List.not_mem_nil fun h => not_prepares_nil i h.2
  | cons e es ih =>
    have hsome : (s.step lib e).session i ≠ none :=
      session_kept (by rw [hs]; exact Option.some_ne_none ss) e
    rw [outputs, List.mem_append, prepares_cons, registered_seen_iff]
    by_cases hprep : ∃ now, e = .prepared i now
    · obtain ⟨now, rfl⟩ := hprep
      have hno := not_registered_again lib hsome
        (not_preparing_after lib hs hp (.inl rfl)) vin es
      constructor
      · rintro (⟨ss', now', -, hs', -, hv⟩ | h)
        · obtain rfl := Option.some.inj (hs.symm.trans hs')
          exact ⟨hv, .inl ⟨now, rfl⟩⟩
        · exact absurd h hno
      · rintro ⟨hv, -⟩
        exact .inl ⟨ss, now, rfl, hs, hp, hv⟩
    · by_cases hraise : ∃ now, e = .raises i now
      · obtain ⟨now, rfl⟩ := hraise
        have hno := not_registered_again lib hsome
          (not_preparing_after lib hs hp (.inr rfl)) vin es
        constructor
        · rintro (⟨ss', now', he, -⟩ | h)
          · cases he
          · exact absurd h hno
        · rintro ⟨-, ⟨now', he⟩ | ⟨hne, -⟩⟩
          · cases he
          · exact absurd rfl (hne now)
      · have hstay := preparing_session lib hs hp (fun now h => hprep ⟨now, h⟩)
          fun now h => hraise ⟨now, h⟩
        rw [ih hstay]
        constructor
        · rintro (⟨ss', now', he, -⟩ | ⟨hv, h⟩)
          · exact absurd ⟨now', he⟩ hprep
          · exact ⟨hv, .inr ⟨fun now h => hraise ⟨now, h⟩, h⟩⟩
        · rintro ⟨hv, ⟨now', he⟩ | ⟨-, h⟩⟩
          · exact absurd ⟨now', he⟩ hprep
          · exact .inr ⟨hv, h⟩

/-- **Registrations of a session that is not there yet.** -/
theorem registered_of_none (lib : Libraries V) {s : Server V} {i : Nat} (hs : s.session i = none)
    (vin : String) (es : List Event) :
    .registered i vin ∈ outputs (step lib) (seen lib) s es ↔
      ∃ es₁ request es₂, es = es₁ ++ .request i request :: es₂ ∧ (∀ r, .request i r ∉ es₁) ∧
        (run (step lib) s es₁).closed = false ∧ Admissible lib request vin ∧ Prepares i es₂ := by
  induction es generalizing s with
  | nil =>
    refine iff_of_false List.not_mem_nil ?_
    rintro ⟨es₁, request, es₂, h, -⟩
    cases es₁ <;> cases h
  | cons e es ih =>
    have hseen : .registered i vin ∉ s.seen lib e := by
      rw [registered_seen_iff]
      rintro ⟨ss, now, -, hss, -⟩
      rw [hs] at hss
      cases hss
    rw [outputs, List.mem_append, or_iff_right hseen]
    by_cases hreq : ∃ request, e = .request i request
    · obtain ⟨request, rfl⟩ := hreq
      obtain ⟨ss, hss, hphase, hvin⟩ := request_session lib hs request
      constructor
      · intro h
        by_cases hp : ss.phase = .preparing
        · obtain ⟨rfl, hprep⟩ := (registered_of_preparing lib hss hp vin es).mp h
          obtain ⟨hopen, ha⟩ := hphase.mp hp
          exact ⟨[], request, es, rfl, fun _ => List.not_mem_nil, hopen, ha, hprep⟩
        · refine absurd h (not_registered_again lib ?_ ?_ vin es)
          · rw [hss]
            exact Option.some_ne_none ss
          · rintro ⟨ss', hss', hp'⟩
            rw [hss] at hss'
            obtain rfl := Option.some.inj hss'
            exact hp hp'
      · rintro ⟨es₁, request', es₂, heq, hfirst, hopen, ha, hprep⟩
        cases es₁ with
        | cons e' es₁ =>
          obtain ⟨rfl, -⟩ := List.cons.inj heq
          exact absurd List.mem_cons_self (hfirst request)
        | nil =>
          obtain ⟨h, rfl⟩ := List.cons.inj heq
          obtain ⟨-, rfl⟩ := Event.request.inj h
          obtain rfl := hvin vin hopen ha
          exact (registered_of_preparing lib hss (hphase.mpr ⟨hopen, ha⟩) _ es).mpr ⟨rfl, hprep⟩
    · have hne : ∀ request, e ≠ .request i request := fun request h => hreq ⟨request, h⟩
      rw [ih (session_none_kept lib hs hne)]
      constructor
      · rintro ⟨es₁, request, es₂, rfl, hfirst, hrest⟩
        refine ⟨e :: es₁, request, es₂, rfl, fun r hr => ?_, hrest⟩
        exact (List.mem_cons.mp hr).elim (fun h => hne r h.symm) (hfirst r)
      · rintro ⟨es₁, request, es₂, heq, hfirst, hrest⟩
        cases es₁ with
        | nil => exact absurd (List.cons.inj heq).1 (hne request)
        | cons e' es₁ =>
          obtain ⟨rfl, rfl⟩ := List.cons.inj heq
          exact ⟨es₁, request, es₂, rfl, fun r hr => hfirst r (List.mem_cons_of_mem _ hr), hrest⟩

/-! ## Top theorems (proved from the lemmas above) -/

/-- **Exactly the vehicles with a certificate of a known issuer connect.**  In every run a session
registers a VIN exactly if its request came before `stop`, the certificate presented with it
stands for that VIN, and its `ws.prepare` returned. -/
theorem admitted_iff (lib : Libraries V) (n : Nat) (es : List Event) (i : Nat) (vin : String) :
    .registered i vin ∈ log lib n es ↔ Admitted lib i vin es := by
  unfold log
  rw [registered_of_none lib rfl]
  refine exists_congr fun es₁ => exists_congr fun request => exists_congr fun es₂ =>
    and_congr_right fun _ => and_congr_right fun _ => and_congr_left fun _ => ?_
  rw [← Bool.not_eq_true, closed_run_iff]
  exact not_congr (or_iff_right Bool.false_ne_true)

end Server

end FleetTelemetry
