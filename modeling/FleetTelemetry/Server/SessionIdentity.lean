import FleetTelemetry.Server.ConnectivityOrder

/-!
# The identity of a session

A VIN enters the server in one place, `authorize`, which reads it off the client
certificate; from there it is copied, to the session, its `Connection` and its records,
and never made of what a frame says.

    Identified who s → (.request i vin → who i vin) → Identified who (s.step lib e)   (identified_step)
    every VIN of `after lib n es` and of its log is `Presented lib es`                (vin_presented)
-/

namespace FleetTelemetry

open Runs

variable {V : Type}

/-! ## Algorithm -/

/-- The certificate stands for `vin`: its first subject Common Name, and a known first issuer. -/
structure Certificate.StandsFor (cert : Certificate) (vin : String) : Prop where
  subject : cert.subject.head?.map dotsToDashes = some vin
  nonempty : vin ≠ ""
  issuer : ∃ issuerCn, cert.issuer.head? = some issuerCn ∧
    (issuerCn ∈ knownOidIssuers ∨ issuerCn ∈ knownIssuers.map Prod.fst)

namespace Server

variable (lib : Libraries V)

/-- The client certificate of the session a request opens. -/
def certificateOf (request : Request) : Option Certificate :=
  ((request.transport.bind Transport.sslObject).bind SslObject.peercert).bind lib.loadDer

/-- The request that opened session `i`. -/
def requestOf (i : Nat) (es : List Event) : Option Request :=
  es.findSome? fun
    | .request j request => if j = i then some request else none
    | _ => none

/-- The certificate presented on session `i` stands for `vin`. -/
def Presented (es : List Event) (i : Nat) (vin : String) : Prop :=
  ∃ request cert, requestOf i es = some request ∧ certificateOf lib request = some cert ∧
    cert.StandsFor vin

/-- Every VIN in the server is one that `who` allows its session. -/
structure Identified (who : Nat → String → Prop) (s : Server V) : Prop where
  session : ∀ i ss, s.session i = some ss → (∃ raised, ss.phase = .ended raised) ∨ who i ss.vin
  delivery : ∀ i ss stage d, s.session i = some ss → ss.phase = .delivering stage d →
    who d.call.session d.call.record.vin
  registry : ∀ vin conn, s.connections.get vin = some conn → conn.vin = vin ∧ who conn.ident vin

/-- A call, or a registration, with a VIN that `who` allows its session. -/
def Vouched (who : Nat → String → Prop) (o : Obs V) : Prop :=
  (∀ call, callOf o = some call → who call.session call.record.vin) ∧
    ∀ i vin, o = .registered i vin → who i vin

/-! ## Lemmas -/

variable {lib}

/-- **`_authorize` lets a session in only under the VIN its certificate stands for.** -/
theorem standsFor_of_authorize {request : Request} {vin : String}
    (h : authorize lib.loadDer lib.repr request = .vin vin) :
    ∃ cert, certificateOf lib request = some cert ∧ cert.StandsFor vin := by
  unfold authorize at h
  split at h
  · cases h
  next transport ht =>
  split at h
  · cases h
  next sslObject hs =>
  split at h
  · cases h
  · cases h
  next der hne hder =>
  split at h
  · cases h
  next cert hcert =>
  split at h
  · cases h
  next identity hid =>
  split at h
  · cases h
  next hvin =>
  obtain rfl := Authorization.vin.inj h
  have hof : certificateOf lib request = some cert := by
    unfold certificateOf
    rw [ht, Option.bind_some, hs, Option.bind_some, hder, Option.bind_some, hcert]
  refine ⟨cert, hof, ?_⟩
  -- both branches of `identity_from_cert` make the VIN the same way
  have hmade : identity.vin = dotsToDashes (commonName cert.subject) ∧
      (commonName cert.issuer ∈ knownOidIssuers ∨
        commonName cert.issuer ∈ knownIssuers.map Prod.fst) := by
    unfold identityFromCert at hid
    simp only at hid
    split at hid
    · next hk =>
      obtain rfl := Option.some.inj hid
      exact ⟨rfl, .inl hk⟩
    · obtain ⟨clientType, hl, rfl⟩ := Option.map_eq_some_iff.mp hid
      refine ⟨rfl, .inr ?_⟩
      obtain ⟨l₁, l₂, hsplit, -⟩ := List.lookup_eq_some_iff.mp hl
      rw [hsplit]
      simp
  obtain ⟨hsub, hiss⟩ := hmade
  refine ⟨?_, hvin, ?_⟩
  · cases hc : cert.subject with
    | nil => rw [hc] at hsub; exact absurd hsub hvin
    | cons cn rest => rw [hsub, hc]; rfl
  · cases hc : cert.issuer with
    | nil => rw [hc] at hiss; exact absurd hiss (by decide)
    | cons cn rest => rw [hc] at hiss; exact ⟨cn, rfl, hiss⟩

/-- What `_handle` makes of a request. -/
theorem handle_session (lib : Libraries V) (s : Server V) (i : Nat) (request : Request) :
    ∃ ss, (s.handle lib i request).1.session = Function.update s.session i (some ss) ∧
      ((∃ raised, ss.phase = .ended raised) ∨
        ∃ cert, certificateOf lib request = some cert ∧ cert.StandsFor ss.vin) := by
  unfold handle
  split
  · exact ⟨_, rfl, .inl ⟨_, rfl⟩⟩
  · split
    · next vin hv => exact ⟨_, rfl, .inr (standsFor_of_authorize hv)⟩
    · exact ⟨_, rfl, .inl ⟨_, rfl⟩⟩
    · exact ⟨_, rfl, .inl ⟨_, rfl⟩⟩

theorem recordOf_vin {vin : String} {frame : StreamFrame} {record : Record V}
    (h : recordOf lib vin frame = some record) : record.vin = vin := by
  unfold recordOf at h
  cases hp : parseRecord lib.parse vin frame.topic frame.txid frame.createdAt frame.payload with
  | error e => rw [hp] at h; cases h
  | ok r =>
    rw [hp] at h
    obtain rfl : r = record := Option.some.inj h
    unfold parseRecord at hp
    split at hp
    · cases hp
    · split at hp
      · cases hp
      · split at hp
        · cases hp
        · cases hp; rfl

section
variable {who : Nat → String → Prop} {s s' : Server V} {i : Nat} {ss : Session V}

theorem Identified.mono {who' : Nat → String → Prop} (h : Identified who s)
    (hle : ∀ i vin, who i vin → who' i vin) : Identified who' s where
  session i ss hs := (h.session i ss hs).imp_right (hle i _)
  delivery i ss stage d hs hp := hle _ _ (h.delivery i ss stage d hs hp)
  registry vin conn hc := ⟨(h.registry vin conn hc).1, hle _ _ (h.registry vin conn hc).2⟩

theorem Vouched.mono {who' : Nat → String → Prop} {o : Obs V} (h : Vouched who o)
    (hle : ∀ i vin, who i vin → who' i vin) : Vouched who' o :=
  ⟨fun call hc => hle _ _ (h.1 call hc), fun i vin ho => hle _ _ (h.2 i vin ho)⟩

/-- An observation that is neither a call nor a registration. -/
theorem Vouched.silent {o : Obs V} (hcall : callOf o = none)
    (hreg : ∀ i vin, o ≠ .registered i vin) : Vouched who o := by
  refine ⟨fun call hc => ?_, fun i vin ho => absurd ho (hreg i vin)⟩
  rw [hcall] at hc
  cases hc

theorem Identified.live (h : Identified who s) (hs : s.session i = some ss)
    (hp : ∀ raised, ss.phase ≠ .ended raised) : who i ss.vin :=
  (h.session i ss hs).resolve_left fun ⟨raised, hr⟩ => hp raised hr

/-- A session that goes on to `p`; nothing else moves. -/
theorem Identified.goto (h : Identified who s)
    (hses : s'.session = Function.update s.session i (some ss))
    (hconn : s'.connections = s.connections)
    (hvin : (∃ raised, ss.phase = .ended raised) ∨ who i ss.vin)
    (hd : ∀ stage d, ss.phase = .delivering stage d → who d.call.session d.call.record.vin) :
    Identified who s' := by
  refine ⟨fun j ss' hj => ?_, fun j ss' stage d hj hp => ?_, by rw [hconn]; exact h.registry⟩
  · rw [hses, Function.update_apply] at hj
    split at hj
    · next hji => obtain rfl := Option.some.inj hj; rw [hji]; exact hvin
    · exact h.session j ss' hj
  · rw [hses, Function.update_apply] at hj
    split at hj
    · obtain rfl := Option.some.inj hj; exact hd stage d hp
    · exact h.delivery j ss' stage d hj hp

/-- The listeners still to come are handed the call that is under way. -/
theorem walk_call {stage stage' : Stage} {call : Call V} {entries : List (Nat × Registration)}
    {d : Delivery V} (h : walk stage (next call entries) = .delivering stage' d) : d.call = call :=
  (next_eq_some call (eq_of_walk h)).1

theorem vouched_invoked {call : Call V} {entries : List (Nat × Registration)}
    (h : who call.session call.record.vin) : ∀ o ∈ invoked (next call entries), Vouched who o := by
  intro o ho
  cases hn : next call entries with
  | none => rw [hn] at ho; cases ho
  | some d =>
    rw [hn] at ho
    obtain rfl := List.mem_singleton.mp ho
    refine ⟨fun c hc => ?_, fun i vin he => ?_⟩
    · obtain rfl := Option.some.inj hc
      rw [(next_eq_some call hn).1]
      exact h
    · cases he

/-- A dispatch of a record under the session's own VIN. -/
theorem identified_dispatch (h : Identified who s) (hvin : who i ss.vin) (stage : Stage)
    (record : Record V) (hr : record.vin = ss.vin) :
    Identified who (s.dispatch i ss stage record).1 ∧
      ∀ o ∈ (s.dispatch i ss stage record).2, Vouched who o := by
  have hcall : who i record.vin := by rw [hr]; exact hvin
  refine ⟨h.goto (dispatch_session ..) rfl (.inr hvin) fun stage' d hp => ?_, fun o ho => ?_⟩
  · rw [walk_call hp]
    exact hcall
  · rw [dispatch_seen] at ho
    rcases List.mem_cons.mp ho with rfl | ho
    · refine ⟨fun c hc => ?_, fun i vin he => ?_⟩
      · obtain rfl := Option.some.inj hc
        exact hcall
      · cases he
    · exact vouched_invoked hcall o ho

theorem identified_connect (h : Identified who s) (hvin : who i ss.vin) (now : Nat) :
    Identified who (s.connect i ss now).1 ∧ ∀ o ∈ (s.connect i ss now).2, Vouched who o := by
  have hset : Identified who { s with
      connections := s.connections.set ss.vin ⟨i, ss.vin, now, ss.peer, ss.clientVersion⟩ } := by
    refine ⟨h.session, h.delivery, fun vin conn hc => ?_⟩
    rw [Dict.get_set] at hc
    split at hc
    · next hv => obtain rfl := Option.some.inj hc; rw [hv]; exact ⟨rfl, hvin⟩
    · exact h.registry vin conn hc
  obtain ⟨hst, hobs⟩ := identified_dispatch (i := i) hset hvin .connect
    (connectivityRecord ss.vin .connected now) rfl
  refine ⟨hst, fun o ho => ?_⟩
  rcases List.mem_cons.mp ho with rfl | ho
  · refine ⟨fun call hc => ?_, fun j vin he => ?_⟩
    · cases hc
    · obtain ⟨rfl, rfl⟩ := Obs.registered.inj he
      exact hvin
  · exact hobs o ho

theorem identified_disconnect (h : Identified who s) (hvin : who i ss.vin) (raised : Bool)
    (now : Nat) :
    Identified who (s.disconnect i ss raised now).1 ∧
      ∀ o ∈ (s.disconnect i ss raised now).2, Vouched who o := by
  by_cases hh : s.holder ss.vin = some i
  · rw [disconnect_of_holder s i ss hh]
    have herase : Identified who { s with connections := s.connections.erase ss.vin } := by
      refine ⟨h.session, h.delivery, fun vin conn hc => ?_⟩
      rw [Dict.get_erase] at hc
      split at hc
      · cases hc
      · exact h.registry vin conn hc
    obtain ⟨hst, hobs⟩ := identified_dispatch (i := i) herase hvin (.disconnect raised)
      (connectivityRecord ss.vin .disconnected now) rfl
    refine ⟨hst, fun o ho => ?_⟩
    rcases List.mem_cons.mp ho with rfl | ho
    · exact .silent rfl (by simp)
    · exact hobs o ho
  · rw [disconnect_of_not_holder s i ss hh]
    refine ⟨h.goto rfl rfl (.inr hvin) fun stage d hp => ?_, fun o ho => ?_⟩
    · cases hp
    · obtain rfl := List.mem_singleton.mp ho
      exact .silent rfl (by simp)

end

theorem Quiet.vouched {vin : String} {i : Nat} {e : Event} {p p' : Phase V} {obs : List (Obs V)}
    (h : Quiet lib vin i e p p' obs) (who : Nat → String → Prop) : ∀ o ∈ obs, Vouched who o := by
  cases h <;> simp [Vouched, callOf]

theorem Leaves.vouched {i : Nat} {e : Event} {p : Phase V} {raised : Bool} {obs : List (Obs V)}
    (h : Leaves lib i e p raised obs) (who : Nat → String → Prop) : ∀ o ∈ obs, Vouched who o := by
  cases h <;> simp [Vouched, callOf]

theorem Quiet.not_ended {vin : String} {i : Nat} {e : Event} {p p' : Phase V} {obs : List (Obs V)}
    (h : Quiet lib vin i e p p' obs) (raised : Bool) : p ≠ .ended raised := by
  cases h with
  | abandoned p now hp hend => exact hend raised
  | skipped | acknowledged | unsent | unparsable => nofun

theorem Leaves.not_ended {i : Nat} {e : Event} {p : Phase V} {raised : Bool} {obs : List (Obs V)}
    (h : Leaves lib i e p raised obs) (r : Bool) : p ≠ .ended r := by
  cases h with
  | raised p now hp => rintro rfl; exact hp
  | finished | unencodable => nofun

/-- **A step copies VINs and makes none**, but for the request that opens a session. -/
theorem identified_step (lib : Libraries V) {who : Nat → String → Prop} {s : Server V}
    (h : Identified who s) (e : Event)
    (hopen : ∀ i request cert vin, e = .request i request → s.session i = none →
      certificateOf lib request = some cert → cert.StandsFor vin → who i vin) :
    Identified who (s.step lib e) ∧ ∀ o ∈ s.seen lib e, Vouched who o := by
  have hm := step_move lib s e
  have hnew : ∀ i request, e = .request i request → s.session i = none →
      ∃ ss, (s.step lib e).session = Function.update s.session i (some ss) ∧
        ((∃ raised, ss.phase = .ended raised) ∨ who i ss.vin) := by
    rintro i request rfl hn
    obtain ⟨ss, hses, hv⟩ := handle_session lib s i request
    refine ⟨ss, by unfold step; simp only [exec, hn]; exact hses, hv.imp_right ?_⟩
    rintro ⟨cert, hc, hf⟩
    exact hopen i request cert ss.vin rfl hn hc hf
  generalize s.step lib e = s' at hm hnew ⊢
  generalize s.seen lib e = obs at hm ⊢
  cases hm with
  | idle => exact ⟨h, List.forall_mem_nil _⟩
  | environment e he =>
    obtain ⟨hc, hs⟩ := environment_frame lib s he
    exact ⟨⟨by rw [hs]; exact h.session, by rw [hs]; exact h.delivery,
      by rw [hc]; exact h.registry⟩, List.forall_mem_nil _⟩
  | opened i request ss obs hn hphase hobs =>
    obtain ⟨ss', hses, hv⟩ := hnew i request rfl hn
    obtain rfl : ss = ss' := by
      have hi : Function.update s.session i (some ss) i = Function.update s.session i (some ss') i :=
        congrFun hses i
      rw [Function.update_self, Function.update_self] at hi
      exact Option.some.inj hi
    refine ⟨h.goto rfl rfl hv fun stage d hp => ?_, fun o ho => ?_⟩
    · rcases hphase with hq | ⟨r, hq⟩ <;> rw [hq] at hp <;> cases hp
    · obtain ⟨r, rfl⟩ := hobs o ho
      exact .silent rfl (by simp)
  | quiet e i ss p obs hs hq =>
    have hvin := h.live hs hq.not_ended
    exact ⟨h.goto rfl rfl (.inr hvin) fun stage d hp => absurd hp (hq.not_delivering stage d),
      hq.vouched who⟩
  | connect i ss now hs hp => exact identified_connect h (h.live hs (by simp [hp])) now
  | frame i ss f record hs hp hr =>
    have hvin := h.live hs (by simp [hp])
    obtain ⟨hst, hobs⟩ := identified_dispatch h hvin .frame record (recordOf_vin hr)
    refine ⟨hst, fun o ho => ?_⟩
    rcases List.mem_cons.mp ho with rfl | ho
    · exact .silent rfl (by simp)
    · exact hobs o ho
  | disconnect e i ss raised now pre hs hl =>
    obtain ⟨hst, hobs⟩ := identified_disconnect h (h.live hs hl.not_ended) raised now
    exact ⟨hst, fun o ho => (List.mem_append.mp ho).elim (hl.vouched who o) (hobs o)⟩
  | resume i ss stage d hs hp =>
    have hw := h.delivery i ss stage d hs hp
    have hvin := h.live hs (by simp [hp])
    refine ⟨h.goto rfl rfl (.inr hvin) fun stage' d' hp' => ?_, vouched_invoked hw⟩
    rw [walk_call hp']
    exact hw

/-! ### Runs -/

/-- A session does not go away. -/
theorem session_kept {s : Server V} {i : Nat} (h : s.session i ≠ none) (e : Event) :
    (s.step lib e).session i ≠ none := by
  have hm := step_move lib s e
  generalize s.step lib e = s' at hm ⊢
  generalize s.seen lib e = obs at hm
  have hupdate {j : Nat} {ss : Session V} : Function.update s.session j (some ss) i ≠ none := by
    rw [Function.update_apply]
    split
    · exact Option.some_ne_none _
    · exact h
  cases hm with
  | idle => exact h
  | environment e he => rw [(environment_frame lib s he).2]; exact h
  | disconnect e j ss raised now pre hs hl =>
    obtain ⟨p, hses, -⟩ := disconnect_session s j ss raised now
    rw [hses]
    exact hupdate
  | opened | quiet | connect | frame | resume => exact hupdate

/-- A session that is not there had no request. -/
theorem session_none_step {s : Server V} {e : Event} {i : Nat} (h : (s.step lib e).session i = none) :
    s.session i = none ∧ ∀ request, e ≠ .request i request := by
  have hnone : s.session i = none := by
    by_contra hs
    exact session_kept hs e h
  refine ⟨hnone, ?_⟩
  rintro request rfl
  obtain ⟨ss, hses, -⟩ := handle_session lib s i request
  have hsome : (s.step lib (.request i request)).session i = some ss := by
    simp only [step, exec, hnone, hses, Function.update_self]
  rw [hsome] at h
  cases h

theorem requestOf_append (i : Nat) (es fs : List Event) :
    requestOf i (es ++ fs) = (requestOf i es).or (requestOf i fs) := List.findSome?_append

theorem Presented.snoc {es : List Event} {i : Nat} {vin : String} (h : Presented lib es i vin)
    (e : Event) : Presented lib (es ++ [e]) i vin := by
  obtain ⟨request, cert, hr, hc, hv⟩ := h
  exact ⟨request, cert, by rw [requestOf_append, hr, Option.some_or], hc, hv⟩

theorem requestOf_eq_none (n : Nat) (es : List Event) {i : Nat}
    (h : (after lib n es).session i = none) : requestOf i es = none := by
  induction es using List.reverseRecOn with
  | nil => rfl
  | append_singleton es e ih =>
    unfold after at h ih
    rw [run_snoc] at h
    obtain ⟨hs, he⟩ := session_none_step h
    rw [requestOf_append, ih hs, Option.none_or]
    cases e with
    | request j request =>
      have hij : j ≠ i := by rintro rfl; exact he request rfl
      simp [requestOf, hij]
    | _ => rfl

/-- **The invariant of a run.** -/
theorem identified_run (lib : Libraries V) (n : Nat) (es : List Event) :
    Identified (Presented lib es) (after lib n es) ∧
      ∀ o ∈ log lib n es, Vouched (Presented lib es) o := by
  induction es using List.reverseRecOn with
  | nil =>
    refine ⟨⟨fun i ss hs => ?_, fun i ss stage d hs => ?_, fun vin conn hc => ?_⟩, ?_⟩
    · cases hs
    · cases hs
    · cases hc
    · exact List.forall_mem_nil _
  | append_singleton es e ih =>
    obtain ⟨hst, hobs⟩ := ih
    have hle : ∀ i vin, Presented lib es i vin → Presented lib (es ++ [e]) i vin :=
      fun i vin h => h.snoc e
    have hstep := identified_step lib (hst.mono hle) e ?_
    · unfold after log
      rw [run_snoc, outputs_snoc]
      refine ⟨hstep.1, fun o ho => ?_⟩
      rcases List.mem_append.mp ho with ho | ho
      · exact (hobs o ho).mono hle
      · exact hstep.2 o ho
    · rintro i request cert vin rfl hnone hc hv
      refine ⟨request, cert, ?_, hc, hv⟩
      rw [requestOf_append, requestOf_eq_none n es hnone, Option.none_or]
      simp [requestOf]

/-- One certificate stands for one VIN. -/
theorem Presented.unique {es es' : List Event} {i : Nat} {vin vin' : String}
    (h : Presented lib es i vin) (h' : Presented lib es' i vin')
    (hr : requestOf i es' = requestOf i es) : vin = vin' := by
  obtain ⟨request, cert, hreq, hc, hv⟩ := h
  obtain ⟨request', cert', hreq', hc', hv'⟩ := h'
  obtain rfl : request = request' := Option.some.inj (by rw [← hreq, ← hr, hreq'])
  obtain rfl : cert = cert' := Option.some.inj (by rw [← hc, hc'])
  exact Option.some.inj (by rw [← hv.subject, hv'.subject])

/-! ## Top theorems (proved from the lemmas above) -/

/-- **Every VIN in the server is that of the session's own certificate.**  The registry, its
connections and the records of all calls hold it; and of two runs in which session `i` makes the
same request, whatever it sends, and whatever happens besides, the calls have one VIN. -/
theorem vin_presented (lib : Libraries V) (n : Nat) (es : List Event) :
    (∀ vin conn, (after lib n es).connections.get vin = some conn →
      conn.vin = vin ∧ Presented lib es conn.ident vin) ∧
    (∀ i vin, .registered i vin ∈ log lib n es → Presented lib es i vin) ∧
    (∀ o ∈ log lib n es, ∀ call, callOf o = some call →
      Presented lib es call.session call.record.vin) ∧
    ∀ es' i, requestOf i es' = requestOf i es →
      ∀ o ∈ log lib n es, ∀ o' ∈ log lib n es', ∀ call call' : Call V,
        callOf o = some call → callOf o' = some call' →
        call.session = i → call'.session = i → call.record.vin = call'.record.vin := by
  obtain ⟨hst, hobs⟩ := identified_run lib n es
  refine ⟨hst.registry, fun i vin h => (hobs _ h).2 i vin rfl,
    fun o ho call hc => (hobs o ho).1 call hc, ?_⟩
  intro es' i hreq o ho o' ho' call call' hc hc' hi hi'
  have h := (hobs o ho).1 call hc
  have h' := ((identified_run lib n es').2 o' ho').1 call' hc'
  rw [hi] at h
  rw [hi'] at h'
  exact h.unique h' hreq

example : ((after sampleLibraries 1 [.request 0 sampleRequest, .prepared 0 5]).connections.get
    "V").map Connection.vin = some "V" := by decide

end Server

end FleetTelemetry
