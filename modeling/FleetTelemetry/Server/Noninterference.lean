import FleetTelemetry.Server.Cleanup
import FleetTelemetry.Server.Delivery

/-!
# What one session can see of the others

The sessions share the registry, the listeners and the iterators.  Take a run and the
same run without the other sessions:

    alone i es := es without the stretches of code of sessions other than i

Session `i` shows the same in both, and is in the same place, until it is overtaken:
its `_disconnect` finds the slot of its VIN with a session that registered later.  Then
it stops there, and alone it would have gone on with its DISCONNECTED record.

    ¬ Overtaken i (log es) → traceOf i (log es) = traceOf i (log (alone i es))    (session_isolated)

The iterators hold up nobody: without them, and whatever their bound is, the registry,
the listeners and the sessions are where they are with them    (iterators_invisible).
-/

namespace FleetTelemetry

open Runs

variable {V : Type}

/-! ## Algorithm -/

/-- The session whose code shows it. -/
def Obs.session : Obs V → Nat
  | .responded i _ | .registered i _ | .disconnecting i _ | .received i _ | .sending i _
  | .sent i _ => i
  | .dispatched call _ | .invoked _ call => call.session

/-- Without the iterators that a record was put on. -/
def Obs.bare : Obs V → Obs V
  | .dispatched call _ => .dispatched call []
  | o => o

namespace Server

/-- What session `i` shows. -/
def traceOf (i : Nat) (log : List (Obs V)) : List (Obs V) :=
  (log.map Obs.bare).filter fun o => o.session = i

/-- The run without the other sessions. -/
def alone (i : Nat) (es : List Event) : List Event :=
  es.filter fun e => sessionOf e = none ∨ sessionOf e = some i

/-- The run without the iterators: nothing but `stop` touches them. -/
def withoutIterators (es : List Event) : List Event :=
  es.filter fun
    | .records | .onStream _ _ => false
    | _ => true

/-- Session `i` ran `_disconnect` when another session had registered last for its VIN. -/
def Overtaken (i : Nat) (log : List (Obs V)) : Prop :=
  ∃ vin j a b, log = a ++ .disconnecting i vin :: b ∧ lastRegistered vin a = some j ∧ j ≠ i

/-- Of the DISCONNECTED record. -/
def Farewell (o : Obs V) : Prop :=
  ∃ call : Call V, call.origin = .disconnect ∧
    ((∃ queues, o = .dispatched call queues) ∨ ∃ key, o = .invoked key call)

/-- The same for session `i`: the flag, the listeners, and the session itself. -/
structure Twins (i : Nat) (s t : Server V) : Prop where
  closed : s.closed = t.closed
  listeners : s.listeners = t.listeners
  session : s.session i = t.session i

/-- The same but for the iterators. -/
structure SameCore (s t : Server V) : Prop where
  closed : s.closed = t.closed
  connections : s.connections = t.connections
  listeners : s.listeners = t.listeners
  session : s.session = t.session

/-- Two steps of session `i` from twins: alike, or both into `_disconnect`. -/
inductive Paired (i : Nat) (s t : Server V) (r r' : Server V × List (Obs V)) : Prop where
  | alike (h : Twins i r.1 r'.1) (hobs : r.2.map Obs.bare = r'.2.map Obs.bare)
      (hnot : ∀ vin, .disconnecting i vin ∉ r.2)
      (hcon : s.connections = t.connections → r.1.connections = r'.1.connections)
  | leave (ss : Session V) (raised : Bool) (now : Nat) (pre : List (Obs V))
      (hs : s.session i = some ss) (hl : Live ss.phase) (hpre : pre.filterMap registryOp = [])
      (hr : r = ((s.disconnect i ss raised now).1, pre ++ (s.disconnect i ss raised now).2))
      (hr' : r' = ((t.disconnect i ss raised now).1, pre ++ (t.disconnect i ss raised now).2))

/-- Past the registry in `_disconnect`, or over. -/
def Parting : Phase V → Prop
  | .ended _ => True
  | .delivering (.disconnect _) d => d.call.origin = .disconnect
  | _ => False

/-! ## Lemmas -/

section
variable {i : Nat} {log obs obs' : List (Obs V)} {o : Obs V}

theorem bare_session (o : Obs V) : o.bare.session = o.session := by
  cases o <;> rfl

theorem traceOf_append (i : Nat) (log obs : List (Obs V)) :
    traceOf i (log ++ obs) = traceOf i log ++ traceOf i obs := by
  unfold traceOf
  rw [List.map_append, List.filter_append]

theorem traceOf_congr (h : obs.map Obs.bare = obs'.map Obs.bare) : traceOf i obs = traceOf i obs' := by
  unfold traceOf
  rw [h]

theorem traceOf_eq_nil (h : ∀ o ∈ obs, o.session ≠ i) : traceOf i obs = [] := by
  unfold traceOf
  rw [List.filter_eq_nil_iff]
  intro o ho
  obtain ⟨o', ho', rfl⟩ := List.mem_map.mp ho
  rw [bare_session, decide_eq_true_eq]
  exact h o' ho'

/-- What does not show iterators is in the trace as it is in the log. -/
theorem mem_traceOf (ho : ∀ o' : Obs V, o'.bare = o ↔ o' = o) (hi : o.session = i) :
    o ∈ traceOf i log ↔ o ∈ log := by
  unfold traceOf
  rw [List.mem_filter, List.mem_map, decide_eq_true_eq]
  constructor
  · rintro ⟨⟨o', hmem, hb⟩, -⟩
    rwa [← (ho o').mp hb]
  · exact fun h => ⟨⟨o, h, (ho o).mpr rfl⟩, hi⟩

theorem registered_mem_traceOf (vin : String) :
    .registered i vin ∈ traceOf i log ↔ .registered i vin ∈ log :=
  mem_traceOf (fun o' => by cases o' <;> simp [Obs.bare]) rfl

theorem disconnecting_mem_traceOf (vin : String) :
    .disconnecting i vin ∈ traceOf i log ↔ .disconnecting i vin ∈ log :=
  mem_traceOf (fun o' => by cases o' <;> simp [Obs.bare]) rfl

end

/-! ### Whose observations a step shows -/

theorem environment_iff (e : Event) : Environment e ↔ sessionOf e = none := by
  cases e <;> simp [Environment, sessionOf]

theorem invoked_session {call : Call V} {entries : List (Nat × Registration)} {o : Obs V}
    (h : o ∈ invoked (next call entries)) : ∃ key, o = .invoked key call := by
  cases hd : next call entries with
  | none => rw [hd] at h; cases h
  | some d =>
    rw [hd] at h
    obtain rfl := List.mem_singleton.mp h
    exact ⟨d.key, by rw [(next_eq_some call hd).1]⟩

theorem dispatch_mem {s : Server V} {i : Nat} {ss : Session V} {stage : Stage} {record : Record V}
    {o : Obs V} (h : o ∈ (s.dispatch i ss stage record).2) :
    ∃ call : Call V, call.session = i ∧ call.origin = stage.origin ∧
      ((∃ queues, o = .dispatched call queues) ∨ ∃ key, o = .invoked key call) := by
  rw [dispatch_seen, List.mem_cons] at h
  refine ⟨⟨i, stage.origin, record⟩, rfl, rfl, h.imp (fun h => ⟨_, h⟩) invoked_session⟩

theorem dispatch_obs_session {s : Server V} {i : Nat} {ss : Session V} {stage : Stage}
    {record : Record V} {o : Obs V} (h : o ∈ (s.dispatch i ss stage record).2) : o.session = i := by
  obtain ⟨call, hi, -, ⟨queues, rfl⟩ | ⟨key, rfl⟩⟩ := dispatch_mem h <;> exact hi

theorem disconnect_mem {s : Server V} {i : Nat} {ss : Session V} {raised : Bool} {now : Nat}
    {o : Obs V} (h : o ∈ (s.disconnect i ss raised now).2) :
    o = .disconnecting i ss.vin ∨ (s.holder ss.vin = some i ∧ o.session = i ∧ Farewell o) := by
  by_cases hh : s.holder ss.vin = some i
  · rw [disconnect_of_holder s i ss hh, List.mem_cons] at h
    refine h.imp id fun h => ⟨hh, dispatch_obs_session h, ?_⟩
    obtain ⟨call, -, ho, hcall⟩ := dispatch_mem h
    exact ⟨call, ho, hcall⟩
  · rw [disconnect_of_not_holder s i ss hh, List.mem_singleton] at h
    exact .inl h

variable {lib : Libraries V}

theorem Quiet.obs_session {vin : String} {i : Nat} {e : Event} {p p' : Phase V}
    {obs : List (Obs V)} (h : Quiet lib vin i e p p' obs) : ∀ o ∈ obs, o.session = i := by
  cases h <;> simp [Obs.session]

theorem Leaves.obs_session {i : Nat} {e : Event} {p : Phase V} {raised : Bool}
    {obs : List (Obs V)} (h : Leaves lib i e p raised obs) : ∀ o ∈ obs, o.session = i := by
  cases h <;> simp [Obs.session]

theorem register_mem_iff {log : List (Obs V)} {vin : String} {i : Nat} :
    .register vin i ∈ log.filterMap registryOp ↔ .registered i vin ∈ log := by
  rw [List.mem_filterMap]
  constructor
  · rintro ⟨o, ho, h⟩
    cases o <;> simp only [registryOp, reduceCtorEq, Option.some.injEq] at h
    obtain ⟨rfl, rfl⟩ := TokenRegistry.Op.register.inj h
    exact ho
  · exact fun h => ⟨_, h, rfl⟩

/-- A step shows what the session shows whose stretch of code it is. -/
theorem seen_session {s : Server V} (hsound : DeliveriesSound s) {e : Event} {o : Obs V}
    (h : o ∈ s.seen lib e) : sessionOf e = some o.session := by
  have hm := step_move lib s e
  generalize s.step lib e = s' at hm
  generalize s.seen lib e = obs at hm h
  cases hm with
  | idle => cases h
  | environment => cases h
  | opened i request ss obs hnew hphase hobs =>
    obtain ⟨r, rfl⟩ := hobs o h
    rfl
  | quiet e i ss p obs hs hq => rw [hq.sessionOf_eq, hq.obs_session o h]
  | connect i ss now hs hp =>
    rcases List.mem_cons.mp h with rfl | h
    · rfl
    · exact congrArg some (dispatch_obs_session h).symm
  | frame i ss f record hs hp hr =>
    rcases List.mem_cons.mp h with rfl | h
    · rfl
    · exact congrArg some (dispatch_obs_session h).symm
  | disconnect e i ss raised now pre hs hl =>
    rw [hl.sessionOf_eq]
    rcases List.mem_append.mp h with h | h
    · rw [hl.obs_session o h]
    · rcases disconnect_mem h with rfl | ⟨-, ho, -⟩
      · rfl
      · rw [ho]
  | resume i ss stage d hs hp =>
    obtain ⟨key, rfl⟩ := invoked_session h
    exact congrArg some (hsound i ss stage d hs hp).1.symm

/-- In the `try` block a session has registered for its VIN and has not run `_disconnect`. -/
def Serving (log : List (Obs V)) (s : Server V) : Prop :=
  ∀ i ss, s.session i = some ss → Holding ss.phase →
    .registered i ss.vin ∈ log ∧ ∀ vin, .disconnecting i vin ∉ log

theorem Quiet.was_live {vin : String} {i : Nat} {e : Event} {p p' : Phase V} {obs : List (Obs V)}
    (h : Quiet lib vin i e p p' obs) (hp : Holding p') :
    Holding p ∧ ∀ vin, .disconnecting i vin ∉ obs := by
  cases h with
  | abandoned p now hl hend =>
    rcases hp with hp | ⟨d, hp⟩
    · exact absurd hp id
    · cases hp
  | skipped | acknowledged | unsent | unparsable => exact ⟨.inl trivial, by simp⟩

theorem not_holding_disconnect {p : Phase V} {raised : Bool}
    (hp : (∃ d, p = .delivering (.disconnect raised) d) ∨ p = .ended raised) : ¬ Holding p := by
  rintro (hl | ⟨d, hd⟩) <;> rcases hp with ⟨d', rfl⟩ | rfl
  · exact hl
  · exact hl
  · cases hd
  · cases hd

/-- A dispatch in `_disconnect` does not lead back to the `try` block. -/
theorem not_holding_walk (raised : Bool) (d : Option (Delivery V)) :
    ¬ Holding (walk (.disconnect raised) d) := by
  refine @not_holding_disconnect V _ raised ?_
  rcases walk_cases (.disconnect raised) d with ⟨d', -, hw⟩ | ⟨-, ho, -⟩ | ⟨-, r, hr, hw⟩
  · exact .inl ⟨d', hw⟩
  · exact absurd rfl ho
  · obtain rfl := Stage.disconnect.inj hr
    exact .inr hw

theorem dispatch_not_disconnecting {s : Server V} {i : Nat} {ss : Session V} {stage : Stage}
    {record : Record V} {j : Nat} {vin : String} :
    .disconnecting j vin ∉ (s.dispatch i ss stage record).2 := by
  intro hm
  obtain ⟨call, -, -, ⟨queues, hc⟩ | ⟨key, hc⟩⟩ := dispatch_mem hm <;> cases hc

theorem serving_step {log : List (Obs V)} {s : Server V} (h : Serving log s)
    (hops : OpsOnce log s) (hsound : DeliveriesSound s) (e : Event) :
    Serving (log ++ s.seen lib e) (s.step lib e) := by
  intro i ss' hs' hp'
  -- a session that was serving, and a step that shows no `_disconnect` of it
  have hkeep {ss : Session V} {obs : List (Obs V)} (hs : s.session i = some ss)
      (hv : ss'.vin = ss.vin) (hp : Holding ss.phase) (hobs : ∀ vin, .disconnecting i vin ∉ obs) :
      .registered i ss'.vin ∈ log ++ obs ∧ ∀ vin, .disconnecting i vin ∉ log ++ obs := by
    obtain ⟨hreg, hnot⟩ := h i ss hs hp
    rw [hv]
    exact ⟨List.mem_append_left _ hreg, fun vin hm =>
      (List.mem_append.mp hm).elim (hnot vin) (hobs vin)⟩
  by_cases he : sessionOf e = some i
  swap
  · rw [session_of_other lib s he] at hs'
    exact hkeep hs' rfl hp' fun vin hm => he (seen_session hsound hm)
  have hself {j : Nat} {x : Session V} (hj : sessionOf e = some j)
      (hx : Function.update s.session j (some x) i = some ss') : j = i ∧ x = ss' := by
    obtain rfl : j = i := Option.some.inj (hj.symm.trans he)
    rw [Function.update_self] at hx
    exact ⟨rfl, Option.some.inj hx⟩
  have hm := step_move lib s e
  generalize s.step lib e = s₁ at hm hs'
  generalize s.seen lib e = obs at hm ⊢
  cases hm with
  | idle => exact hkeep hs' rfl hp' (by simp)
  | environment e henv =>
    rw [(environment_frame lib s henv).2] at hs'
    exact hkeep hs' rfl hp' (by simp)
  | opened j request ss obs hnew hphase hobs =>
    obtain ⟨-, rfl⟩ := hself rfl hs'
    rcases hp' with hl | ⟨d, hd⟩
    · rcases hphase with hp | ⟨r, hp⟩ <;> rw [hp] at hl <;> exact absurd hl id
    · rcases hphase with hp | ⟨r, hp⟩ <;> rw [hp] at hd <;> cases hd
  | quiet e j ss p obs hs hq =>
    obtain ⟨rfl, rfl⟩ := hself hq.sessionOf_eq hs'
    obtain ⟨hp, hobs⟩ := hq.was_live hp'
    exact hkeep hs rfl hp hobs
  | connect j ss now hs hp =>
    obtain ⟨rfl, rfl⟩ := hself rfl hs'
    refine ⟨List.mem_append_right _ List.mem_cons_self, fun vin hm => ?_⟩
    rcases List.mem_append.mp hm with hm | hm
    · refine (hops.2 j (fun ss' hss => ?_) vin).2 (release_mem_iff.mpr hm)
      obtain rfl := Option.some.inj (hs.symm.trans hss)
      exact hp
    · rcases List.mem_cons.mp hm with hm | hm
      · cases hm
      · exact dispatch_not_disconnecting hm
  | frame j ss f record hs hp hr =>
    obtain ⟨rfl, rfl⟩ := hself rfl hs'
    refine hkeep hs rfl (.inl (by rw [hp]; trivial)) fun vin hm => ?_
    rcases List.mem_cons.mp hm with hm | hm
    · cases hm
    · exact dispatch_not_disconnecting hm
  | disconnect e j ss raised now pre hs hl =>
    obtain ⟨p, hses, hp⟩ := disconnect_session s j ss raised now
    rw [hses] at hs'
    obtain ⟨rfl, rfl⟩ := hself hl.sessionOf_eq hs'
    exact absurd hp' (not_holding_disconnect hp)
  | resume j ss stage d hs hp =>
    obtain ⟨rfl, rfl⟩ := hself rfl hs'
    refine hkeep hs rfl ?_ fun vin hm => ?_
    · rw [hp]
      cases stage with
      | connect => exact .inr ⟨d, rfl⟩
      | frame => exact .inl trivial
      | disconnect raised => exact absurd hp' (not_holding_walk raised (next d.call d.rest))
    · obtain ⟨key, hc⟩ := invoked_session hm
      cases hc

theorem serving_run (lib : Libraries V) (n : Nat) (es : List Event) :
    Serving (log lib n es) (after lib n es) := by
  induction es using List.reverseRecOn with
  | nil => intro i ss hs; cases hs
  | append_singleton es e ih =>
    have hstep := @serving_step V lib _ _ ih (registryOps_once n es) (deliveriesSound_run lib n es) e
    unfold log after at hstep ⊢
    rwa [outputs_snoc, run_snoc]

/-! ### Two steps from twins -/

section
variable {i : Nat} {s t : Server V}

theorem Twins.goto (h : Twins i s t) (ss : Session V) (p : Phase V) :
    Twins i (s.goto i ss p) (t.goto i ss p) where
  closed := h.closed
  listeners := h.listeners
  session := by simp [Server.goto]

theorem Paired.goto (h : Twins i s t) (ss : Session V) (p : Phase V) {obs : List (Obs V)}
    (hobs : ∀ vin, .disconnecting i vin ∉ obs) :
    Paired i s t (s.goto i ss p, obs) (t.goto i ss p, obs) :=
  .alike (h.goto ss p) rfl hobs id

/-- What a step shows before the rest of it. -/
theorem Paired.cons {r r' : Server V × List (Obs V)} (h : Paired i s t r r') {o : Obs V}
    (ho : registryOp o = none) : Paired i s t (r.1, o :: r.2) (r'.1, o :: r'.2) := by
  cases h with
  | alike h hobs hnot hcon =>
    refine .alike h (congrArg (List.cons _) hobs) (fun vin hm => ?_) hcon
    rcases List.mem_cons.mp hm with rfl | hm
    · cases ho
    · exact hnot vin hm
  | leave ss raised now pre hs hl hpre hr hr' =>
    subst hr hr'
    exact .leave ss raised now (o :: pre) hs hl (by rw [List.filterMap_cons_none ho, hpre]) rfl rfl

theorem dispatch_twins (h : Twins i s t) (ss : Session V) (stage : Stage) (record : Record V) :
    Twins i (s.dispatch i ss stage record).1 (t.dispatch i ss stage record).1 ∧
      (s.dispatch i ss stage record).2.map Obs.bare =
        (t.dispatch i ss stage record).2.map Obs.bare := by
  refine ⟨⟨h.closed, h.listeners, ?_⟩, ?_⟩
  · rw [dispatch_session, dispatch_session, h.listeners, Function.update_self, Function.update_self]
  · rw [dispatch_seen, dispatch_seen, h.listeners]
    rfl

theorem dispatch_paired (h : Twins i s t) (ss : Session V) (stage : Stage) (record : Record V) :
    Paired i s t (s.dispatch i ss stage record) (t.dispatch i ss stage record) := by
  obtain ⟨htwins, hobs⟩ := dispatch_twins h ss stage record
  exact .alike htwins hobs (fun vin => dispatch_not_disconnecting) id

theorem connect_paired (h : Twins i s t) (ss : Session V) (now : Nat) :
    Paired i s t (s.connect i ss now) (t.connect i ss now) := by
  unfold connect
  set conn : Connection := ⟨i, ss.vin, now, ss.peer, ss.clientVersion⟩
  have htwins : Twins i ({ s with connections := s.connections.set ss.vin conn } : Server V)
      { t with connections := t.connections.set ss.vin conn } := ⟨h.closed, h.listeners, h.session⟩
  obtain ⟨h1, h2⟩ := dispatch_twins htwins ss .connect (connectivityRecord ss.vin .connected now)
  refine .alike h1 (congrArg (List.cons _) h2) (fun vin hm => ?_)
    (congrArg fun c : Dict String Connection => c.set ss.vin conn)
  rcases List.mem_cons.mp hm with hm | hm
  · cases hm
  · exact dispatch_not_disconnecting hm

/-- Twins that both hold their slot leave alike. -/
theorem disconnect_twins (h : Twins i s t) {ss : Session V} (hs : s.holder ss.vin = some i)
    (ht : t.holder ss.vin = some i) (raised : Bool) (now : Nat) :
    Twins i (s.disconnect i ss raised now).1 (t.disconnect i ss raised now).1 ∧
      (s.disconnect i ss raised now).2.map Obs.bare =
        (t.disconnect i ss raised now).2.map Obs.bare := by
  have htwins : Twins i ({ s with connections := s.connections.erase ss.vin } : Server V)
      { t with connections := t.connections.erase ss.vin } := ⟨h.closed, h.listeners, h.session⟩
  obtain ⟨h1, h2⟩ := dispatch_twins htwins ss (.disconnect raised)
    (connectivityRecord ss.vin .disconnected now)
  rw [disconnect_of_holder s i ss hs, disconnect_of_holder t i ss ht]
  exact ⟨h1, congrArg (List.cons _) h2⟩

theorem leave_paired {ss : Session V} (hs : s.session i = some ss) (hl : Live ss.phase)
    (raised : Bool) (now : Nat) :
    Paired i s t (s.disconnect i ss raised now) (t.disconnect i ss raised now) :=
  .leave ss raised now [] hs hl rfl rfl rfl

theorem handle_paired (h : Twins i s t) (request : Request) :
    Paired i s t (s.handle lib i request) (t.handle lib i request) := by
  unfold handle
  rw [← h.closed]
  split
  · exact .alike ⟨rfl, h.listeners, by simp⟩ rfl (by simp) id
  · split <;> exact .alike ⟨rfl, h.listeners, by simp⟩ rfl (by simp) id

theorem processFrame_paired (h : Twins i s t) {ss : Session V} (hs : s.session i = some ss)
    (hl : Live ss.phase) (data : Bytes) (now : Nat) :
    Paired i s t (s.processFrame lib i ss data now) (t.processFrame lib i ss data now) := by
  unfold processFrame
  split
  · exact .goto h ss _ (by simp)
  · split
    · exact leave_paired hs hl true now
    · exact .goto h ss _ (by simp)

theorem handleMessage_paired (h : Twins i s t) {ss : Session V} (hs : s.session i = some ss)
    (hl : Live ss.phase) (msg : WSMessage) (now : Nat) :
    Paired i s t (s.handleMessage lib i ss msg now) (t.handleMessage lib i ss msg now) := by
  unfold handleMessage
  split
  · exact .goto h ss _ (by simp)
  · split
    · exact .goto h ss _ (by simp)
    · exact processFrame_paired h hs hl msg.data now

theorem acked_paired (h : Twins i s t) (ss : Session V) (frame : StreamFrame) (ok : Bool) :
    Paired i s t (s.acked lib i ss frame ok) (t.acked lib i ss frame ok) := by
  unfold acked
  split
  · exact .goto h ss _ (by simp)
  · split
    · exact .goto h ss _ (by simp)
    · exact dispatch_paired h ss .frame _

theorem raises_paired (h : Twins i s t) {ss : Session V} (hs : s.session i = some ss) (now : Nat) :
    Paired i s t (s.raises i ss now) (t.raises i ss now) := by
  unfold raises
  split
  · exact .goto h ss _ (by simp)
  · exact .goto h ss _ (by simp)
  · exact .goto h ss _ (by simp)
  · next hp => exact leave_paired hs (by rw [hp]; trivial) true now
  · next hp => exact leave_paired hs (by rw [hp]; trivial) true now
  · next hp => exact leave_paired hs (by rw [hp]; trivial) true now
  · exact .alike h rfl (by simp) id

/-- **What the session does is a matter of its twins alone**, up to `_disconnect`. -/
theorem exec_paired (lib : Libraries V) (h : Twins i s t) {e : Event} (he : sessionOf e = some i) :
    Paired i s t (s.exec lib e) (t.exec lib e) := by
  have hidle : Paired i s t (s, []) (t, []) := .alike h rfl (by simp) id
  have hses := h.session
  cases e with
  | request j request =>
    obtain rfl := Option.some.inj he
    simp only [exec, ← hses]
    split
    · exact handle_paired h request
    · exact hidle
  | prepared j now =>
    obtain rfl := Option.some.inj he
    simp only [exec, ← hses]
    split
    · split
      · exact connect_paired h _ now
      · exact hidle
    · exact hidle
  | returned j =>
    obtain rfl := Option.some.inj he
    simp only [exec, ← hses]
    split
    · split
      · refine .goto h _ _ fun vin hm => ?_
        obtain ⟨key, hc⟩ := invoked_session hm
        cases hc
      · exact hidle
    · exact hidle
  | message j msg now =>
    obtain rfl := Option.some.inj he
    simp only [exec, ← hses]
    split
    · next ss hs =>
      split
      · next hp => exact (handleMessage_paired h hs (by rw [hp]; trivial) msg now).cons rfl
      · exact hidle
    · exact hidle
  | sent j ok =>
    obtain rfl := Option.some.inj he
    simp only [exec, ← hses]
    split
    · split
      · exact (acked_paired h _ _ ok).cons rfl
      · exact hidle
    · exact hidle
  | finished j now =>
    obtain rfl := Option.some.inj he
    simp only [exec, ← hses]
    split
    · next ss hs =>
      split
      · next hp => exact leave_paired hs (by rw [hp]; trivial) false now
      · exact hidle
    · exact hidle
  | raises j now =>
    obtain rfl := Option.some.inj he
    simp only [exec, ← hses]
    split
    · next ss hs => exact raises_paired h hs now
    · exact hidle
  | addListener | unsubscribe | records | onStream | stop | cleanedUp => cases he

/-- What happens outside the sessions happens to twins alike. -/
theorem environment_twins (lib : Libraries V) (h : Twins i s t) {e : Event} (he : Environment e) :
    Twins i (s.step lib e) (t.step lib e) := by
  have hsession : (s.step lib e).session i = (t.step lib e).session i := by
    show (s.exec lib e).1.session i = (t.exec lib e).1.session i
    rw [(environment_frame lib s he).2, (environment_frame lib t he).2, h.session]
  have hlisteners : (s.step lib e).listeners = (t.step lib e).listeners := by
    rw [step_listeners, step_listeners, h.listeners]
  refine ⟨?_, hlisteners, hsession⟩
  cases e with
  | cleanedUp =>
    unfold step
    simp only [exec]
    rw [← h.closed]
    split
    · rfl
    · exact h.closed
  | stop => rfl
  | addListener | unsubscribe | records | onStream => exact h.closed
  | request | prepared | returned | message | sent | finished | raises => cases he

end

/-! ### Being overtaken -/

section
variable {i : Nat} {log pre post obs : List (Obs V)} {vin : String}

theorem Farewell.ne_disconnecting {o : Obs V} (h : Farewell o) (i : Nat) (vin : String) :
    o ≠ .disconnecting i vin := by
  obtain ⟨call, -, ⟨queues, rfl⟩ | ⟨key, rfl⟩⟩ := h <;> simp

theorem Farewell.bare {o : Obs V} (h : Farewell o) : Farewell o.bare := by
  obtain ⟨call, ho, ⟨queues, rfl⟩ | ⟨key, rfl⟩⟩ := h
  · exact ⟨call, ho, .inl ⟨[], rfl⟩⟩
  · exact ⟨call, ho, .inr ⟨key, rfl⟩⟩

theorem traceOf_farewell (h : ∀ o ∈ obs, Farewell o) : ∀ o ∈ traceOf i obs, Farewell o := by
  intro o ho
  obtain ⟨o', ho', rfl⟩ := List.mem_map.mp (List.mem_of_mem_filter ho)
  exact (h o' ho').bare

theorem Overtaken.append (h : Overtaken i log) (obs : List (Obs V)) : Overtaken i (log ++ obs) := by
  obtain ⟨vin, j, a, b, rfl, hl, hj⟩ := h
  exact ⟨vin, j, a, b ++ obs, by simp, hl, hj⟩

theorem overtaken_of_append (h : Overtaken i (log ++ obs))
    (hobs : ∀ vin, .disconnecting i vin ∉ obs) : Overtaken i log := by
  obtain ⟨vin, j, a, b, heq, hl, hj⟩ := h
  rcases List.append_eq_append_iff.mp heq with ⟨a', -, ho⟩ | ⟨c, hlog, hb⟩
  · exact absurd (by rw [ho]; simp) (hobs vin)
  · cases c with
    | nil => exact absurd (by rw [← List.nil_append obs, ← hb]; simp) (hobs vin)
    | cons x c =>
      obtain ⟨rfl, rfl⟩ := List.cons.inj hb
      exact ⟨vin, j, a, c, hlog, hl, hj⟩

theorem lastRegistered_append (hpre : pre.filterMap registryOp = []) (vin : String) :
    lastRegistered vin (log ++ pre) = lastRegistered vin log := by
  unfold lastRegistered
  rw [List.filterMap_append, hpre, List.append_nil]

/-- The step that runs `_disconnect` is the one that decides. -/
theorem overtaken_leave (hlog : ∀ vin, .disconnecting i vin ∉ log)
    (hpre : pre.filterMap registryOp = []) (hpost : ∀ vin, .disconnecting i vin ∉ post) :
    Overtaken i (log ++ (pre ++ .disconnecting i vin :: post)) ↔
      ∃ j, lastRegistered vin log = some j ∧ j ≠ i := by
  have hno (w : String) : .disconnecting i w ∉ log ++ pre := by
    intro hm
    rcases List.mem_append.mp hm with hm | hm
    · exact hlog w hm
    · rw [← release_mem_iff, hpre] at hm
      cases hm
  rw [← List.append_assoc]
  constructor
  · rintro ⟨w, j, a, b, heq, hl, hj⟩
    suffices a = log ++ pre ∧ w = vin by
      obtain ⟨rfl, rfl⟩ := this
      exact ⟨j, by rwa [lastRegistered_append hpre] at hl, hj⟩
    rcases List.append_eq_append_iff.mp heq with ⟨c, ha, hc⟩ | ⟨c, hc, hb⟩
    · cases c with
      | nil => exact ⟨by rw [ha, List.append_nil], by simpa using (List.cons.inj hc).1.symm⟩
      | cons x c => exact absurd (by rw [(List.cons.inj hc).2]; simp) (hpost w)
    · cases c with
      | nil => exact ⟨by rw [hc, List.append_nil], by simpa using (List.cons.inj hb).1⟩
      | cons x c =>
        refine absurd ?_ (hno w)
        rw [hc, ← (List.cons.inj hb).1]
        simp
  · rintro ⟨j, hl, hj⟩
    exact ⟨vin, j, log ++ pre, post, rfl, by rwa [lastRegistered_append hpre], hj⟩

/-- What `_disconnect` shows: the DISCONNECTED record if the session holds its slot. -/
theorem disconnect_obs (s : Server V) (i : Nat) (ss : Session V) (raised : Bool) (now : Nat) :
    ∃ post, (s.disconnect i ss raised now).2 = .disconnecting i ss.vin :: post ∧
      (∀ o ∈ post, Farewell o ∧ o.session = i) ∧ (s.holder ss.vin = some i ↔ post ≠ []) := by
  by_cases h : s.holder ss.vin = some i
  · rw [disconnect_of_holder s i ss h]
    refine ⟨_, rfl, fun o ho => ⟨?_, dispatch_obs_session ho⟩, iff_of_true h (by simp)⟩
    obtain ⟨call, -, horigin, hcall⟩ := dispatch_mem ho
    exact ⟨call, horigin, hcall⟩
  · rw [disconnect_of_not_holder s i ss h]
    exact ⟨[], rfl, by simp, iff_of_false h (by simp)⟩

end

/-! ### Past the registry -/

section
variable {s : Server V} {i : Nat} {ss : Session V} {e : Event}

theorem ended_step (hs : s.session i = some ss) {raised : Bool} (hp : ss.phase = .ended raised)
    (he : sessionOf e = some i) : s.exec lib e = (s, []) := by
  cases e with
  | request j | prepared j | returned j | message j | sent j | finished j | raises j =>
    obtain rfl := Option.some.inj he
    simp only [exec, hs, hp, raises]
  | addListener | unsubscribe | records | onStream | stop | cleanedUp => cases he

theorem parting_walk {call : Call V} (hcall : call.origin = .disconnect) (raised : Bool)
    (entries : List (Nat × Registration)) :
    Parting (walk (.disconnect raised) (next call entries)) := by
  cases hd : next call entries with
  | none => trivial
  | some d =>
    show d.call.origin = .disconnect
    rw [(next_eq_some call hd).1, hcall]

theorem parting_step (hs : s.session i = some ss) (hp : Parting ss.phase)
    (he : sessionOf e = some i) :
    (∃ ss', (s.step lib e).session i = some ss' ∧ Parting ss'.phase) ∧
      ∀ o ∈ s.seen lib e, Farewell o := by
  have hself {j : Nat} {x : Session V} (hj : sessionOf e = some j) (hx : s.session j = some x) :
      j = i ∧ x = ss := by
    obtain rfl : j = i := Option.some.inj (hj.symm.trans he)
    exact ⟨rfl, Option.some.inj (hx.symm.trans hs)⟩
  have hm := step_move lib s e
  generalize s.step lib e = s' at hm ⊢
  generalize s.seen lib e = obs at hm ⊢
  cases hm with
  | idle => exact ⟨⟨ss, hs, hp⟩, by simp⟩
  | environment e henv => exact absurd ((environment_iff e).mp henv) (by simp [he])
  | opened j request x obs hnew =>
    obtain rfl := Option.some.inj he
    rw [hnew] at hs
    cases hs
  | quiet e j x p obs hx hq =>
    obtain ⟨rfl, rfl⟩ := hself hq.sessionOf_eq hx
    generalize x.phase = q at hq hp
    cases hq with
    | abandoned q now hl hend => exact ⟨⟨_, Function.update_self .., trivial⟩, by simp⟩
    | skipped | acknowledged | unsent | unparsable => exact absurd hp id
  | connect j x now hx hph =>
    obtain ⟨rfl, rfl⟩ := hself rfl hx
    rw [hph] at hp
    exact absurd hp id
  | frame j x f record hx hph hr =>
    obtain ⟨rfl, rfl⟩ := hself rfl hx
    rw [hph] at hp
    exact absurd hp id
  | disconnect e j x raised now pre hx hl =>
    obtain ⟨rfl, rfl⟩ := hself hl.sessionOf_eq hx
    generalize x.phase = q at hl hp
    cases hl with
    | finished | unencodable => exact absurd hp id
    | raised q now hlive => cases q with
      | receiving | acking => exact absurd hp id
      | delivering stage d => cases stage <;> first | exact absurd hp id | exact absurd hlive id
      | preparing | ended => exact absurd hlive id
  | resume j x stage d hx hph =>
    obtain ⟨rfl, rfl⟩ := hself rfl hx
    rw [hph] at hp
    cases stage with
    | disconnect raised =>
      refine ⟨⟨_, Function.update_self .., parting_walk hp raised d.rest⟩, fun o ho => ?_⟩
      obtain ⟨key, rfl⟩ := invoked_session ho
      exact ⟨d.call, hp, .inr ⟨key, rfl⟩⟩
    | connect | frame => exact absurd hp id

end

/-! ### The two runs -/

/-- The session is not overtaken, and the same in both runs. -/
structure Together (i : Nat) (log : List (Obs V)) (s : Server V) (log' : List (Obs V))
    (s' : Server V) : Prop where
  twins : Twins i s s'
  trace : traceOf i log = traceOf i log'
  ahead : ¬ Overtaken i log

/-- The session was overtaken: it is over, and alone it shows its DISCONNECTED record. -/
structure Apart (i : Nat) (log : List (Obs V)) (s : Server V) (log' : List (Obs V))
    (s' : Server V) : Prop where
  past : ∃ ss raised, s.session i = some ss ∧ ss.phase = .ended raised
  parting : ∃ ss, s'.session i = some ss ∧ Parting ss.phase
  trace : ∃ farewell, farewell ≠ [] ∧ (∀ o ∈ farewell, Farewell o) ∧
    traceOf i log' = traceOf i log ++ farewell
  overtaken : Overtaken i log

section
variable {s t : Server V} {i : Nat} {bs cs : List (Obs V)} {e : Event}

theorem seen_environment (hsound : DeliveriesSound s) (he : sessionOf e = none) :
    s.seen lib e = [] := by
  rw [List.eq_nil_iff_forall_not_mem]
  intro o ho
  rw [seen_session hsound ho] at he
  cases he

theorem traceOf_seen_other (hsound : DeliveriesSound s) (he : sessionOf e ≠ some i) :
    traceOf i (s.seen lib e) = [] :=
  traceOf_eq_nil fun o ho hi => he (by rw [seen_session hsound ho, hi])

theorem traceOf_self {obs : List (Obs V)} (h : ∀ o ∈ obs, o.session = i) :
    traceOf i obs = obs.map Obs.bare := by
  unfold traceOf
  rw [List.filter_eq_self]
  intro o ho
  obtain ⟨o', ho', rfl⟩ := List.mem_map.mp ho
  rw [bare_session, decide_eq_true_eq]
  exact h o' ho'

/-- A step of another session is no step of the run without it. -/
theorem Together.other (h : Together i bs s cs t) (hsound : DeliveriesSound s) {j : Nat}
    (he : sessionOf e = some j) (hj : j ≠ i) :
    Together i (bs ++ s.seen lib e) (s.step lib e) cs t := by
  have hne : sessionOf e ≠ some i := by
    rw [he]
    exact fun h => hj (Option.some.inj h)
  have henv : ¬ Environment e := by
    rw [environment_iff, he]
    simp
  obtain ⟨hclosed, hlisteners⟩ := sessions_frame lib s henv
  refine ⟨⟨?_, ?_, ?_⟩, ?_, fun ho => ?_⟩
  · rw [hclosed, h.twins.closed]
  · rw [hlisteners, h.twins.listeners]
  · rw [session_of_other lib s hne, h.twins.session]
  · rw [traceOf_append, traceOf_seen_other hsound hne, List.append_nil, h.trace]
  · exact h.ahead (overtaken_of_append ho fun vin hm => hne (seen_session hsound hm))

theorem Apart.other (h : Apart i bs s cs t) (hsound : DeliveriesSound s)
    (he : sessionOf e ≠ some i) : Apart i (bs ++ s.seen lib e) (s.step lib e) cs t := by
  obtain ⟨ss, raised, hs, hp⟩ := h.past
  refine ⟨⟨ss, raised, by rw [session_of_other lib s he, hs], hp⟩, h.parting, ?_,
    h.overtaken.append _⟩
  rw [traceOf_append, traceOf_seen_other hsound he, List.append_nil]
  exact h.trace

theorem Together.environment (h : Together i bs s cs t) (hs : DeliveriesSound s)
    (ht : DeliveriesSound t) (he : sessionOf e = none) :
    Together i (bs ++ s.seen lib e) (s.step lib e) (cs ++ t.seen lib e) (t.step lib e) := by
  rw [seen_environment hs he, seen_environment ht he, List.append_nil, List.append_nil]
  exact ⟨environment_twins lib h.twins ((environment_iff e).mpr he), h.trace, h.ahead⟩

theorem Apart.stay (h : Apart i bs s cs t) (ht : DeliveriesSound t) (he : sessionOf e = none) :
    Apart i bs s (cs ++ t.seen lib e) (t.step lib e) := by
  obtain ⟨ss, hss, hp⟩ := h.parting
  rw [seen_environment ht he, List.append_nil]
  exact ⟨h.past, ⟨ss, by rw [session_of_other lib t (by simp [he]), hss], hp⟩, h.trace, h.overtaken⟩

theorem Apart.own (h : Apart i bs s cs t) (he : sessionOf e = some i) :
    Apart i (bs ++ s.seen lib e) (s.step lib e) (cs ++ t.seen lib e) (t.step lib e) := by
  obtain ⟨ss, raised, hs, hp⟩ := h.past
  obtain ⟨ss', hs', hp'⟩ := h.parting
  obtain ⟨farewell, hne, hall, htrace⟩ := h.trace
  obtain ⟨hparting, hseen⟩ := @parting_step V lib _ _ _ _ hs' hp' he
  have hexec : s.exec lib e = (s, []) := ended_step hs hp he
  have hstay : s.step lib e = s := congrArg Prod.fst hexec
  have hnil : s.seen lib e = [] := congrArg Prod.snd hexec
  rw [hstay, hnil, List.append_nil]
  refine ⟨h.past, hparting, ⟨farewell ++ traceOf i (t.seen lib e), by simp [hne], ?_, ?_⟩, h.overtaken⟩
  · intro o ho
    exact (List.mem_append.mp ho).elim (hall o) (traceOf_farewell hseen o)
  · rw [traceOf_append, htrace, List.append_assoc]

/-- A session that is served alone has its slot: nobody else can have taken it. -/
theorem Together.holder (h : Together i bs s cs t) {vin : String}
    (ht : t.holder vin = some i ↔ lastRegistered vin cs = some i ∧ .disconnecting i vin ∉ cs)
    (honly : ∀ j, lastRegistered vin cs = some j → j = i) (hreg : .registered i vin ∈ bs)
    (hnot : .disconnecting i vin ∉ bs) : t.holder vin = some i := by
  have hreg' : .registered i vin ∈ cs := by
    rw [← registered_mem_traceOf, ← h.trace, registered_mem_traceOf]
    exact hreg
  have hlast : (lastRegistered vin cs).isSome :=
    TokenRegistry.latest_isSome (register_mem_iff.mpr hreg')
  obtain ⟨j, hj⟩ := Option.isSome_iff_exists.mp hlast
  refine ht.mpr ⟨by rw [hj, honly j hj], ?_⟩
  rw [← disconnecting_mem_traceOf, ← h.trace, disconnecting_mem_traceOf]
  exact hnot

/-- A session that gets to `_disconnect` finds its slot, or was overtaken. -/
theorem Together.own (h : Together i bs s cs t) (hserving : Serving bs s)
    (hs : ∀ vin, s.holder vin = some i ↔ lastRegistered vin bs = some i ∧ .disconnecting i vin ∉ bs)
    (ht : ∀ vin, t.holder vin = some i ↔ lastRegistered vin cs = some i ∧ .disconnecting i vin ∉ cs)
    (honly : ∀ vin j, lastRegistered vin cs = some j → j = i) (he : sessionOf e = some i) :
    Together i (bs ++ s.seen lib e) (s.step lib e) (cs ++ t.seen lib e) (t.step lib e) ∨
      Apart i (bs ++ s.seen lib e) (s.step lib e) (cs ++ t.seen lib e) (t.step lib e) := by
  unfold seen step
  cases exec_paired lib h.twins he with
  | alike htwins hobs hnot hcon =>
    refine .inl ⟨htwins, ?_, fun ho => h.ahead (overtaken_of_append ho hnot)⟩
    rw [traceOf_append, traceOf_append, h.trace, traceOf_congr hobs]
  | leave ss raised now pre hss hl hpre hr hr' =>
    obtain ⟨hreg, hnot⟩ := hserving i ss hss (.inl hl)
    have hlast : ∃ j, lastRegistered ss.vin bs = some j :=
      Option.isSome_iff_exists.mp (TokenRegistry.latest_isSome (register_mem_iff.mpr hreg))
    have hholder : t.holder ss.vin = some i :=
      h.holder (ht ss.vin) (honly ss.vin) hreg (hnot ss.vin)
    obtain ⟨post, hpost, hfare, hkeeps⟩ := disconnect_obs s i ss raised now
    obtain ⟨post', hpost', hfare', hkeeps'⟩ := disconnect_obs t i ss raised now
    have hseen : (s.exec lib e).2 = pre ++ .disconnecting i ss.vin :: post := by rw [hr, hpost]
    have hseen' : (t.exec lib e).2 = pre ++ .disconnecting i ss.vin :: post' := by rw [hr', hpost']
    have hovertaken : Overtaken i (bs ++ (s.exec lib e).2) ↔
        ∃ j, lastRegistered ss.vin bs = some j ∧ j ≠ i := by
      rw [hseen]
      exact overtaken_leave hnot hpre fun vin hm => (hfare _ hm).1.ne_disconnecting i vin rfl
    by_cases hh : s.holder ss.vin = some i
    · left
      obtain ⟨htwins, hobs⟩ := disconnect_twins h.twins hh hholder raised now
      refine ⟨by rw [hr, hr']; exact htwins, ?_, ?_⟩
      · have hmap : (s.exec lib e).2.map Obs.bare = (t.exec lib e).2.map Obs.bare := by
          rw [hr, hr', List.map_append, List.map_append, hobs]
        rw [traceOf_append, traceOf_append, h.trace, traceOf_congr hmap]
      · rw [hovertaken, ((hs ss.vin).mp hh).1]
        rintro ⟨j, hj, hne⟩
        exact hne (Option.some.inj hj).symm
    · right
      obtain ⟨j, hj⟩ := hlast
      refine ⟨?_, ?_, ?_, hovertaken.mpr ⟨j, hj, ?_⟩⟩
      · rw [hr, disconnect_of_not_holder s i ss hh]
        exact ⟨_, raised, Function.update_self .., rfl⟩
      · rw [hr', disconnect_of_holder t i ss hholder]
        exact ⟨_, Function.update_self .., parting_walk (by rfl) raised _⟩
      · have hnil : post = [] := by
          by_contra hne
          exact hh (hkeeps.mpr hne)
        refine ⟨traceOf i post', ?_, traceOf_farewell fun o ho => (hfare' o ho).1, ?_⟩
        · rw [traceOf_self fun o ho => (hfare' o ho).2]
          exact fun hm => hkeeps'.mp hholder (List.map_eq_nil_iff.mp hm)
        · have hsplit : pre ++ .disconnecting i ss.vin :: post' =
              pre ++ [.disconnecting i ss.vin] ++ post' := by simp
          rw [hseen, hseen', hnil, hsplit, ← List.append_assoc, traceOf_append, traceOf_append,
            traceOf_append i bs, h.trace]
      · rintro rfl
        exact hh ((hs ss.vin).mpr ⟨hj, hnot ss.vin⟩)

end

theorem alone_snoc (i : Nat) (es : List Event) (e : Event) :
    alone i (es ++ [e]) =
      alone i es ++ if sessionOf e = none ∨ sessionOf e = some i then [e] else [] := by
  unfold alone
  rw [List.filter_append]
  refine congrArg _ ?_
  by_cases h : sessionOf e = none ∨ sessionOf e = some i
  · rw [if_pos h]
    exact List.filter_cons_of_pos (decide_eq_true h)
  · rw [if_neg h]
    exact List.filter_cons_of_neg (by simpa using h)

theorem after_snoc (lib : Libraries V) (n : Nat) (es : List Event) (e : Event) :
    after lib n (es ++ [e]) = (after lib n es).step lib e := run_snoc ..

theorem log_snoc (lib : Libraries V) (n : Nat) (es : List Event) (e : Event) :
    log lib n (es ++ [e]) = log lib n es ++ (after lib n es).seen lib e := outputs_snoc ..

/-- What is seen of a run shows sessions that have events in it. -/
theorem log_session (lib : Libraries V) (n : Nat) (es : List Event) :
    ∀ o ∈ log lib n es, ∃ e ∈ es, sessionOf e = some o.session := by
  induction es using List.reverseRecOn with
  | nil => intro o ho; cases ho
  | append_singleton es e ih =>
    intro o ho
    rw [log_snoc] at ho
    rcases List.mem_append.mp ho with ho | ho
    · obtain ⟨e', he', hs⟩ := ih o ho
      exact ⟨e', List.mem_append_left _ he', hs⟩
    · exact ⟨e, by simp, seen_session (deliveriesSound_run lib n es) ho⟩

theorem lastRegistered_alone (lib : Libraries V) (n : Nat) (es : List Event) (i : Nat)
    {vin : String} {j : Nat} (h : lastRegistered vin (log lib n (alone i es)) = some j) : j = i := by
  have hreg : .registered j vin ∈ log lib n (alone i es) :=
    register_mem_iff.mp (TokenRegistry.latest_mem h)
  obtain ⟨e, he, hs⟩ := log_session lib n _ _ hreg
  rcases of_decide_eq_true (List.mem_filter.mp he).2 with hnone | hsome
  · rw [hs] at hnone
    cases hnone
  · exact Option.some.inj (hs.symm.trans hsome)

/-- One step of both runs. -/
theorem together_or_apart (lib : Libraries V) (n : Nat) (es : List Event) (i : Nat) :
    Together i (log lib n es) (after lib n es) (log lib n (alone i es)) (after lib n (alone i es)) ∨
      Apart i (log lib n es) (after lib n es) (log lib n (alone i es))
        (after lib n (alone i es)) := by
  induction es using List.reverseRecOn with
  | nil =>
    refine .inl ⟨⟨rfl, rfl, rfl⟩, rfl, ?_⟩
    rintro ⟨vin, j, a, b, h, -⟩
    cases a <;> cases h
  | append_singleton es e ih =>
    have hsound := deliveriesSound_run lib n es
    have hsound' := deliveriesSound_run lib n (alone i es)
    rw [alone_snoc, log_snoc, after_snoc]
    cases he : sessionOf e with
    | none =>
      rw [if_pos (.inl rfl), log_snoc, after_snoc]
      rcases ih with h | h
      · exact .inl (h.environment hsound hsound' he)
      · exact .inr ((h.other hsound (by simp [he])).stay hsound' he)
    | some j =>
      by_cases hj : j = i
      · subst hj
        rw [if_pos (.inr rfl), log_snoc, after_snoc]
        rcases ih with h | h
        · exact h.own (serving_run lib n es) (fun vin => holder_eq_some_iff n es vin j)
            (fun vin => holder_eq_some_iff n _ vin j) (fun _ _ => lastRegistered_alone lib n es j) he
        · exact .inr (h.own he)
      · rw [if_neg (by simp [hj]), List.append_nil]
        rcases ih with h | h
        · exact .inl (h.other hsound he hj)
        · exact .inr (h.other hsound (by simp [he, hj]))

/-! ### Without the iterators -/

section
variable {s t : Server V} {e : Event}

theorem SameCore.twins (h : SameCore s t) (i : Nat) : Twins i s t :=
  ⟨h.closed, h.listeners, congrFun h.session i⟩

theorem SameCore.holder (h : SameCore s t) (vin : String) : s.holder vin = t.holder vin := by
  unfold Server.holder
  rw [h.connections]

/-- A step of the iterators is none of the others. -/
theorem SameCore.iterator (lib : Libraries V) (h : SameCore s t) (he : withoutIterators [e] = []) :
    SameCore (s.step lib e) t ∧ s.seen lib e = [] := by
  cases e with
  | records | onStream => exact ⟨⟨h.closed, h.connections, h.listeners, h.session⟩, rfl⟩
  | _ => cases he

theorem SameCore.environment (h : SameCore s t) (he : Environment e) :
    SameCore (s.step lib e) (t.step lib e) := by
  obtain ⟨hcon, hses⟩ := environment_frame lib s he
  obtain ⟨hcon', hses'⟩ := environment_frame lib t he
  have htwins := environment_twins lib (h.twins 0) he
  exact ⟨htwins.closed, hcon.trans (h.connections.trans hcon'.symm), htwins.listeners,
    hses.trans (h.session.trans hses'.symm)⟩

theorem SameCore.own (lib : Libraries V) (h : SameCore s t) {i : Nat} (he : sessionOf e = some i) :
    SameCore (s.step lib e) (t.step lib e) ∧
      (s.seen lib e).map Obs.bare = (t.seen lib e).map Obs.bare := by
  -- the session whose step it is, and the others
  have hsession (hi : (s.step lib e).session i = (t.step lib e).session i) :
      (s.step lib e).session = (t.step lib e).session := by
    funext j
    by_cases hj : j = i
    · rw [hj, hi]
    · have hne : sessionOf e ≠ some j := by
        rw [he]
        exact fun h => hj (Option.some.inj h).symm
      rw [session_of_other lib s hne, session_of_other lib t hne, h.session]
  cases exec_paired lib (h.twins i) he with
  | alike htwins hobs hnot hcon =>
    exact ⟨⟨htwins.closed, hcon h.connections, htwins.listeners, hsession htwins.session⟩, hobs⟩
  | leave ss raised now pre hs hl hpre hr hr' =>
    have hleave : Twins i (s.exec lib e).1 (t.exec lib e).1 ∧
        (s.exec lib e).1.connections = (t.exec lib e).1.connections ∧
        (s.exec lib e).2.map Obs.bare = (t.exec lib e).2.map Obs.bare := by
      rw [hr, hr']
      by_cases hh : s.holder ss.vin = some i
      · have hh' : t.holder ss.vin = some i := by rw [← h.holder, hh]
        obtain ⟨htwins, hobs⟩ := disconnect_twins (h.twins i) hh hh' raised now
        refine ⟨htwins, ?_, by rw [List.map_append, List.map_append, hobs]⟩
        rw [disconnect_of_holder s i ss hh, disconnect_of_holder t i ss hh']
        exact congrArg (fun c : Dict String Connection => c.erase ss.vin) h.connections
      · have hh' : t.holder ss.vin ≠ some i := by rw [← h.holder]; exact hh
        rw [disconnect_of_not_holder s i ss hh, disconnect_of_not_holder t i ss hh']
        exact ⟨(h.twins i).goto ss _, h.connections, rfl⟩
    obtain ⟨htwins, hcon, hobs⟩ := hleave
    exact ⟨⟨htwins.closed, hcon, htwins.listeners, hsession htwins.session⟩, hobs⟩

end

/-! ## Top theorems (proved from the lemmas above) -/

/-- **Isolation of sessions.**  A session that is not overtaken shows in every run what it shows
without the other sessions, and is where it is without them; one that was overtaken shows the
same up to its `_disconnect` and is over, where alone it goes on with its DISCONNECTED record. -/
theorem session_isolated (lib : Libraries V) (n : Nat) (es : List Event) (i : Nat) :
    (¬ Overtaken i (log lib n es) →
      traceOf i (log lib n es) = traceOf i (log lib n (alone i es)) ∧
        (after lib n es).session i = (after lib n (alone i es)).session i) ∧
    (Overtaken i (log lib n es) →
      (∃ ss raised, (after lib n es).session i = some ss ∧ ss.phase = .ended raised) ∧
        ∃ farewell, farewell ≠ [] ∧ (∀ o ∈ farewell, Farewell o) ∧
          traceOf i (log lib n (alone i es)) = traceOf i (log lib n es) ++ farewell) := by
  rcases together_or_apart lib n es i with h | h
  · exact ⟨fun _ => ⟨h.trace, h.twins.session⟩, fun ho => absurd ho h.ahead⟩
  · exact ⟨fun ho => absurd h.overtaken ho, fun _ => ⟨h.past, h.trace⟩⟩

/-- **No iterator holds up the rest.**  Without the `records()` calls and all that is done with
their streams, and with any other bound of their queues, the server registers, dispatches, invokes
and sends the same in the same order, and is where it is with them. -/
theorem iterators_invisible (lib : Libraries V) (n m : Nat) (es : List Event) :
    SameCore (after lib n es) (after lib m (withoutIterators es)) ∧
      (log lib n es).map Obs.bare = (log lib m (withoutIterators es)).map Obs.bare := by
  induction es using List.reverseRecOn with
  | nil => exact ⟨⟨rfl, rfl, rfl, rfl⟩, rfl⟩
  | append_singleton es e ih =>
    obtain ⟨hcore, hlog⟩ := ih
    have hsplit : withoutIterators (es ++ [e]) = withoutIterators es ++ withoutIterators [e] :=
      List.filter_append ..
    rw [hsplit, log_snoc, after_snoc, List.map_append]
    by_cases hiter : withoutIterators [e] = []
    · obtain ⟨hcore', hseen⟩ := hcore.iterator lib hiter
      rw [hiter, List.append_nil, hseen, List.map_nil, List.append_nil]
      exact ⟨hcore', hlog⟩
    · have hkeep : withoutIterators [e] = [e] := by
        cases e <;> first | rfl | exact absurd rfl hiter
      rw [hkeep, log_snoc, after_snoc, List.map_append, hlog]
      cases he : sessionOf e with
      | none =>
        rw [seen_environment (deliveriesSound_run lib n es) he,
          seen_environment (deliveriesSound_run lib m _) he]
        exact ⟨hcore.environment ((environment_iff e).mpr he), rfl⟩
      | some i =>
        obtain ⟨hcore', hobs⟩ := hcore.own lib he
        exact ⟨hcore', by rw [hobs]⟩

end Server

end FleetTelemetry
