import FleetTelemetry.Lib.TokenRegistry
import FleetTelemetry.Server.Moves

/-!
# The connection registry

The registry is a `TokenRegistry` with the sessions as tokens: `_connect` registers,
`_disconnect` releases, and the synthesized records are its announcements.

    (after lib n es).holder = run TokenRegistry.step (fun _ => none) (registryOps …)   (holder_refines)
    Once (registryOps …)                                                               (registryOps_once)
-/

namespace FleetTelemetry

open Runs

variable {V : Type}

def Record.status (record : Record V) : Option ConnectivityEvent :=
  match record with
  | ⟨_, .connectivity, _, _, message, _⟩ => some message.status
  | _ => none

namespace Server

/-- What the observation is to the registry. -/
def registryOp : Obs V → Option (TokenRegistry.Op String Nat)
  | .registered i vin => some (.register vin i)
  | .disconnecting i vin => some (.release vin i)
  | _ => none

/-- The dispatch call that was made. -/
def dispatched : Obs V → Option (Call V)
  | .dispatched call _ => some call
  | _ => none

/-- The status of a synthesized connectivity record of `vin`. -/
def connectivity (vin : String) (call : Call V) : Option ConnectivityEvent :=
  if call.origin = .frame then none else if call.record.vin = vin then call.record.status else none

/-- The session registered last for `vin`. -/
def lastRegistered (vin : String) (log : List (Obs V)) : Option Nat :=
  TokenRegistry.latest vin (log.filterMap registryOp)

/-- What a synthesized record announces. -/
def announcement (call : Call V) : Option (String × Bool) :=
  match call.origin with
  | .connect => some (call.record.vin, true)
  | .disconnect => some (call.record.vin, false)
  | .frame => none

def toEvent (up : Bool) : ConnectivityEvent := if up then .connected else .disconnected

/-- A synthesized record has the status of the place it was made at. -/
def Made (call : Call V) : Prop :=
  (call.origin = .connect → call.record.status = some .connected) ∧
    (call.origin = .disconnect → call.record.status = some .disconnected)

/-! ## Lemmas -/

variable (lib : Libraries V)

def registryOps (s : Server V) (e : Event) : List (TokenRegistry.Op String Nat) :=
  (s.seen lib e).filterMap registryOp

def announcements (s : Server V) (e : Event) : List (String × Bool) :=
  (s.seen lib e).filterMap fun o => (dispatched o).bind announcement

variable {lib}

theorem registryOp_invoked (d : Option (Delivery V)) :
    (invoked d).filterMap registryOp = [] := by
  cases d <;> rfl

theorem dispatched_invoked {β : Type} (f : Call V → Option β) (d : Option (Delivery V)) :
    ((invoked d).filterMap fun o => (dispatched o).bind f) = [] := by
  cases d <;> rfl

theorem Quiet.registryOp_eq {vin : String} {i : Nat} {e : Event} {p p' : Phase V}
    {obs : List (Obs V)} (h : Quiet lib vin i e p p' obs) : obs.filterMap registryOp = [] := by
  cases h <;> rfl

theorem Quiet.dispatched_eq {β : Type} (f : Call V → Option β) {vin : String} {i : Nat} {e : Event}
    {p p' : Phase V} {obs : List (Obs V)} (h : Quiet lib vin i e p p' obs) :
    (obs.filterMap fun o => (dispatched o).bind f) = [] := by
  cases h <;> rfl

theorem Leaves.registryOp_eq {i : Nat} {e : Event} {p : Phase V} {raised : Bool}
    {obs : List (Obs V)} (h : Leaves lib i e p raised obs) : obs.filterMap registryOp = [] := by
  cases h <;> rfl

theorem Leaves.dispatched_eq {β : Type} (f : Call V → Option β) {i : Nat} {e : Event}
    {p : Phase V} {raised : Bool} {obs : List (Obs V)} (h : Leaves lib i e p raised obs) :
    (obs.filterMap fun o => (dispatched o).bind f) = [] := by
  cases h <;> rfl

theorem filterMap_responded {β : Type} {f : Obs V → Option β} (hf : ∀ i r, f (.responded i r) = none)
    {i : Nat} {obs : List (Obs V)} (h : ∀ o ∈ obs, ∃ r, o = .responded i r) :
    obs.filterMap f = [] := by
  rw [List.filterMap_eq_nil_iff]
  intro o ho
  obtain ⟨r, rfl⟩ := h o ho
  exact hf i r

section
variable (s : Server V) (i : Nat) (ss : Session V)

theorem dispatch_registryOp (stage : Stage) (record : Record V) :
    (s.dispatch i ss stage record).2.filterMap registryOp = [] :=
  registryOp_invoked _

theorem dispatch_dispatched {β : Type} (f : Call V → Option β) (stage : Stage) (record : Record V) :
    ((s.dispatch i ss stage record).2.filterMap fun o => (dispatched o).bind f) =
      (f ⟨i, stage.origin, record⟩).toList := by
  rw [dispatch_seen, List.filterMap_cons, dispatched_invoked]
  show (match f ⟨i, stage.origin, record⟩ with | none => [] | some b => [b]) = _
  cases f ⟨i, stage.origin, record⟩ <;> rfl

/-- What `connect` does to the registry. -/
theorem connect_registry (now : Nat) :
    (s.connect i ss now).1.holder = Function.update s.holder ss.vin (some i) ∧
      (s.connect i ss now).2.filterMap registryOp = [.register ss.vin i] ∧
      ((s.connect i ss now).2.filterMap fun o => (dispatched o).bind announcement) =
        [(ss.vin, true)] := by
  refine ⟨?_, ?_, ?_⟩
  · funext v
    unfold holder connect
    simp only [dispatch_connections, Dict.get_set]
    by_cases hv : v = ss.vin <;> simp [hv]
  · exact congrArg (List.cons _) (dispatch_registryOp _ i ss _ _)
  · exact dispatch_dispatched _ i ss announcement .connect (connectivityRecord ss.vin .connected now)

theorem disconnect_of_not_holder {raised : Bool} {now : Nat} (h : s.holder ss.vin ≠ some i) :
    s.disconnect i ss raised now = (s.goto i ss (.ended raised), [.disconnecting i ss.vin]) :=
  if_pos h

theorem disconnect_of_holder {raised : Bool} {now : Nat} (h : s.holder ss.vin = some i) :
    s.disconnect i ss raised now =
      ((({ s with connections := s.connections.erase ss.vin } : Server V).dispatch i ss
          (.disconnect raised) (connectivityRecord ss.vin .disconnected now)).1,
        .disconnecting i ss.vin ::
          (({ s with connections := s.connections.erase ss.vin } : Server V).dispatch i ss
            (.disconnect raised) (connectivityRecord ss.vin .disconnected now)).2) :=
  if_neg (not_not.mpr h)

/-- What `disconnect` does to the registry: nothing, unless the session holds its slot. -/
theorem disconnect_registry (raised : Bool) (now : Nat) :
    (s.disconnect i ss raised now).1.holder = TokenRegistry.step s.holder (.release ss.vin i) ∧
      (s.disconnect i ss raised now).2.filterMap registryOp = [.release ss.vin i] ∧
      ((s.disconnect i ss raised now).2.filterMap fun o => (dispatched o).bind announcement) =
        TokenRegistry.announce s.holder (.release ss.vin i) := by
  rw [TokenRegistry.step_release, TokenRegistry.announce_release]
  by_cases h : s.holder ss.vin = some i
  · rw [disconnect_of_holder s i ss h, if_pos h, if_pos h]
    refine ⟨?_, ?_, ?_⟩
    · funext v
      unfold holder
      simp only [dispatch_connections, Dict.get_erase]
      by_cases hv : v = ss.vin <;> simp [hv]
    · exact congrArg (List.cons _) (dispatch_registryOp _ i ss _ _)
    · exact dispatch_dispatched _ i ss announcement (.disconnect raised)
        (connectivityRecord ss.vin .disconnected now)
  · rw [disconnect_of_not_holder s i ss h, if_neg h, if_neg h]
    exact ⟨rfl, rfl, rfl⟩

end

/-- A step is the registry operations it shows, and announces what the registry does. -/
theorem step_registry (s : Server V) (e : Event) :
    (s.step lib e).holder = run TokenRegistry.step s.holder (s.registryOps lib e) ∧
      s.announcements lib e =
        outputs TokenRegistry.step TokenRegistry.announce s.holder (s.registryOps lib e) := by
  have hm := step_move lib s e
  unfold announcements registryOps
  generalize s.step lib e = s' at hm ⊢
  generalize s.seen lib e = obs at hm ⊢
  have hquiet {s' : Server V} {obs : List (Obs V)} (hc : s'.connections = s.connections)
      (hr : obs.filterMap registryOp = [])
      (ha : (obs.filterMap fun o => (dispatched o).bind announcement) = []) :
      s'.holder = run TokenRegistry.step s.holder (obs.filterMap registryOp) ∧
        (obs.filterMap fun o => (dispatched o).bind announcement) =
          outputs TokenRegistry.step TokenRegistry.announce s.holder (obs.filterMap registryOp) := by
    rw [hr, ha]
    exact ⟨by unfold holder; rw [hc]; rfl, rfl⟩
  cases hm with
  | idle => exact hquiet rfl rfl rfl
  | environment e he => exact hquiet (environment_frame lib s he).1 rfl rfl
  | opened i request ss obs hnew hphase hobs =>
    exact hquiet rfl (filterMap_responded (fun _ _ => rfl) hobs)
      (filterMap_responded (fun _ _ => rfl) hobs)
  | quiet e i ss p obs h hq => exact hquiet rfl hq.registryOp_eq (hq.dispatched_eq _)
  | connect i ss now h hp =>
    obtain ⟨hh, hr, ha⟩ := connect_registry s i ss now
    rw [hh, hr, ha]
    exact ⟨rfl, rfl⟩
  | frame i ss f record h hp hr =>
    exact hquiet rfl (dispatch_registryOp s i ss .frame record)
      (dispatch_dispatched s i ss announcement .frame record)
  | disconnect e i ss raised now pre h hl =>
    obtain ⟨hh, hr, ha⟩ := disconnect_registry s i ss raised now
    rw [List.filterMap_append, List.filterMap_append, hl.registryOp_eq, hl.dispatched_eq, hh, hr, ha]
    exact ⟨rfl, by simp [outputs]⟩
  | resume i ss stage d h hp => exact hquiet rfl (registryOp_invoked _) (dispatched_invoked _ _)

/-! ### Runs -/

theorem holder_run (s : Server V) (es : List Event) :
    (run (step lib) s es).holder =
      run TokenRegistry.step s.holder ((outputs (step lib) (seen lib) s es).filterMap registryOp) := by
  rw [← outputs_filterMap]
  exact run_refines (step lib) (fun s e => (step_registry s e).1) s es

theorem announcements_run (s : Server V) (es : List Event) :
    ((outputs (step lib) (seen lib) s es).filterMap fun o => (dispatched o).bind announcement) =
      outputs TokenRegistry.step TokenRegistry.announce s.holder
        ((outputs (step lib) (seen lib) s es).filterMap registryOp) := by
  rw [← outputs_filterMap, ← outputs_filterMap]
  exact outputs_refines (step lib) (announcements lib) (fun s e => (step_registry s e).1)
    (fun s e => (step_registry s e).2) s es

theorem walk_cases (stage : Stage) (d : Option (Delivery V)) :
    (∃ d', d = some d' ∧ walk stage d = .delivering stage d') ∨
      (d = none ∧ stage.origin ≠ .disconnect ∧ walk stage d = .receiving) ∨
      (d = none ∧ ∃ raised, stage = .disconnect raised ∧ walk stage d = .ended raised) := by
  cases d with
  | some d' => exact .inl ⟨d', rfl, rfl⟩
  | none =>
    cases stage with
    | connect => exact .inr (.inl ⟨rfl, by decide, rfl⟩)
    | frame => exact .inr (.inl ⟨rfl, by decide, rfl⟩)
    | disconnect raised => exact .inr (.inr ⟨rfl, raised, rfl, rfl⟩)

/-- The delivery a session is in is the one it went on with. -/
theorem eq_of_walk {stage stage' : Stage} {d : Option (Delivery V)} {d' : Delivery V}
    (h : walk stage d = .delivering stage' d') : d = some d' := by
  rcases walk_cases stage d with ⟨d'', hd, hw⟩ | ⟨-, -, hw⟩ | ⟨-, r, -, hw⟩
  · obtain ⟨-, rfl⟩ := Phase.delivering.inj (h.symm.trans hw)
    exact hd
  · cases h.symm.trans hw
  · cases h.symm.trans hw

theorem walk_ne_preparing (stage : Stage) (d : Option (Delivery V)) :
    walk stage d ≠ .preparing := by
  rcases walk_cases stage d with ⟨d', -, h⟩ | ⟨-, -, h⟩ | ⟨-, r, -, h⟩ <;> rw [h] <;> nofun

theorem Quiet.ne_preparing {vin : String} {i : Nat} {e : Event} {p p' : Phase V}
    {obs : List (Obs V)} (h : Quiet lib vin i e p p' obs) : p' ≠ .preparing := by
  cases h <;> nofun

/-- After `disconnect` the session dispatches, or is over. -/
theorem disconnect_session (s : Server V) (i : Nat) (ss : Session V) (raised : Bool) (now : Nat) :
    ∃ p, (s.disconnect i ss raised now).1.session =
        Function.update s.session i (some { ss with phase := p }) ∧
      ((∃ d, p = .delivering (.disconnect raised) d) ∨ p = .ended raised) := by
  by_cases h : s.holder ss.vin = some i
  · rw [disconnect_of_holder s i ss h]
    refine ⟨_, rfl, ?_⟩
    rcases walk_cases (V := V) (.disconnect raised)
      (next ⟨i, .disconnect, connectivityRecord ss.vin .disconnected now⟩
        s.listeners.registrations.entries) with ⟨d', -, hw⟩ | ⟨-, ho, -⟩ | ⟨-, r, hr, hw⟩
    · exact .inl ⟨d', hw⟩
    · exact absurd rfl ho
    · obtain rfl := Stage.disconnect.inj hr
      exact .inr hw
  · rw [disconnect_of_not_holder s i ss h]
    exact ⟨_, rfl, .inr rfl⟩

/-- The session whose stretch of code an event runs. -/
def sessionOf : Event → Option Nat
  | .request i _ | .prepared i _ | .returned i | .message i _ _ | .sent i _ | .finished i _
  | .raises i _ => some i
  | _ => none

theorem Quiet.sessionOf_eq {vin : String} {i : Nat} {e : Event} {p p' : Phase V}
    {obs : List (Obs V)} (h : Quiet lib vin i e p p' obs) : sessionOf e = some i := by
  cases h <;> rfl

theorem Leaves.sessionOf_eq {i : Nat} {e : Event} {p : Phase V} {raised : Bool}
    {obs : List (Obs V)} (h : Leaves lib i e p raised obs) : sessionOf e = some i := by
  cases h <;> rfl

/-- A step of another session leaves session `i` alone. -/
theorem session_of_other (lib : Libraries V) (s : Server V) {e : Event} {i : Nat}
    (he : sessionOf e ≠ some i) : (s.step lib e).session i = s.session i := by
  have hother {j : Nat} {x : Option (Session V)} (hj : sessionOf e = some j) :
      Function.update s.session j x i = s.session i :=
    Function.update_of_ne (by rintro rfl; exact he hj) ..
  have hm := step_move lib s e
  generalize s.step lib e = s' at hm ⊢
  generalize s.seen lib e = obs at hm
  cases hm with
  | idle => rfl
  | environment e henv => exact congrFun (environment_frame lib s henv).2 i
  | quiet e j ss p obs hs hq => exact hother hq.sessionOf_eq
  | disconnect e j ss raised now pre hs hl =>
    obtain ⟨p, hses, -⟩ := disconnect_session s j ss raised now
    rw [hses]
    exact hother hl.sessionOf_eq
  | opened | connect | frame | resume => exact hother rfl

/-- The sessions leave the flag and the listeners alone. -/
theorem sessions_frame (lib : Libraries V) (s : Server V) {e : Event} (he : ¬ Environment e) :
    (s.step lib e).closed = s.closed ∧ (s.step lib e).listeners = s.listeners := by
  have hm := step_move lib s e
  generalize s.step lib e = s' at hm ⊢
  generalize s.seen lib e = obs at hm
  cases hm with
  | environment e he' => exact absurd he' he
  | disconnect e i ss raised now pre hs hl =>
    by_cases h : s.holder ss.vin = some i
    · rw [disconnect_of_holder s i ss h]
      exact ⟨rfl, rfl⟩
    · rw [disconnect_of_not_holder s i ss h]
      exact ⟨rfl, rfl⟩
  | idle | opened | quiet | connect | frame | resume => exact ⟨rfl, rfl⟩

/-- A session that has not connected has done nothing to the registry. -/
def Unconnected (s : Server V) (i : Nat) : Prop := ∀ ss, s.session i = some ss → ss.phase = .preparing

/-- After a step that gives session `i` a phase past `preparing`, only others are unconnected. -/
theorem unconnected_of_update {s s' : Server V} {i j : Nat} {ss : Session V}
    (hs : s'.session = Function.update s.session i (some ss)) (hp : ss.phase ≠ .preparing)
    (h : s'.Unconnected j) : j ≠ i ∧ s.Unconnected j := by
  have hij : j ≠ i := by
    rintro rfl
    exact hp (h ss (by rw [hs, Function.update_self]))
  exact ⟨hij, fun ss' hss => h ss' (by rw [hs, Function.update_of_ne hij, hss])⟩

theorem fresh_snoc {ops : List (TokenRegistry.Op String Nat)} {i j : Nat} (hij : j ≠ i)
    (h : TokenRegistry.Fresh j ops) (vin : String) :
    TokenRegistry.Fresh j (ops ++ [.register vin i]) ∧
      TokenRegistry.Fresh j (ops ++ [.release vin i]) := by
  constructor <;> intro k <;> simp [h k, hij]

/-- The operations so far are in order, and those of a session not yet connected to come. -/
def OpsOnce (log : List (Obs V)) (s : Server V) : Prop :=
  TokenRegistry.Once (log.filterMap registryOp) ∧
    ∀ i, s.Unconnected i → TokenRegistry.Fresh i (log.filterMap registryOp)

/-- A step without operations, after which nobody is newly unconnected. -/
theorem OpsOnce.append {log obs : List (Obs V)} {s s' : Server V} (h : OpsOnce log s)
    (hr : obs.filterMap registryOp = []) (hs : ∀ j, s'.Unconnected j → s.Unconnected j) :
    OpsOnce (log ++ obs) s' := by
  unfold OpsOnce
  rw [List.filterMap_append, hr, List.append_nil]
  exact ⟨h.1, fun j hj => h.2 j (hs j hj)⟩

theorem opsOnce_step {log : List (Obs V)} {s : Server V} (h : OpsOnce log s) (e : Event) :
    OpsOnce (log ++ s.seen lib e) (s.step lib e) := by
  have hm := step_move lib s e
  generalize s.step lib e = s' at hm ⊢
  generalize s.seen lib e = obs at hm ⊢
  cases hm with
  | idle => exact h.append rfl fun _ hj => hj
  | environment e he =>
    exact h.append rfl fun j hj ss hss => hj ss (by rw [(environment_frame lib s he).2, hss])
  | opened i request ss obs hnew hphase hobs =>
    refine h.append (filterMap_responded (fun _ _ => rfl) hobs) fun j hj ss' hss => ?_
    have hij : j ≠ i := by rintro rfl; rw [hnew] at hss; cases hss
    exact hj ss' (by rw [← hss]; exact Function.update_of_ne hij ..)
  | quiet e i ss p obs hs hq =>
    exact h.append hq.registryOp_eq fun j hj => (unconnected_of_update rfl hq.ne_preparing hj).2
  | connect i ss now hs hp =>
    have hi : s.Unconnected i := fun ss' hss => by
      rw [hs] at hss
      obtain rfl := Option.some.inj hss
      exact hp
    unfold OpsOnce
    rw [List.filterMap_append, (connect_registry s i ss now).2.1]
    refine ⟨.register _ h.1 (h.2 i hi), fun j hj => ?_⟩
    obtain ⟨hij, hj⟩ := unconnected_of_update rfl (walk_ne_preparing _ _) hj
    exact (fresh_snoc hij (h.2 j hj) _).1
  | frame i ss f record hs hp hr =>
    exact h.append (dispatch_registryOp s i ss .frame record) fun j hj =>
      (unconnected_of_update rfl (walk_ne_preparing _ _) hj).2
  | disconnect e i ss raised now pre hs hl =>
    obtain ⟨p, hses, hp⟩ := disconnect_session s i ss raised now
    have hne : p ≠ .preparing := by rcases hp with ⟨d, rfl⟩ | rfl <;> nofun
    unfold OpsOnce
    rw [List.filterMap_append, List.filterMap_append, hl.registryOp_eq, List.nil_append,
      (disconnect_registry s i ss raised now).2.1]
    refine ⟨.release _ _ h.1, fun j hj => ?_⟩
    obtain ⟨hij, hj⟩ := unconnected_of_update hses hne hj
    exact (fresh_snoc hij (h.2 j hj) _).2
  | resume i ss stage d hs hp =>
    exact h.append (registryOp_invoked _) fun j hj =>
      (unconnected_of_update rfl (walk_ne_preparing _ _) hj).2

/-- **A session connects once, and never disconnects before.** -/
theorem registryOps_once (n : Nat) (es : List Event) : OpsOnce (log lib n es) (after lib n es) :=
  trace_invariant (step lib) (seen lib) (I := OpsOnce) ⟨.nil, fun i _ k => by simp⟩
    (fun _ _ e h => opsOnce_step h e) es

/-- The one step that shows an operation of the registry is that of `connect` or `disconnect`. -/
theorem registryOp_cases {s : Server V} {e : Event} {op : TokenRegistry.Op String Nat}
    (h : op ∈ s.registryOps lib e) :
    ∃ i ss, s.session i = some ss ∧
      ((∃ now, op = .register ss.vin i ∧ s.step lib e = (s.connect i ss now).1) ∨
        ∃ raised now pre, op = .release ss.vin i ∧ Leaves lib i e ss.phase raised pre ∧
          s.step lib e = (s.disconnect i ss raised now).1 ∧
          s.seen lib e = pre ++ (s.disconnect i ss raised now).2) := by
  have hm := step_move lib s e
  unfold registryOps at h
  generalize s.step lib e = s' at hm ⊢
  generalize s.seen lib e = obs at hm h ⊢
  cases hm with
  | idle => cases h
  | environment => cases h
  | opened i request ss obs hnew hphase hobs =>
    rw [filterMap_responded (fun _ _ => rfl) hobs] at h; cases h
  | quiet e i ss p obs hs hq => rw [hq.registryOp_eq] at h; cases h
  | connect i ss now hs hp =>
    rw [(connect_registry s i ss now).2.1, List.mem_singleton] at h
    exact ⟨i, ss, hs, .inl ⟨now, h, rfl⟩⟩
  | frame i ss f record hs hp hr =>
    replace h : op ∈ (s.dispatch i ss .frame record).2.filterMap registryOp := h
    rw [dispatch_registryOp] at h
    cases h
  | disconnect e i ss raised now pre hs hl =>
    rw [List.filterMap_append, hl.registryOp_eq, (disconnect_registry s i ss raised now).2.1,
      List.nil_append, List.mem_singleton] at h
    exact ⟨i, ss, hs, .inr ⟨raised, now, pre, h, hl, rfl, rfl⟩⟩
  | resume i ss stage d hs hp => rw [registryOp_invoked] at h; cases h

theorem release_mem_iff {log : List (Obs V)} {vin : String} {i : Nat} :
    .release vin i ∈ log.filterMap registryOp ↔ .disconnecting i vin ∈ log := by
  rw [List.mem_filterMap]
  constructor
  · rintro ⟨o, ho, h⟩
    cases o <;> simp only [registryOp, reduceCtorEq, Option.some.injEq] at h
    obtain ⟨rfl, rfl⟩ := TokenRegistry.Op.release.inj h
    exact ho
  · exact fun h => ⟨_, h, rfl⟩

/-- The registry maps `vin` to the session registered last, until that session disconnects. -/
theorem holder_eq_some_iff (n : Nat) (es : List Event) (vin : String) (i : Nat) :
    (after lib n es).holder vin = some i ↔
      lastRegistered vin (log lib n es) = some i ∧ .disconnecting i vin ∉ log lib n es := by
  rw [after, holder_run, ← release_mem_iff]
  exact TokenRegistry.holder_iff (registryOps_once n es).1 vin i

end Server

end FleetTelemetry
