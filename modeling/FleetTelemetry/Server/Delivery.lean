import FleetTelemetry.Server.Frames

/-!
# Delivery to listeners

A dispatch walks a snapshot of the registrations; what a listener has received of a
session, with the record on its way to it, is what the session has dispatched that
the listener wants:

    received ++ s'.pending = s.pending ++ asked     (ledger_step)

where `asked` is what the session has dispatched in the step that the listener wants
(`conservation_step`).  No step of another session touches either side
(`listener_receives_session`).
-/

namespace FleetTelemetry

open Runs

namespace Server

variable {V : Type} (lib : Libraries V)

/-! ## Algorithm -/

/-- The filter of the registration accepts the record of the call. -/
def wants (reg : Registration) (call : Call V) : Bool :=
  reg.matchesRecord call.record call.record.fields.keys

/-- The call, when it is one of session `i` and invokes the listener `key`. -/
def receivedBy (key i : Nat) : Obs V → Option (Call V)
  | .invoked k call => if k = key ∧ call.session = i then some call else none
  | _ => none

/-- The call, when session `i` made it. -/
def dispatchedBy (i : Nat) : Obs V → Option (Call V)
  | .dispatched call _ => if call.session = i then some call else none
  | _ => none

/-- The call, when one of the registrations it still has to pass is that of `key`. -/
def awaits (key : Nat) (call : Call V) (entries : List (Nat × Registration)) : List (Call V) :=
  if key ∈ matching call.record call.record.fields.keys entries then [call] else []

/-- The call on its way to the listener `key`. -/
def pendingFor (key : Nat) : Phase V → List (Call V)
  | .delivering _ d => awaits key d.call d.rest
  | _ => []

/-- The call of session `i` on its way to the listener `key`. -/
def pending (s : Server V) (key i : Nat) : List (Call V) :=
  match s.session i with
  | none => []
  | some ss => pendingFor key ss.phase

/-- A session delivers its own calls, each to a listener at most once. -/
def DeliveriesSound (s : Server V) : Prop :=
  ∀ i ss stage d, s.session i = some ss → ss.phase = .delivering stage d →
    d.call.session = i ∧ (d.rest.map Prod.fst).Nodup

/-- The event is an exception in session `i`. -/
def strikes (i : Nat) : Event → Bool
  | .raises j _ => j = i
  | _ => false

/-- From `s` to `s'` the listener `key` gets of session `i` what it carried over and what it was
asked to take: some of what the session dispatched, and what it wants if it is registered. -/
def Ledger (key i : Nat) (carried : List (Call V)) (s s' : Server V) (obs : List (Obs V)) : Prop :=
  ∃ asked : List (Call V), asked.Sublist (obs.filterMap (dispatchedBy i)) ∧
    (∀ reg, s.listeners.registrations.get key = some reg →
      asked = (obs.filterMap (dispatchedBy i)).filter (wants reg)) ∧
    obs.filterMap (receivedBy key i) ++ s'.pending key i = carried ++ asked

/-- What session `i` dispatches for the listener `key` from `s` to `s'` is received there, or
on its way. -/
def Conserves (key i : Nat) (reg : Registration) (s s' : Server V) (obs : List (Obs V)) : Prop :=
  obs.filterMap (receivedBy key i) ++ s'.pending key i =
    s.pending key i ++ (obs.filterMap (dispatchedBy i)).filter (wants reg)

/-! ## Lemmas -/

variable {lib}

section
variable (call : Call V) {entries : List (Nat × Registration)}

theorem next_eq_none (h : next call entries = none) :
    matching call.record call.record.fields.keys entries = [] := by
  unfold next at h
  exact matching_of_next_none (Option.map_eq_none_iff.mp h)

theorem next_eq_some {d : Delivery V} (h : next call entries = some d) :
    d.call = call ∧ matching call.record call.record.fields.keys entries =
      d.key :: matching call.record call.record.fields.keys d.rest := by
  unfold next at h
  obtain ⟨⟨key, rest⟩, hn, rfl⟩ := Option.map_eq_some_iff.mp h
  exact ⟨rfl, matching_of_next hn⟩

theorem next_rest {d : Delivery V} (h : next call entries = some d) : d.rest <:+ entries := by
  unfold next at h
  obtain ⟨⟨key, rest⟩, hn, rfl⟩ := Option.map_eq_some_iff.mp h
  exact suffix_of_next hn

/-- Going on with a dispatch reaches the listener, or keeps the call on its way to it. -/
theorem next_awaits (hnd : (entries.map Prod.fst).Nodup) (stage : Stage) (key : Nat) :
    (invoked (next call entries)).filterMap (receivedBy key call.session) ++
      pendingFor key (walk stage (next call entries)) = awaits key call entries := by
  unfold awaits
  cases hd : next call entries with
  | none =>
    rw [next_eq_none call hd]
    cases stage <;> rfl
  | some d =>
    obtain ⟨hcall, hm⟩ := next_eq_some call hd
    have hnd' : (matching call.record call.record.fields.keys entries).Nodup :=
      hnd.sublist (List.filter_sublist.map _)
    rw [hm] at hnd' ⊢
    show (invoked (some d)).filterMap _ ++ awaits key d.call d.rest = _
    unfold awaits
    rw [hcall]
    by_cases hk : d.key = key
    · subst hk
      rw [if_neg (List.nodup_cons.mp hnd').1, if_pos List.mem_cons_self]
      simp [invoked, receivedBy, hcall]
    · have hk' : key ≠ d.key := fun h => hk h.symm
      simp [invoked, receivedBy, hk, hk']

theorem invoked_other (d : Option (Delivery V)) {i : Nat} (key : Nat)
    (h : ∀ d', d = some d' → d'.call.session ≠ i) :
    (invoked d).filterMap (receivedBy key i) = [] := by
  cases d with
  | none => rfl
  | some d' => simp [invoked, receivedBy, h d' rfl]

end

/-- A dispatch of session `j` that goes on, the registrations before it. -/
theorem DeliveriesSound.deliver {s s' : Server V} (h : DeliveriesSound s) {j : Nat} {ss : Session V}
    {stage : Stage} {call : Call V} {entries : List (Nat × Registration)}
    (hs : s'.session = Function.update s.session j
      (some { ss with phase := walk stage (next call entries) }))
    (hj : call.session = j) (hnd : (entries.map Prod.fst).Nodup) : DeliveriesSound s' := by
  intro i ss' stage' d hi hp
  rw [hs, Function.update_apply] at hi
  split at hi
  · next hij =>
    obtain rfl := Option.some.inj hi
    have hd : next call entries = some d := eq_of_walk hp
    refine ⟨?_, hnd.sublist ((next_rest call hd).sublist.map _)⟩
    rw [(next_eq_some call hd).1, hj, hij]
  · exact h i ss' stage' d hi hp

theorem DeliveriesSound.move {s s' : Server V} (h : DeliveriesSound s) {j : Nat} {ss : Session V}
    (hs : s'.session = Function.update s.session j (some ss))
    (hp : ∀ stage d, ss.phase ≠ .delivering stage d) : DeliveriesSound s' := by
  intro i ss' stage d hi hd
  rw [hs, Function.update_apply] at hi
  split at hi
  · obtain rfl := Option.some.inj hi
    exact absurd hd (hp stage d)
  · exact h i ss' stage d hi hd

theorem Quiet.not_delivering {vin : String} {i : Nat} {e : Event} {p p' : Phase V}
    {obs : List (Obs V)} (h : Quiet lib vin i e p p' obs) (stage : Stage) (d : Delivery V) :
    p' ≠ .delivering stage d := by
  cases h <;> nofun

theorem deliveriesSound_step (lib : Libraries V) {s : Server V} (h : DeliveriesSound s)
    (e : Event) : DeliveriesSound (s.step lib e) := by
  have hm := step_move lib s e
  generalize s.step lib e = s' at hm ⊢
  generalize s.seen lib e = obs at hm
  cases hm with
  | idle => exact h
  | environment e he =>
    intro i ss stage d hi
    rw [(environment_frame lib s he).2] at hi
    exact h i ss stage d hi
  | opened j request ss obs hnew hphase hobs =>
    refine h.move rfl fun stage d => ?_
    rcases hphase with hp | ⟨r, hp⟩ <;> rw [hp] <;> nofun
  | quiet e j ss p obs hs hq => exact h.move rfl hq.not_delivering
  | connect j ss now hs hp => exact h.deliver rfl rfl s.listeners.registrations.nodup
  | frame j ss f record hs hp hr => exact h.deliver rfl rfl s.listeners.registrations.nodup
  | disconnect e j ss raised now pre hs hl =>
    by_cases hj : s.holder ss.vin = some j
    · rw [disconnect_of_holder s j ss hj]
      exact h.deliver rfl rfl s.listeners.registrations.nodup
    · rw [disconnect_of_not_holder s j ss hj]
      exact h.move rfl nofun
  | resume j ss stage d hs hp =>
    obtain ⟨hd, hnd⟩ := h j ss stage d hs hp
    exact h.deliver rfl hd hnd

theorem deliveriesSound_run (lib : Libraries V) (n : Nat) (es : List Event) :
    DeliveriesSound (after lib n es) :=
  Runs.invariant (step lib) (I := DeliveriesSound) (fun _ e h => deliveriesSound_step lib h e)
    (fun _ _ _ _ h => by cases h) es

theorem pending_of_session {s : Server V} {key i : Nat} {ss : Session V}
    (h : s.session i = some ss) : s.pending key i = pendingFor key ss.phase := by
  unfold pending; rw [h]

theorem pending_congr {s s' : Server V} {key i : Nat} (h : s'.session i = s.session i) :
    s'.pending key i = s.pending key i := by
  unfold pending; rw [h]

theorem pendingFor_of_not_delivering {key : Nat} {p : Phase V}
    (h : ∀ stage d, p ≠ .delivering stage d) : pendingFor key p = [] := by
  cases p with
  | delivering stage d => exact absurd rfl (h stage d)
  | _ => rfl

theorem Quiet.call_eq {vin : String} {i : Nat} {e : Event} {p p' : Phase V} {obs : List (Obs V)}
    (h : Quiet lib vin i e p p' obs) (key j : Nat) :
    obs.filterMap (receivedBy key j) = [] ∧ obs.filterMap (dispatchedBy j) = [] := by
  cases h <;> exact ⟨rfl, rfl⟩

theorem Leaves.call_eq {i : Nat} {e : Event} {p : Phase V} {raised : Bool} {obs : List (Obs V)}
    (h : Leaves lib i e p raised obs) (key j : Nat) :
    obs.filterMap (receivedBy key j) = [] ∧ obs.filterMap (dispatchedBy j) = [] := by
  cases h <;> exact ⟨rfl, rfl⟩

/-- Only a dispatch that is abandoned or left has a call pending. -/
theorem Quiet.pending_eq {vin : String} {i : Nat} {e : Event} {p p' : Phase V} {obs : List (Obs V)}
    (h : Quiet lib vin i e p p' obs) (he : ∀ now, e ≠ .raises i now) (key : Nat) :
    pendingFor key p = [] := by
  cases h with
  | abandoned p now => exact absurd rfl (he now)
  | skipped | acknowledged | unsent | unparsable => rfl

theorem Leaves.pending_eq {i : Nat} {e : Event} {p : Phase V} {raised : Bool} {obs : List (Obs V)}
    (h : Leaves lib i e p raised obs) (he : ∀ now, e ≠ .raises i now) (key : Nat) :
    pendingFor key p = [] := by
  cases h with
  | raised p now => exact absurd rfl (he now)
  | finished | unencodable => rfl

/-! ### The ledger of a listener -/

section
variable {key i j : Nat} {s s' : Server V} {obs : List (Obs V)}

theorem ledger_quiet {carried : List (Call V)} (hp : s'.pending key i = carried)
    (hr : obs.filterMap (receivedBy key i) = []) (hd : obs.filterMap (dispatchedBy i) = []) :
    Ledger key i carried s s' obs := by
  refine ⟨[], List.nil_sublist _, fun reg _ => by rw [hd]; rfl, ?_⟩
  rw [hr, hp, List.nil_append, List.append_nil]

theorem awaits_registered (call : Call V) {reg : Registration}
    (hreg : s.listeners.registrations.get key = some reg) :
    awaits key call s.listeners.registrations.entries = [call].filter (wants reg) := by
  unfold awaits
  by_cases hw : wants reg call = true
  · have hmem : key ∈ matching call.record call.record.fields.keys
        s.listeners.registrations.entries := (mem_matching _ _ _ _).mpr ⟨reg, hreg, hw⟩
    rw [if_pos hmem, List.filter_cons_of_pos hw, List.filter_nil]
  · rw [if_neg, List.filter_cons_of_neg hw, List.filter_nil]
    intro hmem
    obtain ⟨reg', hreg', hw'⟩ := (mem_matching _ _ _ _).mp hmem
    rw [hreg] at hreg'
    obtain rfl := Option.some.inj hreg'
    exact hw hw'

theorem awaits_sublist (key : Nat) (call : Call V) (entries : List (Nat × Registration)) :
    (awaits key call entries).Sublist [call] := by
  unfold awaits
  split
  · exact List.Sublist.refl _
  · exact List.nil_sublist _

/-- A dispatch carries nothing over in the session that makes it. -/
theorem ledger_dispatch (ss : Session V) (stage : Stage) (record : Record V) (pre : List (Obs V))
    (hr : pre.filterMap (receivedBy key i) = []) (hd : pre.filterMap (dispatchedBy i) = []) :
    Ledger key i (if j = i then [] else s.pending key i) s (s.dispatch j ss stage record).1
      (pre ++ (s.dispatch j ss stage record).2) := by
  set call : Call V := ⟨j, stage.origin, record⟩ with hcall
  set entries := s.listeners.registrations.entries with hentries
  have hmade : (invoked (next call entries)).filterMap (dispatchedBy i) = [] := by
    cases next call entries <;> rfl
  rw [dispatch_seen, ← hcall, ← hentries]
  by_cases hij : j = i
  · subst hij
    have hn := next_awaits call s.listeners.registrations.nodup stage key
    have hown : (pre ++ .dispatched call s.streams.queues :: invoked (next call entries)).filterMap
        (dispatchedBy j) = [call] := by
      have hmine : dispatchedBy j (.dispatched call s.streams.queues) = some call := if_pos rfl
      rw [List.filterMap_append, hd, List.filterMap_cons_some hmine, hmade]
      rfl
    refine ⟨awaits key call entries, ?_, ?_, ?_⟩
    · rw [hown]
      exact awaits_sublist key call entries
    · intro reg hreg
      rw [hown]
      exact awaits_registered call hreg
    · rw [if_pos rfl, List.nil_append, List.filterMap_append, hr, List.nil_append,
        List.filterMap_cons_none (by rfl),
        pending_of_session (by rw [dispatch_session, Function.update_self])]
      exact hn
  · refine ledger_quiet ?_ ?_ ?_
    · rw [if_neg hij]
      exact pending_congr (by rw [dispatch_session, Function.update_of_ne (Ne.symm hij)])
    · rw [List.filterMap_append, hr, List.filterMap_cons_none (by rfl), invoked_other]
      · rfl
      · intro d' hd'
        rw [(next_eq_some call hd').1]
        exact hij
    · have hother : dispatchedBy i (.dispatched call s.streams.queues) = none := if_neg hij
      rw [List.filterMap_append, hd, List.filterMap_cons_none hother, hmade]
      rfl

theorem ledger_disconnect (ss : Session V) (raised : Bool) (now : Nat) (pre : List (Obs V))
    (hr : pre.filterMap (receivedBy key i) = []) (hd : pre.filterMap (dispatchedBy i) = []) :
    Ledger key i (if j = i then [] else s.pending key i) s (s.disconnect j ss raised now).1
      (pre ++ (s.disconnect j ss raised now).2) := by
  have hr' : (pre ++ [Obs.disconnecting j ss.vin]).filterMap (receivedBy key i) = [] := by
    rw [List.filterMap_append, hr]
    rfl
  have hd' : (pre ++ [Obs.disconnecting j ss.vin]).filterMap (dispatchedBy i) = [] := by
    rw [List.filterMap_append, hd]
    rfl
  by_cases hj : s.holder ss.vin = some j
  · rw [disconnect_of_holder s j ss hj]
    have h := ledger_dispatch (j := j) (s := { s with connections := s.connections.erase ss.vin })
      ss (.disconnect raised) (connectivityRecord ss.vin .disconnected now) _ hr' hd'
    rwa [List.append_assoc] at h
  · rw [disconnect_of_not_holder s j ss hj]
    refine ledger_quiet ?_ hr' hd'
    by_cases hij : j = i
    · subst hij
      rw [if_pos rfl, pending_of_session (Function.update_self ..)]
      rfl
    · rw [if_neg hij]
      exact pending_congr (Function.update_of_ne (Ne.symm hij) ..)

end

/-- **What a listener gets in a step** in which no exception strikes the session. -/
theorem ledger_step (lib : Libraries V) {s : Server V} (hsound : DeliveriesSound s) (key : Nat)
    {i : Nat} {e : Event} (he : ∀ now, e ≠ .raises i now) :
    Ledger key i (s.pending key i) s (s.step lib e) (s.seen lib e) := by
  have hm := step_move lib s e
  generalize s.step lib e = s' at hm ⊢
  generalize s.seen lib e = obs at hm ⊢
  have hcarried {j : Nat} (h : j = i → s.pending key i = []) :
      (if j = i then [] else s.pending key i) = s.pending key i := by
    split
    · next hij => exact (h hij).symm
    · rfl
  have hother {j : Nat} {x : Option (Session V)} (hij : j ≠ i) :
      Function.update s.session j x i = s.session i := Function.update_of_ne (Ne.symm hij) ..
  cases hm with
  | idle => exact ledger_quiet rfl rfl rfl
  | environment e henv =>
    exact ledger_quiet (pending_congr (congrFun (environment_frame lib s henv).2 i)) rfl rfl
  | opened j request ss obs hnew hphase hobs =>
    refine ledger_quiet ?_ (filterMap_responded (fun _ _ => rfl) hobs)
      (filterMap_responded (fun _ _ => rfl) hobs)
    by_cases hij : j = i
    · subst hij
      rw [pending_of_session (Function.update_self ..), pendingFor_of_not_delivering]
      · unfold pending
        rw [hnew]
      · intro stage d
        rcases hphase with hp | ⟨r, hp⟩ <;> rw [hp] <;> intro h <;> cases h
    · exact pending_congr (hother hij)
  | quiet e j ss p obs hs hq =>
    obtain ⟨hr, hd⟩ := hq.call_eq key i
    refine ledger_quiet ?_ hr hd
    by_cases hij : j = i
    · subst hij
      rw [pending_of_session (Function.update_self ..), pending_of_session hs, hq.pending_eq he,
        pendingFor_of_not_delivering hq.not_delivering]
    · exact pending_congr (hother hij)
  | connect j ss now hs hp =>
    have hpend : j = i → s.pending key i = [] := by
      rintro rfl
      rw [pending_of_session hs, hp]
      rfl
    rw [← hcarried hpend]
    exact ledger_dispatch (s := { s with connections := _ }) ss .connect _ [.registered j ss.vin]
      rfl rfl
  | frame j ss f record hs hp hr =>
    have hpend : j = i → s.pending key i = [] := by
      rintro rfl
      rw [pending_of_session hs, hp]
      rfl
    rw [← hcarried hpend]
    exact ledger_dispatch ss .frame record [.sent j true] rfl rfl
  | disconnect e j ss raised now pre hs hl =>
    obtain ⟨hr, hd⟩ := hl.call_eq key i
    have hpend : j = i → s.pending key i = [] := by
      rintro rfl
      rw [pending_of_session hs, hl.pending_eq he]
    rw [← hcarried hpend]
    exact ledger_disconnect ss raised now pre hr hd
  | resume j ss stage d hs hp =>
    obtain ⟨hd, hnd⟩ := hsound j ss stage d hs hp
    have hmade : (invoked (next d.call d.rest)).filterMap (dispatchedBy i) = [] := by
      cases next d.call d.rest <;> rfl
    by_cases hij : j = i
    · subst hij
      refine ⟨[], List.nil_sublist _, fun reg _ => by rw [hmade]; rfl, ?_⟩
      rw [pending_of_session hs, hp, pending_of_session (Function.update_self ..), List.append_nil,
        ← hd]
      exact next_awaits d.call hnd stage key
    · refine ledger_quiet (pending_congr (hother hij)) ?_ hmade
      refine invoked_other _ key fun d' hd' => ?_
      rw [(next_eq_some d.call hd').1, hd]
      exact hij

/-- An exception drops the call that was on its way. -/
theorem ledger_raises (lib : Libraries V) (key i now : Nat) (s : Server V) :
    Ledger key i [] s (s.step lib (.raises i now)) (s.seen lib (.raises i now)) := by
  unfold step seen
  simp only [exec]
  cases hs : s.session i with
  | none => exact ledger_quiet (by unfold pending; rw [hs]) rfl rfl
  | some ss =>
    have hend : Ledger key i [] s (s.goto i ss (.ended true)) [] := by
      refine ledger_quiet ?_ rfl rfl
      rw [pending_of_session (Function.update_self ..)]
      rfl
    have hleave : Ledger key i [] s (s.disconnect i ss true now).1 (s.disconnect i ss true now).2 := by
      have h : Ledger key i (if i = i then [] else s.pending key i) s
          (s.disconnect i ss true now).1 (s.disconnect i ss true now).2 :=
        ledger_disconnect ss true now [] rfl rfl
      rwa [if_pos rfl] at h
    simp only [raises]
    split
    · exact hend
    · exact hend
    · exact hend
    · exact hleave
    · exact hleave
    · exact hleave
    · next raised hp => exact ledger_quiet (by rw [pending_of_session hs, hp]; rfl) rfl rfl

/-- **Conservation.**  In a step in which nothing raises, what session `i` dispatches for the
listener is received, or on its way. -/
theorem conservation_step (lib : Libraries V) {s : Server V} {e : Event} {key i : Nat}
    {reg : Registration} (hsound : DeliveriesSound s)
    (hreg : s.listeners.registrations.get key = some reg)
    (he : ∀ now, e ≠ .raises i now) :
    Conserves key i reg s (s.step lib e) (s.seen lib e) := by
  obtain ⟨asked, -, hasked, hgot⟩ := ledger_step lib hsound key he
  unfold Conserves
  rw [hgot, hasked reg hreg]

/-- Only `add_listener` and `unsubscribe` change the registrations. -/
theorem step_listeners (s : Server V) (e : Event) :
    (s.step lib e).listeners = match e with
      | .addListener callback vin topic field => s.listeners.addListener callback vin topic field
      | .unsubscribe key => s.listeners.unsubscribe key
      | _ => s.listeners := by
  by_cases henv : Environment e
  · cases e with
    | addListener | unsubscribe | records | onStream | stop => rfl
    | cleanedUp => unfold step; simp only [exec]; split <;> rfl
    | request | prepared | returned | message | sent | finished | raises => cases henv
  · rw [(sessions_frame lib s henv).2]
    cases e with
    | addListener | unsubscribe => exact absurd trivial henv
    | _ => rfl

/-- A registration stays until its own `unsubscribe`. -/
theorem registered_step {s : Server V} {e : Event} {key : Nat} {reg : Registration}
    (hreg : s.listeners.registrations.get key = some reg) (he : e ≠ .unsubscribe key) :
    (s.step lib e).listeners.registrations.get key = some reg := by
  rw [step_listeners]
  cases e with
  | addListener callback vin topic field =>
    have hlt : key < s.listeners.ids :=
      s.listeners.fresh key ((Dict.mem_keys_iff _ _).mpr (by rw [hreg]; rfl))
    show (s.listeners.registrations.set s.listeners.ids _).get key = some reg
    rw [Dict.get_set, if_neg (by omega), hreg]
  | unsubscribe k =>
    show (s.listeners.registrations.erase k).get key = some reg
    rw [Dict.get_erase, if_neg (fun h => he (by rw [h])), hreg]
  | _ => exact hreg

theorem registered_run {s : Server V} {es : List Event} {key : Nat} {reg : Registration}
    (hreg : s.listeners.registrations.get key = some reg) (hkeep : .unsubscribe key ∉ es) :
    (run (step lib) s es).listeners.registrations.get key = some reg := by
  have hc : Along (step lib) (fun _ e => e ≠ .unsubscribe key) s es := by
    rw [along_of_forall]
    rintro e he rfl
    exact hkeep he
  exact Along.invariant (step lib) _ (I := fun s => s.listeners.registrations.get key = some reg)
    (fun _ _ h he => registered_step h he) hreg hc

/-- **What a listener has received of a session, over a run** in which the listener stays
registered and nothing raises in the session. -/
theorem conservation_run (lib : Libraries V) {s : Server V} {es : List Event} {key i : Nat}
    {reg : Registration} (hsound : DeliveriesSound s)
    (hreg : s.listeners.registrations.get key = some reg)
    (hkeep : .unsubscribe key ∉ es) (hno : ∀ now, .raises i now ∉ es) :
    Conserves key i reg s (run (step lib) s es) (outputs (step lib) (seen lib) s es) := by
  induction es generalizing s with
  | nil => exact (List.append_nil _).symm
  | cons e es ih =>
    have hhead := conservation_step lib hsound hreg
      (e := e) (i := i) fun now he => hno now (he ▸ List.mem_cons_self)
    have htail := ih (deliveriesSound_step lib hsound e)
      (registered_step hreg fun he => hkeep (he ▸ List.mem_cons_self))
      (fun h => hkeep (List.mem_cons_of_mem _ h)) fun now h => hno now (List.mem_cons_of_mem _ h)
    unfold Conserves at hhead htail ⊢
    rw [outputs, List.filterMap_append, List.filterMap_append, List.filter_append, run_cons,
      List.append_assoc, htail, ← List.append_assoc, hhead, List.append_assoc]

theorem call_acts (i : Nat) (log : List (Obs V)) :
    (acts i log).filterMap Act.call = log.filterMap (dispatchedBy i) := by
  unfold acts
  rw [List.filterMap_filterMap]
  refine List.filterMap_congr fun o _ => ?_
  cases o with
  | dispatched call queues =>
    simp only [act, dispatchedBy]
    split <;> rfl
  | responded | invoked => rfl
  | registered | disconnecting | received | sending | sent =>
    simp only [act, dispatchedBy]
    split <;> rfl

/-- A session that has made two calls beside those of its frames has made its DISCONNECTED. -/
theorem calls_of_length {vin : String} {i : Nat} {own : List (Act V)} {calls frames : List (Call V)}
    (hown : own.filterMap Act.call = calls)
    (h : own = [] ∨ ∃ now closing, calls =
        ⟨i, .connect, connectivityRecord vin .connected now⟩ :: frames ++ closing ∧
      (closing = [] ∨
        ∃ now, closing = [⟨i, .disconnect, connectivityRecord vin .disconnected now⟩]))
    (hlength : calls.length = frames.length + 2) :
    ∃ now₁ now₂, calls = ⟨i, .connect, connectivityRecord vin .connected now₁⟩ ::
      frames ++ [⟨i, .disconnect, connectivityRecord vin .disconnected now₂⟩] := by
  rcases h with rfl | ⟨now₁, closing, rfl, rfl | ⟨now₂, rfl⟩⟩
  · subst hown
    cases hlength
  · rw [List.append_nil, List.length_cons] at hlength
    omega
  · exact ⟨now₁, now₂, rfl⟩

theorem pendingFor_length (key : Nat) (p : Phase V) : (pendingFor key p).length ≤ 1 := by
  cases p with
  | delivering stage d =>
    show (awaits key d.call d.rest).length ≤ 1
    unfold awaits
    split <;> simp
  | _ => exact Nat.zero_le _

/-! ## Top theorems (proved from the lemmas above) -/

/-- **A listener gets of each session what the session makes, once and in order.**  From a state in
which the listener is registered and the session has not begun: what the listener has received of
the session, with the call on its way to it, is what the session has dispatched that the listener
wants.  What the session does on its messages is one `exchange` for each of them, in order; a send
has an outcome only where there was one, and has one everywhere unless the session is in it; and
what it has dispatched is its CONNECTED, one call for each of these frames acknowledged and parsed,
and its DISCONNECTED, if it made one. -/
theorem listener_receives_session (lib : Libraries V) (n : Nat) (es₀ es : List Event) (key i : Nat)
    (reg : Registration) (ss : Session V)
    (hreg : (after lib n es₀).listeners.registrations.get key = some reg)
    (hnew : (after lib n es₀).session i = none)
    (hkeep : .unsubscribe key ∉ es) (hno : ∀ now, .raises i now ∉ es)
    (hs : (run (step lib) (after lib n es₀) es).session i = some ss) :
    let log := outputs (step lib) (seen lib) (after lib n es₀) es
    (∃ waiting : List (Call V),
      log.filterMap (receivedBy key i) ++ waiting =
        (log.filterMap (dispatchedBy i)).filter (wants reg) ∧
      waiting.length ≤ 1 ∧
      ((∀ stage d, ss.phase ≠ .delivering stage d) → waiting = [])) ∧
    ∃ X : List Exchange,
      (acts i log).filterMap Act.message = X.map Prod.fst ∧
      (acts i log).filterMap Act.outcome = X.filterMap Prod.snd ∧
      (acts i log).filter Act.onMessage = X.flatMap (exchange lib ss.vin i) ∧
      (∀ x ∈ X, x.2.isSome → (reply lib x.1).isSome) ∧
      ((∀ f, ss.phase ≠ .acking f) → ∀ x ∈ X, (reply lib x.1).isSome → x.2.isSome) ∧
      (acts i log = [] ∨ ∃ now closing, log.filterMap (dispatchedBy i) =
          ⟨i, .connect, connectivityRecord ss.vin .connected now⟩ ::
            X.filterMap (frameCall lib ss.vin i) ++ closing ∧
        (closing = [] ∨
          ∃ now, closing = [⟨i, .disconnect, connectivityRecord ss.vin .disconnected now⟩])) := by
  intro log
  have hcons := conservation_run lib (deliveriesSound_run lib n es₀) hreg hkeep hno
  unfold Conserves at hcons
  rw [pending_of_session hs, show (after lib n es₀).pending key i = [] by unfold pending; rw [hnew],
    List.nil_append] at hcons
  obtain ⟨X, hm, ho, hf, hc, hbegun, hdone, -⟩ :=
    ((scripted_run lib (after lib n es₀) es hnew hno).script hs).exchanges
  rw [call_acts] at hc
  exact ⟨⟨_, hcons, pendingFor_length key ss.phase, fun h => pendingFor_of_not_delivering h⟩,
    X, hm, ho, hf, hbegun, hdone, hc⟩

/-- A request of the vehicle whose VIN is `"W"`. -/
def otherRequest : Request := ⟨some ⟨some ⟨some [87]⟩⟩, some "192.0.2.2", none⟩

/-- Two vehicles, each suspended in a listener while the other's frame comes in. -/
def interleaved : List Event :=
  [.request 0 sampleRequest, .request 1 otherRequest, .prepared 0 5, .prepared 1 6, .returned 1,
    .returned 0, .message 1 ⟨.binary, emptyFrame⟩ 7, .message 0 ⟨.binary, emptyFrame⟩ 8,
    .sent 0 true, .sent 1 true, .returned 0, .message 0 ⟨.text, []⟩ 9, .finished 0 10, .returned 0]

theorem interleaved_received :
    let s : Server Unit := after sampleLibraries 1 [.addListener 7 .none .none .none]
    let log := outputs (step sampleLibraries) (seen sampleLibraries) s interleaved
    let X : List Exchange := [(⟨.binary, emptyFrame⟩, some true), (⟨.text, []⟩, none)]
    (log.filterMap (receivedBy 0 1)).map Call.origin = [.connect, .frame] ∧
      (log.filterMap (receivedBy 0 0)).map Call.origin = [.connect, .frame, .disconnect] ∧
      (acts 0 log).filter Act.onMessage = X.flatMap (exchange sampleLibraries "V" 0) ∧
      (X.map fun x => (frameCall sampleLibraries "V" 0 x).isSome) = [true, false] ∧
      ∃ now₁ now₂, log.filterMap (receivedBy 0 0) =
        ⟨0, .connect, connectivityRecord "V" .connected now₁⟩ ::
          X.filterMap (frameCall sampleLibraries "V" 0) ++
            [⟨0, .disconnect, connectivityRecord "V" .disconnected now₂⟩] := by
  intro s log X
  have hs : (run (step sampleLibraries) s interleaved).session 0 =
      some ⟨"V", "192.0.2.1", none, .ended false⟩ := by rfl
  obtain ⟨⟨waiting, hwait, -, hnone⟩, Y, hm, ho, hf, hbegun, hdone, hc⟩ :=
    listener_receives_session sampleLibraries 1 [.addListener 7 .none .none .none] interleaved 0 0
      ⟨7, none, none, none⟩ _ rfl rfl (by simp [interleaved]) (by simp [interleaved]) hs
  have hX : ∀ x ∈ X, Complete sampleLibraries x := by
    unfold Complete
    decide +kernel
  obtain rfl : Y = X := exchanges_determined (complete_iff.mpr ⟨hbegun, hdone nofun⟩) hX
    (hm.symm.trans rfl) (ho.symm.trans rfl)
  have hall : log.filterMap (receivedBy 0 0) = log.filterMap (dispatchedBy 0) := by
    rw [hnone nofun, List.append_nil] at hwait
    exact hwait.trans (List.filter_eq_self.mpr fun _ _ => rfl)
  refine ⟨by decide +kernel, by decide +kernel, hf, by decide +kernel, ?_⟩
  rw [hall]
  exact calls_of_length (call_acts 0 log) hc (by decide +kernel)

end Server

end FleetTelemetry
