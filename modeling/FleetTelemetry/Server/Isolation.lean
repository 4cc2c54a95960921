import FleetTelemetry.Server.ConnectivityOrder
import FleetTelemetry.Server.Walks

/-!
# Isolation of listeners

`dispatch` catches what an invocation raises with `except Exception`.  An awaitable
that its owner cancelled raises `CancelledError` at the `await`, which is no
`Exception`: it leaves the dispatch, and the session with it.

    all matching listeners invoked ∧ the session receives again
      ↔ no matching listener hands out a cancelled awaitable          (isolated_iff)

With nothing in between the session runs `dispatchLoop` (`dispatchLoop_serves`).
-/

namespace FleetTelemetry

open Runs

variable {V : Type}

/-! ## Algorithm -/

/-- How an awaitable ends for who awaits it. -/
inductive Awaited where
  | completes
  | raises
  | cancelled
deriving DecidableEq

/-- What an invocation of a listener does; `raises` is any `Exception`. -/
inductive Outcome where
  | returnsNone
  | raises
  | awaitable (a : Awaited)
deriving DecidableEq

/-- The families of what surfaces in the `try` block of `dispatch`. -/
inductive Surfaced where
  | exception
  | cancelledError

/-- `result = registration.callback(record)` and `await result` -/
def Outcome.surfaces : Outcome → Option Surfaced
  | .returnsNone => none
  | .raises => some .exception
  | .awaitable .completes => none
  | .awaitable .raises => some .exception
  | .awaitable .cancelled => some .cancelledError

/-- `except Exception` -/
def Surfaced.caught : Surfaced → Bool
  | .exception => true
  | .cancelledError => false

/-- What `except Exception` lets go on; the rest leaves the dispatch. -/
def Outcome.handled (o : Outcome) : Bool :=
  match o.surfaces with
  | none => true
  | some raised => raised.caught

/-- The loop of `dispatch` with nothing in between: the listeners invoked, and whether it returns. -/
def dispatchLoop (outcome : Nat → Outcome) (record : Record V) :
    List (Nat × Registration) → List Nat × Bool
  | [] => ([], true)
  | (key, registration) :: rest =>
    if registration.matchesRecord record record.fields.keys then
      if (outcome key).handled then
        (key :: (dispatchLoop outcome record rest).1, (dispatchLoop outcome record rest).2)
      else ([key], false)
    else dispatchLoop outcome record rest

namespace Server

variable (lib : Libraries V)

/-- How the invocation ends for the session that awaits it. -/
def ending (i : Nat) (now : Nat) (o : Outcome) : Event :=
  if o.handled then .returned i else .raises i now

/-- Session `i` is in its `connect` or in a frame. -/
def InDispatch (i : Nat) (s : Server V) : Prop :=
  ∃ ss stage d, s.session i = some ss ∧ ss.phase = .delivering stage d ∧ stage.origin ≠ .disconnect

/-- What happens to session `i` is that the listeners of its dispatch end as `outcome` has it. -/
def Plays (outcome : Nat → Outcome) (i : Nat) (s : Server V) (e : Event) : Prop :=
  sessionOf e = some i → ∃ ss stage d now, s.session i = some ss ∧
    ss.phase = .delivering stage d ∧ stage.origin ≠ .disconnect ∧ e = ending i now (outcome d.key)

/-- The invocations session `i` makes. -/
def invocationsOf (i : Nat) (obs : List (Obs V)) : List (Invocation V) :=
  (obs.filterMap invocation).filter fun inv => inv.dispatch = i

/-- The listeners that match the record of the call. -/
def wanted (call : Call V) (s : Server V) : List Nat :=
  matching call.record call.record.fields.keys s.listeners.registrations.entries

/-- How many events are those of session `i`. -/
def turns (i : Nat) (es : List Event) : Nat := es.countP fun e => sessionOf e = some i

/-- From `s`, which shows `obs`, session `i` runs its dispatch with nothing in between, and its
listeners end as `outcome` has it: it invokes those of `loop`, and then the dispatch is over, or
what is not caught leaves it. -/
def Serves (outcome : Nat → Outcome) (now : Nat) (stage : Stage) (call : Call V)
    (loop : List Nat × Bool) (ss : Session V) (s : Server V) (obs : List (Obs V)) : Prop :=
  let i := call.session
  let es := loop.1.map fun key => ending i now (outcome key)
  (loop.2 = true →
    invocationsOf i (obs ++ outputs (step lib) (seen lib) s es) =
        loop.1.map (⟨i, ·, call.record⟩) ∧
      (run (step lib) s es).session i = some { ss with phase := walk stage none }) ∧
  (loop.2 = false → ∃ es' d, es = es' ++ [.raises i now] ∧
    invocationsOf i (obs ++ outputs (step lib) (seen lib) s es') =
        loop.1.map (⟨i, ·, call.record⟩) ∧
      (run (step lib) s es').session i = some { ss with phase := .delivering stage d })

/-! ## Lemmas -/

theorem handled_iff (o : Outcome) : o.handled = true ↔ o ≠ .awaitable .cancelled := by
  cases o with
  | awaitable a => cases a <;> simp [Outcome.handled, Outcome.surfaces, Surfaced.caught]
  | returnsNone | raises => simp [Outcome.handled, Outcome.surfaces, Surfaced.caught]

/-- The loop invokes all that match, and returns, when all outcomes are handled. -/
theorem dispatchLoop_iff (outcome : Nat → Outcome) (record : Record V)
    (entries : List (Nat × Registration)) :
    dispatchLoop outcome record entries = (matching record record.fields.keys entries, true) ↔
      ∀ key ∈ matching record record.fields.keys entries, outcome key ≠ .awaitable .cancelled := by
  induction entries with
  | nil => exact ⟨fun _ => List.forall_mem_nil _, fun _ => rfl⟩
  | cons entry entries ih =>
    obtain ⟨key, registration⟩ := entry
    unfold dispatchLoop
    by_cases hm : registration.matchesRecord record record.fields.keys
    · have hcons : matching record record.fields.keys ((key, registration) :: entries) =
          key :: matching record record.fields.keys entries := by
        unfold matching
        rw [List.filter_cons_of_pos (by exact hm), List.map_cons]
      rw [if_pos hm, hcons, List.forall_mem_cons, ← handled_iff, ← ih]
      by_cases hh : (outcome key).handled = true
      · rw [if_pos hh, Prod.mk.injEq, List.cons.injEq, Prod.ext_iff]
        simp only [hh, true_and]
      · rw [if_neg hh]
        simp [hh]
    · have hcons : matching record record.fields.keys ((key, registration) :: entries) =
          matching record record.fields.keys entries := by
        unfold matching
        rw [List.filter_cons_of_neg (by exact hm)]
      rw [if_neg hm, hcons, ih]

theorem ending_eq (i now : Nat) (o : Outcome) :
    ending i now o = if o = .awaitable .cancelled then .raises i now else .returned i := by
  have h := handled_iff o
  unfold ending
  by_cases ho : o = .awaitable .cancelled
  · rw [if_neg fun hh => h.mp hh ho, if_pos ho]
  · rw [if_pos (h.mpr ho), if_neg ho]

theorem turns_cons_self {i : Nat} {e : Event} (h : sessionOf e = some i) (es : List Event) :
    turns i (e :: es) = turns i es + 1 := by
  simp [turns, h]

theorem turns_cons_of_ne {i : Nat} {e : Event} (h : sessionOf e ≠ some i) (es : List Event) :
    turns i (e :: es) = turns i es := by
  simp [turns, h]

variable {lib}

theorem invocationsOf_foreign {s : Server V} (hsound : DeliveriesSound s) {e : Event} {i : Nat}
    (he : sessionOf e ≠ some i) : invocationsOf i (s.seen lib e) = [] := by
  unfold invocationsOf
  rw [List.filter_eq_nil_iff]
  intro inv hinv
  obtain ⟨o, ho, hoi⟩ := List.mem_filterMap.mp hinv
  cases o with
  | invoked key call =>
    obtain rfl := Option.some.inj hoi
    simpa using (step_foreign lib hsound he).2 _ ho call rfl
  | _ => cases hoi

theorem invocationsOf_append (i : Nat) (obs obs' : List (Obs V)) :
    invocationsOf i (obs ++ obs') = invocationsOf i obs ++ invocationsOf i obs' := by
  unfold invocationsOf
  rw [List.filterMap_append, List.filter_append]

theorem invocationsOf_next (call : Call V) (entries : List (Nat × Registration)) :
    invocationsOf call.session (invoked (next call entries)) =
      ((next call entries).map fun d => ⟨call.session, d.key, call.record⟩).toList := by
  cases hn : next call entries with
  | none => rfl
  | some d =>
    have hc := (next_eq_some call hn).1
    simp [invocationsOf, invoked, invocation, hc]

/-- Once it has left its dispatch, the session stays where it is. -/
theorem left_run (lib : Libraries V) {outcome : Nat → Outcome} {s : Server V} {i : Nat}
    {es : List Event} (hsound : DeliveriesSound s) (hleft : ¬ InDispatch i s)
    (hplay : Along (step lib) (Plays outcome i) s es) :
    (run (step lib) s es).session i = s.session i ∧
      invocationsOf i (outputs (step lib) (seen lib) s es) = [] := by
  induction es generalizing s with
  | nil => exact ⟨rfl, rfl⟩
  | cons e es ih =>
    obtain ⟨hhead, htail⟩ := hplay
    have he : sessionOf e ≠ some i := by
      intro he
      obtain ⟨ss, stage, d, now, hs, hp, ho, -⟩ := hhead he
      exact hleft ⟨ss, stage, d, hs, hp, ho⟩
    have hsame := (step_foreign lib hsound he).1
    have hleft' : ¬ InDispatch i (s.step lib e) := by
      rintro ⟨ss, stage, d, hs, hp, ho⟩
      exact hleft ⟨ss, stage, d, by rw [← hsame]; exact hs, hp, ho⟩
    obtain ⟨hses, hinv⟩ := ih (deliveriesSound_step lib hsound e) hleft' htail
    refine ⟨by rw [run_cons, hses, hsame], ?_⟩
    rw [outputs, invocationsOf_append, invocationsOf_foreign hsound he, hinv]
    rfl

section
variable {s : Server V} {i : Nat} {ss : Session V} {stage : Stage} {d : Delivery V}

theorem returned_step (lib : Libraries V) (hs : s.session i = some ss)
    (hp : ss.phase = .delivering stage d) :
    (s.step lib (.returned i)).session i =
        some { ss with phase := walk stage (next d.call d.rest) } ∧
      s.seen lib (.returned i) = invoked (next d.call d.rest) := by
  unfold step seen
  simp only [exec, hs, hp]
  exact ⟨Function.update_self .., trivial⟩

/-- **The loop of `dispatch` is what a session runs**, whatever the dispatch is of. -/
theorem dispatchLoop_serves (lib : Libraries V) (outcome : Nat → Outcome) (now : Nat)
    (stage : Stage) (call : Call V) (entries : List (Nat × Registration)) {s : Server V}
    {ss : Session V}
    (hs : s.session call.session = some { ss with phase := walk stage (next call entries) }) :
    Serves lib outcome now stage call (dispatchLoop outcome call.record entries) ss s
      (invoked (next call entries)) := by
  induction entries generalizing s with
  | nil => exact ⟨fun _ => ⟨rfl, hs⟩, fun hsome => by cases hsome⟩
  | cons entry entries ih =>
    obtain ⟨key, registration⟩ := entry
    by_cases hm : registration.matchesRecord call.record call.record.fields.keys
    · have hnext : next call ((key, registration) :: entries) = some ⟨call, key, entries⟩ := by
        unfold next nextListener
        rw [if_pos hm]
        rfl
      have hfirst : invocationsOf call.session (invoked (some (⟨call, key, entries⟩ : Delivery V))) =
          [⟨call.session, key, call.record⟩] := by
        simp [invocationsOf, invoked, invocation]
      rw [hnext] at hs ⊢
      unfold dispatchLoop
      rw [if_pos hm]
      by_cases hh : (outcome key).handled = true
      · -- the listener returns, and the dispatch goes on to the next
        rw [if_pos hh]
        obtain ⟨hses, hseen⟩ := returned_step lib hs rfl
        obtain ⟨hover, hleft⟩ := ih hses
        have hend : ending call.session now (outcome key) = .returned call.session := if_pos hh
        refine ⟨fun hall => ?_, fun hsome => ?_⟩
        · obtain ⟨hinv, hend'⟩ := hover hall
          rw [List.map_cons, hend]
          refine ⟨?_, hend'⟩
          rw [outputs, hseen, invocationsOf_append, hfirst, hinv]
          rfl
        · obtain ⟨es', d, hes, hinv, hend'⟩ := hleft hsome
          refine ⟨.returned call.session :: es', d, ?_, ?_, hend'⟩
          · rw [List.map_cons, hend, hes]
            rfl
          · rw [outputs, hseen, invocationsOf_append, hfirst, hinv]
            rfl
      · rw [if_neg hh]
        refine ⟨fun hall => (by cases hall), fun _ => ⟨[], ⟨call, key, entries⟩, ?_, ?_, hs⟩⟩
        · exact congrArg (· :: []) (if_neg hh)
        · rw [invocationsOf_append, hfirst]
          rfl
    · have hnext : next call ((key, registration) :: entries) = next call entries := by
        unfold next
        rw [nextListener, if_neg hm]
      have hloop : dispatchLoop outcome call.record ((key, registration) :: entries) =
          dispatchLoop outcome call.record entries := if_neg hm
      rw [hnext] at hs ⊢
      rw [hloop]
      exact ih hs

/-- What is not caught takes the session out of its `connect`, or out of its `try` block. -/
theorem raises_step (lib : Libraries V) (hs : s.session i = some ss)
    (hp : ss.phase = .delivering stage d) (ho : stage.origin ≠ .disconnect) (now : Nat) :
    ∃ p, ((s.step lib (.raises i now)).session i).map Session.phase = some p ∧
      ((∃ d, p = .delivering (.disconnect true) d) ∨ p = .ended true) := by
  have hst : s.step lib (.raises i now) = (s.raises i ss now).1 := by
    unfold step
    simp only [exec, hs]
  rw [hst]
  unfold raises
  rw [hp]
  cases stage with
  | connect => exact ⟨_, congrArg _ (Function.update_self ..), .inr rfl⟩
  | frame =>
    obtain ⟨p, hses, hcases⟩ := disconnect_session s i ss true now
    refine ⟨p, ?_, hcases⟩
    simp only [hses, Function.update_self, Option.map_some]
  | disconnect raised => exact absurd rfl ho

theorem not_inDispatch {p : Phase V} (hp : (s.session i).map Session.phase = some p)
    (h : ∀ stage d, p = .delivering stage d → stage.origin = .disconnect) : ¬ InDispatch i s := by
  rintro ⟨ss, stage, d, hs, hd, ho⟩
  rw [hs] at hp
  exact ho (h stage d ((Option.some.inj hp).symm.trans hd))

theorem not_inDispatch_receiving (hp : (s.session i).map Session.phase = some .receiving) :
    ¬ InDispatch i s := by
  refine not_inDispatch hp fun stage d h => ?_
  cases h

theorem walk_none {stage : Stage} (ho : stage.origin ≠ .disconnect) :
    walk stage (none : Option (Delivery V)) = .receiving := by
  cases stage with
  | connect | frame => rfl
  | disconnect raised => exact absurd rfl ho

/-- A session that receives goes on receiving: nothing else happens to it. -/
theorem receiving_run (lib : Libraries V) {outcome : Nat → Outcome} {es : List Event}
    (hsound : DeliveriesSound s) (hr : (s.session i).map Session.phase = some .receiving)
    (hplay : Along (step lib) (Plays outcome i) s es) :
    ((run (step lib) s es).session i).map Session.phase = some .receiving ∧
      invocationsOf i (outputs (step lib) (seen lib) s es) = [] := by
  obtain ⟨hses, hnone⟩ := left_run lib hsound (not_inDispatch_receiving hr) hplay
  exact ⟨by rw [hses, hr], hnone⟩

/-- A session that an exception took out of its dispatch does not come back. -/
theorem raised_run (lib : Libraries V) {outcome : Nat → Outcome} {es : List Event} {now : Nat}
    (hsound : DeliveriesSound s) (hs : s.session i = some ss) (hp : ss.phase = .delivering stage d)
    (ho : stage.origin ≠ .disconnect)
    (hplay : Along (step lib) (Plays outcome i) (s.step lib (.raises i now)) es) :
    let s' := run (step lib) (s.step lib (.raises i now)) es
    ¬ InDispatch i s' ∧ (s'.session i).map Session.phase ≠ some .receiving := by
  intro s'
  obtain ⟨p, hphase, hcases⟩ := raises_step lib hs hp ho now
  have hdisconnect (stage' : Stage) (d' : Delivery V) (hd : p = .delivering stage' d') :
      stage'.origin = .disconnect := by
    rcases hcases with ⟨d'', rfl⟩ | rfl
    · obtain ⟨rfl, -⟩ := Phase.delivering.inj hd
      rfl
    · cases hd
  obtain ⟨hses, -⟩ := left_run lib (deliveriesSound_step lib hsound _)
    (not_inDispatch hphase hdisconnect) hplay
  have hend : (s'.session i).map Session.phase = some p := by rw [← hphase, ← hses]
  refine ⟨not_inDispatch hend hdisconnect, fun h => ?_⟩
  rw [hend] at h
  rcases hcases with ⟨d'', rfl⟩ | rfl <;> cases h

/-- **A dispatch under way**, when its listeners end as `outcome` has it. -/
theorem inDispatch_run (lib : Libraries V) {outcome : Nat → Outcome} {es : List Event}
    (hsound : DeliveriesSound s) (hs : s.session i = some ss) (hp : ss.phase = .delivering stage d)
    (ho : stage.origin ≠ .disconnect) (hplay : Along (step lib) (Plays outcome i) s es) :
    let rest := matching d.call.record d.call.record.fields.keys d.rest
    let s' := run (step lib) s es
    (InDispatch i s' → turns i es ≤ rest.length) ∧
      (¬ InDispatch i s' →
        (invocationsOf i (outputs (step lib) (seen lib) s es) = rest.map (⟨i, ·, d.call.record⟩) ∧
            (s'.session i).map Session.phase = some .receiving ↔
          ∀ key ∈ d.key :: rest, outcome key ≠ .awaitable .cancelled)) := by
  intro rest s'
  induction es generalizing s ss d with
  | nil => exact ⟨fun _ => Nat.zero_le _, fun h => absurd ⟨ss, stage, d, hs, hp, ho⟩ h⟩
  | cons e es ih =>
    obtain ⟨hhead, htail⟩ := hplay
    have hsound' := deliveriesSound_step lib hsound e
    by_cases he : sessionOf e = some i
    · obtain ⟨ss', stage', d', now, hs', hp', -, hend⟩ := hhead he
      obtain rfl : ss = ss' := Option.some.inj (hs.symm.trans hs')
      obtain ⟨rfl, rfl⟩ := Phase.delivering.inj (hp.symm.trans hp')
      rw [turns_cons_self he]
      rw [ending_eq] at hend
      by_cases hc : outcome d.key = .awaitable .cancelled
      · -- the session leaves its dispatch
        rw [if_pos hc] at hend
        subst hend
        obtain ⟨hleft, hphase⟩ := raised_run lib hsound hs hp ho htail
        exact ⟨fun h => absurd h hleft, fun _ => ⟨fun h => absurd h.2 hphase,
          fun h => absurd hc (h d.key List.mem_cons_self)⟩⟩
      · rw [if_neg hc] at hend
        subst hend
        obtain ⟨hses, hseen⟩ := returned_step lib hs hp
        have hcall : d.call.session = i := (hsound i ss stage d hs hp).1
        rw [outputs, invocationsOf_append, hseen]
        have hinv := invocationsOf_next d.call d.rest
        rw [hcall] at hinv
        rw [hinv]
        cases hn : next d.call d.rest with
        | none =>
          have hrest : rest = [] := next_eq_none d.call hn
          rw [hn, walk_none ho] at hses
          obtain ⟨hphase, hnone⟩ := receiving_run lib hsound' (by rw [hses]; rfl) htail
          refine ⟨fun h => absurd h (not_inDispatch_receiving hphase), fun _ => ?_⟩
          rw [hnone, hrest]
          constructor
          · intro _ key hkey
            obtain rfl := List.mem_singleton.mp hkey
            exact hc
          · exact fun _ => ⟨rfl, hphase⟩
        | some d' =>
          obtain ⟨hcall', hm⟩ := next_eq_some d.call hn
          rw [hn] at hses
          obtain ⟨hin, hout⟩ := ih hsound' hses rfl htail
          rw [hcall'] at hin hout
          have hrest : rest = d'.key :: matching d.call.record d.call.record.fields.keys d'.rest := hm
          refine ⟨fun h => ?_, fun h => ?_⟩
          · rw [hrest, List.length_cons]
            exact Nat.succ_le_succ (hin h)
          · rw [hrest, List.map_cons, List.forall_mem_cons, ← hout h]
            show (_ :: invocationsOf i _ = _ :: _ ∧ _) ↔ _
            rw [List.cons_inj_right]
            exact (and_iff_right hc).symm
    · have hsame := (step_foreign lib hsound he).1
      obtain ⟨hin, hout⟩ := ih hsound' (hsame.trans hs) hp htail
      rw [turns_cons_of_ne he]
      refine ⟨hin, fun h => ?_⟩
      rw [← hout h, outputs, invocationsOf_append, invocationsOf_foreign hsound he]
      rfl

end

/-- Where a dispatch stands once it was called. -/
def Started (s s' : Server V) (obs : List (Obs V)) (call : Call V) : Prop :=
  ∃ ss stage, s'.session call.session = some ss ∧ stage.origin = call.origin ∧
    ss.phase = walk stage (next call s.listeners.registrations.entries) ∧
    invocationsOf call.session obs =
      invocationsOf call.session (invoked (next call s.listeners.registrations.entries))

theorem started_of_dispatch {s : Server V} {i : Nat} {ss : Session V} {stage : Stage}
    {record : Record V} {call : Call V} {queues : List Nat} (pre : List (Obs V))
    (hpre : pre.filterMap invocation = []) (hpre' : pre.filterMap dispatched = [])
    (h : .dispatched call queues ∈ pre ++ (s.dispatch i ss stage record).2) :
    Started s (s.dispatch i ss stage record).1 (pre ++ (s.dispatch i ss stage record).2) call := by
  have hcall : call = ⟨i, stage.origin, record⟩ := by
    rcases List.mem_append.mp h with h | h
    · cases List.filterMap_eq_nil_iff.mp hpre' _ h
    · rw [dispatch_seen] at h
      rcases List.mem_cons.mp h with h | h
      · exact (Obs.dispatched.inj h).1
      · exact absurd h invoked_not_dispatched
  subst hcall
  refine ⟨_, stage, Function.update_self .., rfl, rfl, ?_⟩
  rw [invocationsOf_append, dispatch_seen]
  unfold invocationsOf
  rw [hpre]
  rfl

theorem Quiet.dispatched_nil {vin : String} {i : Nat} {e : Event} {p p' : Phase V}
    {obs : List (Obs V)} (h : Quiet lib vin i e p p' obs) : obs.filterMap dispatched = [] := by
  cases h <;> rfl

theorem Leaves.nil_eq {i : Nat} {e : Event} {p : Phase V} {raised : Bool} {obs : List (Obs V)}
    (h : Leaves lib i e p raised obs) :
    obs.filterMap invocation = [] ∧ obs.filterMap dispatched = [] := by
  cases h <;> exact ⟨rfl, rfl⟩

theorem started_step (lib : Libraries V) {s : Server V} {e : Event} {call : Call V}
    {queues : List Nat} (h : .dispatched call queues ∈ s.seen lib e) :
    Started s (s.step lib e) (s.seen lib e) call := by
  have hm := step_move lib s e
  generalize s.step lib e = s' at hm ⊢
  generalize s.seen lib e = obs at hm h ⊢
  cases hm with
  | idle | environment => cases h
  | opened i request ss obs hnew hphase hobs =>
    obtain ⟨r, hr⟩ := hobs _ h
    cases hr
  | quiet e i ss p obs hs hq => cases List.filterMap_eq_nil_iff.mp hq.dispatched_nil _ h
  | connect i ss now hs hp =>
    exact started_of_dispatch (s := { s with connections := _ }) [.registered i ss.vin] rfl rfl h
  | frame i ss f record hs hp hr => exact started_of_dispatch [.sent i true] rfl rfl h
  | disconnect e i ss raised now pre hs hl =>
    obtain ⟨hinv, hdis⟩ := hl.nil_eq
    by_cases hh : s.holder ss.vin = some i
    · rw [disconnect_of_holder s i ss hh] at h ⊢
      have hst := started_of_dispatch (s := { s with connections := s.connections.erase ss.vin })
        (pre ++ [.disconnecting i ss.vin]) (by rw [List.filterMap_append, hinv]; rfl)
        (by rw [List.filterMap_append, hdis]; rfl) (by rw [List.append_assoc]; exact h)
      rw [List.append_assoc] at hst
      exact hst
    · rw [disconnect_of_not_holder s i ss hh] at h
      rcases List.mem_append.mp h with h | h
      · cases List.filterMap_eq_nil_iff.mp hdis _ h
      · simp at h
  | resume i ss stage d hs hp => exact absurd h invoked_not_dispatched

/-! ## Top theorems (proved from the lemmas above) -/

/-- **Listeners are isolated, but for awaitables that were cancelled.**  The loop of `dispatch`
invokes all that match and returns exactly when none of them hands out an awaitable its owner
cancelled; and this loop is what a session runs for any record, DISCONNECTED too.  So for a
CONNECTED or a frame in a session, with anything else in between: while the dispatch is not over,
fewer of its listeners have ended than match; and when it is over, all that match were invoked with
the record and the session receives again exactly when none was cancelled. -/
theorem isolated_iff (lib : Libraries V) (n : Nat) (es₀ es : List Event) (e : Event) (call : Call V)
    (queues : List Nat) (outcome : Nat → Outcome)
    (hcall : .dispatched call queues ∈ (after lib n es₀).seen lib e)
    (horigin : call.origin ≠ .disconnect)
    (hplay : Along (step lib) (Plays outcome call.session) ((after lib n es₀).step lib e) es) :
    let s' := run (step lib) (after lib n es₀) (e :: es)
    let listeners := wanted call (after lib n es₀)
    (∀ (record : Record V) (entries : List (Nat × Registration)),
      dispatchLoop outcome record entries = (matching record record.fields.keys entries, true) ↔
        ∀ key ∈ matching record record.fields.keys entries,
          outcome key ≠ .awaitable .cancelled) ∧
      (∀ (s : Server V) (ss : Session V) (i now : Nat) (stage : Stage) (record : Record V),
        Serves lib outcome now stage ⟨i, stage.origin, record⟩
          (dispatchLoop outcome record s.listeners.registrations.entries) ss
          (s.dispatch i ss stage record).1 (s.dispatch i ss stage record).2) ∧
      (InDispatch call.session s' → turns call.session es < listeners.length) ∧
      (¬ InDispatch call.session s' →
        (invocationsOf call.session (outputs (step lib) (seen lib) (after lib n es₀) (e :: es)) =
              listeners.map (⟨call.session, ·, call.record⟩) ∧
            (s'.session call.session).map Session.phase = some .receiving ↔
          ∀ key ∈ listeners, outcome key ≠ .awaitable .cancelled)) := by
  intro s' listeners
  refine ⟨fun record entries => dispatchLoop_iff outcome record entries,
    fun s ss i now stage record => dispatchLoop_serves lib outcome now stage
      ⟨i, stage.origin, record⟩ _ (Function.update_self ..), ?_⟩
  have hsound := deliveriesSound_run lib n es₀
  have hsound' := deliveriesSound_step lib hsound e
  obtain ⟨ss, stage, hs, hstage, hphase, hinv⟩ := started_step lib hcall
  have ho : stage.origin ≠ .disconnect := by rw [hstage]; exact horigin
  rw [outputs, invocationsOf_append, hinv, invocationsOf_next]
  cases hn : next call (after lib n es₀).listeners.registrations.entries with
  | none =>
    have hnil : listeners = [] := next_eq_none call hn
    rw [hn, walk_none ho] at hphase
    obtain ⟨hend, hnone⟩ := receiving_run lib hsound' (by rw [hs, ← hphase]; rfl) hplay
    refine ⟨fun h => absurd h (not_inDispatch_receiving hend), fun _ => ?_⟩
    rw [hnone, hnil]
    exact ⟨fun _ => List.forall_mem_nil _, fun _ => ⟨rfl, hend⟩⟩
  | some d =>
    obtain ⟨hcall', hm⟩ := next_eq_some call hn
    rw [hn] at hphase
    obtain ⟨hin, hout⟩ := inDispatch_run lib hsound' hs hphase ho hplay
    rw [hcall'] at hin hout
    have hlisteners : listeners =
      d.key :: matching call.record call.record.fields.keys d.rest := hm
    refine ⟨fun h => ?_, fun h => ?_⟩
    · rw [hlisteners, List.length_cons]
      exact Nat.lt_succ_of_le (hin h)
    · rw [hlisteners, ← hout h, List.map_cons]
      show (_ :: invocationsOf _ _ = _ :: _ ∧ _) ↔ _
      rw [List.cons_inj_right]
      exact Iff.rfl

/-- Two listeners that fail as an `Exception` at the call and at the await. -/
def failing : Nat → Outcome := fun key => if key = 0 then .raises else .awaitable .raises

/-- Both are invoked, and the session receives. -/
theorem isolated_failing :
    let s : Server Unit := after sampleLibraries 1 (twoListeners ++ [.request 0 sampleRequest])
    let es : List Event := [.prepared 0 5, .returned 0, .returned 0]
    ∃ call : Call Unit, wanted call s = [0, 1] ∧
      invocationsOf 0 (outputs (step sampleLibraries) (seen sampleLibraries) s es) =
        [0, 1].map (⟨0, ·, call.record⟩) ∧
      ((run (step sampleLibraries) s es).session 0).map Session.phase = some .receiving := by
  intro s es
  set call : Call Unit := ⟨0, .connect, connectivityRecord "V" .connected 5⟩ with hc
  have hplay : Along (step sampleLibraries) (Plays failing 0) (s.step sampleLibraries (.prepared 0 5))
      [.returned 0, .returned 0] :=
    ⟨fun _ => ⟨_, .connect, _, 0, rfl, rfl, nofun, rfl⟩,
      fun _ => ⟨_, .connect, _, 0, rfl, rfl, nofun, rfl⟩, trivial⟩
  obtain ⟨-, -, -, hiff⟩ := isolated_iff sampleLibraries 1
    (twoListeners ++ [.request 0 sampleRequest]) [.returned 0, .returned 0] (.prepared 0 5) call []
    failing (List.mem_cons_of_mem _ List.mem_cons_self) nofun hplay
  have hw : wanted call s = [0, 1] := rfl
  have hfail : ∀ key ∈ wanted call s, failing key ≠ .awaitable .cancelled := by
    rw [hw]
    decide
  exact ⟨call, hw, (hiff (not_inDispatch_receiving rfl)).mpr hfail⟩

/-- The awaitable of the first listener was cancelled: the second does not hear of the vehicle, whose
connection ends. -/
theorem cancelled_ends :
    let s : Server Unit := after sampleLibraries 1 (twoListeners ++ [.request 0 sampleRequest])
    let outcome : Nat → Outcome := fun key =>
      if key = 0 then .awaitable .cancelled else .returnsNone
    let s' := run (step sampleLibraries) s [.prepared 0 5, .raises 0 6]
    ∃ call : Call Unit, .dispatched call [] ∈ s.seen sampleLibraries (.prepared 0 5) ∧
      Along (step sampleLibraries) (Plays outcome 0) (s.step sampleLibraries (.prepared 0 5))
        [.raises 0 6] ∧
      wanted call s = [0, 1] ∧
      (invocationsOf 0 (outputs (step sampleLibraries) (seen sampleLibraries) s
        [.prepared 0 5, .raises 0 6])).map Invocation.key = [0] ∧
      (s'.session 0).map Session.phase = some (.ended true) :=
  ⟨⟨0, .connect, connectivityRecord "V" .connected 5⟩, List.mem_cons_of_mem _ List.mem_cons_self,
    ⟨fun _ => ⟨_, .connect, _, 6, rfl, rfl, nofun, rfl⟩, trivial⟩, rfl, rfl, rfl⟩

end Server

end FleetTelemetry
