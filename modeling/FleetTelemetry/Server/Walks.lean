import FleetTelemetry.Dispatch.Walks
import FleetTelemetry.Server.Delivery

/-!
# The server's dispatches are walks

A server run, seen from the dispatcher: the sessions are the names of the dispatches,
and a session has one under way at most.

    walks (s.step lib e) = run Walks.step (walks s) (s.walkEvents lib e)       (step_walks)
    walks (after lib n es) = Walks.after (trace lib n es)                      (walks_run)
-/

namespace FleetTelemetry

open Runs

namespace Server

variable {V : Type} (lib : Libraries V)

/-! ## Algorithm -/

/-- The dispatch a session waits in. -/
def underWay : Phase V → Option (Walk V)
  | .delivering _ d => some ⟨d.call.record, d.rest⟩
  | _ => none

/-- The dispatcher in the server. -/
def walks (s : Server V) : Walks V where
  listeners := s.listeners
  running i := (s.session i).bind fun ss => underWay ss.phase

/-- What an event is to the dispatcher, before the session goes on. -/
def arriving : Event → List (WalkEvent V)
  | .addListener callback vin topic field => [.register (.addListener callback vin topic field)]
  | .unsubscribe key => [.unsubscribe key]
  | .returned i => [.returned i]
  | .raises i _ => [.raised i]
  | _ => []

/-- The dispatch that is called. -/
def begun : Obs V → Option (WalkEvent V)
  | .dispatched call _ => some (.dispatch call.session call.record)
  | _ => none

def invocation : Obs V → Option (Invocation V)
  | .invoked key call => some ⟨call.session, key, call.record⟩
  | _ => none

def walkEvents (s : Server V) (e : Event) : List (WalkEvent V) :=
  arriving e ++ (s.seen lib e).filterMap begun

/-- The walk events of a run. -/
def trace (n : Nat) (es : List Event) : List (WalkEvent V) :=
  outputs (step lib) (walkEvents lib) (init n) es

/-! ## Lemmas -/

variable {lib}

/-- The step of the server is the walk events `ws` to the dispatcher. -/
def Walked (s s' : Server V) (obs : List (Obs V)) (ws : List (WalkEvent V)) : Prop :=
  s'.walks = run Walks.step s.walks ws ∧
    obs.filterMap invocation = outputs Walks.step Walks.seen s.walks ws

theorem running_of_session {s : Server V} {i : Nat} {ss : Session V} (h : s.session i = some ss) :
    s.walks.running i = underWay ss.phase := by
  show (s.session i).bind _ = _
  rw [h]
  rfl

theorem running_of_none {s : Server V} {i : Nat} (h : s.session i = none) :
    s.walks.running i = none := by
  show (s.session i).bind _ = _
  rw [h]
  rfl

section
variable (s s' : Server V) (i : Nat) (ss : Session V)

theorem walks_update (hses : s'.session = Function.update s.session i (some ss))
    (hlis : s'.listeners = s.listeners) :
    s'.walks = { s.walks with running := Function.update s.walks.running i (underWay ss.phase) } := by
  have hrun : s'.walks.running = Function.update s.walks.running i (underWay ss.phase) := by
    funext j
    show (s'.session j).bind _ = _
    rw [hses, Function.update_apply, Function.update_apply]
    split <;> rfl
  unfold walks at hrun ⊢
  rw [hlis]
  simp only at hrun ⊢
  rw [hrun]

/-- A step that leaves the dispatches alone. -/
theorem walked_of_still (hses : s'.session = Function.update s.session i (some ss))
    (hlis : s'.listeners = s.listeners) (hbefore : s.walks.running i = none)
    (hafter : underWay ss.phase = none) {obs : List (Obs V)}
    (hobs : obs.filterMap invocation = []) : Walked s s' obs [] := by
  refine ⟨?_, hobs⟩
  rw [walks_update s s' i ss hses hlis, hafter, ← hbefore, Function.update_eq_self]
  rfl

theorem underWay_walk (stage : Stage) (d : Option (Delivery V)) :
    underWay (walk stage d) = d.map fun d => ⟨d.call.record, d.rest⟩ := by
  rcases walk_cases stage d with ⟨d', rfl, hw⟩ | ⟨rfl, -, hw⟩ | ⟨rfl, r, -, hw⟩ <;> rw [hw] <;> rfl

/-- Going on with a call is going on with its walk. -/
theorem goOn_walk (call : Call V) (entries : List (Nat × Registration)) (stage : Stage)
    (hses : s'.session = Function.update s.session i
      (some { ss with phase := walk stage (next call entries) }))
    (hlis : s'.listeners = s.listeners) (hi : call.session = i) :
    s'.walks = (s.walks.goOn i call.record entries).1 ∧
      (invoked (next call entries)).filterMap invocation =
        (s.walks.goOn i call.record entries).2 := by
  rw [walks_update s s' i _ hses hlis, underWay_walk]
  unfold Walks.goOn next
  cases nextListener call.record call.record.fields.keys entries with
  | none => exact ⟨rfl, rfl⟩
  | some x =>
    refine ⟨rfl, ?_⟩
    show [(⟨call.session, _, _⟩ : Invocation V)] = _
    rw [hi]
    rfl

end

theorem seen_of_dispatch {obs pre : List (Obs V)} {call : Call V} {queues : List Nat}
    {d : Option (Delivery V)} (h : obs = pre ++ .dispatched call queues :: invoked d)
    (hpre : pre.filterMap invocation = []) (hpre' : pre.filterMap begun = []) :
    obs.filterMap invocation = (invoked d).filterMap invocation ∧
      obs.filterMap begun = [.dispatch call.session call.record] := by
  rw [h, List.filterMap_append, List.filterMap_append, hpre, hpre']
  refine ⟨rfl, ?_⟩
  cases d <;> rfl

/-- A dispatch of a session that had none under way. -/
theorem walked_of_dispatch {s : Server V} {i : Nat} (hbefore : s.walks.running i = none)
    (ss : Session V) (stage : Stage) (record : Record V) (pre : List (Obs V))
    (hpre : pre.filterMap invocation = []) (hpre' : pre.filterMap begun = []) :
    Walked s (s.dispatch i ss stage record).1 (pre ++ (s.dispatch i ss stage record).2)
      ((pre ++ (s.dispatch i ss stage record).2).filterMap begun) := by
  obtain ⟨hinv, hbegun⟩ := seen_of_dispatch (rfl : pre ++ (s.dispatch i ss stage record).2 = _)
    hpre hpre'
  obtain ⟨hst, hobs⟩ := goOn_walk s (s.dispatch i ss stage record).1 i ss
    ⟨i, stage.origin, record⟩ s.listeners.registrations.entries stage rfl rfl rfl
  have hexec : s.walks.exec (.dispatch i record) =
      s.walks.goOn i record s.listeners.registrations.entries := by
    simp only [Walks.exec, hbefore]
    rfl
  unfold Walked
  rw [hbegun, hinv, hst, hobs]
  show _ = (s.walks.exec (.dispatch i record)).1 ∧ _ = (s.walks.exec (.dispatch i record)).2 ++ []
  rw [hexec, List.append_nil]
  exact ⟨rfl, rfl⟩

theorem walked_of_disconnect {s : Server V} {i : Nat} (hbefore : s.walks.running i = none)
    (ss : Session V) (raised : Bool) (now : Nat) (pre : List (Obs V))
    (hpre : pre.filterMap invocation = []) (hpre' : pre.filterMap begun = []) :
    Walked s (s.disconnect i ss raised now).1 (pre ++ (s.disconnect i ss raised now).2)
      ((pre ++ (s.disconnect i ss raised now).2).filterMap begun) := by
  by_cases hh : s.holder ss.vin = some i
  · rw [disconnect_of_holder s i ss hh]
    have hw := walked_of_dispatch (s := { s with connections := s.connections.erase ss.vin }) hbefore
      ss (.disconnect raised) (connectivityRecord ss.vin .disconnected now)
      (pre ++ [.disconnecting i ss.vin]) (by rw [List.filterMap_append, hpre]; rfl)
      (by rw [List.filterMap_append, hpre']; rfl)
    rw [List.append_assoc] at hw
    exact hw
  · rw [disconnect_of_not_holder s i ss hh, List.filterMap_append, hpre']
    exact walked_of_still s (s.goto i ss (.ended raised)) i { ss with phase := .ended raised } rfl
      rfl hbefore rfl (by rw [List.filterMap_append, hpre]; rfl)

/-- Where the session was does not matter to its `_disconnect`. -/
theorem disconnect_goto (s : Server V) (i : Nat) (ss : Session V) (p : Phase V) (raised : Bool)
    (now : Nat) : (s.goto i ss p).disconnect i ss raised now = s.disconnect i ss raised now := by
  by_cases hh : s.holder ss.vin = some i
  · rw [disconnect_of_holder s i ss hh, disconnect_of_holder (s.goto i ss p) i ss hh]
    unfold dispatch goto
    simp only [Function.update_idem]
  · rw [disconnect_of_not_holder s i ss hh, disconnect_of_not_holder (s.goto i ss p) i ss hh]
    unfold goto
    simp only [Function.update_idem]

theorem Walked.trans {s s₁ s' : Server V} {obs : List (Obs V)} {ws ws' : List (WalkEvent V)}
    (h : Walked s s₁ [] ws) (h' : Walked s₁ s' obs ws') : Walked s s' obs (ws ++ ws') := by
  unfold Walked at h h' ⊢
  rw [run_append, outputs_append, ← h.1, ← h.2]
  exact h'

/-- An exception that is not an `Exception`, at an await of session `i`. -/
theorem walked_of_raises (lib : Libraries V) (s : Server V) (i : Nat) (now : Nat) :
    Walked s (s.step lib (.raises i now)) (s.seen lib (.raises i now))
      (s.walkEvents lib (.raises i now)) := by
  unfold walkEvents step seen
  simp only [exec]
  cases hs : s.session i with
  | none =>
    have hnone := running_of_none hs
    refine ⟨?_, rfl⟩
    show s.walks = { s.walks with running := Function.update s.walks.running i none }
    rw [← hnone, Function.update_eq_self]
  | some ss =>
    -- the dispatch the session waits in, if any, is left
    have hleft (p : Phase V) (hp : underWay p = none) :
        Walked s (s.goto i ss p) [] [.raised i] := by
      refine ⟨?_, rfl⟩
      rw [walks_update s (s.goto i ss p) i { ss with phase := p } rfl rfl, hp]
      rfl
    have hover : Walked s (s.goto i ss (.ended true)) [] [.raised i] := hleft _ rfl
    have hdis : Walked s (s.disconnect i ss true now).1 (s.disconnect i ss true now).2
        ([.raised i] ++ (s.disconnect i ss true now).2.filterMap begun) := by
      have hses : (s.goto i ss .receiving).session i = some { ss with phase := .receiving } :=
        Function.update_self ..
      have hrun : (s.goto i ss .receiving).walks.running i = none := running_of_session hses
      have hw := walked_of_disconnect hrun ss true now [] rfl rfl
      rw [List.nil_append, disconnect_goto] at hw
      exact (hleft .receiving rfl).trans hw
    simp only
    unfold raises
    split
    · exact hover
    · exact hover
    · exact hover
    · exact hdis
    · exact hdis
    · exact hdis
    · next r hp =>
      refine ⟨?_, rfl⟩
      show s.walks = { s.walks with running := Function.update s.walks.running i none }
      have hnone : s.walks.running i = none := by rw [running_of_session hs, hp]; rfl
      rw [← hnone, Function.update_eq_self]

theorem walked_of_returned (lib : Libraries V) {s : Server V} (hsound : DeliveriesSound s) (i : Nat) :
    Walked s (s.step lib (.returned i)) (s.seen lib (.returned i))
      (s.walkEvents lib (.returned i)) := by
  unfold walkEvents step seen
  simp only [exec]
  cases hs : s.session i with
  | none =>
    have hnone := running_of_none hs
    have hexec : s.walks.exec (.returned i) = (s.walks, []) := by simp only [Walks.exec, hnone]
    exact ⟨(congrArg Prod.fst hexec).symm, (congrArg (·.2 ++ []) hexec).symm⟩
  | some ss =>
    simp only
    split
    · next stage d hp =>
      have hrun : s.walks.running i = some ⟨d.call.record, d.rest⟩ := by
        rw [running_of_session hs, hp]; rfl
      obtain ⟨hst, hobs⟩ := goOn_walk s (s.goto i ss (walk stage (next d.call d.rest))) i ss
        d.call d.rest stage rfl rfl (hsound i ss stage d hs hp).1
      have hbegun : (invoked (next d.call d.rest)).filterMap begun = [] := by
        cases next d.call d.rest <;> rfl
      have hexec : s.walks.exec (.returned i) = s.walks.goOn i d.call.record d.rest := by
        simp only [Walks.exec, hrun]
      rw [hbegun, List.append_nil]
      unfold Walked
      rw [hst, hobs]
      show _ = (s.walks.exec (.returned i)).1 ∧ _ = (s.walks.exec (.returned i)).2 ++ []
      rw [hexec, List.append_nil]
      exact ⟨rfl, rfl⟩
    · next hp =>
      have hnone : s.walks.running i = none := by
        rw [running_of_session hs]
        cases hq : ss.phase with
        | delivering stage d => exact absurd hq (hp stage d)
        | _ => rfl
      have hexec : s.walks.exec (.returned i) = (s.walks, []) := by simp only [Walks.exec, hnone]
      exact ⟨(congrArg Prod.fst hexec).symm, (congrArg (·.2 ++ []) hexec).symm⟩

theorem Quiet.still {vin : String} {i : Nat} {e : Event} {p p' : Phase V} {obs : List (Obs V)}
    (h : Quiet lib vin i e p p' obs) :
    underWay p' = none ∧ obs.filterMap invocation = [] ∧ obs.filterMap begun = [] := by
  cases h <;> exact ⟨rfl, rfl, rfl⟩

theorem Quiet.underWay_eq {vin : String} {i : Nat} {e : Event} {p p' : Phase V} {obs : List (Obs V)}
    (h : Quiet lib vin i e p p' obs) (he : ∀ now, e ≠ .raises i now) : underWay p = none := by
  cases h with
  | abandoned p now => exact absurd rfl (he now)
  | skipped | acknowledged | unsent | unparsable => rfl

theorem Leaves.underWay_eq {i : Nat} {e : Event} {p : Phase V} {raised : Bool} {obs : List (Obs V)}
    (h : Leaves lib i e p raised obs) (he : ∀ now, e ≠ .raises i now) :
    underWay p = none ∧ obs.filterMap invocation = [] ∧ obs.filterMap begun = [] := by
  cases h with
  | raised p now => exact absurd rfl (he now)
  | finished | unencodable => exact ⟨rfl, rfl, rfl⟩

/-- **A step of the server is its walk events to the dispatcher.** -/
theorem step_walks (lib : Libraries V) {s : Server V} (hsound : DeliveriesSound s) (e : Event) :
    Walked s (s.step lib e) (s.seen lib e) (s.walkEvents lib e) := by
  by_cases hret : ∃ i, e = .returned i
  · obtain ⟨i, rfl⟩ := hret
    exact walked_of_returned lib hsound i
  by_cases hraise : ∃ i now, e = .raises i now
  · obtain ⟨i, now, rfl⟩ := hraise
    exact walked_of_raises lib s i now
  by_cases henv : Environment e
  · cases e with
    | addListener | unsubscribe | records | onStream | stop => exact ⟨rfl, rfl⟩
    | cleanedUp =>
      unfold walkEvents step seen
      simp only [exec]
      split <;> exact ⟨rfl, rfl⟩
    | request | prepared | returned | message | sent | finished | raises => cases henv
  · have hm := step_move lib s e
    have harrive : arriving e = ([] : List (WalkEvent V)) := by
      cases e with
      | returned i => exact absurd ⟨i, rfl⟩ hret
      | raises i now => exact absurd ⟨i, now, rfl⟩ hraise
      | addListener | unsubscribe => exact absurd trivial henv
      | _ => rfl
    unfold walkEvents
    rw [harrive, List.nil_append]
    generalize s.step lib e = s' at hm ⊢
    generalize s.seen lib e = obs at hm ⊢
    cases hm with
    | idle => exact ⟨rfl, rfl⟩
    | environment e he => exact absurd he henv
    | opened i request ss obs hnew hphase hobs =>
      have hnone := running_of_none hnew
      rw [filterMap_responded (fun _ _ => rfl) hobs]
      refine walked_of_still s { s with session := Function.update s.session i (some ss) } i ss rfl
        rfl hnone ?_ (filterMap_responded (fun _ _ => rfl) hobs)
      rcases hphase with hp | ⟨r, hp⟩ <;> rw [hp] <;> rfl
    | quiet e i ss p obs hs hq =>
      obtain ⟨hstill, hinv, hbegun⟩ := hq.still
      have hbefore : s.walks.running i = none := by
        rw [running_of_session hs, hq.underWay_eq fun now he => hraise ⟨i, now, he⟩]
      rw [hbegun]
      exact walked_of_still s (s.goto i ss p) i { ss with phase := p } rfl rfl hbefore hstill hinv
    | connect i ss now hs hp =>
      have hbefore : s.walks.running i = none := by rw [running_of_session hs, hp]; rfl
      exact walked_of_dispatch (s := { s with connections := _ }) hbefore ss .connect _
        [.registered i ss.vin] rfl rfl
    | frame i ss f record hs hp hr =>
      have hbefore : s.walks.running i = none := by rw [running_of_session hs, hp]; rfl
      exact walked_of_dispatch hbefore ss .frame record [.sent i true] rfl rfl
    | disconnect e i ss raised now pre hs hl =>
      obtain ⟨hunder, hinv, hbegun⟩ := hl.underWay_eq fun now he => hraise ⟨i, now, he⟩
      have hbefore : s.walks.running i = none := by rw [running_of_session hs, hunder]
      exact walked_of_disconnect hbefore ss raised now pre hinv hbegun
    | resume i ss stage d hs hp => exact absurd ⟨i, rfl⟩ hret

/-! ## Top theorems (proved from the lemmas above) -/

/-- **The registrations and the dispatches of a server run are those of its walk events**, and so are
the invocations. -/
theorem walks_run (lib : Libraries V) (n : Nat) (es : List Event) :
    (after lib n es).walks = Walks.after (trace lib n es) ∧
      (log lib n es).filterMap invocation =
        outputs Walks.step Walks.seen Walks.init (trace lib n es) := by
  induction es using List.reverseRecOn with
  | nil => exact ⟨rfl, rfl⟩
  | append_singleton es e ih =>
    obtain ⟨hst, hobs⟩ := ih
    have hw := step_walks lib (deliveriesSound_run lib n es) e
    unfold Walked at hw
    rw [hst] at hw
    unfold after Walks.after trace at hst hw ⊢
    unfold log at hobs ⊢
    unfold trace at hobs
    rw [run_snoc, outputs_snoc, outputs_snoc, run_append, outputs_append, List.filterMap_append,
      hobs]
    exact ⟨hw.1, congrArg _ hw.2⟩

end Server

end FleetTelemetry
