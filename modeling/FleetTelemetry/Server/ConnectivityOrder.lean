import FleetTelemetry.Server.ConnectionHistory
import FleetTelemetry.Server.Delivery

/-!
# The order in which a listener hears of a vehicle

Disconnect and reconnect of one vehicle are two dispatches, and at a listener that
suspends one can overtake the other.  Where no synthesized dispatch of a VIN begins
while an earlier one is on its way to a listener, and no exception strikes one that is,
that listener hears what the registry announced:

    heard ++ onTheWay = announced                               (heard_run)

The first listener that takes the records needs no such condition (`unhurried_of_first`).
-/

namespace FleetTelemetry

open Runs

namespace Server

variable {V : Type} (lib : Libraries V)

/-! ## Algorithm -/

/-- The call the listener `key` is invoked with. -/
def heardBy (key : Nat) : Obs V → Option (Call V)
  | .invoked k call => if k = key then some call else none
  | _ => none

/-- The statuses of `vin` the listener `key` has heard. -/
def heard (key : Nat) (vin : String) (log : List (Obs V)) : List ConnectivityEvent :=
  (log.filterMap (heardBy key)).filterMap (connectivity vin)

/-- The statuses of `vin` that were dispatched. -/
def announced (vin : String) (log : List (Obs V)) : List ConnectivityEvent :=
  (log.filterMap dispatched).filterMap (connectivity vin)

/-- The status of `vin` that session `j` is bringing to the listener `key`. -/
def onTheWay (s : Server V) (key : Nat) (vin : String) (j : Nat) : List ConnectivityEvent :=
  (s.pending key j).filterMap (connectivity vin)

/-- The filter of the registration takes the synthesized records of `vin`. -/
def Takes (reg : Registration) (vin : String) : Prop :=
  ∀ status now, reg.matchesRecord (connectivityRecord vin status now : Record Unit) [] = true

/-- A status of `vin` is dispatched only when none is on its way to the listener `key`. -/
def Unhurried (key : Nat) (vin : String) (s : Server V) (e : Event) : Prop :=
  announced vin (s.seen lib e) ≠ [] → ∀ j, s.onTheWay key vin j = []

/-- No exception strikes a session while a status of `vin` is on its way to the listener `key`. -/
def Unstruck (key : Nat) (vin : String) (s : Server V) (e : Event) : Prop :=
  ∀ j, strikes j e = true → s.onTheWay key vin j = []

/-- The listener `key` is the first that takes the synthesized records of `vin`. -/
def First (key : Nat) (vin : String) (s : Server V) : Prop :=
  ∀ status now, (matching (connectivityRecord vin status now : Record V) []
    s.listeners.registrations.entries).head? = some key

/-! ## Lemmas -/

variable {lib}

/-- The call an observation is about. -/
def callOf : Obs V → Option (Call V)
  | .dispatched call _ => some call
  | .invoked _ call => some call
  | _ => none

/-- The calls seen are those of session `j`. -/
def CallsOf (j : Nat) (obs : List (Obs V)) : Prop :=
  ∀ o ∈ obs, ∀ call, callOf o = some call → call.session = j

theorem CallsOf.cons {j : Nat} {o : Obs V} {obs : List (Obs V)} (ho : callOf o = none)
    (h : CallsOf j obs) : CallsOf j (o :: obs) := by
  intro o' ho' call hc
  rcases List.mem_cons.mp ho' with rfl | ho'
  · rw [ho] at hc; cases hc
  · exact h o' ho' call hc

theorem callsOf_next {j : Nat} {call : Call V} {entries : List (Nat × Registration)}
    (hj : call.session = j) : CallsOf j (invoked (next call entries)) := by
  intro o ho c hc
  cases hn : next call entries with
  | none => rw [hn] at ho; cases ho
  | some d =>
    rw [hn] at ho
    obtain rfl := List.mem_singleton.mp ho
    obtain rfl := Option.some.inj hc
    rw [(next_eq_some call hn).1, hj]

theorem callsOf_dispatch (s : Server V) (j : Nat) (ss : Session V) (stage : Stage)
    (record : Record V) : CallsOf j (s.dispatch j ss stage record).2 := by
  rw [dispatch_seen]
  intro o ho c hc
  rcases List.mem_cons.mp ho with rfl | ho
  · obtain rfl := Option.some.inj hc
    rfl
  · exact callsOf_next rfl o ho c hc

theorem callsOf_disconnect (s : Server V) (j : Nat) (ss : Session V) (raised : Bool) (now : Nat) :
    CallsOf j (s.disconnect j ss raised now).2 := by
  by_cases hj : s.holder ss.vin = some j
  · rw [disconnect_of_holder s j ss hj]
    exact .cons rfl (callsOf_dispatch _ j ss _ _)
  · rw [disconnect_of_not_holder s j ss hj]
    exact .cons rfl nofun

theorem Quiet.callsOf {vin : String} {i : Nat} {e : Event} {p p' : Phase V} {obs : List (Obs V)}
    (h : Quiet lib vin i e p p' obs) (j : Nat) : CallsOf j obs := by
  cases h <;> simp [CallsOf, callOf]

theorem Leaves.callsOf {i : Nat} {e : Event} {p : Phase V} {raised : Bool} {obs : List (Obs V)}
    (h : Leaves lib i e p raised obs) (j : Nat) : CallsOf j obs := by
  cases h <;> simp [CallsOf, callOf]

/-- A step of another session leaves session `i` alone, and makes none of its calls. -/
theorem step_foreign (lib : Libraries V) {s : Server V} (hsound : DeliveriesSound s) {e : Event}
    {i : Nat} (he : sessionOf e ≠ some i) :
    (s.step lib e).session i = s.session i ∧
      ∀ o ∈ s.seen lib e, ∀ call, callOf o = some call → call.session ≠ i := by
  refine ⟨session_of_other lib s he, ?_⟩
  have hm := step_move lib s e
  generalize s.step lib e = s' at hm
  generalize s.seen lib e = obs at hm ⊢
  have hcalls {j : Nat} {obs : List (Obs V)} (hj : sessionOf e = some j) (h : CallsOf j obs) :
      ∀ o ∈ obs, ∀ call, callOf o = some call → call.session ≠ i := by
    rintro o ho call hc rfl
    exact he (by rw [hj, h o ho call hc])
  cases hm with
  | idle => exact nofun
  | environment e henv => exact nofun
  | opened j request ss obs hnew hphase hobs =>
    intro o ho call hc
    obtain ⟨r, rfl⟩ := hobs o ho
    cases hc
  | quiet e j ss p obs hs hq => exact hcalls hq.sessionOf_eq (hq.callsOf j)
  | connect j ss now hs hp => exact hcalls rfl (.cons rfl (callsOf_dispatch _ j ss _ _))
  | frame j ss f record hs hp hr => exact hcalls rfl (.cons rfl (callsOf_dispatch _ j ss _ _))
  | disconnect e j ss raised now pre hs hl =>
    refine hcalls hl.sessionOf_eq fun o ho => ?_
    rcases List.mem_append.mp ho with ho | ho
    · exact hl.callsOf j o ho
    · exact callsOf_disconnect s j ss raised now o ho
  | resume j ss stage d hs hp => exact hcalls rfl (callsOf_next (hsound j ss stage d hs hp).1)

/-- A step is one session's: it leaves the others alone, and the calls are its own. -/
theorem step_session (lib : Libraries V) {s : Server V} (hsound : DeliveriesSound s) (e : Event) :
    ∃ j, (∀ k, k ≠ j → (s.step lib e).session k = s.session k) ∧ CallsOf j (s.seen lib e) := by
  have hown {k : Nat} (hk : k ≠ (sessionOf e).getD 0) : sessionOf e ≠ some k := by
    intro he
    rw [he] at hk
    exact hk rfl
  refine ⟨(sessionOf e).getD 0, fun k hk => (step_foreign lib hsound (hown hk)).1,
    fun o ho call hc => ?_⟩
  by_contra hk
  exact (step_foreign lib hsound (hown hk)).2 o ho call hc rfl

theorem wants_of_takes {reg : Registration} {vin : String} (h : Takes reg vin)
    {status : ConnectivityEvent} {now i : Nat} {origin : Origin} :
    wants reg (⟨i, origin, connectivityRecord vin status now⟩ : Call V) = true := h status now

/-- **A step, seen from one listener.**  What the session of the step was bringing to it and what
the step announces is heard, or on its way; the other sessions do not come closer. -/
theorem heard_step (lib : Libraries V) {s : Server V} {e : Event} {key : Nat}
    {reg : Registration} {vin : String} (hsound : DeliveriesSound s)
    (hreg : s.listeners.registrations.get key = some reg)
    (htakes : Takes reg vin) (hstruck : Unstruck key vin s e) :
    ∃ j, heard key vin (s.seen lib e) ++ (s.step lib e).onTheWay key vin j =
        s.onTheWay key vin j ++ announced vin (s.seen lib e) ∧
      ∀ k, k ≠ j → (s.step lib e).onTheWay key vin k = s.onTheWay key vin k := by
  obtain ⟨j, hother, hcalls⟩ := step_session lib hsound e
  refine ⟨j, ?_, fun k hk => by unfold onTheWay; rw [pending_congr (hother k hk)]⟩
  obtain ⟨carried, hcarried, asked, -, hasked, hgot⟩ :
      ∃ carried, carried.filterMap (connectivity vin) = s.onTheWay key vin j ∧
        Ledger key j carried s (s.step lib e) (s.seen lib e) := by
    by_cases he : ∃ now, e = .raises j now
    · obtain ⟨now, rfl⟩ := he
      exact ⟨[], (hstruck j (decide_eq_true rfl)).symm, ledger_raises lib key j now s⟩
    · exact ⟨_, rfl, ledger_step lib hsound key fun now h => he ⟨now, h⟩⟩
  rw [hasked reg hreg] at hgot
  have hr : (s.seen lib e).filterMap (receivedBy key j) =
      (s.seen lib e).filterMap (heardBy key) := by
    refine List.filterMap_congr fun o ho => ?_
    cases o with
    | invoked k call => simp only [receivedBy, heardBy, hcalls _ ho call rfl, and_true]
    | _ => rfl
  have hm : (s.seen lib e).filterMap (dispatchedBy j) =
      (s.seen lib e).filterMap dispatched := by
    refine List.filterMap_congr fun o ho => ?_
    cases o with
    | dispatched call queues => exact if_pos (hcalls _ ho call rfl)
    | _ => rfl
  rw [hr, hm] at hgot
  have hwants : (((s.seen lib e).filterMap dispatched).filter (wants reg)).filterMap
      (connectivity vin) = announced vin (s.seen lib e) := by
    unfold announced
    rw [List.filterMap_filter]
    refine List.filterMap_congr fun call hc => ?_
    obtain ⟨o, ho, hoc⟩ := List.mem_filterMap.mp hc
    cases o with
    | dispatched call' queues =>
      obtain rfl := Option.some.inj hoc
      by_cases hw : wants reg call' = true
      · rw [if_pos hw]
      · rw [if_neg hw]
        symm
        cases (dispatched_cases ho).2 with
        | frame => rfl
        | connect i ss now =>
          exact if_neg fun hv : ss.vin = vin => hw (hv ▸ wants_of_takes (hv ▸ htakes))
        | disconnect i ss raised now =>
          exact if_neg fun hv : ss.vin = vin => hw (hv ▸ wants_of_takes (hv ▸ htakes))
    | _ => cases hoc
  have hstatuses := congrArg (List.filterMap (connectivity vin)) hgot
  rw [List.filterMap_append, List.filterMap_append, hwants, hcarried] at hstatuses
  exact hstatuses

theorem heard_append (key : Nat) (vin : String) (log obs : List (Obs V)) :
    heard key vin (log ++ obs) = heard key vin log ++ heard key vin obs := by
  unfold heard; rw [List.filterMap_append, List.filterMap_append]

theorem announced_append (vin : String) (log obs : List (Obs V)) :
    announced vin (log ++ obs) = announced vin log ++ announced vin obs := by
  unfold announced; rw [List.filterMap_append, List.filterMap_append]

/-- One session at most is bringing something: what was announced and is not heard. -/
def InStep (key : Nat) (vin : String) (log : List (Obs V)) (s : Server V) : Prop :=
  ∃ j, heard key vin log ++ s.onTheWay key vin j = announced vin log ∧
    ∀ k, k ≠ j → s.onTheWay key vin k = []

theorem inStep_step {log : List (Obs V)} {s : Server V} {e : Event} {key : Nat}
    {reg : Registration} {vin : String} (hin : InStep key vin log s) (hsound : DeliveriesSound s)
    (hreg : s.listeners.registrations.get key = some reg) (htakes : Takes reg vin)
    (hun : Unhurried lib key vin s e) (hstruck : Unstruck key vin s e) :
    InStep key vin (log ++ s.seen lib e) (s.step lib e) := by
  obtain ⟨j, hj, hothers⟩ := hin
  obtain ⟨i, hi, hsame⟩ := heard_step lib hsound hreg htakes hstruck
  unfold InStep
  rw [heard_append, announced_append]
  by_cases ha : announced vin (s.seen lib e) = []
  · -- nothing new: whoever was bringing something still is
    rw [ha, List.append_nil] at hi ⊢
    by_cases hij : i = j
    · subst hij
      exact ⟨i, by rw [List.append_assoc, hi, hj], fun k hk => by rw [hsame k hk, hothers k hk]⟩
    · rw [hothers i hij, List.append_eq_nil_iff] at hi
      refine ⟨j, by rw [hi.1, List.append_nil, hsame j (Ne.symm hij), hj], fun k hk => ?_⟩
      by_cases hki : k = i
      · rw [hki, hi.2]
      · rw [hsame k hki, hothers k hk]
  · -- a new dispatch: nobody was bringing anything
    have hnone := hun ha
    rw [hnone j, List.append_nil] at hj
    rw [hnone i, List.nil_append] at hi
    exact ⟨i, by rw [List.append_assoc, hi, hj], fun k hk => by rw [hsame k hk, hnone k]⟩

/-- What a listener has heard over a run in which it stays registered and no dispatch hurries or is
struck. -/
theorem heard_run {s : Server V} {es : List Event} {key : Nat} {reg : Registration} {vin : String}
    (hsound : DeliveriesSound s) (hreg : s.listeners.registrations.get key = some reg)
    (htakes : Takes reg vin) (hnone : ∀ j, s.onTheWay key vin j = [])
    (hkeep : .unsubscribe key ∉ es)
    (hun : Along (step lib) (fun s e => Unhurried lib key vin s e ∧ Unstruck key vin s e) s es) :
    InStep key vin (outputs (step lib) (seen lib) s es) (run (step lib) s es) := by
  induction es using List.reverseRecOn with
  | nil => exact ⟨0, by rw [run_nil, hnone 0]; rfl, fun k _ => hnone k⟩
  | append_singleton es e ih =>
    rw [along_snoc] at hun
    rw [outputs_snoc, run_snoc]
    have hkeep' : .unsubscribe key ∉ es := fun h => hkeep (List.mem_append_left _ h)
    have hsound' : DeliveriesSound (run (step lib) s es) :=
      Runs.invariant (step lib) (I := DeliveriesSound)
        (fun _ e h => deliveriesSound_step lib h e) hsound es
    exact inStep_step (ih hkeep' hun.1) hsound' (registered_run hreg hkeep') htakes hun.2.1 hun.2.2

/-! ### The first listener -/

/-- The record a dispatch of `vin` synthesizes goes to the first listener at once. -/
theorem first_dispatch {s : Server V} {key : Nat} {vin : String} (hf : First key vin s) (j : Nat)
    (ss : Session V) (stage : Stage) (status : ConnectivityEvent) (now : Nat) :
    (s.dispatch j ss stage (connectivityRecord vin status now)).1.onTheWay key vin j = [] := by
  unfold onTheWay
  rw [pending_of_session (by rw [dispatch_session, Function.update_self])]
  set call : Call V := ⟨j, stage.origin, connectivityRecord vin status now⟩ with hcall
  have hhead : (matching call.record call.record.fields.keys
      s.listeners.registrations.entries).head? = some key := hf status now
  have hnd := matching_nodup call.record call.record.fields.keys s.listeners.registrations
  cases hn : next call s.listeners.registrations.entries with
  | none => rw [next_eq_none call hn] at hhead; cases hhead
  | some d =>
    obtain ⟨hc, hm⟩ := next_eq_some call hn
    rw [hm] at hhead hnd
    obtain rfl : d.key = key := Option.some.inj hhead
    show (awaits d.key d.call d.rest).filterMap _ = []
    unfold awaits
    rw [hc, if_neg (List.nodup_cons.mp hnd).1]
    rfl

/-- A call with a status of `vin` is one for `vin`. -/
theorem vin_of_connectivity {vin : String} {call : Call V} {status : ConnectivityEvent}
    (h : connectivity vin call = some status) : call.record.vin = vin := by
  unfold connectivity at h
  split at h
  · cases h
  · split at h
    · assumption
    · cases h

/-- A step that announces a status of `vin` dispatches its record. -/
theorem synthesized_step {s : Server V} {e : Event} {vin : String}
    (h : announced vin (s.seen lib e) ≠ []) :
    ∃ (s₁ : Server V) (j : Nat) (ss : Session V) (stage : Stage) (status : ConnectivityEvent)
      (now : Nat), s.step lib e = (s₁.dispatch j ss stage (connectivityRecord vin status now)).1 ∧
        s₁.session = s.session ∧ s₁.listeners = s.listeners := by
  obtain ⟨status, hmem⟩ := List.exists_mem_of_ne_nil _ h
  obtain ⟨call, hcall, hst⟩ := List.mem_filterMap.mp hmem
  obtain ⟨o, ho, hoc⟩ := List.mem_filterMap.mp hcall
  cases o with
  | dispatched call' queues =>
    obtain rfl := Option.some.inj hoc
    have hvin := vin_of_connectivity hst
    cases (dispatched_cases ho).2 with
    | frame => cases hst
    | connect j ss now hs hseen hstep =>
      obtain rfl : ss.vin = vin := hvin
      exact ⟨_, j, ss, .connect, .connected, now, hstep, rfl, rfl⟩
    | disconnect j ss raised now hs hh hstep =>
      obtain rfl : ss.vin = vin := hvin
      rw [disconnect_of_holder s j ss hh] at hstep
      exact ⟨_, j, ss, .disconnect raised, .disconnected, now, hstep, rfl, rfl⟩
  | _ => cases hoc

/-- Registrations that come later, or go, leave the first listener where it is. -/
theorem first_step {s : Server V} {e : Event} {key : Nat} {vin : String} (hf : First key vin s)
    (he : e ≠ .unsubscribe key) : First key vin (s.step lib e) := by
  unfold First
  rw [step_listeners]
  intro status now
  have hhead := hf status now
  cases e with
  | addListener callback v topic field =>
    have hnew : s.listeners.ids ∉ s.listeners.registrations.keys := fun h =>
      Nat.lt_irrefl _ (s.listeners.fresh _ h)
    show (matching _ _ (s.listeners.registrations.set s.listeners.ids _).entries).head? = some key
    rw [Dict.entries_set_of_new _ _ _ hnew, matching_append, List.head?_append, hhead]
    rfl
  | unsubscribe k =>
    show (matching _ _ (s.listeners.registrations.erase k).entries).head? = some key
    obtain ⟨rest, hm⟩ := List.head?_eq_some_iff.mp hhead
    rw [matching_erase, hm, List.filter_cons_of_pos]
    · rfl
    · simpa using fun h : key = k => he (by rw [h])
  | _ => exact hhead

/-- Nothing is ever on its way to the first listener. -/
theorem unhurried_of_first {s : Server V} {es : List Event} {key : Nat} {reg : Registration}
    {vin : String} (hsound : DeliveriesSound s)
    (hreg : s.listeners.registrations.get key = some reg) (htakes : Takes reg vin)
    (hf : First key vin s) (hnone : ∀ j, s.onTheWay key vin j = [])
    (hkeep : .unsubscribe key ∉ es) :
    Along (step lib) (fun s e => Unhurried lib key vin s e ∧ Unstruck key vin s e) s es := by
  induction es generalizing s with
  | nil => trivial
  | cons e es ih =>
    have hne : e ≠ .unsubscribe key := fun h => hkeep (h ▸ List.mem_cons_self)
    refine ⟨⟨fun _ => hnone, fun j _ => hnone j⟩, ih (deliveriesSound_step lib hsound e)
      (registered_step hreg hne) (first_step hf hne) ?_ fun h => hkeep (List.mem_cons_of_mem _ h)⟩
    intro k
    by_cases ha : announced vin (s.seen lib e) = []
    · obtain ⟨i, hi, hsame⟩ := heard_step lib hsound hreg htakes
        (e := e) fun j _ => hnone j
      rw [ha, hnone i] at hi
      by_cases hki : k = i
      · rw [hki]; exact (List.append_eq_nil_iff.mp hi).2
      · rw [hsame k hki, hnone k]
    · obtain ⟨s₁, j, ss, stage, status, now, hstep, hses, hlis⟩ := synthesized_step ha
      rw [hstep]
      by_cases hkj : k = j
      · subst hkj
        exact first_dispatch (fun status now => hlis ▸ hf status now) k ss stage status now
      · have : (s₁.dispatch j ss stage (connectivityRecord vin status now)).1.session k =
            s.session k := by
          rw [dispatch_session, Function.update_of_ne hkj, hses]
        unfold onTheWay
        rw [pending_congr this]
        exact hnone k

/-- Before the first session nothing is connected. -/
theorem not_connected_of_no_session {n : Nat} {es : List Event} (vin : String)
    (h : ∀ j, (after lib n es).session j = none) : (after lib n es).isConnected vin = false := by
  rw [isConnected_eq]
  cases hh : (after lib n es).holder vin with
  | none => rfl
  | some i =>
    have hfresh := (registryOps_once n es).2 i fun ss hs => by rw [h i] at hs; cases hs
    exact absurd (TokenRegistry.latest_mem ((holder_eq_some_iff n es vin i).mp hh).1) (hfresh vin).1

/-! ## Top theorems (proved from the lemmas above) -/

/-- **A listener hears of a vehicle in the order of the registry**, when it is registered before the
first session, takes the vehicle's synthesized records, and is either the first listener to do
so, or never has one on its way when the next is dispatched or an exception strikes. -/
theorem connectivity_in_order (lib : Libraries V) (n : Nat) (es₀ es : List Event) (key : Nat)
    (reg : Registration) (vin : String)
    (hreg : (after lib n es₀).listeners.registrations.get key = some reg)
    (htakes : Takes reg vin) (hstart : ∀ j, (after lib n es₀).session j = none)
    (hkeep : .unsubscribe key ∉ es)
    (horder : First key vin (after lib n es₀) ∨
      Along (step lib) (fun s e => Unhurried lib key vin s e ∧ Unstruck key vin s e)
        (after lib n es₀) es) :
    let s := run (step lib) (after lib n es₀) es
    let log := outputs (step lib) (seen lib) (after lib n es₀) es
    Alternates (announced vin log) ∧ heard key vin log <+: announced vin log ∧
      ((∀ j, s.onTheWay key vin j = []) →
        heard key vin log = announced vin log ∧
        (s.isConnected vin = true ↔ (heard key vin log).getLast? = some .connected) ∧
        (heard key vin log = [] → ∀ i, .registered i vin ∉ log)) := by
  intro s log
  have hsound := deliveriesSound_run lib n es₀
  have hnone (j : Nat) : (after lib n es₀).onTheWay key vin j = [] := by
    unfold onTheWay pending
    rw [hstart j]
    rfl
  have hun := horder.elim (fun hf => unhurried_of_first hsound hreg htakes hf hnone hkeep) id
  obtain ⟨j, hj, -⟩ := heard_run hsound hreg htakes hnone hkeep hun
  obtain ⟨halt, hlast⟩ := history_alternates lib (after lib n es₀) es vin
  rw [not_connected_of_no_session vin hstart] at halt hlast
  refine ⟨halt, ⟨_, hj⟩, fun hrest => ?_⟩
  have heq : heard key vin log = announced vin log := by
    rw [← hj, hrest j, List.append_nil]
  rw [heq]
  refine ⟨rfl, hlast, fun hnil i hi => ?_⟩
  have hop : .register vin i ∈ log.filterMap registryOp := List.mem_filterMap.mpr ⟨_, hi, rfl⟩
  have hann := TokenRegistry.register_announced hop (after lib n es₀).holder
  have hmap : announced vin log = _ := statuses_eq (after lib n es₀) es vin
  rw [hnil] at hmap
  rw [List.map_eq_nil_iff.mp hmap.symm] at hann
  cases hann

/-- Two listeners of connectivity records. -/
def twoListeners : List Event :=
  [.addListener 7 .none (.value "connectivity") .none,
    .addListener 8 .none (.value "connectivity") .none]

/-- The DISCONNECTED of a session waits at the first listener while the vehicle reconnects. -/
def overtaken : List Event :=
  [.request 0 sampleRequest, .prepared 0 5, .returned 0, .returned 0, .finished 0 6,
    .request 1 sampleRequest, .prepared 1 7, .returned 1, .returned 1, .returned 0, .returned 0]

/-- The first listener hears both sessions in order. -/
theorem overtaken_first :
    let s₀ : Server Unit := after sampleLibraries 1 twoListeners
    let s := run (step sampleLibraries) s₀ overtaken
    let log := outputs (step sampleLibraries) (seen sampleLibraries) s₀ overtaken
    heard 0 "V" log = announced "V" log ∧
      announced "V" log = [.connected, .disconnected, .connected] ∧
      (s.isConnected "V" = true ↔ (heard 0 "V" log).getLast? = some .connected) ∧
      s.isConnected "V" = true := by
  intro s₀ s log
  obtain ⟨-, -, hquiet⟩ := connectivity_in_order sampleLibraries 1 twoListeners overtaken 0
    ⟨7, none, some {"connectivity"}, none⟩ "V" rfl (fun _ _ => rfl) (fun _ => rfl)
    (by simp [overtaken]) (.inl fun _ _ => rfl)
  obtain ⟨hall, hlast, -⟩ := hquiet fun j => by
    match j with
    | 0 => rfl
    | 1 => rfl
    | j + 2 => rfl
  exact ⟨hall, by decide, hlast, by decide⟩

/-- The second hears the DISCONNECTED last, and the vehicle is connected. -/
theorem overtaken_out_of_order :
    let s : Server Unit := after sampleLibraries 1 (twoListeners ++ overtaken)
    let log := log sampleLibraries 1 (twoListeners ++ overtaken)
    (∀ j ss stage d, s.session j = some ss → ss.phase ≠ .delivering stage d) ∧
      ¬ (s.isConnected "V" = true ↔ (heard 1 "V" log).getLast? = some .connected) := by
  intro s log
  have hconn : s.isConnected "V" = true := by decide
  have hheard : heard 1 "V" log = [.connected, .connected, .disconnected] := by decide
  refine ⟨fun j ss stage d hs hp => ?_, fun h => ?_⟩
  · have h0 : (s.session 0).map Session.phase = some (.ended false) := rfl
    have h1 : (s.session 1).map Session.phase = some .receiving := rfl
    match j with
    | 0 => rw [hs] at h0; cases hp.symm.trans (Option.some.inj h0)
    | 1 => rw [hs] at h1; cases hp.symm.trans (Option.some.inj h1)
    | j + 2 => cases hs
  · rw [hheard] at h
    cases h.mp hconn

end Server

end FleetTelemetry
