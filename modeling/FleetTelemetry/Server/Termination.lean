import Mathlib.Algebra.BigOperators.Group.Finset.Basic
import Mathlib.Algebra.Order.BigOperators.Group.Finset
import FleetTelemetry.Server.Lifecycle
import FleetTelemetry.Server.Snapshot

/-!
# Handlers end

A `_handle` runs in stretches of code from one await to the next.  What it still has to run
before it is over, if no message comes, is bounded: a listener for each registration at most
in its `connect` or its frame, the return of the socket's loop, and as much again in its
`_disconnect`.

    stretches run + work left ≤ work at first + what messages and requests grant
    no work left ↔ every handler has ended; else some handler waits for no message
                                                                        (handlers_end)

So `stop`, whose clean-up waits for the handlers, comes to its end.
-/

namespace FleetTelemetry

open Runs

variable {V : Type}

/-! ## Algorithm -/

/-- What is left of a handler after a dispatch at that place, with `m` listeners at most. -/
def Stage.work (m : Nat) : Stage → Nat
  | .connect => m + 1
  | .frame => m + 1
  | .disconnect _ => 0

/-- How many stretches of code a handler in that phase runs at most, if no message comes. -/
def Phase.work (m : Nat) : Phase V → Nat
  | .preparing => 2 * m + 2
  | .delivering stage d => d.rest.length + 1 + stage.work m
  | .receiving => m + 1
  | .acking _ => 2 * m + 2
  | .ended _ => 0

/-- Whether a handler in that phase goes on at the event. -/
def Phase.resumedBy : Phase V → Event → Bool
  | .ended _, _ => false
  | _, .raises _ _ => true
  | .preparing, .prepared _ _ => true
  | .delivering _ _, .returned _ => true
  | .receiving, .message _ _ _ => true
  | .receiving, .finished _ _ => true
  | .acking _, .sent _ _ => true
  | _, _ => false

/-- The stretches a message, or a request, gives a handler to run. -/
def granted (m : Nat) : Event → Nat
  | .request _ _ => 2 * m + 3
  | .message _ _ _ => m + 2
  | _ => 0

namespace Server

variable (lib : Libraries V)

/-- The event, if a handler runs a stretch of its code at it. -/
def stretch (s : Server V) (e : Event) : List Event :=
  match sessionOf e with
  | none => []
  | some i =>
    match s.session i, e with
    | none, .request _ _ => [e]
    | none, _ => []
    | some ss, _ => if ss.phase.resumedBy e then [e] else []

/-- What the handler of session `i` still has to run. -/
def load (m : Nat) (s : Server V) (i : Nat) : Nat := (s.session i).elim 0 fun ss => ss.phase.work m

/-- What the handlers of the sessions `is` still have to run. -/
def work (m : Nat) (is : Finset Nat) (s : Server V) : Nat := ∑ i ∈ is, s.load m i

/-- The sessions the events name. -/
def named (es : List Event) : Finset Nat := (es.filterMap sessionOf).toFinset

/-- The registered listeners. -/
def listenerCount (s : Server V) : Nat := s.listeners.registrations.entries.length

/-! ## Lemmas -/

theorem rest_lt_of_next {record : Record V} {fieldKeys : List String}
    {entries rest : List (Nat × Registration)} {key : Nat}
    (h : nextListener record fieldKeys entries = some (key, rest)) :
    rest.length < entries.length := by
  induction entries with
  | nil => cases h
  | cons e entries ih =>
    obtain ⟨k, reg⟩ := e
    unfold nextListener at h
    rw [List.length_cons]
    split at h
    · obtain ⟨-, rfl⟩ := Prod.mk.inj (Option.some.inj h)
      exact Nat.lt_succ_self _
    · exact Nat.lt_succ_of_lt (ih h)

/-- A dispatch visits each registration once at most. -/
theorem work_walk (m : Nat) (stage : Stage) (call : Call V) (entries : List (Nat × Registration)) :
    (walk stage (next call entries)).work m ≤ entries.length + stage.work m := by
  cases hn : next call entries with
  | none =>
    have hnone : (walk stage (none : Option (Delivery V))).work m = stage.work m := by
      cases stage <;> rfl
    rw [hnone]
    exact Nat.le_add_left _ _
  | some d =>
    unfold next at hn
    obtain ⟨⟨key, rest⟩, hnext, rfl⟩ := Option.map_eq_some_iff.mp hn
    have hlt := rest_lt_of_next hnext
    show rest.length + 1 + stage.work m ≤ _
    omega

section
variable {m : Nat} {s : Server V} {i : Nat} {ss : Session V}

theorem load_update {s' : Server V} {p : Phase V}
    (h : s'.session = Function.update s.session i (some { ss with phase := p })) :
    s'.load m i = p.work m := by
  unfold load
  rw [h, Function.update_self]
  rfl

theorem load_goto (p : Phase V) : (s.goto i ss p).load m i = p.work m := load_update (s := s) rfl

theorem load_dispatch (stage : Stage) (record : Record V) :
    (s.dispatch i ss stage record).1.load m i ≤ s.listenerCount + stage.work m := by
  rw [load_update (dispatch_session s i ss stage record)]
  exact work_walk m stage _ _

theorem load_disconnect (m : Nat) (s : Server V) (i : Nat) (ss : Session V) (raised : Bool)
    (now : Nat) :
    (s.disconnect i ss raised now).1.load m i ≤ s.listenerCount := by
  by_cases h : s.holder ss.vin = some i
  · rw [disconnect_of_holder s i ss h]
    exact load_dispatch (s := { s with connections := s.connections.erase ss.vin })
      (.disconnect raised) _
  · rw [disconnect_of_not_holder s i ss h, load_goto]
    exact Nat.zero_le _

theorem load_handle (request : Request) :
    (s.handle lib i request).1.load m i ≤ 2 * m + 2 := by
  have hstart {sj : Session V} (hp : sj.phase = .preparing ∨ ∃ raised, sj.phase = .ended raised) :
      ({ s with session := Function.update s.session i (some sj) } : Server V).load m i ≤
        2 * m + 2 := by
    rw [load_update (s := s) (p := sj.phase) rfl]
    rcases hp with hp | ⟨raised, hp⟩
    · rw [hp]
      exact Nat.le_refl _
    · rw [hp]
      exact Nat.zero_le _
  unfold handle
  split
  · exact hstart (.inr ⟨_, rfl⟩)
  · split
    · exact hstart (.inl rfl)
    · exact hstart (.inr ⟨_, rfl⟩)
    · exact hstart (.inr ⟨_, rfl⟩)

theorem load_handleMessage (hm : s.listenerCount ≤ m) (ss : Session V) (msg : WSMessage)
    (now : Nat) :
    (s.handleMessage lib i ss msg now).1.load m i ≤ 2 * m + 2 := by
  have hskip : (s.goto i ss .receiving).load m i ≤ 2 * m + 2 := by
    rw [load_goto]
    show m + 1 ≤ 2 * m + 2
    omega
  unfold handleMessage
  split
  · exact hskip
  split
  · exact hskip
  unfold processFrame
  split
  · exact hskip
  split
  · have h := load_disconnect m s i ss true now
    omega
  · rw [load_goto]
    exact Nat.le_refl _

theorem load_acked (hm : s.listenerCount ≤ m) (ss : Session V) (frame : StreamFrame) (ok : Bool) :
    (s.acked lib i ss frame ok).1.load m i ≤ 2 * m + 1 := by
  have hskip : (s.goto i ss .receiving).load m i ≤ 2 * m + 1 := by
    rw [load_goto]
    show m + 1 ≤ 2 * m + 1
    omega
  unfold acked
  split
  · exact hskip
  split
  · exact hskip
  · next record hrecord =>
    have h : (s.dispatch i ss .frame record).1.load m i ≤ s.listenerCount + (m + 1) :=
      load_dispatch .frame record
    omega

/-- An exception leaves the handler its `_disconnect` at most. -/
theorem load_raises (hm : s.listenerCount ≤ m) (hend : ∀ raised, ss.phase ≠ .ended raised)
    (now : Nat) : 1 + (s.raises i ss now).1.load m i ≤ ss.phase.work m := by
  have hleave := load_disconnect m s i ss true now
  have hover : (s.goto i ss (.ended true)).load m i = 0 := load_goto _
  unfold raises
  cases hp : ss.phase with
  | preparing =>
    show 1 + (s.goto i ss (.ended true)).load m i ≤ 2 * m + 2
    omega
  | receiving =>
    show 1 + (s.disconnect i ss true now).1.load m i ≤ m + 1
    omega
  | acking frame =>
    show 1 + (s.disconnect i ss true now).1.load m i ≤ 2 * m + 2
    omega
  | ended raised => exact absurd hp (hend raised)
  | delivering stage d =>
    cases stage with
    | connect | disconnect =>
      show 1 + (s.goto i ss (.ended true)).load m i ≤ d.rest.length + 1 + _
      omega
    | frame =>
      show 1 + (s.disconnect i ss true now).1.load m i ≤ d.rest.length + 1 + (m + 1)
      omega

end

/-! ### Steps -/

variable {lib}

theorem stretch_of_session {s : Server V} {e : Event} {i : Nat} {ss : Session V}
    (he : sessionOf e = some i) (hs : s.session i = some ss) :
    s.stretch e = if ss.phase.resumedBy e then [e] else [] := by
  unfold stretch
  rw [he]
  simp only [hs]

theorem stretch_of_foreign {s : Server V} {e : Event} (he : sessionOf e = none) :
    s.stretch e = [] := by
  unfold stretch
  rw [he]

/-- Any other event leaves the handler where it is. -/
theorem exec_of_not_resumed (lib : Libraries V) {s : Server V} {e : Event} {i : Nat}
    {ss : Session V} (he : sessionOf e = some i) (hs : s.session i = some ss)
    (hb : ss.phase.resumedBy e = false) : s.exec lib e = (s, []) := by
  cases e with
  | request j request =>
    obtain rfl := Option.some.inj he
    simp only [exec, hs]
  | prepared j now =>
    obtain rfl := Option.some.inj he
    simp only [exec, hs]
    cases hp : ss.phase with
    | preparing => rw [hp] at hb; cases hb
    | delivering | receiving | acking | ended => rfl
  | returned j =>
    obtain rfl := Option.some.inj he
    simp only [exec, hs]
    cases hp : ss.phase with
    | delivering stage d => rw [hp] at hb; cases hb
    | preparing | receiving | acking | ended => rfl
  | message j msg now =>
    obtain rfl := Option.some.inj he
    simp only [exec, hs]
    cases hp : ss.phase with
    | receiving => rw [hp] at hb; cases hb
    | preparing | delivering | acking | ended => rfl
  | sent j ok =>
    obtain rfl := Option.some.inj he
    simp only [exec, hs]
    cases hp : ss.phase with
    | acking frame => rw [hp] at hb; cases hb
    | preparing | delivering | receiving | ended => rfl
  | finished j now =>
    obtain rfl := Option.some.inj he
    simp only [exec, hs]
    cases hp : ss.phase with
    | receiving => rw [hp] at hb; cases hb
    | preparing | delivering | acking | ended => rfl
  | raises j now =>
    obtain rfl := Option.some.inj he
    simp only [exec, hs, raises]
    cases hp : ss.phase with
    | ended raised => rfl
    | preparing | delivering | receiving | acking => rw [hp] at hb; cases hb
  | addListener | unsubscribe | records | onStream | stop | cleanedUp => cases he

/-- **A stretch of a handler is paid** with its load, and with what the event grants. -/
theorem load_resumed (lib : Libraries V) {m : Nat} {s : Server V} {e : Event} {i : Nat}
    {ss : Session V} (hm : s.listenerCount ≤ m) (he : sessionOf e = some i)
    (hs : s.session i = some ss) (hb : ss.phase.resumedBy e = true) :
    1 + (s.step lib e).load m i ≤ ss.phase.work m + granted m e := by
  unfold step
  cases e with
  | request j request => cases hp : ss.phase <;> rw [hp] at hb <;> cases hb
  | prepared j now =>
    obtain rfl := Option.some.inj he
    simp only [exec, hs]
    cases hp : ss.phase with
    | preparing =>
      have h : (s.connect j ss now).1.load m j ≤ s.listenerCount + (m + 1) :=
        load_dispatch (s := { s with connections := _ }) .connect _
      show 1 + (s.connect j ss now).1.load m j ≤ 2 * m + 2 + 0
      omega
    | delivering | receiving | acking | ended => rw [hp] at hb; cases hb
  | returned j =>
    obtain rfl := Option.some.inj he
    simp only [exec, hs]
    cases hp : ss.phase with
    | delivering stage d =>
      have h := work_walk m stage d.call d.rest
      show 1 + (s.goto j ss (walk stage (next d.call d.rest))).load m j ≤
        d.rest.length + 1 + stage.work m + 0
      rw [load_goto]
      omega
    | preparing | receiving | acking | ended => rw [hp] at hb; cases hb
  | message j msg now =>
    obtain rfl := Option.some.inj he
    simp only [exec, hs]
    cases hp : ss.phase with
    | receiving =>
      have h := load_handleMessage (i := j) lib hm ss msg now
      show 1 + (s.handleMessage lib j ss msg now).1.load m j ≤ m + 1 + (m + 2)
      omega
    | preparing | delivering | acking | ended => rw [hp] at hb; cases hb
  | sent j ok =>
    obtain rfl := Option.some.inj he
    simp only [exec, hs]
    cases hp : ss.phase with
    | acking frame =>
      have h := load_acked (i := j) lib hm ss frame ok
      show 1 + (s.acked lib j ss frame ok).1.load m j ≤ 2 * m + 2 + 0
      omega
    | preparing | delivering | receiving | ended => rw [hp] at hb; cases hb
  | finished j now =>
    obtain rfl := Option.some.inj he
    simp only [exec, hs]
    cases hp : ss.phase with
    | receiving =>
      have h := load_disconnect m s j ss false now
      show 1 + (s.disconnect j ss false now).1.load m j ≤ m + 1 + 0
      omega
    | preparing | delivering | acking | ended => rw [hp] at hb; cases hb
  | raises j now =>
    obtain rfl := Option.some.inj he
    simp only [exec, hs]
    refine load_raises hm (fun raised hp => ?_) now
    rw [hp] at hb
    cases hb
  | addListener | unsubscribe | records | onStream | stop | cleanedUp => cases he

theorem load_step (lib : Libraries V) {m : Nat} {s : Server V} {e : Event} {i : Nat}
    (hm : s.listenerCount ≤ m) (he : sessionOf e = some i) :
    (s.stretch e).length + (s.step lib e).load m i ≤ s.load m i + granted m e := by
  have hidle (hexec : s.exec lib e = (s, [])) (hstretch : s.stretch e = []) :
      (s.stretch e).length + (s.step lib e).load m i ≤ s.load m i + granted m e := by
    unfold step
    rw [hexec, hstretch]
    show 0 + s.load m i ≤ _
    omega
  cases hs : s.session i with
  | none =>
    cases e with
    | request j request =>
      obtain rfl := Option.some.inj he
      have hone : s.stretch (.request j request) = [.request j request] := by
        unfold stretch
        simp only [sessionOf, hs]
      have h := load_handle (m := m) lib (s := s) (i := j) request
      rw [hone]
      unfold step
      simp only [exec, hs]
      show 1 + (s.handle lib j request).1.load m j ≤ s.load m j + (2 * m + 3)
      omega
    | prepared j | returned j | message j | sent j | finished j | raises j =>
      obtain rfl := Option.some.inj he
      refine hidle ?_ ?_
      · simp only [exec, hs]
      · unfold stretch
        simp only [sessionOf, hs]
    | addListener | unsubscribe | records | onStream | stop | cleanedUp => cases he
  | some ss =>
    have hst := stretch_of_session he hs
    cases hb : ss.phase.resumedBy e with
    | false => exact hidle (exec_of_not_resumed lib he hs hb) (by rw [hst, hb]; rfl)
    | true =>
      have hload : s.load m i = ss.phase.work m := by
        unfold load
        rw [hs]
        rfl
      rw [hst, hb, hload]
      exact load_resumed lib hm he hs hb

/-- The load of the others does not change. -/
theorem load_of_other (lib : Libraries V) (m : Nat) (s : Server V) {e : Event} {i : Nat}
    (he : sessionOf e ≠ some i) : (s.step lib e).load m i = s.load m i := by
  unfold load
  rw [session_of_other lib s he]

/-- Every step pays for the stretch it runs. -/
theorem work_step (lib : Libraries V) {m : Nat} {is : Finset Nat} {s : Server V} {e : Event}
    (hm : s.listenerCount ≤ m) (his : ∀ i, sessionOf e = some i → i ∈ is) :
    (s.stretch e).length + (s.step lib e).work m is ≤ s.work m is + granted m e := by
  unfold work
  cases he : sessionOf e with
  | none =>
    rw [stretch_of_foreign he, Finset.sum_congr rfl fun i _ =>
      load_of_other lib m s (by rw [he]; exact Option.some_ne_none i |>.symm)]
    show 0 + _ ≤ _
    omega
  | some i =>
    have hi := his i he
    have hown := load_step lib hm he
    have hothers : ∑ j ∈ is.erase i, (s.step lib e).load m j = ∑ j ∈ is.erase i, s.load m j := by
      refine Finset.sum_congr rfl fun j hj => load_of_other lib m s ?_
      rw [he]
      exact fun h => Finset.ne_of_mem_erase hj (Option.some.inj h).symm
    rw [← Finset.add_sum_erase is _ hi, ← Finset.add_sum_erase is (s.load m) hi, hothers]
    omega

/-- Only `add_listener` makes a registration more. -/
theorem listenerCount_step (lib : Libraries V) (s : Server V) {e : Event}
    (he : ∀ callback vin topic field, e ≠ .addListener callback vin topic field) :
    (s.step lib e).listenerCount ≤ s.listenerCount := by
  by_cases henv : Environment e
  · cases e with
    | addListener callback vin topic field => exact absurd rfl (he callback vin topic field)
    | unsubscribe key => exact List.length_filter_le _ _
    | records | onStream | stop => exact Nat.le_refl _
    | cleanedUp =>
      unfold step
      simp only [exec]
      split <;> exact Nat.le_refl _
    | request | prepared | returned | message | sent | finished | raises => cases henv
  · unfold listenerCount
    rw [(sessions_frame lib s henv).2]

/-! ### Runs -/

/-- A session of a run is named by its request. -/
theorem mem_named (lib : Libraries V) (n : Nat) {es : List Event} {i : Nat} {ss : Session V}
    (h : (after lib n es).session i = some ss) : i ∈ named es := by
  obtain ⟨request, hr, -⟩ := (described_run lib n es).session i ss h
  obtain ⟨e, he, hreq⟩ := List.exists_of_findSome?_eq_some hr
  refine List.mem_toFinset.mpr (List.mem_filterMap.mpr ⟨e, he, ?_⟩)
  cases e with
  | request j r =>
    replace hreq : (if j = i then some r else none) = some request := hreq
    by_cases hj : j = i
    · rw [hj]
      rfl
    · rw [if_neg hj] at hreq
      cases hreq
  | _ => cases hreq

theorem work_eq_zero_iff {m : Nat} {is : Finset Nat} {s : Server V}
    (his : ∀ i ss, s.session i = some ss → i ∈ is) : s.work m is = 0 ↔ s.Idle := by
  unfold work
  rw [Finset.sum_eq_zero_iff]
  constructor
  · intro h i ss hs
    have hload := h i (his i ss hs)
    unfold load at hload
    rw [hs] at hload
    replace hload : ss.phase.work m = 0 := hload
    cases hp : ss.phase with
    | ended raised => exact ⟨raised, rfl⟩
    | preparing | delivering | receiving | acking =>
      rw [hp] at hload
      simp [Phase.work] at hload
  · intro h i _
    unfold load
    cases hs : s.session i with
    | none => rfl
    | some ss =>
      obtain ⟨raised, hp⟩ := h i ss hs
      show ss.phase.work m = 0
      rw [hp]
      rfl

/-- A handler that is not over waits for something else than a message or an exception. -/
theorem stretch_of_not_idle {s : Server V} (h : ¬ s.Idle) :
    ∃ e, (∀ m, granted m e = 0) ∧ (∀ i now, e ≠ .raises i now) ∧ s.stretch e = [e] := by
  unfold Idle at h
  push Not at h
  obtain ⟨i, ss, hs, hend⟩ := h
  have hgo {e : Event} (he : sessionOf e = some i) (hb : ss.phase.resumedBy e = true) :
      s.stretch e = [e] := by
    rw [stretch_of_session he hs, if_pos hb]
  cases hp : ss.phase with
  | preparing => exact ⟨.prepared i 0, fun _ => rfl, nofun, hgo rfl (by rw [hp]; rfl)⟩
  | delivering stage d => exact ⟨.returned i, fun _ => rfl, nofun, hgo rfl (by rw [hp]; rfl)⟩
  | receiving => exact ⟨.finished i 0, fun _ => rfl, nofun, hgo rfl (by rw [hp]; rfl)⟩
  | acking frame => exact ⟨.sent i true, fun _ => rfl, nofun, hgo rfl (by rw [hp]; rfl)⟩
  | ended raised => exact absurd hp (hend raised)

/-! ## Top theorem (proved from the lemmas above) -/

/-- **Handlers end.**  In a run on which no listener is added, from any reachable state: the
stretches of code the handlers run, with what they have left to run, are at most what they had left
at first and what the messages and the requests of the run grant.  They have all ended exactly if
nothing is left; and if not, one of them waits for something else than a message. -/
theorem handlers_end (lib : Libraries V) (n : Nat) (es es' : List Event)
    (hadd : ∀ callback vin topic field, .addListener callback vin topic field ∉ es') :
    let s := after lib n es
    let s' := after lib n (es ++ es')
    let m := s.listenerCount
    let is := named (es ++ es')
    (outputs (step lib) stretch s es').length + s'.work m is ≤
        s.work m is + (es'.map (granted m)).sum ∧
      (s'.work m is = 0 ↔ s'.Idle) ∧
      (¬ s'.Idle → ∃ e, granted m e = 0 ∧ (∀ i now, e ≠ .raises i now) ∧ s'.stretch e = [e]) := by
  intro s s' m is
  have hrun : s' = run (step lib) s es' := run_append ..
  refine ⟨?_, work_eq_zero_iff fun i ss => mem_named lib n, fun h => ?_⟩
  · have hall : ∀ e ∈ es', (∀ callback vin topic field, e ≠ .addListener callback vin topic field) ∧
        ∀ i, sessionOf e = some i → i ∈ is := by
      refine fun e he => ⟨fun callback vin topic field h => ?_, fun i hi => ?_⟩
      · exact hadd callback vin topic field (h ▸ he)
      · exact List.mem_toFinset.mpr
          (List.mem_filterMap.mpr ⟨e, List.mem_append_right _ he, hi⟩)
    rw [hrun]
    refine Along.length_outputs_le (step lib) stretch (along_of_invariant (step lib) _
      (I := fun s => s.listenerCount ≤ m) (fun s e hm he => ?_) (Nat.le_refl _) hall)
    exact ⟨(listenerCount_step lib s he.1).trans hm, work_step lib hm he.2⟩
  · obtain ⟨e, hgrant, hne, hst⟩ := stretch_of_not_idle h
    exact ⟨e, hgrant m, hne, hst⟩

/-- A served session, once its socket is closed. -/
theorem finished_ends :
    let s : Server Unit := after sampleLibraries 1 [.request 0 sampleRequest, .prepared 0 5]
    (outputs (step sampleLibraries) stretch s [.finished 0 7]).length +
        (after sampleLibraries 1 [.request 0 sampleRequest, .prepared 0 5, .finished 0 7]).work 0 {0}
      ≤ 1 ∧
    (after sampleLibraries 1 [.request 0 sampleRequest, .prepared 0 5, .finished 0 7]).Idle := by
  intro s
  obtain ⟨hle, hzero, -⟩ := handlers_end sampleLibraries 1
    [.request 0 sampleRequest, .prepared 0 5] [.finished 0 7] (by simp)
  exact ⟨hle, hzero.mp rfl⟩

end Server

end FleetTelemetry
