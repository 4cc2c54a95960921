import FleetTelemetry.Server.Frames
import FleetTelemetry.Server.StreamDelivery

/-!
# What an exception costs a listener

An exception that nothing catches ends the dispatch it strikes, and the listeners after the
suspended one do not get its record.  A listener loses nothing in any other way:

    received ++ s'.pending = s.pending ++ asked      where no exception strikes     (ledger_step)
    received ++ s'.pending = asked                   where one does               (ledger_raises)
    received ++ pending = wanted ↔ every exception spared the listener     (listener_lossless_iff)

The queues are filled before the first listener runs, so a loop that keeps up has every record
that a listener has, exceptions or not (`iterator_never_behind`).
-/

namespace FleetTelemetry

open Runs

namespace Server

variable {V : Type} {lib : Libraries V}

/-! ## Algorithm -/

/-- An exception in session `i` does not find a call on its way to the listener `key`. -/
def Spared (key i : Nat) (s : Server V) (e : Event) : Prop :=
  strikes i e = true → s.pending key i = []

/-- How many calls a session in that phase may still lose. -/
def atStake : Phase V → Nat
  | .ended _ => 0
  | .delivering (.disconnect _) _ => 1
  | _ => 2

/-- How many calls session `i` may still lose. -/
def stake (s : Server V) (i : Nat) : Nat := (s.session i).elim 2 fun ss => atStake ss.phase

/-! ## Lemmas -/

/-! ### What a session may still lose -/

theorem atStake_le (p : Phase V) : atStake p ≤ 2 := by
  unfold atStake
  split <;> omega

theorem atStake_of_live {p : Phase V} (h : Live p) : atStake p = 2 := by
  unfold Live at h
  split at h
  · rfl
  · rfl
  · rfl
  · exact absurd h id

theorem atStake_disconnect (raised : Bool) (d : Option (Delivery V)) :
    atStake (walk (.disconnect raised) d) ≤ 1 := by
  cases d with
  | some d => exact Nat.le_refl 1
  | none => exact Nat.zero_le 1

theorem Quiet.atStake_le {vin : String} {i : Nat} {e : Event} {p p' : Phase V} {obs : List (Obs V)}
    (h : Quiet lib vin i e p p' obs) : atStake p' ≤ atStake p := by
  cases h with
  | abandoned p now hp hend => exact Nat.zero_le _
  | skipped | acknowledged | unsent | unparsable => exact Nat.le_refl 2

theorem Leaves.atStake_eq {i : Nat} {e : Event} {p : Phase V} {raised : Bool} {obs : List (Obs V)}
    (h : Leaves lib i e p raised obs) : atStake p = 2 := by
  cases h with
  | raised p now hp => exact atStake_of_live hp
  | finished | unencodable => rfl

theorem stake_of_session {s : Server V} {i : Nat} {ss : Session V} (h : s.session i = some ss) :
    s.stake i = atStake ss.phase := by
  unfold stake
  rw [h]
  rfl

theorem stake_congr {s s' : Server V} {i : Nat} (h : s'.session i = s.session i) :
    s'.stake i = s.stake i := by
  unfold stake
  rw [h]

/-- Only the phase of session `j` has changed. -/
theorem stake_update {s s' : Server V} {j : Nat} {ss : Session V} (i : Nat)
    (hs : s'.session = Function.update s.session j (some ss))
    (h : j = i → atStake ss.phase ≤ s.stake i) : s'.stake i ≤ s.stake i := by
  by_cases hij : j = i
  · rw [stake_of_session (by rw [hs, hij, Function.update_self])]
    exact h hij
  · exact Nat.le_of_eq (stake_congr (by rw [hs, Function.update_of_ne (Ne.symm hij)]))

/-- What a session may lose only ever decreases. -/
theorem stake_step (lib : Libraries V) (s : Server V) (e : Event) (i : Nat) :
    (s.step lib e).stake i ≤ s.stake i := by
  have hm := step_move lib s e
  generalize s.step lib e = s' at hm ⊢
  generalize s.seen lib e = obs at hm
  cases hm with
  | idle => exact Nat.le_refl _
  | environment e henv =>
    exact Nat.le_of_eq (stake_congr (congrFun (environment_frame lib s henv).2 i))
  | opened j request ss obs hnew hphase hobs =>
    refine stake_update i rfl ?_
    rintro rfl
    unfold stake
    rw [hnew]
    exact atStake_le _
  | quiet e j ss p obs hs hq =>
    refine stake_update i rfl ?_
    rintro rfl
    rw [stake_of_session hs]
    exact hq.atStake_le
  | connect j ss now hs hp =>
    refine stake_update i rfl ?_
    rintro rfl
    rw [stake_of_session hs, hp]
    exact atStake_le _
  | frame j ss f record hs hp hr =>
    refine stake_update i rfl ?_
    rintro rfl
    rw [stake_of_session hs, hp]
    exact atStake_le _
  | disconnect e j ss raised now pre hs hl =>
    obtain ⟨p, hses, -⟩ := disconnect_session s j ss raised now
    refine stake_update i hses ?_
    rintro rfl
    rw [stake_of_session hs, hl.atStake_eq]
    exact atStake_le _
  | resume j ss stage d hs hp =>
    refine stake_update i rfl ?_
    rintro rfl
    rw [stake_of_session hs, hp]
    cases stage with
    | disconnect raised => exact atStake_disconnect raised _
    | connect | frame => exact atStake_le _

/-- A call that is dropped is paid for. -/
theorem stake_raises (lib : Libraries V) (key i now : Nat) (s : Server V) :
    (s.pending key i).length + (s.step lib (.raises i now)).stake i ≤ s.stake i := by
  by_cases hp : s.pending key i = []
  · rw [hp, List.length_nil, Nat.zero_add]
    exact stake_step lib s _ i
  · cases hs : s.session i with
    | none =>
      unfold pending at hp
      rw [hs] at hp
      exact absurd rfl hp
    | some ss =>
      have hlen := pendingFor_length key ss.phase
      rw [pending_of_session hs] at hp ⊢
      rw [stake_of_session hs]
      unfold step
      simp only [exec, hs, raises]
      cases hphase : ss.phase with
      | delivering stage d =>
        rw [hphase] at hlen
        cases stage with
        | frame =>
          obtain ⟨p, hses, hend⟩ := disconnect_session s i ss true now
          rw [stake_of_session (by rw [hses, Function.update_self])]
          show _ + atStake p ≤ 2
          have hle : atStake p ≤ 1 := by
            rcases hend with ⟨d', rfl⟩ | rfl
            · exact Nat.le_refl 1
            · exact Nat.zero_le 1
          omega
        | connect | disconnect =>
          rw [stake_of_session (Function.update_self ..)]
          simp only [atStake]
          omega
      | preparing | receiving | acking | ended =>
        rw [hphase] at hp
        exact absurd rfl hp

/-! ### Over a run -/

/-- What a listener has got of a session, with the call on its way to it, came from there. -/
theorem received_run (lib : Libraries V) {s : Server V} (hsound : DeliveriesSound s)
    (key i : Nat) (es : List Event) :
    ((outputs (step lib) (seen lib) s es).filterMap (receivedBy key i) ++
      (run (step lib) s es).pending key i).Sublist
        (s.pending key i ++ (outputs (step lib) (seen lib) s es).filterMap (dispatchedBy i)) := by
  induction es generalizing s with
  | nil => exact (List.append_nil _).symm ▸ List.Sublist.refl _
  | cons e es ih =>
    have hhead : ((s.seen lib e).filterMap (receivedBy key i) ++
        (s.step lib e).pending key i).Sublist
          (s.pending key i ++ (s.seen lib e).filterMap (dispatchedBy i)) := by
      by_cases he : ∃ now, e = .raises i now
      · obtain ⟨now, rfl⟩ := he
        obtain ⟨asked, hasked, -, h⟩ := ledger_raises lib key i now s
        rw [h, List.nil_append]
        exact hasked.trans (List.sublist_append_right _ _)
      · obtain ⟨asked, hasked, -, h⟩ := ledger_step lib hsound key (i := i) (e := e)
          fun now hnow => he ⟨now, hnow⟩
        rw [h]
        exact (List.Sublist.refl _).append hasked
    have htail := ih (deliveriesSound_step lib hsound e)
    rw [outputs, List.filterMap_append, List.filterMap_append, run_cons, List.append_assoc,
      ← List.append_assoc (s.pending key i)]
    refine ((List.Sublist.refl _).append htail).trans ?_
    rw [← List.append_assoc]
    exact hhead.append (List.Sublist.refl _)

/-- The account of a registered listener in one step: what it gets is part of what it is due; it
gets all of that exactly if it is spared; and what it does not get is paid for. -/
theorem account_step (lib : Libraries V) {s : Server V} (hsound : DeliveriesSound s) {key : Nat}
    {reg : Registration} (hreg : s.listeners.registrations.get key = some reg) (i : Nat)
    (e : Event) :
    let got := (s.seen lib e).filterMap (receivedBy key i) ++ (s.step lib e).pending key i
    let due := s.pending key i ++ ((s.seen lib e).filterMap (dispatchedBy i)).filter (wants reg)
    got.Sublist due ∧ (got.length = due.length ↔ Spared key i s e) ∧
      due.length + (s.step lib e).stake i ≤ got.length + s.stake i := by
  intro got due
  by_cases he : ∃ now, e = .raises i now
  · obtain ⟨now, rfl⟩ := he
    obtain ⟨asked, -, hasked, h⟩ := ledger_raises lib key i now s
    have hgot : got = asked := h
    have hdue : due = s.pending key i ++ asked := by rw [hasked reg hreg]
    have hstake := stake_raises lib key i now s
    rw [hgot, hdue]
    refine ⟨List.sublist_append_right _ _, ?_, ?_⟩
    · unfold Spared strikes
      simp only [decide_true, true_imp_iff, List.length_append, ← List.length_eq_zero_iff]
      omega
    · rw [List.length_append]
      omega
  · obtain ⟨asked, -, hasked, h⟩ := ledger_step lib hsound key (i := i) (e := e)
      fun now hnow => he ⟨now, hnow⟩
    have hgot : got = due := h.trans (by rw [hasked reg hreg])
    have hstake := stake_step lib s e i
    rw [hgot]
    refine ⟨List.Sublist.refl _, iff_of_true rfl fun hstrikes => ?_, by omega⟩
    cases e with
    | raises j now => exact absurd ⟨now, by rw [of_decide_eq_true hstrikes]⟩ he
    | _ => cases hstrikes

/-- The account of a registered listener over a run. -/
theorem account_run (lib : Libraries V) {s : Server V} (hsound : DeliveriesSound s) {key : Nat}
    {reg : Registration} (hreg : s.listeners.registrations.get key = some reg) (i : Nat)
    {es : List Event} (hkeep : .unsubscribe key ∉ es) :
    let log := outputs (step lib) (seen lib) s es
    let got := log.filterMap (receivedBy key i) ++ (run (step lib) s es).pending key i
    let due := s.pending key i ++ (log.filterMap (dispatchedBy i)).filter (wants reg)
    got.Sublist due ∧ (got.length = due.length ↔ Along (step lib) (Spared key i) s es) ∧
      due.length + (run (step lib) s es).stake i ≤ got.length + s.stake i := by
  induction es generalizing s with
  | nil =>
    intro log got due
    have hgot : got = due := (List.append_nil _).symm
    rw [hgot]
    exact ⟨List.Sublist.refl _, iff_of_true rfl trivial, Nat.le_refl _⟩
  | cons e es ih =>
    intro log got due
    obtain ⟨hsub, hiff, hpaid⟩ := account_step lib hsound hreg i e
    obtain ⟨hsub', hiff', hpaid'⟩ := ih (deliveriesSound_step lib hsound e)
      (registered_step hreg fun he => hkeep (he ▸ List.mem_cons_self))
      fun h => hkeep (List.mem_cons_of_mem _ h)
    set head := (s.seen lib e).filterMap (receivedBy key i)
    set owed := ((s.seen lib e).filterMap (dispatchedBy i)).filter (wants reg)
    set log' := outputs (step lib) (seen lib) (s.step lib e) es
    have hgot : got = head ++ (log'.filterMap (receivedBy key i) ++
        (run (step lib) (s.step lib e) es).pending key i) := by
      show (s.seen lib e ++ log').filterMap _ ++ _ = _
      rw [List.filterMap_append, List.append_assoc]
      rfl
    have hdue : due = s.pending key i ++ owed ++ (log'.filterMap (dispatchedBy i)).filter
        (wants reg) := by
      show _ ++ ((s.seen lib e ++ log').filterMap _).filter _ = _
      rw [List.filterMap_append, List.filter_append, List.append_assoc]
    have hle := hsub.length_le
    have hle' := hsub'.length_le
    rw [hgot, hdue]
    refine ⟨?_, ?_, ?_⟩
    · refine ((List.Sublist.refl head).append hsub').trans ?_
      rw [← List.append_assoc]
      exact hsub.append (List.Sublist.refl _)
    · show _ ↔ Spared key i s e ∧ Along (step lib) (Spared key i) (s.step lib e) es
      rw [← hiff, ← hiff']
      simp only [List.length_append] at hle hle' ⊢
      omega
    · simp only [List.length_append, run_cons] at hle hle' hpaid hpaid' ⊢
      omega

/-! ## Top theorems (proved from the lemmas above) -/

/-- **What a listener loses.**  From a state in which the listener is registered and the session
has not begun, and whatever raises then: what the listener has received of the session, with the
call on its way to it, is a part, in order, of what the session has dispatched that the listener
wants.  At most two calls are missing, and none exactly if no exception struck the session while
one was on its way to the listener. -/
theorem listener_lossless_iff (lib : Libraries V) (n : Nat) (es₀ es : List Event) (key i : Nat)
    (reg : Registration)
    (hreg : (after lib n es₀).listeners.registrations.get key = some reg)
    (hnew : (after lib n es₀).session i = none) (hkeep : .unsubscribe key ∉ es) :
    let s := after lib n es₀
    let log := outputs (step lib) (seen lib) s es
    let got := log.filterMap (receivedBy key i) ++ (run (step lib) s es).pending key i
    let wanted := (log.filterMap (dispatchedBy i)).filter (wants reg)
    got.Sublist wanted ∧ wanted.length ≤ got.length + 2 ∧
      (got = wanted ↔ Along (step lib) (Spared key i) s es) := by
  intro s log got wanted
  obtain ⟨hsub, hiff, hpaid⟩ := account_run lib (deliveriesSound_run lib n es₀) hreg i hkeep
  have hpend : s.pending key i = [] := by
    unfold pending
    rw [hnew]
  have hstake : s.stake i = 2 := by
    unfold stake
    rw [hnew]
    rfl
  rw [hpend, List.nil_append] at hsub hiff hpaid
  rw [hstake] at hpaid
  refine ⟨hsub, (Nat.le_add_right _ _).trans hpaid, ?_⟩
  rw [← hiff]
  exact ⟨congrArg List.length, hsub.eq_of_length⟩

/-- Two exceptions, each while the session is suspended in the first of two listeners. -/
def struckTwice : List Event :=
  [.request 0 sampleRequest, .prepared 0 5, .returned 0, .returned 0,
    .message 0 ⟨.binary, emptyFrame⟩ 6, .sent 0 true, .raises 0 7, .raises 0 8]

theorem struckTwice_loses_two :
    let s : Server Unit := after sampleLibraries 1
      [.addListener 7 .none .none .none, .addListener 8 .none .none .none]
    let log := outputs (step sampleLibraries) (seen sampleLibraries) s struckTwice
    (log.filterMap (receivedBy 1 0)).map Call.origin = [.connect] ∧
      (log.filterMap (dispatchedBy 0)).map Call.origin = [.connect, .frame, .disconnect] ∧
      ¬ Along (step sampleLibraries) (Spared 1 0) s struckTwice := by
  intro s log
  obtain ⟨-, -, hiff⟩ := listener_lossless_iff sampleLibraries 1
    [.addListener 7 .none .none .none, .addListener 8 .none .none .none] struckTwice 1 0
    ⟨8, none, none, none⟩ rfl rfl (by simp [struckTwice])
  refine ⟨by decide +kernel, by decide +kernel, fun h => ?_⟩
  have hlen := congrArg List.length (hiff.mpr h)
  revert hlen
  decide +kernel

/-- **A loop is never behind a listener.**  As long as a stream is open and its queue had room
whenever something was dispatched, it holds what any listener has received of any session since
the stream was opened, in that order, but for the call that was on its way to the listener then. -/
theorem iterator_never_behind (lib : Libraries V) (n : Nat) (hn : 0 < n) (es₁ es₂ : List Event)
    (key i : Nat)
    (hq : (after lib n es₁).streams.created ∈
      (after lib n (es₁ ++ .records :: es₂)).streams.queues)
    (hroom : Along (step lib) (KeepsUp lib n (after lib n es₁).streams.created) (init n)
      (es₁ ++ .records :: es₂)) :
    let q := (after lib n es₁).streams.created
    let s := after lib n (es₁ ++ .records :: es₂)
    let since := outputs (step lib) (seen lib) (after lib n (es₁ ++ [.records])) es₂
    let held := ((s.streams.stream q).yielded ++ (s.streams.stream q).queued).filter
      fun call => call.session = i
    (since.filterMap (receivedBy key i) ++ s.pending key i).Sublist
      ((after lib n es₁).pending key i ++ held) := by
  intro q s since held
  have hheld : held = since.filterMap (dispatchedBy i) := by
    rw [dispatchedBy_eq]
    exact congrArg (List.filter _) (((held_since lib n es₁ es₂).2 hn hq).mpr hroom)
  have hfirst : after lib n (es₁ ++ [.records]) = (after lib n es₁).step lib .records := run_snoc ..
  have hpend : (after lib n (es₁ ++ [.records])).pending key i = (after lib n es₁).pending key i :=
    pending_congr (by rw [hfirst]; rfl)
  have hs : s = run (step lib) (after lib n (es₁ ++ [.records])) es₂ := after_records ..
  rw [hheld, hs, ← hpend]
  exact received_run lib (deliveriesSound_run lib n _) key i es₂

/-- A stream is opened while a session is suspended in a listener. -/
def openedLate : List Event :=
  [.addListener 7 .none .none .none, .addListener 8 .none .none .none, .request 0 sampleRequest,
    .prepared 0 5]

theorem openedLate_ahead :
    let s : Server Unit := after sampleLibraries 1 (openedLate ++ .records ::
      [.returned 0, .returned 0, .finished 0 6])
    let since := outputs (step sampleLibraries) (seen sampleLibraries)
      (after sampleLibraries 1 (openedLate ++ [.records])) [.returned 0, .returned 0, .finished 0 6]
    (since.filterMap (receivedBy 1 0)).map Call.origin = [.connect] ∧
      (since.filterMap (receivedBy 1 0) ++ s.pending 1 0).Sublist
        ((after sampleLibraries 1 openedLate).pending 1 0 ++
          ((s.streams.stream 0).yielded ++ (s.streams.stream 0).queued).filter
            fun call => call.session = 0) := by
  intro s since
  have hq : 0 ∈ s.streams.queues := by decide +kernel
  have hroom := ((held_since sampleLibraries 1 openedLate _).2 (by decide) hq).mp rfl
  exact ⟨by decide +kernel, iterator_never_behind sampleLibraries 1 (by decide) openedLate _ 1 0 hq
    hroom⟩

end Server

end FleetTelemetry
