import FleetTelemetry.Server.ConnectionHistory

/-!
# What an ended session leaves behind

`_connect` is awaited before the `try` block, so an exception that surfaces while a
listener handles the CONNECTED record ends `_handle` without `_disconnect`.  Where
that never hits a session that holds its registry slot (`CleanExit`), every ended
session is `Cleaned`; and the condition is exact:

    Along (step lib) CleanExit (init n) es ↔ ∀ es₁ <+: es, Cleaned …      (cleaned_iff)
-/

namespace FleetTelemetry

open Runs

namespace Server

variable {V : Type} (lib : Libraries V)

/-- No exception surfaces in the CONNECTED dispatch of a session that holds its slot. -/
def CleanExit (s : Server V) : Event → Prop
  | .raises i _ => ∀ ss d, s.session i = some ss → ss.phase = .delivering .connect d →
      s.holder ss.vin ≠ some i
  | _ => True

/-- Another session registered for `vin` while `i` was registered and had not disconnected. -/
def Replaced (i : Nat) (vin : String) (log : List (Obs V)) : Prop :=
  ∃ a j b, log = a ++ .registered j vin :: b ∧ .registered i vin ∈ a ∧ .disconnecting i vin ∉ a

/-- A synthesized record of session `i` for `vin` was fanned out. -/
def Announced (origin : Origin) (status : ConnectivityEvent) (i : Nat) (vin : String)
    (log : List (Obs V)) : Prop :=
  ∃ call queues, .dispatched call queues ∈ log ∧ call.session = i ∧ call.origin = origin ∧
    call.record.vin = vin ∧ call.record.status = some status

/-- An ended session holds no slot, and where its CONNECTED was fanned out and no later session
replaced it, so was its DISCONNECTED. -/
def Cleaned (s : Server V) (log : List (Obs V)) : Prop :=
  ∀ i ss raised, s.session i = some ss → ss.phase = .ended raised →
    (∀ vin, s.holder vin ≠ some i) ∧
    (∀ vin, Announced .connect .connected i vin log →
      Replaced i vin log ∨ Announced .disconnect .disconnected i vin log)

/-! ## Lemmas -/

variable {lib}

theorem Replaced.append {i : Nat} {vin : String} {log : List (Obs V)} (h : Replaced i vin log)
    (obs : List (Obs V)) : Replaced i vin (log ++ obs) := by
  obtain ⟨a, j, b, rfl, h1, h2⟩ := h
  exact ⟨a, j, b ++ obs, by simp, h1, h2⟩

theorem Announced.append {origin : Origin} {status : ConnectivityEvent} {i : Nat} {vin : String}
    {log : List (Obs V)} (h : Announced origin status i vin log) (obs : List (Obs V)) :
    Announced origin status i vin (log ++ obs) := by
  obtain ⟨call, queues, hm, h⟩ := h
  exact ⟨call, queues, List.mem_append_left _ hm, h⟩

/-- Who holds a slot keeps it, is replaced, or disconnects with a record. -/
theorem step_holder (lib : Libraries V) {s : Server V} {i : Nat} {vin : String}
    (h : s.holder vin = some i) (e : Event) :
    (s.step lib e).holder vin = some i ∨ (∃ j b, s.seen lib e = .registered j vin :: b) ∨
      Announced .disconnect .disconnected i vin (s.seen lib e) := by
  have hm := step_move lib s e
  generalize s.step lib e = s' at hm ⊢
  generalize s.seen lib e = obs at hm ⊢
  cases hm with
  | idle => exact .inl h
  | environment e he => exact .inl (by unfold holder; rw [(environment_frame lib s he).1]; exact h)
  | opened | quiet | frame | resume => exact .inl h
  | connect j ss now hs hp =>
    by_cases hv : ss.vin = vin
    · exact .inr (.inl ⟨j, _, by rw [← hv]; rfl⟩)
    · left
      rw [(connect_registry s j ss now).1, Function.update_of_ne (fun h => hv h.symm), h]
  | disconnect e j ss raised now pre hs hl =>
    by_cases hj : s.holder ss.vin = some j
    · by_cases hv : ss.vin = vin
      · subst hv
        obtain rfl : i = j := by rw [h] at hj; exact Option.some.inj hj
        refine .inr (.inr ⟨⟨i, .disconnect, connectivityRecord ss.vin .disconnected now⟩,
          s.streams.queues, ?_, rfl, rfl, rfl, rfl⟩)
        rw [disconnect_of_holder s i ss hj]
        exact List.mem_append_right _ (List.mem_cons_of_mem _ List.mem_cons_self)
      · left
        rw [(disconnect_registry s j ss raised now).1, TokenRegistry.step_release, if_pos hj,
          Function.update_of_ne (fun h => hv h.symm), h]
    · exact .inl (by rw [disconnect_of_not_holder s j ss hj]; exact h)

theorem registered_seen {s : Server V} {e : Event} {i : Nat} {vin : String}
    (h : .registered i vin ∈ s.seen lib e) : (s.step lib e).holder vin = some i := by
  have hmem : .register vin i ∈ s.registryOps lib e := List.mem_filterMap.mpr ⟨_, h, rfl⟩
  obtain ⟨j, ss, -, ⟨now, hop, hstep⟩ | ⟨raised, now, pre, hop, -⟩⟩ := registryOp_cases hmem
  · obtain ⟨rfl, rfl⟩ := TokenRegistry.Op.register.inj hop
    rw [hstep, (connect_registry s i ss now).1, Function.update_self]
  · cases hop

/-- A registered session holds its slot, was replaced, or has announced its end. -/
theorem registered_settled (n : Nat) (es : List Event) {i : Nat} {vin : String}
    (h : .registered i vin ∈ log lib n es) :
    (after lib n es).holder vin = some i ∨ Replaced i vin (log lib n es) ∨
      Announced .disconnect .disconnected i vin (log lib n es) := by
  induction es using List.reverseRecOn with
  | nil => cases h
  | append_singleton es e ih =>
    have hlog : log lib n (es ++ [e]) = log lib n es ++ (after lib n es).seen lib e :=
      outputs_snoc _ _ _ _ _
    have hafter : after lib n (es ++ [e]) = (after lib n es).step lib e := run_snoc _ _ _ _
    rw [hlog] at h ⊢
    rw [hafter]
    rcases List.mem_append.mp h with h | h
    · rcases ih h with hh | hr | ha
      · rcases step_holder lib hh e with h' | ⟨j, b, hb⟩ | ha
        · exact .inl h'
        · exact .inr (.inl ⟨_, j, b, by rw [hb], h, ((holder_eq_some_iff n es vin i).mp hh).2⟩)
        · obtain ⟨call, queues, hm, hc⟩ := ha
          exact .inr (.inr ⟨call, queues, List.mem_append_right _ hm, hc⟩)
      · exact .inr (.inl (hr.append _))
      · exact .inr (.inr (ha.append _))
    · exact .inl (registered_seen h)

/-- The CONNECTED record follows the registration. -/
theorem registered_of_announced (s : Server V) (es : List Event) {i : Nat} {vin : String}
    {status : ConnectivityEvent}
    (h : Announced .connect status i vin (outputs (step lib) (seen lib) s es)) :
    .registered i vin ∈ outputs (step lib) (seen lib) s es := by
  induction es generalizing s with
  | nil => obtain ⟨_, _, hm, -⟩ := h; cases hm
  | cons e es ih =>
    obtain ⟨call, queues, hmem, hi, ho, hv, hst⟩ := h
    rcases List.mem_append.mp hmem with hmem | hmem
    · refine List.mem_append_left _ ?_
      cases (dispatched_cases hmem).2 with
      | connect j ss now hs hseen =>
        obtain rfl : j = i := hi
        obtain rfl : ss.vin = vin := hv
        exact hseen
      | frame | disconnect => cases ho
    · exact List.mem_append_right _ (ih _ ⟨call, queues, hmem, hi, ho, hv, hst⟩)

/-- In the `try` block, or in the dispatch before it. -/
def Holding (p : Phase V) : Prop := Live p ∨ ∃ d, p = .delivering .connect d

/-- Whoever holds a slot is `Holding`. -/
def SlotsLive (s : Server V) : Prop :=
  ∀ vin i, s.holder vin = some i → ∃ ss, s.session i = some ss ∧ ss.vin = vin ∧ Holding ss.phase

theorem holding_walk {stage : Stage} (h : stage.origin ≠ .disconnect) (d : Option (Delivery V)) :
    Holding (walk stage d) := by
  cases stage with
  | connect =>
    cases d with
    | none => exact .inl trivial
    | some d => exact .inr ⟨d, rfl⟩
  | frame => cases d <;> exact .inl trivial
  | disconnect raised => exact absurd rfl h

theorem Quiet.holding {vin : String} {i : Nat} {e : Event} {p p' : Phase V} {obs : List (Obs V)}
    (h : Quiet lib vin i e p p' obs) :
    Holding p' ∨ ((∃ now, e = .raises i now) ∧ ¬ Live p) := by
  cases h with
  | skipped | acknowledged | unsent | unparsable => exact .inl (.inl trivial)
  | abandoned p now hp hend => exact .inr ⟨⟨now, rfl⟩, hp⟩

theorem SlotsLive.of_session {s : Server V} (h : SlotsLive s) {vin : String} {i : Nat}
    {ss : Session V} (hi : s.holder vin = some i) (hs : s.session i = some ss) :
    ss.vin = vin ∧ Holding ss.phase := by
  obtain ⟨ss', hss, hrest⟩ := h vin i hi
  rw [hs] at hss
  obtain rfl := Option.some.inj hss
  exact hrest

/-- A step that gives session `j` a new phase, the slots as they were. -/
theorem SlotsLive.update {s s' : Server V} (h : SlotsLive s) (hh : s'.holder = s.holder) {j : Nat}
    {ss : Session V} {p : Phase V} (hj : s.session j = some ss)
    (hs : s'.session = Function.update s.session j (some { ss with phase := p }))
    (hp : Holding ss.phase → s.holder ss.vin = some j → Holding p) : SlotsLive s' := by
  intro vin i hi
  rw [hh] at hi
  rw [hs]
  by_cases hij : i = j
  · subst hij
    obtain ⟨rfl, hph⟩ := h.of_session hi hj
    exact ⟨_, Function.update_self .., rfl, hp hph hi⟩
  · obtain ⟨ss', hss, hrest⟩ := h vin i hi
    exact ⟨ss', by rw [Function.update_of_ne hij, hss], hrest⟩

theorem slotsLive_step {s : Server V} (h : SlotsLive s) {e : Event} (hc : CleanExit s e) :
    SlotsLive (s.step lib e) := by
  have hm := step_move lib s e
  generalize s.step lib e = s' at hm ⊢
  generalize s.seen lib e = obs at hm
  cases hm with
  | idle => exact h
  | environment e he =>
    obtain ⟨hcon, hses⟩ := environment_frame lib s he
    intro vin i hi
    rw [hses]
    exact h vin i (by unfold holder at hi ⊢; rwa [hcon] at hi)
  | opened j request ss obs hnew hphase hobs =>
    intro vin i hi
    obtain ⟨ss', hss, hrest⟩ := h vin i hi
    have hij : i ≠ j := by rintro rfl; rw [hnew] at hss; cases hss
    exact ⟨ss', by rw [← hss]; exact Function.update_of_ne hij .., hrest⟩
  | quiet e j ss p obs hs hq =>
    refine h.update rfl hs rfl fun hph hj => ?_
    rcases hq.holding with hp | ⟨⟨now, rfl⟩, hl⟩
    · exact hp
    · rcases hph with hl' | ⟨d, hd⟩
      · exact absurd hl' hl
      · exact absurd hj (hc ss d hs hd)
  | connect j ss now hs hp =>
    intro vin i hi
    rw [(connect_registry s j ss now).1, Function.update_apply] at hi
    by_cases hv : vin = ss.vin
    · rw [if_pos hv] at hi
      obtain rfl := Option.some.inj hi
      exact ⟨_, Function.update_self .., hv.symm, holding_walk (by decide) _⟩
    · rw [if_neg hv] at hi
      obtain ⟨ss', hss, hrest⟩ := h vin i hi
      have hij : i ≠ j := by
        rintro rfl
        have hph := (h.of_session hi hs).2
        rw [hp] at hph
        rcases hph with hl | ⟨d, hd⟩
        · exact hl
        · cases hd
      exact ⟨ss', by rw [← hss]; exact Function.update_of_ne hij .., hrest⟩
  | frame j ss f record hs hp hr => exact h.update rfl hs rfl fun _ _ => holding_walk (by decide) _
  | disconnect e j ss raised now pre hs hl =>
    obtain ⟨p, hses, -⟩ := disconnect_session s j ss raised now
    intro vin i hi
    rw [(disconnect_registry s j ss raised now).1, TokenRegistry.step_release] at hi
    have hold : s.holder vin = some i ∧ i ≠ j := by
      by_cases hj : s.holder ss.vin = some j
      · rw [if_pos hj, Function.update_apply] at hi
        split at hi
        · cases hi
        · next hv =>
          refine ⟨hi, ?_⟩
          rintro rfl
          exact hv (h.of_session hi hs).1.symm
      · rw [if_neg hj] at hi
        refine ⟨hi, ?_⟩
        rintro rfl
        exact hj ((h.of_session hi hs).1 ▸ hi)
    obtain ⟨ss', hss, hrest⟩ := h vin i hold.1
    exact ⟨ss', by rw [hses, Function.update_of_ne hold.2, hss], hrest⟩
  | resume j ss stage d hs hp =>
    refine h.update rfl hs rfl fun hph _ => holding_walk ?_ _
    rw [hp] at hph
    cases stage with
    | disconnect raised =>
      rcases hph with hl | ⟨d', hd⟩
      · exact absurd hl id
      · cases hd
    | connect | frame => decide

theorem cleaned_of_slotsLive {n : Nat} {es : List Event} (h : SlotsLive (after lib n es)) :
    Cleaned (after lib n es) (log lib n es) := by
  intro i ss raised hs hp
  have hnot (vin : String) : (after lib n es).holder vin ≠ some i := by
    intro hi
    have hph := (h.of_session hi hs).2
    rw [hp] at hph
    rcases hph with hl | ⟨d, hd⟩
    · exact hl
    · cases hd
  refine ⟨hnot, fun vin ha => ?_⟩
  exact (registered_settled n es (registered_of_announced _ _ ha)).resolve_left (hnot vin)

/-! ## Top theorems (proved from the lemmas above) -/

/-- **Clean-up.**  Every state of a run has every ended session cleaned up exactly if no exception
surfaces in the CONNECTED dispatch of a session that still holds its registry slot. -/
theorem cleaned_iff (lib : Libraries V) (n : Nat) (es : List Event) :
    Along (step lib) CleanExit (init n) es ↔
      ∀ es₁, es₁ <+: es → Cleaned (after lib n es₁) (log lib n es₁) := by
  constructor
  · rintro h es₁ ⟨es₂, rfl⟩
    rw [along_append] at h
    have h0 : SlotsLive (init n : Server V) := fun vin i hi => by cases hi
    exact cleaned_of_slotsLive
      (Along.invariant _ _ (I := SlotsLive) (fun _ _ h hc => slotsLive_step h hc) h0 h.1)
  · intro h
    induction es using List.reverseRecOn with
    | nil => trivial
    | append_singleton es e ih =>
      rw [along_snoc]
      refine ⟨ih fun es₁ hp => h es₁ (hp.trans (List.prefix_append _ _)), ?_⟩
      cases e with
      | raises i now =>
        intro ss d hs hp hi
        have hc := h _ (List.prefix_refl _)
        have hstep : after lib n (es ++ [.raises i now]) =
            (after lib n es).goto i ss (.ended true) := by
          unfold after
          rw [run_snoc]
          show ((run (step lib) (init n) es).exec lib (.raises i now)).1 = _
          simp only [exec, raises, show (run (step lib) (init n) es).session i = some ss from hs, hp]
        rw [hstep] at hc
        exact (hc i { ss with phase := .ended true } true (Function.update_self ..) rfl).1 ss.vin hi
      | _ => trivial

/-- A listener of connectivity records suspends, and the handler is cancelled there. -/
def cancelledInConnect : List Event :=
  [.addListener 0 .none (.value "connectivity") .none, .request 0 sampleRequest, .prepared 0 5,
    .raises 0 6]

theorem cancelledInConnect_not_cleaned :
    ¬ Cleaned (after sampleLibraries 1 cancelledInConnect)
      (log sampleLibraries 1 cancelledInConnect) := by
  intro h
  have hs : ((after sampleLibraries 1 cancelledInConnect).session 0).isSome = true := by decide
  obtain ⟨ss, hss⟩ := Option.isSome_iff_exists.mp hs
  have hp : ss.phase = .ended true := by
    have : ((after sampleLibraries 1 cancelledInConnect).session 0).map Session.phase =
        some (.ended true) := rfl
    rw [hss] at this
    exact Option.some.inj this
  exact (h 0 ss true hss hp).1 "V" (by decide)

end Server

end FleetTelemetry
