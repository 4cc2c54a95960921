import FleetTelemetry.Server.ConnectionHistory

/-!
# Connecting after `stop`

`_handle` reads `_closed` once, before `ws.prepare`.  On a closed server no request
comes to `ws.prepare` any more (`preparing_of_step`), but one that is in it already is
registered when it returns:

    (∃ o ∈ outputs s es, Connects o) ↔ ∃ i, s.Preparing i ∧ Prepares i es     (connects_iff)
-/

namespace FleetTelemetry

open Runs

namespace Server

variable {V : Type} (lib : Libraries V)

/-! ## Algorithm -/

/-- Session `i` waits in `ws.prepare`. -/
def Preparing (s : Server V) (i : Nat) : Prop := ∃ ss, s.session i = some ss ∧ ss.phase = .preparing

/-- The `ws.prepare` that session `i` waits in returns: no exception surfaces there before. -/
def Prepares (i : Nat) (es : List Event) : Prop :=
  ∃ es₁ now es₂, es = es₁ ++ .prepared i now :: es₂ ∧ ∀ now', .raises i now' ∉ es₁

/-- A session inserts its `Connection`, or a synthesized record says CONNECTED. -/
def Connects : Obs V → Prop
  | .registered _ _ => True
  | .dispatched call _ => call.origin ≠ .frame ∧ call.record.status = some .connected
  | _ => False

/-! ## Lemmas -/

variable {lib}

theorem not_prepares_nil (i : Nat) : ¬ Prepares i [] := by
  rintro ⟨es₁, now, es₂, h, -⟩
  cases es₁ <;> cases h

theorem prepares_cons (i : Nat) (e : Event) (es : List Event) :
    Prepares i (e :: es) ↔
      (∃ now, e = .prepared i now) ∨ ((∀ now, e ≠ .raises i now) ∧ Prepares i es) := by
  constructor
  · rintro ⟨es₁, now, es₂, heq, hno⟩
    cases es₁ with
    | nil => exact .inl ⟨now, (List.cons.inj heq).1⟩
    | cons e' es₁ =>
      obtain ⟨rfl, rfl⟩ := List.cons.inj heq
      refine .inr ⟨?_, es₁, now, es₂, rfl, fun now' h => hno now' (List.mem_cons_of_mem _ h)⟩
      rintro now' rfl
      exact hno now' List.mem_cons_self
  · rintro (⟨now, rfl⟩ | ⟨hne, es₁, now, es₂, rfl, hno⟩)
    · exact ⟨[], now, es, rfl, fun _ => List.not_mem_nil⟩
    · refine ⟨e :: es₁, now, es₂, rfl, fun now' h => ?_⟩
      rcases List.mem_cons.mp h with h | h
      · exact hne now' h.symm
      · exact hno now' h

/-! ### What is seen -/

theorem not_connects_invoked {d : Option (Delivery V)} : ∀ o ∈ invoked d, ¬ Connects o := by
  intro o ho
  cases d with
  | none => cases ho
  | some d => obtain rfl := List.mem_singleton.mp ho; exact id

theorem Quiet.not_connects {vin : String} {i : Nat} {e : Event} {p p' : Phase V}
    {obs : List (Obs V)} (h : Quiet lib vin i e p p' obs) : ∀ o ∈ obs, ¬ Connects o := by
  cases h <;> simp [Connects]

theorem Leaves.not_connects {i : Nat} {e : Event} {p : Phase V} {raised : Bool}
    {obs : List (Obs V)} (h : Leaves lib i e p raised obs) : ∀ o ∈ obs, ¬ Connects o := by
  cases h <;> simp [Connects]

/-- A dispatch that is not of `_connect` connects nothing. -/
theorem dispatch_not_connects (s : Server V) (i : Nat) (ss : Session V) (stage : Stage)
    (record : Record V) (h : stage.origin = .frame ∨ record.status ≠ some .connected) :
    ∀ o ∈ (s.dispatch i ss stage record).2, ¬ Connects o := by
  intro o ho
  rcases List.mem_cons.mp ho with rfl | ho
  · rintro ⟨horigin, hstatus⟩
    rcases h with h | h
    · exact horigin h
    · exact h hstatus
  · exact not_connects_invoked o ho

theorem disconnect_not_connects (s : Server V) (i : Nat) (ss : Session V) (raised : Bool)
    (now : Nat) : ∀ o ∈ (s.disconnect i ss raised now).2, ¬ Connects o := by
  intro o ho
  by_cases h : s.holder ss.vin = some i
  · rw [disconnect_of_holder s i ss h] at ho
    rcases List.mem_cons.mp ho with rfl | ho
    · exact id
    · exact dispatch_not_connects _ i ss _ _ (.inr (by intro h; cases h)) o ho
  · rw [disconnect_of_not_holder s i ss h] at ho
    obtain rfl := List.mem_singleton.mp ho
    exact id

/-- **Only a return of `ws.prepare` connects.** -/
theorem connects_seen (lib : Libraries V) (s : Server V) (e : Event) :
    (∃ o ∈ s.seen lib e, Connects o) ↔ ∃ i now, e = .prepared i now ∧ s.Preparing i := by
  constructor
  · rintro ⟨o, ho, hc⟩
    have hm := step_move lib s e
    generalize s.step lib e = s' at hm
    generalize s.seen lib e = obs at hm ho
    cases hm with
    | idle => cases ho
    | environment => cases ho
    | opened i request ss obs hnew hphase hobs =>
      obtain ⟨r, rfl⟩ := hobs o ho
      cases hc
    | quiet e i ss p obs h hq => exact absurd hc (hq.not_connects o ho)
    | connect i ss now h hp => exact ⟨i, now, rfl, ss, h, hp⟩
    | frame i ss f record h hp hr =>
      rcases List.mem_cons.mp ho with rfl | ho
      · cases hc
      · exact absurd hc (dispatch_not_connects s i ss .frame record (.inl rfl) o ho)
    | disconnect e i ss raised now pre h hl =>
      rcases List.mem_append.mp ho with ho | ho
      · exact absurd hc (hl.not_connects o ho)
      · exact absurd hc (disconnect_not_connects s i ss raised now o ho)
    | resume i ss stage d h hp => exact absurd hc (not_connects_invoked o ho)
  · rintro ⟨i, now, rfl, ss, h, hp⟩
    refine ⟨.registered i ss.vin, ?_, trivial⟩
    unfold seen
    simp only [exec, h, hp]
    exact List.mem_cons_self

/-! ### Steps of a closed server -/

theorem closed_step (lib : Libraries V) {s : Server V} (h : s.closed = true) (e : Event) :
    (s.step lib e).closed = true := by
  by_cases he : Environment e
  · unfold step
    cases e with
    | cleanedUp => simp only [exec, h]; rfl
    | stop => rfl
    | addListener | unsubscribe | records | onStream => exact h
    | request | prepared | returned | message | sent | finished | raises => cases he
  · rw [(sessions_frame lib s he).1]
    exact h

/-- A session given a phase past `preparing` is not in it, and no other is touched. -/
theorem preparing_update {s s' : Server V} {j : Nat} {ss : Session V}
    (hs : s'.session = Function.update s.session j (some ss)) (hp : ss.phase ≠ .preparing)
    (i : Nat) : s'.Preparing i ↔ s.Preparing i ∧ i ≠ j := by
  unfold Preparing
  rw [hs]
  by_cases hij : i = j
  · subst hij
    rw [Function.update_self]
    constructor
    · rintro ⟨ss', hss, hp'⟩
      obtain rfl := Option.some.inj hss
      exact absurd hp' hp
    · exact fun h => absurd rfl h.2
  · rw [Function.update_of_ne hij]
    exact ⟨fun h => ⟨h, hij⟩, fun h => h.1⟩

/-- **A closed server lets no request through to `ws.prepare`.** -/
theorem preparing_of_step {s : Server V} (hc : s.closed = true) (e : Event) {i : Nat}
    (h : (s.step lib e).Preparing i) : s.Preparing i := by
  by_cases hreq : ∃ j request, e = .request j request
  · obtain ⟨j, request, rfl⟩ := hreq
    unfold step at h
    simp only [exec] at h
    split at h
    · unfold handle at h
      rw [if_pos hc] at h
      exact ((preparing_update (s := s) rfl (by intro h; cases h) i).mp h).1
    · exact h
  · have hm := step_move lib s e
    generalize s.step lib e = s' at hm h
    generalize s.seen lib e = obs at hm
    cases hm with
    | idle => exact h
    | environment e he =>
      unfold Preparing at h
      rw [(environment_frame lib s he).2] at h
      exact h
    | opened j request => exact absurd ⟨j, request, rfl⟩ hreq
    | quiet e j ss p obs hs hq => exact ((preparing_update rfl hq.ne_preparing i).mp h).1
    | connect j ss now hs hp => exact ((preparing_update rfl (walk_ne_preparing _ _) i).mp h).1
    | frame j ss f record hs hp hr =>
      exact ((preparing_update rfl (walk_ne_preparing _ _) i).mp h).1
    | disconnect e j ss raised now pre hs hl =>
      obtain ⟨p, hses, hp⟩ := disconnect_session s j ss raised now
      have hne : p ≠ .preparing := by rcases hp with ⟨d, rfl⟩ | rfl <;> intro h <;> cases h
      exact ((preparing_update hses hne i).mp h).1
    | resume j ss stage d hs hp => exact ((preparing_update rfl (walk_ne_preparing _ _) i).mp h).1

/-- A request stays in `ws.prepare` until that returns or raises. -/
theorem preparing_kept (lib : Libraries V) {s : Server V} {e : Event} {i : Nat}
    (h : s.Preparing i) (hprep : ∀ now, e ≠ .prepared i now) (hraise : ∀ now, e ≠ .raises i now) :
    (s.step lib e).Preparing i := by
  obtain ⟨ss, hss, hpre⟩ := h
  by_cases hof : sessionOf e = some i
  · cases e with
    | prepared j now =>
      obtain rfl := Option.some.inj hof
      exact absurd rfl (hprep now)
    | raises j now =>
      obtain rfl := Option.some.inj hof
      exact absurd rfl (hraise now)
    | request | returned | message | sent | finished =>
      -- not what a session in `ws.prepare` waits for
      obtain rfl := Option.some.inj hof
      unfold step
      simp only [exec, hss, hpre]
      exact ⟨ss, hss, hpre⟩
    | addListener | unsubscribe | records | onStream | stop | cleanedUp => cases hof
  · exact ⟨ss, by rw [session_of_other lib s hof, hss], hpre⟩

/-- An exception in `ws.prepare` ends the session. -/
theorem not_preparing_of_raises {s : Server V} (hc : s.closed = true) (i now : Nat) :
    ¬ (s.step lib (.raises i now)).Preparing i := by
  intro h
  obtain ⟨ss, hss, hpre⟩ := preparing_of_step hc _ h
  unfold step at h
  simp only [exec, hss, raises, hpre] at h
  exact ((preparing_update (s := s) rfl (by intro h; cases h) i).mp h).2 rfl

/-! ### Runs of a closed server -/

/-- **What connects on a closed server is what was in `ws.prepare` before.** -/
theorem connects_iff (lib : Libraries V) {s : Server V} (hc : s.closed = true) (es : List Event) :
    (∃ o ∈ outputs (step lib) (seen lib) s es, Connects o) ↔
      ∃ i, s.Preparing i ∧ Prepares i es := by
  induction es generalizing s with
  | nil =>
    constructor
    · rintro ⟨o, ho, -⟩
      cases ho
    · rintro ⟨i, -, h⟩
      exact absurd h (not_prepares_nil i)
  | cons e es ih =>
    have ih := ih (closed_step lib hc e)
    rw [outputs]
    constructor
    · rintro ⟨o, ho, hconn⟩
      rcases List.mem_append.mp ho with ho | ho
      · obtain ⟨i, now, rfl, hpre⟩ := (connects_seen lib s e).mp ⟨o, ho, hconn⟩
        exact ⟨i, hpre, (prepares_cons i _ es).mpr (.inl ⟨now, rfl⟩)⟩
      · obtain ⟨i, hpre, hprep⟩ := ih.mp ⟨o, ho, hconn⟩
        refine ⟨i, preparing_of_step hc e hpre, (prepares_cons i e es).mpr (.inr ⟨?_, hprep⟩)⟩
        rintro now rfl
        exact not_preparing_of_raises hc i now hpre
    · rintro ⟨i, hpre, hprep⟩
      by_cases he : ∃ now, e = .prepared i now
      · obtain ⟨now, rfl⟩ := he
        obtain ⟨o, ho, hconn⟩ := (connects_seen lib s _).mpr ⟨i, now, rfl, hpre⟩
        exact ⟨o, List.mem_append_left _ ho, hconn⟩
      · rcases (prepares_cons i e es).mp hprep with h | ⟨hne, hprep⟩
        · exact absurd h he
        · have hkept := preparing_kept lib hpre (fun now h => he ⟨now, h⟩) hne
          obtain ⟨o, ho, hconn⟩ := ih.mpr ⟨i, hkept, hprep⟩
          exact ⟨o, List.mem_append_right _ ho, hconn⟩

/-! ## Top theorems (proved from the lemmas above) -/

/-- **Who connects after `stop` has set `_closed`.**  A run from there connects nobody exactly when
`ws.prepare` returns to none of the sessions that waited in it at that moment; and no run does
exactly when none waited. -/
theorem silent_after_stop (lib : Libraries V) (n : Nat) (es₁ : List Event) :
    (∀ es₂, (∀ o ∈ outputs (step lib) (seen lib) (after lib n (es₁ ++ [.stop])) es₂, ¬ Connects o) ↔
      ∀ i, (after lib n es₁).Preparing i → ¬ Prepares i es₂) ∧
    ((∀ es₂, ∀ o ∈ outputs (step lib) (seen lib) (after lib n (es₁ ++ [.stop])) es₂, ¬ Connects o) ↔
      ∀ i, ¬ (after lib n es₁).Preparing i) := by
  have hstop : after lib n (es₁ ++ [.stop]) = { after lib n es₁ with closed := true } := by
    unfold after
    rw [run_snoc]
    rfl
  have hiff := fun es₂ => connects_iff lib (s := after lib n (es₁ ++ [.stop])) (by rw [hstop]) es₂
  have hpre : ∀ i, (after lib n (es₁ ++ [.stop])).Preparing i ↔ (after lib n es₁).Preparing i := by
    intro i
    rw [hstop]
    rfl
  have hrun : ∀ es₂, (∀ o ∈ outputs (step lib) (seen lib) (after lib n (es₁ ++ [.stop])) es₂,
      ¬ Connects o) ↔ ∀ i, (after lib n es₁).Preparing i → ¬ Prepares i es₂ := by
    intro es₂
    constructor
    · intro h i hi hp
      obtain ⟨o, ho, hc⟩ := (hiff es₂).mpr ⟨i, (hpre i).mpr hi, hp⟩
      exact h o ho hc
    · intro h o ho hc
      obtain ⟨i, hi, hp⟩ := (hiff es₂).mp ⟨o, ho, hc⟩
      exact h i ((hpre i).mp hi) hp
  refine ⟨hrun, fun h i hi => ?_, fun h es₂ => (hrun es₂).mpr fun i hi => absurd hi (h i)⟩
  -- its `ws.prepare` may return next
  exact (hrun [.prepared i 0]).mp (h _) i hi ⟨[], 0, [], rfl, fun _ => List.not_mem_nil⟩

/-- The vehicle's request is in `ws.prepare` when `stop` sets `_closed`. -/
theorem connects_after_stop :
    ¬ ∀ (es₁ es₂ : List Event), ∀ o ∈ outputs (step sampleLibraries) (seen sampleLibraries)
      (after sampleLibraries 1 (es₁ ++ [.stop])) es₂, ¬ Connects o := by
  intro h
  have hobs : .registered 0 "V" ∈ outputs (step sampleLibraries) (seen sampleLibraries)
      (after sampleLibraries 1 ([.request 0 sampleRequest] ++ [.stop])) [.prepared 0 5] :=
    List.mem_cons_self
  exact h [.request 0 sampleRequest] [.prepared 0 5] _ hobs trivial

end Server

end FleetTelemetry
