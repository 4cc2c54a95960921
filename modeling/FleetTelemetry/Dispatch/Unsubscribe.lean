import FleetTelemetry.Dispatch.Walks

/-!
# Unsubscribing while dispatches are under way

A dispatch walks the registrations there were when it was called, so one that is under
way when a registration is unsubscribed may still have it before it (`ahead`).  From
then on what a dispatch invokes of the registration and what it has before it are taken
from what it had before it:

    invocations of key by d ++ ahead s' d key <+ ahead s d key              (walk_takes)

No dispatch that is called later has it before it.
-/

namespace FleetTelemetry

open Runs

variable {V : Type}

namespace Walks

/-! ## Algorithm -/

/-- The invocation of registration `key` that dispatch `d`, under way, has before it. -/
def ahead (s : Walks V) (d key : Nat) : Option (Invocation V) :=
  (s.running d).bind fun w =>
    if key ∈ matching w.record w.record.fields.keys w.rest then some ⟨d, key, w.record⟩ else none

/-- What dispatch `d` invokes of registration `key`. -/
def invocationsOf (d key : Nat) (obs : List (Invocation V)) : List (Invocation V) :=
  obs.filter fun inv => inv.dispatch = d ∧ inv.key = key

/-- The registration was made, and is not registered any more. -/
def Gone (s : Walks V) (key : Nat) : Prop :=
  key < s.listeners.ids ∧ key ∉ s.listeners.registrations.keys

/-- No dispatch has a registration before it twice. -/
def Once (s : Walks V) : Prop :=
  ∀ d w, s.running d = some w → (matching w.record w.record.fields.keys w.rest).Nodup

/-! ## Lemmas -/

theorem ahead_of_idle {s : Walks V} {d : Nat} (h : s.running d = none) (key : Nat) :
    s.ahead d key = none := by
  unfold ahead
  rw [h]
  rfl

theorem ahead_of_running {s : Walks V} {d : Nat} {w : Walk V} (h : s.running d = some w)
    (key : Nat) : s.ahead d key = if key ∈ matching w.record w.record.fields.keys w.rest then
      some ⟨d, key, w.record⟩ else none := by
  unfold ahead
  rw [h]
  rfl

theorem ahead_congr {s s' : Walks V} {d : Nat} (h : s'.running d = s.running d) (key : Nat) :
    s'.ahead d key = s.ahead d key := by
  unfold ahead
  rw [h]

theorem invocationsOf_append (d key : Nat) (obs obs' : List (Invocation V)) :
    invocationsOf d key (obs ++ obs') = invocationsOf d key obs ++ invocationsOf d key obs' :=
  List.filter_append ..

/-- What is invoked of a registration is among what the dispatch invokes. -/
theorem invocationsOf_nil {d : Nat} {obs : List (Invocation V)}
    (h : (obs.filter fun inv => inv.dispatch = d) = []) (key : Nat) :
    invocationsOf d key obs = [] := by
  unfold invocationsOf
  rw [List.filter_eq_nil_iff] at h ⊢
  intro inv hinv hd
  exact h inv hinv (by simpa using (of_decide_eq_true hd).1)

theorem eq_of_toList_sublist {α : Type} {o o' : Option α} (h : o.toList.Sublist o'.toList) :
    o = none ∨ o = o' := by
  cases o with
  | none => exact .inl rfl
  | some a =>
    cases o' with
    | none => cases h
    | some a' => exact .inr (congrArg some (by simpa using h))

/-! ### Gone registrations -/

theorem not_matching_of_gone {s : Walks V} {key : Nat} (h : s.Gone key) (record : Record V) :
    key ∉ matching record record.fields.keys s.listeners.registrations.entries := by
  intro hm
  obtain ⟨e, he, rfl⟩ := List.mem_map.mp hm
  exact h.2 (List.mem_map_of_mem (List.mem_filter.mp he).1)

/-- A number is used once: what is gone stays gone. -/
theorem gone_step {s : Walks V} {key : Nat} (h : s.Gone key) (e : WalkEvent V) :
    (s.step e).Gone key := by
  obtain ⟨hlt, hkey⟩ := h
  unfold Gone
  rw [step_listeners]
  cases e with
  | register r =>
    have hids : (r.apply s.listeners).ids = s.listeners.ids + 1 := by rw [apply_eq]; rfl
    refine ⟨by show key < (r.apply s.listeners).ids; omega, ?_⟩
    show key ∉ (r.apply s.listeners).registrations.entries.map Prod.fst
    rw [entries_apply, List.map_append, List.mem_append, not_or]
    refine ⟨hkey, ?_⟩
    intro h
    have : key = s.listeners.ids := List.mem_singleton.mp h
    omega
  | unsubscribe k => exact ⟨hlt, fun h => hkey ((List.filter_sublist.map _).subset h)⟩
  | dispatch | returned | raised => exact ⟨hlt, hkey⟩

theorem gone_of_unsubscribed {s : Walks V} {key : Nat} (h : key < s.listeners.ids) :
    (s.step (.unsubscribe key)).Gone key := by
  refine ⟨h, ?_⟩
  show key ∉ (s.listeners.registrations.erase key).keys
  rw [Dict.mem_keys_iff, Dict.get_erase, if_pos rfl]
  simp

/-! ### Dispatches -/

theorem once_goOn {s : Walks V} (h : s.Once) (d : Nat) {record : Record V}
    {entries : List (Nat × Registration)}
    (hn : (matching record record.fields.keys entries).Nodup) :
    (s.goOn d record entries).1.Once := by
  intro d' w hw
  by_cases hd : d = d'
  · subst hd
    rcases goOn_cases s d record entries with ⟨-, hover, -⟩ | ⟨k, rest, hm, hon, -⟩
    · rw [hover] at hw; cases hw
    · rw [hon] at hw
      obtain rfl := Option.some.inj hw
      rw [hm] at hn
      exact (List.nodup_cons.mp hn).2
  · rw [(goOn_other hd).1] at hw
    exact h d' w hw

theorem once_step {s : Walks V} (h : s.Once) (e : WalkEvent V) : (s.step e).Once := by
  unfold step
  cases e with
  | register | unsubscribe => exact h
  | dispatch d record =>
    simp only [exec]
    split
    · exact once_goOn h d (matching_nodup ..)
    · exact h
  | returned d =>
    simp only [exec]
    split
    · next w hw => exact once_goOn h d (h d w hw)
    · exact h
  | raised d =>
    intro d' w hw
    have hw : Function.update s.running d none d' = some w := hw
    by_cases hd : d' = d
    · subst hd
      rw [Function.update_self] at hw
      cases hw
    · rw [Function.update_of_ne hd] at hw
      exact h d' w hw

/-- Going on takes an invocation from those before the dispatch. -/
theorem goOn_takes (s : Walks V) (d key : Nat) {record : Record V}
    {entries : List (Nat × Registration)}
    (hn : (matching record record.fields.keys entries).Nodup) :
    (invocationsOf d key (s.goOn d record entries).2 ++
        ((s.goOn d record entries).1.ahead d key).toList).Sublist
      (if key ∈ matching record record.fields.keys entries then
        some (⟨d, key, record⟩ : Invocation V) else none).toList := by
  rcases goOn_cases s d record entries with ⟨-, hover, hobs⟩ | ⟨k, rest, hm, hon, hobs⟩
  · rw [hobs, ahead_of_idle hover]
    exact List.nil_sublist _
  · rw [hobs, ahead_of_running hon, hm]
    rw [hm] at hn
    have hk := (List.nodup_cons.mp hn).1
    by_cases heq : k = key
    · subst heq
      rw [if_neg hk, if_pos List.mem_cons_self]
      simp [invocationsOf]
    · have hne : key ≠ k := fun h => heq h.symm
      simp [invocationsOf, heq, hne]

/-- **One step.**  What a dispatch invokes of a registration that is gone, and what it has before it
then, it had before it. -/
theorem step_takes {s : Walks V} {key : Nat} (hgone : s.Gone key) (honce : s.Once)
    (e : WalkEvent V) (d : Nat) :
    (invocationsOf d key (s.seen e) ++ ((s.step e).ahead d key).toList).Sublist
      (s.ahead d key).toList := by
  by_cases he : Of d e
  · unfold seen step
    cases e with
    | register | unsubscribe => cases he
    | dispatch d' record =>
      obtain rfl : d' = d := he
      simp only [exec]
      split
      · -- a new dispatch: the registration is not in its snapshot
        next hidle =>
        have h := goOn_takes s d' key (matching_nodup record record.fields.keys
          s.listeners.registrations)
        rw [if_neg (not_matching_of_gone hgone record)] at h
        rw [ahead_of_idle hidle]
        exact h
      · exact List.Sublist.refl _
    | returned d' =>
      obtain rfl : d' = d := he
      simp only [exec]
      split
      · next w hw =>
        rw [ahead_of_running hw]
        exact goOn_takes s d' key (honce d' w hw)
      · exact List.Sublist.refl _
    | raised d' =>
      obtain rfl : d' = d := he
      rw [ahead_of_idle (Function.update_self ..)]
      exact List.nil_sublist _
  · obtain ⟨hrun, hobs⟩ := step_other (s := s) he
    rw [invocationsOf_nil hobs, ahead_congr hrun]
    exact List.Sublist.refl _

/-- **Any steps.** -/
theorem walk_takes {s : Walks V} {key : Nat} (hgone : s.Gone key) (honce : s.Once)
    (es : List (WalkEvent V)) (d : Nat) :
    (invocationsOf d key (outputs step seen s es) ++ ((run step s es).ahead d key).toList).Sublist
      (s.ahead d key).toList := by
  induction es generalizing s with
  | nil => exact List.Sublist.refl _
  | cons e es ih =>
    rw [outputs, invocationsOf_append, run_cons, List.append_assoc]
    have hrest := ih (gone_step hgone e) (once_step honce e)
    exact (hrest.append_left _).trans (step_takes hgone honce e d)

/-- What a dispatch has before it, it invokes when its listeners return. -/
theorem ahead_invoked {s : Walks V} {d key : Nat} {inv : Invocation V}
    (h : s.ahead d key = some inv) :
    ∃ n, inv ∈ outputs step seen s (List.replicate n (.returned d)) ∧ inv.key = key := by
  cases hw : s.running d with
  | none => rw [ahead_of_idle hw] at h; cases h
  | some w =>
    rw [ahead_of_running hw] at h
    split at h
    · next hkey =>
      obtain rfl := Option.some.inj h
      set wanted := matching w.record w.record.fields.keys w.rest
      have hreturns : returns d (List.replicate wanted.length (.returned d : WalkEvent V)) =
          wanted.length := by
        unfold returns
        rw [List.countP_replicate]
        simp
      obtain ⟨hout, -⟩ := walk_run (List.replicate wanted.length (.returned d)) hw (by simp)
        (by simp)
      refine ⟨wanted.length, (List.mem_filter (p := fun inv => inv.dispatch = d)).mp ?_ |>.1, rfl⟩
      rw [hout, hreturns, List.take_length]
      exact List.mem_map_of_mem hkey
    · cases h

theorem once_after (es : List (WalkEvent V)) : (after es).Once := by
  refine Runs.invariant step (I := Once) (fun s e h => once_step h e) ?_ es
  intro d w hw
  cases hw

theorem gone_after (es₁ es₂ : List (WalkEvent V)) {key : Nat} (hkey : key < count es₁) :
    (after (es₁ ++ .unsubscribe key :: es₂)).Gone key := by
  unfold after
  rw [run_append, run_cons]
  rw [← ids_eq] at hkey
  exact Runs.invariant step (I := fun s => s.Gone key) (fun s e h => gone_step h e)
    (gone_of_unsubscribed hkey) es₂

/-! ## Top theorems (proved from the lemmas above) -/

/-- **After `unsubscribe` returned.**  A dispatch that is called later invokes the registration
never.  One that is under way invokes it once at most, and then as it had it before it when
`unsubscribe` was called: it matched, and its turn had not come.  It is never invoked again,
whatever follows, exactly when no dispatch has it before it. -/
theorem unsubscribed (es₁ es₂ : List (WalkEvent V)) (key : Nat) (hkey : key < count es₁) :
    let s := after (es₁ ++ .unsubscribe key :: es₂)
    (∀ es d, s.running d = none → ∀ inv ∈ outputs step seen s es, inv.dispatch = d →
      inv.key ≠ key) ∧
    (∀ es d, (invocationsOf d key (outputs step seen s es) ++
      ((run step s es).ahead d key).toList).Sublist (s.ahead d key).toList) ∧
    (∀ d, s.ahead d key = none ∨ s.ahead d key = (after es₁).ahead d key) ∧
    ((∀ es, ∀ inv ∈ outputs step seen s es, inv.key ≠ key) ↔ ∀ d, s.ahead d key = none) := by
  intro s
  have hgone : s.Gone key := gone_after es₁ es₂ hkey
  have hnever : ∀ es d, s.ahead d key = none → ∀ inv ∈ outputs step seen s es, inv.dispatch = d →
      inv.key ≠ key := by
    intro es d hd inv hinv hof hk
    have h := walk_takes hgone (once_after _) es d
    rw [hd] at h
    have hmem : inv ∈ invocationsOf d key (outputs step seen s es) :=
      List.mem_filter.mpr ⟨hinv, by simp [hof, hk]⟩
    exact List.not_mem_nil (h.subset (List.mem_append_left _ hmem))
  refine ⟨fun es d hidle => hnever es d (ahead_of_idle hidle key),
    walk_takes hgone (once_after _), fun d => ?_, fun h d => ?_, fun h es inv hinv => ?_⟩
  · -- from the unsubscription on
    have hstart : (after (es₁ ++ [.unsubscribe key])).ahead d key = (after es₁).ahead d key := by
      unfold after
      rw [run_snoc]
      exact ahead_congr rfl key
    have h := walk_takes (gone_after es₁ [] hkey) (once_after _) es₂ d
    rw [hstart, show run step (after (es₁ ++ [.unsubscribe key])) es₂ = s by
      unfold s after; rw [← run_append, List.append_assoc]; rfl] at h
    exact eq_of_toList_sublist ((List.sublist_append_right _ _).trans h)
  · cases ha : s.ahead d key with
    | none => rfl
    | some inv =>
      obtain ⟨n, hinv, hk⟩ := ahead_invoked ha
      exact absurd hk (h _ inv hinv)
  · exact hnever es inv.dispatch (h _) inv hinv rfl

/-- The second listener is not invoked any more where no dispatch is under way.  The one that waits
for the first listener when it is unsubscribed has it before it, and invokes it once at most. -/
theorem unsubscribed_four :
    (¬ ∃ es, ∃ inv ∈ outputs step seen (after (fourListeners ++ [.unsubscribe 1])) es,
      inv.key = 1) ∧
    let es₁ := fourListeners ++ [.dispatch 0 emptyRecord]
    let s := after (es₁ ++ [.unsubscribe 1])
    s.ahead 0 1 = (after es₁).ahead 0 1 ∧ (s.ahead 0 1).isSome = true ∧
      (∀ es, (invocationsOf 0 1 (outputs step seen s es)).Sublist [⟨0, 1, emptyRecord⟩]) ∧
      (∀ es, ∀ inv ∈ outputs step seen s es, inv.dispatch = 1 → inv.key ≠ 1) ∧
      ∃ es, ∃ inv ∈ outputs step seen s es, inv.key = 1 := by
  refine ⟨?_, ?_⟩
  · rintro ⟨es, inv, hinv, hkey⟩
    exact (unsubscribed fourListeners [] 1 (by decide)).2.2.2.mpr (fun _ => rfl) es inv hinv hkey
  · intro es₁ s
    obtain ⟨hlater, honce, hbefore, hnever⟩ := unsubscribed es₁ [] 1 (by decide)
    have hahead : s.ahead 0 1 = some ⟨0, 1, emptyRecord⟩ := rfl
    refine ⟨(hbefore 0).resolve_left (by rw [hahead]; nofun), rfl, fun es => ?_,
      fun es => hlater es 1 rfl, ?_⟩
    · exact (List.sublist_append_left _ _).trans (honce es 0)
    · by_contra h
      have hnone := hnever.mp (fun es inv hinv hkey => h ⟨es, inv, hinv, hkey⟩) 0
      rw [hahead] at hnone
      cases hnone

/-- The dispatch waits for the first listener when the second is unsubscribed, and invokes the
second all the same: its snapshot has it. -/
theorem unsubscribe_in_flight :
    ¬ ∀ (es₁ es₂ : List (WalkEvent Unit)) (key : Nat), key < count es₁ →
      ∀ inv ∈ outputs step seen (after (es₁ ++ [.unsubscribe key])) es₂, inv.key ≠ key := by
  intro h
  have hkeys := (List.forall_mem_map (f := Invocation.key) (P := (· ≠ 1))).mpr
    (h (fourListeners ++ [.dispatch 0 emptyRecord]) [.returned 0] 1 (by decide))
  exact absurd hkeys (by decide)

end Walks

end FleetTelemetry
