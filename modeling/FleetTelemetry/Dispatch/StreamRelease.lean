import FleetTelemetry.Dispatch.StreamInvariant

/-!
# Which closings release the suspended `__anext__` calls

`aclose` wakes nobody, and `close` queues one sentinel whatever the number of
calls suspended.  So a call is left behind exactly when a stream ends with more
calls suspended in it than items in its queue (`Short`):

    every step `Releases` → at rest no call is suspended in an ended stream   (released_of_along)
    a step that does not  → an ended stream stays `Short` from then on        (stranded_of_not_along)
-/

namespace FleetTelemetry

open Runs DropOldest

variable {R : Type}

namespace RecordStream

/-- More calls are suspended in the stream than there are items in its queue. -/
def Short (st : RecordStream R) : Prop := st.queue.items.length < st.suspended.length

/-- How many items the queue holds after a put that makes room for itself. -/
theorem items_push (st : RecordStream R) (x : Item R) :
    (st.push x).queue.items.length =
      if Full st.queue.maxsize st.queue.items then st.queue.items.length
      else st.queue.items.length + 1 := by
  simp only [push, Queue.push_items]
  split
  · next h => have := h.1; have := h.2; simp; omega
  · simp

theorem short_of_push {st : RecordStream R} {x : Item R} (h : (st.push x).Short) : st.Short := by
  unfold Short at *
  rw [suspended_push, items_push] at h
  split at h <;> omega

theorem get_short (st : RecordStream R) (call : Nat) :
    (st.get call).1.Short ↔ st.queue.items.length ≤ st.suspended.length := by
  unfold Short
  cases hi : st.queue.items with
  | nil =>
    rw [get_of_nil hi]
    simp only [hi, suspended, List.length_append, List.length_nil, List.length_singleton]
    omega
  | cons x xs =>
    obtain ⟨h1, h2, -⟩ := get_of_cons hi call
    rw [h1, h2, List.length_cons]
    omega

theorem resume_short {st : RecordStream R} {call : Nat} (h : call ∈ st.queue.ready) :
    (st.resume call).1.Short ↔ st.Short := by
  unfold resume
  rw [get_short]
  have hr := List.length_erase_of_mem h
  have hp := List.length_pos_of_mem h
  simp only [Short, suspended, List.length_append]
  omega

end RecordStream

namespace Streams

open RecordStream

/-- The stream was ended by `aclose` or the sentinel, or the dispatcher has been closed. -/
def Ended (d : Streams R) (q : Nat) : Prop := (d.stream q).closed = true ∨ d.closed = true

/-- Every call that can run has run until it finished or was suspended. -/
def AtRest (d : Streams R) : Prop := ∀ q, (d.stream q).queue.ready = []

/-- At rest, no call is suspended in an ended stream. -/
def Released (d : Streams R) : Prop := d.AtRest → ∀ q, d.Ended q → (d.stream q).suspended = []

/-- A call suspended on an empty queue can still be released by a dispatch or by `close`. -/
def Releasable (d : Streams R) : Prop :=
  ∀ q call, call ∈ (d.stream q).suspended → (d.stream q).queue.items = [] →
    (d.stream q).closed = false ∧ q ∈ d.queues ∧ d.closed = false

/-- The step leaves no ended stream with more suspended calls than queued items: none when it
is closed with `aclose`, none when `close` has put its sentinel, and none when another call
starts between `close` and the end of the stream. -/
def Releases (d : Streams R) : StreamEvent R → Prop
  | .on q .aclose => d.Usable q → (d.stream q).suspended.length ≤ (d.stream q).queue.items.length
  | .on q .aexit => d.Usable q → (d.stream q).suspended.length ≤ (d.stream q).queue.items.length
  | .on q (.anext call) => d.Enabled q (.anext call) → d.closed = true → (d.stream q).closed = false →
      (d.stream q).suspended.length < (d.stream q).queue.items.length
  | .close => ∀ q ∈ d.queues, (d.stream q).suspended.length ≤
      if Full (d.stream q).queue.maxsize (d.stream q).queue.items then
        (d.stream q).queue.items.length
      else (d.stream q).queue.items.length + 1
  | _ => True

/-- No ended stream is `Short`. -/
def Covered (d : Streams R) : Prop := ∀ q, d.Ended q → ¬ (d.stream q).Short

/-! ## Lemmas -/

theorem not_short_of_suspended_nil {st : RecordStream R} (h : st.suspended = []) : ¬ st.Short := by
  simp [Short, h]

theorem step_on (d : Streams R) {q : Nat} {m : Method} (hm : d.Enabled q m) :
    d.step (.on q m) = d.put q ((d.stream q).call m) := if_pos hm

/-- After a method, a stream that was not ended before is short only through `aclose`. -/
theorem covered_on {d : Streams R} (h : Sound d) (hc : Covered d) {q : Nat} {m : Method}
    (hm : d.Enabled q m) (hr : d.Releases (.on q m))
    (he : ((d.stream q).call m).1.closed = true ∨ d.closed = true) :
    ¬ ((d.stream q).call m).1.Short := by
  -- an open stream of an open dispatcher has no sentinel to take
  have ended_before : ∀ {st : RecordStream R} {call : Nat}, st.queue.items = (d.stream q).queue.items →
      st.closed = (d.stream q).closed → (st.get call).1.closed = true → d.Ended q := by
    intro st call hi hcl hget
    rcases (get_closed st call).1 hget with h1 | h1
    · exact .inl (hcl ▸ h1)
    · exact .inr (h.sentinel q (hi ▸ List.mem_of_mem_head? h1))
  cases m with
  | anext c =>
    simp only [call, anext] at he ⊢
    cases hcl : (d.stream q).closed with
    | true => exact hc q (.inl hcl)
    | false =>
      simp only [hcl, Bool.false_eq_true, if_false] at he ⊢
      rw [get_short]
      have hd : d.closed = true := by
        rcases he with he | he
        · rcases ended_before rfl rfl he with h1 | h1
          · rw [hcl] at h1; cases h1
          · exact h1
        · exact he
      have := hr hm hd hcl
      omega
  | resume c =>
    show ¬ ((d.stream q).resume c).1.Short
    rw [resume_short hm]
    exact hc q (he.elim (ended_before rfl rfl) .inr)
  | aclose => exact Nat.not_lt_of_le (hr hm)
  | aexit => exact Nat.not_lt_of_le (hr hm)
  | del => exact not_short_of_suspended_nil hm.2

theorem covered_step {d : Streams R} (h : Sound d) (hc : Covered d) {e : StreamEvent R}
    (hr : d.Releases e) : Covered (d.step e) := by
  cases e with
  | records =>
    intro q he
    have hs : (d.step .records).stream q =
        if q = d.created then RecordStream.new d.queueMaxsize d.closed else d.stream q := by
      show Function.update d.stream d.created _ q = _
      rw [Function.update_apply]
    unfold Ended at he
    rw [hs] at he ⊢
    split at he
    · next hq => rw [if_pos hq]; exact not_short_of_suspended_nil rfl
    · next hq => rw [if_neg hq]; exact hc q he
  | dispatch r =>
    rw [step_dispatch]
    intro q he
    unfold Ended at he
    simp only [pushed] at he ⊢
    split at he
    · next hq => rw [if_pos hq]; exact fun hs => hc q he (short_of_push hs)
    · next hq => rw [if_neg hq]; exact hc q he
  | on p m =>
    by_cases hm : d.Enabled p m
    · rw [step_on d hm]
      intro q he
      unfold Ended at he
      rw [put_stream, put_closed, Function.update_apply] at he
      rw [put_stream, Function.update_apply]
      split at he
      · next hq => rw [if_pos hq]; exact covered_on h hc hm hr he
      · next hq => rw [if_neg hq]; exact hc q he
    · rw [show d.step (.on p m) = d from if_neg hm]
      exact hc
  | close =>
    intro q _
    show ¬ (d.close.stream q).Short
    rw [close_stream]
    split
    · next hq =>
      have := hr q hq
      unfold Short
      rw [suspended_push, items_push]
      omega
    · next hq =>
      by_cases hne : (d.stream q).suspended = []
      · exact not_short_of_suspended_nil hne
      · obtain ⟨h1, h2⟩ := h.waits q hne
        refine hc q ?_
        by_contra hend
        simp only [Ended, not_or, Bool.not_eq_true] at hend
        exact hq ((h.registered q).2 ⟨h1, hend.1, h2, hend.2⟩)

/-! ## The other direction: a short stream stays short -/

def Stranded (d : Streams R) : Prop := ∃ q, d.Ended q ∧ (d.stream q).Short

theorem call_closed_of_closed {st : RecordStream R} (h : st.closed = true) (m : Method) :
    (st.call m).1.closed = true := by
  cases m with
  | anext c => simp only [call, anext, h, if_true]
  | resume c => exact (get_closed _ c).2 (.inl h)
  | aclose => rfl
  | aexit => rfl
  | del => exact h

theorem call_short {d : Streams R} {q : Nat} {m : Method} (hm : d.Enabled q m)
    (hs : (d.stream q).Short) : ((d.stream q).call m).1.Short := by
  cases m with
  | anext c =>
    simp only [call, anext]
    split
    · exact hs
    · exact (get_short _ c).2 (Nat.le_of_lt hs)
  | resume c => exact (resume_short hm).2 hs
  | aclose => exact hs
  | aexit => exact hs
  | del => exact absurd hs (not_short_of_suspended_nil hm.2)

theorem Sound.not_mem_queues {d : Streams R} (h : Sound d) {q : Nat} (he : d.Ended q) :
    q ∉ d.queues := by
  rw [h.registered]
  rintro ⟨-, h1, -, h2⟩
  rcases he with he | he
  · rw [h1] at he; cases he
  · rw [h2] at he; cases he

theorem stranded_step {d : Streams R} (h : Sound d) (hs : Stranded d) (e : StreamEvent R) :
    Stranded (d.step e) := by
  obtain ⟨q, he, hq⟩ := hs
  refine ⟨q, ?_⟩
  cases e with
  | records =>
    have hne : q ≠ d.created := by
      have := (h.waits q fun hn => not_short_of_suspended_nil hn hq).1
      omega
    have : (d.step .records).stream q = d.stream q := Function.update_of_ne hne _ _
    unfold Ended
    rw [this]
    exact ⟨he, hq⟩
  | dispatch r =>
    rw [step_dispatch]
    have : (d.pushed d.queues (.record r)).stream q = d.stream q := if_neg (h.not_mem_queues he)
    unfold Ended
    rw [this]
    exact ⟨he, hq⟩
  | on p m =>
    by_cases hm : d.Enabled p m
    · rw [step_on d hm]
      unfold Ended
      rw [put_stream, put_closed, Function.update_apply]
      split
      · next hp =>
        subst hp
        exact ⟨he.imp (fun hc => call_closed_of_closed hc m) id, call_short hm hq⟩
      · exact ⟨he, hq⟩
    · rw [show d.step (.on p m) = d from if_neg hm]
      exact ⟨he, hq⟩
  | close =>
    refine ⟨.inr (close_closed d), ?_⟩
    show (d.close.stream q).Short
    rw [close_stream, if_neg (h.not_mem_queues he)]
    exact hq

theorem stranded_of_not_releases {d : Streams R} {e : StreamEvent R} (hr : ¬ d.Releases e) :
    Stranded (d.step e) := by
  cases e with
  | records => exact absurd trivial hr
  | dispatch r => exact absurd trivial hr
  | on q m =>
    cases m with
    | anext c =>
      simp only [Releases, Classical.not_imp, Nat.not_lt] at hr
      obtain ⟨hm, hd, hcl, hle⟩ := hr
      refine ⟨q, ?_⟩
      rw [step_on d hm]
      unfold Ended
      rw [put_stream, put_closed, Function.update_self]
      refine ⟨.inr hd, ?_⟩
      simp only [call, anext, hcl, Bool.false_eq_true, if_false]
      exact (get_short _ c).2 hle
    | resume c => exact absurd trivial hr
    | aclose =>
      simp only [Releases, Classical.not_imp, Nat.not_le] at hr
      refine ⟨q, ?_⟩
      rw [step_on d (m := .aclose) hr.1]
      unfold Ended
      rw [put_stream, Function.update_self]
      exact ⟨.inl rfl, hr.2⟩
    | aexit =>
      simp only [Releases, Classical.not_imp, Nat.not_le] at hr
      refine ⟨q, ?_⟩
      rw [step_on d (m := .aexit) hr.1]
      unfold Ended
      rw [put_stream, Function.update_self]
      exact ⟨.inl rfl, hr.2⟩
    | del => exact absurd trivial hr
  | close =>
    simp only [Releases, not_forall, Nat.not_le] at hr
    obtain ⟨q, hq, hlt⟩ := hr
    refine ⟨q, .inr (close_closed d), ?_⟩
    show (d.close.stream q).Short
    rw [close_stream, if_pos hq]
    unfold Short
    rw [suspended_push, items_push]
    exact hlt

/-! ## Top theorems (proved from the lemmas above) -/

theorem covered_after {n : Nat} {es : List (StreamEvent R)} (h : Along step Releases (init n) es) :
    Covered (after n es) := by
  refine h.history_invariant step _ (I := fun _ d => Covered d) ?_ fun es e _ hr hc => ?_
  · exact fun q _ => not_short_of_suspended_nil rfl
  · exact covered_step (sound_after n es) hc hr

theorem stranded_of_not_along {n : Nat} {es : List (StreamEvent R)}
    (h : ¬ Along step Releases (init n) es) : Stranded (after n es) := by
  induction es using List.reverseRecOn with
  | nil => exact absurd trivial h
  | append_singleton es e ih =>
    unfold after
    rw [run_snoc]
    by_cases hes : Along step Releases (init n) es
    · refine stranded_of_not_releases fun hr => h ?_
      rw [along_snoc]
      exact ⟨hes, hr⟩
    · exact stranded_step (sound_after n es) (ih hes) e

/-- **Release.**  A run whose every step `Releases` leaves no call behind in any state; any
other run has left one behind whenever it comes to rest. -/
theorem released_iff (n : Nat) (es : List (StreamEvent R)) :
    (Along step Releases (init n) es → Released (after n es) ∧ Releasable (after n es)) ∧
    (¬ Along step Releases (init n) es → AtRest (after n es) → ¬ Released (after n es)) := by
  have hsound := sound_after n es
  constructor
  · intro h
    have hc := covered_after h
    constructor
    · intro hrest q he
      have hshort := hc q he
      unfold Short suspended at *
      rw [hrest q, List.append_nil] at hshort ⊢
      by_contra hne
      have := hsound.woken q hne
      have hpos := List.length_pos_iff.2 hne
      rw [hrest q, List.length_nil] at this
      omega
    · intro q call hcall hnil
      have hpos := List.length_pos_of_mem hcall
      have hnot : ¬ (after n es).Ended q := fun he => hc q he (by unfold Short; rw [hnil]; exact hpos)
      simp only [Ended, not_or, Bool.not_eq_true] at hnot
      obtain ⟨h1, h2⟩ := hsound.waits q (List.ne_nil_of_mem hcall)
      exact ⟨hnot.1, (hsound.registered q).2 ⟨h1, hnot.1, h2, hnot.2⟩, hnot.2⟩
  · intro h hrest hrel
    obtain ⟨q, he, hs⟩ := stranded_of_not_along h
    exact not_short_of_suspended_nil (hrel hrest q he) hs

/-- A second task closes a stream in which a first one waits: the first is left behind. -/
theorem not_released_aclose :
    ¬ ∀ (n : Nat) (es : List (StreamEvent Nat)), 0 < n →
      Released (after n es) ∧ Releasable (after n es) := by
  intro h
  have hrest : AtRest (after 1 [.records, .on 0 (.anext 0), .on 0 .aclose] : Streams Nat) := by
    intro q
    rcases q with _ | q <;> rfl
  have := (h 1 [.records, .on 0 (.anext 0), .on 0 .aclose] (by decide)).1 hrest 0 (.inl rfl)
  exact absurd this (by decide)

end Streams

end FleetTelemetry
