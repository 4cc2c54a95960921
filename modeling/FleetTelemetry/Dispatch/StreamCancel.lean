import FleetTelemetry.Dispatch.StreamLoss
import FleetTelemetry.Dispatch.StreamRelease

/-!
# Cancelling `__anext__`

A consumer that waits for a record may be cancelled: its task is, or a `wait_for` runs out.
The exception surfaces in `Queue.get`, which takes the call off the queue; a call that a put
has woken already hands the wake-up on.  Runs are now made of stream events and of
cancellations, of any suspended call at any time:

    no call waits beside an item unless a woken one is about to run    (Sound, at rest)
    yielded ++ queued = fanned ↔ every fan-out finds room              (cancel_lossless)
    every event `Releases` → at rest nobody waits in an ended stream   (cancel_lossless)
-/

namespace FleetTelemetry

open Runs DropOldest

variable {R : Type}

/-! ## Algorithm -/

namespace Queue

variable {α : Type}

/-- The `except` block of `Queue.get` in a call that is suspended. -/
def cancelGet (q : Queue α) (call : Nat) : Queue α :=
  if call ∈ q.getters then { q with getters := q.getters.erase call }
  else if q.items = [] then { q with ready := q.ready.erase call }
  else
    -- woken up by a put, but it cannot take the item: the next in line is woken
    { q with getters := q.getters.tail, ready := q.ready.erase call ++ q.getters.take 1 }

end Queue

/-- `CancelledError` passes through `__anext__`, which has nothing to undo. -/
def RecordStream.cancel (st : RecordStream R) (call : Nat) : RecordStream R :=
  { st with queue := st.queue.cancelGet call }

/-- `cancel q call`: an exception surfaces in a `__anext__` call that is suspended on stream `q`. -/
inductive Turn (R : Type) where
  | event (e : StreamEvent R)
  | cancel (q call : Nat)

namespace Streams

def turn (d : Streams R) : Turn R → Streams R
  | .event e => d.step e
  | .cancel q call =>
    if call ∈ (d.stream q).suspended then d.setStream q ((d.stream q).cancel call) else d

/-- The state after the turns `ts` on a new dispatcher. -/
def afterTurns (queueMaxsize : Nat) (ts : List (Turn R)) : Streams R :=
  run turn (init queueMaxsize) ts

/-- A condition on the events of a run. -/
def OnEvents (C : Streams R → StreamEvent R → Prop) (d : Streams R) : Turn R → Prop
  | .event e => C d e
  | .cancel _ _ => True

/-- The records whose fan-out happened while stream `q` was registered, in order. -/
def fannedTurns (n q : Nat) (ts : List (Turn R)) : List R :=
  outputs turn (fun d t => match t with
    | .event (.dispatch r) => if q ∈ d.queues then [r] else []
    | _ => []) (init n) ts

/-- What a turn does to the abstract buffer of stream `q`. -/
def turnOps (q : Nat) (d : Streams R) : Turn R → List (Op R)
  | .event e => outputs RecordStream.ownStep RecordStream.bufferOps (d.stream q) (ownOf q d e)
  | .cancel _ _ => []

/-! ## Lemmas -/

end Streams

namespace RecordStream

@[simp] theorem cancel_items (st : RecordStream R) (call : Nat) :
    (st.cancel call).queue.items = st.queue.items := by
  unfold cancel Queue.cancelGet
  dsimp only
  split
  · rfl
  · split <;> rfl

@[simp] theorem cancel_maxsize (st : RecordStream R) (call : Nat) :
    (st.cancel call).queue.maxsize = st.queue.maxsize := by
  unfold cancel Queue.cancelGet
  dsimp only
  split
  · rfl
  · split <;> rfl

/-- One call less is suspended. -/
theorem cancel_suspended {st : RecordStream R} {call : Nat} (h : call ∈ st.suspended) :
    (st.cancel call).suspended.length + 1 = st.suspended.length := by
  unfold suspended at h ⊢
  rw [List.mem_append] at h
  unfold cancel Queue.cancelGet
  dsimp only
  by_cases hg : call ∈ st.queue.getters
  · have hpos := List.length_pos_of_mem hg
    have herase := List.length_erase_of_mem hg
    rw [if_pos hg, List.length_append, List.length_append]
    dsimp only
    omega
  · have hr := h.resolve_left hg
    have hpos := List.length_pos_of_mem hr
    have herase := List.length_erase_of_mem hr
    rw [if_neg hg]
    split
    · rw [List.length_append, List.length_append]
      dsimp only
      omega
    · simp only [List.length_append, List.length_tail, List.length_take]
      omega

/-- **A wake-up is handed on, not lost.** -/
theorem Woken.cancel {st : RecordStream R} (h : st.Woken) {call : Nat} (hc : call ∈ st.suspended) :
    (st.cancel call).Woken := by
  unfold Woken at h ⊢
  intro hne
  rw [cancel_items]
  unfold RecordStream.cancel Queue.cancelGet at hne ⊢
  dsimp only at hne ⊢
  by_cases hg : call ∈ st.queue.getters
  · rw [if_pos hg]
    exact h (List.ne_nil_of_mem hg)
  · have hr : call ∈ st.queue.ready := (List.mem_append.mp hc).resolve_left hg
    have hpos := List.length_pos_of_mem hr
    have herase := List.length_erase_of_mem hr
    rw [if_neg hg] at hne ⊢
    split at hne
    · next hi =>
      have hnone : st.queue.items.length = 0 := congrArg List.length hi
      exact Nat.le_trans (Nat.le_of_eq hnone) (Nat.zero_le _)
    · next hi =>
      rw [if_neg hi]
      -- the longest waiting getter takes the place of the cancelled call
      cases hgs : st.queue.getters with
      | nil => rw [hgs] at hne; exact absurd rfl hne
      | cons g gs =>
        have hle := h (by rw [hgs]; exact List.cons_ne_nil g gs)
        simp only [List.length_append, List.take_succ_cons, List.take_zero, List.length_singleton]
        omega

end RecordStream

namespace Streams

open RecordStream

theorem turn_cancel {d : Streams R} {q call : Nat} (h : call ∈ (d.stream q).suspended) :
    d.turn (.cancel q call) = d.setStream q ((d.stream q).cancel call) := if_pos h

theorem turn_cancel_of_not {d : Streams R} {q call : Nat} (h : call ∉ (d.stream q).suspended) :
    d.turn (.cancel q call) = d := if_neg h

/-- What a cancellation leaves of a stream. -/
theorem setStream_cancel (d : Streams R) (p call q : Nat) :
    (d.setStream p ((d.stream p).cancel call)).stream q =
      if q = p then (d.stream q).cancel call else d.stream q := by
  unfold setStream
  dsimp only
  rw [Function.update_apply]
  split
  · next h => rw [h]
  · rfl

/-- **Step lemma.**  What holds in every state is kept by a cancellation as well. -/
theorem sound_turn {d : Streams R} (h : Sound d) (t : Turn R) : Sound (d.turn t) := by
  cases t with
  | event e => exact sound_step h e
  | cancel p call =>
    by_cases hc : call ∈ (d.stream p).suspended
    · rw [turn_cancel hc]
      refine ⟨fun q => ?_, fun q => ?_, fun q hmem => ?_, fun q hne => ?_⟩
      · rw [setStream_cancel]
        split
        · next hq => exact (h.woken q).cancel (hq ▸ hc)
        · exact h.woken q
      · rw [setStream_cancel]
        split <;> exact h.registered q
      · rw [setStream_cancel] at hmem
        refine h.sentinel q ?_
        split at hmem
        · rwa [cancel_items] at hmem
        · exact hmem
      · rw [setStream_cancel] at hne ⊢
        have hwaits : (d.stream q).suspended ≠ [] := by
          split at hne
          · next hq => exact List.ne_nil_of_mem (hq ▸ hc)
          · exact hne
        split <;> exact h.waits q hwaits
    · rw [turn_cancel_of_not hc]
      exact h

theorem sound_turns (n : Nat) (ts : List (Turn R)) : Sound (afterTurns n ts) :=
  invariant turn (I := Sound) (fun _ t h => sound_turn h t) (sound_init n) ts

theorem covered_turn {d : Streams R} (h : Sound d) (hc : Covered d) {t : Turn R}
    (hr : OnEvents Releases d t) : Covered (d.turn t) := by
  cases t with
  | event e => exact covered_step h hc hr
  | cancel p call =>
    by_cases hm : call ∈ (d.stream p).suspended
    · rw [turn_cancel hm]
      intro q he
      unfold Ended at he
      rw [setStream_cancel] at he ⊢
      split at he
      · next hq =>
        have hnot := hc q he
        have hlen := cancel_suspended (hq ▸ hm : call ∈ (d.stream q).suspended)
        rw [if_pos hq]
        unfold Short at hnot ⊢
        rw [cancel_items]
        omega
      · next hq =>
        rw [if_neg hq]
        exact hc q he
    · rw [turn_cancel_of_not hm]
      exact hc

/-- At rest nobody waits beside an item. -/
theorem Sound.at_rest {d : Streams R} (h : Sound d) (hrest : d.AtRest) {q : Nat}
    (hne : (d.stream q).suspended ≠ []) : (d.stream q).queue.items = [] := by
  have hw := h.woken q
  unfold suspended at hne
  rw [hrest q, List.append_nil] at hne
  have hle := hw hne
  rw [hrest q, List.length_nil] at hle
  exact List.eq_nil_of_length_eq_zero (Nat.le_zero.mp hle)

/-- A dispatcher in which nobody is left behind. -/
theorem Covered.released {d : Streams R} (hc : Covered d) (h : Sound d) : Released d := by
  intro hrest q he
  by_contra hne
  refine hc q he ?_
  unfold Short
  rw [h.at_rest hrest hne]
  exact List.length_pos_iff.mpr hne

/-! ### The buffer -/

theorem open_turn {n : Nat} {d : Streams R} (h : Open n d) {t : Turn R} (ht : t ≠ .event .close) :
    Open n (d.turn t) := by
  cases t with
  | event e => exact step_open h fun he => ht (congrArg Turn.event he)
  | cancel p call =>
    by_cases hc : call ∈ (d.stream p).suspended
    · rw [turn_cancel hc]
      refine ⟨h.maxsize, h.closed, fun q hq => ?_⟩
      obtain ⟨hnew, hout⟩ := h.blank q hq
      refine ⟨?_, hout⟩
      rw [setStream_cancel]
      split
      · next hp =>
        rw [← hp, hnew] at hc
        cases hc
      · exact hnew
    · rw [turn_cancel_of_not hc]
      exact h

/-- A stream goes through its own events as its buffer does. -/
theorem buffers_run {n : Nat} {st : RecordStream R} {f : State R} (h : Buffers n st f)
    (os : List (OwnEvent R)) :
    Buffers n (run ownStep st os) (run (DropOldest.step n) f (outputs ownStep bufferOps st os)) := by
  induction os generalizing st f with
  | nil => exact h
  | cons o os ih =>
    rw [outputs, run_append]
    exact ih (h.ownStep o)

/-- **Step lemma.**  To the buffer a cancellation is nothing. -/
theorem buffers_turn {n : Nat} {d : Streams R} (hopen : Open n d) {q : Nat} {f : State R}
    (h : Buffers n (d.stream q) f) {t : Turn R} (ht : t ≠ .event .close) :
    Buffers n ((d.turn t).stream q) (run (DropOldest.step n) f (turnOps q d t)) := by
  cases t with
  | event e =>
    show Buffers n ((d.step e).stream q) _
    rw [step_stream hopen (fun he => ht (congrArg Turn.event he)) q]
    exact buffers_run h _
  | cancel p call =>
    show Buffers n _ f
    by_cases hc : call ∈ (d.stream p).suspended
    · rw [turn_cancel hc, setStream_cancel]
      split
      · exact ⟨(cancel_maxsize _ _).trans h.maxsize, (cancel_items _ _).trans h.items, h.yielded⟩
      · exact h
    · rw [turn_cancel_of_not hc]
      exact h

theorem offered_turnOps (q : Nat) (d : Streams R) (t : Turn R) :
    offered (turnOps q d t) = match t with
      | .event (.dispatch r) => if q ∈ d.queues then [r] else []
      | _ => [] := by
  cases t with
  | cancel p call => rfl
  | event e =>
    cases e with
    | dispatch r =>
      simp only [turnOps, ownOf]
      split <;> rfl
    | on p m =>
      simp only [turnOps, ownOf]
      split
      · simpa [outputs, offered] using RecordStream.offered_bufferOps (d.stream q) (.method m)
      · rfl
    | records | close => rfl

/-- A run without `close`: the dispatcher is open, each stream is its buffer, and has room where
the buffer has. -/
theorem turns_buffer {n : Nat} (hn : 0 < n) {ts : List (Turn R)} (hts : .event .close ∉ ts)
    (q : Nat) :
    let ops := outputs turn (turnOps q) (init n) ts
    Open n (afterTurns n ts) ∧
    Buffers n ((afterTurns n ts).stream q) (run (DropOldest.step n) DropOldest.init ops) ∧
    offered ops = fannedTurns n q ts ∧
    (Along turn (OnEvents (Room n q)) (init n) ts ↔
      Along (DropOldest.step n) (Roomy n) DropOldest.init ops) := by
  induction ts using List.reverseRecOn with
  | nil => exact ⟨open_init n, ⟨rfl, rfl, rfl⟩, rfl, Iff.rfl⟩
  | append_singleton ts t ih =>
    simp only [List.mem_append, List.mem_singleton, not_or] at hts
    obtain ⟨hopen, hb, hoff, hroom⟩ := ih hts.1
    have ht : t ≠ .event .close := Ne.symm hts.2
    intro ops
    have hops : ops = outputs turn (turnOps q) (init n) ts ++ turnOps q (afterTurns n ts) t :=
      outputs_snoc ..
    have hstate : afterTurns n (ts ++ [t]) = (afterTurns n ts).turn t := run_snoc ..
    rw [hops, hstate]
    refine ⟨open_turn hopen ht, ?_, ?_, ?_⟩
    · rw [run_append]
      exact buffers_turn hopen hb ht
    · unfold fannedTurns
      rw [outputs_snoc, offered, List.filterMap_append, ← offered, ← offered, hoff,
        offered_turnOps]
      rfl
    · rw [along_snoc, along_append, hroom]
      refine and_congr_right fun _ => ?_
      cases t with
      | event e => exact room_iff_roomy hn hb fun he => ht (congrArg Turn.event he)
      | cancel p call => exact iff_of_true trivial trivial

/-! ## Top theorems (proved from the lemmas above) -/

/-- **Cancelling `__anext__` loses nothing.**  Any number of consumers, cancelled in any of their
`__anext__` calls: whenever no woken call is still to run, a stream that someone waits on has
nothing queued; before `close` a stream has lost nothing exactly if its queue had room for every
record; and where every event `Releases`, nobody is left waiting in a stream that has ended. -/
theorem cancel_lossless {n : Nat} (hn : 0 < n) (ts : List (Turn R)) (q : Nat) :
    let d := afterTurns n ts
    (d.AtRest → (d.stream q).suspended ≠ [] → (d.stream q).queue.items = []) ∧
    (.event .close ∉ ts →
      ((d.stream q).yielded ++ (d.stream q).queued).Sublist (fannedTurns n q ts) ∧
      (Along turn (OnEvents (Room n q)) (init n) ts ↔
        (d.stream q).yielded ++ (d.stream q).queued = fannedTurns n q ts)) ∧
    (Along turn (OnEvents Releases) (init n) ts → Released d) := by
  intro d
  have hsound : Sound d := sound_turns n ts
  refine ⟨fun hrest hne => hsound.at_rest hrest hne, fun hts => ?_, fun h => ?_⟩
  · obtain ⟨-, hb, hoff, hroom⟩ := turns_buffer hn hts q
    rw [hb.yielded, hb.queued, ← hoff, hroom]
    exact ⟨taken_append_queue_sublist n _, lossless_iff n _⟩
  · have hc : Covered d := by
      refine (h.invariant turn _ (I := fun d => Sound d ∧ Covered d) ?_
        ⟨sound_init n, fun q _ => not_short_of_suspended_nil rfl⟩).2
      exact fun d t hd ht => ⟨sound_turn hd.1 t, covered_turn hd.1 hd.2 ht⟩
    exact hc.released hsound

/-- Two consumers wait; a record wakes the first, which is cancelled before it runs. -/
def cancelledWoken : List (Turn Nat) :=
  [.event .records, .event (.on 0 (.anext 0)), .event (.on 0 (.anext 1)), .event (.dispatch 7),
    .cancel 0 0]

/-- The second is woken in its place and gets the record. -/
theorem cancelledWoken_yields :
    let d := afterTurns 1 (cancelledWoken ++ [.event (.on 0 (.resume 1))])
    (d.stream 0).yielded = [7] ∧
      Along turn (OnEvents (Room 1 0)) (init 1) (cancelledWoken ++ [.event (.on 0 (.resume 1))]) := by
  intro d
  refine ⟨by decide, ?_⟩
  exact ((cancel_lossless (by decide) _ 0).2.1 (by simp [cancelledWoken])).2.mpr (by decide)

end Streams

end FleetTelemetry
