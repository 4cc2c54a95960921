import FleetTelemetry.Dispatch.Streams

/-!
# Each record stream is a bounded drop-oldest buffer of its own

Up to `close`, the state of stream `q` is replayed from the records fanned out to
it and its own method calls (`stream_eq_replay`), and that replay is the abstract
buffer of `DropOldest` (`Buffers`): `offer` at a fan-out, `take` where
`__anext__` reaches the queue.
-/

namespace FleetTelemetry

open Runs DropOldest

variable {R : Type}

/-- What concerns one stream: a record fanned out to it, or one of its methods. -/
inductive OwnEvent (R : Type) where
  | fanned (r : R)
  | method (m : Method)

namespace RecordStream

def ownStep (st : RecordStream R) : OwnEvent R → RecordStream R
  | .fanned r => st.push (.record r)
  | .method m => (st.call m).1

/-- The state of a stream after its own events, on a queue of size `n`. -/
def replay (n : Nat) (os : List (OwnEvent R)) : RecordStream R := run ownStep (new n false) os

/-- What an event of the stream does to the abstract buffer. -/
def bufferOps (st : RecordStream R) : OwnEvent R → List (Op R)
  | .fanned r => [.offer r]
  | .method (.anext _) => if st.closed then [] else [.take]
  | .method (.resume _) => [.take]
  | .method _ => []

end RecordStream

namespace Streams

/-- What an event means to stream `q`. -/
def ownOf (q : Nat) (d : Streams R) : StreamEvent R → List (OwnEvent R)
  | .dispatch r => if q ∈ d.queues then [.fanned r] else []
  | .on p m => if p = q ∧ d.Enabled q m then [.method m] else []
  | .records => []
  | .close => []

/-- The events of a run that concern stream `q`, in order. -/
def own (n q : Nat) (es : List (StreamEvent R)) : List (OwnEvent R) :=
  outputs step (ownOf q) (init n) es

/-- The records whose fan-out happened while stream `q` was registered, in order. -/
def fanned (n q : Nat) (es : List (StreamEvent R)) : List R :=
  outputs step (fun d e => match e with
    | .dispatch r => if q ∈ d.queues then [r] else []
    | _ => []) (init n) es

/-- The dispatcher is not closed, and a stream not made yet is blank. -/
structure Open (n : Nat) (d : Streams R) : Prop where
  maxsize : d.queueMaxsize = n
  closed : d.closed = false
  blank : ∀ q, d.created ≤ q → d.stream q = RecordStream.new n false ∧ q ∉ d.queues

/-! ## Lemmas -/

theorem open_init (n : Nat) : Open n (init n : Streams R) := ⟨rfl, rfl, fun _ _ => ⟨rfl, by simp [init]⟩⟩

theorem put_open {n : Nat} {d : Streams R} (h : Open n d) {q : Nat} (hq : q < d.created)
    (r : RecordStream R × Bool) : Open n (d.put q r) := by
  refine ⟨?_, by rw [put_closed]; exact h.closed, fun p hp => ?_⟩
  · have : (d.put q r).queueMaxsize = d.queueMaxsize := by unfold put; split <;> rfl
    rw [this]; exact h.maxsize
  · rw [put_created] at hp
    obtain ⟨h1, h2⟩ := h.blank p hp
    exact ⟨by rw [put_stream, Function.update_of_ne (by omega), h1], by simp [h2]⟩

/-- Methods run on streams that have been made. -/
theorem Open.lt_created {n : Nat} {d : Streams R} (h : Open n d) {q : Nat} {m : Method}
    (hm : d.Enabled q m) : q < d.created := by
  cases m with
  | anext call => exact hm.1.1
  | resume call =>
    by_contra hq
    simp [Enabled, (h.blank q (by omega)).1, RecordStream.new, Queue.new] at hm
  | aclose => exact hm.1
  | aexit => exact hm.1
  | del => exact hm.1.1

theorem step_open {n : Nat} {d : Streams R} (h : Open n d) {e : StreamEvent R} (he : e ≠ .close) :
    Open n (d.step e) := by
  cases e with
  | records =>
    refine ⟨h.maxsize, h.closed, fun p hp => ?_⟩
    have hp' : d.created < p := hp
    obtain ⟨h1, h2⟩ := h.blank p (by omega)
    refine ⟨?_, ?_⟩
    · show Function.update d.stream d.created _ p = _
      rw [Function.update_of_ne (by omega), h1]
    · show p ∉ if d.closed then d.queues else d.queues.insert d.created
      rw [h.closed]
      simp [h2, show p ≠ d.created by omega]
  | dispatch r =>
    rw [step_dispatch]
    refine ⟨h.maxsize, h.closed, fun p hp => ?_⟩
    obtain ⟨h1, h2⟩ := h.blank p hp
    exact ⟨by simp [pushed, h2, h1], h2⟩
  | on q m =>
    simp only [step]
    split
    · next hm => exact put_open h (h.lt_created hm) _
    · exact h
  | close => exact absurd rfl he

/-- **Step lemma.**  A step changes stream `q` by what the event means to it. -/
theorem step_stream {n : Nat} {d : Streams R} (h : Open n d) {e : StreamEvent R} (he : e ≠ .close)
    (q : Nat) : (d.step e).stream q = run RecordStream.ownStep (d.stream q) (ownOf q d e) := by
  cases e with
  | records =>
    show Function.update d.stream d.created _ q = d.stream q
    by_cases hq : q = d.created
    · subst hq
      rw [Function.update_self, (h.blank _ (Nat.le_refl _)).1, h.maxsize, h.closed]
    · rw [Function.update_of_ne hq]
  | dispatch r =>
    rw [step_dispatch]
    simp only [pushed, ownOf]
    split <;> rfl
  | on p m =>
    simp only [step, ownOf]
    by_cases hp : p = q
    · subst hp
      by_cases hm : d.Enabled p m
      · simp [hm, RecordStream.ownStep]
      · simp [hm]
    · simp only [hp, false_and, if_false, run_nil]
      split
      · rw [put_stream, Function.update_of_ne (Ne.symm hp)]
      · rfl
  | close => exact absurd rfl he

theorem after_open {n : Nat} {es : List (StreamEvent R)} (hes : .close ∉ es) : Open n (after n es) := by
  have h : Along step (fun _ e => e ≠ .close) (init n) es :=
    (along_of_forall step _ es).2 fun e he hc => hes (hc ▸ he)
  exact h.invariant step _ (I := Open n) (fun d e ho he => step_open ho he) (open_init n)

/-- **A stream is replayed from its own events**, whatever the others do. -/
theorem stream_eq_replay {n : Nat} {es : List (StreamEvent R)} (hes : .close ∉ es) (q : Nat) :
    (after n es).stream q = RecordStream.replay n (own n q es) := by
  induction es using List.reverseRecOn with
  | nil => rfl
  | append_singleton es e ih =>
    simp only [List.mem_append, List.mem_singleton, not_or] at hes
    unfold after own RecordStream.replay at *
    rw [run_snoc, outputs_snoc, run_append, ← ih hes.1]
    exact step_stream (after_open hes.1) (Ne.symm hes.2) q

end Streams

/-! ## The buffer -/

namespace RecordStream

/-- The stream holds and has yielded what the abstract buffer holds and has let go. -/
structure Buffers (n : Nat) (st : RecordStream R) (f : State R) : Prop where
  maxsize : st.queue.maxsize = n
  items : st.queue.items = f.queue.map .record
  yielded : st.yielded = f.taken

theorem Buffers.push {n : Nat} {st : RecordStream R} {f : State R} (h : Buffers n st f) (r : R) :
    Buffers n (st.push (.record r)) (DropOldest.step n f (.offer r)) := by
  have hfull : Full st.queue.maxsize st.queue.items ↔ Full n f.queue := by
    simp [Full, h.maxsize, h.items]
  refine ⟨h.maxsize, ?_, ?_⟩
  · simp only [RecordStream.push, Queue.push_items, DropOldest.step, hfull]
    split <;> simp [h.items]
  · simp only [DropOldest.step]
    split <;> exact h.yielded

theorem Buffers.get {n : Nat} {st : RecordStream R} {f : State R} (h : Buffers n st f) (call : Nat) :
    Buffers n (st.get call).1 (DropOldest.step n f .take) := by
  have hi := h.items
  cases hq : f.queue with
  | nil =>
    rw [hq, List.map_nil] at hi
    simp only [RecordStream.get, Queue.getNowait_of_nil hi, DropOldest.step, hq]
    exact ⟨h.maxsize, by rw [hi, hq, List.map_nil], h.yielded⟩
  | cons r rs =>
    rw [hq, List.map_cons] at hi
    obtain ⟨hb, hg⟩ := Queue.getNowait_of_cons hi
    simp only [RecordStream.get, hg, DropOldest.step, hq]
    exact ⟨h.maxsize, rfl, by simpa [RecordStream.yielded] using h.yielded⟩

theorem Buffers.ownStep {n : Nat} {st : RecordStream R} {f : State R} (h : Buffers n st f)
    (o : OwnEvent R) : Buffers n (st.ownStep o) (run (DropOldest.step n) f (st.bufferOps o)) := by
  cases o with
  | fanned r => exact h.push r
  | method m =>
    cases m with
    | anext call =>
      simp only [RecordStream.ownStep, RecordStream.call, RecordStream.anext, RecordStream.bufferOps]
      by_cases hc : st.closed = true
      · simp only [hc, if_true, run_nil]
        exact ⟨h.maxsize, h.items, by simpa [RecordStream.yielded] using h.yielded⟩
      · simp only [hc]
        exact h.get call
    | resume call =>
      have h' : Buffers n { st with queue := { st.queue with ready := st.queue.ready.erase call } } f :=
        ⟨h.maxsize, h.items, h.yielded⟩
      exact h'.get call
    | aclose => exact ⟨h.maxsize, h.items, h.yielded⟩
    | aexit => exact ⟨h.maxsize, h.items, h.yielded⟩
    | del => exact ⟨h.maxsize, h.items, h.yielded⟩

/-- The operations on the abstract buffer that a stream's own events come to. -/
def buffer (n : Nat) (os : List (OwnEvent R)) : List (Op R) := outputs ownStep bufferOps (new n false) os

/-- **The replay of a stream is the abstract buffer.** -/
theorem replay_buffers (n : Nat) (os : List (OwnEvent R)) :
    Buffers n (replay n os) (run (DropOldest.step n) DropOldest.init (buffer n os)) := by
  unfold replay buffer
  refine history_invariant ownStep (s := new n false)
    (I := fun os st => Buffers n st (run (DropOldest.step n) DropOldest.init
      (outputs ownStep bufferOps (new n false) os)))
    ⟨rfl, rfl, rfl⟩ (fun os o ih => ?_) os
  rw [outputs_snoc, run_append]
  exact ih.ownStep o

theorem Buffers.queued {n : Nat} {st : RecordStream R} {f : State R} (h : Buffers n st f) :
    st.queued = f.queue := by
  unfold RecordStream.queued
  rw [h.items, List.filterMap_map]
  exact List.filterMap_some

theorem bufferOps_length (st : RecordStream R) (o : OwnEvent R) : (st.bufferOps o).length ≤ 1 := by
  cases o with
  | fanned r => exact Nat.le_refl _
  | method m =>
    cases m with
    | anext call => simp only [bufferOps]; split <;> simp
    | _ => simp [bufferOps]

theorem offered_bufferOps (st : RecordStream R) (o : OwnEvent R) :
    offered (st.bufferOps o) = match o with
      | .fanned r => [r]
      | .method _ => [] := by
  cases o with
  | fanned r => rfl
  | method m =>
    cases m with
    | anext call => simp only [bufferOps]; split <;> rfl
    | _ => rfl

end RecordStream

namespace Streams

theorem ownOf_length (q : Nat) (d : Streams R) (e : StreamEvent R) : (ownOf q d e).length ≤ 1 := by
  cases e with
  | dispatch r => simp only [ownOf]; split <;> simp
  | on p m => simp only [ownOf]; split <;> simp
  | _ => simp [ownOf]

/-- What is offered to the buffer of a stream is what was fanned out to it. -/
theorem offered_buffer (n q : Nat) (es : List (StreamEvent R)) :
    offered (RecordStream.buffer n (own n q es)) = fanned n q es := by
  induction es using List.reverseRecOn with
  | nil => rfl
  | append_singleton es e ih =>
    unfold own fanned RecordStream.buffer at *
    rw [outputs_snoc, outputs_append, outputs_snoc, offered, List.filterMap_append, ← offered, ih]
    congr 1
    cases e with
    | dispatch r => simp only [ownOf]; split <;> simp [outputs, RecordStream.bufferOps]
    | on p m =>
      simp only [ownOf]
      split
      · simpa [outputs, offered] using RecordStream.offered_bufferOps _ (.method m)
      · rfl
    | _ => rfl

/-- A cut in the buffer's operations at an offer is a cut in the run at a fan-out to the
stream. -/
theorem cut_at_offer {n q : Nat} {es : List (StreamEvent R)} {before after' : List (Op R)} {r : R}
    (h : RecordStream.buffer n (own n q es) = before ++ .offer r :: after') :
    ∃ es₁ es₂, es = es₁ ++ .dispatch r :: es₂ ∧ q ∈ (after n es₁).queues ∧
      RecordStream.buffer n (own n q es₁) = before := by
  obtain ⟨os₁, o, os₂, hos, hb, ho⟩ :=
    outputs_cut RecordStream.ownStep _ RecordStream.bufferOps_length h
  obtain ⟨es₁, e, es₂, rfl, hown, he⟩ := outputs_cut step _ (ownOf_length q) hos
  subst hown
  have hfan : o = .fanned r := by
    cases o with
    | fanned r' => simpa [RecordStream.bufferOps] using ho
    | method m =>
      have := congrArg offered ho
      rw [RecordStream.offered_bufferOps] at this
      simp [offered] at this
  subst hfan
  cases e with
  | dispatch r' =>
    simp only [ownOf] at he
    split at he
    · next hq =>
      simp only [List.cons.injEq, OwnEvent.fanned.injEq, and_true] at he
      subst he
      exact ⟨es₁, es₂, rfl, hq, hb⟩
    · cases he
  | on p m =>
    simp only [ownOf] at he
    split at he <;> simp at he
  | records => cases he
  | close => cases he

/-! ## Top theorems (proved from the lemmas above) -/

/-- Record number `i` of those fanned out to stream `q` was the oldest item of its full queue
when a newer record was dispatched. -/
def DroppedAt (n q : Nat) (es : List (StreamEvent R)) (i : Nat) : Prop :=
  ∃ es₁ r es₂, es = es₁ ++ .dispatch r :: es₂ ∧ q ∈ (after n es₁).queues ∧
    ((after n es₁).stream q).queued.length = n ∧
    ((after n es₁).stream q).queued.head? = (fanned n q es)[i]? ∧
    (fanned n q es₁).length = i + n

/-- The abstract buffer of stream `q`. -/
def bufferState (n q : Nat) (es : List (StreamEvent R)) : State R :=
  run (DropOldest.step n) DropOldest.init (RecordStream.buffer n (own n q es))

theorem stream_buffers {n : Nat} {es : List (StreamEvent R)} (hes : .close ∉ es) (q : Nat) :
    RecordStream.Buffers n ((after n es).stream q) (bufferState n q es) := by
  rw [stream_eq_replay hes]
  exact RecordStream.replay_buffers n _

theorem bufferState_ledger (n q : Nat) (es : List (StreamEvent R)) :
    Ledger (fanned n q es) (bufferState n q es) := by
  rw [← offered_buffer]
  exact ledger n _

/-- What the abstract buffer dropped, the stream's queue dropped when it was full. -/
theorem droppedAt_of_fate {n : Nat} {es : List (StreamEvent R)} (hes : .close ∉ es) {q i : Nat}
    (h : (bufferState n q es).fates[i]? = some false) : DroppedAt n q es i := by
  obtain ⟨before, r, after', hcut, hfull, hi⟩ := dropped_when_full n _ i h
  obtain ⟨es₁, es₂, rfl, hreg, rfl⟩ := cut_at_offer hcut
  have hb := stream_buffers (n := n) (fun h => hes (List.mem_append_left _ h)) q
  obtain ⟨gone, hgone, hlen, -⟩ := bufferState_ledger n q es₁
  have hn : (bufferState n q es₁).queue.length = n :=
    Nat.le_antisymm (queue_length_le n hfull.1 _) hfull.2
  have hi' : (bufferState n q es₁).fates.length = i := hi
  refine ⟨es₁, r, es₂, rfl, hreg, by rw [hb.queued, hn], ?_, ?_⟩
  · -- the fan-outs of the whole run continue those of its first part
    have hpre : ∃ rest, fanned n q (es₁ ++ .dispatch r :: es₂) = fanned n q es₁ ++ rest :=
      ⟨_, outputs_append step _ _ _ _⟩
    obtain ⟨rest, hrest⟩ := hpre
    rw [hb.queued, hrest, hgone, List.append_assoc, List.getElem?_append_right (by omega),
      List.getElem?_append_left (by have := hfull.1; omega), hlen, hi', Nat.sub_self,
      List.head?_eq_getElem?]
  · rw [hgone, List.length_append, hn, hlen, hi']

/-- **A record stream is a bounded drop-oldest buffer**, before `close` and at every step. -/
theorem stream_dropOldest (n : Nat) (hn : 0 < n) (es : List (StreamEvent R)) (hes : .close ∉ es)
    (q : Nat) :
    let st := (after n es).stream q
    st.queue.items = st.queued.map .record ∧
    st.queued <:+ fanned n q es ∧ st.queued.length ≤ n ∧
    (st.yielded ++ st.queued).Sublist (fanned n q es) ∧
    (∃ fates, fates.length + st.queued.length = (fanned n q es).length ∧
      st.yielded = keep fates (fanned n q es) ∧
      ∀ i, fates[i]? = some false → DroppedAt n q es i) ∧
    (∀ r, ∃ d, (after n es).fanOut r = .ok d) ∧
    (∀ es' q', .close ∉ es' → own n q' es' = own n q es → (after n es').stream q' = st) := by
  intro st
  have hb := stream_buffers (n := n) hes q
  have hq : st.queued = (bufferState n q es).queue := hb.queued
  have hy : st.yielded = (bufferState n q es).taken := hb.yielded
  obtain ⟨gone, hgone, hlen, hkeep⟩ := bufferState_ledger n q es
  have hlosses : ∃ fates, fates.length + st.queued.length = (fanned n q es).length ∧
      st.yielded = keep fates (fanned n q es) ∧
      ∀ i, fates[i]? = some false → DroppedAt n q es i := by
    refine ⟨(bufferState n q es).fates, ?_, ?_, fun i hi => droppedAt_of_fate hes hi⟩
    · rw [hq, hgone, List.length_append, hlen]
    · rw [hy, hkeep, hgone, keep_append _ _ _ hlen]
  refine ⟨by rw [hq]; exact hb.items, ?_, ?_, ?_, hlosses, fun r => ⟨_, fanOut_eq _ r⟩, ?_⟩
  · rw [hq, ← offered_buffer]; exact queue_suffix n _
  · rw [hq]; exact queue_length_le n hn _
  · rw [hq, hy, ← offered_buffer]; exact taken_append_queue_sublist n _
  · intro es' q' hes' h
    rw [stream_eq_replay hes', h, ← stream_eq_replay hes]

/-- Two records fanned out to a queue of size one: the first is dropped. -/
theorem stream_dropOldest_one :
    let es : List (StreamEvent Nat) := [.records, .dispatch 1, .dispatch 2, .on 0 (.anext 0)]
    ((after 1 es).stream 0).yielded = [2] ∧
      ((after 1 es).stream 0).queued <:+ fanned 1 0 es :=
  ⟨by decide, (stream_dropOldest 1 (by decide) _ (by simp) 0).2.1⟩

end Streams

end FleetTelemetry
