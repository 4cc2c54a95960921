import FleetTelemetry.Dispatch.StreamClose

/-!
# When a record stream loses records

A full queue drops its oldest record.  Up to `close` that is the only way a stream
loses one, and `close` itself drops one where the sentinel finds no room:

    (yielded ++ queued).Sublist fanned, in every run                      (held_sublist_fanned)
    yielded ++ queued = fanned ↔ every fan-out to the stream finds room   (stream_lossless_iff)
    the loop ended → (yielded = fanned ↔ … and the sentinel found room)   (ended_lossless_iff)
-/

namespace FleetTelemetry

open Runs DropOldest

variable {R : Type}

namespace RecordStream

/-! ## Lemmas on one stream -/

theorem get_records (st : RecordStream R) (call : Nat) :
    (st.get call).1.yielded ++ (st.get call).1.queued = st.yielded ++ st.queued := by
  unfold yielded queued
  rw [get_results, get_items]
  cases hi : st.queue.items with
  | nil => simp
  | cons x xs => cases x <;> simp

/-- No method loses a record. -/
theorem call_records (st : RecordStream R) (m : Method) :
    (st.call m).1.yielded ++ (st.call m).1.queued = st.yielded ++ st.queued := by
  cases m with
  | anext c =>
    simp only [call, anext]
    split
    · simp [yielded, queued]
    · exact get_records st c
  | resume c => exact get_records _ c
  | aclose | aexit | del => rfl

/-- What is put on a queue comes after a part of what it held. -/
theorem queued_push (st : RecordStream R) (x : Item R) :
    (st.push x).queued.Sublist (st.queued ++ match x with
      | .record r => [r]
      | .sentinel => []) := by
  have htail : (if Full st.queue.maxsize st.queue.items then st.queue.items.tail
      else st.queue.items).Sublist st.queue.items := by
    split
    · exact List.tail_sublist _
    · exact List.Sublist.refl _
  unfold queued push
  rw [Queue.push_items, List.filterMap_append]
  refine (htail.filterMap _).append ?_
  cases x <;> exact List.Sublist.refl _

end RecordStream

namespace Streams

/-- A record that is fanned out to stream `q` finds room in its queue. -/
def Room (n q : Nat) (d : Streams R) : StreamEvent R → Prop
  | .dispatch _ => q ∈ d.queues → (d.stream q).queued.length < n
  | _ => True

/-! ## Lemmas -/

/-- The operations on the buffer that an event comes to. -/
theorem buffer_snoc (n q : Nat) (es : List (StreamEvent R)) (e : StreamEvent R) :
    RecordStream.buffer n (own n q (es ++ [e])) = RecordStream.buffer n (own n q es) ++
      outputs RecordStream.ownStep RecordStream.bufferOps (RecordStream.replay n (own n q es))
        (ownOf q (after n es) e) := by
  unfold RecordStream.buffer own
  rw [outputs_snoc, outputs_append]
  rfl

/-- A method offers nothing. -/
theorem along_method (n : Nat) (st : RecordStream R) (f : State R) (m : Method) :
    Along (DropOldest.step n) (Roomy n) f (st.bufferOps (.method m)) := by
  cases m with
  | anext call =>
    simp only [RecordStream.bufferOps]
    split
    · trivial
    · exact ⟨trivial, trivial⟩
  | resume call => exact ⟨trivial, trivial⟩
  | aclose | aexit | del => trivial

/-- The queue of a stream has room for an event where the abstract buffer has. -/
theorem room_iff_roomy {n : Nat} (hn : 0 < n) {d : Streams R} {q : Nat} {f : State R}
    (hb : RecordStream.Buffers n (d.stream q) f) {e : StreamEvent R} (he : e ≠ .close) :
    Room n q d e ↔ Along (DropOldest.step n) (Roomy n) f
      (outputs RecordStream.ownStep RecordStream.bufferOps (d.stream q) (ownOf q d e)) := by
  cases e with
  | dispatch r =>
    simp only [ownOf, Room]
    split
    · next hq =>
      rw [hb.queued]
      show (q ∈ d.queues → f.queue.length < n) ↔ ¬ Full n f.queue ∧ True
      simp only [hq, true_imp_iff, and_true, Full]
      omega
    · next hq => exact iff_of_true (fun h => absurd h hq) trivial
  | on p m =>
    refine iff_of_true trivial ?_
    simp only [ownOf]
    split
    · simp only [outputs, List.append_nil]
      exact along_method n _ _ m
    · trivial
  | records => exact iff_of_true trivial trivial
  | close => exact absurd rfl he

/-- The stream's queue has room along a run where the abstract buffer has. -/
theorem along_room_iff {n : Nat} (hn : 0 < n) {es : List (StreamEvent R)} (hes : .close ∉ es)
    (q : Nat) :
    Along step (Room n q) (init n) es ↔
      Along (DropOldest.step n) (Roomy n) DropOldest.init (RecordStream.buffer n (own n q es)) := by
  induction es using List.reverseRecOn with
  | nil => exact Iff.rfl
  | append_singleton es e ih =>
    simp only [List.mem_append, List.mem_singleton, not_or] at hes
    rw [along_snoc, buffer_snoc, along_append, ih hes.1, ← stream_eq_replay hes.1]
    exact and_congr_right fun _ => room_iff_roomy hn (stream_buffers hes.1 q) (Ne.symm hes.2)

/-- **A stream yields and holds a part of what is fanned out to it**, in order, and no event
brings a lost record back. -/
theorem held_sublist_fanned (n q : Nat) (es : List (StreamEvent R)) :
    (((after n es).stream q).yielded ++ ((after n es).stream q).queued).Sublist (fanned n q es) := by
  induction es using List.reverseRecOn with
  | nil => exact List.Sublist.refl _
  | append_singleton es e ih =>
    have hfanned : (fanned n q es).Sublist (fanned n q (es ++ [e])) := by
      unfold fanned
      rw [outputs_snoc]
      exact List.sublist_append_left _ _
    rw [after_snoc]
    rcases step_stream_cases (after n es) e q with h | ⟨-, -, h⟩ | ⟨r, rfl, hq, h⟩ | ⟨m, -, -, h⟩ |
      ⟨-, -, h⟩
    · rw [h]
      exact ih.trans hfanned
    · -- a stream that is new has nothing
      rw [h]
      exact List.nil_sublist _
    · have hsnoc : fanned n q (es ++ [.dispatch r]) = fanned n q es ++ [r] := by
        unfold fanned
        rw [outputs_snoc]
        exact congrArg _ (if_pos hq)
      rw [h, hsnoc]
      refine (List.Sublist.append (List.Sublist.refl _)
        (RecordStream.queued_push _ (.record r))).trans ?_
      rw [← List.append_assoc]
      exact ih.append (List.Sublist.refl _)
    · rw [h, RecordStream.call_records]
      exact ih.trans hfanned
    · rw [h]
      refine (List.Sublist.append (List.Sublist.refl _)
        (RecordStream.queued_push _ .sentinel)).trans ?_
      rw [List.append_nil]
      exact ih.trans hfanned

/-- The methods that ran on a stream are events of the run. -/
theorem on_of_ownOf {d : Streams R} {e : StreamEvent R} {q : Nat} {m : Method}
    (h : .method m ∈ ownOf q d e) : e = .on q m := by
  cases e with
  | on p m' =>
    simp only [ownOf] at h
    split at h
    · next hp => rw [hp.1, OwnEvent.method.inj (List.mem_singleton.mp h)]
    · cases h
  | dispatch r =>
    simp only [ownOf] at h
    split at h
    · cases List.mem_singleton.mp h
    · cases h
  | records | close => cases h

/-- A stream that is open at `close`, and that no `aclose` or `__aexit__` ends after it. -/
theorem not_left {n : Nat} {es es' : List (StreamEvent R)} {q : Nat} (hq : q ∈ (after n es).queues)
    {m : Method} (hm : m.Leaves) (h : .on q m ∉ es') :
    .method m ∉ own n q (es ++ .close :: es') := by
  intro hmem
  unfold own at hmem
  rw [outputs_append, List.mem_append] at hmem
  rcases hmem with hmem | hmem
  · exact ((registered_iff n es q).mp hq).2.2 m hmem hm
  · obtain ⟨e, he, d, hd⟩ := mem_outputs _ _ hmem
    obtain rfl := on_of_ownOf hd
    rcases List.mem_cons.mp he with he | he
    · cases he
    · exact h he

theorem filterMap_outcomes (kept : List R) (m : Nat) :
    ((List.range m).map (kept[·]?)).filterMap id = kept.take m := by
  induction m with
  | zero => rfl
  | succ m ih =>
    rw [List.range_succ, List.map_append, List.filterMap_append, ih, List.take_add_one]
    cases h : kept[m]? <;> simp [h]

/-- What a stream that was drained has yielded. -/
theorem drained_yielded {kept : List R} {new : List (Nat × Option R)} {before st : RecordStream R}
    (h : RecordStream.Drained kept before.results new st) :
    st.yielded = before.yielded ++ kept.take new.length := by
  have hnew : new.filterMap (·.2) = (new.map Prod.snd).filterMap id := by
    rw [List.filterMap_map]
    rfl
  unfold RecordStream.yielded
  rw [h.results, List.filterMap_append, hnew, h.outcomes, filterMap_outcomes]

/-- A loop that ended had nothing left to take. -/
theorem drained_ended {kept : List R} {new : List (Nat × Option R)}
    {before : List (Nat × Option R)} {st : RecordStream R}
    (h : RecordStream.Drained kept before new st) {call : Nat} (hcall : (call, none) ∈ new) :
    kept.length ≤ new.length := by
  have hmem : none ∈ new.map Prod.snd := List.mem_map.mpr ⟨_, hcall, rfl⟩
  rw [h.outcomes, List.mem_map] at hmem
  obtain ⟨k, hk, hnone⟩ := hmem
  have hlt := List.mem_range.mp hk
  have hge := List.getElem?_eq_none_iff.mp hnone
  omega

/-- `close` drops a record exactly where the queue is full. -/
theorem lost_nil_iff {n : Nat} (hn : 0 < n) {es : List (StreamEvent R)} {q : Nat}
    (hq : q ∈ (after n es).queues) {lost kept : List R}
    (hi : ((after n es).stream q).queue.items = (lost ++ kept).map .record)
    (hkept : ((after n es).close.stream q).queue.items = kept.map .record ++ [.sentinel]) :
    lost = [] ↔ (lost ++ kept).length < n := by
  have hb := stream_buffers (n := n) ((registered_iff n es q).mp hq).2.1 q
  have hlen : kept.length + 1 =
      if Full n ((lost ++ kept).map Item.record) then lost.length + kept.length
      else lost.length + kept.length + 1 := by
    have hpush := RecordStream.items_push ((after n es).stream q) (.sentinel : Item R)
    have hstream : (after n es).close.stream q = ((after n es).stream q).push .sentinel := by
      rw [close_stream, if_pos hq]
    rw [← hstream, hkept, hb.maxsize, hi] at hpush
    simpa using hpush
  have hfull : Full n ((lost ++ kept).map Item.record) ↔ n ≤ lost.length + kept.length := by
    simp [Full, hn]
  rw [← List.length_eq_zero_iff, List.length_append]
  split at hlen
  · next hf =>
    have := hfull.mp hf
    omega
  · next hf =>
    rw [hfull] at hf
    omega

/-! ## Top theorems (proved from the lemmas above) -/

/-- **A stream has lost nothing exactly if its queue had room for every record.** -/
theorem stream_lossless_iff {n : Nat} (hn : 0 < n) {es : List (StreamEvent R)} (hes : .close ∉ es)
    (q : Nat) :
    Along step (Room n q) (init n) es ↔
      ((after n es).stream q).yielded ++ ((after n es).stream q).queued = fanned n q es := by
  have hb := stream_buffers (n := n) hes q
  rw [along_room_iff hn hes, lossless_iff, offered_buffer, hb.queued, hb.yielded]
  rfl

/-- **A loop that has ended got everything exactly if its queue had room for every record and for
the sentinel.** -/
theorem ended_lossless_iff {n : Nat} (hn : 0 < n) {es es' : List (StreamEvent R)} {q : Nat}
    (hq : q ∈ (after n es).queues)
    (hopen : .method .aclose ∉ own n q (es ++ .close :: es') ∧
      .method .aexit ∉ own n q (es ++ .close :: es')) :
    ((after n (es ++ .close :: es')).stream q).yielded.Sublist (fanned n q es) ∧
    ((∃ call, (call, none) ∈ ((after n (es ++ .close :: es')).stream q).results) →
      (((after n (es ++ .close :: es')).stream q).yielded = fanned n q es ↔
        Along step (Room n q) (init n) es ∧ ((after n es).stream q).queued.length < n)) := by
  have hclose : .close ∉ es := ((registered_iff n es q).mp hq).2.1
  obtain ⟨lost, kept, hi, -, -, hkept⟩ := close_kept hq
  obtain ⟨new, hnew⟩ := drained_after hq hkept es' hopen
  have hqueued : ((after n es).stream q).queued = lost ++ kept := by
    unfold RecordStream.queued
    rw [hi, List.filterMap_map]
    exact List.filterMap_some
  have hheld := held_sublist_fanned n q es
  rw [hqueued] at hheld ⊢
  rw [drained_yielded hnew]
  refine ⟨?_, ?_⟩
  · refine List.Sublist.trans (List.Sublist.append (List.Sublist.refl _) ?_) hheld
    exact (List.take_sublist _ _).trans (List.sublist_append_right _ _)
  · rintro ⟨call, hcall⟩
    have hcall' : (call, none) ∈ new := by
      rw [hnew.results] at hcall
      refine (List.mem_append.mp hcall).resolve_left fun h => ?_
      have hcl := closed_of_stopped n q es ⟨call, h⟩
      rw [(((sound_after n es).registered q).mp hq).2.1] at hcl
      cases hcl
    rw [List.take_of_length_le (drained_ended hnew hcall'), stream_lossless_iff hn hclose, hqueued,
      ← lost_nil_iff hn hq hi hkept]
    constructor
    · intro h
      have hle := hheld.length_le
      rw [← h] at hle
      simp only [List.length_append] at hle
      have hnil : lost = [] := List.eq_nil_of_length_eq_zero (by omega)
      subst hnil
      exact ⟨h, rfl⟩
    · rintro ⟨h, rfl⟩
      exact h

end Streams

end FleetTelemetry
