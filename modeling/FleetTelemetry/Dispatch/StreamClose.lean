import FleetTelemetry.Dispatch.StreamFifo
import FleetTelemetry.Dispatch.StreamRelease

/-!
# The end of the record streams

What `close`, `aclose` and a dropped stream leave behind, in any run:

    q ∈ queues ↔ made, no `close` yet, and no method that leaves ran on it    (registered_iff)
    items = records, then the sentinel at most                               (shaped_after)
    after `close` the finished calls return kept[0]?, kept[1]?, …            (drained_after)

where `kept` is what `close` left in the queue: all of it, or all but the oldest
record of a full queue.
-/

namespace FleetTelemetry

open Runs DropOldest

variable {R : Type}

/-- How many streams the events make. -/
def made (es : List (StreamEvent R)) : Nat :=
  (es.filter fun
    | .records => true
    | _ => false).length

/-- The method takes the queue out of the fan-out set, whatever it finds. -/
def Method.Leaves : Method → Prop
  | .aclose => True
  | .aexit => True
  | .del => True
  | _ => False

namespace RecordStream

/-- Records, then the sentinel at most. -/
def Shaped (st : RecordStream R) : Prop :=
  ∃ rs : List R, st.queue.items = rs.map .record ∨ st.queue.items = rs.map .record ++ [.sentinel]

/-- The calls `new` that finished after `before` returned the records of `kept` in order, then the
end; what they have not returned is in the queue, before the sentinel. -/
structure Drained (kept : List R) (before new : List (Nat × Option R)) (st : RecordStream R) :
    Prop where
  results : st.results = before ++ new
  outcomes : new.map Prod.snd = (List.range new.length).map (kept[·]?)
  rest : (st.closed = false ∧ new.length ≤ kept.length ∧
      st.queue.items = (kept.drop new.length).map .record ++ [.sentinel]) ∨
    (st.closed = true ∧ kept.length < new.length ∧ st.queue.items = [])

/-! ## Lemmas on one stream -/

theorem get_items (st : RecordStream R) (call : Nat) :
    (st.get call).1.queue.items = st.queue.items.tail := by
  cases hi : st.queue.items with
  | nil => rw [get_of_nil hi, hi]; rfl
  | cons x xs => rw [(get_of_cons hi call).1]; rfl

theorem Shaped.of_items {st st' : RecordStream R} (h : st.Shaped)
    (hi : st'.queue.items = st.queue.items ∨ st'.queue.items = st.queue.items.tail) :
    st'.Shaped := by
  obtain ⟨rs, hr⟩ := h
  rcases hi with hi | hi
  · exact ⟨rs, by rw [hi]; exact hr⟩
  · refine ⟨rs.tail, ?_⟩
    rcases hr with hr | hr
    · exact .inl (by rw [hi, hr, List.map_tail])
    · rw [hi, hr]
      cases rs with
      | nil => exact .inl rfl
      | cons r rs => exact .inr rfl

theorem Shaped.push {st : RecordStream R} (h : st.Shaped) (hs : .sentinel ∉ st.queue.items)
    (x : Item R) : (st.push x).Shaped := by
  obtain ⟨rs, hr | hr⟩ := h
  · have hkept : ∃ kept : List R, (if Full st.queue.maxsize st.queue.items
        then st.queue.items.tail else st.queue.items) = kept.map .record := by
      split
      · exact ⟨rs.tail, by rw [hr, List.map_tail]⟩
      · exact ⟨rs, hr⟩
    obtain ⟨kept, hk⟩ := hkept
    cases x with
    | record r =>
      refine ⟨kept ++ [r], .inl ?_⟩
      show (st.queue.push _).items = _
      rw [Queue.push_items, hk, List.map_append]
      rfl
    | sentinel =>
      refine ⟨kept, .inr ?_⟩
      show (st.queue.push _).items = _
      rw [Queue.push_items, hk]
  · exact absurd (by rw [hr]; simp) hs

theorem call_items (st : RecordStream R) (m : Method) :
    (st.call m).1.queue.items = st.queue.items ∨ (st.call m).1.queue.items = st.queue.items.tail := by
  cases m with
  | anext c =>
    simp only [call, anext]
    split
    · exact .inl rfl
    · exact .inr (get_items st c)
  | resume c => exact .inr (get_items _ c)
  | _ => exact .inl rfl

theorem get_flag {st : RecordStream R} {call : Nat} (h : (st.get call).2 = true) :
    .sentinel ∈ st.queue.items := by
  cases hi : st.queue.items with
  | nil => rw [get_of_nil hi] at h; cases h
  | cons x xs =>
    rcases (get_of_cons hi call).2.2.2.2.2 with ⟨rfl, -⟩ | ⟨-, hf⟩
    · exact List.mem_cons_self
    · rw [hf] at h; cases h

/-- Short of the sentinel a queue leaves the fan-out set by the three methods only. -/
theorem call_flag {st : RecordStream R} (hs : .sentinel ∉ st.queue.items) (m : Method) :
    (st.call m).2 = true ↔ m.Leaves := by
  cases m with
  | anext c =>
    simp only [call, anext, Method.Leaves, iff_false]
    split
    · simp
    · exact fun h => hs (get_flag h)
  | resume c =>
    simp only [call, resume, Method.Leaves, iff_false]
    intro h
    have hmem := get_flag h
    exact hs hmem
  | aclose => simp [call, aclose, Method.Leaves]
  | aexit => simp [call, aexit, aclose, Method.Leaves]
  | del => simp [call, del, Method.Leaves]

theorem get_results (st : RecordStream R) (call : Nat) :
    (st.get call).1.results = st.results ++ match st.queue.items with
      | [] => []
      | .record r :: _ => [(call, some r)]
      | .sentinel :: _ => [(call, none)] := by
  cases hi : st.queue.items with
  | nil => rw [get_of_nil hi]; simp
  | cons x xs =>
    obtain ⟨hb, hg⟩ := Queue.getNowait_of_cons hi
    cases x <;> (unfold get; rw [hg])

/-- A call that ends in `StopAsyncIteration` leaves the stream closed. -/
theorem closed_of_none {st : RecordStream R} {m : Method} {c : Nat}
    (h : (c, none) ∈ (st.call m).1.results) :
    (c, none) ∈ st.results ∨ (st.call m).1.closed = true := by
  have hget {st' : RecordStream R} {call : Nat} (h : (c, none) ∈ (st'.get call).1.results) :
      (c, none) ∈ st'.results ∨ (st'.get call).1.closed = true := by
    rw [get_results] at h
    refine (List.mem_append.mp h).imp id fun h => (get_closed st' call).2 (.inr ?_)
    split at h
    · cases h
    · simp at h
    · next hi => rw [hi]; rfl
  cases m with
  | anext call =>
    simp only [RecordStream.call, anext] at h ⊢
    split
    · next hc => exact .inr hc
    · next hc =>
      rw [if_neg hc] at h
      exact hget h
  | resume call => exact hget h
  | aclose => exact .inl h
  | aexit => exact .inl h
  | del => exact .inl h

/-! ### Draining -/

/-- One more outcome after the first `k`. -/
theorem outcomes_snoc {kept : List R} {new : List (Nat × Option R)} {call : Nat}
    (h : new.map Prod.snd = (List.range new.length).map (kept[·]?)) :
    (new ++ [(call, kept[new.length]?)]).map Prod.snd =
      (List.range (new ++ [(call, kept[new.length]?)]).length).map (kept[·]?) := by
  rw [List.map_append, h, List.length_append, List.length_singleton, List.range_succ,
    List.map_append]
  rfl

section
variable {kept : List R} {before new : List (Nat × Option R)} {st : RecordStream R}

/-- While the sentinel is in the queue a call that reaches it finishes. -/
theorem Drained.get (h : Drained kept before new st) (hc : st.closed = false) (call : Nat) :
    Drained kept before (new ++ [(call, kept[new.length]?)]) (st.get call).1 := by
  obtain ⟨-, hle, hi⟩ | ⟨hc', -⟩ := h.rest
  · refine ⟨?_, outcomes_snoc h.outcomes, ?_⟩
    · rw [get_results, h.results, List.append_assoc]
      congr 2
      rcases Nat.lt_or_eq_of_le hle with hlt | heq
      · rw [hi, List.drop_eq_getElem_cons hlt, List.map_cons, List.getElem?_eq_getElem hlt]
        rfl
      · rw [hi, heq, List.drop_length, List.getElem?_eq_none (Nat.le_refl _)]
        rfl
    · rw [get_items, hi, List.length_append, List.length_singleton]
      rcases Nat.lt_or_eq_of_le hle with hlt | heq
      · refine .inl ⟨?_, hlt, by rw [List.drop_eq_getElem_cons hlt]; rfl⟩
        rw [← Bool.not_eq_true, get_closed, hi, List.drop_eq_getElem_cons hlt]
        simp [hc, List.getElem?_eq_getElem hlt]
      · refine .inr ⟨?_, by omega, by rw [heq, List.drop_length]; rfl⟩
        rw [get_closed, hi, heq, List.drop_length]
        exact .inr rfl
  · rw [hc] at hc'; cases hc'

/-- A `__anext__` call finishes at once, with what comes next. -/
theorem Drained.anext (h : Drained kept before new st) (call : Nat) :
    Drained kept before (new ++ [(call, kept[new.length]?)]) (st.anext call).1 := by
  cases hc : st.closed with
  | false =>
    unfold RecordStream.anext
    rw [hc]
    exact h.get hc call
  | true =>
    obtain ⟨hc', -⟩ | ⟨-, hlt, hi⟩ := h.rest
    · rw [hc] at hc'; cases hc'
    · unfold RecordStream.anext
      rw [hc, if_pos rfl]
      refine ⟨?_, outcomes_snoc h.outcomes, .inr ⟨rfl, ?_, hi⟩⟩
      · rw [h.results, List.append_assoc, List.getElem?_eq_none (Nat.le_of_lt hlt)]
      · rw [List.length_append, List.length_singleton]
        omega

theorem Drained.call (h : Drained kept before new st) {m : Method} (ha : m ≠ .aclose)
    (hx : m ≠ .aexit) : ∃ new, Drained kept before new (st.call m).1 := by
  cases m with
  | anext call => exact ⟨_, h.anext call⟩
  | resume call =>
    have h' : Drained kept before new
        { st with queue := { st.queue with ready := st.queue.ready.erase call } } :=
      ⟨h.results, h.outcomes, h.rest⟩
    cases hc : st.closed with
    | false => exact ⟨_, h'.get hc call⟩
    | true =>
      obtain ⟨hc', -⟩ | ⟨-, hlt, hi⟩ := h'.rest
      · replace hc' : st.closed = false := hc'
        rw [hc] at hc'; cases hc'
      · refine ⟨new, ?_⟩
        show Drained kept before new (RecordStream.get _ call).1
        rw [get_of_nil hi]
        exact ⟨h.results, h.outcomes, .inr ⟨hc, hlt, hi⟩⟩
  | aclose => exact absurd rfl ha
  | aexit => exact absurd rfl hx
  | del => exact ⟨new, h.results, h.outcomes, h.rest⟩

end

end RecordStream

namespace Streams

/-! ## Lemmas on runs -/

/-- What a step can do to a stream. -/
theorem step_stream_cases (d : Streams R) (e : StreamEvent R) (q : Nat) :
    (d.step e).stream q = d.stream q ∨
    (e = .records ∧ q = d.created ∧
      (d.step e).stream q = RecordStream.new d.queueMaxsize d.closed) ∨
    (∃ r, e = .dispatch r ∧ q ∈ d.queues ∧ (d.step e).stream q = (d.stream q).push (.record r)) ∨
    (∃ m, e = .on q m ∧ d.Enabled q m ∧ (d.step e).stream q = ((d.stream q).call m).1) ∨
    (e = .close ∧ q ∈ d.queues ∧ (d.step e).stream q = (d.stream q).push .sentinel) := by
  cases e with
  | records =>
    have hs : (d.step .records).stream q =
        if q = d.created then RecordStream.new d.queueMaxsize d.closed else d.stream q := by
      show Function.update d.stream d.created _ q = _
      rw [Function.update_apply]
    split at hs
    · next hq => exact .inr (.inl ⟨rfl, hq, hs⟩)
    · exact .inl hs
  | dispatch r =>
    rw [step_dispatch]
    by_cases hq : q ∈ d.queues
    · exact .inr (.inr (.inl ⟨r, rfl, hq, if_pos hq⟩))
    · exact .inl (if_neg hq)
  | on p m =>
    by_cases hm : d.Enabled p m
    · rw [step_on d hm, put_stream]
      by_cases hq : q = p
      · subst hq
        rw [Function.update_self]
        exact .inr (.inr (.inr (.inl ⟨m, rfl, hm, rfl⟩)))
      · exact .inl (Function.update_of_ne hq _ _)
    · exact .inl (by rw [show d.step (.on p m) = d from if_neg hm])
  | close =>
    have hs := close_stream d q
    split at hs
    · next hq => exact .inr (.inr (.inr (.inr ⟨rfl, hq, hs⟩)))
    · exact .inl hs

theorem step_created (d : Streams R) (e : StreamEvent R) :
    (d.step e).created = d.created + made [e] := by
  cases e with
  | records => rfl
  | dispatch r => rw [step_dispatch]; rfl
  | on q m =>
    simp only [step]
    split
    · rw [put_created]; rfl
    · rfl
  | close => exact close_created d

theorem step_closed (d : Streams R) (e : StreamEvent R) :
    (d.step e).closed = true ↔ d.closed = true ∨ e = .close := by
  cases e with
  | records => simp [step, records]
  | dispatch r => rw [step_dispatch]; simp [pushed]
  | on q m =>
    simp only [step]
    split <;> simp
  | close => simp [step]

theorem made_append (es es' : List (StreamEvent R)) : made (es ++ es') = made es + made es' := by
  unfold made
  rw [List.filter_append, List.length_append]

theorem after_snoc (n : Nat) (es : List (StreamEvent R)) (e : StreamEvent R) :
    after n (es ++ [e]) = (after n es).step e :=
  run_snoc step (init n) es e

theorem created_after (n : Nat) (es : List (StreamEvent R)) : (after n es).created = made es := by
  induction es using List.reverseRecOn with
  | nil => rfl
  | append_singleton es e ih => rw [after_snoc, step_created, ih, made_append]

theorem closed_after (n : Nat) (es : List (StreamEvent R)) :
    (after n es).closed = true ↔ .close ∈ es := by
  induction es using List.reverseRecOn with
  | nil => simp [after, init]
  | append_singleton es e ih =>
    rw [after_snoc, step_closed, ih, List.mem_append, List.mem_singleton, eq_comm (a := e)]

theorem own_snoc (n q : Nat) (es : List (StreamEvent R)) (e : StreamEvent R) :
    own n q (es ++ [e]) = own n q es ++ ownOf q (after n es) e :=
  outputs_snoc step (ownOf q) (init n) es e

theorem not_sentinel_of_mem {d : Streams R} (h : Sound d) {q : Nat} (hq : q ∈ d.queues) :
    .sentinel ∉ (d.stream q).queue.items := by
  intro hs
  have hopen := ((h.registered q).mp hq).2.2.2
  rw [h.sentinel q hs] at hopen
  cases hopen

/-- The replay of a stream is registered until a method that leaves runs on it. -/
theorem replay_registered (n : Nat) (os : List (OwnEvent R)) :
    ((RecordStream.replay n os).closed = false ∧ (RecordStream.replay n os).held = true) ↔
      ∀ m, .method m ∈ os → ¬ m.Leaves := by
  induction os using List.reverseRecOn with
  | nil => simp [RecordStream.replay, RecordStream.new]
  | append_singleton os o ih =>
    have hstep : RecordStream.replay n (os ++ [o]) = (RecordStream.replay n os).ownStep o :=
      run_snoc _ _ _ _
    rw [hstep]
    cases o with
    | fanned r =>
      show ((RecordStream.replay n os).closed = false ∧ (RecordStream.replay n os).held = true) ↔ _
      rw [ih]
      simp
    | method m =>
      have hs : .sentinel ∉ (RecordStream.replay n os).queue.items := by
        rw [(RecordStream.replay_buffers n os).items]
        simp
      have hflag := RecordStream.call_flag hs m
      show (((RecordStream.replay n os).call m).1.closed = false ∧
        ((RecordStream.replay n os).call m).1.held = true) ↔ _
      rw [RecordStream.call_registered, ← and_assoc, ih, ← Bool.not_eq_true, hflag]
      constructor
      · rintro ⟨hold, hm⟩ m' hm'
        rcases List.mem_append.mp hm' with h | h
        · exact hold m' h
        · obtain rfl : m' = m := by simpa using h
          exact hm
      · intro h
        exact ⟨fun m' hm' => h m' (List.mem_append_left _ hm'), h m (by simp)⟩

theorem registered_iff (n : Nat) (es : List (StreamEvent R)) (q : Nat) :
    q ∈ (after n es).queues ↔
      q < made es ∧ .close ∉ es ∧ ∀ m, .method m ∈ own n q es → ¬ m.Leaves := by
  rw [(sound_after n es).registered q, created_after, ← Bool.not_eq_true (after n es).closed,
    closed_after]
  constructor
  · rintro ⟨hq, hcl, hheld, hclose⟩
    rw [stream_eq_replay hclose] at hcl hheld
    exact ⟨hq, hclose, (replay_registered n _).mp ⟨hcl, hheld⟩⟩
  · rintro ⟨hq, hclose, hown⟩
    rw [← replay_registered, ← stream_eq_replay hclose] at hown
    exact ⟨hq, hown.1, hown.2, hclose⟩

theorem shaped_after (n : Nat) (es : List (StreamEvent R)) (q : Nat) :
    ((after n es).stream q).Shaped := by
  induction es using List.reverseRecOn with
  | nil => exact ⟨[], .inl rfl⟩
  | append_singleton es e ih =>
    have hsound := sound_after n es
    rw [after_snoc]
    rcases step_stream_cases (after n es) e q with h | ⟨-, -, h⟩ | ⟨r, -, hq, h⟩ | ⟨m, -, -, h⟩ |
      ⟨-, hq, h⟩
    · rw [h]; exact ih
    · rw [h]; exact ⟨[], .inl rfl⟩
    · rw [h]; exact ih.push (not_sentinel_of_mem hsound hq) _
    · rw [h]; exact ih.of_items (RecordStream.call_items _ m)
    · rw [h]; exact ih.push (not_sentinel_of_mem hsound hq) _

/-! ### A stream that has ended -/

/-- The stream was made after `close`, or closed by its consumer, or a call on it has raised
`StopAsyncIteration`. -/
def Over (n q : Nat) (es : List (StreamEvent R)) : Prop :=
  (∃ es₁ es₂, es = es₁ ++ .records :: es₂ ∧ .close ∈ es₁ ∧ q = made es₁) ∨
  .method .aclose ∈ own n q es ∨ .method .aexit ∈ own n q es ∨
  ∃ call, (call, none) ∈ ((after n es).stream q).results

/-- A stream that is closed stays closed. -/
theorem stays_closed {d : Streams R} {q : Nat} (h : (d.stream q).closed = true ∧ q < d.created)
    (e : StreamEvent R) : ((d.step e).stream q).closed = true ∧ q < (d.step e).created := by
  refine ⟨?_, by rw [step_created]; omega⟩
  rcases step_stream_cases d e q with hs | ⟨-, hq, -⟩ | ⟨r, -, -, hs⟩ | ⟨m, -, -, hs⟩ | ⟨-, -, hs⟩
  · rw [hs]; exact h.1
  · omega
  · rw [hs]; exact h.1
  · rw [hs]; exact call_closed_of_closed h.1 m
  · rw [hs]; exact h.1

theorem closed_of_own (n q : Nat) (es : List (StreamEvent R))
    (h : .method .aclose ∈ own n q es ∨ .method .aexit ∈ own n q es) :
    ((after n es).stream q).closed = true ∧ q < (after n es).created := by
  induction es using List.reverseRecOn with
  | nil => simp [own, outputs] at h
  | append_singleton es e ih =>
    rw [own_snoc, List.mem_append, List.mem_append] at h
    rw [after_snoc]
    have hsplit : (.method .aclose ∈ own n q es ∨ .method .aexit ∈ own n q es) ∨
        ∃ m : Method, (m = .aclose ∨ m = .aexit) ∧ .method m ∈ ownOf q (after n es) e := by
      rcases h with (h | h) | (h | h)
      · exact .inl (.inl h)
      · exact .inr ⟨_, .inl rfl, h⟩
      · exact .inl (.inr h)
      · exact .inr ⟨_, .inr rfl, h⟩
    rcases hsplit with hold | ⟨m, hm, hnew⟩
    · exact stays_closed (ih hold) e
    · -- the method ran in this step
      cases e with
      | on p m' =>
        simp only [ownOf] at hnew
        split at hnew
        · next hp =>
          obtain ⟨rfl, hen⟩ := hp
          obtain rfl : m = m' := by simpa using hnew
          have hu := (sound_after n es).usable hen
          rw [step_on _ hen, put_stream, put_created, Function.update_self]
          refine ⟨?_, hu.1⟩
          rcases hm with rfl | rfl <;> rfl
        · cases hnew
      | dispatch r =>
        simp only [ownOf] at hnew
        split at hnew <;> simp at hnew
      | records => cases hnew
      | close => cases hnew

theorem closed_of_stopped (n q : Nat) (es : List (StreamEvent R)) :
    (∃ call, (call, none) ∈ ((after n es).stream q).results) →
      ((after n es).stream q).closed = true := by
  induction es using List.reverseRecOn with
  | nil => rintro ⟨call, h⟩; cases h
  | append_singleton es e ih =>
    rw [after_snoc]
    rintro ⟨c, h⟩
    rcases step_stream_cases (after n es) e q with hs | ⟨-, -, hs⟩ | ⟨r, -, -, hs⟩ | ⟨m, -, -, hs⟩ |
      ⟨-, -, hs⟩
    · rw [hs] at h ⊢; exact ih ⟨c, h⟩
    · rw [hs] at h; cases h
    · rw [hs] at h ⊢; exact ih ⟨c, h⟩
    · rw [hs] at h ⊢
      rcases RecordStream.closed_of_none h with h | h
      · exact call_closed_of_closed (ih ⟨c, h⟩) m
      · exact h
    · rw [hs] at h ⊢; exact ih ⟨c, h⟩

theorem closed_of_over {n q : Nat} {es : List (StreamEvent R)} (h : Over n q es) :
    ((after n es).stream q).closed = true := by
  rcases h with ⟨es₁, es₂, rfl, hclose, rfl⟩ | h | h | h
  · have hfirst : ((after n (es₁ ++ [.records])).stream (made es₁)).closed = true ∧
        made es₁ < (after n (es₁ ++ [.records])).created := by
      rw [after_snoc, ← created_after n es₁]
      refine ⟨?_, by rw [step_created]; exact Nat.lt_succ_self _⟩
      show (Function.update (after n es₁).stream _ _ _).closed = true
      rw [Function.update_self]
      exact (closed_after n es₁).mpr hclose
    have hrun : after n (es₁ ++ .records :: es₂) = run step (after n (es₁ ++ [.records])) es₂ := by
      unfold after
      rw [← run_append, List.append_assoc]
      rfl
    rw [hrun]
    exact (invariant step
      (I := fun d => (d.stream (made es₁)).closed = true ∧ made es₁ < d.created)
      (fun d e hd => stays_closed hd e) hfirst es₂).1
  · exact (closed_of_own n q es (.inl h)).1
  · exact (closed_of_own n q es (.inr h)).1
  · exact closed_of_stopped n q es h

/-! ### `close` -/

/-- What `close` leaves in a registered queue: the records but the oldest one of a full queue,
then the sentinel. -/
theorem close_kept {n : Nat} {es : List (StreamEvent R)} {q : Nat} (hq : q ∈ (after n es).queues) :
    ∃ lost kept : List R, ((after n es).stream q).queue.items = (lost ++ kept).map .record ∧
      lost.length ≤ 1 ∧ (lost ≠ [] → (lost ++ kept).length = n) ∧
      ((after n es).close.stream q).queue.items = kept.map .record ++ [.sentinel] := by
  have hb := stream_buffers (n := n) ((registered_iff n es q).mp hq).2.1 q
  rw [close_stream, if_pos hq]
  show ∃ lost kept : List R, _ ∧ _ ∧ _ ∧ (((after n es).stream q).queue.push .sentinel).items = _
  rw [Queue.push_items]
  split
  · next hfull =>
    have hlen := hfull.2
    rw [hb.maxsize, hb.items, List.length_map] at hlen
    have hpos := hfull.1
    rw [hb.maxsize] at hpos
    cases hrecs : (bufferState n q es).queue with
    | nil => rw [hrecs] at hlen; simp at hlen; omega
    | cons r rs =>
      have hi : ((after n es).stream q).queue.items = (r :: rs).map .record := by
        rw [hb.items, hrecs]
      have hle : (r :: rs).length ≤ n := by
        rw [← hrecs]
        exact queue_length_le n hpos _
      rw [hrecs] at hlen
      refine ⟨[r], rs, hi, by simp, fun _ => ?_, by rw [hi]; rfl⟩
      show (r :: rs).length = n
      omega
  · exact ⟨[], _, hb.items, by simp, fun h => absurd rfl h, by rw [hb.items]⟩

/-- **What a stream open at `close` still yields.** -/
theorem drained_after {n : Nat} {es : List (StreamEvent R)} {q : Nat} {kept : List R}
    (hq : q ∈ (after n es).queues)
    (hkept : ((after n es).close.stream q).queue.items = kept.map .record ++ [.sentinel])
    (es' : List (StreamEvent R))
    (hopen : .method .aclose ∉ own n q (es ++ .close :: es') ∧
      .method .aexit ∉ own n q (es ++ .close :: es')) :
    ∃ new, RecordStream.Drained kept ((after n es).stream q).results new
      ((after n (es ++ .close :: es')).stream q) := by
  have hreg := ((sound_after n es).registered q).mp hq
  induction es' using List.reverseRecOn with
  | nil =>
    refine ⟨[], ?_⟩
    rw [after_snoc]
    show RecordStream.Drained kept _ [] ((after n es).close.stream q)
    refine ⟨?_, rfl, .inl ⟨?_, Nat.zero_le _, hkept⟩⟩
    · rw [close_stream, if_pos hq, List.append_nil]
      rfl
    · rw [close_stream, if_pos hq]
      exact hreg.2.1
  | append_singleton es' e ih =>
    have happ : es ++ .close :: (es' ++ [e]) = (es ++ .close :: es') ++ [e] := by simp
    rw [happ, own_snoc, List.mem_append, List.mem_append, not_or, not_or] at hopen
    obtain ⟨new, hnew⟩ := ih ⟨hopen.1.1, hopen.2.1⟩
    rw [happ, after_snoc]
    set d := after n (es ++ .close :: es') with hd
    have hclosed : d.closed = true := (closed_after n _).mpr (by simp)
    have hlt : q < d.created := by
      rw [hd, created_after, made_append]
      have := hreg.1
      rw [created_after] at this
      omega
    have hnq : q ∉ d.queues := (sound_after n _).not_mem_queues (.inr hclosed)
    rcases step_stream_cases d e q with hs | ⟨-, hc, -⟩ | ⟨r, -, hm, -⟩ | ⟨m, rfl, hen, hs⟩ |
      ⟨-, hm, -⟩
    · rw [hs]; exact ⟨new, hnew⟩
    · omega
    · exact absurd hm hnq
    · have hmem : OwnEvent.method m ∈ ownOf q d (.on q m) := by simp [ownOf, hen]
      rw [hs]
      refine hnew.call (fun h => hopen.1.2 ?_) fun h => hopen.2.2 ?_
      · rw [← h]; exact hmem
      · rw [← h]; exact hmem
    · exact absurd hm hnq

/-! ## Top theorems (proved from the lemmas above) -/

/-- **The end of the streams**, for every run: who is registered, where the sentinel is, what
`close` leaves and what is yielded after it, and that no call on an ended stream waits. -/
theorem streams_end (n : Nat) (es : List (StreamEvent R)) :
    (∀ q, q ∈ (after n es).queues ↔
      q < made es ∧ .close ∉ es ∧ ∀ m, .method m ∈ own n q es → ¬ m.Leaves) ∧
    (∀ q, ((after n es).stream q).Shaped) ∧
    (∀ q r, .sentinel ∈ ((after n es).stream q).queue.items →
      ((after n (es ++ [.dispatch r])).stream q).queue = ((after n es).stream q).queue) ∧
    ((after n es).close.queues = [] ∧
      ∀ q, q ∉ (after n es).queues → (after n es).close.stream q = (after n es).stream q) ∧
    (∀ q ∈ (after n es).queues, ∃ lost kept : List R,
      ((after n es).stream q).queue.items = (lost ++ kept).map .record ∧
      lost.length ≤ 1 ∧ (lost ≠ [] → (lost ++ kept).length = n) ∧
      ((after n es).close.stream q).queue.items = kept.map .record ++ [.sentinel] ∧
      ∀ es', .method .aclose ∉ own n q (es ++ .close :: es') →
        .method .aexit ∉ own n q (es ++ .close :: es') →
        ∃ new, ((after n (es ++ .close :: es')).stream q).results =
            ((after n es).stream q).results ++ new ∧
          new.map Prod.snd = (List.range new.length).map (kept[·]?) ∧
          ∀ call, (after n (es ++ .close :: es')).Enabled q (.anext call) →
            ((after n ((es ++ .close :: es') ++ [.on q (.anext call)])).stream q).results =
              ((after n es).stream q).results ++ (new ++ [(call, kept[new.length]?)])) ∧
    (∀ q call, Over n q es → (after n es).Enabled q (.anext call) →
      let st := (after n es).stream q
      (after n (es ++ [.on q (.anext call)])).stream q =
        { st with results := st.results ++ [(call, none)] }) := by
  have hsound := sound_after n es
  refine ⟨registered_iff n es, shaped_after n es, ?_, ⟨close_queues _, ?_⟩, ?_, ?_⟩
  · intro q r hs
    rw [after_snoc, step_dispatch]
    show (if q ∈ (after n es).queues then _ else _ : RecordStream R).queue = _
    rw [if_neg fun hq => not_sentinel_of_mem hsound hq hs]
  · intro q hq
    rw [close_stream, if_neg hq]
  · intro q hq
    obtain ⟨lost, kept, hi, hl, hfull, hkept⟩ := close_kept hq
    refine ⟨lost, kept, hi, hl, hfull, hkept, fun es' ha hx => ?_⟩
    obtain ⟨new, hnew⟩ := drained_after hq hkept es' ⟨ha, hx⟩
    refine ⟨new, hnew.results, hnew.outcomes, fun call hen => ?_⟩
    rw [after_snoc, step_on _ hen, put_stream, Function.update_self]
    exact (hnew.anext call).results
  · intro q call hover hen
    rw [after_snoc, step_on _ hen, put_stream, Function.update_self]
    show (RecordStream.anext _ call).1 = _
    unfold RecordStream.anext
    rw [if_pos (closed_of_over hover)]

end Streams

end FleetTelemetry
