import FleetTelemetry.Dispatch.Streams

/-!
# What holds of the record iterators in every state

`Sound`: the fan-out set is the set of open streams of an open dispatcher, the
sentinel is queued by `close` only, a suspended call belongs to a stream the
program still holds, and while a getter waits every queued item is spoken for.
-/

namespace FleetTelemetry

open Runs DropOldest

variable {R : Type}

namespace RecordStream

/-! ## Lemmas on one stream -/

theorem get_of_nil {st : RecordStream R} (h : st.queue.items = []) (call : Nat) :
    st.get call =
      ({ st with queue := { st.queue with getters := st.queue.getters ++ [call] } }, false) := by
  simp only [get, Queue.getNowait_of_nil h]

/-- A `get` that finds an item takes it, and closes the stream on the sentinel. -/
theorem get_of_cons {st : RecordStream R} {x : Item R} {xs : List (Item R)}
    (h : st.queue.items = x :: xs) (call : Nat) :
    (st.get call).1.queue.items = xs ∧ (st.get call).1.suspended = st.suspended ∧
    (st.get call).1.queue.getters = st.queue.getters ∧ (st.get call).1.queue.ready = st.queue.ready ∧
    (st.get call).1.held = st.held ∧
    (x = .sentinel ∧ (st.get call).1.closed = true ∧ (st.get call).2 = true ∨
      (st.get call).1.closed = st.closed ∧ (st.get call).2 = false) := by
  obtain ⟨hb, hg⟩ := Queue.getNowait_of_cons h
  cases x with
  | record r =>
    unfold get
    rw [hg]
    exact ⟨rfl, rfl, rfl, rfl, rfl, .inr ⟨rfl, rfl⟩⟩
  | sentinel =>
    unfold get
    rw [hg]
    exact ⟨rfl, rfl, rfl, rfl, rfl, .inl ⟨rfl, rfl, rfl⟩⟩

theorem get_registered (st : RecordStream R) (call : Nat) :
    ((st.get call).1.closed = false ∧ (st.get call).1.held = true) ↔
      st.closed = false ∧ st.held = true ∧ (st.get call).2 = false := by
  cases hi : st.queue.items with
  | nil => rw [get_of_nil hi]; simp
  | cons x xs =>
    obtain ⟨-, -, -, -, hh, hc⟩ := get_of_cons hi call
    rcases hc with ⟨-, hc, hb⟩ | ⟨hc, hb⟩
    · simp [hc, hb]
    · simp [hc, hb, hh]

/-- A method takes its queue out of the fan-out set exactly when it ends the stream. -/
theorem call_registered (st : RecordStream R) (m : Method) :
    ((st.call m).1.closed = false ∧ (st.call m).1.held = true) ↔
      st.closed = false ∧ st.held = true ∧ (st.call m).2 = false := by
  cases m with
  | anext c =>
    simp only [call, anext]
    split
    · simp
    · exact get_registered st c
  | resume c => exact get_registered _ c
  | aclose => simp [call, aclose]
  | aexit => simp [call, aexit, aclose]
  | del => simp [call, del]

theorem get_items_subset (st : RecordStream R) (call : Nat) :
    (st.get call).1.queue.items ⊆ st.queue.items := by
  cases hi : st.queue.items with
  | nil => rw [get_of_nil hi, hi]; simp
  | cons x xs => rw [(get_of_cons hi call).1]; exact List.subset_cons_self x xs

theorem call_items_subset (st : RecordStream R) (m : Method) :
    (st.call m).1.queue.items ⊆ st.queue.items := by
  cases m with
  | anext c =>
    simp only [call, anext]
    split
    · exact List.Subset.refl _
    · exact get_items_subset st c
  | resume c => exact get_items_subset _ c
  | _ => exact List.Subset.refl _

/-- While a getter waits, every item in the queue is spoken for by a call about to run. -/
def Woken (st : RecordStream R) : Prop :=
  st.queue.getters ≠ [] → st.queue.items.length ≤ st.queue.ready.length

theorem Woken.push {st : RecordStream R} (h : st.Woken) (x : Item R) : (st.push x).Woken := by
  unfold Woken at *
  simp only [RecordStream.push, Queue.push_getters, Queue.push_ready, Queue.push_items]
  cases hg : st.queue.getters with
  | nil => simp
  | cons c cs =>
    intro _
    have := h (by simp [hg])
    split <;> simp <;> omega

theorem get_woken {st : RecordStream R}
    (h : st.queue.getters ≠ [] → st.queue.items.length ≤ st.queue.ready.length + 1)
    (call : Nat) : (st.get call).1.Woken := by
  unfold Woken
  cases hi : st.queue.items with
  | nil => rw [get_of_nil hi]; simp [hi]
  | cons x xs =>
    obtain ⟨h1, -, h2, h3, -⟩ := get_of_cons hi call
    rw [h1, h2, h3]
    intro hg
    have := h hg
    rw [hi, List.length_cons] at this
    omega

theorem Woken.call {st : RecordStream R} (h : st.Woken) {m : Method}
    (hm : ∀ call, m = .resume call → call ∈ st.queue.ready) : (st.call m).1.Woken := by
  cases m with
  | anext call =>
    simp only [RecordStream.call, anext]
    split
    · exact h
    · exact get_woken (fun hg => Nat.le_succ_of_le (h hg)) call
  | resume call =>
    refine get_woken (fun hg => ?_) call
    have hr := List.length_erase_of_mem (hm call rfl)
    have hp := List.length_pos_of_mem (hm call rfl)
    have := h hg
    show st.queue.items.length ≤ (st.queue.ready.erase call).length + 1
    omega
  | aclose => exact h
  | aexit => exact h
  | del => exact h

theorem suspended_push (st : RecordStream R) (x : Item R) :
    (st.push x).suspended.length = st.suspended.length := by
  simp only [suspended, push, Queue.push_getters, Queue.push_ready, List.length_append,
    List.length_tail, List.length_take]
  omega

theorem call_held (st : RecordStream R) {m : Method} (hm : m ≠ .del) :
    (st.call m).1.held = st.held := by
  have hget : ∀ (st : RecordStream R) c, (st.get c).1.held = st.held := by
    intro st c
    cases hi : st.queue.items with
    | nil => rw [get_of_nil hi]
    | cons x xs => exact (get_of_cons hi c).2.2.2.2.1
  cases m with
  | anext c =>
    simp only [call, anext]
    split
    · rfl
    · exact hget st c
  | resume c => exact hget _ c
  | aclose => rfl
  | aexit => rfl
  | del => exact absurd rfl hm

/-- A stream closes by `aclose`, or by taking the sentinel. -/
theorem get_closed (st : RecordStream R) (call : Nat) :
    (st.get call).1.closed = true ↔ st.closed = true ∨ st.queue.items.head? = some .sentinel := by
  cases hi : st.queue.items with
  | nil => rw [get_of_nil hi]; simp
  | cons x xs =>
    cases x with
    | record r =>
      rcases (get_of_cons hi call).2.2.2.2.2 with ⟨hx, -⟩ | ⟨hc, -⟩
      · cases hx
      · simp [hc]
    | sentinel =>
      obtain ⟨hb, hg⟩ := Queue.getNowait_of_cons hi
      unfold get
      rw [hg]
      simp

end RecordStream

namespace Streams

open RecordStream

/-! ## What holds in every state -/

structure Sound (d : Streams R) : Prop where
  woken : ∀ q, (d.stream q).Woken
  registered : ∀ q, q ∈ d.queues ↔ q < d.created ∧ (d.stream q).closed = false ∧
    (d.stream q).held = true ∧ d.closed = false
  sentinel : ∀ q, .sentinel ∈ (d.stream q).queue.items → d.closed = true
  waits : ∀ q, (d.stream q).suspended ≠ [] → q < d.created ∧ (d.stream q).held = true

theorem sound_init (n : Nat) : Sound (init n : Streams R) where
  woken := fun q h => absurd rfl h
  registered := fun q => by simp [init]
  sentinel := fun q h => by simp [init, RecordStream.new, Queue.new] at h
  waits := fun q h => absurd rfl h

theorem Sound.records {d : Streams R} (h : Sound d) : Sound d.records := by
  have hs : ∀ q, d.records.stream q =
      if q = d.created then RecordStream.new d.queueMaxsize d.closed else d.stream q := by
    intro q
    show Function.update d.stream d.created _ q = _
    rw [Function.update_apply]
  have hq : ∀ q, q ∈ d.records.queues ↔ q ∈ d.queues ∨ q = d.created ∧ d.closed = false := by
    intro q
    show q ∈ (if d.closed then d.queues else d.queues.insert d.created) ↔ _
    cases d.closed <;> simp [or_comm]
  have hc : d.records.created = d.created + 1 := rfl
  have hcl : d.records.closed = d.closed := rfl
  refine ⟨fun q => ?_, fun q => ?_, fun q hmem => ?_, fun q hne => ?_⟩
  · rw [hs]
    split
    · exact fun hg => absurd rfl hg
    · exact h.woken q
  · rw [hq, hs, hc, hcl, h.registered]
    split
    · next he => subst he; cases hd : d.closed <;> simp [RecordStream.new]
    · next he =>
      constructor
      · rintro (⟨h1, h2⟩ | ⟨h1, -⟩)
        · exact ⟨by omega, h2⟩
        · exact absurd h1 he
      · rintro ⟨h1, h2⟩
        exact .inl ⟨by omega, h2⟩
  · rw [hs] at hmem
    split at hmem
    · simp [RecordStream.new, Queue.new] at hmem
    · exact h.sentinel q hmem
  · rw [hs] at hne ⊢
    split at hne
    · exact absurd rfl hne
    · next he =>
      rw [if_neg he, hc]
      exact ⟨Nat.lt_succ_of_lt (h.waits q hne).1, (h.waits q hne).2⟩

theorem suspended_ne_nil_of_push {st : RecordStream R} {x : Item R}
    (h : (st.push x).suspended ≠ []) : st.suspended ≠ [] := by
  intro he
  have := suspended_push st x
  rw [he, List.length_nil] at this
  exact h (List.eq_nil_of_length_eq_zero this)

theorem Sound.dispatch {d : Streams R} (h : Sound d) (r : R) :
    Sound (d.pushed d.queues (.record r)) := by
  have hs : ∀ q, (d.pushed d.queues (.record r)).stream q =
      if q ∈ d.queues then (d.stream q).push (.record r) else d.stream q := fun _ => rfl
  refine ⟨fun q => ?_, fun q => ?_, fun q hmem => ?_, fun q hne => ?_⟩
  · rw [hs]
    split
    · exact (h.woken q).push _
    · exact h.woken q
  · rw [hs]
    split <;> exact h.registered q
  · rw [hs] at hmem
    split at hmem
    · simp only [RecordStream.push, Queue.push_items, List.mem_append, List.mem_singleton,
        reduceCtorEq, or_false] at hmem
      refine h.sentinel q ?_
      split at hmem
      · exact List.mem_of_mem_tail hmem
      · exact hmem
    · exact h.sentinel q hmem
  · rw [hs] at hne ⊢
    split at hne
    · next hq => rw [if_pos hq]; exact h.waits q (suspended_ne_nil_of_push hne)
    · next hq => rw [if_neg hq]; exact h.waits q hne

theorem Sound.close {d : Streams R} (h : Sound d) : Sound d.close := by
  refine ⟨fun q => ?_, fun q => by simp, fun q _ => close_closed d, fun q hne => ?_⟩
  · rw [close_stream]
    split
    · exact (h.woken q).push _
    · exact h.woken q
  · rw [close_stream] at hne ⊢
    rw [close_created]
    split at hne
    · next hq => rw [if_pos hq]; exact h.waits q (suspended_ne_nil_of_push hne)
    · next hq => rw [if_neg hq]; exact h.waits q hne

/-- Methods run on streams the program can still reach. -/
theorem Sound.usable {d : Streams R} (h : Sound d) {q : Nat} {m : Method} (hm : d.Enabled q m) :
    d.Usable q := by
  cases m with
  | anext call => exact hm.1
  | resume call =>
    refine h.waits q fun hnil => ?_
    have hr : call ∈ (d.stream q).queue.ready := hm
    rw [(List.append_eq_nil_iff.1 hnil).2] at hr
    cases hr
  | aclose => exact hm
  | aexit => exact hm
  | del => exact hm.1

theorem Sound.on {d : Streams R} (h : Sound d) {p : Nat} {m : Method} (hm : d.Enabled p m) :
    Sound (d.put p ((d.stream p).call m)) := by
  have hu := h.usable hm
  refine ⟨fun q => ?_, fun q => ?_, fun q hmem => ?_, fun q hne => ?_⟩
  · rw [put_stream, Function.update_apply]
    split
    · exact (h.woken p).call fun call hc => by subst hc; exact hm
    · exact h.woken q
  · rw [mem_put_queues, put_stream, put_created, put_closed, h.registered, Function.update_apply]
    by_cases hq : q = p
    · subst hq
      have := call_registered (d.stream q) m
      simp only [if_true, ne_eq, not_true_eq_false, imp_false, Bool.not_eq_true]
      tauto
    · simp [hq]
  · rw [put_closed]
    rw [put_stream, Function.update_apply] at hmem
    split at hmem
    · exact h.sentinel p (call_items_subset _ m hmem)
    · exact h.sentinel q hmem
  · rw [put_created]
    rw [put_stream, Function.update_apply] at hne ⊢
    split at hne
    · next hq =>
      rw [if_pos hq, hq]
      by_cases hdel : m = .del
      · subst hdel
        exact absurd hm.2 hne
      · rw [call_held _ hdel]
        exact hu
    · next hq => rw [if_neg hq]; exact h.waits q hne

theorem sound_step {d : Streams R} (h : Sound d) (e : StreamEvent R) : Sound (d.step e) := by
  cases e with
  | records => exact h.records
  | dispatch r => rw [step_dispatch]; exact h.dispatch r
  | on q m =>
    simp only [step]
    split
    · next hm => exact h.on hm
    · exact h
  | close => exact h.close

theorem sound_after (n : Nat) (es : List (StreamEvent R)) : Sound (after n es) :=
  invariant step (I := Sound) (fun _ e h => sound_step h e) (sound_init n) es

end Streams

end FleetTelemetry
