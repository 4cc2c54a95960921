import FleetTelemetry.Lib.DropOldest

/-!
# `asyncio.Queue`, as the record streams use it

A queue never holds more than `maxsize` items (`bounded`; `maxsize = 0` is no
bound).  `offer` is the body of the fan-out loop of `Dispatcher.dispatch`: put,
and on `QueueFull` drop the oldest item and put again.  `putClosed` is the loop
of `Dispatcher.close`.  Both come to the same thing (`offer_eq`, `putClosed_eq`).
-/

namespace FleetTelemetry

open DropOldest

structure QueueFull
structure QueueEmpty

/-- `getters` are the `get` calls suspended on the empty queue, first come first
served; `ready` those whose getter is done, so that the event loop will resume them. -/
structure Queue (α : Type) where
  maxsize : Nat
  items : List α
  getters : List Nat
  ready : List Nat
  bounded : 0 < maxsize → items.length ≤ maxsize

namespace Queue

variable {α : Type}

def new (maxsize : Nat) : Queue α := ⟨maxsize, [], [], [], fun _ => Nat.zero_le _⟩

/-- Put an item and wake the getter that waits longest. -/
def putNowait (q : Queue α) (x : α) : Except QueueFull (Queue α) :=
  if h : Full q.maxsize q.items then .error ⟨⟩
  else .ok { q with
    items := q.items ++ [x]
    getters := q.getters.tail
    ready := q.ready ++ q.getters.take 1
    bounded := fun hm => by
      have : q.items.length < q.maxsize := Nat.lt_of_not_le fun hc => h ⟨hm, hc⟩
      rw [List.length_append, List.length_singleton]; exact this }

def getNowait (q : Queue α) : Except QueueEmpty (α × Queue α) :=
  match h : q.items with
  | [] => .error ⟨⟩
  | x :: xs => .ok (x, { q with
      items := xs
      bounded := fun hm => by
        have := q.bounded hm
        rw [h, List.length_cons] at this
        exact Nat.le_of_succ_le this })

/-- One queue's turn in the fan-out loop of `dispatch`. -/
def offer (q : Queue α) (x : α) : Except QueueFull (Queue α) :=
  match q.putNowait x with
  | .ok q' => .ok q'
  | .error _ =>
    match q.getNowait with
    | .ok (_, q') => q'.putNowait x
    | .error _ => q.putNowait x

theorem getNowait_of_cons {q : Queue α} {x : α} {xs : List α} (h : q.items = x :: xs) :
    ∃ hb, q.getNowait = .ok (x, ⟨q.maxsize, xs, q.getters, q.ready, hb⟩) := by
  have hb : 0 < q.maxsize → xs.length ≤ q.maxsize := fun hm => by
    have := q.bounded hm
    rw [h, List.length_cons] at this
    exact Nat.le_of_succ_le this
  refine ⟨hb, ?_⟩
  unfold getNowait
  split
  · next h' => rw [h] at h'; cases h'
  · next y ys h' =>
    rw [h] at h'
    cases h'
    rfl

theorem getNowait_of_nil {q : Queue α} (h : q.items = []) : q.getNowait = .error ⟨⟩ := by
  unfold getNowait
  split
  · rfl
  · next h' => rw [h] at h'; cases h'

/-- The `while True` loop of `close` for one queue: put, and while the queue is full drop
the oldest item and try again; an empty full queue would end the loop without the put. -/
def putClosed (q : Queue α) (x : α) : Queue α :=
  match q.putNowait x with
  | .ok q' => q'
  | .error _ =>
    match _hget : q.getNowait with
    | .ok (_, q') => putClosed q' x
    | .error _ => q
termination_by q.items.length
decreasing_by
  cases hq : q.items with
  | nil => rw [getNowait_of_nil hq] at _hget; cases _hget
  | cons y ys =>
    obtain ⟨hb, he⟩ := getNowait_of_cons hq
    rw [he] at _hget
    cases _hget
    simp

/-! ## Lemmas -/

/-- What putting comes to on any queue: room is made by dropping the oldest item. -/
def push (q : Queue α) (x : α) : Queue α where
  maxsize := q.maxsize
  items := (if Full q.maxsize q.items then q.items.tail else q.items) ++ [x]
  getters := q.getters.tail
  ready := q.ready ++ q.getters.take 1
  bounded := fun hm => by
    have := q.bounded hm
    split
    · simp only [List.length_append, List.length_tail, List.length_singleton]; omega
    · next h =>
      have : q.items.length < q.maxsize := Nat.lt_of_not_le fun hc => h ⟨hm, hc⟩
      rw [List.length_append, List.length_singleton]; exact this

theorem putNowait_of_full {q : Queue α} (h : Full q.maxsize q.items) (x : α) :
    q.putNowait x = .error ⟨⟩ := by
  simp [putNowait, h]

theorem putNowait_of_not_full {q : Queue α} (h : ¬ Full q.maxsize q.items) (x : α) :
    q.putNowait x = .ok (q.push x) := by
  simp [putNowait, push, h]

/-- Once the oldest item of a full queue is gone, the put goes through. -/
theorem putNowait_after_get {q : Queue α} (h : Full q.maxsize q.items) (x : α) :
    ∃ y q', q.getNowait = .ok (y, q') ∧ q'.items = q.items.tail ∧ q'.putNowait x = .ok (q.push x) := by
  cases hq : q.items with
  | nil => rw [hq] at h; exact absurd (Nat.lt_of_lt_of_le h.1 h.2) (by simp)
  | cons y ys =>
    obtain ⟨hb, he⟩ := getNowait_of_cons hq
    refine ⟨y, _, he, rfl, ?_⟩
    have hroom : ¬ Full q.maxsize ys := by
      have := q.bounded h.1
      rw [hq, List.length_cons] at this
      exact fun hc => absurd hc.2 (by omega)
    rw [putNowait_of_not_full hroom]
    rw [hq] at h
    simp only [push, hroom, h, if_true, if_false, hq, List.tail_cons]

theorem offer_eq (q : Queue α) (x : α) : q.offer x = .ok (q.push x) := by
  unfold offer
  by_cases h : Full q.maxsize q.items
  · obtain ⟨y, q', hg, -, hp⟩ := putNowait_after_get h x
    simp only [putNowait_of_full h, hg, hp]
  · simp only [putNowait_of_not_full h]

theorem putClosed_eq (q : Queue α) (x : α) : q.putClosed x = q.push x := by
  unfold putClosed
  by_cases h : Full q.maxsize q.items
  · obtain ⟨y, q', hg, -, hp⟩ := putNowait_after_get h x
    simp only [putNowait_of_full h]
    split
    · next z q'' hg' =>
      rw [hg] at hg'
      cases hg'
      unfold putClosed
      rw [hp]
    · next hg' => rw [hg] at hg'; cases hg'
  · simp only [putNowait_of_not_full h]

@[simp] theorem push_getters (q : Queue α) (x : α) : (q.push x).getters = q.getters.tail := rfl

@[simp] theorem push_ready (q : Queue α) (x : α) :
    (q.push x).ready = q.ready ++ q.getters.take 1 := rfl

theorem push_items (q : Queue α) (x : α) :
    (q.push x).items = (if Full q.maxsize q.items then q.items.tail else q.items) ++ [x] := rfl

end Queue

end FleetTelemetry
