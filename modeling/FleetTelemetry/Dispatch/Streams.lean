import FleetTelemetry.Dispatch.Queue
import Mathlib.Data.List.Nodup
import Mathlib.Logic.Function.Basic

/-!
# The record iterators of the dispatcher

`RecordStream` is `_RecordStream` with its `asyncio.Queue`; `Streams` is the part
of `Dispatcher` the iterators share: the fan-out set `queues`, the `closed` flag
and every stream ever made, numbered in the order of the `records()` calls.  A
`StreamEvent` is one stretch of code that runs without awaiting; `R` is what is
dispatched.

A `__anext__` call is known by a number.  `results` is the history of a stream's
finished calls: the record returned, or `none` for `StopAsyncIteration`.
-/

namespace FleetTelemetry

open DropOldest

variable {R : Type}

/-- What an iterator queue may hold: a record, or the end-of-stream sentinel. -/
inductive Item (R : Type) where
  | record (r : R)
  | sentinel

/-- `held`: the program still has a reference to the stream (`__del__` has not run). -/
structure RecordStream (R : Type) where
  closed : Bool
  queue : Queue (Item R)
  results : List (Nat × Option R)
  held : Bool

namespace RecordStream

def new (maxsize : Nat) (closed : Bool) : RecordStream R := ⟨closed, Queue.new maxsize, [], true⟩

/-- The calls suspended in `await self._queue.get()`. -/
def suspended (st : RecordStream R) : List Nat := st.queue.getters ++ st.queue.ready

/-- From the loop test of `Queue.get` to the next await or the end of `__anext__`: suspend on
an empty queue, else take the oldest item.  The flag says whether the queue leaves the
fan-out set. -/
def get (st : RecordStream R) (call : Nat) : RecordStream R × Bool :=
  match st.queue.getNowait with
  | .error _ => ({ st with queue := { st.queue with getters := st.queue.getters ++ [call] } }, false)
  | .ok (.sentinel, queue) =>
    ({ st with queue := queue, closed := true, results := st.results ++ [(call, none)] }, true)
  | .ok (.record r, queue) =>
    ({ st with queue := queue, results := st.results ++ [(call, some r)] }, false)

def anext (st : RecordStream R) (call : Nat) : RecordStream R × Bool :=
  if st.closed then ({ st with results := st.results ++ [(call, none)] }, false)
  else st.get call

/-- The event loop resumes a call whose getter is done. -/
def resume (st : RecordStream R) (call : Nat) : RecordStream R × Bool :=
  { st with queue := { st.queue with ready := st.queue.ready.erase call } }.get call

def aclose (st : RecordStream R) : RecordStream R × Bool := ({ st with closed := true }, true)

/-- `__aexit__` awaits `aclose`, which does not suspend. -/
def aexit (st : RecordStream R) : RecordStream R × Bool := st.aclose

def del (st : RecordStream R) : RecordStream R × Bool := ({ st with held := false }, true)

def push (st : RecordStream R) (x : Item R) : RecordStream R := { st with queue := st.queue.push x }

/-- The records in the queue, oldest first. -/
def queued (st : RecordStream R) : List R :=
  st.queue.items.filterMap fun
    | .record r => some r
    | .sentinel => none

/-- The records that finished `__anext__` calls have returned, in order. -/
def yielded (st : RecordStream R) : List R := st.results.filterMap (·.2)

end RecordStream

/-- `nodup`: `queues` stands for a set. -/
structure Streams (R : Type) where
  queueMaxsize : Nat
  closed : Bool
  queues : List Nat
  created : Nat
  stream : Nat → RecordStream R
  nodup : queues.Nodup

namespace Streams

/-- A new dispatcher; a stream not made yet is blank. -/
def init (queueMaxsize : Nat) : Streams R where
  queueMaxsize := queueMaxsize
  closed := false
  queues := []
  created := 0
  stream := fun _ => RecordStream.new queueMaxsize false
  nodup := List.nodup_nil

def discard (d : Streams R) (q : Nat) : Streams R :=
  { d with queues := d.queues.filter (· ≠ q), nodup := d.nodup.filter _ }

def setStream (d : Streams R) (q : Nat) (st : RecordStream R) : Streams R :=
  { d with stream := Function.update d.stream q st }

/-- Store a stream back and leave the fan-out set if its method said so. -/
def put (d : Streams R) (q : Nat) (r : RecordStream R × Bool) : Streams R :=
  if r.2 then (d.setStream q r.1).discard q else d.setStream q r.1

/-- `Dispatcher.records`: `_RecordStream.__init__` registers the queue unless the dispatcher is
closed. -/
def records (d : Streams R) : Streams R where
  queueMaxsize := d.queueMaxsize
  closed := d.closed
  queues := if d.closed then d.queues else d.queues.insert d.created
  created := d.created + 1
  stream := Function.update d.stream d.created (RecordStream.new d.queueMaxsize d.closed)
  nodup := by
    split
    · exact d.nodup
    · exact List.Nodup.insert d.nodup

/-- The loop `for queue in list(self._queues)` of `dispatch`. -/
def fanOutLoop (d : Streams R) (r : R) : List Nat → Except QueueFull (Streams R)
  | [] => .ok d
  | q :: qs =>
    match (d.stream q).queue.offer (.record r) with
    | .ok queue => (d.setStream q { d.stream q with queue := queue }).fanOutLoop r qs
    | .error e => .error e

def fanOut (d : Streams R) (r : R) : Except QueueFull (Streams R) := d.fanOutLoop r d.queues

/-- What an item that goes to every queue of a list leaves behind. -/
def pushed (d : Streams R) (qs : List Nat) (x : Item R) : Streams R :=
  { d with stream := fun q => if q ∈ qs then (d.stream q).push x else d.stream q }

theorem setStream_pushed (d : Streams R) (x : Item R) (q : Nat) (qs : List Nat) (hq : q ∉ qs) :
    (d.setStream q ((d.stream q).push x)).pushed qs x = d.pushed (q :: qs) x := by
  unfold pushed setStream
  congr 1
  funext p
  by_cases hp : p = q
  · subst hp; simp [hq]
  · simp [hp]

theorem fanOutLoop_eq (d : Streams R) (r : R) (qs : List Nat) (h : qs.Nodup) :
    d.fanOutLoop r qs = .ok (d.pushed qs (.record r)) := by
  induction qs generalizing d with
  | nil => simp [fanOutLoop, pushed]
  | cons q qs ih =>
    rw [List.nodup_cons] at h
    simp only [fanOutLoop, Queue.offer_eq]
    rw [ih _ h.2]
    exact congrArg _ (setStream_pushed d _ q qs h.1)

/-- **The fan-out never raises**, and puts the record on every registered queue. -/
theorem fanOut_eq (d : Streams R) (r : R) : d.fanOut r = .ok (d.pushed d.queues (.record r)) :=
  fanOutLoop_eq d r d.queues d.nodup

/-- What `dispatch` does to the streams: no `QueueFull` leaves its loop. -/
def dispatch (d : Streams R) (r : R) : Streams R :=
  match h : d.fanOut r with
  | .ok d' => d'
  | .error _ => absurd (h.symm.trans (d.fanOut_eq r)) nofun

/-- The loop of `close`. -/
def closeLoop (d : Streams R) : List Nat → Streams R
  | [] => d
  | q :: qs =>
    (d.setStream q { d.stream q with queue := (d.stream q).queue.putClosed .sentinel }).closeLoop qs

def close (d : Streams R) : Streams R :=
  { ({ d with closed := true } : Streams R).closeLoop d.queues with
    queues := []
    nodup := List.nodup_nil }

end Streams

/-- What runs on one stream: a `__anext__` call, the event loop resuming a call whose getter is
done, `aclose`, leaving the `async with` block, `__del__`. -/
inductive Method where
  | anext (call : Nat)
  | resume (call : Nat)
  | aclose
  | aexit
  | del

def RecordStream.call (st : RecordStream R) : Method → RecordStream R × Bool
  | .anext call => st.anext call
  | .resume call => st.resume call
  | .aclose => st.aclose
  | .aexit => st.aexit
  | .del => st.del

/-- `dispatch r` is the fan-out part of `Dispatcher.dispatch(r)`. -/
inductive StreamEvent (R : Type) where
  | records
  | dispatch (r : R)
  | on (q : Nat) (m : Method)
  | close

namespace Streams

/-- The program can call the stream's methods. -/
def Usable (d : Streams R) (q : Nat) : Prop := q < d.created ∧ (d.stream q).held = true

instance (d : Streams R) (q : Nat) : Decidable (d.Usable q) := by unfold Usable; infer_instance

/-- A suspended call is not made again, only a call whose getter is done is resumed, and a
suspended call keeps its stream from being deleted. -/
def Enabled (d : Streams R) (q : Nat) : Method → Prop
  | .anext call => d.Usable q ∧ call ∉ (d.stream q).suspended
  | .resume call => call ∈ (d.stream q).queue.ready
  | .aclose => d.Usable q
  | .aexit => d.Usable q
  | .del => d.Usable q ∧ (d.stream q).suspended = []

instance (d : Streams R) (q : Nat) (m : Method) : Decidable (d.Enabled q m) := by
  cases m <;> (unfold Enabled; infer_instance)

def step (d : Streams R) : StreamEvent R → Streams R
  | .records => d.records
  | .dispatch r => d.dispatch r
  | .on q m => if d.Enabled q m then d.put q ((d.stream q).call m) else d
  | .close => d.close

/-- The state after the events `es` on a new dispatcher. -/
def after (queueMaxsize : Nat) (es : List (StreamEvent R)) : Streams R :=
  Runs.run step (init queueMaxsize) es

/-! ## Lemmas -/

@[simp] theorem mem_discard_queues (d : Streams R) (q p : Nat) :
    p ∈ (d.discard q).queues ↔ p ∈ d.queues ∧ p ≠ q := by
  simp [discard]

@[simp] theorem setStream_queues (d : Streams R) (q : Nat) (st : RecordStream R) :
    (d.setStream q st).queues = d.queues := rfl

@[simp] theorem put_stream (d : Streams R) (q : Nat) (r : RecordStream R × Bool) :
    (d.put q r).stream = Function.update d.stream q r.1 := by
  unfold put; split <;> rfl

@[simp] theorem put_created (d : Streams R) (q : Nat) (r : RecordStream R × Bool) :
    (d.put q r).created = d.created := by
  unfold put; split <;> rfl

@[simp] theorem put_closed (d : Streams R) (q : Nat) (r : RecordStream R × Bool) :
    (d.put q r).closed = d.closed := by
  unfold put; split <;> rfl

@[simp] theorem mem_put_queues (d : Streams R) (q : Nat) (r : RecordStream R × Bool) (p : Nat) :
    p ∈ (d.put q r).queues ↔ p ∈ d.queues ∧ (r.2 = true → p ≠ q) := by
  unfold put; split <;> simp_all

theorem closeLoop_eq (d : Streams R) (qs : List Nat) (h : qs.Nodup) :
    d.closeLoop qs = d.pushed qs .sentinel := by
  induction qs generalizing d with
  | nil => simp [closeLoop, pushed]
  | cons q qs ih =>
    rw [List.nodup_cons] at h
    simp only [closeLoop, Queue.putClosed_eq]
    rw [ih _ h.2]
    exact setStream_pushed d _ q qs h.1

/-- `close` puts the sentinel on every registered queue and empties the fan-out set. -/
theorem close_stream (d : Streams R) (q : Nat) :
    d.close.stream q = if q ∈ d.queues then (d.stream q).push .sentinel else d.stream q := by
  unfold close
  rw [closeLoop_eq _ _ d.nodup]
  rfl

@[simp] theorem close_queues (d : Streams R) : d.close.queues = [] := rfl

@[simp] theorem close_closed (d : Streams R) : d.close.closed = true := by
  unfold close
  rw [closeLoop_eq _ _ d.nodup]
  rfl

@[simp] theorem close_created (d : Streams R) : d.close.created = d.created := by
  unfold close
  rw [closeLoop_eq _ _ d.nodup]
  rfl

@[simp] theorem step_dispatch (d : Streams R) (r : R) :
    d.step (.dispatch r) = d.pushed d.queues (.record r) := by
  show d.dispatch r = _
  unfold dispatch
  split
  · next d' h => exact Except.ok.inj (h.symm.trans (d.fanOut_eq r))
  · next h => exact absurd (h.symm.trans (d.fanOut_eq r)) nofun

end Streams

end FleetTelemetry
