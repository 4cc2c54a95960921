import FleetTelemetry.Server.Model

/-!
# What one step can do

`Move` lists the ways `exec` changes a server, guards included; the invariants
split on it and never unfold `exec`.

    Move lib s e (step lib s e) (seen lib s e)            (step_move)
-/

namespace FleetTelemetry

namespace Server

variable {V : Type} (lib : Libraries V)

/-- The frame of a message the session acknowledges. -/
def accept (msg : WSMessage) : Option StreamFrame :=
  if msg.type = .binary ∧ msg.data.length ≤ SIZE_LIMIT then (decode lib.flatbuffers msg.data).toOption
  else none

/-- The acknowledgement of a frame. -/
def ackOf (frame : StreamFrame) : Option Bytes :=
  encodeAck lib.flatbuffers frame.txid frame.topic frame.messageId

/-- The record a session makes of a frame. -/
def recordOf (vin : String) (frame : StreamFrame) : Option (Record V) :=
  (parseRecord lib.parse vin frame.topic frame.txid frame.createdAt frame.payload).toOption

/-- Inside the `try` block of `_handle`. -/
def Live : Phase V → Prop
  | .receiving | .acking _ | .delivering .frame _ => True
  | _ => False

/-- Moves that touch nothing but the phase of the session. -/
inductive Quiet (vin : String) (i : Nat) : Event → Phase V → Phase V → List (Obs V) → Prop where
  | skipped (msg : WSMessage) (now : Nat) (h : accept lib msg = none) :
      Quiet vin i (.message i msg now) .receiving .receiving [.received i msg]
  | acknowledged (msg : WSMessage) (now : Nat) (frame : StreamFrame) (ack : Bytes)
      (h : accept lib msg = some frame) (hack : ackOf lib frame = some ack) :
      Quiet vin i (.message i msg now) .receiving (.acking frame) [.received i msg, .sending i ack]
  | unsent (frame : StreamFrame) :
      Quiet vin i (.sent i false) (.acking frame) .receiving [.sent i false]
  | unparsable (frame : StreamFrame) (h : recordOf lib vin frame = none) :
      Quiet vin i (.sent i true) (.acking frame) .receiving [.sent i true]
  | abandoned (p : Phase V) (now : Nat) (hp : ¬ Live p) (hend : ∀ raised, p ≠ .ended raised) :
      Quiet vin i (.raises i now) p (.ended true) []

/-- Ways out of the `try` block. -/
inductive Leaves (i : Nat) : Event → Phase V → Bool → List (Obs V) → Prop where
  | finished (now : Nat) : Leaves i (.finished i now) .receiving false []
  | raised (p : Phase V) (now : Nat) (hp : Live p) : Leaves i (.raises i now) p true []
  | unencodable (msg : WSMessage) (now : Nat) (frame : StreamFrame)
      (h : accept lib msg = some frame) (hack : ackOf lib frame = none) :
      Leaves i (.message i msg now) .receiving true [.received i msg]

/-- Events outside the sessions. -/
def Environment : Event → Prop
  | .addListener _ _ _ _ | .unsubscribe _ | .records | .onStream _ _ | .stop | .cleanedUp => True
  | _ => False

inductive Move (s : Server V) : Event → Server V → List (Obs V) → Prop where
  | idle (e : Event) (he : ¬ Environment e) : Move s e s []
  | environment (e : Event) (he : Environment e) : Move s e (s.exec lib e).1 []
  | opened (i : Nat) (request : Request) (ss : Session V) (obs : List (Obs V))
      (hnew : s.session i = none)
      (hphase : ss.phase = .preparing ∨ ∃ raised, ss.phase = .ended raised)
      (hobs : ∀ o ∈ obs, ∃ r, o = .responded i r) :
      Move s (.request i request) { s with session := Function.update s.session i (some ss) } obs
  | quiet (e : Event) (i : Nat) (ss : Session V) (p : Phase V) (obs : List (Obs V))
      (h : s.session i = some ss) (hq : Quiet lib ss.vin i e ss.phase p obs) :
      Move s e (s.goto i ss p) obs
  | connect (i : Nat) (ss : Session V) (now : Nat) (h : s.session i = some ss)
      (hp : ss.phase = .preparing) :
      Move s (.prepared i now) (s.connect i ss now).1 (s.connect i ss now).2
  | frame (i : Nat) (ss : Session V) (f : StreamFrame) (record : Record V)
      (h : s.session i = some ss) (hp : ss.phase = .acking f)
      (hr : recordOf lib ss.vin f = some record) :
      Move s (.sent i true) (s.dispatch i ss .frame record).1
        (.sent i true :: (s.dispatch i ss .frame record).2)
  | disconnect (e : Event) (i : Nat) (ss : Session V) (raised : Bool) (now : Nat)
      (pre : List (Obs V)) (h : s.session i = some ss) (hl : Leaves lib i e ss.phase raised pre) :
      Move s e (s.disconnect i ss raised now).1 (pre ++ (s.disconnect i ss raised now).2)
  | resume (i : Nat) (ss : Session V) (stage : Stage) (d : Delivery V)
      (h : s.session i = some ss) (hp : ss.phase = .delivering stage d) :
      Move s (.returned i) (s.goto i ss (walk stage (next d.call d.rest)))
        (invoked (next d.call d.rest))

/-! ## Lemmas -/

section
variable (s : Server V) (i : Nat) (ss : Session V) (stage : Stage) (record : Record V)

@[simp] theorem dispatch_session :
    (s.dispatch i ss stage record).1.session =
      Function.update s.session i (some { ss with
        phase := walk stage (next ⟨i, stage.origin, record⟩ s.listeners.registrations.entries) }) :=
  rfl

@[simp] theorem dispatch_connections :
    (s.dispatch i ss stage record).1.connections = s.connections := rfl

@[simp] theorem dispatch_seen :
    (s.dispatch i ss stage record).2 =
      .dispatched ⟨i, stage.origin, record⟩ s.streams.queues ::
        invoked (next ⟨i, stage.origin, record⟩ s.listeners.registrations.entries) := rfl

end

variable {lib}

theorem handle_move (s : Server V) (i : Nat) (request : Request) (h : s.session i = none) :
    Move lib s (.request i request) (s.handle lib i request).1 (s.handle lib i request).2 := by
  unfold handle
  split
  · exact .opened i request _ _ h (.inr ⟨_, rfl⟩) (by simp)
  · split
    · exact .opened i request _ _ h (.inl rfl) (by simp)
    · exact .opened i request _ _ h (.inr ⟨_, rfl⟩) (by simp)
    · exact .opened i request _ _ h (.inr ⟨_, rfl⟩) (by simp)

theorem handleMessage_move (s : Server V) (i : Nat) (ss : Session V) (msg : WSMessage) (now : Nat)
    (h : s.session i = some ss) (hp : ss.phase = .receiving) :
    Move lib s (.message i msg now) (s.handleMessage lib i ss msg now).1
      (.received i msg :: (s.handleMessage lib i ss msg now).2) := by
  have hskip (ha : accept lib msg = none) :
      Move lib s (.message i msg now) (s.goto i ss .receiving) [.received i msg] :=
    .quiet _ i ss _ _ h (by rw [hp]; exact .skipped msg now ha)
  unfold handleMessage
  split
  · next ht => exact hskip (if_neg fun hc => ht hc.1)
  · next ht =>
    split
    · next hl => exact hskip (if_neg fun hc => absurd hc.2 (by omega))
    · next hl =>
      have ha : accept lib msg = (decode lib.flatbuffers msg.data).toOption :=
        if_pos ⟨not_not.mp ht, by omega⟩
      unfold processFrame
      cases hd : decode lib.flatbuffers msg.data with
      | error e => exact hskip (by rw [ha, hd]; rfl)
      | ok frame =>
        have hf : accept lib msg = some frame := by rw [ha, hd]; rfl
        simp only
        split
        · next hn =>
          exact .disconnect _ i ss true now _ h (by rw [hp]; exact .unencodable msg now frame hf hn)
        · next ack hk =>
          exact .quiet _ i ss _ _ h (by rw [hp]; exact .acknowledged msg now frame ack hf hk)

theorem acked_move (s : Server V) (i : Nat) (ss : Session V) (f : StreamFrame) (ok : Bool)
    (h : s.session i = some ss) (hp : ss.phase = .acking f) :
    Move lib s (.sent i ok) (s.acked lib i ss f ok).1 (.sent i ok :: (s.acked lib i ss f ok).2) := by
  unfold acked
  cases ok with
  | false => exact .quiet _ i ss _ _ h (by rw [hp]; exact .unsent f)
  | true =>
    rw [if_neg (by decide)]
    cases hr : parseRecord lib.parse ss.vin f.topic f.txid f.createdAt f.payload with
    | error e =>
      exact .quiet _ i ss _ _ h (by rw [hp]; exact .unparsable f (by unfold recordOf; rw [hr]; rfl))
    | ok record => exact .frame i ss f record h hp (by unfold recordOf; rw [hr]; rfl)

theorem raises_move (s : Server V) (i : Nat) (ss : Session V) (now : Nat)
    (h : s.session i = some ss) :
    Move lib s (.raises i now) (s.raises i ss now).1 (s.raises i ss now).2 := by
  unfold raises
  split
  · next hp => exact .quiet _ i ss _ _ h (by rw [hp]; exact .abandoned _ now id (by simp))
  · next hp => exact .quiet _ i ss _ _ h (by rw [hp]; exact .abandoned _ now id (by simp))
  · next hp => exact .quiet _ i ss _ _ h (by rw [hp]; exact .abandoned _ now id (by simp))
  · next hp => exact .disconnect _ i ss true now [] h (by rw [hp]; exact .raised _ now trivial)
  · next hp => exact .disconnect _ i ss true now [] h (by rw [hp]; exact .raised _ now trivial)
  · next hp => exact .disconnect _ i ss true now [] h (by rw [hp]; exact .raised _ now trivial)
  · exact .idle _ id

/-- **Every step is one of the moves.** -/
theorem exec_move (lib : Libraries V) (s : Server V) (e : Event) :
    Move lib s e (s.exec lib e).1 (s.exec lib e).2 := by
  cases e with
  | request i request =>
    simp only [exec]
    split
    · next h => exact handle_move s i request h
    · exact .idle _ id
  | prepared i now =>
    simp only [exec]
    split
    · next ss h =>
      split
      · next hp => exact .connect i ss now h hp
      · exact .idle _ id
    · exact .idle _ id
  | returned i =>
    simp only [exec]
    split
    · next ss h =>
      split
      · next stage d hp => exact .resume i ss stage d h hp
      · exact .idle _ id
    · exact .idle _ id
  | message i msg now =>
    simp only [exec]
    split
    · next ss h =>
      split
      · next hp => exact handleMessage_move s i ss msg now h hp
      · exact .idle _ id
    · exact .idle _ id
  | sent i ok =>
    simp only [exec]
    split
    · next ss h =>
      split
      · next f hp => exact acked_move s i ss f ok h hp
      · exact .idle _ id
    · exact .idle _ id
  | finished i now =>
    simp only [exec]
    split
    · next ss h =>
      split
      · next hp => exact .disconnect _ i ss false now [] h (by rw [hp]; exact .finished now)
      · exact .idle _ id
    · exact .idle _ id
  | raises i now =>
    simp only [exec]
    split
    · next ss h => exact raises_move s i ss now h
    · exact .idle _ id
  | addListener callback vin topic field => exact .environment _ trivial
  | unsubscribe key => exact .environment _ trivial
  | records => exact .environment _ trivial
  | onStream q m => exact .environment _ trivial
  | stop => exact .environment _ trivial
  | cleanedUp =>
    have hobs : (s.exec lib .cleanedUp).2 = [] := by simp only [exec]; split <;> rfl
    rw [hobs]
    exact .environment _ trivial

/-- The same of what a step leaves and shows. -/
theorem step_move (lib : Libraries V) (s : Server V) (e : Event) :
    Move lib s e (s.step lib e) (s.seen lib e) := exec_move lib s e

/-- The environment leaves the registry and the sessions alone. -/
theorem environment_frame (lib : Libraries V) (s : Server V) {e : Event} (he : Environment e) :
    (s.exec lib e).1.connections = s.connections ∧ (s.exec lib e).1.session = s.session := by
  cases e with
  | cleanedUp => simp only [exec]; split <;> exact ⟨rfl, rfl⟩
  | addListener | unsubscribe | records | onStream | stop => exact ⟨rfl, rfl⟩
  | request | prepared | returned | message | sent | finished | raises => cases he

end Server

end FleetTelemetry
