import FleetTelemetry.Dispatch.Listeners
import FleetTelemetry.Dispatch.Streams
import FleetTelemetry.Envelope.Codec
import FleetTelemetry.Records.Identity

/-!
# The telemetry server

Every WebSocket session is a task that runs `_handle`; between two awaits it runs
alone.  An `Event` is one such stretch of code and `exec` runs it: it gives the
server afterwards and what was seen on the way (`Obs`).  A session is known by the
number of its request, and so is its `Connection`, which the program compares by
identity.

    request → preparing → connect dispatch → receiving ⇄ (acking → frame dispatch)
                                                 ↓
                                        disconnect dispatch → ended

An invocation of a listener may always suspend, and ends with `returned`, whether it
returned or raised an `Exception`; whatever else surfaces at an await is `raises`.
-/

namespace FleetTelemetry

variable {V : Type}

/-! ## State -/

def SIZE_LIMIT : Nat := 1000000

inductive WSMsgType where
  | continuation
  | text
  | binary
  | ping
  | pong
  | close
  | closing
  | closed
  | error
deriving DecidableEq

/-- `data` is read of a `binary` message only. -/
structure WSMessage where
  type : WSMsgType
  data : Bytes

/-- `ident` tells the instances apart: the session that made it. -/
structure Connection where
  ident : Nat
  vin : String
  connectedAt : Nat
  peer : String
  clientVersion : Option String

/-- Where in `_handle` a dispatch runs; `raised`: an exception waits for the `finally` block. -/
inductive Stage where
  | connect
  | frame
  | disconnect (raised : Bool)

/-- What made a dispatched record. -/
inductive Origin where
  | connect
  | frame
  | disconnect
deriving DecidableEq

def Stage.origin : Stage → Origin
  | .connect => .connect
  | .frame => .frame
  | .disconnect _ => .disconnect

/-- A call `dispatch(record)`; the program reads the record only. -/
structure Call (V : Type) where
  session : Nat
  origin : Origin
  record : Record V

/-- A dispatch suspended in the listener `key`, with the registrations after it. -/
structure Delivery (V : Type) where
  call : Call V
  key : Nat
  rest : List (Nat × Registration)

inductive Phase (V : Type) where
  | preparing
  | delivering (stage : Stage) (d : Delivery V)
  | receiving
  | acking (frame : StreamFrame)
  | ended (raised : Bool)

/-- The locals of `_handle`. -/
structure Session (V : Type) where
  vin : String
  peer : String
  clientVersion : Option String
  phase : Phase V

/-- `registrations` and `queues` of the dispatcher are in `listeners` and `streams`. -/
structure Server (V : Type) where
  closed : Bool
  connections : Dict String Connection
  listeners : Listeners
  streams : Streams (Call V)
  session : Nat → Option (Session V)

/-- The packages the server stands on. -/
structure Libraries (V : Type) where
  flatbuffers : FlatBuffers.Runtime
  parse : (t : Topic) → Bytes → Option (t.Message V)
  loadDer : Bytes → Option Certificate
  repr : String → String

/-- What is seen of a step; `dispatched` shows the queues in the fan-out set. -/
inductive Obs (V : Type) where
  | responded (i : Nat) (response : Response)
  | registered (i : Nat) (vin : String)
  | disconnecting (i : Nat) (vin : String)
  | dispatched (call : Call V) (queues : List Nat)
  | invoked (key : Nat) (call : Call V)
  | received (i : Nat) (msg : WSMessage)
  | sending (i : Nat) (ack : Bytes)
  | sent (i : Nat) (ok : Bool)

/-- `now` is what the clock shows; `sent i false` is a `ConnectionError` of `send_bytes`. -/
inductive Event where
  | request (i : Nat) (request : Request)
  | prepared (i : Nat) (now : Nat)
  | returned (i : Nat)
  | message (i : Nat) (msg : WSMessage) (now : Nat)
  | sent (i : Nat) (ok : Bool)
  | finished (i : Nat) (now : Nat)
  | raises (i : Nat) (now : Nat)
  | addListener (callback : Nat) (vin topic field : FilterSpec)
  | unsubscribe (key : Nat)
  | records
  | onStream (q : Nat) (m : Method)
  | stop
  | cleanedUp

namespace Server

def init (queueMaxsize : Nat) : Server V where
  closed := false
  connections := Dict.empty
  listeners := Listeners.empty
  streams := Streams.init queueMaxsize
  session := fun _ => none

def isConnected (s : Server V) (vin : String) : Bool := (s.connections.get vin).isSome

/-- The session whose `Connection` the registry has for `vin`. -/
def holder (s : Server V) (vin : String) : Option Nat := (s.connections.get vin).map Connection.ident

/-! ## Dispatch -/

def goto (s : Server V) (i : Nat) (ss : Session V) (p : Phase V) : Server V :=
  { s with session := Function.update s.session i (some { ss with phase := p }) }

/-- The dispatch goes on to the next listener that matches. -/
def next (call : Call V) (entries : List (Nat × Registration)) : Option (Delivery V) :=
  (nextListener call.record call.record.fields.keys entries).map fun (key, rest) => ⟨call, key, rest⟩

def invoked : Option (Delivery V) → List (Obs V)
  | some d => [.invoked d.key d.call]
  | none => []

/-- Where a session is once its dispatch has a next listener, or is over. -/
def walk (stage : Stage) : Option (Delivery V) → Phase V
  | some d => .delivering stage d
  | none =>
    match stage with
    | .connect => .receiving
    | .frame => .receiving
    | .disconnect raised => .ended raised

/-- `Dispatcher.dispatch` up to its first await: the fan-out, then the first listener. -/
def dispatch (s : Server V) (i : Nat) (ss : Session V) (stage : Stage) (record : Record V) :
    Server V × List (Obs V) :=
  let call : Call V := ⟨i, stage.origin, record⟩
  let d := next call s.listeners.registrations.entries
  (({ s with streams := s.streams.step (.dispatch call) } : Server V).goto i ss (walk stage d),
    .dispatched call s.streams.queues :: invoked d)

/-! ## Connectivity synthesis -/

/-- `_connectivity_record` -/
def connectivityRecord (vin : String) (status : ConnectivityEvent) (now : Nat) : Record V where
  vin := vin
  topic := .connectivity
  createdAt := now
  txid := ""
  message := (⟨vin, status⟩ : VehicleConnectivity)
  raw := []

/-- `_connect` -/
def connect (s : Server V) (i : Nat) (ss : Session V) (now : Nat) : Server V × List (Obs V) :=
  let conn : Connection := ⟨i, ss.vin, now, ss.peer, ss.clientVersion⟩
  let r := ({ s with connections := s.connections.set ss.vin conn } : Server V).dispatch i ss .connect
    (connectivityRecord ss.vin .connected now)
  (r.1, .registered i ss.vin :: r.2)

/-- `_disconnect`, run by the `finally` block of `_handle`. -/
def disconnect (s : Server V) (i : Nat) (ss : Session V) (raised : Bool) (now : Nat) :
    Server V × List (Obs V) :=
  if s.holder ss.vin ≠ some i then (s.goto i ss (.ended raised), [.disconnecting i ss.vin])
  else
    let r := ({ s with connections := s.connections.erase ss.vin } : Server V).dispatch i ss
      (.disconnect raised) (connectivityRecord ss.vin .disconnected now)
    (r.1, .disconnecting i ss.vin :: r.2)

/-! ## Request handling -/

variable (lib : Libraries V)

/-- `_handle` up to `ws.prepare`. -/
def handle (s : Server V) (i : Nat) (request : Request) : Server V × List (Obs V) :=
  let start (vin : String) (p : Phase V) : Server V :=
    { s with
      session := Function.update s.session i
        (some ⟨vin, request.remote.getD "", request.version, p⟩) }
  if s.closed then (start "" (.ended false), [.responded i ⟨503, "server is shutting down"⟩])
  else
    match authorize lib.loadDer lib.repr request with
    | .vin vin => (start vin .preparing, [])
    | .response r => (start "" (.ended false), [.responded i r])
    | .raised => (start "" (.ended true), [])

/-- `_process_frame` up to `send_bytes`; the builder's exceptions are not caught. -/
def processFrame (s : Server V) (i : Nat) (ss : Session V) (data : Bytes) (now : Nat) :
    Server V × List (Obs V) :=
  match decode lib.flatbuffers data with
  | .error _ => (s.goto i ss .receiving, [])
  | .ok frame =>
    match encodeAck lib.flatbuffers frame.txid frame.topic frame.messageId with
    | none => s.disconnect i ss true now
    | some ack => (s.goto i ss (.acking frame), [.sending i ack])

/-- `_handle_message` -/
def handleMessage (s : Server V) (i : Nat) (ss : Session V) (msg : WSMessage) (now : Nat) :
    Server V × List (Obs V) :=
  if msg.type ≠ .binary then (s.goto i ss .receiving, [])
  else if SIZE_LIMIT < msg.data.length then (s.goto i ss .receiving, [])
  else s.processFrame lib i ss msg.data now

/-- `_process_frame` from the end of `send_bytes`. -/
def acked (s : Server V) (i : Nat) (ss : Session V) (frame : StreamFrame) (ok : Bool) :
    Server V × List (Obs V) :=
  if ok = false then (s.goto i ss .receiving, [])
  else
    match parseRecord lib.parse ss.vin frame.topic frame.txid frame.createdAt frame.payload with
    | .error _ => (s.goto i ss .receiving, [])
    | .ok record => s.dispatch i ss .frame record

/-- An exception that is not handled where it surfaces: inside the `try` it runs the `finally`
block, elsewhere it ends `_handle`. -/
def raises (s : Server V) (i : Nat) (ss : Session V) (now : Nat) : Server V × List (Obs V) :=
  match ss.phase with
  | .preparing | .delivering .connect _ | .delivering (.disconnect _) _ =>
    (s.goto i ss (.ended true), [])
  | .receiving | .acking _ | .delivering .frame _ => s.disconnect i ss true now
  | .ended _ => (s, [])

/-! ## Runs -/

/-- One stretch of code between two awaits; an event that cannot happen changes nothing. -/
def exec (s : Server V) : Event → Server V × List (Obs V)
  | .request i request =>
    match s.session i with
    | none => s.handle lib i request
    | some _ => (s, [])
  | .prepared i now =>
    match s.session i with
    | some ss =>
      match ss.phase with
      | .preparing => s.connect i ss now
      | _ => (s, [])
    | none => (s, [])
  | .returned i =>
    match s.session i with
    | some ss =>
      match ss.phase with
      | .delivering stage d =>
        let d' := next d.call d.rest
        (s.goto i ss (walk stage d'), invoked d')
      | _ => (s, [])
    | none => (s, [])
  | .message i msg now =>
    match s.session i with
    | some ss =>
      match ss.phase with
      | .receiving =>
        let r := s.handleMessage lib i ss msg now
        (r.1, .received i msg :: r.2)
      | _ => (s, [])
    | none => (s, [])
  | .sent i ok =>
    match s.session i with
    | some ss =>
      match ss.phase with
      | .acking frame =>
        let r := s.acked lib i ss frame ok
        (r.1, .sent i ok :: r.2)
      | _ => (s, [])
    | none => (s, [])
  | .finished i now =>
    match s.session i with
    | some ss =>
      match ss.phase with
      | .receiving => s.disconnect i ss false now
      | _ => (s, [])
    | none => (s, [])
  | .raises i now =>
    match s.session i with
    | some ss => s.raises i ss now
    | none => (s, [])
  | .addListener callback vin topic field =>
    ({ s with listeners := s.listeners.addListener callback vin topic field }, [])
  | .unsubscribe key => ({ s with listeners := s.listeners.unsubscribe key }, [])
  | .records => ({ s with streams := s.streams.step .records }, [])
  | .onStream q m => ({ s with streams := s.streams.step (.on q m) }, [])
  | .stop => ({ s with closed := true }, [])
  | .cleanedUp =>
    if s.closed then ({ s with streams := s.streams.step .close }, []) else (s, [])

def step (s : Server V) (e : Event) : Server V := (s.exec lib e).1

def seen (s : Server V) (e : Event) : List (Obs V) := (s.exec lib e).2

/-- The server after the events `es` on a new one. -/
def after (queueMaxsize : Nat) (es : List Event) : Server V :=
  Runs.run (step lib) (init queueMaxsize) es

/-- What is seen of the run, in order. -/
def log (queueMaxsize : Nat) (es : List Event) : List (Obs V) :=
  Runs.outputs (step lib) (seen lib) (init queueMaxsize) es

end Server

/-! ## A set of libraries

The reference FlatBuffers runtime, a protobuf parser that knows the empty message, and
certificates of one octet that name the subject. -/

def emptyMessage (t : Topic) : t.Message Unit :=
  match t with
  | .data => (⟨[], ""⟩ : Payload Unit)
  | .alerts => (⟨""⟩ : VehicleAlerts)
  | .errors => (⟨""⟩ : VehicleErrors)
  | .connectivity => (⟨"", .unknown⟩ : VehicleConnectivity)

def sampleLibraries : Libraries Unit where
  flatbuffers := FlatBuffers.reference
  parse t payload := if payload = [] then some (emptyMessage t) else none
  loadDer
    | [c] => some ⟨[String.ofList [Char.ofNat c.toNat]], ["TeslaMotors"]⟩
    | _ => none
  repr s := s

/-- A request of the vehicle whose VIN is `"V"`. -/
def sampleRequest : Request := ⟨some ⟨some ⟨some [86]⟩⟩, some "192.0.2.1", none⟩

end FleetTelemetry
