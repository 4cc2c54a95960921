import FleetTelemetry.Certs.Addresses
import FleetTelemetry.Certs.Calls
import FleetTelemetry.Certs.Chain
import FleetTelemetry.Certs.Coherence
import FleetTelemetry.Certs.Credentials
import FleetTelemetry.Certs.Cuts
import FleetTelemetry.Certs.Idempotence
import FleetTelemetry.Certs.Interruption
import FleetTelemetry.Certs.Lineage
import FleetTelemetry.Certs.Privacy
import FleetTelemetry.Certs.Recovery
import FleetTelemetry.Certs.Trust
import FleetTelemetry.Certs.Validity
import FleetTelemetry.Certs.X509
import FleetTelemetry.Dispatch.Listeners
import FleetTelemetry.Dispatch.Queue
import FleetTelemetry.Dispatch.Signals
import FleetTelemetry.Dispatch.StreamCancel
import FleetTelemetry.Dispatch.StreamClose
import FleetTelemetry.Dispatch.StreamFifo
import FleetTelemetry.Dispatch.StreamInvariant
import FleetTelemetry.Dispatch.StreamLoss
import FleetTelemetry.Dispatch.StreamRelease
import FleetTelemetry.Dispatch.Streams
import FleetTelemetry.Dispatch.Unsubscribe
import FleetTelemetry.Dispatch.Walks
import FleetTelemetry.Envelope.Acceptance
import FleetTelemetry.Envelope.AckRoundTrip
import FleetTelemetry.Envelope.Bindings
import FleetTelemetry.Envelope.Codec
import FleetTelemetry.Envelope.DecodeSound
import FleetTelemetry.Envelope.Serialisation
import FleetTelemetry.Lib.CrashTriple
import FleetTelemetry.Lib.Dict
import FleetTelemetry.Lib.DropOldest
import FleetTelemetry.Lib.FlatBuffers
import FleetTelemetry.Lib.FlatBuffersLayout
import FleetTelemetry.Lib.FlatBuffersRuntime
import FleetTelemetry.Lib.IpAddress
import FleetTelemetry.Lib.Runs
import FleetTelemetry.Lib.StepProgram
import FleetTelemetry.Lib.TokenRegistry
import FleetTelemetry.Lib.Utf8
import FleetTelemetry.Records.Identity
import FleetTelemetry.Records.Proto
import FleetTelemetry.Records.Record
import FleetTelemetry.Server.Admission
import FleetTelemetry.Server.Backend
import FleetTelemetry.Server.Cleanup
import FleetTelemetry.Server.ConnectionHistory
import FleetTelemetry.Server.ConnectivityOrder
import FleetTelemetry.Server.Delivery
import FleetTelemetry.Server.Exchanges
import FleetTelemetry.Server.Frames
import FleetTelemetry.Server.Isolation
import FleetTelemetry.Server.Lifecycle
import FleetTelemetry.Server.Model
import FleetTelemetry.Server.Moves
import FleetTelemetry.Server.Noninterference
import FleetTelemetry.Server.Receipts
import FleetTelemetry.Server.Registry
import FleetTelemetry.Server.SessionIdentity
import FleetTelemetry.Server.SessionLog
import FleetTelemetry.Server.Shutdown
import FleetTelemetry.Server.Snapshot
import FleetTelemetry.Server.StreamDelivery
import FleetTelemetry.Server.Termination
import FleetTelemetry.Server.Walks
