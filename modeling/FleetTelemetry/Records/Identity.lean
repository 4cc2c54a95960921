import FleetTelemetry.Envelope.Bindings

/-!
# Client identity

`identity_from_cert` and `_authorize`: the VIN of a session is the first subject
Common Name of the client certificate with `.` replaced by `-`, and the issuer must
be a known one.  DER parsing and Python's `repr` are parameters.
-/

namespace FleetTelemetry

/-- The Common Name attributes of a certificate's subject and issuer, in their order. -/
structure Certificate where
  subject : List String
  issuer : List String

structure Identity where
  vin : String
  clientType : String
deriving DecidableEq

/-- `_KNOWN_ISSUERS` -/
def knownIssuers : List (String × String) :=
  [("TeslaMotors", "vehicle_device"), ("Tesla Issuing CA", "vehicle_device"),
   ("Tesla Motors Products CA", "vehicle_device")]

/-- `_KNOWN_OID_ISSUERS` -/
def knownOidIssuers : List String :=
  ["Tesla Motors Product Issuing CA", "Tesla Motors Product RSA Issuing CA",
   "Tesla Motors GF3 Product Issuing CA", "Tesla Motors GF3 Product RSA Issuing CA",
   "Tesla Energy Product Issuing CA", "Tesla Energy GF0 Product Issuing CA",
   "Tesla Motors GF0 Product Issuing CA", "Tesla Motors GF Austin Product Issuing CA",
   "Tesla Motors GF Berlin Product Issuing CA", "Tesla Product Access Issuing CA",
   "Tesla China Product Access Issuing CA", "Tesla GF0 Product Access Issuing CA",
   "Tesla GF3 Product Access Issuing CA", "Tesla GF Austin Product Access Issuing CA",
   "Tesla GF Berlin Product Access Issuing CA"]

/-- `_common_name`: the first Common Name, `""` if there is none. -/
def commonName (name : List String) : String := name.headD ""

/-- `.replace(".", "-")` -/
def dotsToDashes (s : String) : String :=
  String.ofList (s.toList.map fun c => if c = '.' then '-' else c)

/-- `identity_from_cert`; `none` is `UnauthorizedCertificate`. -/
def identityFromCert (cert : Certificate) : Option Identity :=
  let vin := dotsToDashes (commonName cert.subject)
  let issuerCn := commonName cert.issuer
  if issuerCn ∈ knownOidIssuers then some ⟨vin, "vehicle_device"⟩
  else (knownIssuers.lookup issuerCn).map fun clientType => ⟨vin, clientType⟩

/-- `ssl_object` with its `getpeercert(binary_form=True)`. -/
structure SslObject where
  peercert : Option Bytes

structure Transport where
  sslObject : Option SslObject

/-- `version` is the header `Version`. -/
structure Request where
  transport : Option Transport
  remote : Option String
  version : Option String

structure Response where
  status : Nat
  text : String
deriving DecidableEq

/-- What `_authorize` leads to: the VIN, a response, or an exception of `load_der_x509_certificate`. -/
inductive Authorization where
  | vin (vin : String)
  | response (r : Response)
  | raised

/-- `_authorize`; the text of `UnauthorizedCertificate` quotes the issuer with `repr`. -/
def authorize (loadDer : Bytes → Option Certificate) (repr : String → String) (request : Request) :
    Authorization :=
  match request.transport with
  | none => .response ⟨496, "no transport"⟩
  | some transport =>
    match transport.sslObject with
    | none => .response ⟨496, "no TLS session"⟩
    | some sslObject =>
      match sslObject.peercert with
      | none | some [] => .response ⟨496, "no client certificate"⟩
      | some der =>
        match loadDer der with
        | none => .raised
        | some cert =>
          match identityFromCert cert with
          | none => .response ⟨496, "unrecognized issuer: " ++ repr (commonName cert.issuer)⟩
          | some identity =>
            if identity.vin = "" then .response ⟨496, "client certificate has no VIN"⟩
            else .vin identity.vin

end FleetTelemetry
