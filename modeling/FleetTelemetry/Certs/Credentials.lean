import FleetTelemetry.Certs.X509
import FleetTelemetry.Lib.StepProgram
import Mathlib.Logic.Function.Basic

/-!
# Server credentials

`ServerCredentials` over a directory of four files.  Each method is a `Program`: it
reads the directory and takes file-system steps on it, and what it raises is a
`CertError`.  What key generation, serial numbers and the clock give a certificate is
a `Draw`.

    ensure = mkdir; CA if both files are absent; leaf if new CA, absent or SAN ∌ fqdn
-/

namespace FleetTelemetry

namespace Certs

open IpAddress StepProgram

/-! ## The directory -/

inductive File where
  | caPem
  | caKey
  | serverPem
  | serverKey
deriving DecidableEq

structure Entry (X : Cryptography) where
  contents : X.Contents
  mode : Nat

/-- `mode` is `none` while the directory does not exist. -/
structure Directory (X : Cryptography) where
  mode : Option Nat
  file : File → Option (Entry X)

/-- A step of the file system; `openTruncate` creates the file with its mode if it is absent. -/
inductive FsStep (X : Cryptography) where
  | mkdir
  | chmodDirectory (mode : Nat)
  | openTruncate (f : File) (mode : Nat)
  | write (f : File) (contents : X.Contents)
  | chmod (f : File) (mode : Nat)

variable {X : Cryptography}

namespace Directory

/-- A directory without files, or none yet. -/
def empty (mode : Option Nat) : Directory X := ⟨mode, fun _ => none⟩

def set (d : Directory X) (f : File) (e : Option (Entry X)) : Directory X :=
  { d with file := Function.update d.file f e }

def apply (d : Directory X) : FsStep X → Directory X
  | .mkdir => { d with mode := some (d.mode.getD 0o777) }
  | .chmodDirectory mode => { d with mode := some mode }
  | .openTruncate f mode => d.set f (some ⟨X.empty, ((d.file f).map Entry.mode).getD mode⟩)
  | .write f contents => d.set f ((d.file f).map fun e => { e with contents := contents })
  | .chmod f mode => d.set f ((d.file f).map fun e => { e with mode := mode })

instance : Stepped (Directory X) (FsStep X) := ⟨apply⟩

/-- The certificate a file holds. -/
def cert (d : Directory X) (f : File) : Option (Certificate X.PublicKey X.Signature) :=
  (d.file f).bind fun e => X.loadCert e.contents

/-- The private key a file holds. -/
def key (d : Directory X) (f : File) : Option X.PrivateKey :=
  ((d.file f).bind fun e => X.loadKey e.contents).bind LoadedKey.ecKey

end Directory

/-- `library`: what `cryptography` and `ipaddress` raise; `missing`: the file to read is not there. -/
inductive CertError where
  | partialCa (found absent : File)
  | noCa
  | emptyFqdn
  | notEcKey (f : File)
  | missing (f : File)
  | library
deriving DecidableEq

def DEFAULT_CA_COMMON_NAME : String := "python-fleet-telemetry Root CA"

/-- `directory` and `path` are the texts of the directory and of the four path properties. -/
structure ServerCredentials where
  directory : String
  path : File → String
  caCommonName : String := DEFAULT_CA_COMMON_NAME

def File.name : File → String
  | .caPem => "ca.pem"
  | .caKey => "ca.key"
  | .serverPem => "server.pem"
  | .serverKey => "server.key"

/-- The text of an error that `certs` itself raises. -/
def CertError.text (creds : ServerCredentials) : CertError → Option String
  | .partialCa found absent =>
    some ("partial CA state under " ++ creds.directory ++ ": found " ++ found.name ++ " but not " ++
      absent.name ++ ". Regenerating the CA invalidates every vehicle's registered \x60ca\x60; to " ++
      "do so deliberately, delete the directory and call ensure() again.")
  | .noCa => some ("no CA at " ++ creds.path .caPem ++ "; call ensure() before rotating")
  | .emptyFqdn => some "fqdn must be a non-empty hostname or IP literal"
  | .notEcKey f => some ("expected an EC private key at " ++ creds.path f)
  | .missing _ | .library => none

/-- A method of the credentials. -/
abbrev Op (X : Cryptography) (α : Type) := Program (Directory X) (FsStep X) CertError α

/-- What `generate_private_key`, `random_serial_number` and `_now` give. -/
structure Draw (X : Cryptography) where
  key : X.PrivateKey
  serial : Nat
  now : Nat

/-! ## Algorithm -/

open Program

def pathExists (f : File) : Op X Bool := read fun d => (d.file f).isSome

def readBytes (f : File) : Op X X.Contents := do
  let entry ← read fun d => d.file f
  orRaise (.missing f) (entry.map Entry.contents)

/-- `_load_cert` -/
def loadCert (f : File) : Op X (Certificate X.PublicKey X.Signature) := do
  let contents ← readBytes f
  orRaise .library (X.loadCert contents)

/-- `_load_ec_key` -/
def loadEcKey (f : File) : Op X X.PrivateKey := do
  let contents ← readBytes f
  let loaded ← orRaise .library (X.loadKey contents)
  match loaded with
  | .ec key => pure key
  | .other => raise (.notEcKey f)

/-- `_mkdir_private` -/
def mkdirPrivate : Op X Unit := do
  perform .mkdir
  perform (.chmodDirectory 0o700)

/-- `_write_key` -/
def writeKey (f : File) (key : X.PrivateKey) : Op X Unit := do
  perform (.openTruncate f 0o600)
  perform (.write f (X.keyPem key))
  perform (.chmod f 0o600)

/-- `_write_cert` -/
def writeCert (f : File) (cert : Certificate X.PublicKey X.Signature) : Op X Unit := do
  perform (.openTruncate f 0o666)
  perform (.write f (X.certPem cert))
  perform (.chmod f 0o644)

/-- The entry for `fqdn`: `x509.IPAddress` of what it denotes, else `x509.DNSName`. -/
def fqdnName (X : Cryptography) (fqdn : String) : Option GeneralName :=
  match ipAddress fqdn with
  | some ip => some (.ipAddress ip)
  | none => if X.dnsNameAllowed fqdn then some (.dnsName fqdn) else none

/-- `_san_general_names` -/
def sanGeneralNames (X : Cryptography) (fqdn : String) (ipAddresses : List String) :
    Option (List GeneralName) := do
  let name ← fqdnName X fqdn
  let names ← ipAddresses.mapM fun ip => (ipAddress ip).map .ipAddress
  return name :: names

/-- `_san_covers` -/
def sanCovers (cert : Certificate X.PublicKey X.Signature) (fqdn : String) : Bool :=
  match cert.tbs.subjectAlternativeName with
  | none => false
  | some san =>
    match ipAddress fqdn with
    | none => decide (.dnsName fqdn ∈ san)
    | some ip => decide (.ipAddress ip ∈ san)

def MAX_CN_LENGTH : Nat := 64

/-- `_CA_VALIDITY`, in seconds. -/
def CA_VALIDITY : Nat := 3650 * 86400

/-- `_LEAF_VALIDITY`, in seconds. -/
def LEAF_VALIDITY : Nat := 730 * 86400

/-- What `_create_ca` signs. -/
def caTbs (name : List String) (draw : Draw X) : Tbs X.PublicKey where
  subject := name
  issuer := name
  publicKey := X.publicKey draw.key
  serialNumber := draw.serial
  notValidBefore := draw.now
  notValidAfter := draw.now + CA_VALIDITY
  extensions :=
    [(.basicConstraints true (some 0), true), (.keyUsage [.keyCertSign, .crlSign], true),
      (.subjectKeyIdentifier (X.keyIdentifier (X.publicKey draw.key)), false),
      (.authorityKeyIdentifier (X.keyIdentifier (X.publicKey draw.key)), false)]

/-- `_create_ca` -/
def createCa (creds : ServerCredentials) (draw : Draw X) : Op X Unit :=
  if X.commonNameAllowed creds.caCommonName = false then raise .library
  else do
    let tbs := caTbs [creds.caCommonName] draw
    writeKey .caKey draw.key
    writeCert .caPem ⟨tbs, X.sign draw.key tbs⟩

/-- The subject attributes of a leaf: the Common Name when it fits. -/
def subjectAttrs (X : Cryptography) (fqdn : String) : Option (List String) :=
  if fqdn.length ≤ MAX_CN_LENGTH then
    if X.commonNameAllowed fqdn then some [fqdn] else none
  else some []

/-- What `_create_leaf` signs. -/
def leafTbs (caCert : Certificate X.PublicKey X.Signature) (caSki : Bytes) (subject : List String)
    (names : List GeneralName) (draw : Draw X) : Tbs X.PublicKey where
  subject := subject
  issuer := caCert.tbs.subject
  publicKey := X.publicKey draw.key
  serialNumber := draw.serial
  notValidBefore := draw.now
  notValidAfter := draw.now + LEAF_VALIDITY
  extensions :=
    [(.basicConstraints false none, true), (.keyUsage [.digitalSignature], true),
      (.extendedKeyUsageServerAuth, false),
      (.subjectAlternativeName (names.map GeneralName.stored), false),
      (.authorityKeyIdentifier caSki, false)]

/-- `_create_leaf` -/
def createLeaf (fqdn : String) (ipAddresses : List String) (draw : Draw X) : Op X Unit :=
  if fqdn = "" then raise .emptyFqdn
  else do
    let caCert ← loadCert .caPem
    let caKey ← loadEcKey .caKey
    let caSki ← orRaise .library caCert.tbs.subjectKeyIdentifier
    let subject ← orRaise .library (subjectAttrs X fqdn)
    let names ← orRaise .library (sanGeneralNames X fqdn ipAddresses)
    let tbs := leafTbs caCert caSki subject names draw
    writeKey .serverKey draw.key
    writeCert .serverPem ⟨tbs, X.sign caKey tbs⟩

/-- `_ensure_ca` -/
def ensureCa (creds : ServerCredentials) (draw : Draw X) : Op X Bool := do
  let certExists ← pathExists .caPem
  let keyExists ← pathExists .caKey
  if certExists && keyExists then pure false
  else if certExists || keyExists then
    raise (.partialCa (if certExists then .caPem else .caKey) (if certExists then .caKey else .caPem))
  else do
    createCa creds draw
    pure true

def ensure (creds : ServerCredentials) (fqdn : String) (ipAddresses : List String)
    (caDraw leafDraw : Draw X) : Op X Unit := do
  mkdirPrivate
  let caCreated ← ensureCa creds caDraw
  let certExists ← pathExists .serverPem
  let keyExists ← pathExists .serverKey
  if caCreated || !(certExists && keyExists) then createLeaf fqdn ipAddresses leafDraw
  else do
    let cert ← loadCert .serverPem
    if sanCovers cert fqdn then pure () else createLeaf fqdn ipAddresses leafDraw

def rotateServerCert (fqdn : String) (ipAddresses : List String) (draw : Draw X) : Op X Unit := do
  let certExists ← pathExists .caPem
  let keyExists ← pathExists .caKey
  if !(certExists && keyExists) then raise .noCa else createLeaf fqdn ipAddresses draw

end Certs

end FleetTelemetry
