import FleetTelemetry.Envelope.Bindings
import FleetTelemetry.Lib.IpAddress

/-!
# X.509

The part of the `cryptography` package that `certs` uses: certificates as they are
built and read back, and the operations on keys and PEM files (`Cryptography`), with
what their documentation promises (`Cryptography.Documented`).  `symbolic` is the
package with keys as numbers and contents as terms.
-/

namespace FleetTelemetry

namespace Certs

open IpAddress

/-- An entry of a `SubjectAlternativeName`. -/
inductive GeneralName where
  | dnsName (value : String)
  | ipAddress (value : Address)
deriving DecidableEq

/-- The entry as a certificate holds it: of an address the packed octets. -/
def GeneralName.stored : GeneralName → GeneralName
  | .dnsName value => .dnsName value
  | .ipAddress value => .ipAddress value.unscoped

inductive KeyUsage where
  | digitalSignature
  | keyCertSign
  | crlSign
deriving DecidableEq

/-- `keyUsage` lists the usages that are set. -/
inductive Extension where
  | basicConstraints (ca : Bool) (pathLength : Option Nat)
  | keyUsage (usages : List KeyUsage)
  | extendedKeyUsageServerAuth
  | subjectKeyIdentifier (digest : Bytes)
  | authorityKeyIdentifier (keyIdentifier : Bytes)
  | subjectAlternativeName (names : List GeneralName)
deriving DecidableEq

/-- What is signed of a certificate.  A name is the list of its Common Names, an extension goes
with its critical flag, times are in seconds. -/
structure Tbs (PublicKey : Type) where
  subject : List String
  issuer : List String
  publicKey : PublicKey
  serialNumber : Nat
  notValidBefore : Nat
  notValidAfter : Nat
  extensions : List (Extension × Bool)
deriving DecidableEq

structure Certificate (PublicKey Signature : Type) where
  tbs : Tbs PublicKey
  signature : Signature
deriving DecidableEq

/-- The value of the `SubjectKeyIdentifier`; `none` is `ExtensionNotFound`. -/
def Tbs.subjectKeyIdentifier {PublicKey : Type} (tbs : Tbs PublicKey) : Option Bytes :=
  tbs.extensions.findSome? fun
    | (.subjectKeyIdentifier digest, _) => some digest
    | _ => none

/-- The names of the `SubjectAlternativeName`; `none` is `ExtensionNotFound`. -/
def Tbs.subjectAlternativeName {PublicKey : Type} (tbs : Tbs PublicKey) :
    Option (List GeneralName) :=
  tbs.extensions.findSome? fun
    | (.subjectAlternativeName names, _) => some names
    | _ => none

/-- The certificate has an encoding: its alternative names are as they are stored. -/
def Tbs.storable {PublicKey : Type} (tbs : Tbs PublicKey) : Bool :=
  (tbs.subjectAlternativeName.getD []).all fun name => decide (name.stored = name)

/-- What `load_pem_private_key` reads. -/
inductive LoadedKey (PrivateKey : Type) where
  | ec (key : PrivateKey)
  | other

def LoadedKey.ecKey {PrivateKey : Type} : LoadedKey PrivateKey → Option PrivateKey
  | .ec key => some key
  | .other => none

/-- The operations; `none` and `false` stand for an exception, `empty` is an empty file. -/
structure Cryptography where
  PrivateKey : Type
  PublicKey : Type
  Signature : Type
  Contents : Type
  publicKey : PrivateKey → PublicKey
  keyIdentifier : PublicKey → Bytes
  commonNameAllowed : String → Bool
  dnsNameAllowed : String → Bool
  sign : PrivateKey → Tbs PublicKey → Signature
  verify : PublicKey → Tbs PublicKey → Signature → Bool
  certPem : Certificate PublicKey Signature → Contents
  loadCert : Contents → Option (Certificate PublicKey Signature)
  keyPem : PrivateKey → Contents
  loadKey : Contents → Option (LoadedKey PrivateKey)
  empty : Contents

/-- Signatures verify, PEM files read back as what was written, and an alternative name that is read
is one that can be stored. -/
structure Cryptography.Documented (X : Cryptography) : Prop where
  verify_sign (key : X.PrivateKey) (tbs : Tbs X.PublicKey) :
    X.verify (X.publicKey key) tbs (X.sign key tbs) = true
  loadCert_certPem (cert : Certificate X.PublicKey X.Signature) (h : cert.tbs.storable = true) :
    X.loadCert (X.certPem cert) = some cert
  storable_of_loadCert (contents : X.Contents) (cert : Certificate X.PublicKey X.Signature)
    (h : X.loadCert contents = some cert) : cert.tbs.storable = true
  loadKey_keyPem (key : X.PrivateKey) : X.loadKey (X.keyPem key) = some (.ec key)

/-! ## A symbolic package -/

inductive SymbolicContents where
  | cert (cert : Certificate Nat (Nat × Tbs Nat))
  | key (key : Nat)
  | empty
deriving DecidableEq

/-- Keys are numbers, a signature is the key and what it signs. -/
def symbolic : Cryptography where
  PrivateKey := Nat
  PublicKey := Nat
  Signature := Nat × Tbs Nat
  Contents := SymbolicContents
  publicKey key := key
  keyIdentifier key := [UInt8.ofNat key]
  commonNameAllowed name := 0 < name.utf8ByteSize && name.utf8ByteSize ≤ 64
  dnsNameAllowed name := name.toList.all fun c => c.toNat < 0x80
  sign key tbs := (key, tbs)
  verify key tbs signature := signature = (key, tbs)
  certPem cert := .cert cert
  loadCert
    | .cert cert => if cert.tbs.storable then some cert else none
    | _ => none
  keyPem key := .key key
  loadKey
    | .key key => some (.ec key)
    | _ => none
  empty := .empty

theorem symbolic_documented : symbolic.Documented where
  verify_sign key tbs := by simp [symbolic]
  loadCert_certPem _ h := if_pos h
  storable_of_loadCert contents cert h := by
    cases contents with
    | cert c =>
      simp only [symbolic] at h
      split at h
      · next hs => rwa [← Option.some.inj h]
      · cases h
    | key | empty => cases h
  loadKey_keyPem _ := rfl

end Certs

end FleetTelemetry
