import FleetTelemetry.Certs.Addresses
import FleetTelemetry.Certs.Recovery

/-!
# What the server presents

A vehicle holds the text of `ca.pem`, which was registered once.  Leaves are issued anew,
calls are cut off; the certificate that `build_ssl_context` presents is one that the CA of
that text has issued all the same (`Chains`), and it lists a host:

    caCertificatePem d = .ok pem → buildSslContext (later d) … = .ok ctx →
      X.loadCert pem = some anchor ∧ Chains X anchor ctx.certificate    (trust_continuity)
-/

namespace FleetTelemetry

namespace Certs

open IpAddress StepProgram Runs Directory

variable {X : Cryptography}

/-! ## Algorithm -/

/-- `tesla_ca_bundle_path`; `certsDir` is `_CERTS_DIR`. -/
def teslaCaBundlePath (certsDir : String) (staging : Bool) : String :=
  certsDir ++ "/" ++ if staging then "tesla_eng_ca.pem" else "tesla_prod_ca.pem"

inductive VerifyMode where
  | certNone
  | certOptional
  | certRequired
deriving DecidableEq

/-- An `ssl.SSLContext`, as far as `certs` sets it. -/
structure SslContext (X : Cryptography) where
  certificate : Certificate X.PublicKey X.Signature
  privateKey : X.PrivateKey
  verifyLocations : String
  verifyMode : VerifyMode

/-- `ssl`: a file that is no certificate or key, or a key that is not that of the certificate. -/
inductive ReadError where
  | noCa
  | missing (f : File)
  | ssl
deriving DecidableEq

/-- The text of an error that `certs` itself raises. -/
def ReadError.text (creds : ServerCredentials) : ReadError → Option String
  | .noCa => some ("no CA at " ++ creds.path .caPem ++ "; call ensure() first")
  | .missing _ | .ssl => none

/-- `ca_certificate_pem` -/
def caCertificatePem (d : Directory X) : Except ReadError X.Contents :=
  match d.file .caPem with
  | none => .error .noCa
  | some e => .ok e.contents

/-- `SSLContext.load_cert_chain`: both files, and the key must be that of the certificate. -/
def loadCertChain [DecidableEq X.PublicKey] (d : Directory X) (certFile keyFile : File) :
    Except ReadError (Certificate X.PublicKey X.Signature × X.PrivateKey) :=
  if (d.file certFile).isNone then .error (.missing certFile)
  else if (d.file keyFile).isNone then .error (.missing keyFile)
  else
    match d.cert certFile, d.key keyFile with
    | some cert, some key =>
      if cert.tbs.publicKey = X.publicKey key then .ok (cert, key) else .error .ssl
    | _, _ => .error .ssl

/-- `build_ssl_context` -/
def buildSslContext [DecidableEq X.PublicKey] (d : Directory X) (certsDir : String)
    (staging : Bool) : Except ReadError (SslContext X) := do
  let chain ← loadCertChain d .serverPem .serverKey
  return {
    certificate := chain.1
    privateKey := chain.2
    verifyLocations := teslaCaBundlePath certsDir staging
    verifyMode := .certRequired }

/-! ### What can be read off a certificate -/

/-- The certificate is valid at time `t`. -/
def ValidAt {P S : Type} (cert : Certificate P S) (t : Nat) : Prop :=
  cert.tbs.notValidBefore ≤ t ∧ t ≤ cert.tbs.notValidAfter

/-- The alternative names of the certificate list the host. -/
def Names {P S : Type} (cert : Certificate P S) (host : String) : Prop :=
  ∃ names, cert.tbs.subjectAlternativeName = some names ∧ Lists names host

/-- `anchor` is the certificate of a CA, and `leaf` that of a server which this CA has issued. -/
structure Chains (X : Cryptography) (anchor leaf : Certificate X.PublicKey X.Signature) :
    Prop where
  issuer : leaf.tbs.issuer = anchor.tbs.subject
  signature : X.verify anchor.tbs.publicKey leaf.tbs leaf.signature = true
  keyIdentifier : ∃ ski, anchor.tbs.subjectKeyIdentifier = some ski ∧
    (.authorityKeyIdentifier ski, false) ∈ leaf.tbs.extensions
  anchorIsCa : ∃ pathLength, (.basicConstraints true pathLength, true) ∈ anchor.tbs.extensions
  anchorSigns : ∃ usages, (.keyUsage usages, true) ∈ anchor.tbs.extensions ∧
    .keyCertSign ∈ usages
  leafIsNoCa : (.basicConstraints false none, true) ∈ leaf.tbs.extensions
  leafSigns : ∃ usages, (.keyUsage usages, true) ∈ leaf.tbs.extensions ∧
    .digitalSignature ∈ usages
  leafServes : (.extendedKeyUsageServerAuth, false) ∈ leaf.tbs.extensions

/-- The happening is not cut off. -/
def Uncut : Happening X → Prop
  | .crash _ _ => False
  | .call _ | .delete _ => True

/-! ## Lemmas -/

theorem has_of_bind {β : Type} {d : Directory X} {f : File} {g : Entry X → Option β} {b : β}
    (h : (d.file f).bind g = some b) : (d.file f).isNone = false := by
  obtain ⟨e, he, -⟩ := Option.bind_eq_some_iff.mp h
  rw [he]
  rfl

/-- `load_cert_chain` loads exactly a certificate and its key. -/
theorem loadCertChain_eq_ok [DecidableEq X.PublicKey] {d : Directory X} {certFile keyFile : File}
    {cert : Certificate X.PublicKey X.Signature} {key : X.PrivateKey} :
    loadCertChain d certFile keyFile = .ok (cert, key) ↔
      d.cert certFile = some cert ∧ d.key keyFile = some key ∧
        cert.tbs.publicKey = X.publicKey key := by
  constructor
  · intro h
    unfold loadCertChain at h
    split at h
    · cases h
    · split at h
      · cases h
      · split at h
        · next cert' key' hcert hkey =>
          split at h
          · next hpub =>
            cases h
            exact ⟨hcert, hkey, hpub⟩
          · cases h
        · cases h
  · rintro ⟨hcert, hkey, hpub⟩
    have hkeyFile : (d.file keyFile).isNone = false := by
      unfold Directory.key at hkey
      obtain ⟨_, h, -⟩ := Option.bind_eq_some_iff.mp hkey
      exact has_of_bind h
    unfold loadCertChain
    rw [has_of_bind hcert, hkeyFile, hcert, hkey]
    simp only [Bool.false_eq_true, if_false, if_pos hpub]

/-- What a context holds. -/
theorem buildSslContext_eq_ok [DecidableEq X.PublicKey] {d : Directory X} {certsDir : String}
    {staging : Bool} {ctx : SslContext X} :
    buildSslContext d certsDir staging = .ok ctx ↔
      d.cert .serverPem = some ctx.certificate ∧ d.key .serverKey = some ctx.privateKey ∧
        ctx.certificate.tbs.publicKey = X.publicKey ctx.privateKey ∧
        ctx.verifyLocations = teslaCaBundlePath certsDir staging ∧
        ctx.verifyMode = .certRequired := by
  unfold buildSslContext
  constructor
  · intro h
    cases hchain : loadCertChain d .serverPem .serverKey with
    | error e =>
      rw [hchain] at h
      cases h
    | ok chain =>
      rw [hchain] at h
      obtain rfl := Except.ok.inj h
      obtain ⟨hcert, hkey, hpub⟩ := loadCertChain_eq_ok.mp hchain
      exact ⟨hcert, hkey, hpub, rfl, rfl⟩
  · rintro ⟨hcert, hkey, hpub, hloc, hmode⟩
    obtain ⟨cert, key, loc, mode⟩ := ctx
    dsimp only at hcert hkey hpub hloc hmode
    subst hloc hmode
    rw [loadCertChain_eq_ok.mpr ⟨hcert, hkey, hpub⟩]
    rfl

/-- The text that was read is the contents of `ca.pem`. -/
theorem caCertificatePem_eq_ok {d : Directory X} {pem : X.Contents} :
    caCertificatePem d = .ok pem ↔ d.contents .caPem = some pem := by
  unfold caCertificatePem Directory.contents
  cases d.file .caPem with
  | none => exact iff_of_false (fun h => by cases h) fun h => by cases h
  | some e => exact ⟨fun h => congrArg some (Except.ok.inj h), fun h =>
      congrArg Except.ok (Option.some.inj h)⟩

/-- **The registered text stays the text of the CA**, in any directory. -/
theorem pem_kept {d : Directory X} {pem : X.Contents} (h : caCertificatePem d = .ok pem)
    {hs : List (Happening X)} (hkeep : ∀ x ∈ hs, LeafOnly x) :
    caCertificatePem (run happen d hs) = .ok pem := by
  rw [caCertificatePem_eq_ok] at h ⊢
  refine Along.invariant happen (fun _ x => LeafOnly x)
    (I := fun s => s.contents .caPem = some pem) ?_ h ((along_of_forall _ _ _).mpr hkeep)
  intro s x hs hx
  have hhas : s.has .caPem ∨ s.has .caKey := .inl (has_of_contents hs)
  cases x with
  | call c => rw [← hs]; exact contents_congr (ca_kept hhas (call_cut s c)).1
  | crash c k => rw [← hs]; exact contents_congr (ca_kept hhas (interrupted_cut s c k)).1
  | delete files =>
    rw [← hs]
    exact contents_congr (if_neg hx.1)

/-- **What a CA has issued chains to its certificate.** -/
theorem IssuedBy.chains (hX : X.Documented) {caCommonName : String} {draw : Draw X}
    {leaf : Certificate X.PublicKey X.Signature} (h : IssuedBy caCommonName draw leaf) :
    Chains X (caCert X caCommonName draw) leaf := by
  obtain ⟨fqdn, ipAddresses, subject, names, leafDraw, -, htbs, hsign⟩ := h
  have hverify : X.verify (X.publicKey draw.key) leaf.tbs leaf.signature = true := by
    rw [hsign]
    exact hX.verify_sign _ _
  refine ⟨?_, hverify, ⟨X.keyIdentifier (X.publicKey draw.key), rfl, ?_⟩, ⟨some 0, ?_⟩,
    ⟨[.keyCertSign, .crlSign], ?_, List.mem_cons_self⟩, ?_,
    ⟨[.digitalSignature], ?_, List.mem_cons_self⟩, ?_⟩
  · rw [htbs]
    rfl
  · rw [htbs]
    simp [leafTbs]
  · simp [caCert, caTbs]
  · simp [caCert, caTbs]
  · rw [htbs]
    simp [leafTbs]
  · rw [htbs]
    simp [leafTbs]
  · rw [htbs]
    simp [leafTbs]

/-- A leaf names the host it was issued for. -/
theorem IssuedBy.names {caCommonName : String} {draw : Draw X}
    {leaf : Certificate X.PublicKey X.Signature} (h : IssuedBy caCommonName draw leaf) :
    ∃ host, Names leaf host := by
  obtain ⟨fqdn, ipAddresses, subject, names, leafDraw, hnames, htbs, -⟩ := h
  refine ⟨fqdn, names.map GeneralName.stored, ?_, lists_of_names hnames⟩
  rw [htbs]
  exact leafTbs_san ..

/-- A leaf that can be read was issued by the CA on disk. -/
theorem Lineage.leaf_issued (hX : X.Documented) (hempty : X.loadCert X.empty = none)
    {d : Directory X} (h : Lineage d) {leaf : Certificate X.PublicKey X.Signature}
    (hleaf : d.cert .serverPem = some leaf) :
    ∃ caCommonName draw, CaOf d caCommonName draw ∧ IssuedBy caCommonName draw leaf := by
  rcases h.leaf (has_of_cert hleaf) with hblank | ⟨cn, draw, leaf', hca, hcontents, hissued⟩
  · exact absurd hblank (not_blank_of_cert hempty hleaf)
  · obtain rfl := Option.some.inj (hleaf.symm.trans (hissued.read hX hcontents))
    exact ⟨cn, draw, hca, hissued⟩

/-- Without an interruption the files stay sound. -/
theorem sound_uncut (hX : X.Documented) (hempty : X.loadCert X.empty = none) (mode : Option Nat)
    {hs : List (Happening X)} (h : ∀ x ∈ hs, LeafOrAll x ∧ Uncut x) :
    Sound (run happen (Directory.empty mode) hs) := by
  refine (Along.invariant happen (fun _ x => LeafOrAll x ∧ Uncut x)
    (I := fun s => Lineage s ∧ Sound s) ?_ ⟨lineage_empty mode, sound_empty mode⟩
    ((along_of_forall _ _ _).mpr h)).2
  rintro s x ⟨hl, hs⟩ ⟨hx, hu⟩
  refine ⟨lineage_happen hX hempty hl hx, ?_⟩
  cases x with
  | call c =>
    refine call_sound hX hs c ?_
    cases c with
    | ensure creds fqdn ipAddresses caDraw leafDraw =>
      intro hc _ hserver
      exact absurd hserver (hl.no_leaf hc).1
    | rotate fqdn ipAddresses draw => trivial
  | crash c k => exact hu.elim
  | delete files => exact act_sound hX hs (.delete files) trivial

/-- After a call that returns the leaf has its key beside it and names the host of the call. -/
theorem returned_leaf (hX : X.Documented) {d : Directory X} (hs : Sound d) {c : Call X}
    (hret : Returns d c) :
    KeyMatches (call d c) ∧ ∃ leaf, (call d c).cert .serverPem = some leaf ∧ Names leaf c.fqdn := by
  have hnames {s : Directory X} {host : String}
      (h : ∃ leaf names, s.cert .serverPem = some leaf ∧
        leaf.tbs.subjectAlternativeName = some names ∧ Lists names host) :
      ∃ leaf, s.cert .serverPem = some leaf ∧ Names leaf host := by
    obtain ⟨leaf, names, hleaf, hsan, hlists⟩ := h
    exact ⟨leaf, hleaf, names, hsan, hlists⟩
  cases c with
  | ensure creds fqdn ipAddresses caDraw leafDraw =>
    exact ⟨(ensure_chained hX hs hret).2, hnames (ensured_lists hX (ensure_returned hret))⟩
  | rotate fqdn ipAddresses draw =>
    obtain ⟨-, -, hissue⟩ := rotate_returned hret
    exact ⟨issueLeaf_keyMatches hX hissue, hnames (issueLeaf_lists hX hissue)⟩

/-! ## Top theorems (proved from the lemmas above) -/

/-- **The registered CA stays the issuer of what the server presents**, across rotations and
interruptions.  First come calls, calls that are cut off anywhere, and deletions of files of the
leaf only or of all four files; then a text is read with `ca_certificate_pem`; then come the same,
but for deletions of the CA.  `ca_certificate_pem` still gives that text, and every context that can
be built holds a key and a certificate that belong together, asks for client certificates, and its
certificate chains to that text and lists a host. -/
theorem trust_continuity (X : Cryptography) [DecidableEq X.PublicKey] (hX : X.Documented)
    (hempty : X.loadCert X.empty = none) (mode : Option Nat) (hs₁ hs₂ : List (Happening X))
    (h : ∀ x ∈ hs₁, LeafOrAll x) (hkeep : ∀ x ∈ hs₂, LeafOnly x) (pem : X.Contents)
    (hpem : caCertificatePem (run happen (Directory.empty mode) hs₁) = .ok pem)
    (certsDir : String) (staging : Bool) :
    let d := run happen (Directory.empty mode) (hs₁ ++ hs₂)
    caCertificatePem d = .ok pem ∧
    ∀ ctx, buildSslContext d certsDir staging = .ok ctx →
      ctx.certificate.tbs.publicKey = X.publicKey ctx.privateKey ∧
      ctx.verifyMode = .certRequired ∧
      ∃ anchor, X.loadCert pem = some anchor ∧ Chains X anchor ctx.certificate ∧
        ∃ host, Names ctx.certificate host := by
  intro d
  have hall : ∀ x ∈ hs₁ ++ hs₂, LeafOrAll x :=
    List.forall_mem_append.mpr ⟨h, fun x hx => (hkeep x hx).leafOrAll⟩
  have hd : Lineage d := lineage_run hX hempty mode hall
  have hpem' : caCertificatePem d = .ok pem := by
    show caCertificatePem (run happen _ (hs₁ ++ hs₂)) = _
    rw [run_append]
    exact pem_kept hpem hkeep
  refine ⟨hpem', fun ctx hctx => ?_⟩
  obtain ⟨hleaf, -, hpub, -, hmode⟩ := buildSslContext_eq_ok.mp hctx
  obtain ⟨cn, draw, hca, hissued⟩ := hd.leaf_issued hX hempty hleaf
  -- the text is that of the CA that issued the leaf
  have hanchor : X.loadCert pem = some (caCert X cn draw) := by
    have hcert := (hca.read hX).1
    rw [cert_contents, caCertificatePem_eq_ok.mp hpem', Option.bind_some] at hcert
    exact hcert
  exact ⟨hpub, hmode, caCert X cn draw, hanchor, hissued.chains hX, hissued.names⟩

/-- **After a call that returns the server can be started.**  In every history of calls, none of
them cut off, and of deletions of files of the leaf only or of all four files: after an `ensure` or
a rotation that returns, the CA and the TLS context can be read, and the certificate of the context
chains to that CA and lists the host of the call. -/
theorem ready_after_return (X : Cryptography) [DecidableEq X.PublicKey] (hX : X.Documented)
    (hempty : X.loadCert X.empty = none) (mode : Option Nat) (hs : List (Happening X))
    (h : ∀ x ∈ hs, LeafOrAll x ∧ Uncut x) (c : Call X)
    (hret : Returns (run happen (Directory.empty mode) hs) c) (certsDir : String)
    (staging : Bool) :
    let d := call (run happen (Directory.empty mode) hs) c
    ∃ pem anchor ctx, caCertificatePem d = .ok pem ∧ X.loadCert pem = some anchor ∧
      buildSslContext d certsDir staging = .ok ctx ∧ Chains X anchor ctx.certificate ∧
      Names ctx.certificate c.fqdn := by
  intro d
  have hd : Lineage d :=
    lineage_cut hX hempty (lineage_run hX hempty mode fun x hx => (h x hx).1) (call_cut _ c)
  obtain ⟨⟨leaf, key, hleaf, hkey, hpub⟩, leaf', hleaf', hnames⟩ :=
    returned_leaf hX (sound_uncut hX hempty mode h) hret
  obtain rfl := Option.some.inj (hleaf.symm.trans hleaf')
  obtain ⟨cn, draw, hca, hissued⟩ := hd.leaf_issued hX hempty hleaf
  have hanchor : X.loadCert (X.certPem (caCert X cn draw)) = some (caCert X cn draw) :=
    hX.loadCert_certPem _ rfl
  exact ⟨_, caCert X cn draw, ⟨leaf, key, teslaCaBundlePath certsDir staging, .certRequired⟩,
    caCertificatePem_eq_ok.mpr hca.1, hanchor,
    buildSslContext_eq_ok.mpr ⟨hleaf, hkey, hpub, rfl, rfl⟩, hissued.chains hX, hnames⟩

instance : DecidableEq symbolic.PublicKey := inferInstanceAs (DecidableEq Nat)

/-- A rotation is cut off before it writes, the leaf is deleted, another rotation returns. -/
def rotations : List (Happening symbolic) :=
  [.crash (.rotate "localhost" [] (symbolicDraw 5)) 0, .delete [.serverPem, .serverKey],
    .call (.rotate "fleet.example" [] (symbolicDraw 7))]

/-- The text was registered before; the new leaf chains to it. -/
theorem rotations_chained :
    let d₁ := run happen (Directory.empty none) [.call (symbolicEnsure "localhost" 1)]
    let d := run happen (Directory.empty none) ([.call (symbolicEnsure "localhost" 1)] ++ rotations)
    ∃ pem ctx anchor, caCertificatePem d₁ = .ok pem ∧ caCertificatePem d = .ok pem ∧
      buildSslContext d "certs" false = .ok ctx ∧ ctx.privateKey = (7 : Nat) ∧
      symbolic.loadCert pem = some anchor ∧ Chains symbolic anchor ctx.certificate := by
  intro d₁ d
  obtain ⟨pem, hpem⟩ : ∃ pem, caCertificatePem d₁ = .ok pem := ⟨_, rfl⟩
  obtain ⟨ctx, hctx, hkey⟩ : ∃ ctx, buildSslContext d "certs" false = .ok ctx ∧
    ctx.privateKey = (7 : Nat) := ⟨_, rfl, rfl⟩
  obtain ⟨hstill, hall⟩ := trust_continuity symbolic symbolic_documented rfl none
    [.call (symbolicEnsure "localhost" 1)] rotations (by simp [LeafOrAll])
    (by simp [rotations, LeafOnly]) pem hpem "certs" false
  obtain ⟨-, -, anchor, hanchor, hchains, -⟩ := hall ctx hctx
  exact ⟨pem, ctx, anchor, hpem, hstill, hctx, hkey, hanchor, hchains⟩

/-- A first `ensure`, and the context of the server. -/
theorem ready_first :
    let d := call (Directory.empty none) (symbolicEnsure "localhost" 1)
    ∃ pem anchor ctx, caCertificatePem d = .ok pem ∧ symbolic.loadCert pem = some anchor ∧
      buildSslContext d "certs" true = .ok ctx ∧ Chains symbolic anchor ctx.certificate ∧
      Names ctx.certificate "localhost" :=
  ready_after_return symbolic symbolic_documented rfl none [] (List.forall_mem_nil _)
    (symbolicEnsure "localhost" 1) rfl "certs" true

end Certs

end FleetTelemetry
