import FleetTelemetry.Certs.Credentials

/-!
# What one call can do

A leaf is issued, or nothing is written (`issueLeaf`); `ensure` keeps the leaf, issues
one, or makes a CA first.  The constructors of `Ensured` and `EnsureFailed` list the
ways, and every invariant is proved by cases on them.

    Triple (· = d) (createLeaf …) (fun _ s => issueLeaf d … = some s) (fun _ s => s = d ∧ …)
-/

namespace FleetTelemetry

namespace Certs

open IpAddress StepProgram

variable {X : Cryptography}

namespace Directory

/-- The file exists. -/
def has (d : Directory X) (f : File) : Prop := (d.file f).isSome = true

/-- The directory after `_mkdir_private`. -/
def opened (d : Directory X) : Directory X := { d with mode := some 0o700 }

/-- The directory with a new CA. -/
def newCa (d : Directory X) (creds : ServerCredentials) (draw : Draw X) : Directory X :=
  let tbs := caTbs [creds.caCommonName] draw
  (d.set .caKey (some ⟨X.keyPem draw.key, 0o600⟩)).set .caPem
    (some ⟨X.certPem ⟨tbs, X.sign draw.key tbs⟩, 0o644⟩)

/-- The directory with a new leaf of its CA; `none` where none can be issued. -/
def issueLeaf (d : Directory X) (fqdn : String) (ipAddresses : List String) (draw : Draw X) :
    Option (Directory X) :=
  if fqdn = "" then none
  else do
    let caCert ← d.cert .caPem
    let caKey ← d.key .caKey
    let caSki ← caCert.tbs.subjectKeyIdentifier
    let subject ← subjectAttrs X fqdn
    let names ← sanGeneralNames X fqdn ipAddresses
    let tbs := leafTbs caCert caSki subject names draw
    some ((d.set .serverKey (some ⟨X.keyPem draw.key, 0o600⟩)).set .serverPem
      (some ⟨X.certPem ⟨tbs, X.sign caKey tbs⟩, 0o644⟩))

@[simp] theorem set_file (d : Directory X) (f g : File) (e : Option (Entry X)) :
    (d.set f e).file g = if g = f then e else d.file g := by
  unfold set
  exact Function.update_apply ..

theorem set_set (d : Directory X) (f : File) (e e' : Option (Entry X)) :
    (d.set f e).set f e' = d.set f e' := by
  unfold set
  rw [Function.update_idem]

end Directory

open Directory Program

/-! ### Files -/

section
variable (d : Directory X) (f : File)

/-- Truncating, writing and setting the mode leaves the contents with the mode. -/
theorem writeFile_final (contents : X.Contents) (m mode : Nat) :
    ((d.apply (.openTruncate f m)).apply (.write f contents)).apply (.chmod f mode) =
      d.set f (some ⟨contents, mode⟩) := by
  simp only [apply, set_set, set_file, if_true, Option.map_some]

theorem writeFile_spec (contents : X.Contents) (m mode : Nat)
    {E : CertError → Directory X → Prop} :
    Triple (· = d)
      (do perform (.openTruncate f m); perform (.write f contents); perform (.chmod f mode))
      (fun _ s => s = d.set f (some ⟨contents, mode⟩)) E := by
  refine .bind (Q := fun _ s => s = d.apply (.openTruncate f m)) (.perform ?_) fun _ =>
    .bind (Q := fun _ s => s = (d.apply (.openTruncate f m)).apply (.write f contents))
      (.perform ?_) fun _ => .perform ?_
  · rintro s rfl; rfl
  · rintro s rfl; rfl
  · rintro s rfl; exact writeFile_final d f _ _ _

theorem writeKey_spec (key : X.PrivateKey) {E : CertError → Directory X → Prop} :
    Triple (· = d) (writeKey f key) (fun _ s => s = d.set f (some ⟨X.keyPem key, 0o600⟩)) E :=
  writeFile_spec d f _ _ _

theorem writeCert_spec (cert : Certificate X.PublicKey X.Signature)
    {E : CertError → Directory X → Prop} :
    Triple (· = d) (writeCert f cert) (fun _ s => s = d.set f (some ⟨X.certPem cert, 0o644⟩)) E :=
  writeFile_spec d f _ _ _

theorem readBytes_spec :
    Triple (· = d) (readBytes f)
      (fun contents s => s = d ∧ ∃ e, d.file f = some e ∧ e.contents = contents)
      (fun _ s => s = d ∧ d.file f = none) := by
  refine .bind (Q := fun entry s => s = d ∧ d.file f = entry) (.read ?_) fun entry =>
    .orRaise ?_ ?_
  · rintro s rfl; exact ⟨rfl, rfl⟩
  · rintro contents hc s ⟨hs, hd⟩
    obtain ⟨e, rfl, he⟩ := Option.map_eq_some_iff.mp hc
    exact ⟨hs, e, hd, he⟩
  · rintro hc s ⟨hs, hd⟩
    rw [Option.map_eq_none_iff.mp hc] at hd
    exact ⟨hs, hd⟩

theorem loadCert_spec :
    Triple (· = d) (loadCert f) (fun cert s => s = d ∧ d.cert f = some cert)
      (fun _ s => s = d ∧ d.cert f = none) := by
  have hfile {e : Entry X} (hd : d.file f = some e) : d.cert f = X.loadCert e.contents := by
    unfold Directory.cert; rw [hd]; rfl
  refine .bind ((readBytes_spec d f).consequence (fun _ h => h) (fun _ _ h => h) ?_) fun contents =>
    .orRaise ?_ ?_
  · rintro _ s ⟨hs, hd⟩
    exact ⟨hs, by unfold Directory.cert; rw [hd]; rfl⟩
  · rintro cert hc s ⟨hs, e, hd, rfl⟩
    exact ⟨hs, by rw [hfile hd, hc]⟩
  · rintro hc s ⟨hs, e, hd, rfl⟩
    exact ⟨hs, by rw [hfile hd, hc]⟩

theorem loadEcKey_spec :
    Triple (· = d) (loadEcKey f) (fun key s => s = d ∧ d.key f = some key)
      (fun _ s => s = d ∧ d.key f = none) := by
  have hfile {e : Entry X} {r : Option (LoadedKey X.PrivateKey)} (hd : d.file f = some e)
      (hr : X.loadKey e.contents = r) : d.key f = r.bind LoadedKey.ecKey := by
    unfold Directory.key; rw [hd, Option.bind_some, hr]
  refine .bind ((readBytes_spec d f).consequence (fun _ h => h) (fun _ _ h => h) ?_) fun contents =>
    .bind (Q := fun loaded s => s = d ∧ ∃ e, d.file f = some e ∧ X.loadKey e.contents = some loaded)
      (.orRaise ?_ ?_) fun loaded => ?_
  · rintro _ s ⟨hs, hd⟩
    exact ⟨hs, by unfold Directory.key; rw [hd]; rfl⟩
  · rintro loaded hc s ⟨hs, e, hd, rfl⟩
    exact ⟨hs, e, hd, hc⟩
  · rintro hc s ⟨hs, e, hd, rfl⟩
    exact ⟨hs, hfile hd hc⟩
  · cases loaded with
    | ec key =>
      refine .pure ?_
      rintro s ⟨hs, e, hd, hr⟩
      exact ⟨hs, hfile hd hr⟩
    | other =>
      refine .raise ?_
      rintro s ⟨hs, e, hd, hr⟩
      exact ⟨hs, hfile hd hr⟩

theorem pathExists_spec {E : CertError → Directory X → Prop} :
    Triple (· = d) (pathExists f) (fun b s => s = d ∧ (b = true ↔ d.has f)) E := by
  refine .read ?_
  rintro s rfl
  exact ⟨rfl, Iff.rfl⟩

end

/-! ### Methods -/

/-- **A leaf is issued, or nothing is written.** -/
theorem createLeaf_spec (d : Directory X) (fqdn : String) (ipAddresses : List String)
    (draw : Draw X) :
    Triple (· = d) (createLeaf fqdn ipAddresses draw)
      (fun _ s => d.issueLeaf fqdn ipAddresses draw = some s)
      (fun _ s => s = d ∧ d.issueLeaf fqdn ipAddresses draw = none) := by
  unfold createLeaf issueLeaf
  by_cases hf : fqdn = ""
  · rw [if_pos hf, if_pos hf]
    exact .raise fun s hs => ⟨hs, rfl⟩
  · rw [if_neg hf, if_neg hf]
    refine .bind ((loadCert_spec d .caPem).consequence (fun _ h => h) (fun _ _ h => h) ?_)
      fun caCert => .assume fun hcert => ?_
    · rintro _ s ⟨hs, hc⟩
      exact ⟨hs, by rw [hc]; rfl⟩
    refine .bind ((loadEcKey_spec d .caKey).consequence (fun _ h => h) (fun _ _ h => h) ?_)
      fun caKey => .assume fun hkey => ?_
    · rintro _ s ⟨hs, hc⟩
      exact ⟨hs, by rw [hcert, hc]; rfl⟩
    rw [hcert, hkey]
    refine .bind (Q := fun ski s => s = d ∧ caCert.tbs.subjectKeyIdentifier = some ski)
      (.orRaise (fun ski h s hs => ⟨hs, h⟩) fun h s hs => ⟨hs, by simp [h]⟩)
      fun ski => .assume fun hski => ?_
    refine .bind (Q := fun subject s => s = d ∧ subjectAttrs X fqdn = some subject)
      (.orRaise (fun ski h s hs => ⟨hs, h⟩) fun h s hs => ⟨hs, by simp [h]⟩)
      fun subject => .assume fun hsubject => ?_
    refine .bind (Q := fun names s => s = d ∧ sanGeneralNames X fqdn ipAddresses = some names)
      (.orRaise (fun ski h s hs => ⟨hs, h⟩) fun h s hs => ⟨hs, by simp [h]⟩)
      fun names => .assume fun hnames => ?_
    simp only [hski, hsubject, hnames, Option.bind_eq_bind, Option.bind_some]
    refine .bind (writeKey_spec d .serverKey draw.key) fun _ => ?_
    exact (writeCert_spec _ .serverPem _).consequence (fun _ h => h) (fun _ s h => h ▸ rfl)
      fun _ _ h => h

theorem createCa_spec (d : Directory X) (creds : ServerCredentials) (draw : Draw X) :
    Triple (· = d) (createCa creds draw)
      (fun _ s => s = d.newCa creds draw ∧ X.commonNameAllowed creds.caCommonName = true)
      (fun _ s => s = d) := by
  unfold createCa
  split
  · exact .raise fun s hs => hs
  · next hname =>
    refine .bind (writeKey_spec d .caKey draw.key) fun _ => ?_
    exact (writeCert_spec _ .caPem _).consequence (fun _ h => h)
      (fun _ s h => ⟨h ▸ rfl, by simpa using hname⟩) fun _ _ h => h

/-- The CA is there, or is made where both of its files are absent. -/
theorem ensureCa_spec (d : Directory X) (creds : ServerCredentials) (draw : Draw X) :
    Triple (· = d) (ensureCa creds draw)
      (fun created s => (s = d ∧ created = false ∧ d.has .caPem ∧ d.has .caKey) ∨
        (s = d.newCa creds draw ∧ created = true ∧ (¬ d.has .caPem ∧ ¬ d.has .caKey) ∧
          X.commonNameAllowed creds.caCommonName = true))
      (fun _ s => s = d ∧ ¬ (d.has .caPem ∧ d.has .caKey)) := by
  unfold ensureCa
  refine .bind (pathExists_spec d .caPem) fun certExists => .assume fun hcert => ?_
  refine .bind (pathExists_spec d .caKey) fun keyExists => .assume fun hkey => ?_
  split
  · next h =>
    rw [Bool.and_eq_true] at h
    exact .pure fun s hs => .inl ⟨hs, rfl, hcert.mp h.1, hkey.mp h.2⟩
  · next hpair =>
    have hpair' : ¬ (d.has .caPem ∧ d.has .caKey) := by
      rw [← hcert, ← hkey, ← Bool.and_eq_true]
      exact hpair
    split
    · exact .raise fun s hs => ⟨hs, hpair'⟩
    · next h =>
      rw [Bool.or_eq_true, not_or] at h
      have hno : ¬ d.has .caPem ∧ ¬ d.has .caKey :=
        ⟨fun hc => h.1 (hcert.mpr hc), fun hk => h.2 (hkey.mpr hk)⟩
      refine .bind ((createCa_spec d creds draw).consequence (fun _ h => h) (fun _ _ h => h)
        fun _ s hs => ⟨hs, hpair'⟩) fun _ => .pure fun s hs => .inr ⟨hs.1, rfl, hno, hs.2⟩

/-- How `ensure` returns: the leaf is kept, re-issued, or issued by a CA that was made first. -/
inductive Ensured (d : Directory X) (creds : ServerCredentials) (fqdn : String)
    (ipAddresses : List String) (caDraw leafDraw : Draw X) : Directory X → Prop where
  | kept (cert : Certificate X.PublicKey X.Signature) (hca : d.has .caPem ∧ d.has .caKey)
      (hserver : d.has .serverPem ∧ d.has .serverKey) (hcert : d.cert .serverPem = some cert)
      (hcovers : sanCovers cert fqdn = true) :
      Ensured d creds fqdn ipAddresses caDraw leafDraw d.opened
  | reissued (s : Directory X) (hca : d.has .caPem ∧ d.has .caKey)
      (h : d.opened.issueLeaf fqdn ipAddresses leafDraw = some s) :
      Ensured d creds fqdn ipAddresses caDraw leafDraw s
  | created (s : Directory X) (hca : ¬ d.has .caPem ∧ ¬ d.has .caKey)
      (h : (d.opened.newCa creds caDraw).issueLeaf fqdn ipAddresses leafDraw = some s) :
      Ensured d creds fqdn ipAddresses caDraw leafDraw s

/-- What is left when `ensure` raises: the files as they were, or with a CA that was made. -/
inductive EnsureFailed (d : Directory X) (creds : ServerCredentials) (fqdn : String)
    (ipAddresses : List String) (caDraw leafDraw : Draw X) : Directory X → Prop where
  | unchanged : EnsureFailed d creds fqdn ipAddresses caDraw leafDraw d.opened
  | created (hca : ¬ d.has .caPem ∧ ¬ d.has .caKey)
      (hname : X.commonNameAllowed creds.caCommonName = true)
      (h : (d.opened.newCa creds caDraw).issueLeaf fqdn ipAddresses leafDraw = none) :
      EnsureFailed d creds fqdn ipAddresses caDraw leafDraw (d.opened.newCa creds caDraw)

theorem mkdirPrivate_spec (d : Directory X) {E : CertError → Directory X → Prop} :
    Triple (· = d) mkdirPrivate (fun _ s => s = d.opened) E := by
  refine .bind (Q := fun _ s => s = d.apply .mkdir) (.perform ?_) fun _ => .perform ?_
  · rintro s rfl; rfl
  · rintro s rfl; rfl

theorem ensure_spec (d : Directory X) (creds : ServerCredentials) (fqdn : String)
    (ipAddresses : List String) (caDraw leafDraw : Draw X) :
    Triple (· = d) (ensure creds fqdn ipAddresses caDraw leafDraw)
      (fun _ => Ensured d creds fqdn ipAddresses caDraw leafDraw)
      (fun _ => EnsureFailed d creds fqdn ipAddresses caDraw leafDraw) := by
  unfold ensure
  refine .bind (mkdirPrivate_spec d) fun _ => ?_
  refine .bind ((ensureCa_spec d.opened creds caDraw).consequence (fun _ h => h) (fun _ _ h => h)
    fun _ s hs => hs.1 ▸ .unchanged) fun caCreated => .or (.assume ?_) (.assume ?_)
  · -- the CA was there
    rintro ⟨rfl, hca⟩
    have hleaf := (createLeaf_spec d.opened fqdn ipAddresses leafDraw).consequence (fun _ h => h)
      (fun _ s h => (Ensured.reissued s hca h : Ensured d creds fqdn ipAddresses caDraw leafDraw s))
      fun _ s h => (h.1 ▸ .unchanged : EnsureFailed d creds fqdn ipAddresses caDraw leafDraw s)
    refine .bind (pathExists_spec d.opened .serverPem) fun certExists => .assume fun hcert => ?_
    refine .bind (pathExists_spec d.opened .serverKey) fun keyExists => .assume fun hkey => ?_
    split
    · exact hleaf
    · next h =>
      rw [Bool.false_or, Bool.not_eq_true', Bool.not_eq_false, Bool.and_eq_true] at h
      refine .bind ((loadCert_spec d.opened .serverPem).consequence (fun _ h => h)
        (fun _ _ h => h) fun _ s hs => hs.1 ▸ .unchanged) fun cert => .assume fun hload => ?_
      split
      · next hcovers =>
        exact .pure fun s hs => hs ▸ .kept cert hca ⟨hcert.mp h.1, hkey.mp h.2⟩ hload hcovers
      · exact hleaf
  · -- a new CA
    rintro ⟨rfl, hca, hname⟩
    refine .bind (pathExists_spec _ .serverPem) fun certExists => .assume fun _ => ?_
    refine .bind (pathExists_spec _ .serverKey) fun keyExists => .assume fun _ => ?_
    rw [Bool.true_or, if_pos rfl]
    exact (createLeaf_spec _ fqdn ipAddresses leafDraw).consequence (fun _ h => h)
      (fun _ s h => .created s hca h) fun _ s h => h.1 ▸ .created hca hname h.2

theorem rotateServerCert_spec (d : Directory X) (fqdn : String) (ipAddresses : List String)
    (draw : Draw X) :
    Triple (· = d) (rotateServerCert fqdn ipAddresses draw)
      (fun _ s => d.has .caPem ∧ d.has .caKey ∧ d.issueLeaf fqdn ipAddresses draw = some s)
      (fun _ s => s = d) := by
  unfold rotateServerCert
  refine .bind (pathExists_spec d .caPem) fun certExists => .assume fun hcert => ?_
  refine .bind (pathExists_spec d .caKey) fun keyExists => .assume fun hkey => ?_
  split
  · exact .raise fun s hs => hs
  · next h =>
    rw [Bool.not_eq_true', Bool.not_eq_false, Bool.and_eq_true] at h
    exact (createLeaf_spec d fqdn ipAddresses draw).consequence (fun _ h => h)
      (fun _ s hs => ⟨hcert.mp h.1, hkey.mp h.2, hs⟩) fun _ s hs => hs.1

end Certs

end FleetTelemetry
