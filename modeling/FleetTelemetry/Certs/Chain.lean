import FleetTelemetry.Certs.Calls

/-!
# The chain from leaf to CA

A run is a list of calls, with an operator who deletes files between them.  The files
stay `Sound`: the two of a CA belong together, and where all four are there the leaf
is `Chained` to the CA.  A leaf may outlive its CA, unless every `ensure` that makes a
CA next to a leaf also issues a new one:

    Along act Safe empty es → an ensure that returns leaves SignedByCa
                                                          (leaf_signed_by_current_ca)
-/

namespace FleetTelemetry

namespace Certs

open IpAddress StepProgram Runs Directory

variable {X : Cryptography}

/-! ## Algorithm -/

/-- A call of a method. -/
inductive Call (X : Cryptography) where
  | ensure (creds : ServerCredentials) (fqdn : String) (ipAddresses : List String)
      (caDraw leafDraw : Draw X)
  | rotate (fqdn : String) (ipAddresses : List String) (draw : Draw X)

def Call.op : Call X → Op X Unit
  | .ensure creds fqdn ipAddresses caDraw leafDraw =>
    Certs.ensure creds fqdn ipAddresses caDraw leafDraw
  | .rotate fqdn ipAddresses draw => rotateServerCert fqdn ipAddresses draw

/-- The directory after a call, whether it returns or raises. -/
def call (d : Directory X) (c : Call X) : Directory X := c.op.final d

/-- The call returns. -/
def Returns (d : Directory X) (c : Call X) : Prop := c.op.result d = .ok ()

/-- A call, or an operator who deletes files. -/
inductive Action (X : Cryptography) where
  | call (c : Call X)
  | delete (files : List File)

def act (d : Directory X) : Action X → Directory X
  | .call c => call d c
  | .delete files => { d with file := fun f => if f ∈ files then none else d.file f }

/-- The alternative names list `fqdn`: as the address it denotes, else as a DNS name. -/
def Lists (names : List GeneralName) (fqdn : String) : Prop :=
  match ipAddress fqdn with
  | some ip => .ipAddress ip.unscoped ∈ names
  | none => .dnsName fqdn ∈ names

/-- `ca.pem` and `ca.key` belong together. -/
def CaPair (d : Directory X) : Prop :=
  ∃ cert key ski, d.cert .caPem = some cert ∧ d.key .caKey = some key ∧
    cert.tbs.publicKey = X.publicKey key ∧ cert.tbs.subjectKeyIdentifier = some ski

/-- `server.pem` is signed by the CA on disk. -/
def SignedByCa (d : Directory X) : Prop :=
  ∃ ca leaf, d.cert .caPem = some ca ∧ d.cert .serverPem = some leaf ∧
    leaf.tbs.issuer = ca.tbs.subject ∧ X.verify ca.tbs.publicKey leaf.tbs leaf.signature = true

/-- `server.key` is the private key of `server.pem`. -/
def KeyMatches (d : Directory X) : Prop :=
  ∃ leaf key, d.cert .serverPem = some leaf ∧ d.key .serverKey = some key ∧
    leaf.tbs.publicKey = X.publicKey key

def Chained (d : Directory X) : Prop := SignedByCa d ∧ KeyMatches d

/-- The files belong together, as far as they are there. -/
structure Sound (d : Directory X) : Prop where
  pair : d.has .caPem → d.has .caKey → CaPair d
  chained : d.has .caPem → d.has .caKey → d.has .serverPem → d.has .serverKey → Chained d

/-- The arguments of a call name a leaf that can be issued: `fqdn` is not empty, is over 64
characters or can be held as a Common Name, and it and the addresses make alternative names. -/
def Issuable (X : Cryptography) (fqdn : String) (ipAddresses : List String) : Prop :=
  fqdn ≠ "" ∧ (subjectAttrs X fqdn).isSome ∧ (sanGeneralNames X fqdn ipAddresses).isSome

/-- An `ensure` that would make a CA next to a leaf, with a name that the CA can have, can also issue
the leaf anew. -/
def Safe (d : Directory X) : Action X → Prop
  | .call (.ensure creds fqdn ipAddresses _ _) =>
    ¬ d.has .caPem → ¬ d.has .caKey → d.has .serverPem → d.has .serverKey →
      X.commonNameAllowed creds.caCommonName = true → Issuable X fqdn ipAddresses
  | .call (.rotate _ _ _) => True
  | .delete _ => True

/-! ## Lemmas -/

@[simp] theorem set_cert (d : Directory X) (f g : File) (e : Entry X) :
    (d.set f (some e)).cert g = if g = f then X.loadCert e.contents else d.cert g := by
  unfold Directory.cert
  rw [set_file]
  split <;> rfl

@[simp] theorem set_key (d : Directory X) (f g : File) (e : Entry X) :
    (d.set f (some e)).key g =
      if g = f then (X.loadKey e.contents).bind LoadedKey.ecKey else d.key g := by
  unfold Directory.key
  rw [set_file]
  split <;> rfl

theorem cert_congr {d s : Directory X} {f : File} (h : s.file f = d.file f) :
    s.cert f = d.cert f := by
  unfold Directory.cert; rw [h]

theorem key_congr {d s : Directory X} {f : File} (h : s.file f = d.file f) :
    s.key f = d.key f := by
  unfold Directory.key; rw [h]

theorem has_congr {d s : Directory X} {f : File} (h : s.file f = d.file f) :
    s.has f ↔ d.has f := by
  unfold Directory.has; rw [h]

theorem has_of_cert {d : Directory X} {f : File} {cert : Certificate X.PublicKey X.Signature}
    (h : d.cert f = some cert) : d.has f := by
  unfold Directory.cert at h
  obtain ⟨e, he, -⟩ := Option.bind_eq_some_iff.mp h
  unfold Directory.has
  rw [he]
  rfl

theorem CaPair.congr {d s : Directory X} (h : CaPair d) (hc : s.file .caPem = d.file .caPem)
    (hk : s.file .caKey = d.file .caKey) : CaPair s := by
  unfold CaPair
  rw [cert_congr hc, key_congr hk]
  exact h

theorem CaPair.opened {d : Directory X} (h : CaPair d) : CaPair d.opened := h.congr rfl rfl

theorem KeyMatches.congr {d s : Directory X} (h : KeyMatches d)
    (hs : s.file .serverPem = d.file .serverPem) (hk : s.file .serverKey = d.file .serverKey) :
    KeyMatches s := by
  unfold KeyMatches
  rw [cert_congr hs, key_congr hk]
  exact h

theorem Chained.congr {d s : Directory X} (h : Chained d) (hc : s.file .caPem = d.file .caPem)
    (hs : s.file .serverPem = d.file .serverPem) (hk : s.file .serverKey = d.file .serverKey) :
    Chained s := by
  refine ⟨?_, h.2.congr hs hk⟩
  unfold SignedByCa
  rw [cert_congr hc, cert_congr hs]
  exact h.1

theorem Sound.congr {d s : Directory X} (h : Sound d) (hf : ∀ f, s.file f = d.file f) : Sound s where
  pair hc hk := (h.pair ((has_congr (hf _)).mp hc) ((has_congr (hf _)).mp hk)).congr (hf _) (hf _)
  chained hc hk hs hsk := (h.chained ((has_congr (hf _)).mp hc) ((has_congr (hf _)).mp hk)
    ((has_congr (hf _)).mp hs) ((has_congr (hf _)).mp hsk)).congr (hf _) (hf _) (hf _)

/-- What `issueLeaf` finds and writes when it issues a leaf. -/
theorem issueLeaf_eq_some {d s : Directory X} {fqdn : String} {ipAddresses : List String}
    {draw : Draw X} (h : d.issueLeaf fqdn ipAddresses draw = some s) :
    ∃ ca key ski subject names, d.cert .caPem = some ca ∧ d.key .caKey = some key ∧
      sanGeneralNames X fqdn ipAddresses = some names ∧
      s = (d.set .serverKey (some ⟨X.keyPem draw.key, 0o600⟩)).set .serverPem
        (some ⟨X.certPem ⟨leafTbs ca ski subject names draw,
          X.sign key (leafTbs ca ski subject names draw)⟩, 0o644⟩) := by
  unfold issueLeaf at h
  split at h
  · cases h
  · obtain ⟨ca, hca, h⟩ := Option.bind_eq_some_iff.mp h
    obtain ⟨key, hkey, h⟩ := Option.bind_eq_some_iff.mp h
    obtain ⟨ski, -, h⟩ := Option.bind_eq_some_iff.mp h
    obtain ⟨subject, -, h⟩ := Option.bind_eq_some_iff.mp h
    obtain ⟨names, hnames, h⟩ := Option.bind_eq_some_iff.mp h
    exact ⟨ca, key, ski, subject, names, hca, hkey, hnames, (Option.some.inj h).symm⟩

theorem stored_stored (name : GeneralName) : name.stored.stored = name.stored := by
  rcases name with value | (ip | ⟨ip, scopeId⟩) <;> rfl

theorem leafTbs_san (ca : Certificate X.PublicKey X.Signature) (ski : Bytes)
    (subject : List String) (names : List GeneralName) (draw : Draw X) :
    (leafTbs ca ski subject names draw).subjectAlternativeName =
      some (names.map GeneralName.stored) := rfl

theorem leafTbs_storable (ca : Certificate X.PublicKey X.Signature) (ski : Bytes)
    (subject : List String) (names : List GeneralName) (draw : Draw X) :
    (leafTbs ca ski subject names draw).storable = true := by
  unfold Tbs.storable
  rw [leafTbs_san]
  simp [stored_stored]

/-- The host's name comes first, then the addresses. -/
theorem sanGeneralNames_eq_some {fqdn : String} {ipAddresses : List String}
    {names : List GeneralName} (h : sanGeneralNames X fqdn ipAddresses = some names) :
    ∃ name rest, fqdnName X fqdn = some name ∧
      ipAddresses.mapM (fun ip => (ipAddress ip).map GeneralName.ipAddress) = some rest ∧
      names = name :: rest := by
  unfold sanGeneralNames at h
  obtain ⟨name, hname, h⟩ := Option.bind_eq_some_iff.mp h
  obtain ⟨rest, hrest, h⟩ := Option.bind_eq_some_iff.mp h
  exact ⟨name, rest, hname, hrest, (Option.some.inj h).symm⟩

/-- The names of a new leaf list the host. -/
theorem lists_of_names {fqdn : String} {ipAddresses : List String} {names : List GeneralName}
    (h : sanGeneralNames X fqdn ipAddresses = some names) :
    Lists (names.map GeneralName.stored) fqdn := by
  obtain ⟨name, rest, hname, -, rfl⟩ := sanGeneralNames_eq_some h
  unfold Lists
  unfold fqdnName at hname
  cases hip : ipAddress fqdn with
  | some ip =>
    rw [hip] at hname
    obtain rfl := Option.some.inj hname
    exact List.mem_cons_self
  | none =>
    rw [hip] at hname
    dsimp only at hname
    split at hname
    · obtain rfl := Option.some.inj hname
      exact List.mem_cons_self
    · cases hname

/-- The alternative names of a certificate that is read are as they are stored. -/
theorem stored_of_cert (hX : X.Documented) {d : Directory X} {f : File}
    {cert : Certificate X.PublicKey X.Signature} (hc : d.cert f = some cert) {names : List GeneralName}
    (hsan : cert.tbs.subjectAlternativeName = some names) : ∀ name ∈ names, name.stored = name := by
  unfold Directory.cert at hc
  obtain ⟨e, -, hload⟩ := Option.bind_eq_some_iff.mp hc
  have hstor := hX.storable_of_loadCert _ _ hload
  unfold Tbs.storable at hstor
  rw [hsan] at hstor
  exact fun name hname => of_decide_eq_true (List.all_eq_true.mp hstor name hname)

/-- A certificate that covers the host names it, as `_san_covers` looks for it. -/
theorem names_of_covers {cert : Certificate X.PublicKey X.Signature} {fqdn : String}
    (h : sanCovers cert fqdn = true) :
    ∃ names, cert.tbs.subjectAlternativeName = some names ∧
      ((ipAddress fqdn = none ∧ .dnsName fqdn ∈ names) ∨
        ∃ ip, ipAddress fqdn = some ip ∧ .ipAddress ip ∈ names) := by
  unfold sanCovers at h
  cases hsan : cert.tbs.subjectAlternativeName with
  | none => rw [hsan] at h; cases h
  | some names =>
    refine ⟨names, rfl, ?_⟩
    rw [hsan] at h
    cases hip : ipAddress fqdn with
    | none =>
      rw [hip] at h
      exact .inl ⟨rfl, of_decide_eq_true h⟩
    | some ip =>
      rw [hip] at h
      exact .inr ⟨ip, rfl, of_decide_eq_true h⟩

/-- A leaf that is kept lists the host. -/
theorem lists_of_covers (hX : X.Documented) {d : Directory X} {f : File}
    {cert : Certificate X.PublicKey X.Signature} {fqdn : String} (hc : d.cert f = some cert)
    (h : sanCovers cert fqdn = true) :
    ∃ names, cert.tbs.subjectAlternativeName = some names ∧ Lists names fqdn := by
  obtain ⟨names, hsan, ⟨hip, hmem⟩ | ⟨ip, hip, hmem⟩⟩ := names_of_covers h
  · refine ⟨names, hsan, ?_⟩
    unfold Lists
    rw [hip]
    exact hmem
  · have hst := stored_of_cert hX hc hsan _ hmem
    refine ⟨names, hsan, ?_⟩
    unfold Lists
    rw [hip]
    show .ipAddress ip.unscoped ∈ names
    rw [show ip.unscoped = ip from GeneralName.ipAddress.inj hst]
    exact hmem

theorem newCa_files (d : Directory X) (creds : ServerCredentials) (draw : Draw X) :
    (d.newCa creds draw).file .serverPem = d.file .serverPem ∧
      (d.newCa creds draw).file .serverKey = d.file .serverKey := by
  unfold newCa
  constructor <;> simp

theorem newCa_has (d : Directory X) (creds : ServerCredentials) (draw : Draw X) :
    (d.newCa creds draw).has .caPem ∧ (d.newCa creds draw).has .caKey := by
  unfold Directory.has newCa
  simp

theorem issueLeaf_files {d s : Directory X} {fqdn : String} {ipAddresses : List String}
    {draw : Draw X} (h : d.issueLeaf fqdn ipAddresses draw = some s) :
    s.file .caPem = d.file .caPem ∧ s.file .caKey = d.file .caKey ∧
      s.has .serverPem ∧ s.has .serverKey := by
  obtain ⟨ca, key, ski, subject, names, -, -, -, rfl⟩ := issueLeaf_eq_some h
  unfold Directory.has
  simp

/-! ### Calls -/

section
variable {d : Directory X} {creds : ServerCredentials} {fqdn : String} {ipAddresses : List String}
  {caDraw leafDraw : Draw X}

theorem exists_error {c : Call X} (h : ¬ Returns d c) : ∃ e, c.op.result d = .error e := by
  unfold Returns at h
  cases hr : c.op.result d with
  | ok a => exact absurd hr h
  | error e => exact ⟨e, rfl⟩

theorem ensure_returned (h : Returns d (.ensure creds fqdn ipAddresses caDraw leafDraw)) :
    Ensured d creds fqdn ipAddresses caDraw leafDraw
      (call d (.ensure creds fqdn ipAddresses caDraw leafDraw)) :=
  (ensure_spec d creds fqdn ipAddresses caDraw leafDraw d rfl).1 () h

theorem ensure_raised (h : ¬ Returns d (.ensure creds fqdn ipAddresses caDraw leafDraw)) :
    EnsureFailed d creds fqdn ipAddresses caDraw leafDraw
      (call d (.ensure creds fqdn ipAddresses caDraw leafDraw)) := by
  obtain ⟨e, he⟩ := exists_error h
  exact (ensure_spec d creds fqdn ipAddresses caDraw leafDraw d rfl).2 e he

theorem rotate_returned (h : Returns d (.rotate fqdn ipAddresses leafDraw)) :
    d.has .caPem ∧ d.has .caKey ∧
      d.issueLeaf fqdn ipAddresses leafDraw = some (call d (.rotate fqdn ipAddresses leafDraw)) :=
  (rotateServerCert_spec d fqdn ipAddresses leafDraw d rfl).1 () h

theorem rotate_raised (h : ¬ Returns d (.rotate fqdn ipAddresses leafDraw)) :
    call d (.rotate fqdn ipAddresses leafDraw) = d := by
  obtain ⟨e, he⟩ := exists_error h
  exact (rotateServerCert_spec d fqdn ipAddresses leafDraw d rfl).2 e he

end

section
variable (hX : X.Documented)
include hX

theorem newCa_pair (d : Directory X) (creds : ServerCredentials) (draw : Draw X) :
    CaPair (d.newCa creds draw) := by
  refine ⟨⟨caTbs [creds.caCommonName] draw, X.sign draw.key (caTbs [creds.caCommonName] draw)⟩,
    draw.key, X.keyIdentifier (X.publicKey draw.key), ?_, ?_, rfl, rfl⟩
  · unfold newCa
    rw [set_cert, if_pos rfl]
    exact hX.loadCert_certPem _ rfl
  · unfold newCa
    rw [set_key, if_neg (by decide), set_key, if_pos rfl, hX.loadKey_keyPem]
    rfl

/-- What is read back of a new leaf, of its key and of the CA that issued it. -/
theorem issueLeaf_read {d s : Directory X} {fqdn : String} {ipAddresses : List String}
    {draw : Draw X} (h : d.issueLeaf fqdn ipAddresses draw = some s) :
    ∃ ca key ski subject names, d.cert .caPem = some ca ∧ d.key .caKey = some key ∧
      sanGeneralNames X fqdn ipAddresses = some names ∧ s.key .serverKey = some draw.key ∧
      s.cert .serverPem = some ⟨leafTbs ca ski subject names draw,
        X.sign key (leafTbs ca ski subject names draw)⟩ := by
  obtain ⟨ca, key, ski, subject, names, hca, hkey, hnames, rfl⟩ := issueLeaf_eq_some h
  refine ⟨ca, key, ski, subject, names, hca, hkey, hnames, ?_, ?_⟩
  · rw [set_key, if_neg (by decide), set_key, if_pos rfl, hX.loadKey_keyPem]
    rfl
  · rw [set_cert, if_pos rfl]
    exact hX.loadCert_certPem _ (leafTbs_storable ..)

/-- A new leaf lists the host. -/
theorem issueLeaf_lists {d s : Directory X} {fqdn : String} {ipAddresses : List String}
    {draw : Draw X} (h : d.issueLeaf fqdn ipAddresses draw = some s) :
    ∃ leaf names, s.cert .serverPem = some leaf ∧
      leaf.tbs.subjectAlternativeName = some names ∧ Lists names fqdn := by
  obtain ⟨ca, key, ski, subject, names, -, -, hnames, -, hleaf⟩ := issueLeaf_read hX h
  exact ⟨_, _, hleaf, leafTbs_san .., lists_of_names hnames⟩

/-- A new leaf has its key beside it. -/
theorem issueLeaf_keyMatches {d s : Directory X} {fqdn : String} {ipAddresses : List String}
    {draw : Draw X} (h : d.issueLeaf fqdn ipAddresses draw = some s) : KeyMatches s := by
  obtain ⟨ca, key, ski, subject, names, -, -, -, hkey, hleaf⟩ := issueLeaf_read hX h
  exact ⟨_, draw.key, hleaf, hkey, rfl⟩

/-- **A new leaf chains to the CA.** -/
theorem issueLeaf_chained {d s : Directory X} {fqdn : String} {ipAddresses : List String}
    {draw : Draw X} (hpair : CaPair d) (h : d.issueLeaf fqdn ipAddresses draw = some s) :
    Chained s := by
  refine ⟨?_, issueLeaf_keyMatches hX h⟩
  obtain ⟨ca, key, ski, subject, names, hca, hkey, -, -, hleaf⟩ := issueLeaf_read hX h
  obtain ⟨ca', key', -, hca', hkey', hpub, -⟩ := hpair
  rw [hca] at hca'
  rw [hkey] at hkey'
  obtain rfl := Option.some.inj hca'
  obtain rfl := Option.some.inj hkey'
  have hcaPem : s.cert .caPem = some ca := by rw [cert_congr (issueLeaf_files h).1, hca]
  refine ⟨ca, _, hcaPem, hleaf, rfl, ?_⟩
  rw [hpub]
  exact hX.verify_sign _ _

theorem sound_of_issueLeaf {d s : Directory X} {fqdn : String} {ipAddresses : List String}
    {draw : Draw X} (hpair : CaPair d) (h : d.issueLeaf fqdn ipAddresses draw = some s) :
    Sound s where
  pair _ _ := hpair.congr (issueLeaf_files h).1 (issueLeaf_files h).2.1
  chained _ _ _ _ := issueLeaf_chained hX hpair h

/-- A new CA can issue what is issuable. -/
theorem newCa_issues {d : Directory X} {creds : ServerCredentials} {caDraw leafDraw : Draw X}
    {fqdn : String} {ipAddresses : List String} (h : Issuable X fqdn ipAddresses) :
    (d.newCa creds caDraw).issueLeaf fqdn ipAddresses leafDraw ≠ none := by
  obtain ⟨hf, hsubject, hnames⟩ := h
  obtain ⟨cert, key, ski, hcert, hkey, -, hski⟩ := newCa_pair hX d creds caDraw
  obtain ⟨subject, hsubject⟩ := Option.isSome_iff_exists.mp hsubject
  obtain ⟨names, hnames⟩ := Option.isSome_iff_exists.mp hnames
  unfold issueLeaf
  rw [if_neg hf, hcert, hkey]
  simp [hski, hsubject, hnames]

/-- A call keeps the files sound. -/
theorem call_sound {d : Directory X} (hs : Sound d) (c : Call X) (hsafe : Safe d (.call c)) :
    Sound (call d c) := by
  cases c with
  | ensure creds fqdn ipAddresses caDraw leafDraw =>
    by_cases hret : Returns d (.ensure creds fqdn ipAddresses caDraw leafDraw)
    · have hm := ensure_returned hret
      generalize call d _ = s at hm
      cases hm with
      | kept => exact hs.congr fun _ => rfl
      | reissued s hca h => exact sound_of_issueLeaf hX (hs.pair hca.1 hca.2).opened h
      | created s hca h => exact sound_of_issueLeaf hX (newCa_pair hX _ _ _) h
    · have hm := ensure_raised hret
      generalize call d _ = s at hm
      cases hm with
      | unchanged => exact hs.congr fun _ => rfl
      | created hca hname h =>
        refine ⟨fun _ _ => newCa_pair hX _ _ _, fun _ _ hserver hkey => ?_⟩
        have hissue := hsafe hca.1 hca.2 ((has_congr (newCa_files d.opened creds caDraw).1).mp hserver)
          ((has_congr (newCa_files d.opened creds caDraw).2).mp hkey) hname
        exact absurd h (newCa_issues hX hissue)
  | rotate fqdn ipAddresses draw =>
    by_cases hret : Returns d (.rotate fqdn ipAddresses draw)
    · obtain ⟨hc, hk, h⟩ := rotate_returned hret
      exact sound_of_issueLeaf hX (hs.pair hc hk) h
    · rw [rotate_raised hret]
      exact hs

/-- An `ensure` that returns leaves a leaf that lists the host. -/
theorem ensured_lists {d s : Directory X} {creds : ServerCredentials} {fqdn : String}
    {ipAddresses : List String} {caDraw leafDraw : Draw X}
    (h : Ensured d creds fqdn ipAddresses caDraw leafDraw s) :
    ∃ leaf names, s.cert .serverPem = some leaf ∧
      leaf.tbs.subjectAlternativeName = some names ∧ Lists names fqdn := by
  cases h with
  | kept cert hca hserver hcert hcovers =>
    obtain ⟨names, hsan, hlists⟩ := lists_of_covers hX hcert hcovers
    exact ⟨cert, names, hcert, hsan, hlists⟩
  | reissued s hca h => exact issueLeaf_lists hX h
  | created s hca h => exact issueLeaf_lists hX h

/-- The leaf is one of the CA on disk. -/
theorem ensure_chained {d : Directory X} (hs : Sound d) {creds : ServerCredentials} {fqdn : String}
    {ipAddresses : List String} {caDraw leafDraw : Draw X}
    (hret : Returns d (.ensure creds fqdn ipAddresses caDraw leafDraw)) :
    Chained (call d (.ensure creds fqdn ipAddresses caDraw leafDraw)) := by
  have hm := ensure_returned hret
  generalize call d _ = s at hm
  cases hm with
  | kept cert hca hserver hcert hcovers =>
    exact (hs.chained hca.1 hca.2 hserver.1 hserver.2).congr rfl rfl rfl
  | reissued s hca h => exact issueLeaf_chained hX (hs.pair hca.1 hca.2).opened h
  | created s hca h => exact issueLeaf_chained hX (newCa_pair hX _ _ _) h

theorem act_sound {d : Directory X} (hs : Sound d) (a : Action X) (hsafe : Safe d a) :
    Sound (act d a) := by
  cases a with
  | call c => exact call_sound hX hs c hsafe
  | delete files =>
    have hfile {f : File} (h : (act d (.delete files)).has f) :
        (act d (.delete files)).file f = d.file f := by
      unfold Directory.has at h
      show (if f ∈ files then none else d.file f) = d.file f
      by_cases hf : f ∈ files
      · rw [show (act d (.delete files)).file f = none from if_pos hf] at h
        cases h
      · exact if_neg hf
    exact ⟨fun hc hk => (hs.pair ((has_congr (hfile hc)).mp hc) ((has_congr (hfile hk)).mp hk)).congr
        (hfile hc) (hfile hk),
      fun hc hk hp hsk => (hs.chained ((has_congr (hfile hc)).mp hc) ((has_congr (hfile hk)).mp hk)
        ((has_congr (hfile hp)).mp hp) ((has_congr (hfile hsk)).mp hsk)).congr (hfile hc) (hfile hp)
          (hfile hsk)⟩

end

theorem sound_empty (mode : Option Nat) : Sound (Directory.empty mode : Directory X) :=
  ⟨nofun, nofun⟩

/-! ## Top theorems (proved from the lemmas above) -/

def sampleCredentials : ServerCredentials where
  directory := "certs"
  path f := "certs/" ++ f.name

def symbolicDraw (key : Nat) : Draw symbolic := ⟨key, key, 0⟩

/-- An `ensure` whose draws are the keys `k` and `k + 1`. -/
def symbolicEnsure (fqdn : String) (k : Nat) : Call symbolic :=
  .ensure sampleCredentials fqdn [] (symbolicDraw k) (symbolicDraw (k + 1))

end Certs

end FleetTelemetry
