import FleetTelemetry.Certs.Cuts

/-!
# Where the files come from

In a history of calls and of calls that are cut off, in which an operator deletes files of
the leaf or all four, each file is empty or what a call has written, and belongs to the
others: a leaf is there only with the CA that issued it.  Where the two files of the CA are
deleted from beside a leaf this fails, and `ensure` keeps the leaf (`Safe`).

    Lineage d → Cut d c s → Lineage s                                 (lineage_cut)
-/

namespace FleetTelemetry

namespace Certs

open StepProgram Runs Directory

variable {X : Cryptography}

/-! ## Algorithm -/

/-- The file is there and empty. -/
def Blank (d : Directory X) (f : File) : Prop := d.contents f = some X.empty

/-- The two files of the CA that `_create_ca` made of the draw. -/
def CaOf (d : Directory X) (caCommonName : String) (draw : Draw X) : Prop :=
  d.contents .caPem = some (X.certPem (caCert X caCommonName draw)) ∧
    d.contents .caKey = some (X.keyPem draw.key)

/-- `leaf` is a leaf of that CA. -/
def IssuedBy (caCommonName : String) (draw : Draw X)
    (leaf : Certificate X.PublicKey X.Signature) : Prop :=
  ∃ fqdn ipAddresses subject names leafDraw,
    sanGeneralNames X fqdn ipAddresses = some names ∧
    leaf.tbs = leafTbs (caCert X caCommonName draw) (X.keyIdentifier (X.publicKey draw.key)) subject
      names leafDraw ∧
    leaf.signature = X.sign draw.key leaf.tbs

structure Lineage (d : Directory X) : Prop where
  keyFirst : d.has .caPem → d.has .caKey
  ca : d.has .caPem → Blank d .caPem ∨ ∃ caCommonName draw, CaOf d caCommonName draw
  issuer : d.has .serverPem ∨ d.has .serverKey → ∃ caCommonName draw, CaOf d caCommonName draw
  leaf : d.has .serverPem → Blank d .serverPem ∨ ∃ caCommonName draw leaf,
    CaOf d caCommonName draw ∧ d.contents .serverPem = some (X.certPem leaf) ∧
      IssuedBy caCommonName draw leaf

/-- No file of the CA is deleted. -/
def LeafOnly : Happening X → Prop
  | .delete files => .caPem ∉ files ∧ .caKey ∉ files
  | .call _ | .crash _ _ => True

/-- What an operator deletes is `server.pem`, `server.key` or both, or all four files: not files of
the CA from beside a leaf. -/
def LeafOrAll : Happening X → Prop
  | .delete files => (.caPem ∉ files ∧ .caKey ∉ files) ∨ ∀ f, f ∈ files
  | .call _ | .crash _ _ => True

/-! ## Lemmas -/

section
variable {d s : Directory X} {f : File} {caCommonName : String} {draw : Draw X}

theorem CaOf.congr (h : CaOf d caCommonName draw) (hc : s.file .caPem = d.file .caPem)
    (hk : s.file .caKey = d.file .caKey) : CaOf s caCommonName draw := by
  unfold CaOf
  rw [contents_congr hc, contents_congr hk]
  exact h

theorem Lineage.congr (h : Lineage d) (hf : ∀ f, s.file f = d.file f) : Lineage s where
  keyFirst hc := (has_congr (hf _)).mpr (h.keyFirst ((has_congr (hf _)).mp hc))
  ca hc := by
    unfold Blank
    rw [contents_congr (hf .caPem)]
    refine (h.ca ((has_congr (hf _)).mp hc)).imp_right ?_
    rintro ⟨cn, draw, hca⟩
    exact ⟨cn, draw, hca.congr (hf _) (hf _)⟩
  issuer hs := by
    rw [has_congr (hf _), has_congr (hf _)] at hs
    obtain ⟨cn, draw, hca⟩ := h.issuer hs
    exact ⟨cn, draw, hca.congr (hf _) (hf _)⟩
  leaf hs := by
    unfold Blank
    rw [contents_congr (hf .serverPem)]
    refine (h.leaf ((has_congr (hf _)).mp hs)).imp_right ?_
    rintro ⟨cn, draw, leaf, hca, hrest⟩
    exact ⟨cn, draw, leaf, hca.congr (hf _) (hf _), hrest⟩

theorem LeafOnly.leafOrAll {x : Happening X} (h : LeafOnly x) : LeafOrAll x := by
  cases x with
  | call c => trivial
  | crash c k => trivial
  | delete files => exact .inl h

theorem lineage_empty (mode : Option Nat) : Lineage (Directory.empty mode : Directory X) where
  keyFirst h := by cases h
  ca h := by cases h
  issuer h := by rcases h with h | h <;> cases h
  leaf h := by cases h

/-- Without a CA there is no leaf. -/
theorem Lineage.no_leaf (h : Lineage d) (hca : ¬ d.has .caPem) :
    ¬ d.has .serverPem ∧ ¬ d.has .serverKey := by
  refine ⟨fun hs => ?_, fun hs => ?_⟩
  · obtain ⟨cn, draw, hcert, -⟩ := h.issuer (.inl hs)
    exact hca (has_of_contents hcert)
  · obtain ⟨cn, draw, hcert, -⟩ := h.issuer (.inr hs)
    exact hca (has_of_contents hcert)

/-- A CA without a leaf. -/
theorem lineage_of_ca (hp : ¬ s.has .serverPem ∧ ¬ s.has .serverKey)
    (hk : s.has .caPem → s.has .caKey)
    (hca : s.has .caPem → Blank s .caPem ∨ CaOf s caCommonName draw) : Lineage s where
  keyFirst := hk
  ca hc := (hca hc).imp_right fun h => ⟨_, _, h⟩
  issuer hs := by
    rcases hs with hs | hs
    · exact absurd hs hp.1
    · exact absurd hs hp.2
  leaf hs := absurd hs hp.1

/-- A first CA while it is written. -/
theorem Lineage.writingCa (h : Lineage d) (hca : ¬ d.has .caPem ∧ ¬ d.has .caKey)
    (hw : WritingPair d .caKey .caPem draw.key (caCert X caCommonName draw) s) : Lineage s := by
  have hserver : ¬ s.has .serverPem ∧ ¬ s.has .serverKey := by
    rw [has_congr (hw.other (g := .serverPem) (by decide) (by decide)),
      has_congr (hw.other (g := .serverKey) (by decide) (by decide))]
    exact h.no_leaf hca.1
  rcases hw.contents (by decide) with ⟨hcert, -⟩ | ⟨hkey, hcert⟩
  · have hno : ¬ s.has .caPem := fun hc => hca.1 ((has_congr hcert).mp hc)
    exact @lineage_of_ca X s caCommonName draw hserver (fun hc => absurd hc hno)
      fun hc => absurd hc hno
  · exact lineage_of_ca hserver (fun _ => has_of_contents hkey) fun _ => hcert.imp_right fun hc =>
      ⟨hc, hkey⟩

section
variable (hX : X.Documented)
include hX

/-- What is read back of a CA. -/
theorem CaOf.read (h : CaOf d caCommonName draw) :
    d.cert .caPem = some (caCert X caCommonName draw) ∧ d.key .caKey = some draw.key := by
  rw [cert_contents, key_contents, h.1, h.2, Option.bind_some, Option.bind_some, hX.loadKey_keyPem]
  exact ⟨hX.loadCert_certPem _ rfl, rfl⟩

/-- What the CA makes it has issued. -/
theorem CaOf.issuedBy (h : CaOf d caCommonName draw) {fqdn : String} {ipAddresses : List String}
    {leafDraw : Draw X} {leaf : Certificate X.PublicKey X.Signature}
    (hleaf : Makes d fqdn ipAddresses leafDraw leaf) : IssuedBy caCommonName draw leaf := by
  obtain ⟨ca, key, ski, subject, names, hca, hkey, hski, hnames, rfl⟩ := hleaf
  obtain ⟨hcert, hdraw⟩ := h.read hX
  obtain rfl : caCert X caCommonName draw = ca := Option.some.inj (hcert.symm.trans hca)
  obtain rfl : draw.key = key := Option.some.inj (hdraw.symm.trans hkey)
  obtain rfl : X.keyIdentifier (X.publicKey draw.key) = ski := Option.some.inj hski
  exact ⟨fqdn, ipAddresses, subject, names, leafDraw, hnames, rfl, rfl⟩

variable (hempty : X.loadCert X.empty = none)
include hempty

omit hX in
/-- A CA that makes a leaf is complete. -/
theorem Lineage.caOf (h : Lineage d) {fqdn : String} {ipAddresses : List String} {leafDraw : Draw X}
    {leaf : Certificate X.PublicKey X.Signature} (hleaf : Makes d fqdn ipAddresses leafDraw leaf) :
    ∃ caCommonName draw, CaOf d caCommonName draw := by
  obtain ⟨ca, key, ski, subject, names, hca, -⟩ := hleaf
  refine (h.ca (has_of_cert hca)).resolve_left fun hblank => ?_
  rw [cert_contents, hblank, Option.bind_some, hempty] at hca
  cases hca

/-- A leaf while it is written. -/
theorem Lineage.writingLeaf (h : Lineage d) {fqdn : String} {ipAddresses : List String}
    {leafDraw : Draw X} {leaf : Certificate X.PublicKey X.Signature}
    (hleaf : Makes d fqdn ipAddresses leafDraw leaf)
    (hw : WritingPair d .serverKey .serverPem leafDraw.key leaf s) : Lineage s := by
  obtain ⟨cn, draw, hca⟩ := h.caOf hempty hleaf
  have hcaS : CaOf s cn draw :=
    hca.congr (hw.other (by decide) (by decide)) (hw.other (by decide) (by decide))
  refine ⟨fun _ => has_of_contents hcaS.2, fun _ => .inr ⟨cn, draw, hcaS⟩,
    fun _ => ⟨cn, draw, hcaS⟩, fun hs => ?_⟩
  rcases hw.contents (by decide) with ⟨hcert, -⟩ | ⟨-, hblank | hwritten⟩
  · -- the certificate is as it was
    have hold := h.leaf ((has_congr hcert).mp hs)
    unfold Blank at hold ⊢
    rw [contents_congr hcert]
    refine hold.imp_right ?_
    rintro ⟨cn', draw', leaf', hca', hrest⟩
    exact ⟨cn', draw', leaf', hca'.congr (hw.other (by decide) (by decide))
      (hw.other (by decide) (by decide)), hrest⟩
  · exact .inl hblank
  · exact .inr ⟨cn, draw, leaf, hcaS, hwritten, hca.issuedBy hX hleaf⟩

/-- **A call keeps the lineage at every cut.** -/
theorem lineage_cut (h : Lineage d) {c : Call X} (hc : Cut d c s) : Lineage s := by
  have hopened : Lineage d.opened := h.congr fun _ => rfl
  cases hc with
  | untouched c => exact h
  | mode creds fqdn ipAddresses caDraw leafDraw s hs =>
    rcases hs with rfl | rfl
    · exact h.congr fun _ => rfl
    · exact hopened
  | ca creds fqdn ipAddresses caDraw leafDraw s hca hw => exact hopened.writingCa hca hw
  | leaf creds fqdn ipAddresses caDraw leafDraw leaf s hca hleaf hw =>
    exact hopened.writingLeaf hX hempty hleaf hw
  | first creds fqdn ipAddresses caDraw leafDraw leaf s hca hleaf hw =>
    have hnew : Lineage (d.opened.newCa creds caDraw) := hopened.writingCa hca (.cert .closed)
    exact hnew.writingLeaf hX hempty hleaf hw
  | rotated fqdn ipAddresses draw leaf s hca hleaf hw => exact h.writingLeaf hX hempty hleaf hw

theorem lineage_happen (h : Lineage d) {x : Happening X} (hx : LeafOrAll x) :
    Lineage (happen d x) := by
  cases x with
  | call c => exact lineage_cut hX hempty h (call_cut d c)
  | crash c k => exact lineage_cut hX hempty h (interrupted_cut d c k)
  | delete files =>
    have hgone {f : File} (hf : f ∈ files) : ¬ (happen d (.delete files)).has f := by
      unfold Directory.has
      rw [show (happen d (.delete files)).file f = none from if_pos hf]
      exact Bool.false_ne_true
    have hkept {f : File} (hf : f ∉ files) : (happen d (.delete files)).file f = d.file f :=
      if_neg hf
    rcases hx with ⟨hc, hk⟩ | hall
    · -- files of the leaf
      have hca {cn : String} {draw : Draw X} (hca : CaOf d cn draw) :
          CaOf (happen d (.delete files)) cn draw := hca.congr (hkept hc) (hkept hk)
      have hstill {f : File} (hs : (happen d (.delete files)).has f) : f ∉ files :=
        fun hf => hgone hf hs
      refine ⟨fun h' => ?_, fun h' => ?_, fun h' => ?_, fun h' => ?_⟩
      · exact (has_congr (hkept hk)).mpr (h.keyFirst ((has_congr (hkept hc)).mp h'))
      · unfold Blank
        rw [contents_congr (hkept hc)]
        refine (h.ca ((has_congr (hkept hc)).mp h')).imp_right ?_
        rintro ⟨cn, draw, h⟩
        exact ⟨cn, draw, hca h⟩
      · obtain ⟨cn, draw, h⟩ := h.issuer (h'.imp
          (fun hs => (has_congr (hkept (hstill hs))).mp hs)
          fun hs => (has_congr (hkept (hstill hs))).mp hs)
        exact ⟨cn, draw, hca h⟩
      · have hs := hkept (hstill h')
        unfold Blank
        rw [contents_congr hs]
        refine (h.leaf ((has_congr hs).mp h')).imp_right ?_
        rintro ⟨cn, draw, leaf, h, hrest⟩
        exact ⟨cn, draw, leaf, hca h, hrest⟩
    · -- the whole directory
      exact ⟨fun h' => absurd h' (hgone (hall _)), fun h' => absurd h' (hgone (hall _)),
        fun h' => h'.elim (fun h' => absurd h' (hgone (hall _))) fun h' => absurd h' (hgone (hall _)),
        fun h' => absurd h' (hgone (hall _))⟩

theorem lineage_run (mode : Option Nat) {hs : List (Happening X)} (h : ∀ x ∈ hs, LeafOrAll x) :
    Lineage (run happen (Directory.empty mode) hs) :=
  Along.invariant happen (fun _ x => LeafOrAll x) (I := Lineage)
    (fun _ _ h hx => lineage_happen hX hempty h hx) (lineage_empty mode) ((along_of_forall _ _ _).mpr h)

end

end

end Certs

end FleetTelemetry
