import FleetTelemetry.Certs.Lineage

/-!
# What an interruption leaves for the calls after it

A CA whose certificate was not written is found in every later call, and none of them
makes a new one: no call returns until a file of the CA is deleted.  A leaf whose certificate
was not written stops `ensure`, which reads it, and not `rotate_server_cert`.

    Returns d (.ensure …) ↔ ¬ HalfCa d ∧ ¬ BlankLeaf d
    Returns d (.rotate …) ↔ d.has .caPem ∧ ¬ HalfCa d                     (returns_iff)
-/

namespace FleetTelemetry

namespace Certs

open StepProgram Runs Directory Program

variable {X : Cryptography}

/-! ## Algorithm -/

instance (d : Directory X) (f : File) : Decidable (d.has f) := by
  unfold Directory.has
  infer_instance

/-- One file of the CA without the other, or the certificate empty. -/
def HalfCa (d : Directory X) : Prop := ¬ (d.has .caPem ↔ d.has .caKey) ∨ Blank d .caPem

/-- A leaf with an empty certificate. -/
def BlankLeaf (d : Directory X) : Prop := d.has .serverKey ∧ Blank d .serverPem

/-- `ensure` from `need_leaf` on. -/
def ensureLeaf (fqdn : String) (ipAddresses : List String) (leafDraw : Draw X) (caCreated : Bool) :
    Op X Unit := do
  let certExists ← pathExists .serverPem
  let keyExists ← pathExists .serverKey
  if caCreated || !(certExists && keyExists) then createLeaf fqdn ipAddresses leafDraw
  else do
    let cert ← loadCert .serverPem
    if sanCovers cert fqdn then pure () else createLeaf fqdn ipAddresses leafDraw

theorem ensure_eq (creds : ServerCredentials) (fqdn : String) (ipAddresses : List String)
    (caDraw leafDraw : Draw X) :
    Certs.ensure creds fqdn ipAddresses caDraw leafDraw = (do
      mkdirPrivate
      let caCreated ← ensureCa creds caDraw
      ensureLeaf fqdn ipAddresses leafDraw caCreated) := rfl

/-! ## Lemmas -/

/-! ### What each method returns -/

section
variable {d : Directory X} {fqdn : String} {ipAddresses : List String} {leafDraw : Draw X}

theorem createLeaf_returns :
    (createLeaf fqdn ipAddresses leafDraw).result d = .ok () ↔
      d.issueLeaf fqdn ipAddresses leafDraw ≠ none := by
  have hspec := createLeaf_spec d fqdn ipAddresses leafDraw d rfl
  cases hr : (createLeaf fqdn ipAddresses leafDraw).result d with
  | ok a =>
    refine iff_of_true rfl ?_
    rw [hspec.1 a hr]
    exact Option.some_ne_none _
  | error e => exact iff_of_false (fun h => by cases h) fun h => h (hspec.2 e hr).2

theorem loadCert_returns {f : File} {cert : Certificate X.PublicKey X.Signature} :
    (loadCert f).result d = .ok cert ↔ d.cert f = some cert := by
  have hspec := loadCert_spec d f d rfl
  cases hr : (loadCert f).result d with
  | ok c =>
    rw [(hspec.1 c hr).2]
    exact ⟨fun h => by rw [Except.ok.inj h], fun h => by rw [Option.some.inj h]⟩
  | error e =>
    rw [(hspec.2 e hr).2]
    exact iff_of_false (fun h => by cases h) fun h => by cases h

theorem loadCert_final {f : File} {cert : Certificate X.PublicKey X.Signature}
    (h : (loadCert f).result d = .ok cert) : (loadCert f).final d = d :=
  ((loadCert_spec d f d rfl).1 cert h).1

/-- Where a leaf is needed it must be issued; else the certificate is read first. -/
theorem ensureLeaf_returns {caCreated : Bool} :
    (ensureLeaf fqdn ipAddresses leafDraw caCreated).result d = .ok () ↔
      if caCreated = true ∨ ¬ (d.has .serverPem ∧ d.has .serverKey) then
        d.issueLeaf fqdn ipAddresses leafDraw ≠ none
      else ∃ cert, d.cert .serverPem = some cert ∧
        (sanCovers cert fqdn = true ∨ d.issueLeaf fqdn ipAddresses leafDraw ≠ none) := by
  have hcond : (caCreated || !((d.file .serverPem).isSome && (d.file .serverKey).isSome)) = true ↔
      caCreated = true ∨ ¬ (d.has .serverPem ∧ d.has .serverKey) := by
    unfold Directory.has
    rw [Bool.or_eq_true, Bool.not_eq_true', ← Bool.not_eq_true, Bool.and_eq_true]
  show Program.result (if (caCreated || !((d.file .serverPem).isSome &&
    (d.file .serverKey).isSome)) = true then createLeaf fqdn ipAddresses leafDraw else _) d = _ ↔ _
  by_cases h : caCreated = true ∨ ¬ (d.has .serverPem ∧ d.has .serverKey)
  · rw [if_pos h, if_pos (hcond.mpr h)]
    exact createLeaf_returns
  · rw [if_neg h, if_neg (fun hc => h (hcond.mp hc)), result_bind_eq_ok]
    refine exists_congr fun cert => ?_
    rw [loadCert_returns]
    refine and_congr_right fun hcert => ?_
    rw [loadCert_final (loadCert_returns.mpr hcert)]
    by_cases hc : sanCovers cert fqdn = true
    · rw [if_pos hc]
      exact iff_of_true rfl (.inl hc)
    · rw [if_neg hc, createLeaf_returns]
      exact (or_iff_right hc).symm

theorem ensureCa_returns {creds : ServerCredentials} {draw : Draw X} {created : Bool} :
    (ensureCa creds draw).result d = .ok created ↔
      (created = false ∧ d.has .caPem ∧ d.has .caKey) ∨
      (created = true ∧ (¬ d.has .caPem ∧ ¬ d.has .caKey) ∧
        X.commonNameAllowed creds.caCommonName = true) := by
  constructor
  · intro h
    refine ((ensureCa_spec d creds draw d rfl).1 created h).imp (fun h => h.2) fun h => h.2
  · have hresult : (ensureCa creds draw).result d =
        Program.result (if ((d.file .caPem).isSome && (d.file .caKey).isSome) = true then pure false
          else if ((d.file .caPem).isSome || (d.file .caKey).isSome) = true then
            raise (.partialCa (if (d.file .caPem).isSome then .caPem else .caKey)
              (if (d.file .caPem).isSome then .caKey else .caPem))
          else do
            createCa creds draw
            pure true) d := rfl
    rw [hresult]
    rintro (⟨rfl, hc, hk⟩ | ⟨rfl, ⟨hc, hk⟩, hname⟩)
    · rw [if_pos (by rw [Bool.and_eq_true]; exact ⟨hc, hk⟩)]
      rfl
    · rw [if_neg (by rw [Bool.and_eq_true]; exact fun h => hc h.1),
        if_neg (by rw [Bool.or_eq_true]; exact fun h => h.elim hc hk), result_bind_eq_ok]
      refine ⟨(), ?_, rfl⟩
      unfold createCa
      rw [if_neg (by rw [hname]; exact Bool.noConfusion)]
      rfl

/-- **When `ensure` returns**, in any directory. -/
theorem ensure_returns {creds : ServerCredentials} {caDraw : Draw X} :
    Returns d (.ensure creds fqdn ipAddresses caDraw leafDraw) ↔
      (d.has .caPem ∧ d.has .caKey ∧
        if d.has .serverPem ∧ d.has .serverKey then ∃ cert, d.cert .serverPem = some cert ∧
          (sanCovers cert fqdn = true ∨ d.opened.issueLeaf fqdn ipAddresses leafDraw ≠ none)
        else d.opened.issueLeaf fqdn ipAddresses leafDraw ≠ none) ∨
      ((¬ d.has .caPem ∧ ¬ d.has .caKey) ∧ X.commonNameAllowed creds.caCommonName = true ∧
        (d.opened.newCa creds caDraw).issueLeaf fqdn ipAddresses leafDraw ≠ none) := by
  have hstart : Returns d (.ensure creds fqdn ipAddresses caDraw leafDraw) ↔
      ∃ created, (ensureCa creds caDraw).result d.opened = .ok created ∧
        (ensureLeaf fqdn ipAddresses leafDraw created).result
          ((ensureCa creds caDraw).final d.opened) = .ok () := by
    show (Certs.ensure creds fqdn ipAddresses caDraw leafDraw).result d = .ok () ↔ _
    rw [ensure_eq, result_bind_eq_ok]
    constructor
    · rintro ⟨_, -, h⟩
      rw [(mkdirPrivate_spec (E := fun _ _ => True) d d rfl).1 () rfl] at h
      exact result_bind_eq_ok.mp h
    · intro h
      refine ⟨(), rfl, ?_⟩
      rw [(mkdirPrivate_spec (E := fun _ _ => True) d d rfl).1 () rfl]
      exact result_bind_eq_ok.mpr h
  rw [hstart]
  have hfinal {created : Bool} (h : (ensureCa creds caDraw).result d.opened = .ok created) :=
    (ensureCa_spec d.opened creds caDraw d.opened rfl).1 created h
  constructor
  · rintro ⟨created, hok, hleaf⟩
    rcases hfinal hok with ⟨hs, rfl, hc, hk⟩ | ⟨hs, rfl, hno, hname⟩
    · rw [hs, ensureLeaf_returns] at hleaf
      refine .inl ⟨hc, hk, ?_⟩
      by_cases hserver : d.has .serverPem ∧ d.has .serverKey
      · rw [if_neg (fun h => h.elim Bool.false_ne_true fun h => h hserver)] at hleaf
        rw [if_pos hserver]
        exact hleaf
      · rw [if_pos (.inr hserver)] at hleaf
        rw [if_neg hserver]
        exact hleaf
    · rw [hs, ensureLeaf_returns, if_pos (.inl rfl)] at hleaf
      exact .inr ⟨hno, hname, hleaf⟩
  · rintro (⟨hc, hk, h⟩ | ⟨hno, hname, h⟩)
    · have hok : (ensureCa creds caDraw).result d.opened = .ok false :=
        ensureCa_returns.mpr (.inl ⟨rfl, hc, hk⟩)
      refine ⟨false, hok, ?_⟩
      rcases hfinal hok with ⟨hs, -⟩ | ⟨-, hf, -⟩
      · rw [hs, ensureLeaf_returns]
        by_cases hserver : d.has .serverPem ∧ d.has .serverKey
        · rw [if_neg (fun h => h.elim Bool.false_ne_true fun h => h hserver)]
          rw [if_pos hserver] at h
          exact h
        · rw [if_pos (.inr hserver)]
          rw [if_neg hserver] at h
          exact h
      · cases hf
    · have hok : (ensureCa creds caDraw).result d.opened = .ok true :=
        ensureCa_returns.mpr (.inr ⟨rfl, hno, hname⟩)
      refine ⟨true, hok, ?_⟩
      rcases hfinal hok with ⟨-, hf, -⟩ | ⟨hs, -⟩
      · cases hf
      · rw [hs, ensureLeaf_returns, if_pos (.inl rfl)]
        exact h

theorem rotate_returns :
    Returns d (.rotate fqdn ipAddresses leafDraw) ↔
      d.has .caPem ∧ d.has .caKey ∧ d.issueLeaf fqdn ipAddresses leafDraw ≠ none := by
  have hresult : (Call.rotate fqdn ipAddresses leafDraw).op.result d =
      Program.result (if (!((d.file .caPem).isSome && (d.file .caKey).isSome)) = true then
        raise .noCa else createLeaf fqdn ipAddresses leafDraw) d := rfl
  unfold Returns
  rw [hresult]
  by_cases h : d.has .caPem ∧ d.has .caKey
  · rw [if_neg (by rw [Bool.not_eq_true', Bool.not_eq_false, Bool.and_eq_true]; exact h),
      createLeaf_returns]
    exact ⟨fun hi => ⟨h.1, h.2, hi⟩, fun hi => hi.2.2⟩
  · rw [if_pos (by rw [Bool.not_eq_true', ← Bool.not_eq_true, Bool.and_eq_true]; exact h)]
    refine ⟨fun hr => (by cases hr), fun hi => absurd ⟨hi.1, hi.2.1⟩ h⟩

end

/-! ### What the files must be -/

section
variable {d s : Directory X} {f : File}

/-- A CA that is there is not touched by any call. -/
theorem ca_kept {c : Call X} (hca : d.has .caPem ∨ d.has .caKey) (hc : Cut d c s) :
    s.file .caPem = d.file .caPem ∧ s.file .caKey = d.file .caKey := by
  have hboth : ¬ (¬ d.has .caPem ∧ ¬ d.has .caKey) := fun h => hca.elim h.1 h.2
  cases hc with
  | untouched c => exact ⟨rfl, rfl⟩
  | mode creds fqdn ipAddresses caDraw leafDraw s hs => rcases hs with rfl | rfl <;> exact ⟨rfl, rfl⟩
  | ca creds fqdn ipAddresses caDraw leafDraw s hno hw => exact absurd hno hboth
  | leaf creds fqdn ipAddresses caDraw leafDraw leaf s hno hleaf hw =>
    exact ⟨hw.other (g := .caPem) (by decide) (by decide),
      hw.other (g := .caKey) (by decide) (by decide)⟩
  | first creds fqdn ipAddresses caDraw leafDraw leaf s hno hleaf hw => exact absurd hno hboth
  | rotated fqdn ipAddresses draw leaf s hno hleaf hw =>
    exact ⟨hw.other (by decide) (by decide), hw.other (by decide) (by decide)⟩

theorem has_of_half (h : HalfCa d) : d.has .caPem ∨ d.has .caKey := by
  rcases h with h | h
  · by_cases hc : d.has .caPem
    · exact .inl hc
    · by_cases hk : d.has .caKey
      · exact .inr hk
      · exact absurd (iff_of_false hc hk) h
  · exact .inl (has_of_contents h)

theorem half_congr (hc : s.file .caPem = d.file .caPem) (hk : s.file .caKey = d.file .caKey) :
    HalfCa s ↔ HalfCa d := by
  unfold HalfCa Blank
  rw [has_congr hc, has_congr hk, contents_congr hc]

section
variable (hempty : X.loadCert X.empty = none)
include hempty

theorem not_blank_of_cert {cert : Certificate X.PublicKey X.Signature} (h : d.cert f = some cert) :
    ¬ Blank d f := by
  intro hblank
  rw [cert_contents, hblank, Option.bind_some, hempty] at h
  cases h

theorem not_blank_of_issueLeaf {fqdn : String} {ipAddresses : List String} {draw : Draw X}
    (h : d.issueLeaf fqdn ipAddresses draw ≠ none) : ¬ Blank d .caPem := by
  obtain ⟨s, hs⟩ := Option.ne_none_iff_exists'.mp h
  obtain ⟨ca, key, ski, subject, names, hca, -⟩ := issueLeaf_eq_some hs
  exact not_blank_of_cert hempty hca

end

variable (hX : X.Documented)
include hX

theorem IssuedBy.read {caCommonName : String} {draw : Draw X}
    {leaf : Certificate X.PublicKey X.Signature} (h : IssuedBy caCommonName draw leaf)
    (hc : d.contents f = some (X.certPem leaf)) : d.cert f = some leaf := by
  obtain ⟨fqdn, ipAddresses, subject, names, leafDraw, -, htbs, -⟩ := h
  rw [cert_contents, hc, Option.bind_some]
  refine hX.loadCert_certPem leaf ?_
  rw [htbs]
  exact leafTbs_storable ..

/-- A complete CA issues what is issuable. -/
theorem CaOf.issues {caCommonName : String} {draw : Draw X} (h : CaOf d caCommonName draw)
    {fqdn : String} {ipAddresses : List String} (hi : Issuable X fqdn ipAddresses)
    (leafDraw : Draw X) : d.issueLeaf fqdn ipAddresses leafDraw ≠ none := by
  obtain ⟨hf, hsubject, hnames⟩ := hi
  obtain ⟨hcert, hkey⟩ := h.read hX
  obtain ⟨subject, hsubject⟩ := Option.isSome_iff_exists.mp hsubject
  obtain ⟨names, hnames⟩ := Option.isSome_iff_exists.mp hnames
  have hski : (caCert X caCommonName draw).tbs.subjectKeyIdentifier =
      some (X.keyIdentifier (X.publicKey draw.key)) := rfl
  unfold issueLeaf
  rw [if_neg hf, hcert, hkey]
  simp [hski, hsubject, hnames]

variable (hempty : X.loadCert X.empty = none)
include hempty

theorem CaOf.not_blank {caCommonName : String} {draw : Draw X} (h : CaOf d caCommonName draw) :
    ¬ Blank d .caPem := not_blank_of_cert hempty (h.read hX).1

omit hX hempty in
theorem Lineage.complete (h : Lineage d) (hc : d.has .caPem) (hno : ¬ HalfCa d) :
    ∃ caCommonName draw, CaOf d caCommonName draw :=
  (h.ca hc).resolve_left fun hblank => hno (.inr hblank)

/-- **A call returns only where the CA is whole and, of `ensure`, the leaf is not blank.** -/
theorem Lineage.whole_of_returns (h : Lineage d) {c : Call X} (hret : Returns d c) :
    ¬ HalfCa d ∧ (BlankLeaf d → ∃ fqdn ipAddresses draw, c = .rotate fqdn ipAddresses draw) := by
  have hwhole (hc : d.has .caPem) (hk : d.has .caKey) (hb : ¬ Blank d .caPem) : ¬ HalfCa d := by
    rintro (hh | hh)
    · exact hh (iff_of_true hc hk)
    · exact hb hh
  cases c with
  | ensure creds fqdn ipAddresses caDraw leafDraw =>
    rcases ensure_returns.mp hret with ⟨hc, hk, hr⟩ | ⟨hno, -, -⟩
    · by_cases hserver : d.has .serverPem ∧ d.has .serverKey
      · rw [if_pos hserver] at hr
        obtain ⟨cert, hcert, -⟩ := hr
        obtain ⟨cn, draw, hca⟩ := h.issuer (.inl hserver.1)
        exact ⟨hwhole hc hk (hca.not_blank hX hempty),
          fun hb => absurd hb.2 (not_blank_of_cert hempty hcert)⟩
      · rw [if_neg hserver] at hr
        exact ⟨hwhole hc hk (not_blank_of_issueLeaf (d := d.opened) hempty hr),
          fun hb => absurd ⟨has_of_contents hb.2, hb.1⟩ hserver⟩
    · refine ⟨?_, fun hb => absurd hb.1 (h.no_leaf hno.1).2⟩
      rintro (hh | hh)
      · exact hh (iff_of_false hno.1 hno.2)
      · exact hno.1 (has_of_contents hh)
  | rotate fqdn ipAddresses draw =>
    obtain ⟨hc, hk, hi⟩ := rotate_returns.mp hret
    exact ⟨hwhole hc hk (not_blank_of_issueLeaf hempty hi), fun _ => ⟨_, _, _, rfl⟩⟩

omit hempty in
/-- Where the CA is whole and the leaf not blank, `ensure` returns. -/
theorem Lineage.ensures (h : Lineage d) {creds : ServerCredentials} {fqdn : String}
    {ipAddresses : List String} {caDraw leafDraw : Draw X}
    (hname : X.commonNameAllowed creds.caCommonName = true) (hi : Issuable X fqdn ipAddresses)
    (hca : ¬ HalfCa d) (hleaf : ¬ BlankLeaf d) :
    Returns d (.ensure creds fqdn ipAddresses caDraw leafDraw) := by
  rw [ensure_returns]
  by_cases hc : d.has .caPem
  · left
    obtain ⟨cn, draw, hcaOf⟩ := h.complete hc hca
    have hissue : d.opened.issueLeaf fqdn ipAddresses leafDraw ≠ none :=
      (hcaOf.congr rfl rfl : CaOf d.opened cn draw).issues hX hi leafDraw
    refine ⟨hc, h.keyFirst hc, ?_⟩
    split
    · next hserver =>
      rcases h.leaf hserver.1 with hblank | ⟨cn', draw', leaf, -, hcontents, hissued⟩
      · exact absurd ⟨hserver.2, hblank⟩ hleaf
      · exact ⟨leaf, hissued.read hX hcontents, .inr hissue⟩
    · exact hissue
  · right
    have hk : ¬ d.has .caKey := fun hk => hca (.inl fun hiff => hc (hiff.mpr hk))
    exact ⟨⟨hc, hk⟩, hname, newCa_issues hX hi⟩

/-- A call that returns leaves both whole. -/
theorem Lineage.after_return (h : Lineage d) {c : Call X} (hret : Returns d c) :
    ¬ HalfCa (call d c) ∧ ¬ BlankLeaf (call d c) := by
  have hissued {d s : Directory X} {fqdn : String} {ipAddresses : List String} {draw : Draw X}
      (hhas : d.has .caPem ∧ d.has .caKey) (hi : d.issueLeaf fqdn ipAddresses draw = some s) :
      ¬ HalfCa s ∧ ¬ BlankLeaf s := by
    obtain ⟨hp, hk, -⟩ := issueLeaf_files hi
    obtain ⟨ca, key, ski, subject, names, -, -, -, -, hleaf⟩ := issueLeaf_read hX hi
    have hblank : ¬ Blank d .caPem :=
      not_blank_of_issueLeaf hempty (by rw [hi]; exact Option.some_ne_none _)
    refine ⟨?_, fun hb => not_blank_of_cert hempty hleaf hb.2⟩
    rw [half_congr hp hk]
    rintro (hh | hh)
    · exact hh (iff_of_true hhas.1 hhas.2)
    · exact hblank hh
  cases c with
  | ensure creds fqdn ipAddresses caDraw leafDraw =>
    have hw := h.whole_of_returns hX hempty hret
    have hm := ensure_returned hret
    generalize call d _ = s at hm ⊢
    cases hm with
    | kept cert hca hserver hcert hcovers =>
      refine ⟨hw.1, fun hb => ?_⟩
      obtain ⟨fqdn, ipAddresses, draw, hc⟩ := hw.2 hb
      cases hc
    | reissued s hca hi => exact hissued (d := d.opened) hca hi
    | created s hca hi => exact hissued (newCa_has d.opened creds caDraw) hi
  | rotate fqdn ipAddresses draw =>
    obtain ⟨hc, hk, hi⟩ := rotate_returned hret
    exact hissued ⟨hc, hk⟩ hi

/-- **A half made CA stays half made** while its files are not deleted. -/
theorem half_run (h : Lineage d) (hhalf : HalfCa d) {xs : List (Happening X)}
    (hxs : ∀ x ∈ xs, LeafOnly x) : Lineage (run happen d xs) ∧ HalfCa (run happen d xs) := by
  refine Along.invariant happen (fun _ x => LeafOnly x) (I := fun s => Lineage s ∧ HalfCa s) ?_
    ⟨h, hhalf⟩ ((along_of_forall _ _ _).mpr hxs)
  rintro s x ⟨hs, hh⟩ hx
  refine ⟨lineage_happen hX hempty hs hx.leafOrAll, ?_⟩
  have hcut {c : Call X} {s' : Directory X} (hc : Cut s c s') : HalfCa s' := by
    obtain ⟨hp, hk⟩ := ca_kept (has_of_half hh) hc
    exact (half_congr hp hk).mpr hh
  cases x with
  | call c => exact hcut (call_cut s c)
  | crash c k => exact hcut (interrupted_cut s c k)
  | delete files => exact (half_congr (if_neg hx.1) (if_neg hx.2)).mpr hh

end

/-! ## Top theorems (proved from the lemmas above) -/

/-- **When the credentials recover from interruptions.**  Calls and calls that are cut off anywhere,
from an empty directory, in which an operator deletes files of the leaf only or all four files: an
`ensure` with a CA name that a certificate can hold, of a host that can be named, returns exactly
when the CA is not half made and the leaf not blank, a rotation exactly when there is a CA that is
not half made; after a call that returns both are whole; and after a half made CA no call returns
while nobody deletes a file of the CA. -/
theorem returns_iff (X : Cryptography) (hX : X.Documented) (hempty : X.loadCert X.empty = none)
    (mode : Option Nat) (hs : List (Happening X)) (h : ∀ x ∈ hs, LeafOrAll x) :
    let d := run happen (Directory.empty mode) hs
    (∀ creds fqdn ipAddresses caDraw leafDraw, X.commonNameAllowed creds.caCommonName = true →
      Issuable X fqdn ipAddresses →
      (Returns d (.ensure creds fqdn ipAddresses caDraw leafDraw) ↔ ¬ HalfCa d ∧ ¬ BlankLeaf d)) ∧
    (∀ fqdn ipAddresses draw, Issuable X fqdn ipAddresses →
      (Returns d (.rotate fqdn ipAddresses draw) ↔ d.has .caPem ∧ ¬ HalfCa d)) ∧
    (∀ c, Returns d c → ¬ HalfCa (call d c) ∧ ¬ BlankLeaf (call d c)) ∧
    (HalfCa d → ∀ xs : List (Happening X), (∀ x ∈ xs, LeafOnly x) →
      ∀ c, ¬ Returns (run happen d xs) c) := by
  intro d
  have hd : Lineage d := lineage_run hX hempty mode h
  refine ⟨fun creds fqdn ipAddresses caDraw leafDraw hname hi => ?_, fun fqdn ipAddresses draw hi => ?_,
    fun c hret => hd.after_return hX hempty hret, fun hhalf xs hxs c hret => ?_⟩
  · constructor
    · intro hret
      obtain ⟨hca, hleaf⟩ := hd.whole_of_returns hX hempty hret
      refine ⟨hca, fun hb => ?_⟩
      obtain ⟨_, _, _, hc⟩ := hleaf hb
      cases hc
    · rintro ⟨hca, hleaf⟩
      exact hd.ensures hX hname hi hca hleaf
  · constructor
    · intro hret
      exact ⟨(rotate_returns.mp hret).1, (hd.whole_of_returns hX hempty hret).1⟩
    · rintro ⟨hc, hca⟩
      obtain ⟨cn, draw', hcaOf⟩ := hd.complete hc hca
      exact rotate_returns.mpr ⟨hc, hd.keyFirst hc, hcaOf.issues hX hi draw⟩
  · obtain ⟨hl, hh⟩ := half_run hX hempty hd hhalf hxs
    exact (hl.whole_of_returns hX hempty hret).1 hh

/-- A first `ensure` that is cut off after its CA key is written: no later one returns. -/
def halfMade : List (Happening symbolic) := [.crash (symbolicEnsure "localhost" 1) 4]

/-- The leaf is deleted and `ensure` called again. -/
def retried : List (Happening symbolic) :=
  [.delete [.serverPem, .serverKey], .call (symbolicEnsure "localhost" 3)]

/-- A first `ensure` that is cut off when the certificate of the leaf is still empty. -/
def blankMade : List (Happening symbolic) := [.crash (symbolicEnsure "localhost" 1) 12]

theorem halfMade_stuck :
    ¬ Returns (run happen (Directory.empty none) (halfMade ++ retried))
      (symbolicEnsure "localhost" 5) ∧
    ¬ Returns (run happen (Directory.empty none) blankMade) (symbolicEnsure "localhost" 3) ∧
    Returns (run happen (Directory.empty none) blankMade) (.rotate "localhost" [] (symbolicDraw 3)) := by
  have hissuable : Issuable symbolic "localhost" [] := ⟨by decide, by decide, by decide⟩
  have hhalf := returns_iff symbolic symbolic_documented rfl none halfMade
    (by simp [halfMade, LeafOrAll])
  have hblank := returns_iff symbolic symbolic_documented rfl none blankMade
    (by simp [blankMade, LeafOrAll])
  refine ⟨?_, fun hret => ?_, ?_⟩
  · rw [run_append]
    refine hhalf.2.2.2 (.inl ?_) _ (by simp [retried, LeafOnly]) _
    exact fun hiff => absurd (hiff.mpr rfl) (by decide)
  · have hwhole := (hblank.1 sampleCredentials "localhost" [] (symbolicDraw 3) (symbolicDraw 4)
      (by decide) hissuable).mp hret
    exact hwhole.2 ⟨rfl, rfl⟩
  · refine (hblank.2.1 "localhost" [] (symbolicDraw 3) hissuable).mpr ⟨rfl, ?_⟩
    rintro (hh | hh)
    · exact hh (iff_of_true rfl rfl)
    · cases hh

end Certs

end FleetTelemetry
