import FleetTelemetry.Certs.Chain

/-!
# `ensure` after `ensure`

The leaf that was issued for a host is kept by the next `ensure` for it, but for an
IPv6 literal with a zone: the certificate holds the address without the zone, and
`_san_covers` looks for it with the zone.

    the second ensure returns and changes no file ↔ ¬ Scoped fqdn        (ensure_twice_iff)
-/

namespace FleetTelemetry

namespace Certs

open IpAddress StepProgram Directory

variable {X : Cryptography}

/-- An IPv6 literal with a zone. -/
def Scoped (fqdn : String) : Prop := ∃ ip scopeId, ipAddress fqdn = some (.v6 ip (some scopeId))

/-- The octets of a file. -/
def Directory.contents (d : Directory X) (f : File) : Option X.Contents :=
  (d.file f).map Entry.contents

/-! ## Lemmas -/

theorem unscoped_of_not_scoped {fqdn : String} (h : ¬ Scoped fqdn) {ip : Address}
    (hip : ipAddress fqdn = some ip) : ip.unscoped = ip := by
  cases ip with
  | v4 n => rfl
  | v6 n scopeId =>
    cases scopeId with
    | none => rfl
    | some zone => exact absurd ⟨n, zone, hip⟩ h

/-- What a certificate lists it covers, but for a scoped address. -/
theorem covers_of_lists {cert : Certificate X.PublicKey X.Signature} {fqdn : String}
    {names : List GeneralName} (hsan : cert.tbs.subjectAlternativeName = some names)
    (hlists : Lists names fqdn) (h : ¬ Scoped fqdn) : sanCovers cert fqdn = true := by
  unfold sanCovers
  unfold Lists at hlists
  rw [hsan]
  cases hip : ipAddress fqdn with
  | none =>
    rw [hip] at hlists
    exact decide_eq_true hlists
  | some ip =>
    rw [hip] at hlists
    have hmem : .ipAddress ip.unscoped ∈ names := hlists
    rw [unscoped_of_not_scoped h hip] at hmem
    exact decide_eq_true hmem

/-- No certificate that can be read covers a scoped address. -/
theorem not_covers_of_scoped (hX : X.Documented) {d : Directory X} {f : File}
    {cert : Certificate X.PublicKey X.Signature} {fqdn : String} (hc : d.cert f = some cert)
    (h : Scoped fqdn) : sanCovers cert fqdn ≠ true := by
  intro hcovers
  obtain ⟨ip, zone, hip⟩ := h
  obtain ⟨names, hsan, ⟨hno, -⟩ | ⟨ip', hip', hmem⟩⟩ := names_of_covers hcovers
  · cases hip.symm.trans hno
  · obtain rfl := Option.some.inj (hip.symm.trans hip')
    have hst : GeneralName.ipAddress (.v6 ip none) = .ipAddress (.v6 ip (some zone)) :=
      stored_of_cert hX hc hsan _ hmem
    cases hst

/-- After an `ensure` that returns all four files are there. -/
theorem ensured_has {d s : Directory X} {creds : ServerCredentials} {fqdn : String}
    {ipAddresses : List String} {caDraw leafDraw : Draw X}
    (h : Ensured d creds fqdn ipAddresses caDraw leafDraw s) :
    (s.has .caPem ∧ s.has .caKey) ∧ s.has .serverPem ∧ s.has .serverKey := by
  cases h with
  | kept cert hca hserver => exact ⟨hca, hserver⟩
  | reissued s hca h =>
    obtain ⟨hc, hk, hp, hsk⟩ := issueLeaf_files h
    exact ⟨⟨(has_congr hc).mpr hca.1, (has_congr hk).mpr hca.2⟩, hp, hsk⟩
  | created s hca h =>
    obtain ⟨hc, hk, hp, hsk⟩ := issueLeaf_files h
    have hhas := newCa_has d.opened creds caDraw
    exact ⟨⟨(has_congr hc).mpr hhas.1, (has_congr hk).mpr hhas.2⟩, hp, hsk⟩

/-- **Where the four files are there and the leaf covers the host, `ensure` returns and writes
nothing.** -/
theorem ensure_kept {d : Directory X} {cert : Certificate X.PublicKey X.Signature} {fqdn : String}
    (hca : d.has .caPem ∧ d.has .caKey) (hserver : d.has .serverPem ∧ d.has .serverKey)
    (hcert : d.cert .serverPem = some cert) (hcovers : sanCovers cert fqdn = true)
    (creds : ServerCredentials) (ipAddresses : List String) (caDraw leafDraw : Draw X) :
    Returns d (.ensure creds fqdn ipAddresses caDraw leafDraw) ∧
      call d (.ensure creds fqdn ipAddresses caDraw leafDraw) = d.opened := by
  have hspec : Triple (· = d) (Certs.ensure creds fqdn ipAddresses caDraw leafDraw)
      (fun _ s => s = d.opened) (fun _ _ => False) := by
    unfold Certs.ensure
    refine .bind (mkdirPrivate_spec d) fun _ => ?_
    refine .bind (Q := fun created s => s = d.opened ∧ created = false)
      ((ensureCa_spec d.opened creds caDraw).consequence (fun _ h => h) ?_ ?_)
      fun caCreated => .assume fun hcreated => ?_
    · rintro created s (⟨hs, hc, -⟩ | ⟨-, -, hno, -⟩)
      · exact ⟨hs, hc⟩
      · exact absurd hca.1 hno.1
    · rintro _ s ⟨-, hno⟩
      exact hno hca
    refine .bind (pathExists_spec d.opened .serverPem) fun certExists => .assume fun hcertE => ?_
    refine .bind (pathExists_spec d.opened .serverKey) fun keyExists => .assume fun hkeyE => ?_
    obtain rfl : certExists = true := hcertE.mpr hserver.1
    obtain rfl : keyExists = true := hkeyE.mpr hserver.2
    subst hcreated
    rw [if_neg (by decide)]
    refine .bind ((loadCert_spec d.opened .serverPem).consequence (fun _ h => h) (fun _ _ h => h) ?_)
      fun cert' => .assume fun hload => ?_
    · rintro _ s ⟨-, hnone⟩
      rw [show d.opened.cert .serverPem = d.cert .serverPem from rfl, hcert] at hnone
      cases hnone
    obtain rfl : cert = cert' := Option.some.inj (hcert.symm.trans hload)
    rw [if_pos hcovers]
    exact .pure fun s hs => hs
  obtain ⟨hok, herr⟩ := hspec d rfl
  have hret : Returns d (.ensure creds fqdn ipAddresses caDraw leafDraw) := by
    by_contra hno
    obtain ⟨e, he⟩ := exists_error hno
    exact herr e he
  exact ⟨hret, hok () hret⟩

/-! ## Top theorems (proved from the lemmas above) -/

/-- **A second `ensure` regenerates nothing exactly for a host that is no scoped address.**  Whatever
the directory was: after an `ensure` that returned, another one with the same arguments returns
and leaves the four files as they are, unless the host is an IPv6 literal with a zone; then it
does not return, or writes the key it drew, which is a new one. -/
theorem ensure_twice_iff (X : Cryptography) (hX : X.Documented) (d : Directory X)
    (creds : ServerCredentials) (fqdn : String) (ipAddresses : List String)
    (caDraw leafDraw caDraw' leafDraw' : Draw X)
    (hret : Returns d (.ensure creds fqdn ipAddresses caDraw leafDraw)) :
    let d' := call d (.ensure creds fqdn ipAddresses caDraw leafDraw)
    let again : Call X := .ensure creds fqdn ipAddresses caDraw' leafDraw'
    (¬ Scoped fqdn → Returns d' again ∧ ∀ f, (call d' again).contents f = d'.contents f) ∧
    (d'.contents .serverKey ≠ some (X.keyPem leafDraw'.key) →
      ((Returns d' again ∧ ∀ f, (call d' again).contents f = d'.contents f) ↔ ¬ Scoped fqdn)) := by
  intro d' again
  have hm := ensure_returned hret
  obtain ⟨hca, hserver⟩ := ensured_has hm
  obtain ⟨leaf, names, hleaf, hsan, hlists⟩ := ensured_lists hX hm
  have hkept (hscoped : ¬ Scoped fqdn) :
      Returns d' again ∧ ∀ f, (call d' again).contents f = d'.contents f := by
    have hcovers := covers_of_lists hsan hlists hscoped
    obtain ⟨hret', hsame⟩ := ensure_kept hca hserver hleaf hcovers creds ipAddresses caDraw' leafDraw'
    exact ⟨hret', fun f => by rw [show call d' again = d'.opened from hsame]; rfl⟩
  refine ⟨hkept, fun hfresh => ⟨?_, hkept⟩⟩
  rintro ⟨hret', hsame⟩ hscoped
  have hkey := hsame .serverKey
  have hm' := ensure_returned hret'
  generalize call d' _ = s at hm' hkey
  cases hm' with
  | kept cert hca hserver hcert hcovers => exact not_covers_of_scoped hX hcert hscoped hcovers
  | reissued s hca h =>
    obtain ⟨ca, key, ski, subject, names, -, -, -, rfl⟩ := issueLeaf_eq_some h
    refine hfresh (hkey.symm.trans ?_)
    unfold Directory.contents
    simp
  | created s hno h => exact hno.1 hca.1

/-- `ensure` with an address that has no zone, whatever it draws the second time. -/
theorem ensure_twice_localhost :
    let d := call (Directory.empty none) (symbolicEnsure "::1" 1)
    Returns d (symbolicEnsure "::1" 3) ∧
      (∀ f, (call d (symbolicEnsure "::1" 3)).contents f = d.contents f) ∧
      ∀ f, (call d (symbolicEnsure "::1" 1)).contents f = d.contents f := by
  intro d
  have hscoped : ¬ Scoped "::1" := by
    rintro ⟨ip, zone, hip⟩
    rw [show ipAddress "::1" = some (.v6 1 none) by decide] at hip
    cases hip
  have hkey : d.contents .serverKey = some (.key 2) := rfl
  have htwice (k : Nat) := ensure_twice_iff symbolic symbolic_documented (Directory.empty none)
    sampleCredentials "::1" [] (symbolicDraw 1) (symbolicDraw 2) (symbolicDraw k)
    (symbolicDraw (k + 1)) rfl
  obtain ⟨hret, hsame⟩ := ((htwice 3).2 fun h => by cases hkey.symm.trans h).mpr hscoped
  exact ⟨hret, hsame, ((htwice 1).1 hscoped).2⟩

/-- With a zone, the second `ensure` returns and writes a new key. -/
theorem ensure_twice_scoped :
    let d := call (Directory.empty none) (symbolicEnsure "fe80::1%eth0" 1)
    Returns (Directory.empty none) (symbolicEnsure "fe80::1%eth0" 1) ∧
      Returns d (symbolicEnsure "fe80::1%eth0" 3) ∧
      ¬ ∀ f, (call d (symbolicEnsure "fe80::1%eth0" 3)).contents f = d.contents f := by
  intro d
  refine ⟨rfl, rfl, fun h => ?_⟩
  have hkey : some (SymbolicContents.key 4) = some (.key 2) := h .serverKey
  cases hkey

end Certs

end FleetTelemetry
