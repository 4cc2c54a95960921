import FleetTelemetry.Certs.Coherence
import FleetTelemetry.Certs.Idempotence

/-!
# The addresses in the leaf

`ensure` looks for its host in the leaf that is there, and not for its
`ip_addresses`.  A leaf that covers the host is kept, with the names of the call that
issued it:

    ¬ Covered d fqdn → the new leaf contains the addresses of this call
    Covered d fqdn → the leaf is that of the last call with Issues d c     (ensured_addresses)
-/

namespace FleetTelemetry

namespace Certs

open IpAddress StepProgram Runs Directory

variable {X : Cryptography}

/-! ## Algorithm -/

def Call.fqdn : Call X → String
  | .ensure _ fqdn _ _ _ => fqdn
  | .rotate fqdn _ _ => fqdn

def Call.ipAddresses : Call X → List String
  | .ensure _ _ ipAddresses _ _ => ipAddresses
  | .rotate _ ipAddresses _ => ipAddresses

/-- The leaf that is there covers the host. -/
def Covered (d : Directory X) (fqdn : String) : Prop :=
  ∃ leaf, d.cert .serverPem = some leaf ∧ sanCovers leaf fqdn = true

/-- The leaf contains the address of every entry, as certificates hold addresses. -/
def ContainsAddresses (d : Directory X) (ipAddresses : List String) : Prop :=
  ∃ leaf names, d.cert .serverPem = some leaf ∧ leaf.tbs.subjectAlternativeName = some names ∧
    ∀ entry ∈ ipAddresses, ∃ ip, ipAddress entry = some ip ∧ .ipAddress ip.unscoped ∈ names

/-- The call returns and issues a leaf: an `ensure` does where no leaf covers its host. -/
def Issues (d : Directory X) : Call X → Prop
  | .ensure creds fqdn ipAddresses caDraw leafDraw =>
    Returns d (.ensure creds fqdn ipAddresses caDraw leafDraw) ∧ ¬ Covered d fqdn
  | .rotate fqdn ipAddresses draw => Returns d (.rotate fqdn ipAddresses draw)

/-- The names of the leaf are those the call asks for. -/
def NamedBy (d : Directory X) (c : Call X) : Prop :=
  ∃ leaf names, d.cert .serverPem = some leaf ∧
    sanGeneralNames X c.fqdn c.ipAddresses = some names ∧
    leaf.tbs.subjectAlternativeName = some (names.map GeneralName.stored)

/-! ## Lemmas -/

theorem exists_of_mapM {α β : Type} {f : α → Option β} {as : List α} {bs : List β}
    (h : as.mapM f = some bs) : ∀ a ∈ as, ∃ b ∈ bs, f a = some b := by
  induction as generalizing bs with
  | nil =>
    intro a ha
    cases ha
  | cons a as ih =>
    rw [List.mapM_cons] at h
    obtain ⟨b, hb, h⟩ := Option.bind_eq_some_iff.mp h
    obtain ⟨bs', hbs, h⟩ := Option.bind_eq_some_iff.mp h
    obtain rfl := Option.some.inj h
    intro a' ha
    rcases List.mem_cons.mp ha with rfl | ha
    · exact ⟨b, List.mem_cons_self, hb⟩
    · obtain ⟨b', hb', hf⟩ := ih hbs a' ha
      exact ⟨b', List.mem_cons_of_mem _ hb', hf⟩

/-- The names of a call have its addresses. -/
theorem addresses_of_names {fqdn : String} {ipAddresses : List String} {names : List GeneralName}
    (h : sanGeneralNames X fqdn ipAddresses = some names) :
    ∀ entry ∈ ipAddresses, ∃ ip, ipAddress entry = some ip ∧ .ipAddress ip ∈ names := by
  obtain ⟨name, rest, -, hrest, rfl⟩ := sanGeneralNames_eq_some h
  intro entry hentry
  obtain ⟨n, hn, hentry⟩ := exists_of_mapM hrest entry hentry
  obtain ⟨ip, hip, rfl⟩ := Option.map_eq_some_iff.mp hentry
  exact ⟨ip, hip, List.mem_cons_of_mem _ hn⟩

theorem NamedBy.contains {d : Directory X} {c : Call X} (h : NamedBy d c) :
    ContainsAddresses d c.ipAddresses := by
  obtain ⟨leaf, names, hleaf, hnames, hsan⟩ := h
  refine ⟨leaf, _, hleaf, hsan, ?_⟩
  intro entry hentry
  obtain ⟨ip, hip, hmem⟩ := addresses_of_names hnames entry hentry
  exact ⟨ip, hip, List.mem_map_of_mem (f := GeneralName.stored) hmem⟩

theorem NamedBy.congr {d s : Directory X} {c : Call X} (h : NamedBy d c)
    (hs : s.file .serverPem = d.file .serverPem) : NamedBy s c := by
  unfold NamedBy
  rw [cert_congr hs]
  exact h

/-- Where the files are whole, an `ensure` for a host that is covered keeps everything. -/
theorem ensure_covered {d : Directory X} (hw : Whole d) {fqdn : String} (h : Covered d fqdn)
    (creds : ServerCredentials) (ipAddresses : List String) (caDraw leafDraw : Draw X) :
    call d (.ensure creds fqdn ipAddresses caDraw leafDraw) = d.opened := by
  obtain ⟨leaf, hleaf, hcovers⟩ := h
  have hserver := has_of_cert hleaf
  have hca := hw.issued hserver
  exact (ensure_kept ⟨hca, hw.ca.mp hca⟩ ⟨hserver, hw.server.mp hserver⟩ hleaf hcovers creds
    ipAddresses caDraw leafDraw).2

/-- **A call that issues no leaf leaves the leaf alone.** -/
theorem file_of_not_issues {d : Directory X} (hw : Whole d) {c : Call X} (h : ¬ Issues d c) :
    (call d c).file .serverPem = d.file .serverPem := by
  by_cases hret : Returns d c
  · cases c with
    | ensure creds fqdn ipAddresses caDraw leafDraw =>
      have hcov : Covered d fqdn := by
        by_contra hno
        exact h ⟨hret, hno⟩
      rw [ensure_covered hw hcov creds ipAddresses caDraw leafDraw]
      rfl
    | rotate fqdn ipAddresses draw => exact absurd hret h
  · exact ((call_frame d c).2 hret).1

section
variable (hX : X.Documented)
include hX

theorem issueLeaf_named {d s : Directory X} {fqdn : String} {ipAddresses : List String}
    {draw : Draw X} (h : d.issueLeaf fqdn ipAddresses draw = some s) :
    ∃ leaf names, s.cert .serverPem = some leaf ∧
      sanGeneralNames X fqdn ipAddresses = some names ∧
      leaf.tbs.subjectAlternativeName = some (names.map GeneralName.stored) := by
  obtain ⟨ca, key, ski, subject, names, -, -, hnames, -, hleaf⟩ := issueLeaf_read hX h
  exact ⟨_, names, hleaf, hnames, leafTbs_san ..⟩

/-- **A call that issues a leaf names it.** -/
theorem named_of_issues {d : Directory X} {c : Call X} (h : Issues d c) : NamedBy (call d c) c := by
  cases c with
  | ensure creds fqdn ipAddresses caDraw leafDraw =>
    obtain ⟨hret, hno⟩ := h
    have hm := ensure_returned hret
    generalize call d _ = s at hm ⊢
    cases hm with
    | kept cert hca hserver hcert hcovers => exact absurd ⟨cert, hcert, hcovers⟩ hno
    | reissued s hca h => exact issueLeaf_named hX h
    | created s hca h => exact issueLeaf_named hX h
  | rotate fqdn ipAddresses draw =>
    obtain ⟨-, -, hissue⟩ := rotate_returned h
    exact issueLeaf_named hX hissue

/-- **A leaf that is there was issued**, and has the names of the last call that issued one. -/
theorem last_issued (mode : Option Nat) (cs : List (Call X))
    (h : (run call (Directory.empty mode) cs).has .serverPem) :
    ∃ cs₁ c cs₂, cs = cs₁ ++ c :: cs₂ ∧ Issues (run call (Directory.empty mode) cs₁) c ∧
      Along call (fun d c => ¬ Issues d c) (run call (Directory.empty mode) (cs₁ ++ [c])) cs₂ ∧
      NamedBy (run call (Directory.empty mode) cs) c := by
  induction cs using List.reverseRecOn with
  | nil => cases h
  | append_singleton cs c ih =>
    rw [run_snoc] at h ⊢
    by_cases hissue : Issues (run call (Directory.empty mode) cs) c
    · exact ⟨cs, c, [], rfl, hissue, trivial, named_of_issues hX hissue⟩
    · have hfile := file_of_not_issues (run_whole hX mode cs) hissue
      obtain ⟨cs₁, c', cs₂, rfl, hlast, halong, hnamed⟩ := ih ((has_congr hfile).mp h)
      refine ⟨cs₁, c', cs₂ ++ [c], by simp, hlast, ?_, hnamed.congr hfile⟩
      rw [along_snoc, ← run_append, List.append_assoc]
      exact ⟨halong, hissue⟩

end

/-! ## Top theorems (proved from the lemmas above) -/

/-- **Which addresses the leaf has after an `ensure` that returns.**  Where no leaf covered the host,
those of this call.  Where one did, the files are as they were: the leaf has the names of the
last earlier call that issued one, and its addresses. -/
theorem ensured_addresses (X : Cryptography) (hX : X.Documented) (mode : Option Nat)
    (cs : List (Call X)) (creds : ServerCredentials) (fqdn : String) (ipAddresses : List String)
    (caDraw leafDraw : Draw X)
    (hret : Returns (run call (Directory.empty mode) cs)
      (.ensure creds fqdn ipAddresses caDraw leafDraw)) :
    let d := run call (Directory.empty mode) cs
    let s := call d (.ensure creds fqdn ipAddresses caDraw leafDraw)
    (¬ Covered d fqdn → ContainsAddresses s ipAddresses) ∧
    (Covered d fqdn → (∀ f, s.file f = d.file f) ∧
      ∃ cs₁ c cs₂, cs = cs₁ ++ c :: cs₂ ∧ Issues (run call (Directory.empty mode) cs₁) c ∧
        Along call (fun d c => ¬ Issues d c) (run call (Directory.empty mode) (cs₁ ++ [c])) cs₂ ∧
        NamedBy s c ∧ ContainsAddresses s c.ipAddresses) := by
  intro d s
  constructor
  · intro hno
    exact (named_of_issues hX (c := .ensure creds fqdn ipAddresses caDraw leafDraw)
      ⟨hret, hno⟩).contains
  · intro hcov
    have hs : s = d.opened :=
      ensure_covered (run_whole hX mode cs) hcov creds ipAddresses caDraw leafDraw
    have hfile : ∀ f, s.file f = d.file f := by
      intro f
      rw [hs]
      rfl
    obtain ⟨leaf, hleaf, -⟩ := hcov
    obtain ⟨cs₁, c, cs₂, hcs, hissue, halong, hnamed⟩ := last_issued hX mode cs (has_of_cert hleaf)
    have hnamed := hnamed.congr (hfile .serverPem)
    exact ⟨hfile, cs₁, c, cs₂, hcs, hissue, halong, hnamed, hnamed.contains⟩

/-- An address beside the host, in a new directory. -/
theorem ensured_fresh :
    ContainsAddresses (call (run call (Directory.empty none) [])
      (.ensure sampleCredentials "localhost" ["10.0.0.5"] (symbolicDraw 1) (symbolicDraw 2)))
      ["10.0.0.5"] := by
  refine (ensured_addresses symbolic symbolic_documented none [] sampleCredentials "localhost"
    ["10.0.0.5"] (symbolicDraw 1) (symbolicDraw 2) rfl).1 ?_
  rintro ⟨leaf, hleaf, -⟩
  cases hleaf

/-- The leaf covers the host already: the second `ensure` returns, and its address is not there. -/
theorem ensured_without_address :
    ¬ ∀ (cs : List (Call symbolic)) (creds : ServerCredentials) (fqdn : String)
      (ipAddresses : List String) (caDraw leafDraw : Draw symbolic),
      Returns (run call (Directory.empty none) cs)
        (.ensure creds fqdn ipAddresses caDraw leafDraw) →
      ContainsAddresses (call (run call (Directory.empty none) cs)
        (.ensure creds fqdn ipAddresses caDraw leafDraw)) ipAddresses := by
  intro h
  obtain ⟨leaf, names, hleaf, hsan, haddresses⟩ := h [symbolicEnsure "localhost" 1]
    sampleCredentials "localhost" ["10.0.0.5"] (symbolicDraw 3) (symbolicDraw 4) rfl
  have hkept : ((call (run call (Directory.empty none) [symbolicEnsure "localhost" 1])
      (.ensure sampleCredentials "localhost" ["10.0.0.5"] (symbolicDraw 3)
        (symbolicDraw 4))).cert .serverPem).bind (fun leaf => leaf.tbs.subjectAlternativeName) =
      some [.dnsName "localhost"] := rfl
  rw [hleaf, Option.bind_some, hsan] at hkept
  obtain rfl := Option.some.inj hkept
  obtain ⟨ip, -, hmem⟩ := haddresses "10.0.0.5" List.mem_cons_self
  cases List.mem_singleton.mp hmem

end Certs

end FleetTelemetry
