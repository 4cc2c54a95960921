import FleetTelemetry.Certs.Chain

/-!
# Runs without deletions

From an empty directory the files stay `Whole`: each of the two pairs is there or not,
and a leaf is there only with its CA.  No `ensure` then makes a CA next to a leaf, so
every call is safe.

    Whole d → Whole (call d c)                                           (call_whole)
-/

namespace FleetTelemetry

namespace Certs

open StepProgram Runs Directory

variable {X : Cryptography}

/-- The pairs are complete, and a leaf comes with its CA. -/
structure Whole (d : Directory X) : Prop where
  sound : Sound d
  ca : d.has .caPem ↔ d.has .caKey
  server : d.has .serverPem ↔ d.has .serverKey
  issued : d.has .serverPem → d.has .caPem

/-! ## Lemmas -/

theorem whole_empty (mode : Option Nat) : Whole (Directory.empty mode : Directory X) :=
  ⟨sound_empty mode, Iff.rfl, Iff.rfl, nofun⟩

/-- Where a leaf comes with its CA, every call is safe. -/
theorem Whole.safe {d : Directory X} (h : Whole d) (c : Call X) : Safe d (.call c) := by
  cases c with
  | ensure creds fqdn ipAddresses caDraw leafDraw =>
    intro hc _ hserver
    exact absurd (h.issued hserver) hc
  | rotate fqdn ipAddresses draw => trivial

/-- A leaf that is there chains to the CA. -/
theorem Whole.chained {d : Directory X} (h : Whole d) (hserver : d.has .serverPem) : Chained d :=
  have hca := h.issued hserver
  h.sound.chained hca (h.ca.mp hca) hserver (h.server.mp hserver)

/-- A call does not touch a CA that is there, and one that raises does not touch the leaf. -/
theorem call_frame (d : Directory X) (c : Call X) :
    (d.has .caPem → d.has .caKey →
      (call d c).file .caPem = d.file .caPem ∧ (call d c).file .caKey = d.file .caKey) ∧
    (¬ Returns d c →
      (call d c).file .serverPem = d.file .serverPem ∧
        (call d c).file .serverKey = d.file .serverKey) := by
  cases c with
  | ensure creds fqdn ipAddresses caDraw leafDraw =>
    by_cases hret : Returns d (.ensure creds fqdn ipAddresses caDraw leafDraw)
    · refine ⟨fun hc hk => ?_, fun h => absurd hret h⟩
      have hm := ensure_returned hret
      generalize call d _ = s at hm ⊢
      cases hm with
      | kept => exact ⟨rfl, rfl⟩
      | reissued s hca h => exact ⟨(issueLeaf_files h).1, (issueLeaf_files h).2.1⟩
      | created s hca h => exact absurd hc hca.1
    · have hm := ensure_raised hret
      generalize call d _ = s at hm ⊢
      cases hm with
      | unchanged => exact ⟨fun _ _ => ⟨rfl, rfl⟩, fun _ => ⟨rfl, rfl⟩⟩
      | created hca hname h =>
        exact ⟨fun hc _ => absurd hc hca.1, fun _ => newCa_files d.opened creds caDraw⟩
  | rotate fqdn ipAddresses draw =>
    by_cases hret : Returns d (.rotate fqdn ipAddresses draw)
    · obtain ⟨-, -, h⟩ := rotate_returned hret
      exact ⟨fun _ _ => ⟨(issueLeaf_files h).1, (issueLeaf_files h).2.1⟩, fun h => absurd hret h⟩
    · rw [rotate_raised hret]
      exact ⟨fun _ _ => ⟨rfl, rfl⟩, fun _ => ⟨rfl, rfl⟩⟩

section
variable (hX : X.Documented)
include hX

/-- A leaf that was issued by a complete CA. -/
theorem whole_of_issueLeaf {d s : Directory X} {fqdn : String} {ipAddresses : List String}
    {draw : Draw X} (hpair : CaPair d) (hca : d.has .caPem ∧ d.has .caKey)
    (h : d.issueLeaf fqdn ipAddresses draw = some s) : Whole s := by
  obtain ⟨hc, hk, hp, hsk⟩ := issueLeaf_files h
  have hca' := hca.imp (has_congr hc).mpr (has_congr hk).mpr
  exact ⟨sound_of_issueLeaf hX hpair h, iff_of_true hca'.1 hca'.2, iff_of_true hp hsk,
    fun _ => hca'.1⟩

theorem call_whole {d : Directory X} (hw : Whole d) (c : Call X) : Whole (call d c) := by
  have hsound := call_sound hX hw.sound c (hw.safe c)
  cases c with
  | ensure creds fqdn ipAddresses caDraw leafDraw =>
    by_cases hret : Returns d (.ensure creds fqdn ipAddresses caDraw leafDraw)
    · have hm := ensure_returned hret
      generalize call d _ = s at hm hsound
      cases hm with
      | kept => exact ⟨hsound, hw.ca, hw.server, hw.issued⟩
      | reissued s hca h => exact whole_of_issueLeaf hX (hw.sound.pair hca.1 hca.2).opened hca h
      | created s hca h => exact whole_of_issueLeaf hX (newCa_pair hX _ _ _) (newCa_has _ _ _) h
    · have hm := ensure_raised hret
      generalize call d _ = s at hm hsound
      cases hm with
      | unchanged => exact ⟨hsound, hw.ca, hw.server, hw.issued⟩
      | created hca hname h =>
        obtain ⟨hp, hsk⟩ := newCa_files d.opened creds caDraw
        have hhas := newCa_has d.opened creds caDraw
        exact ⟨hsound, iff_of_true hhas.1 hhas.2,
          (has_congr hp).trans (hw.server.trans (has_congr hsk).symm), fun _ => hhas.1⟩
  | rotate fqdn ipAddresses draw =>
    by_cases hret : Returns d (.rotate fqdn ipAddresses draw)
    · obtain ⟨hc, hk, h⟩ := rotate_returned hret
      exact whole_of_issueLeaf hX (hw.sound.pair hc hk) ⟨hc, hk⟩ h
    · rw [rotate_raised hret]
      exact hw

theorem run_whole (mode : Option Nat) (cs : List (Call X)) :
    Whole (run call (Directory.empty mode) cs) :=
  Runs.invariant call (I := Whole) (fun _ c h => call_whole hX h c) (whole_empty mode) cs

end

/-! ## Top theorems (proved from the lemmas above) -/

/-- **The credentials stay coherent**, in every run of calls from an empty directory: a CA that is
there never changes; a leaf that is there is signed by it and has its key beside it; a call that
raises leaves the leaf alone; and an `ensure` that returns leaves a leaf that lists the host. -/
theorem credentials_coherent (X : Cryptography) (hX : X.Documented) (mode : Option Nat)
    (cs : List (Call X)) :
    let d := run call (Directory.empty mode) cs
    (∀ cs', d.has .caPem → d.has .caKey →
      (run call d cs').file .caPem = d.file .caPem ∧
        (run call d cs').file .caKey = d.file .caKey) ∧
    (d.has .serverPem → SignedByCa d ∧ KeyMatches d) ∧
    (∀ c, ¬ Returns d c →
      (call d c).file .serverPem = d.file .serverPem ∧
        (call d c).file .serverKey = d.file .serverKey) ∧
    (∀ creds fqdn ipAddresses caDraw leafDraw,
      Returns d (.ensure creds fqdn ipAddresses caDraw leafDraw) →
      ∃ leaf names, (call d (.ensure creds fqdn ipAddresses caDraw leafDraw)).cert .serverPem =
        some leaf ∧ leaf.tbs.subjectAlternativeName = some names ∧ Lists names fqdn) := by
  intro d
  refine ⟨fun cs' hc hk => ?_, fun hserver => (run_whole hX mode cs).chained hserver,
    fun c => (call_frame d c).2, ?_⟩
  · refine Runs.invariant call
      (I := fun s => s.file .caPem = d.file .caPem ∧ s.file .caKey = d.file .caKey) ?_ ⟨rfl, rfl⟩ cs'
    rintro s c ⟨hp, hsk⟩
    obtain ⟨h1, h2⟩ := (call_frame s c).1 ((has_congr hp).mpr hc) ((has_congr hsk).mpr hk)
    exact ⟨h1.trans hp, h2.trans hsk⟩
  · intro creds fqdn ipAddresses caDraw leafDraw hret
    exact ensured_lists hX (ensure_returned hret)

/-- The chain stands after an `ensure`, one without a host that raises, and a rotation. -/
theorem rotated_coherent :
    let d := run call (Directory.empty none) [symbolicEnsure "localhost" 1, symbolicEnsure "" 3,
      .rotate "fleet.example" ["::1"] (symbolicDraw 5)]
    SignedByCa d ∧ KeyMatches d :=
  (credentials_coherent symbolic symbolic_documented none [symbolicEnsure "localhost" 1,
    symbolicEnsure "" 3, .rotate "fleet.example" ["::1"] (symbolicDraw 5)]).2.1 rfl

end Certs

end FleetTelemetry
