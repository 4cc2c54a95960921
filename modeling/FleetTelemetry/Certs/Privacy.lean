import FleetTelemetry.Certs.Cuts

/-!
# Private keys stay private

From an empty directory the key files have mode 0600 in every state, between two steps of
a call as well, the directory has mode 0700 once it holds a file, and no certificate file
holds a key.

    Private d → Cut d c s → Private s                                 (private_cut)

`_write_key` sets the mode last, so where a file is there already a key has that file's
mode until then.  `ensure` closes the directory first, a rotation does not: its key is
exposed exactly where the modes of both let others read the file before (`exposed_iff`).
-/

namespace FleetTelemetry

namespace Certs

open StepProgram Runs Directory

variable {X : Cryptography}

/-! ## Algorithm -/

/-- The file is for a private key. -/
def Secret (f : File) : Prop := f = .caKey ∨ f = .serverKey

/-- Nobody but the owner can read a key. -/
structure Private (d : Directory X) : Prop where
  key : ∀ f e, Secret f → d.file f = some e → e.mode = 0o600
  cert : ∀ f e, ¬ Secret f → d.file f = some e →
    e.contents = X.empty ∨ ∃ cert, e.contents = X.certPem cert
  directory : ∀ f, d.has f → d.mode = some 0o700

/-- The group or others may search the directory, by its mode, and read the file, by its own. -/
def Readable (d : Directory X) (e : Entry X) : Prop :=
  ∃ mode, d.mode = some mode ∧ mode &&& 0o011 ≠ 0 ∧ e.mode &&& 0o044 ≠ 0

/-- The group or others may read the key in the file. -/
def Exposed (f : File) (key : X.PrivateKey) (d : Directory X) : Prop :=
  ∃ e, d.file f = some e ∧ e.contents = X.keyPem key ∧ Readable d e

/-- The group or others may read the file, whatever it holds. -/
def Loose (f : File) (d : Directory X) : Prop := ∃ e, d.file f = some e ∧ Readable d e

/-! ## Lemmas -/

section
variable {d s : Directory X} {f : File}

theorem private_empty (mode : Option Nat) : Private (Directory.empty mode : Directory X) where
  key f e _ h := by cases h
  cert f e _ h := by cases h
  directory f h := by cases h

/-- A directory with the same files, that is closed when it holds one. -/
theorem Private.of_files (h : Private d) (hf : ∀ f, s.file f = d.file f ∨ s.file f = none)
    (hm : (∃ f, s.has f) → d.mode = some 0o700 → s.mode = some 0o700) : Private s := by
  have hfile {f : File} {e : Entry X} (he : s.file f = some e) : d.file f = some e := by
    rcases hf f with h | h
    · rw [← h, he]
    · rw [h] at he
      cases he
  refine ⟨fun f e hs he => h.key f e hs (hfile he), fun f e hs he => h.cert f e hs (hfile he), ?_⟩
  intro f hhas
  obtain ⟨e, he⟩ := Option.isSome_iff_exists.mp hhas
  refine hm ⟨f, hhas⟩ (h.directory f ?_)
  show (d.file f).isSome = true
  rw [hfile he]
  rfl

/-- One file is written anew, in a closed directory. -/
theorem Private.set (h : Private d) (hm : d.mode = some 0o700) {e : Entry X}
    (hkey : Secret f → e.mode = 0o600)
    (hcert : ¬ Secret f → e.contents = X.empty ∨ ∃ cert, e.contents = X.certPem cert) :
    Private (d.set f (some e)) := by
  refine ⟨fun g e' hs he => ?_, fun g e' hs he => ?_, fun _ _ => hm⟩
  · rw [set_file] at he
    split at he
    · next hg =>
      obtain rfl := Option.some.inj he
      exact hkey (hg ▸ hs)
    · exact h.key g e' hs he
  · rw [set_file] at he
    split at he
    · next hg =>
      obtain rfl := Option.some.inj he
      exact hcert (hg ▸ hs)
    · exact h.cert g e' hs he

/-- A key file that is opened has mode 0600 already. -/
theorem Private.openedMode (h : Private d) (hf : Secret f) : d.openedMode f 0o600 = 0o600 := by
  unfold Directory.openedMode
  cases he : d.file f with
  | none => rfl
  | some e => exact h.key f e hf he

theorem Private.writing_key (h : Private d) (hm : d.mode = some 0o700) (hf : Secret f)
    {contents : X.Contents} (hw : Writing d f contents 0o600 0o600 s) : Private s := by
  cases hw with
  | truncated => exact h.set hm (fun _ => h.openedMode hf) fun hn => absurd hf hn
  | filled => exact h.set hm (fun _ => h.openedMode hf) fun hn => absurd hf hn
  | closed => exact h.set hm (fun _ => rfl) fun hn => absurd hf hn

theorem Private.writing_cert (h : Private d) (hm : d.mode = some 0o700) (hf : ¬ Secret f)
    {cert : Certificate X.PublicKey X.Signature} {created mode : Nat}
    (hw : Writing d f (X.certPem cert) created mode s) : Private s := by
  cases hw with
  | truncated => exact h.set hm (fun hs => absurd hs hf) fun _ => .inl rfl
  | filled => exact h.set hm (fun hs => absurd hs hf) fun _ => .inr ⟨cert, rfl⟩
  | closed => exact h.set hm (fun hs => absurd hs hf) fun _ => .inr ⟨cert, rfl⟩

theorem Private.writingPair (h : Private d) (hm : d.mode = some 0o700) {keyFile certFile : File}
    (hk : Secret keyFile) (hc : ¬ Secret certFile) {key : X.PrivateKey}
    {cert : Certificate X.PublicKey X.Signature} (hw : WritingPair d keyFile certFile key cert s) :
    Private s := by
  cases hw with
  | key hw => exact h.writing_key hm hk hw
  | cert hw => exact (h.writing_key hm hk .closed).writing_cert hm hc hw

theorem not_secret_caPem : ¬ Secret .caPem := by
  rintro (h | h) <;> cases h

theorem not_secret_serverPem : ¬ Secret .serverPem := by
  rintro (h | h) <;> cases h

/-- **A call keeps the keys private at every cut.** -/
theorem private_cut (h : Private d) {c : Call X} (hc : Cut d c s) : Private s := by
  have hopened : Private d.opened := h.of_files (fun _ => .inl rfl) fun _ _ => rfl
  cases hc with
  | untouched c => exact h
  | mode creds fqdn ipAddresses caDraw leafDraw s hs =>
    rcases hs with rfl | rfl
    · refine h.of_files (fun _ => .inl rfl) fun _ hm => ?_
      show some (d.mode.getD 0o777) = some 0o700
      rw [hm]
      rfl
    · exact hopened
  | ca creds fqdn ipAddresses caDraw leafDraw s hca hw =>
    exact hopened.writingPair rfl (.inl rfl) not_secret_caPem hw
  | leaf creds fqdn ipAddresses caDraw leafDraw leaf s hca hleaf hw =>
    exact hopened.writingPair rfl (.inr rfl) not_secret_serverPem hw
  | first creds fqdn ipAddresses caDraw leafDraw leaf s hca hleaf hw =>
    have hnew : Private (d.opened.newCa creds caDraw) :=
      hopened.writingPair rfl (.inl rfl) not_secret_caPem
        (.cert .closed : WritingPair _ _ _ _ (caCert X creds.caCommonName caDraw) _)
    exact hnew.writingPair rfl (.inr rfl) not_secret_serverPem hw
  | rotated fqdn ipAddresses draw leaf s hca hleaf hw =>
    exact h.writingPair (h.directory _ hca.1) (.inr rfl) not_secret_serverPem hw

theorem private_happen (h : Private d) (x : Happening X) : Private (happen d x) := by
  cases x with
  | call c => exact private_cut h (call_cut d c)
  | crash c k => exact private_cut h (interrupted_cut d c k)
  | delete files =>
    refine h.of_files (fun f => ?_) fun _ hm => hm
    by_cases hf : f ∈ files
    · exact .inr (if_pos hf)
    · exact .inl (if_neg hf)

theorem Writing.mode {contents : X.Contents} {created mode : Nat}
    (h : Writing d f contents created mode s) : s.mode = d.mode := by
  cases h <;> rfl

theorem WritingPair.mode {keyFile certFile : File} {key : X.PrivateKey}
    {cert : Certificate X.PublicKey X.Signature} (h : WritingPair d keyFile certFile key cert s) :
    s.mode = d.mode := by
  cases h with
  | key h => exact h.mode
  | cert h => exact h.mode

/-- In a closed directory nothing is exposed. -/
theorem not_exposed_of_closed {key : X.PrivateKey} (hm : s.mode = some 0o700) :
    ¬ Exposed f key s := by
  rintro ⟨e, -, -, mode, hmode, hsearch, -⟩
  obtain rfl := Option.some.inj (hm.symm.trans hmode)
  exact hsearch (by decide)

/-- A file that a call has left alone does not expose the key it drew. -/
theorem not_exposed_of_same {key : X.PrivateKey} (hfresh : d.contents f ≠ some (X.keyPem key))
    (hf : s.file f = d.file f) : ¬ Exposed f key s := by
  rintro ⟨e, he, hc, -⟩
  refine hfresh ?_
  unfold Directory.contents
  rw [← hf, he, ← hc]
  rfl

/-- A key file whose mode was set is not readable. -/
theorem not_exposed_of_set {key : X.PrivateKey} (hs : s.file f = some ⟨X.keyPem key, 0o600⟩) :
    ¬ Exposed f key s := by
  rintro ⟨e, hfile, -, mode, -, -, hread⟩
  rw [hs] at hfile
  obtain rfl := Option.some.inj hfile
  exact hread (show 0o600 &&& 0o044 = 0 by decide)

/-- While a key is written it is exposed only where its file was loose. -/
theorem loose_of_writing {keyFile certFile : File} (hne : keyFile ≠ certFile) {key : X.PrivateKey}
    {cert : Certificate X.PublicKey X.Signature} (h : WritingPair d keyFile certFile key cert s)
    (he : Exposed keyFile key s) : Loose keyFile d := by
  -- until the mode is set the file has the one it had before
  have hopened {contents : X.Contents}
      (he : Exposed keyFile key (d.set keyFile (some ⟨contents, d.openedMode keyFile 0o600⟩))) :
      Loose keyFile d := by
    obtain ⟨e, hfile, -, mode, hmode, hsearch, hread⟩ := he
    rw [set_file, if_pos rfl] at hfile
    obtain rfl := Option.some.inj hfile
    have hread : ((d.file keyFile).map Entry.mode).getD 0o600 &&& 0o044 ≠ 0 := hread
    cases hd : d.file keyFile with
    | none =>
      rw [hd] at hread
      exact absurd (show 0o600 &&& 0o044 = 0 by decide) hread
    | some e =>
      rw [hd] at hread
      exact ⟨e, hd, mode, hmode, hsearch, hread⟩
  cases h with
  | key h =>
    cases h with
    | truncated => exact hopened he
    | filled => exact hopened he
    | closed =>
      refine absurd he (not_exposed_of_set ?_)
      rw [set_file, if_pos rfl]
  | cert h =>
    refine absurd he (not_exposed_of_set ?_)
    rw [h.other hne, set_file, if_pos rfl]

/-- An `ensure` has closed the directory before it writes a key. -/
theorem closed_of_ensure {creds : ServerCredentials} {fqdn : String} {ipAddresses : List String}
    {caDraw leafDraw : Draw X} (hc : Cut d (.ensure creds fqdn ipAddresses caDraw leafDraw) s) :
    (∀ f, s.file f = d.file f) ∨ s.mode = some 0o700 := by
  cases hc with
  | untouched c => exact .inl fun _ => rfl
  | mode creds fqdn ipAddresses caDraw leafDraw s hs =>
    rcases hs with rfl | rfl <;> exact .inl fun _ => rfl
  | ca creds fqdn ipAddresses caDraw leafDraw s hca hw => exact .inr hw.mode
  | leaf creds fqdn ipAddresses caDraw leafDraw leaf s hca hleaf hw => exact .inr hw.mode
  | first creds fqdn ipAddresses caDraw leafDraw leaf s hca hleaf hw => exact .inr hw.mode

/-- A key that an `ensure` draws is never exposed. -/
theorem not_exposed_of_ensure {creds : ServerCredentials} {fqdn : String} {ipAddresses : List String}
    {caDraw leafDraw : Draw X} (hc : Cut d (.ensure creds fqdn ipAddresses caDraw leafDraw) s)
    {key : X.PrivateKey} (hfresh : d.contents f ≠ some (X.keyPem key)) : ¬ Exposed f key s := by
  rcases closed_of_ensure hc with hsame | hm
  · exact not_exposed_of_same hfresh (hsame f)
  · exact not_exposed_of_closed hm

/-- A rotation leaves the mode of the directory alone, wherever it is cut. -/
theorem mode_of_rotate {fqdn : String} {ipAddresses : List String} {draw : Draw X}
    (hc : Cut d (.rotate fqdn ipAddresses draw) s) : s.mode = d.mode := by
  cases hc with
  | untouched c => rfl
  | rotated fqdn ipAddresses draw leaf s hca hleaf hw => exact hw.mode

/-- A cut that exposes the key of the leaf is one of a rotation, and found the file loose. -/
theorem loose_of_cut {c : Call X} (hc : Cut d c s)
    (hfresh : d.contents .serverKey ≠ some (X.keyPem c.draw.key))
    (he : Exposed .serverKey c.draw.key s) :
    (∃ fqdn ipAddresses draw, c = .rotate fqdn ipAddresses draw) ∧ Loose .serverKey d := by
  cases c with
  | ensure creds fqdn ipAddresses caDraw leafDraw =>
    exact absurd he (not_exposed_of_ensure hc hfresh)
  | rotate fqdn ipAddresses draw =>
    refine ⟨⟨_, _, _, rfl⟩, ?_⟩
    cases hc with
    | untouched c => exact absurd he (not_exposed_of_same hfresh rfl)
    | rotated fqdn ipAddresses draw leaf s hca hleaf hw => exact loose_of_writing (by decide) hw he

/-- Cut after the key is written, a rotation that writes a leaf shows the key with the file's
mode. -/
theorem exposed_of_loose {fqdn : String} {ipAddresses : List String} {draw : Draw X}
    (hopens : Opens .serverKey ((rotateServerCert fqdn ipAddresses draw).exec d).1)
    (hloose : Loose .serverKey d) :
    ∃ k, Exposed .serverKey draw.key (interrupted d (.rotate fqdn ipAddresses draw) k) := by
  let c : Call X := .rotate fqdn ipAddresses draw
  have hopens : Opens .serverKey (c.op.exec d).1 := hopens
  obtain ⟨pre, leaf, hes, hpre, rfl | ⟨cert, rfl, -, -⟩⟩ := emits_call c d
  · rw [hes, List.append_nil] at hopens
    exact absurd hopens (not_opens_elsewhere hpre (by decide))
  refine ⟨pre.length + 2, ?_⟩
  have hs : interrupted d c (pre.length + 2) =
      run Stepped.apply (run Stepped.apply d pre)
        [.openTruncate .serverKey 0o600, .write .serverKey (X.keyPem c.draw.key)] := by
    show run Stepped.apply d ((c.op.exec d).1.take _) = _
    rw [hes, List.take_length_add_append, run_append]
    rfl
  have hfile : (run Stepped.apply d pre).file .serverKey = d.file .serverKey :=
    run_elsewhere hpre d (by decide)
  obtain ⟨e, he, mode, hmode, hsearch, hread⟩ := hloose
  have hmode' : (interrupted d c (pre.length + 2)).mode = some mode :=
    (mode_of_rotate (interrupted_cut d c _)).trans hmode
  rw [← hfile] at he
  refine ⟨⟨X.keyPem c.draw.key, e.mode⟩, ?_, rfl, mode, hmode', hsearch, hread⟩
  rw [hs]
  generalize run Stepped.apply d pre = d' at he
  simp [run, Stepped.apply, Directory.apply, he]

/-- A call that writes a leaf leaves its key with mode 0600. -/
theorem mode_of_opens {c : Call X} (hopens : Opens .serverKey (c.op.exec d).1) :
    (call d c).file .serverKey = some ⟨X.keyPem c.draw.key, 0o600⟩ := by
  obtain ⟨pre, leaf, hes, hpre, rfl | ⟨cert, rfl, -, -⟩⟩ := emits_call c d
  · rw [hes, List.append_nil] at hopens
    exact absurd hopens (not_opens_elsewhere hpre (by decide))
  have hcall : call d c = ((run Stepped.apply d pre).set .serverKey
      (some ⟨X.keyPem c.draw.key, 0o600⟩)).set .serverPem (some ⟨X.certPem cert, 0o644⟩) := by
    show run Stepped.apply d (c.op.exec d).1 = _
    rw [hes, run_append, run_append]
    show run Stepped.apply (run Stepped.apply _ (fileSteps ..)) (fileSteps ..) = _
    have hfile (d : Directory X) (f : File) (contents : X.Contents) (created mode : Nat) :
        run Stepped.apply d (fileSteps f contents created mode) =
          d.set f (some ⟨contents, mode⟩) := writeFile_final d f contents created mode
    rw [hfile, hfile]
  rw [hcall, set_file, if_neg (by decide), set_file, if_pos rfl]

end

/-! ## Top theorems (proved from the lemmas above) -/

/-- **Private keys stay private**, in every history of calls, of calls that are cut off between two
of their steps, and of deletions, from an empty directory: every key file has mode 0600, the
directory 0700 once it holds a file, and the other files hold nothing but a certificate. -/
theorem keys_private (X : Cryptography) (mode : Option Nat) (hs : List (Happening X)) :
    Private (run happen (Directory.empty mode) hs) :=
  Runs.invariant happen (I := Private) (fun _ x h => private_happen h x) (private_empty mode) hs

/-- **A new key is exposed exactly by a rotation into a file that could be read.**  Whatever the
directory was: some cut of a call leaves the new key of the leaf where the modes let the group or
others read it exactly when the call is a rotation that writes a leaf, and the modes of the
directory and of `server.key` let them read the old one.  A call that writes a leaf leaves its key
with mode 0600, and an `ensure` never exposes the key of a new CA. -/
theorem exposed_iff (X : Cryptography) (d : Directory X) (c : Call X)
    (hfresh : d.contents .serverKey ≠ some (X.keyPem c.draw.key)) :
    ((∃ k, Exposed .serverKey c.draw.key (interrupted d c k)) ↔
      (∃ fqdn ipAddresses draw, c = .rotate fqdn ipAddresses draw) ∧
        Opens .serverKey (c.op.exec d).1 ∧ Loose .serverKey d) ∧
    (Opens .serverKey (c.op.exec d).1 →
      (call d c).file .serverKey = some ⟨X.keyPem c.draw.key, 0o600⟩) ∧
    (∀ creds fqdn ipAddresses caDraw leafDraw, c = .ensure creds fqdn ipAddresses caDraw leafDraw →
      d.contents .caKey ≠ some (X.keyPem caDraw.key) →
      ∀ k, ¬ Exposed .caKey caDraw.key (interrupted d c k)) := by
  refine ⟨⟨?_, ?_⟩, mode_of_opens, ?_⟩
  · rintro ⟨k, he⟩
    obtain ⟨hrotate, hloose⟩ := loose_of_cut (interrupted_cut d c k) hfresh he
    refine ⟨hrotate, ?_, hloose⟩
    by_contra hno
    -- a call that writes no leaf leaves the file alone
    obtain ⟨pre, leaf, hes, hpre, rfl | ⟨cert, rfl, -, -⟩⟩ := emits_call c d
    · refine not_exposed_of_same hfresh (run_elsewhere (fun e he => hpre e ?_) d (by decide)) he
      rw [hes, List.append_nil] at he
      exact List.mem_of_mem_take he
    · refine hno ?_
      rw [hes, opens_append, opens_append]
      exact .inr (.inl ⟨0o600, List.mem_cons_self⟩)
  · rintro ⟨⟨fqdn, ipAddresses, draw, rfl⟩, hopens, hloose⟩
    exact exposed_of_loose hopens hloose
  · rintro creds fqdn ipAddresses caDraw leafDraw rfl hfreshCa k
    exact not_exposed_of_ensure (interrupted_cut d _ k) hfreshCa

/-- The credentials of somebody who opened the directory and the key of the leaf to others. -/
def looseKey : Directory symbolic :=
  { (call (Directory.empty none) (symbolicEnsure "localhost" 1)).set .serverKey
      (some ⟨.key 2, 0o644⟩) with mode := some 0o755 }

/-- A rotation exposes its key there, and leaves it private. -/
theorem looseKey_exposed :
    let c : Call symbolic := .rotate "localhost" [] (symbolicDraw 5)
    (∃ k, Exposed .serverKey (X := symbolic) (5 : Nat) (interrupted looseKey c k)) ∧
      (call looseKey c).file .serverKey = some ⟨.key 5, 0o600⟩ := by
  intro c
  have hfresh : looseKey.contents .serverKey ≠ some (.key 5) := by
    rw [show looseKey.contents .serverKey = some (.key 2) from rfl]
    intro h
    cases h
  obtain ⟨hiff, hmode, -⟩ := exposed_iff symbolic looseKey c hfresh
  have hopens : Opens .serverKey (c.op.exec looseKey).1 := by
    refine ⟨0o600, ?_⟩
    show _ ∈ keySteps (X := symbolic) .serverKey (5 : Nat) ++ certSteps .serverPem _
    exact List.mem_cons_self
  have hloose : Loose .serverKey looseKey := ⟨⟨.key 2, 0o644⟩, rfl, 0o755, rfl, by decide, by decide⟩
  exact ⟨hiff.mpr ⟨⟨_, _, _, rfl⟩, hopens, hloose⟩, hmode hopens⟩

end Certs

end FleetTelemetry
