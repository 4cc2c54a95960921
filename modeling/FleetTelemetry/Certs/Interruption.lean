import FleetTelemetry.Certs.Coherence
import FleetTelemetry.Certs.Idempotence

/-!
# Interrupted calls

A crash or an `OSError` between two file-system steps leaves the directory after some
of a call's steps.  The steps of a leaf come last, the key before the certificate:

    … | open key, write key, chmod key | open cert, write cert, chmod cert

Cut on the right of the key's `open` and on the left of the certificate's, a leaf that
was there has lost its key, and an `ensure` that finds its host covered does not see it:

    later ensures leave a matching pair ↔ ¬ (Torn ∧ the leaf covers a host)
                                                   (matches_after_interruption_iff)
-/

namespace FleetTelemetry

namespace Certs

open IpAddress StepProgram Runs Directory

variable {X : Cryptography}

/-! ## Algorithm -/

/-- The steps that write a file. -/
def fileSteps (f : File) (contents : X.Contents) (created mode : Nat) : List (FsStep X) :=
  [.openTruncate f created, .write f contents, .chmod f mode]

/-- The steps of `_write_key`. -/
def keySteps (f : File) (key : X.PrivateKey) : List (FsStep X) :=
  fileSteps f (X.keyPem key) 0o600 0o600

/-- The steps of `_write_cert`. -/
def certSteps (f : File) (cert : Certificate X.PublicKey X.Signature) : List (FsStep X) :=
  fileSteps f (X.certPem cert) 0o666 0o644

/-- The draw of the leaf. -/
def Call.draw : Call X → Draw X
  | .ensure _ _ _ _ leafDraw => leafDraw
  | .rotate _ _ draw => draw

/-- The directory when the call is interrupted after `k` file-system steps. -/
def interrupted (d : Directory X) (c : Call X) (k : Nat) : Directory X := c.op.cut k d

/-- The steps open and truncate `f`. -/
def Opens (f : File) (es : List (FsStep X)) : Prop := ∃ mode, .openTruncate f mode ∈ es

/-- The interruption comes after the call opened `server.key`, and before it opens `server.pem`. -/
def Torn (d : Directory X) (c : Call X) (k : Nat) : Prop :=
  Opens .serverKey ((c.op.exec d).1.take k) ∧ ¬ Opens .serverPem ((c.op.exec d).1.take k)

/-- A step that leaves the leaf alone. -/
def Elsewhere : FsStep X → Prop
  | .mkdir | .chmodDirectory _ => True
  | .openTruncate f _ | .write f _ | .chmod f _ => f = .caPem ∨ f = .caKey

/-- The steps that write a leaf with the key of the draw. -/
def LeafSteps (draw : Draw X) (es : List (FsStep X)) : Prop :=
  ∃ cert, es = keySteps .serverKey draw.key ++ certSteps .serverPem cert ∧
    cert.tbs.storable = true ∧ cert.tbs.publicKey = X.publicKey draw.key

/-- The steps of a call: some elsewhere, and then those of a leaf, or none. -/
def LeafLast (draw : Draw X) (es : List (FsStep X)) : Prop :=
  ∃ pre leaf, es = pre ++ leaf ∧ (∀ e ∈ pre, Elsewhere e) ∧ (leaf = [] ∨ LeafSteps draw leaf)

/-- A leaf that covers a host has its key beside it. -/
def Matched (d : Directory X) : Prop :=
  ∀ leaf fqdn, d.cert .serverPem = some leaf → sanCovers leaf fqdn = true → d.has .serverKey →
    KeyMatches d

/-! ## Lemmas -/

/-! ### Steps -/

theorem silent_pathExists (f : File) : Silent (pathExists f : Op X Bool) := Silent.read _

theorem silent_readBytes (f : File) : Silent (readBytes f : Op X X.Contents) :=
  (Silent.read _).bind fun _ => Silent.orRaise _ _

theorem silent_loadCert (f : File) : Silent (loadCert f : Op X _) :=
  (silent_readBytes f).bind fun _ => Silent.orRaise _ _

theorem silent_loadEcKey (f : File) : Silent (loadEcKey f : Op X _) := by
  refine (silent_readBytes f).bind fun _ => (Silent.orRaise _ _).bind fun loaded => ?_
  cases loaded with
  | ec key => exact Emits.pure rfl
  | other => exact Emits.raise rfl

/-- The key first, then the certificate. -/
theorem emits_write (f g : File) (key : X.PrivateKey) (cert : Certificate X.PublicKey X.Signature) :
    Emits (do writeKey f key; writeCert g cert : Op X Unit) fun r es =>
      r = .ok () ∧ es = keySteps f key ++ certSteps g cert := fun _ => ⟨rfl, rfl⟩

theorem emits_createLeaf (fqdn : String) (ipAddresses : List String) (draw : Draw X) :
    Emits (createLeaf fqdn ipAddresses draw : Op X Unit) fun _ es =>
      es = [] ∨ LeafSteps draw es := by
  unfold createLeaf
  split
  · exact Emits.raise (.inl rfl)
  · refine .bind_silent (silent_loadCert _) (fun _ => .inl rfl) fun caCert => ?_
    refine .bind_silent (silent_loadEcKey _) (fun _ => .inl rfl) fun caKey => ?_
    refine .bind_silent (Silent.orRaise _ _) (fun _ => .inl rfl) fun caSki => ?_
    refine .bind_silent (Silent.orRaise _ _) (fun _ => .inl rfl) fun subject => ?_
    refine .bind_silent (Silent.orRaise _ _) (fun _ => .inl rfl) fun names => ?_
    refine (emits_write _ _ _ _).consequence fun r es h => .inr ⟨_, h.2, ?_, rfl⟩
    exact leafTbs_storable ..

theorem elsewhere_write {f g : File} (hf : f = .caPem ∨ f = .caKey) (hg : g = .caPem ∨ g = .caKey)
    (key : X.PrivateKey) (cert : Certificate X.PublicKey X.Signature) :
    ∀ e ∈ keySteps f key ++ certSteps g cert, Elsewhere e := by
  intro e he
  simp only [keySteps, certSteps, fileSteps, List.cons_append, List.nil_append, List.mem_cons,
    List.not_mem_nil, or_false] at he
  rcases he with rfl | rfl | rfl | rfl | rfl | rfl
  · exact hf
  · exact hf
  · exact hf
  · exact hg
  · exact hg
  · exact hg

theorem emits_createCa (creds : ServerCredentials) (draw : Draw X) :
    Emits (createCa creds draw : Op X Unit) fun _ es => ∀ e ∈ es, Elsewhere e := by
  unfold createCa
  split
  · exact Emits.raise (List.forall_mem_nil _)
  · refine (emits_write _ _ _ _).consequence fun r es h => ?_
    rw [h.2]
    exact elsewhere_write (.inr rfl) (.inl rfl) _ _

theorem emits_ensureCa (creds : ServerCredentials) (draw : Draw X) :
    Emits (ensureCa creds draw : Op X Bool) fun _ es => ∀ e ∈ es, Elsewhere e := by
  unfold ensureCa
  refine .bind_silent (silent_pathExists _) (fun _ => List.forall_mem_nil _) fun certExists => ?_
  refine .bind_silent (silent_pathExists _) (fun _ => List.forall_mem_nil _) fun keyExists => ?_
  split
  · exact Emits.pure (List.forall_mem_nil _)
  · split
    · exact Emits.raise (List.forall_mem_nil _)
    · refine .bind (emits_createCa creds draw) (fun _ _ h => h) fun _ es h => Emits.pure ?_
      rw [List.append_nil]
      exact h

theorem leafLast_of_elsewhere {draw : Draw X} {es : List (FsStep X)} (h : ∀ e ∈ es, Elsewhere e) :
    LeafLast draw es := ⟨es, [], (List.append_nil es).symm, h, .inl rfl⟩

/-- **The leaf comes last in the steps of every call.** -/
theorem emits_call (c : Call X) : Emits c.op fun _ es => LeafLast c.draw es := by
  cases c with
  | ensure creds fqdn ipAddresses caDraw leafDraw =>
    have hopen : ∀ e ∈ ([.mkdir, .chmodDirectory 0o700] : List (FsStep X)), Elsewhere e := by
      simp [Elsewhere]
    show Emits (Certs.ensure creds fqdn ipAddresses caDraw leafDraw) _
    unfold Certs.ensure
    refine .bind (U := fun _ es => es = [.mkdir, .chmodDirectory 0o700]) (fun _ => rfl) ?_ ?_
    · rintro _ es rfl
      exact leafLast_of_elsewhere hopen
    rintro _ es rfl
    refine .bind (emits_ensureCa creds caDraw) (fun _ es h => ?_) fun caCreated es h => ?_
    · exact leafLast_of_elsewhere (List.forall_mem_append.mpr ⟨hopen, h⟩)
    -- whatever `ensure` goes on with, it writes the leaf or nothing
    have hgo (es' : List (FsStep X)) (h' : es' = [] ∨ LeafSteps leafDraw es') :
        LeafLast leafDraw ([.mkdir, .chmodDirectory 0o700] ++ (es ++ es')) :=
      ⟨_, es', (List.append_assoc ..).symm, List.forall_mem_append.mpr ⟨hopen, h⟩, h'⟩
    have hnone := hgo [] (.inl rfl)
    have hleaf : Emits (createLeaf fqdn ipAddresses leafDraw : Op X Unit) fun _ es' =>
        LeafLast leafDraw ([.mkdir, .chmodDirectory 0o700] ++ (es ++ es')) :=
      (emits_createLeaf fqdn ipAddresses leafDraw).consequence fun _ es' h' => hgo es' h'
    refine .bind_silent (silent_pathExists _) (fun _ => hnone) fun certExists => ?_
    refine .bind_silent (silent_pathExists _) (fun _ => hnone) fun keyExists => ?_
    split
    · exact hleaf
    · refine .bind_silent (silent_loadCert _) (fun _ => hnone) fun cert => ?_
      split
      · exact Emits.pure hnone
      · exact hleaf
  | rotate fqdn ipAddresses draw =>
    have hnone : LeafLast draw [] := leafLast_of_elsewhere (List.forall_mem_nil _)
    show Emits (rotateServerCert fqdn ipAddresses draw) _
    unfold rotateServerCert
    refine .bind_silent (silent_pathExists _) (fun _ => hnone) fun certExists => ?_
    refine .bind_silent (silent_pathExists _) (fun _ => hnone) fun keyExists => ?_
    split
    · exact Emits.raise hnone
    · exact (emits_createLeaf fqdn ipAddresses draw).consequence fun _ es h =>
        ⟨[], es, rfl, List.forall_mem_nil _, h⟩

/-! ### Interruptions -/

/-- Steps that leave a file alone, one after the other. -/
theorem run_frame {f : File} {P : FsStep X → Prop}
    (hstep : ∀ d e, P e → (Directory.apply d e).file f = d.file f) (d : Directory X)
    {es : List (FsStep X)} (h : ∀ e ∈ es, P e) : (run Stepped.apply d es).file f = d.file f :=
  Along.invariant Stepped.apply (fun _ e => P e) (I := fun s : Directory X => s.file f = d.file f)
    (fun s e hs he => (hstep s e he).trans hs) rfl ((along_of_forall _ _ _).mpr h)

theorem run_elsewhere {es : List (FsStep X)} (h : ∀ e ∈ es, Elsewhere e) (d : Directory X) {f : File}
    (hf : f ≠ .caPem ∧ f ≠ .caKey) : (run Stepped.apply d es).file f = d.file f := by
  refine run_frame (fun d e he => ?_) d h
  have hne {g : File} (hg : g = .caPem ∨ g = .caKey) : f ≠ g := by
    rcases hg with rfl | rfl
    · exact hf.1
    · exact hf.2
  cases e with
  | mkdir | chmodDirectory => rfl
  | openTruncate g mode => exact (set_file ..).trans (if_neg (hne he))
  | write g contents => exact (set_file ..).trans (if_neg (hne he))
  | chmod g mode => exact (set_file ..).trans (if_neg (hne he))

theorem not_opens_elsewhere {es : List (FsStep X)} (h : ∀ e ∈ es, Elsewhere e) {f : File}
    (hf : f ≠ .caPem ∧ f ≠ .caKey) : ¬ Opens f es := by
  rintro ⟨mode, hmem⟩
  rcases h _ hmem with rfl | rfl
  · exact hf.1 rfl
  · exact hf.2 rfl

/-- No step removes a file. -/
theorem has_apply {d : Directory X} {f : File} (h : d.has f) (e : FsStep X) : (d.apply e).has f := by
  unfold Directory.has at h ⊢
  cases e with
  | mkdir | chmodDirectory => exact h
  | openTruncate g mode =>
    unfold Directory.apply
    rw [set_file]
    split
    · rfl
    · exact h
  | write g contents | chmod g mode =>
    unfold Directory.apply
    rw [set_file]
    split
    · next hg => rw [Option.isSome_map, ← hg, h]
    · exact h

theorem has_run {d : Directory X} {f : File} (h : d.has f) (es : List (FsStep X)) :
    (run Stepped.apply d es).has f :=
  Runs.invariant Stepped.apply (I := fun s : Directory X => s.has f) (fun _ e h => has_apply h e) h es

theorem cert_contents (d : Directory X) (f : File) : d.cert f = (d.contents f).bind X.loadCert := by
  unfold Directory.cert Directory.contents
  cases d.file f <;> rfl

theorem key_contents (d : Directory X) (f : File) :
    d.key f = ((d.contents f).bind X.loadKey).bind LoadedKey.ecKey := by
  unfold Directory.key Directory.contents
  cases d.file f <;> rfl

/-- A file that is being written is empty or has its contents; no other file changes. -/
theorem file_cut (d : Directory X) (f : File) (contents : X.Contents) (created mode j : Nat) :
    let s := run Stepped.apply d ((fileSteps f contents created mode).take (j + 1))
    (∀ g, g ≠ f → s.file g = d.file g) ∧
      (s.contents f = some X.empty ∨ s.contents f = some contents) := by
  intro s
  constructor
  · intro g hg
    refine run_frame (P := (· ∈ fileSteps f contents created mode)) (fun d e he => ?_) d
      fun e he => List.mem_of_mem_take he
    simp only [fileSteps, List.mem_cons, List.not_mem_nil, or_false] at he
    rcases he with rfl | rfl | rfl <;> exact (set_file ..).trans (if_neg hg)
  · unfold Directory.contents
    rcases j with _ | _ | j
    · left
      simp [s, fileSteps, run, Stepped.apply, Directory.apply]
    · right
      simp [s, fileSteps, run, Stepped.apply, Directory.apply]
    · right
      simp [s, fileSteps, run, Stepped.apply, Directory.apply]

theorem file_written (d : Directory X) (f : File) (contents : X.Contents) (created mode : Nat) :
    (run Stepped.apply d (fileSteps f contents created mode)).contents f = some contents := by
  have hrun : run Stepped.apply d (fileSteps f contents created mode) =
      d.set f (some ⟨contents, mode⟩) := writeFile_final d f contents created mode
  unfold Directory.contents
  rw [hrun, set_file, if_pos rfl]
  rfl

theorem opens_cut (f g : File) (contents : X.Contents) (created mode j : Nat) :
    Opens f ((fileSteps g contents created mode).take (j + 1)) ↔ f = g := by
  constructor
  · rintro ⟨m, hm⟩
    have hm := List.mem_of_mem_take hm
    simp only [fileSteps, List.mem_cons, FsStep.openTruncate.injEq, List.not_mem_nil, or_false,
      reduceCtorEq] at hm
    exact hm.1
  · rintro rfl
    exact ⟨created, by simp [fileSteps]⟩

theorem opens_append (f : File) (es fs : List (FsStep X)) :
    Opens f (es ++ fs) ↔ Opens f es ∨ Opens f fs := by
  unfold Opens
  simp only [List.mem_append, exists_or]

/-- The steps of a leaf, cut after the first or later: the certificate is as it was, or it is empty,
or written beside its key. -/
theorem leaf_cut (d : Directory X) (key : X.PrivateKey) (cert : Certificate X.PublicKey X.Signature)
    (j : Nat) :
    let es := (keySteps .serverKey key ++ certSteps .serverPem cert).take (j + 1)
    let s := run Stepped.apply d es
    Opens .serverKey es ∧
      ((¬ Opens .serverPem es ∧ s.file .serverPem = d.file .serverPem ∧
          (s.contents .serverKey = some X.empty ∨ s.contents .serverKey = some (X.keyPem key))) ∨
        (Opens .serverPem es ∧ (s.contents .serverPem = some X.empty ∨
          (s.contents .serverPem = some (X.certPem cert) ∧
            s.contents .serverKey = some (X.keyPem key))))) := by
  intro es s
  by_cases hj : j + 1 ≤ 3
  · -- the key is being written
    have hes : es = (keySteps .serverKey key).take (j + 1) :=
      List.take_append_of_le_length hj
    obtain ⟨hother, hkey⟩ := file_cut d .serverKey (X.keyPem key) 0o600 0o600 j
    have hs : s =
        run Stepped.apply d ((fileSteps .serverKey (X.keyPem key) 0o600 0o600).take (j + 1)) :=
      congrArg (run Stepped.apply d) hes
    rw [← hs] at hother hkey
    rw [hes]
    refine ⟨(opens_cut ..).mpr rfl, .inl ⟨?_, hother .serverPem (by decide), hkey⟩⟩
    intro h
    cases (opens_cut ..).mp h
  · -- the key is written, and the certificate is being written
    obtain ⟨i, rfl⟩ : ∃ i, j = 3 + i := ⟨j - 3, by omega⟩
    have hes : es = keySteps .serverKey key ++ (certSteps .serverPem cert).take (i + 1) := by
      show List.take ((keySteps .serverKey key : List (FsStep X)).length + (i + 1)) _ = _
      rw [List.take_length_add_append]
    set d' := run Stepped.apply d (keySteps .serverKey key) with hd'
    have hkey : d'.contents .serverKey = some (X.keyPem key) := file_written d ..
    obtain ⟨hother, hcert⟩ := file_cut d' .serverPem (X.certPem cert) 0o666 0o644 i
    have hs : s = run Stepped.apply d'
        ((fileSteps .serverPem (X.certPem cert) 0o666 0o644).take (i + 1)) := by
      show run Stepped.apply d es = _
      rw [hes, run_append]
      rfl
    rw [← hs] at hother hcert
    have hkeyS : s.contents .serverKey = some (X.keyPem key) := by
      rw [← hkey]
      exact congrArg (Option.map Entry.contents) (hother .serverKey (by decide))
    rw [hes]
    refine ⟨(opens_append ..).mpr (.inl ?_), .inr ⟨(opens_append ..).mpr (.inr ?_), ?_⟩⟩
    · exact (opens_cut _ .serverKey (X.keyPem key) 0o600 0o600 2).mpr rfl
    · exact (opens_cut ..).mpr rfl
    · exact hcert.imp_right fun h => ⟨h, hkeyS⟩

/-- Where an interrupted call leaves the leaf. -/
inductive Left (d : Directory X) (c : Call X) (k : Nat) (s : Directory X) : Prop where
  | untouched (hsk : ¬ Opens .serverKey ((c.op.exec d).1.take k))
      (hcert : s.file .serverPem = d.file .serverPem) (hkey : s.file .serverKey = d.file .serverKey)
  | torn (h : Torn d c k) (hcert : s.file .serverPem = d.file .serverPem)
      (hkey : s.contents .serverKey = some X.empty ∨
        s.contents .serverKey = some (X.keyPem c.draw.key))
  | truncated (h : ¬ Torn d c k) (hcert : s.contents .serverPem = some X.empty)
  | written (h : ¬ Torn d c k) (hmatch : KeyMatches s)

theorem Matched.congr {d s : Directory X} (h : Matched d)
    (hcert : s.file .serverPem = d.file .serverPem)
    (hkey : s.file .serverKey = d.file .serverKey) : Matched s := by
  intro leaf fqdn hleaf hcovers hhas
  rw [cert_congr hcert] at hleaf
  exact (h leaf fqdn hleaf hcovers ((has_congr hkey).mp hhas)).congr hcert hkey

theorem left_of_elsewhere {d : Directory X} {c : Call X} {k : Nat}
    (h : ∀ e ∈ (c.op.exec d).1.take k, Elsewhere e) : Left d c k (interrupted d c k) :=
  .untouched (not_opens_elsewhere h (by decide)) (run_elsewhere h d (by decide))
    (run_elsewhere h d (by decide))

section
variable (hX : X.Documented)
include hX

/-- **What an interrupted call leaves.** -/
theorem left_interrupted (d : Directory X) (c : Call X) (k : Nat) :
    Left d c k (interrupted d c k) := by
  obtain ⟨pre, leaf, hes, hpre, rfl | ⟨cert, rfl, hstor, hpub⟩⟩ := emits_call c d
  · refine left_of_elsewhere fun e he => hpre e ?_
    rw [hes, List.append_nil] at he
    exact List.mem_of_mem_take he
  · by_cases hk : k ≤ pre.length
    · refine left_of_elsewhere fun e he => hpre e ?_
      rw [hes, List.take_append_of_le_length hk] at he
      exact List.mem_of_mem_take he
    · -- the leaf is reached
      obtain ⟨j, rfl⟩ : ∃ j, k = pre.length + (j + 1) := ⟨k - pre.length - 1, by omega⟩
      have htake : (c.op.exec d).1.take (pre.length + (j + 1)) =
          pre ++ (keySteps .serverKey c.draw.key ++ certSteps .serverPem cert).take (j + 1) := by
        rw [hes, List.take_length_add_append]
      have hs : interrupted d c (pre.length + (j + 1)) =
          run Stepped.apply (run Stepped.apply d pre)
            ((keySteps .serverKey c.draw.key ++ certSteps .serverPem cert).take (j + 1)) := by
        show run Stepped.apply d ((c.op.exec d).1.take _) = _
        rw [htake, run_append]
      have hopens (f : File) (hf : f ≠ .caPem ∧ f ≠ .caKey) :
          Opens f ((c.op.exec d).1.take (pre.length + (j + 1))) ↔
            Opens f ((keySteps .serverKey c.draw.key ++ certSteps .serverPem cert).take (j + 1)) := by
        rw [htake, opens_append]
        exact or_iff_right (not_opens_elsewhere hpre hf)
      have hcut := leaf_cut (run Stepped.apply d pre) c.draw.key cert j
      dsimp only at hcut
      rw [← hs, ← hopens .serverKey (by decide), ← hopens .serverPem (by decide)] at hcut
      obtain ⟨hsk, ⟨hp, hcert, hkey⟩ | ⟨hp, hcert⟩⟩ := hcut
      · exact .torn ⟨hsk, hp⟩ (hcert.trans (run_elsewhere hpre d (by decide))) hkey
      · have hno : ¬ Torn d c (pre.length + (j + 1)) := fun h => h.2 hp
        rcases hcert with hcert | ⟨hcert, hkey⟩
        · exact .truncated hno hcert
        · refine .written hno ⟨cert, c.draw.key, ?_, ?_, hpub⟩
          · rw [cert_contents, hcert]
            exact hX.loadCert_certPem cert hstor
          · rw [key_contents, hkey, Option.bind_some, hX.loadKey_keyPem]
            rfl

/-- Where `Matched` held, an `ensure` that returns leaves a matching pair. -/
theorem ensured_keyMatches {d s : Directory X} (hg : Matched d) {creds : ServerCredentials}
    {fqdn : String} {ipAddresses : List String} {caDraw leafDraw : Draw X}
    (h : Ensured d creds fqdn ipAddresses caDraw leafDraw s) : KeyMatches s := by
  cases h with
  | kept cert hca hserver hcert hcovers => exact hg cert fqdn hcert hcovers hserver.2
  | reissued s hca h => exact issueLeaf_keyMatches hX h
  | created s hca h => exact issueLeaf_keyMatches hX h

/-- A call keeps `Matched`. -/
theorem call_matched {d : Directory X} (hg : Matched d) (c : Call X) : Matched (call d c) := by
  by_cases hret : Returns d c
  · intro _ _ _ _ _
    cases c with
    | ensure creds fqdn ipAddresses caDraw leafDraw =>
      exact ensured_keyMatches hX hg (ensure_returned hret)
    | rotate fqdn ipAddresses draw => exact issueLeaf_keyMatches hX (rotate_returned hret).2.2
  · obtain ⟨hcert, hkey⟩ := (call_frame d c).2 hret
    exact hg.congr hcert hkey

/-- An interruption that is not torn leaves the directory `Matched`, and so does one of a leaf that
covers no host. -/
theorem matched_interrupted (hcert : X.loadCert X.empty = none) {d : Directory X} (hw : Whole d)
    {c : Call X} {k : Nat}
    (h : ¬ (Torn d c k ∧ ∃ leaf fqdn, d.cert .serverPem = some leaf ∧ sanCovers leaf fqdn = true)) :
    Matched (interrupted d c k) := by
  intro leaf fqdn hleaf hcovers hhas
  have hleft := left_interrupted hX d c k
  generalize interrupted d c k = s at hleft hleaf hhas
  cases hleft with
  | untouched hsk hp hk =>
    have hserver : d.has .serverPem := hw.server.mpr ((has_congr hk).mp hhas)
    exact (hw.chained hserver).2.congr hp hk
  | torn ht hp hk =>
    rw [cert_congr hp] at hleaf
    exact absurd ⟨ht, leaf, fqdn, hleaf, hcovers⟩ h
  | truncated ht hp =>
    rw [cert_contents, hp, Option.bind_some, hcert] at hleaf
    cases hleaf
  | written ht hm => exact hm

/-- A torn leaf that covers a host is kept by `ensure` for that host. -/
theorem torn_kept (hkey : X.loadKey X.empty = none) {d : Directory X} (hw : Whole d) {c : Call X}
    {k : Nat} (ht : Torn d c k) {leaf : Certificate X.PublicKey X.Signature} {fqdn : String}
    (hleaf : d.cert .serverPem = some leaf) (hcovers : sanCovers leaf fqdn = true)
    (hfresh : leaf.tbs.publicKey ≠ X.publicKey c.draw.key) (creds : ServerCredentials)
    (ipAddresses : List String) (caDraw leafDraw : Draw X) :
    Returns (interrupted d c k) (.ensure creds fqdn ipAddresses caDraw leafDraw) ∧
      ¬ KeyMatches (call (interrupted d c k) (.ensure creds fqdn ipAddresses caDraw leafDraw)) := by
  have hhas : d.has .serverPem := has_of_cert hleaf
  have hca := hw.issued hhas
  have hstill {f : File} (h : d.has f) : (interrupted d c k).has f := has_run h _
  have hleft := left_interrupted hX d c k
  generalize interrupted d c k = s at hleft hstill ⊢
  cases hleft with
  | untouched hsk hp hk => exact absurd ht.1 hsk
  | truncated hno hp => exact absurd ht hno
  | written hno hm => exact absurd ht hno
  | torn ht hp hk =>
    obtain ⟨hret, hkept⟩ := ensure_kept ⟨hstill hca, hstill (hw.ca.mp hca)⟩
      ⟨hstill hhas, hstill (hw.server.mp hhas)⟩ ((cert_congr hp).trans hleaf) hcovers creds
      ipAddresses caDraw leafDraw
    refine ⟨hret, ?_⟩
    rw [hkept]
    rintro ⟨leaf', key, hleaf', hkey', hpub⟩
    have hkeyS : s.key .serverKey = some key := hkey'
    obtain rfl : leaf = leaf' := by
      have hcertS : s.cert .serverPem = some leaf' := hleaf'
      rw [cert_congr hp, hleaf] at hcertS
      exact Option.some.inj hcertS
    -- the key file is empty, or holds the new key
    rw [key_contents] at hkeyS
    rcases hk with hk | hk
    · rw [hk, Option.bind_some, hkey] at hkeyS
      cases hkeyS
    · rw [hk, Option.bind_some, hX.loadKey_keyPem] at hkeyS
      obtain rfl : c.draw.key = key := Option.some.inj hkeyS
      exact hfresh hpub

end

/-! ## Top theorems (proved from the lemmas above) -/

/-- **Every later `ensure` that returns leaves a matching pair exactly when the interruption does not
tear a leaf that covers a host.**  Calls from an empty directory, one more call that is interrupted
after `k` of its steps, more calls, and an `ensure`: the key it leaves is that of the certificate,
unless the interruption came between the opening of the key and that of the certificate, and the
leaf that was there covers some host; then an `ensure` for that host returns and leaves the pair as
it is. -/
theorem matches_after_interruption_iff (X : Cryptography) (hX : X.Documented)
    (hcert : X.loadCert X.empty = none) (hkey : X.loadKey X.empty = none) (mode : Option Nat)
    (cs : List (Call X)) (c : Call X) (k : Nat)
    (hfresh : ∀ leaf, (run call (Directory.empty mode) cs).cert .serverPem = some leaf →
      leaf.tbs.publicKey ≠ X.publicKey c.draw.key) :
    let d := run call (Directory.empty mode) cs
    let d' := interrupted d c k
    (∀ cs' creds fqdn ipAddresses caDraw leafDraw,
      Returns (run call d' cs') (.ensure creds fqdn ipAddresses caDraw leafDraw) →
      KeyMatches (run call d' (cs' ++ [.ensure creds fqdn ipAddresses caDraw leafDraw]))) ↔
    ¬ (Torn d c k ∧ ∃ leaf fqdn, d.cert .serverPem = some leaf ∧ sanCovers leaf fqdn = true) := by
  intro d d'
  have hw : Whole d := run_whole hX mode cs
  constructor
  · rintro h ⟨ht, leaf, fqdn, hleaf, hcovers⟩
    obtain ⟨hret, hno⟩ := torn_kept hX hkey hw ht hleaf hcovers (hfresh leaf hleaf)
      ⟨"", fun _ => "", ""⟩ [] c.draw c.draw
    exact hno (h [] _ _ _ _ _ hret)
  · intro h cs' creds fqdn ipAddresses caDraw leafDraw hret
    have hg : Matched (run call d' cs') :=
      Runs.invariant call (I := Matched) (fun _ c hg => call_matched hX hg c)
        (matched_interrupted hX hcert hw h) cs'
    rw [run_snoc]
    exact ensured_keyMatches hX hg (ensure_returned hret)

/-- A first `ensure` that is interrupted after its key: the next one issues the leaf again. -/
theorem matches_after_interruption_first :
    let d := interrupted (Directory.empty none) (symbolicEnsure "localhost" 1) 11
    Returns d (symbolicEnsure "localhost" 3) ∧
      KeyMatches (call d (symbolicEnsure "localhost" 3)) := by
  intro d
  have hnone (leaf) : (Directory.empty none : Directory symbolic).cert .serverPem ≠ some leaf := by
    intro h
    cases h
  have hm : KeyMatches (run call d ([] ++ [symbolicEnsure "localhost" 3])) := by
    refine (matches_after_interruption_iff symbolic symbolic_documented rfl rfl none []
      (symbolicEnsure "localhost" 1) 11 fun leaf h => absurd h (hnone leaf)).mpr ?_ []
      sampleCredentials "localhost" [] (symbolicDraw 3) (symbolicDraw 4) rfl
    intro h
    obtain ⟨leaf, fqdn, hleaf, -⟩ := h.2
    exact hnone leaf hleaf
  rw [List.nil_append, run_cons, run_nil] at hm
  exact ⟨rfl, hm⟩

/-- A rotation that is interrupted when it has written the new key: the next `ensure` returns and
keeps it beside the old certificate. -/
theorem matches_after_interruption_torn :
    let d := call (Directory.empty none) (symbolicEnsure "localhost" 1)
    let d' := interrupted d (.rotate "localhost" [] (symbolicDraw 5)) 3
    Returns d' (symbolicEnsure "localhost" 7) ∧
      ¬ KeyMatches (call d' (symbolicEnsure "localhost" 7)) := by
  intro d d'
  refine ⟨rfl, ?_⟩
  rintro ⟨leaf, key, hleaf, hkey, hpub⟩
  have hold : ((call d' (symbolicEnsure "localhost" 7)).cert .serverPem).map
      (fun leaf => leaf.tbs.publicKey) = some (2 : Nat) := rfl
  have hnew : (call d' (symbolicEnsure "localhost" 7)).key .serverKey = some (5 : Nat) := rfl
  rw [hleaf] at hold
  rw [hkey] at hnew
  have : (2 : Nat) = 5 :=
    (Option.some.inj hold).symm.trans (hpub.trans (Option.some.inj hnew))
  cases this

end Certs

end FleetTelemetry
