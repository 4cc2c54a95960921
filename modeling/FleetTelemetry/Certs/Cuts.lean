import FleetTelemetry.Certs.Interruption
import FleetTelemetry.Lib.CrashTriple

/-!
# What a call leaves wherever it is cut

`Cut d c` lists the directories in which a call `c` on `d` can be interrupted: as it was,
with its mode set, in the middle of a new CA, or in the middle of a leaf.  A history is
made of calls, calls that are cut off, and an operator who deletes files.

    Cut d c (interrupted d c k)                                     (interrupted_cut)
    call d c = interrupted d c (all of its steps)                   (call_eq_interrupted)
-/

namespace FleetTelemetry

namespace Certs

open IpAddress StepProgram Runs Directory Program

variable {X : Cryptography}

/-! ## Algorithm -/

/-- The mode of a file that is opened: its own, or the one it is created with. -/
def Directory.openedMode (d : Directory X) (f : File) (created : Nat) : Nat :=
  ((d.file f).map Entry.mode).getD created

/-- A file while it is written: truncated, filled, with its mode set. -/
inductive Writing (d : Directory X) (f : File) (contents : X.Contents) (created mode : Nat) :
    Directory X → Prop where
  | truncated : Writing d f contents created mode
      (d.set f (some ⟨X.empty, d.openedMode f created⟩))
  | filled : Writing d f contents created mode
      (d.set f (some ⟨contents, d.openedMode f created⟩))
  | closed : Writing d f contents created mode (d.set f (some ⟨contents, mode⟩))

/-- A key and then its certificate, while they are written. -/
inductive WritingPair (d : Directory X) (keyFile certFile : File) (key : X.PrivateKey)
    (cert : Certificate X.PublicKey X.Signature) (s : Directory X) : Prop where
  | key (h : Writing d keyFile (X.keyPem key) 0o600 0o600 s)
  | cert (h : Writing (d.set keyFile (some ⟨X.keyPem key, 0o600⟩)) certFile (X.certPem cert) 0o666
      0o644 s)

/-- The certificate of a new CA. -/
def caCert (X : Cryptography) (caCommonName : String) (draw : Draw X) :
    Certificate X.PublicKey X.Signature :=
  ⟨caTbs [caCommonName] draw, X.sign draw.key (caTbs [caCommonName] draw)⟩

/-- The CA on disk makes `leaf` of the arguments. -/
def Makes (d : Directory X) (fqdn : String) (ipAddresses : List String) (draw : Draw X)
    (leaf : Certificate X.PublicKey X.Signature) : Prop :=
  ∃ ca key ski subject names, d.cert .caPem = some ca ∧ d.key .caKey = some key ∧
    ca.tbs.subjectKeyIdentifier = some ski ∧ sanGeneralNames X fqdn ipAddresses = some names ∧
    leaf = ⟨leafTbs ca ski subject names draw, X.sign key (leafTbs ca ski subject names draw)⟩

/-- The directories in which a call can be cut. -/
inductive Cut (d : Directory X) : Call X → Directory X → Prop where
  | untouched (c : Call X) : Cut d c d
  | mode (creds : ServerCredentials) (fqdn : String) (ipAddresses : List String)
      (caDraw leafDraw : Draw X) (s : Directory X) (h : s = d.apply .mkdir ∨ s = d.opened) :
      Cut d (.ensure creds fqdn ipAddresses caDraw leafDraw) s
  | ca (creds : ServerCredentials) (fqdn : String) (ipAddresses : List String)
      (caDraw leafDraw : Draw X) (s : Directory X) (hca : ¬ d.has .caPem ∧ ¬ d.has .caKey)
      (h : WritingPair d.opened .caKey .caPem caDraw.key (caCert X creds.caCommonName caDraw) s) :
      Cut d (.ensure creds fqdn ipAddresses caDraw leafDraw) s
  | leaf (creds : ServerCredentials) (fqdn : String) (ipAddresses : List String)
      (caDraw leafDraw : Draw X) (leaf : Certificate X.PublicKey X.Signature) (s : Directory X)
      (hca : d.has .caPem ∧ d.has .caKey) (hleaf : Makes d fqdn ipAddresses leafDraw leaf)
      (h : WritingPair d.opened .serverKey .serverPem leafDraw.key leaf s) :
      Cut d (.ensure creds fqdn ipAddresses caDraw leafDraw) s
  | first (creds : ServerCredentials) (fqdn : String) (ipAddresses : List String)
      (caDraw leafDraw : Draw X) (leaf : Certificate X.PublicKey X.Signature) (s : Directory X)
      (hca : ¬ d.has .caPem ∧ ¬ d.has .caKey)
      (hleaf : Makes (d.opened.newCa creds caDraw) fqdn ipAddresses leafDraw leaf)
      (h : WritingPair (d.opened.newCa creds caDraw) .serverKey .serverPem leafDraw.key leaf s) :
      Cut d (.ensure creds fqdn ipAddresses caDraw leafDraw) s
  | rotated (fqdn : String) (ipAddresses : List String) (draw : Draw X)
      (leaf : Certificate X.PublicKey X.Signature) (s : Directory X)
      (hca : d.has .caPem ∧ d.has .caKey) (hleaf : Makes d fqdn ipAddresses draw leaf)
      (h : WritingPair d .serverKey .serverPem draw.key leaf s) :
      Cut d (.rotate fqdn ipAddresses draw) s

/-- A call, a call that is cut off after `k` of its steps, an operator who deletes files. -/
inductive Happening (X : Cryptography) where
  | call (c : Call X)
  | crash (c : Call X) (k : Nat)
  | delete (files : List File)

def happen (d : Directory X) : Happening X → Directory X
  | .call c => call d c
  | .crash c k => interrupted d c k
  | .delete files => act d (.delete files)

/-! ## Lemmas -/

/-! ### Files that are being written -/

section
variable {d s : Directory X} {f : File}

theorem contents_congr (h : s.file f = d.file f) : s.contents f = d.contents f := by
  unfold Directory.contents
  rw [h]

theorem contents_set (d : Directory X) (f g : File) (e : Entry X) :
    (d.set f (some e)).contents g = if g = f then some e.contents else d.contents g := by
  unfold Directory.contents
  rw [set_file]
  split <;> rfl

theorem has_of_contents {contents : X.Contents} (h : d.contents f = some contents) : d.has f := by
  unfold Directory.contents at h
  obtain ⟨e, he, -⟩ := Option.map_eq_some_iff.mp h
  unfold Directory.has
  rw [he]
  rfl

theorem Writing.other {contents : X.Contents} {created mode : Nat}
    (h : Writing d f contents created mode s) {g : File} (hg : g ≠ f) : s.file g = d.file g := by
  cases h <;> exact (set_file ..).trans (if_neg hg)

theorem Writing.contents {contents : X.Contents} {created mode : Nat}
    (h : Writing d f contents created mode s) :
    s.contents f = some X.empty ∨ s.contents f = some contents := by
  cases h with
  | truncated => exact .inl ((contents_set ..).trans (if_pos rfl))
  | filled => exact .inr ((contents_set ..).trans (if_pos rfl))
  | closed => exact .inr ((contents_set ..).trans (if_pos rfl))

section
variable {keyFile certFile : File} {key : X.PrivateKey}
  {cert : Certificate X.PublicKey X.Signature}

theorem WritingPair.other (h : WritingPair d keyFile certFile key cert s) {g : File}
    (hk : g ≠ keyFile) (hc : g ≠ certFile) : s.file g = d.file g := by
  cases h with
  | key h => exact h.other hk
  | cert h => rw [h.other hc, set_file, if_neg hk]

/-- The key is being written, or it is there and the certificate is being written. -/
theorem WritingPair.contents (hne : keyFile ≠ certFile)
    (h : WritingPair d keyFile certFile key cert s) :
    (s.file certFile = d.file certFile ∧
        (s.contents keyFile = some X.empty ∨ s.contents keyFile = some (X.keyPem key))) ∨
      (s.contents keyFile = some (X.keyPem key) ∧
        (s.contents certFile = some X.empty ∨ s.contents certFile = some (X.certPem cert))) := by
  cases h with
  | key h => exact .inl ⟨h.other hne.symm, h.contents⟩
  | cert h =>
    refine .inr ⟨?_, h.contents⟩
    rw [contents_congr (h.other hne), contents_set, if_pos rfl]

end

end

/-! ### Crash triples -/

theorem writeFile_crash (d : Directory X) (f : File) (contents : X.Contents) (created mode : Nat)
    {C : Directory X → Prop} {E : CertError → Directory X → Prop} (h0 : C d)
    (h : ∀ s, Writing d f contents created mode s → C s) :
    CrashTriple (· = d)
      (do perform (.openTruncate f created); perform (.write f contents); perform (.chmod f mode))
      C (fun _ s => s = d.set f (some ⟨contents, mode⟩)) E := by
  have hwritten : (d.apply (.openTruncate f created)).apply (.write f contents) =
      d.set f (some ⟨contents, d.openedMode f created⟩) := by
    simp only [apply, set_set, set_file, if_true, Option.map_some]
    rfl
  have h1 : C (d.apply (.openTruncate f created)) := h _ .truncated
  have h2 : C ((d.apply (.openTruncate f created)).apply (.write f contents)) := by
    rw [hwritten]
    exact h _ .filled
  have h3 : C (((d.apply (.openTruncate f created)).apply (.write f contents)).apply
      (.chmod f mode)) := by
    rw [writeFile_final]
    exact h _ .closed
  refine .bind (Q := fun _ s => s = d.apply (.openTruncate f created)) (.perform ?_ ?_) fun _ =>
    .bind (Q := fun _ s => s = (d.apply (.openTruncate f created)).apply (.write f contents))
      (.perform ?_ ?_) fun _ => .perform ?_ ?_
  · rintro s rfl; rfl
  · rintro s rfl; exact ⟨h0, h1⟩
  · rintro s rfl; rfl
  · rintro s rfl; exact ⟨h1, h2⟩
  · rintro s rfl; exact writeFile_final d f _ _ _
  · rintro s rfl; exact ⟨h2, h3⟩

theorem writePair_crash (d : Directory X) (keyFile certFile : File) (key : X.PrivateKey)
    (cert : Certificate X.PublicKey X.Signature) {C : Directory X → Prop}
    {E : CertError → Directory X → Prop} (h0 : C d)
    (h : ∀ s, WritingPair d keyFile certFile key cert s → C s) :
    CrashTriple (· = d) (do writeKey keyFile key; writeCert certFile cert : Op X Unit) C
      (fun _ s => s = (d.set keyFile (some ⟨X.keyPem key, 0o600⟩)).set certFile
        (some ⟨X.certPem cert, 0o644⟩)) E := by
  have hkey : C (d.set keyFile (some ⟨X.keyPem key, 0o600⟩)) := h _ (.key .closed)
  exact .bind (writeFile_crash d keyFile _ _ _ h0 fun s hs => h s (.key hs)) fun _ =>
    writeFile_crash _ certFile _ _ _ hkey fun s hs => h s (.cert hs)

/-- **Wherever `_create_leaf` is cut, nothing is written yet or the leaf is being written.** -/
theorem createLeaf_crash (d : Directory X) (fqdn : String) (ipAddresses : List String)
    (draw : Draw X) {C : Directory X → Prop} (h0 : C d)
    (h : ∀ leaf s, Makes d fqdn ipAddresses draw leaf →
      WritingPair d .serverKey .serverPem draw.key leaf s → C s) :
    CrashTriple (· = d) (createLeaf fqdn ipAddresses draw) C
      (fun _ s => d.issueLeaf fqdn ipAddresses draw = some s)
      (fun _ s => s = d ∧ d.issueLeaf fqdn ipAddresses draw = none) := by
  suffices hc : CrashTriple (· = d) (createLeaf fqdn ipAddresses draw) C (fun _ _ => True)
      (fun _ _ => True) from ⟨createLeaf_spec d fqdn ipAddresses draw, hc.cut⟩
  have hd : ∀ s, s = d → C s := fun s hs => hs ▸ h0
  unfold createLeaf
  split
  · exact .raise (fun _ _ => trivial) hd
  refine .bind (.of_silent (silent_loadCert _) ((loadCert_spec d .caPem).consequence
    (fun _ h => h) (fun _ _ h => h) fun _ _ _ => trivial) hd) fun ca => .assume fun hca => ?_
  refine .bind (.of_silent (silent_loadEcKey _) ((loadEcKey_spec d .caKey).consequence
    (fun _ h => h) (fun _ _ h => h) fun _ _ _ => trivial) hd) fun key => .assume fun hkey => ?_
  refine .bind (Q := fun ski s => s = d ∧ ca.tbs.subjectKeyIdentifier = some ski)
    (.of_silent (Silent.orRaise _ _) (.orRaise (fun ski h s hs => ⟨hs, h⟩) fun _ _ _ => trivial) hd)
    fun ski => .assume fun hski => ?_
  refine .bind (Q := fun _ s => s = d) (.of_silent (Silent.orRaise _ _)
    (.orRaise (fun _ _ s hs => hs) fun _ _ _ => trivial) hd) fun subject => ?_
  refine .bind (Q := fun names s => s = d ∧ sanGeneralNames X fqdn ipAddresses = some names)
    (.of_silent (Silent.orRaise _ _) (.orRaise (fun ski h s hs => ⟨hs, h⟩) fun _ _ _ => trivial) hd)
    fun names => .assume fun hnames => ?_
  exact (writePair_crash d .serverKey .serverPem draw.key _ h0 fun s hs =>
    h _ s ⟨ca, key, ski, subject, names, hca, hkey, hski, hnames, rfl⟩ hs).consequence
      (fun _ h => h) (fun _ h => h) (fun _ _ _ => trivial) fun _ _ h => h

theorem mkdirPrivate_crash (d : Directory X) {C : Directory X → Prop}
    {E : CertError → Directory X → Prop} (h0 : C d)
    (h : ∀ s, s = d.apply .mkdir ∨ s = d.opened → C s) :
    CrashTriple (· = d) mkdirPrivate C (fun _ s => s = d.opened) E := by
  have h1 : C (d.apply .mkdir) := h _ (.inl rfl)
  refine .bind (Q := fun _ s => s = d.apply .mkdir) (.perform ?_ ?_) fun _ => .perform ?_ ?_
  · rintro s rfl; rfl
  · rintro s rfl; exact ⟨h0, h1⟩
  · rintro s rfl; rfl
  · rintro s rfl; exact ⟨h1, h _ (.inr rfl)⟩

/-- Wherever `_ensure_ca` is cut, nothing is written yet or a first CA is being written. -/
theorem ensureCa_crash (d : Directory X) (creds : ServerCredentials) (draw : Draw X)
    {C : Directory X → Prop} (h0 : C d)
    (h : ∀ s, ¬ d.has .caPem ∧ ¬ d.has .caKey →
      WritingPair d .caKey .caPem draw.key (caCert X creds.caCommonName draw) s → C s) :
    CrashTriple (· = d) (ensureCa creds draw) C
      (fun created s => (s = d ∧ created = false ∧ d.has .caPem ∧ d.has .caKey) ∨
        (s = d.newCa creds draw ∧ created = true ∧ ¬ d.has .caPem ∧ ¬ d.has .caKey))
      (fun _ s => s = d ∧ ¬ (d.has .caPem ∧ d.has .caKey)) := by
  suffices hc : CrashTriple (· = d) (ensureCa creds draw) C (fun _ _ => True) (fun _ _ => True) from
    ⟨(ensureCa_spec d creds draw).consequence (fun _ h => h)
      (fun _ s hs => hs.imp_right fun ⟨hn, hc, hno, _⟩ => ⟨hn, hc, hno⟩) fun _ _ h => h, hc.cut⟩
  have hd : ∀ s, s = d → C s := fun s hs => hs ▸ h0
  unfold ensureCa
  refine .bind (.of_silent (silent_pathExists _) (pathExists_spec d .caPem) (fun s hs => hd s hs))
    fun certExists => .assume fun hcert => ?_
  refine .bind (.of_silent (silent_pathExists _) (pathExists_spec d .caKey) (fun s hs => hd s hs))
    fun keyExists => .assume fun hkey => ?_
  split
  · exact .pure (fun _ _ => trivial) hd
  · split
    · exact .raise (fun _ _ => trivial) hd
    · next hnone =>
      rw [Bool.or_eq_true, not_or] at hnone
      have hno : ¬ d.has .caPem ∧ ¬ d.has .caKey :=
        ⟨fun hc => hnone.1 (hcert.mpr hc), fun hk => hnone.2 (hkey.mpr hk)⟩
      have hca : CrashTriple (· = d) (createCa creds draw) C (fun _ s => C s) (fun _ _ => True) := by
        unfold createCa
        split
        · exact .raise (fun _ _ => trivial) hd
        · exact (writePair_crash d .caKey .caPem draw.key (caCert X creds.caCommonName draw) h0
            fun s hs => h s hno hs).consequence (fun _ h => h) (fun _ h => h)
              (fun _ s hs => hs ▸ h _ hno (.cert .closed)) fun _ _ h => h
      exact .bind hca fun _ => .pure (fun _ _ => trivial) fun _ hs => hs

/-- **Wherever a call is cut, the directory is one of its cuts.** -/
theorem interrupted_cut (d : Directory X) (c : Call X) (k : Nat) : Cut d c (interrupted d c k) := by
  suffices hc : CrashTriple (· = d) c.op (Cut d c) (fun _ _ => True) (fun _ _ => True) from
    hc.cut d rfl k
  cases c with
  | ensure creds fqdn ipAddresses caDraw leafDraw =>
    show CrashTriple (· = d) (Certs.ensure creds fqdn ipAddresses caDraw leafDraw) _ _ _
    have hmode (s : Directory X) (hs : s = d.apply .mkdir ∨ s = d.opened) :
        Cut d (.ensure creds fqdn ipAddresses caDraw leafDraw) s := .mode _ _ _ _ _ s hs
    have hopened := hmode _ (.inr rfl)
    unfold Certs.ensure
    refine .bind (mkdirPrivate_crash d (.untouched _) hmode) fun _ => ?_
    refine .bind ((ensureCa_crash d.opened creds caDraw hopened
      fun s hca hs => .ca _ _ _ _ _ s hca hs).consequence (fun _ h => h) (fun _ h => h)
        (fun _ _ h => h) fun _ _ _ => trivial) fun caCreated => .or (.assume ?_) (.assume ?_)
    · -- the CA was there
      rintro ⟨rfl, hca⟩
      have hleaf := (createLeaf_crash d.opened fqdn ipAddresses leafDraw hopened
        fun leaf s hm hs => .leaf _ _ _ _ _ leaf s hca hm hs).consequence (fun _ h => h)
          (fun _ h => h) (fun _ _ _ => trivial) fun _ _ _ => trivial
      refine .bind (.of_silent (silent_pathExists _) (pathExists_spec _ .serverPem)
        fun s hs => hs ▸ hopened) fun certExists => .assume fun _ => ?_
      refine .bind (.of_silent (silent_pathExists _) (pathExists_spec _ .serverKey)
        fun s hs => hs ▸ hopened) fun keyExists => .assume fun _ => ?_
      split
      · exact hleaf
      · refine .bind (.of_silent (silent_loadCert _) ((loadCert_spec _ .serverPem).consequence
          (fun _ h => h) (fun _ _ h => h) fun _ _ _ => trivial) fun s hs => hs ▸ hopened)
          fun cert => .assume fun _ => ?_
        split
        · exact .pure (fun _ _ => trivial) fun s hs => hs ▸ hopened
        · exact hleaf
    · -- a new CA
      rintro ⟨rfl, hca⟩
      have hnew : Cut d (.ensure creds fqdn ipAddresses caDraw leafDraw)
          (d.opened.newCa creds caDraw) := .ca _ _ _ _ _ _ hca (.cert .closed)
      refine .bind (.of_silent (silent_pathExists _) (pathExists_spec _ .serverPem)
        fun s hs => hs ▸ hnew) fun certExists => .assume fun _ => ?_
      refine .bind (.of_silent (silent_pathExists _) (pathExists_spec _ .serverKey)
        fun s hs => hs ▸ hnew) fun keyExists => .assume fun _ => ?_
      rw [Bool.true_or, if_pos rfl]
      exact (createLeaf_crash _ fqdn ipAddresses leafDraw hnew
        fun leaf s hm hs => .first _ _ _ _ _ leaf s hca hm hs).consequence (fun _ h => h)
          (fun _ h => h) (fun _ _ _ => trivial) fun _ _ _ => trivial
  | rotate fqdn ipAddresses draw =>
    show CrashTriple (· = d) (rotateServerCert fqdn ipAddresses draw) _ _ _
    have hd : ∀ s, s = d → Cut d (.rotate fqdn ipAddresses draw) s := fun s hs => hs ▸ .untouched _
    unfold rotateServerCert
    refine .bind (.of_silent (silent_pathExists _) (pathExists_spec d .caPem) fun s hs => hd s hs)
      fun certExists => .assume fun hcert => ?_
    refine .bind (.of_silent (silent_pathExists _) (pathExists_spec d .caKey) fun s hs => hd s hs)
      fun keyExists => .assume fun hkey => ?_
    split
    · exact .raise (fun _ _ => trivial) hd
    · next h =>
      rw [Bool.not_eq_true', Bool.not_eq_false, Bool.and_eq_true] at h
      exact (createLeaf_crash d fqdn ipAddresses draw (.untouched _)
        fun leaf s hm hs => .rotated _ _ _ leaf s ⟨hcert.mp h.1, hkey.mp h.2⟩ hm hs).consequence
          (fun _ h => h) (fun _ h => h) (fun _ _ _ => trivial) fun _ _ _ => trivial

/-- A call that is not cut off. -/
theorem call_eq_interrupted (d : Directory X) (c : Call X) :
    call d c = interrupted d c (c.op.exec d).1.length := (cut_length c.op d).symm

theorem call_cut (d : Directory X) (c : Call X) : Cut d c (call d c) := by
  rw [call_eq_interrupted]
  exact interrupted_cut d c _

end Certs

end FleetTelemetry
