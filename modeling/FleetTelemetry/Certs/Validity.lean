import FleetTelemetry.Certs.Privacy
import FleetTelemetry.Certs.Trust

/-!
# How long the credentials are good for

A certificate is valid from the moment it is made, the CA for ten years and a leaf for two.
Which moment that was the directory does not say: it is the clock of the last call that
wrote the file.  `ensure` does not look at a clock, so a leaf that covers the host is kept
however old it is, and only a rotation renews it:

    ValidAt anchor t ↔ made ≤ t ∧ t ≤ made + CA_VALIDITY
    ValidAt leaf t ↔ issued ≤ t ∧ t ≤ issued + LEAF_VALIDITY            (validity_iff)
-/

namespace FleetTelemetry

namespace Certs

open IpAddress StepProgram Runs Directory Program

variable {X : Cryptography}

/-! ## Algorithm -/

/-- The step changes what is in the file. -/
def FsStep.writes (f : File) : FsStep X → Bool
  | .openTruncate g _ | .write g _ => g = f
  | .mkdir | .chmodDirectory _ | .chmod _ _ => false

/-- What `_now` gives a call that makes the certificate of the file. -/
def Call.clock (f : File) : Call X → Nat
  | .ensure _ _ _ caDraw leafDraw => if f = .caPem then caDraw.now else leafDraw.now
  | .rotate _ _ draw => draw.now

def File.validity : File → Nat
  | .caPem => CA_VALIDITY
  | .caKey | .serverPem | .serverKey => LEAF_VALIDITY

/-- The clock of a call, cut off or not, whose steps write to the file. -/
def written (f : File) (d : Directory X) : Happening X → List Nat
  | .call c => if (c.op.exec d).1.any (·.writes f) then [c.clock f] else []
  | .crash c k => if ((c.op.exec d).1.take k).any (·.writes f) then [c.clock f] else []
  | .delete _ => []

/-- The certificate of the file was made at `now`. -/
def MadeAt {P S : Type} (f : File) (now : Nat) (cert : Certificate P S) : Prop :=
  cert.tbs.notValidBefore = now ∧ cert.tbs.notValidAfter = now + f.validity

/-- What the step writes to a certificate file is a certificate made by the call's clock. -/
def Stamped (c : Call X) : FsStep X → Prop
  | .write f contents => ¬ Secret f → ∃ cert, contents = X.certPem cert ∧
      cert.tbs.storable = true ∧ MadeAt f (c.clock f) cert
  | .mkdir | .chmodDirectory _ | .openTruncate _ _ | .chmod _ _ => True

/-! ## Lemmas -/

/-! ### What a call writes -/

section
variable {c : Call X}

theorem stamped_writeKey {f : File} (hf : Secret f) (key : X.PrivateKey) :
    TakesOnly (writeKey f key : Op X Unit) (Stamped c) := by
  unfold writeKey
  refine .bind (.perform trivial) fun _ => .bind (.perform ?_) fun _ => .perform trivial
  exact fun hno => absurd hf hno

theorem stamped_writeCert {f : File} {cert : Certificate X.PublicKey X.Signature}
    (hstor : cert.tbs.storable = true) (hmade : MadeAt f (c.clock f) cert) :
    TakesOnly (writeCert f cert : Op X Unit) (Stamped c) := by
  unfold writeCert
  refine .bind (.perform trivial) fun _ => .bind (.perform ?_) fun _ => .perform trivial
  exact fun _ => ⟨cert, rfl, hstor, hmade⟩

theorem stamped_createLeaf (fqdn : String) (ipAddresses : List String) {draw : Draw X}
    (hclock : c.clock .serverPem = draw.now) :
    TakesOnly (createLeaf fqdn ipAddresses draw : Op X Unit) (Stamped c) := by
  unfold createLeaf
  split
  · exact .raise
  · refine .bind (.of_silent (silent_loadCert _)) fun caCert => ?_
    refine .bind (.of_silent (silent_loadEcKey _)) fun caKey => ?_
    refine .bind (.of_silent (Silent.orRaise _ _)) fun caSki => ?_
    refine .bind (.of_silent (Silent.orRaise _ _)) fun subject => ?_
    refine .bind (.of_silent (Silent.orRaise _ _)) fun names => ?_
    refine .bind (stamped_writeKey (.inr rfl) _) fun _ => stamped_writeCert ?_ ?_
    · exact leafTbs_storable ..
    · rw [hclock]
      exact ⟨rfl, rfl⟩

theorem stamped_createCa {creds : ServerCredentials} {draw : Draw X}
    (hclock : c.clock .caPem = draw.now) :
    TakesOnly (createCa creds draw : Op X Unit) (Stamped c) := by
  unfold createCa
  split
  · exact .raise
  · refine .bind (stamped_writeKey (.inl rfl) _) fun _ => stamped_writeCert rfl ?_
    rw [hclock]
    exact ⟨rfl, rfl⟩

/-- **Every certificate a call writes bears its clock.** -/
theorem stamped_call (c : Call X) : TakesOnly c.op (Stamped c) := by
  cases c with
  | ensure creds fqdn ipAddresses caDraw leafDraw =>
    have hclock : (Call.ensure creds fqdn ipAddresses caDraw leafDraw).clock .serverPem =
        leafDraw.now := rfl
    have hleaf := stamped_createLeaf fqdn ipAddresses hclock
    show TakesOnly (Certs.ensure creds fqdn ipAddresses caDraw leafDraw) _
    unfold Certs.ensure mkdirPrivate ensureCa
    refine .bind (.bind (.perform trivial) fun _ => .perform trivial) fun _ => ?_
    refine .bind (.bind (.of_silent (silent_pathExists _)) fun _ =>
      .bind (.of_silent (silent_pathExists _)) fun _ => ?_) fun caCreated => ?_
    · split
      · exact .pure
      · split
        · exact .raise
        · exact .bind (stamped_createCa rfl) fun _ => .pure
    · refine .bind (.of_silent (silent_pathExists _)) fun _ =>
        .bind (.of_silent (silent_pathExists _)) fun _ => ?_
      split
      · exact hleaf
      · refine .bind (.of_silent (silent_loadCert _)) fun cert => ?_
        split
        · exact .pure
        · exact hleaf
  | rotate fqdn ipAddresses draw =>
    show TakesOnly (rotateServerCert fqdn ipAddresses draw) _
    unfold rotateServerCert
    refine .bind (.of_silent (silent_pathExists _)) fun _ =>
      .bind (.of_silent (silent_pathExists _)) fun _ => ?_
    split
    · exact .raise
    · exact stamped_createLeaf fqdn ipAddresses rfl

end

/-! ### What can be read afterwards -/

section
variable {d : Directory X} {f : File}

theorem cert_apply_of_not_writes {e : FsStep X} (he : e.writes f = false) :
    (d.apply e).cert f = d.cert f := by
  unfold Directory.cert
  cases e with
  | mkdir | chmodDirectory => rfl
  | openTruncate g mode | write g contents =>
    have hne : f ≠ g := fun h => of_decide_eq_false he h.symm
    unfold Directory.apply
    rw [set_file, if_neg hne]
  | chmod g mode =>
    unfold Directory.apply
    rw [set_file]
    split
    · next h =>
      rw [← h]
      cases d.file f <;> rfl
    · rfl

section
variable (hX : X.Documented) (hempty : X.loadCert X.empty = none)
include hX hempty

/-- A step that writes to a certificate file leaves one that was just made, or none. -/
theorem madeAt_of_writes {c : Call X} (hf : ¬ Secret f) {e : FsStep X} (he : e.writes f = true)
    (hs : Stamped c e) {cert : Certificate X.PublicKey X.Signature}
    (hcert : (d.apply e).cert f = some cert) : MadeAt f (c.clock f) cert := by
  unfold Directory.cert at hcert
  cases e with
  | mkdir | chmodDirectory | chmod => cases he
  | openTruncate g mode =>
    obtain rfl := of_decide_eq_true he
    unfold Directory.apply at hcert
    rw [set_file, if_pos rfl, Option.bind_some, hempty] at hcert
    cases hcert
  | write g contents =>
    obtain rfl := of_decide_eq_true he
    obtain ⟨cert', rfl, hstor, hmade⟩ := hs hf
    unfold Directory.apply at hcert
    rw [set_file, if_pos rfl] at hcert
    obtain ⟨entry, hentry, hload⟩ := Option.bind_eq_some_iff.mp hcert
    obtain ⟨old, -, rfl⟩ := Option.map_eq_some_iff.mp hentry
    obtain rfl := Option.some.inj ((hX.loadCert_certPem cert' hstor).symm.trans hload)
    exact hmade

/-- **Steps that write to a certificate file leave one made by the call, or none**; others leave the
file as it was. -/
theorem stamped_run {c : Call X} (hf : ¬ Secret f) {es : List (FsStep X)}
    (hes : ∀ e ∈ es, Stamped c e) :
    let s := run Stepped.apply d es
    (es.any (·.writes f) = true → ∀ cert, s.cert f = some cert → MadeAt f (c.clock f) cert) ∧
    (es.any (·.writes f) = false → s.cert f = d.cert f) := by
  induction es using List.reverseRecOn with
  | nil => exact ⟨fun h => absurd h Bool.false_ne_true, fun _ => rfl⟩
  | append_singleton es e ih =>
    obtain ⟨hany, hnone⟩ := ih fun e' he' => hes e' (List.mem_append_left _ he')
    have hlast : Stamped c e := hes e (List.mem_append_right _ List.mem_cons_self)
    intro s
    have hrun : s = (run Stepped.apply d es).apply e := run_snoc ..
    rw [hrun]
    simp only [List.any_append, List.any_cons, List.any_nil, Bool.or_false]
    cases he : e.writes f with
    | true =>
      rw [Bool.or_true]
      refine ⟨fun _ cert hcert => madeAt_of_writes hX hempty hf he hlast hcert, fun h => ?_⟩
      cases h
    | false =>
      rw [Bool.or_false, cert_apply_of_not_writes he]
      exact ⟨hany, hnone⟩

/-- **The certificate in a file was made at the clock of the last call that wrote to it.** -/
theorem last_written (hf : ¬ Secret f) (mode : Option Nat) (hs : List (Happening X)) :
    ∀ cert, (run happen (Directory.empty mode) hs).cert f = some cert →
      ∃ now, (outputs happen (written f) (Directory.empty mode) hs).getLast? = some now ∧
        MadeAt f now cert := by
  refine trace_invariant happen (written f) (I := fun clocks d => ∀ cert, d.cert f = some cert →
    ∃ now, clocks.getLast? = some now ∧ MadeAt f now cert) ?_ ?_ hs
  · intro cert hcert
    cases hcert
  · intro clocks d x ih
    -- a call, or its first steps
    have hsteps (c : Call X) {es : List (FsStep X)} (hes : ∀ e ∈ es, Stamped c e) :
        ∀ cert, (run Stepped.apply d es).cert f = some cert →
          ∃ now, (clocks ++ if es.any (·.writes f) then [c.clock f] else []).getLast? = some now ∧
            MadeAt f now cert := by
      intro cert hcert
      obtain ⟨hany, hnone⟩ := stamped_run (d := d) hX hempty hf hes
      cases hw : es.any (·.writes f) with
      | true =>
        refine ⟨c.clock f, ?_, hany hw cert hcert⟩
        rw [if_pos rfl, List.getLast?_append, List.getLast?_singleton]
        rfl
      | false =>
        rw [if_neg Bool.false_ne_true, List.append_nil]
        exact ih cert ((hnone hw).symm.trans hcert)
    cases x with
    | call c => exact hsteps c (stamped_call c d)
    | crash c k => exact hsteps c fun e he => stamped_call c d e (List.mem_of_mem_take he)
    | delete files =>
      intro cert hcert
      rw [show clocks ++ written f d (.delete files) = clocks from List.append_nil clocks]
      refine ih cert ?_
      unfold Directory.cert at hcert ⊢
      by_cases hmem : f ∈ files
      · rw [show (happen d (.delete files)).file f = none from if_pos hmem] at hcert
        cases hcert
      · rwa [show (happen d (.delete files)).file f = d.file f from if_neg hmem] at hcert

end

/-! ### Which calls write a leaf -/

theorem written_call (f : File) (d : Directory X) (c : Call X) :
    written f d (.call c) = if (c.op.exec d).1.any (·.writes f) then [c.clock f] else [] := rfl

/-- A leaf is written, or `_create_leaf` raises before its first step. -/
theorem createLeaf_steps (fqdn : String) (ipAddresses : List String) (draw : Draw X) :
    Emits (createLeaf fqdn ipAddresses draw : Op X Unit) fun r es =>
      (r = .ok () ∧ LeafSteps draw es) ∨ (r ≠ .ok () ∧ es = []) := by
  have hnone {e : CertError} : (Except.error e : Except CertError Unit) ≠ .ok () := fun h => by cases h
  unfold createLeaf
  split
  · exact Emits.raise (.inr ⟨hnone, rfl⟩)
  · refine .bind_silent (silent_loadCert _) (fun _ => .inr ⟨hnone, rfl⟩) fun caCert => ?_
    refine .bind_silent (silent_loadEcKey _) (fun _ => .inr ⟨hnone, rfl⟩) fun caKey => ?_
    refine .bind_silent (Silent.orRaise _ _) (fun _ => .inr ⟨hnone, rfl⟩) fun caSki => ?_
    refine .bind_silent (Silent.orRaise _ _) (fun _ => .inr ⟨hnone, rfl⟩) fun subject => ?_
    refine .bind_silent (Silent.orRaise _ _) (fun _ => .inr ⟨hnone, rfl⟩) fun names => ?_
    refine (emits_write _ _ _ _).consequence fun r es h => .inl ⟨h.1, _, h.2, ?_, rfl⟩
    exact leafTbs_storable ..

theorem leafSteps_writes {draw : Draw X} {es : List (FsStep X)} (h : LeafSteps draw es) :
    es.any (·.writes .serverPem) = true := by
  obtain ⟨cert, rfl, -⟩ := h
  rfl

/-- A call that comes to `_create_leaf` after steps elsewhere writes a leaf where it returns. -/
theorem written_of_createLeaf (c : Call X) (pre : List (FsStep X)) (d' : Directory X)
    (hexec : c.op.exec d =
      (pre ++ ((createLeaf c.fqdn c.ipAddresses c.draw).exec d').1,
        ((createLeaf c.fqdn c.ipAddresses c.draw).exec d').2))
    (hpre : pre.any (·.writes .serverPem) = false) :
    (Returns d c → written .serverPem d (.call c) = [c.clock .serverPem]) ∧
      (¬ Returns d c → written .serverPem d (.call c) = []) := by
  have hret : Returns d c ↔ (createLeaf c.fqdn c.ipAddresses c.draw).result d' = .ok () := by
    unfold Returns Program.result
    rw [hexec]
  have hany : (c.op.exec d).1.any (·.writes .serverPem) =
      ((createLeaf c.fqdn c.ipAddresses c.draw).exec d').1.any (·.writes .serverPem) := by
    rw [hexec]
    dsimp only
    rw [List.any_append, hpre, Bool.false_or]
  rw [written_call, hret, hany]
  rcases createLeaf_steps c.fqdn c.ipAddresses c.draw d' with ⟨hok, hsteps⟩ | ⟨hno, hnil⟩
  · exact ⟨fun _ => if_pos (leafSteps_writes hsteps), fun h => absurd hok h⟩
  · rw [hnil]
    exact ⟨fun h => absurd h hno, fun _ => if_neg Bool.false_ne_true⟩

/-- Where the four files are there, `ensure` comes to the question whether the leaf covers the host
without writing anything. -/
theorem ensure_exec {cert : Certificate X.PublicKey X.Signature}
    (hca : d.has .caPem ∧ d.has .caKey) (hserver : d.has .serverPem ∧ d.has .serverKey)
    (hcert : d.cert .serverPem = some cert) (creds : ServerCredentials) (fqdn : String)
    (ipAddresses : List String) (caDraw leafDraw : Draw X) :
    (Certs.ensure creds fqdn ipAddresses caDraw leafDraw).exec d =
      ([.mkdir, .chmodDirectory 0o700] ++ ((if sanCovers cert fqdn then pure ()
          else createLeaf fqdn ipAddresses leafDraw : Op X Unit).exec d.opened).1,
        ((if sanCovers cert fqdn then pure () else createLeaf fqdn ipAddresses leafDraw :
          Op X Unit).exec d.opened).2) := by
  have hensureCa : (ensureCa creds caDraw).exec d.opened = ([], .ok false) := by
    show Program.exec (if ((d.file .caPem).isSome && (d.file .caKey).isSome) = true then pure false
      else _) d.opened = _
    rw [if_pos (by rw [Bool.and_eq_true]; exact hca)]
    rfl
  have hload : (loadCert .serverPem).result d.opened = .ok cert :=
    loadCert_returns.mpr hcert
  have hleaf : (ensureLeaf fqdn ipAddresses leafDraw false).exec d.opened =
      (if sanCovers cert fqdn then pure () else createLeaf fqdn ipAddresses leafDraw :
        Op X Unit).exec d.opened := by
    show Program.exec (if (false || !((d.file .serverPem).isSome &&
      (d.file .serverKey).isSome)) = true then _ else _) d.opened = _
    have hboth : ((d.file .serverPem).isSome && (d.file .serverKey).isSome) = true := by
      rw [Bool.and_eq_true]
      exact hserver
    rw [hboth, if_neg (by decide), exec_bind_ok hload, loadCert_final hload,
      show ((loadCert .serverPem : Op X _).exec d.opened).1 = [] from silent_loadCert _ _]
    rfl
  have hmkdir : (mkdirPrivate : Op X Unit).result d = .ok () := rfl
  have hcaOk : (ensureCa creds caDraw).result d.opened = .ok false := congrArg Prod.snd hensureCa
  have hcaFinal : (ensureCa creds caDraw).final d.opened = d.opened := by
    unfold Program.final
    rw [hensureCa]
    rfl
  rw [ensure_eq, exec_bind_ok hmkdir, (mkdirPrivate_spec (E := fun _ _ => True) d d rfl).1 () rfl,
    exec_bind_ok hcaOk, hcaFinal, hensureCa, hleaf]
  rfl

/-- **A leaf is written exactly by the calls that issue one**, whatever their clock. -/
theorem written_iff_issues {leaf : Certificate X.PublicKey X.Signature}
    (hca : d.has .caPem ∧ d.has .caKey) (hkey : d.has .serverKey)
    (hleaf : d.cert .serverPem = some leaf) (c : Call X) :
    (Issues d c → written .serverPem d (.call c) = [c.clock .serverPem]) ∧
      (¬ Issues d c → written .serverPem d (.call c) = []) := by
  cases c with
  | ensure creds fqdn ipAddresses caDraw leafDraw =>
    have hexec := ensure_exec hca ⟨has_of_cert hleaf, hkey⟩ hleaf creds fqdn ipAddresses caDraw
      leafDraw
    by_cases hcov : sanCovers leaf fqdn = true
    · -- the leaf is kept
      refine ⟨fun h => absurd ⟨leaf, hleaf, hcov⟩ h.2, fun _ => ?_⟩
      rw [if_pos hcov] at hexec
      rw [written_call, show (Call.ensure creds fqdn ipAddresses caDraw leafDraw).op.exec d = _
        from hexec]
      rfl
    · rw [if_neg hcov] at hexec
      have hw := written_of_createLeaf (.ensure creds fqdn ipAddresses caDraw leafDraw) _ _ hexec rfl
      refine ⟨fun h => hw.1 h.1, fun h => hw.2 fun hret => h ⟨hret, ?_⟩⟩
      rintro ⟨leaf', hleaf', hcov'⟩
      obtain rfl := Option.some.inj (hleaf.symm.trans hleaf')
      exact hcov hcov'
  | rotate fqdn ipAddresses draw =>
    refine written_of_createLeaf (.rotate fqdn ipAddresses draw) [] d ?_ rfl
    show Program.exec (if (!((d.file .caPem).isSome && (d.file .caKey).isSome)) = true then
      raise .noCa else createLeaf fqdn ipAddresses draw) d = _
    rw [if_neg (by rw [Bool.not_eq_true', Bool.not_eq_false, Bool.and_eq_true]; exact hca)]
    rfl

end

/-! ## Top theorems (proved from the lemmas above) -/

/-- **How long what the server presents is valid.**  In every history of calls, of calls that are cut
off, and of deletions of files of the leaf only or of all four files, in which a context can be
built: its certificate chains to the CA on disk, and is valid from the clock of the last call that
wrote a leaf for two years, the CA's from that of the last call that wrote a CA for ten.  The next
call writes a leaf exactly if it issues one: a rotation that returns does, an `ensure` of a host
that the leaf covers does not. -/
theorem validity_iff (X : Cryptography) [DecidableEq X.PublicKey] (hX : X.Documented)
    (hempty : X.loadCert X.empty = none) (mode : Option Nat) (hs : List (Happening X))
    (h : ∀ x ∈ hs, LeafOrAll x) (certsDir : String) (staging : Bool) (ctx : SslContext X)
    (hctx : buildSslContext (run happen (Directory.empty mode) hs) certsDir staging = .ok ctx) :
    let d := run happen (Directory.empty mode) hs
    ∃ pem anchor made issued, caCertificatePem d = .ok pem ∧ X.loadCert pem = some anchor ∧
      Chains X anchor ctx.certificate ∧
      (outputs happen (written .caPem) (Directory.empty mode) hs).getLast? = some made ∧
      (outputs happen (written .serverPem) (Directory.empty mode) hs).getLast? = some issued ∧
      (∀ t, (ValidAt anchor t ↔ made ≤ t ∧ t ≤ made + CA_VALIDITY) ∧
        (ValidAt ctx.certificate t ↔ issued ≤ t ∧ t ≤ issued + LEAF_VALIDITY)) ∧
      ∀ c, (Issues d c → written .serverPem d (.call c) = [c.clock .serverPem]) ∧
        (¬ Issues d c → written .serverPem d (.call c) = []) := by
  intro d
  have hd : Lineage d := lineage_run hX hempty mode h
  obtain ⟨hleaf, hkey, -, -, -⟩ := buildSslContext_eq_ok.mp hctx
  obtain ⟨cn, draw, hca, hissued⟩ := hd.leaf_issued hX hempty hleaf
  have hanchor := (hca.read hX).1
  obtain ⟨made, hmade, hfrom, hto⟩ :=
    last_written hX hempty not_secret_caPem mode hs _ hanchor
  obtain ⟨issued, hlast, hfrom', hto'⟩ :=
    last_written hX hempty not_secret_serverPem mode hs _ hleaf
  have hkeyHas : d.has .serverKey := by
    obtain ⟨contents, hcontents, -⟩ := Option.bind_eq_some_iff.mp ((key_contents _ _).symm.trans hkey)
    obtain ⟨contents', hcontents', -⟩ := Option.bind_eq_some_iff.mp hcontents
    exact has_of_contents hcontents'
  refine ⟨_, caCert X cn draw, made, issued, caCertificatePem_eq_ok.mpr hca.1,
    hX.loadCert_certPem _ rfl, hissued.chains hX, hmade, hlast, fun t => ?_, fun c => ?_⟩
  · unfold ValidAt
    rw [hfrom, hto, hfrom', hto']
    exact ⟨Iff.rfl, Iff.rfl⟩
  · exact written_iff_issues ⟨has_of_contents hca.1, has_of_contents hca.2⟩ hkeyHas hleaf c

/-- Credentials made at 100; the leaf is rotated at 300, and ensured at 400 and years later. -/
def aged : List (Happening symbolic) :=
  [.call (.ensure sampleCredentials "localhost" [] ⟨(1 : Nat), 1, 100⟩ ⟨(2 : Nat), 2, 200⟩),
    .call (.rotate "localhost" [] ⟨(5 : Nat), 5, 300⟩),
    .call (.ensure sampleCredentials "localhost" [] ⟨(7 : Nat), 7, 400⟩ ⟨(8 : Nat), 8, 400⟩),
    .call (.ensure sampleCredentials "localhost" [] ⟨(7 : Nat), 7, 400⟩
      ⟨(9 : Nat), 9, 301 + LEAF_VALIDITY⟩)]

/-- The leaf of the rotation is what is presented, it has expired before its CA, and the next
`ensure` does not renew it. -/
theorem aged_expired :
    let d := run happen (Directory.empty none) aged
    ∃ ctx pem anchor, buildSslContext d "certs" false = .ok ctx ∧
      symbolic.loadCert pem = some anchor ∧ Chains symbolic anchor ctx.certificate ∧
      ValidAt ctx.certificate 400 ∧ ¬ ValidAt ctx.certificate (301 + LEAF_VALIDITY) ∧
      ValidAt anchor (301 + LEAF_VALIDITY) ∧
      written .serverPem d (.call (symbolicEnsure "localhost" 11)) = [] := by
  intro d
  obtain ⟨ctx, hctx⟩ : ∃ ctx, buildSslContext d "certs" false = .ok ctx := ⟨_, rfl⟩
  obtain ⟨pem, anchor, made, issued, -, hanchor, hchains, hmade, hissued, hvalid, hnext⟩ :=
    validity_iff symbolic symbolic_documented rfl none aged (by simp [aged, LeafOrAll]) "certs" false
      ctx hctx
  obtain rfl : 100 = made := Option.some.inj hmade
  obtain rfl : 300 = issued := Option.some.inj hissued
  have hten : CA_VALIDITY = 315360000 := rfl
  have htwo : LEAF_VALIDITY = 63072000 := rfl
  refine ⟨ctx, pem, anchor, hctx, hanchor, hchains, (hvalid _).2.mpr ?_, fun hlate => ?_,
    (hvalid _).1.mpr ?_, (hnext _).2 fun hissues => hissues.2 ?_⟩
  · omega
  · have := (hvalid _).2.mp hlate
    omega
  · omega
  · have hcovers : (d.cert .serverPem).map (sanCovers · "localhost") = some true := rfl
    rw [(buildSslContext_eq_ok.mp hctx).1] at hcovers
    exact ⟨_, (buildSslContext_eq_ok.mp hctx).1, Option.some.inj hcovers⟩

end Certs

end FleetTelemetry
