import FleetTelemetry.Envelope.Acceptance
import FleetTelemetry.Server.Delivery
import FleetTelemetry.Server.Frames

/-!
# Exchanges that an exception cuts short

An exception that nothing catches can strike `_handle` at any await.  It ends the
exchange it strikes and the loop over the messages; no earlier exchange is touched, and
none is begun after it:

    s.session i = none → Cut lib i (outputs (step lib) (seen lib) s es) (run (step lib) s es)  (cut_run)

So no record is dispatched of a frame that was not acknowledged, whatever raises
(`session_exchanges`).
-/

namespace FleetTelemetry

open Runs

namespace Server

variable {V : Type} (lib : Libraries V)

/-! ## Algorithm -/

/-- Every exchange but the last is complete, and the last ends no send it has not begun. -/
structure CompleteButLast (X : List Exchange) : Prop where
  begun : ∀ x ∈ X, x.2.isSome → (reply lib x.1).isSome
  complete : ∀ x ∈ X.dropLast, Complete lib x

/-- The acts of a session that an exception may have cut short. -/
def CutScript (vin : String) (i : Nat) (own : List (Act V)) : Prop :=
  own = [] ∨ ∃ now, ∃ X : List Exchange, ∃ closing,
    own = opening vin i now ++ X.flatMap (exchange lib vin i) ++ closing ∧
      (closing = [] ∨ Closing vin i closing) ∧ CompleteButLast lib X

/-- The session is where its acts have led it, or an exception has. -/
def Cut (i : Nat) (log : List (Obs V)) (s : Server V) : Prop :=
  Scripted lib i log s ∨
    ∃ ss, s.session i = some ss ∧ Raised ss.phase ∧ CutScript lib ss.vin i (acts i log)

/-- The message is a serialisation of a frame that a vehicle with that VIN sends, and `r` is the
record with what was serialised. -/
def Carries (vin : String) (msg : WSMessage) (r : Record V) : Prop :=
  msg.type = .binary ∧ msg.data.length ≤ SIZE_LIMIT ∧ ∃ f t m, SerialisesStream msg.data f ∧
    f.topic = t.bytes ∧ lib.parse t f.payload = some m ∧
    r = ⟨vin, t, f.createdAt * 1000000, decodeReplace f.txid, m, f.payload⟩

/-! ## Lemmas -/

variable {lib}

theorem completeButLast_of_complete {X : List Exchange} (hX : ∀ x ∈ X, Complete lib x) :
    CompleteButLast lib X :=
  ⟨fun x hx h => (hX x hx) ▸ h, fun x hx => hX x (List.mem_of_mem_dropLast hx)⟩

theorem completeButLast_nil : CompleteButLast lib [] :=
  completeButLast_of_complete (List.forall_mem_nil _)

/-- An exchange whose send has not ended. -/
theorem completeButLast_snoc {X : List Exchange} (hX : ∀ x ∈ X, Complete lib x) (msg : WSMessage) :
    CompleteButLast lib (X ++ [(msg, none)]) := by
  refine ⟨fun x hx h => ?_, fun x hx => ?_⟩
  · rcases List.mem_append.mp hx with hx | hx
    · exact (hX x hx) ▸ h
    · rw [List.mem_singleton.mp hx] at h
      cases h
  · rw [List.dropLast_concat] at hx
    exact hX x hx

section
variable {vin : String} {i : Nat}

/-- The exchanges of a session that is inside the `try` block. -/
theorem Script.of_live {p : Phase V} {own : List (Act V)} (h : Script lib vin i p own)
    (hp : Live p) : ∃ now, ∃ X : List Exchange, CompleteButLast lib X ∧
      own = opening vin i now ++ X.flatMap (exchange lib vin i) := by
  cases h with
  | fresh p h => rcases h with rfl | ⟨raised, rfl⟩ <;> exact absurd hp id
  | connecting d now => exact absurd hp id
  | handling p now X h hX => exact ⟨now, X, completeButLast_of_complete hX, rfl⟩
  | acking f now X msg ack hX h => exact ⟨now, _, completeButLast_snoc hX msg, rfl⟩
  | closed p raised now X closing h => rcases h with rfl | ⟨d, rfl⟩ <;> exact absurd hp id

theorem Script.cut {p : Phase V} {own : List (Act V)} (h : Script lib vin i p own) :
    CutScript lib vin i own := by
  cases h with
  | fresh p h => exact .inl rfl
  | connecting d now =>
    exact .inr ⟨now, [], [], by simp, .inl rfl, completeButLast_nil⟩
  | handling p now X h hX =>
    exact .inr ⟨now, X, [], by simp, .inl rfl, completeButLast_of_complete hX⟩
  | acking f now X msg ack hX h =>
    exact .inr ⟨now, _, [], by simp, .inl rfl, completeButLast_snoc hX msg⟩
  | closed p raised now X closing h hX hc =>
    exact .inr ⟨now, X, closing, rfl, .inr hc, completeButLast_of_complete hX⟩

theorem Raised.not_live {p : Phase V} (h : Raised p) : ¬ Live p := by
  rcases h with rfl | ⟨d, rfl⟩ <;> exact id

theorem Leaves.live {e : Event} {p : Phase V} {raised : Bool} {obs : List (Obs V)}
    (h : Leaves lib i e p raised obs) : Live p := by
  cases h with
  | raised p now hp => exact hp
  | finished | unencodable => trivial

/-- Past the `try` block a session does nothing more that shows. -/
theorem Quiet.raised {e : Event} {p p' : Phase V} {obs : List (Obs V)}
    (h : Quiet lib vin i e p p' obs) (hp : Raised p) : Raised p' ∧ obs = [] := by
  cases h with
  | abandoned p now hl hend => exact ⟨.inl rfl, rfl⟩
  | skipped | acknowledged | unsent | unparsable => exact absurd trivial hp.not_live

end

theorem raised_walk {stage : Stage} {d : Delivery V} (h : Raised (.delivering stage d))
    (d' : Option (Delivery V)) : Raised (walk stage d') := by
  rcases h with h | ⟨d₀, h⟩
  · cases h
  · obtain ⟨rfl, -⟩ := Phase.delivering.inj h
    cases d' with
    | none => exact .inl rfl
    | some d' => exact .inr ⟨d', rfl⟩

/-- Once an exception has ended its loop, a session only delivers its DISCONNECTED. -/
theorem raised_step (lib : Libraries V) {s : Server V} {i : Nat} {ss : Session V}
    (hs : s.session i = some ss) (hp : Raised ss.phase) (e : Event) :
    (∃ ss', (s.step lib e).session i = some ss' ∧ ss'.vin = ss.vin ∧ Raised ss'.phase) ∧
      acts i (s.seen lib e) = [] := by
  have hm := step_move lib s e
  generalize s.step lib e = s' at hm ⊢
  generalize s.seen lib e = obs at hm ⊢
  have hother {j : Nat} {x : Option (Session V)} (hij : j ≠ i) :
      ∃ ss', Function.update s.session j x i = some ss' ∧ ss'.vin = ss.vin ∧ Raised ss'.phase :=
    ⟨ss, by rw [Function.update_of_ne (Ne.symm hij), hs], rfl, hp⟩
  cases hm with
  | idle => exact ⟨⟨ss, hs, rfl, hp⟩, rfl⟩
  | environment e henv => exact ⟨⟨ss, by rw [(environment_frame lib s henv).2, hs], rfl, hp⟩, rfl⟩
  | opened j request ss₀ obs hnew hphase hobs =>
    have hij : j ≠ i := by
      rintro rfl
      rw [hs] at hnew
      cases hnew
    exact ⟨hother hij, filterMap_responded (fun _ _ => rfl) hobs⟩
  | quiet e j ss₀ p obs hs₀ hq =>
    by_cases hij : j = i
    · subst hij
      obtain rfl := Option.some.inj (hs₀.symm.trans hs)
      obtain ⟨hp', rfl⟩ := hq.raised hp
      exact ⟨⟨_, Function.update_self .., rfl, hp'⟩, rfl⟩
    · exact ⟨hother hij, hq.acts_of_ne hij⟩
  | connect j ss₀ now hs₀ hp₀ =>
    have hij : j ≠ i := by
      rintro rfl
      obtain rfl := Option.some.inj (hs₀.symm.trans hs)
      rw [hp₀] at hp
      rcases hp with h | ⟨d, h⟩ <;> cases h
    exact ⟨hother hij, by rw [connect_acts, if_neg hij]⟩
  | frame j ss₀ f record hs₀ hp₀ hr =>
    have hij : j ≠ i := by
      rintro rfl
      obtain rfl := Option.some.inj (hs₀.symm.trans hs)
      exact hp.not_live (by rw [hp₀]; trivial)
    refine ⟨hother hij, ?_⟩
    rw [acts_cons, dispatch_acts, if_neg hij]
    simp [act, hij]
  | disconnect e j ss₀ raised now pre hs₀ hl =>
    have hij : j ≠ i := by
      rintro rfl
      obtain rfl := Option.some.inj (hs₀.symm.trans hs)
      exact hp.not_live hl.live
    obtain ⟨p, hses, -⟩ := disconnect_session s j ss₀ raised now
    refine ⟨by rw [hses]; exact hother hij, ?_⟩
    rw [acts_append, hl.acts_of_ne hij, (disconnect_acts s i j ss₀ raised now).2 hij]
    rfl
  | resume j ss₀ stage d hs₀ hp₀ =>
    refine ⟨?_, acts_invoked i _⟩
    by_cases hij : j = i
    · subst hij
      obtain rfl := Option.some.inj (hs₀.symm.trans hs)
      rw [hp₀] at hp
      exact ⟨_, Function.update_self .., rfl, raised_walk hp _⟩
    · exact hother hij

/-- An exception that strikes a session inside its script. -/
theorem raises_cut (lib : Libraries V) {i : Nat} {log : List (Obs V)} {s : Server V}
    (h : Scripted lib i log s) (now : Nat) :
    Cut lib i (log ++ s.seen lib (.raises i now)) (s.step lib (.raises i now)) := by
  unfold step seen
  simp only [exec]
  cases hs : s.session i with
  | none =>
    refine .inl ?_
    show Scripted lib i (log ++ []) s
    rwa [List.append_nil]
  | some ss =>
    have hscript := h.script hs
    have hended : Cut lib i (log ++ []) (s.goto i ss (.ended true)) := by
      refine .inr ⟨_, Function.update_self .., .inl rfl, ?_⟩
      rw [List.append_nil]
      exact hscript.cut
    have hleave (hl : Live ss.phase) :
        Cut lib i (log ++ (s.disconnect i ss true now).2) (s.disconnect i ss true now).1 := by
      obtain ⟨p, hses, hp⟩ := disconnect_session s i ss true now
      obtain ⟨t, X, hX, hown⟩ := hscript.of_live hl
      refine .inr ⟨{ ss with phase := p }, by rw [hses, Function.update_self], Or.symm hp, ?_⟩
      rw [acts_append, hown]
      exact .inr ⟨t, X, _, rfl, .inr ((disconnect_acts s i i ss true now).1 rfl), hX⟩
    simp only [raises]
    cases hphase : ss.phase with
    | preparing => exact hended
    | receiving | acking => exact hleave (by rw [hphase]; trivial)
    | delivering stage d =>
      cases stage with
      | frame => exact hleave (by rw [hphase]; trivial)
      | connect | disconnect => exact hended
    | ended raised =>
      refine .inl ?_
      show Scripted lib i (log ++ []) s
      rwa [List.append_nil]

theorem cut_step (lib : Libraries V) {i : Nat} {log : List (Obs V)} {s : Server V} (e : Event)
    (h : Cut lib i log s) : Cut lib i (log ++ s.seen lib e) (s.step lib e) := by
  rcases h with h | ⟨ss, hs, hp, hown⟩
  · by_cases he : ∃ now, e = .raises i now
    · obtain ⟨now, rfl⟩ := he
      exact raises_cut lib h now
    · exact .inl (scripted_step h fun now hnow => he ⟨now, hnow⟩)
  · obtain ⟨⟨ss', hs', hvin, hp'⟩, hobs⟩ := raised_step lib hs hp e
    refine .inr ⟨ss', hs', hp', ?_⟩
    rw [acts_append, hobs, List.append_nil, hvin]
    exact hown

/-- **The acts of a session are a script that an exception may have cut short**, in any run. -/
theorem cut_run (lib : Libraries V) (s : Server V) (es : List Event) {i : Nat}
    (hnew : s.session i = none) :
    Cut lib i (outputs (step lib) (seen lib) s es) (run (step lib) s es) := by
  have h0 : Cut lib i [] s := by
    refine .inl ?_
    unfold Scripted
    rw [hnew]
    rfl
  exact trace_invariant (step lib) (seen lib) h0 (fun _ _ e h => cut_step lib e h) es

theorem Cut.script {i : Nat} {log : List (Obs V)} {s : Server V} {ss : Session V}
    (h : Cut lib i log s) (hs : s.session i = some ss) : CutScript lib ss.vin i (acts i log) := by
  rcases h with h | ⟨ss', hs', -, hown⟩
  · exact (h.script hs).cut
  · obtain rfl := Option.some.inj (hs'.symm.trans hs)
    exact hown

/-- The exchanges of a script that an exception may have cut short, and the calls it makes. -/
theorem CutScript.exchanges {vin : String} {i : Nat} {own : List (Act V)}
    (h : CutScript lib vin i own) :
    ∃ X : List Exchange, CompleteButLast lib X ∧
      own.filterMap Act.message = X.map Prod.fst ∧
      own.filterMap Act.outcome = X.filterMap Prod.snd ∧
      own.filter Act.onMessage = X.flatMap (exchange lib vin i) ∧
      (own = [] ∨ ∃ now closing, own.filterMap Act.call =
          ⟨i, .connect, connectivityRecord vin .connected now⟩ ::
            X.filterMap (frameCall lib vin i) ++ closing ∧
        (closing = [] ∨
          ∃ now, closing = [⟨i, .disconnect, connectivityRecord vin .disconnected now⟩])) := by
  rcases h with rfl | ⟨now, X, closing, rfl, hc, hX⟩
  · exact ⟨[], completeButLast_nil, rfl, rfl, rfl, .inl rfl⟩
  · obtain ⟨om, oo, oc, of⟩ := opening_projections (V := V) vin i now
    obtain ⟨fm, fo, fc, ff⟩ := flatMap_projections vin i hX.begun
    obtain ⟨cm, co, cc, cf⟩ := closing_projections hc
    refine ⟨X, hX, ?_, ?_, ?_, .inr ⟨now, closing.filterMap Act.call, ?_, cc⟩⟩
    · rw [List.filterMap_append, List.filterMap_append, om, fm, cm, List.nil_append, List.append_nil]
    · rw [List.filterMap_append, List.filterMap_append, oo, fo, co, List.nil_append, List.append_nil]
    · rw [List.filter_append, List.filter_append, of, ff, cf, List.nil_append, List.append_nil]
    · rw [List.filterMap_append, List.filterMap_append, oc, fc, List.singleton_append]

/-! ### What a vehicle sends -/

/-- A message that carries a record is accepted as the frame of that record. -/
theorem recordOf_of_carries (hdoc : lib.flatbuffers.Documented) {vin : String} {msg : WSMessage}
    {r : Record V} (h : Carries lib vin msg r) :
    ∃ f, accept lib msg = some f ∧ recordOf lib vin f = some r := by
  obtain ⟨ht, hl, f, t, m, hser, htopic, hparse, hr⟩ := h
  have hlen : msg.data.length ≤ 2 ^ 32 := hl.trans (by decide)
  have hdec : decode lib.flatbuffers msg.data = .ok f :=
    (decode_holds hdoc.toReads hlen f).mpr hser.holds
  have hacc : accept lib msg = some f := accept_eq_some.mpr ⟨ht, hl, hdec⟩
  exact ⟨f, hacc, (recordOf_eq_some hdoc vin hacc r).mpr ⟨t, m, htopic, hparse, hr⟩⟩

/-- The call made of a message that carries a record and whose acknowledgement was sent. -/
theorem frameCall_of_carries (hdoc : lib.flatbuffers.Documented) {vin : String} (i : Nat)
    {msg : WSMessage} {r : Record V} (h : Carries lib vin msg r) :
    frameCall lib vin i (msg, some true) = some ⟨i, .frame, r⟩ := by
  obtain ⟨f, hacc, hrec⟩ := recordOf_of_carries hdoc h
  obtain ⟨ack, hreply, -⟩ := reply_of_accept hdoc hacc
  unfold frameCall
  rw [hreply]
  show (recordOf lib vin f).map _ = _
  rw [hrec]
  rfl

theorem frameCall_eq_none {vin : String} {i : Nat} {x : Exchange} (h : x.2 ≠ some true) :
    frameCall lib vin i x = none := by
  unfold frameCall
  split
  · next hx => exact absurd hx h
  · rfl

theorem frameCall_origin {vin : String} {i : Nat} {X : List Exchange} :
    ∀ call ∈ X.filterMap (frameCall lib vin i), call.origin = .frame := by
  intro call hcall
  obtain ⟨x, -, hx⟩ := List.mem_filterMap.mp hcall
  unfold frameCall at hx
  split at hx
  · obtain ⟨r, -, rfl⟩ := Option.map_eq_some_iff.mp hx
    rfl
  · cases hx

theorem message_mem_iff (i : Nat) (log : List (Obs V)) (msg : WSMessage) :
    msg ∈ (acts i log).filterMap Act.message ↔ .received i msg ∈ log := by
  constructor
  · intro h
    obtain ⟨a, ha, hmsg⟩ := List.mem_filterMap.mp h
    obtain ⟨o, ho, hact⟩ := List.mem_filterMap.mp ha
    cases o with
    | received j msg' =>
      simp only [act] at hact
      split at hact
      · next hji =>
        obtain rfl := Option.some.inj hact
        obtain rfl := Option.some.inj hmsg
        rwa [← hji]
      · cases hact
    | responded | invoked => cases hact
    | registered | disconnecting | dispatched | sending | sent =>
      simp only [act] at hact
      split at hact
      · obtain rfl := Option.some.inj hact
        cases hmsg
      · cases hact
  · intro h
    have hact : act i (.received i msg : Obs V) = some (.received msg) := if_pos rfl
    exact List.mem_filterMap.mpr ⟨_, List.mem_filterMap.mpr ⟨_, h, hact⟩, rfl⟩

/-- The calls made of frames, between CONNECTED and DISCONNECTED. -/
theorem filter_frame {vin : String} {i now : Nat} {X : List Exchange} {closing : List (Call V)}
    (hc : closing = [] ∨
      ∃ now, closing = [⟨i, .disconnect, connectivityRecord vin .disconnected now⟩]) :
    (⟨i, .connect, connectivityRecord vin .connected now⟩ ::
        X.filterMap (frameCall lib vin i) ++ closing).filter (fun call => call.origin = .frame) =
      X.filterMap (frameCall lib vin i) := by
  have hframes : (X.filterMap (frameCall lib vin i)).filter (fun call => call.origin = .frame) =
      X.filterMap (frameCall lib vin i) :=
    List.filter_eq_self.mpr fun call hcall => by simpa using frameCall_origin call hcall
  rw [List.filter_append, List.filter_cons_of_neg (by simp), hframes]
  rcases hc with rfl | ⟨now', rfl⟩
  · exact List.append_nil _
  · rw [List.filter_cons_of_neg (by simp), List.filter_nil, List.append_nil]

/-- The calls made of the exchanges, one for each acknowledgement that was sent. -/
theorem forall₂_frameCall {vin : String} {i : Nat} {R : Exchange → Call V → Prop}
    {X : List Exchange}
    (h : ∀ x ∈ X, x.2 = some true → ∃ call, frameCall lib vin i x = some call ∧ R x call) :
    List.Forall₂ R (X.filter fun x => x.2 = some true) (X.filterMap (frameCall lib vin i)) := by
  induction X with
  | nil => exact .nil
  | cons x X ih =>
    have htail := ih fun y hy => h y (List.mem_cons_of_mem _ hy)
    by_cases hx : x.2 = some true
    · obtain ⟨call, hcall, hR⟩ := h x List.mem_cons_self hx
      rw [List.filter_cons_of_pos (by simpa using hx), List.filterMap_cons_some hcall]
      exact .cons hR htail
    · rw [List.filter_cons_of_neg (by simpa using hx),
        List.filterMap_cons_none (frameCall_eq_none hx)]
      exact htail

/-! ## Top theorems (proved from the lemmas above) -/

/-- **Acknowledged before anything else, whatever raises.**  What a session does on the messages it
gets, in any run, is one `exchange` for each message, in order, of which only the last can have
been cut short; so it dispatches one record for each frame whose acknowledgement was sent and whose
payload parses, between its CONNECTED and its DISCONNECTED, and no other. -/
theorem session_exchanges (lib : Libraries V) (hdoc : lib.flatbuffers.Documented) (n : Nat)
    (es : List Event) (i : Nat) (ss : Session V) (hs : (after lib n es).session i = some ss) :
    ∃ X : List Exchange,
      (acts i (log lib n es)).filterMap Act.message = X.map Prod.fst ∧
      (acts i (log lib n es)).filterMap Act.outcome = X.filterMap Prod.snd ∧
      (acts i (log lib n es)).filter Act.onMessage = X.flatMap (exchange lib ss.vin i) ∧
      (∀ x ∈ X, x.2.isSome → (accept lib x.1).isSome) ∧
      (∀ x ∈ X.dropLast, (accept lib x.1).isSome → x.2.isSome) ∧
      (acts i (log lib n es) = [] ∨ ∃ now closing, (log lib n es).filterMap (dispatchedBy i) =
          ⟨i, .connect, connectivityRecord ss.vin .connected now⟩ ::
            X.filterMap (frameCall lib ss.vin i) ++ closing ∧
        (closing = [] ∨
          ∃ now, closing = [⟨i, .disconnect, connectivityRecord ss.vin .disconnected now⟩])) := by
  obtain ⟨X, hX, hm, ho, hf, hc⟩ := ((cut_run lib (init n) es rfl).script hs).exchanges
  rw [call_acts] at hc
  refine ⟨X, hm, ho, hf, fun x hx h => ?_, fun x hx h => ?_, hc⟩
  · rw [← reply_isSome hdoc]
    exact hX.begun x hx h
  · rw [hX.complete x hx, reply_isSome hdoc]
    exact h

/-- An exception strikes while the acknowledgement of a second frame is being sent. -/
def cutShort : List Event :=
  [.request 0 sampleRequest, .prepared 0 5, .message 0 ⟨.binary, emptyFrame⟩ 6, .sent 0 true,
    .message 0 ⟨.binary, emptyFrame⟩ 7, .raises 0 8]

theorem cutShort_exchanges :
    ∃ X : List Exchange, X.map Prod.fst = [⟨.binary, emptyFrame⟩, ⟨.binary, emptyFrame⟩] ∧
      X.filterMap Prod.snd = [true] ∧
      (acts 0 (log sampleLibraries 1 cutShort)).filter Act.onMessage =
        X.flatMap (exchange sampleLibraries "V" 0) := by
  have hs : ((after sampleLibraries 1 cutShort).session 0).map Session.vin = some "V" := by decide
  obtain ⟨ss, hss, hv⟩ := Option.map_eq_some_iff.mp hs
  obtain ⟨X, hm, ho, hf, -⟩ := session_exchanges sampleLibraries FlatBuffers.reference_documented 1
    cutShort 0 ss hss
  rw [hv] at hf
  exact ⟨X, hm.symm.trans rfl, ho.symm.trans rfl, hf⟩

/-- **What a vehicle serialised is what is dispatched.**  In any run in which every binary message
of a session is a serialisation of a frame, with one of the topics and a payload that parses, the
records dispatched of its frames are one for each acknowledgement that was sent, in order, each
with the VIN of the session and the values that were serialised. -/
theorem telemetry_preserved (lib : Libraries V) (hdoc : lib.flatbuffers.Documented) (n : Nat)
    (es : List Event) (i : Nat) (ss : Session V) (hs : (after lib n es).session i = some ss)
    (hsent : ∀ msg, .received i msg ∈ log lib n es → msg.type = .binary →
      ∃ r, Carries lib ss.vin msg r) :
    ∃ X : List Exchange,
      (acts i (log lib n es)).filterMap Act.message = X.map Prod.fst ∧
      (acts i (log lib n es)).filterMap Act.outcome = X.filterMap Prod.snd ∧
      (∀ x ∈ X, x.2.isSome → x.1.type = .binary) ∧
      (∀ x ∈ X.dropLast, x.1.type = .binary → x.2.isSome) ∧
      List.Forall₂ (fun x call => ∃ r, Carries lib ss.vin x.1 r ∧ call = ⟨i, .frame, r⟩)
        (X.filter fun x => x.2 = some true)
        (((log lib n es).filterMap (dispatchedBy i)).filter fun call => call.origin = .frame) := by
  obtain ⟨X, hX, hm, ho, hf, hc⟩ := ((cut_run lib (init n) es rfl).script hs).exchanges
  have hbinary : ∀ x ∈ X, x.2.isSome → x.1.type = .binary := by
    intro x hx hsome
    have hreply := hX.begun x hx hsome
    rw [reply_isSome hdoc] at hreply
    obtain ⟨f, hacc⟩ := Option.isSome_iff_exists.mp hreply
    exact (accept_eq_some.mp hacc).1
  have hcarries : ∀ x ∈ X, x.1.type = .binary → ∃ r, Carries lib ss.vin x.1 r := by
    intro x hx ht
    refine hsent x.1 ?_ ht
    refine (message_mem_iff i _ x.1).mp ?_
    show x.1 ∈ (acts i (outputs (step lib) (seen lib) (init n) es)).filterMap Act.message
    rw [hm]
    exact List.mem_map_of_mem hx
  have hframes : ((log lib n es).filterMap (dispatchedBy i)).filter (fun call => call.origin = .frame) =
      X.filterMap (frameCall lib ss.vin i) := by
    rw [← call_acts]
    rcases hc with hnil | ⟨now, closing, hcalls, hclosing⟩
    · obtain rfl : X = [] := by simpa [hnil] using hm.symm
      show ((acts i (outputs (step lib) (seen lib) (init n) es)).filterMap Act.call).filter _ = []
      rw [hnil]
      rfl
    · show ((acts i (outputs (step lib) (seen lib) (init n) es)).filterMap Act.call).filter _ = _
      rw [hcalls]
      exact filter_frame hclosing
  refine ⟨X, hm, ho, hbinary, fun x hx ht => ?_, ?_⟩
  · obtain ⟨r, hr⟩ := hcarries x (List.mem_of_mem_dropLast hx) ht
    obtain ⟨f, hacc, -⟩ := recordOf_of_carries hdoc hr
    rw [hX.complete x hx, reply_isSome hdoc, hacc]
    rfl
  · rw [hframes]
    refine forall₂_frameCall fun x hx hsend => ?_
    obtain ⟨r, hr⟩ := hcarries x hx (hbinary x hx (by rw [hsend]; rfl))
    obtain ⟨msg, outcome⟩ := x
    obtain rfl : outcome = some true := hsend
    exact ⟨_, frameCall_of_carries hdoc i hr, r, hr, rfl⟩

/-- `emptyFrame` is laid out as the schema says. -/
theorem emptyFrame_serialises : SerialisesStream emptyFrame ⟨[86], [], [], [], [], [], 0, []⟩ := by
  have hat (n : Nat) (hn : n ≤ emptyFrame.length) (xs : Bytes)
      (h : (emptyFrame.drop n).take xs.length = xs) : FlatBuffers.At emptyFrame n xs :=
    FlatBuffers.at_of_take hn h
  refine ⟨44, ⟨by decide, 16, by decide, hat 0 (by decide) _ (by decide), [0, 4, 12, 8],
    ⟨4, 16, ⟨by decide, by decide, hat 16 (by decide) _ (by decide)⟩, by decide,
      hat 4 (by decide) _ (by decide)⟩, ?_⟩, [],
    ⟨40, 4, ⟨by decide, by decide, hat 44 (by decide) _ (by decide)⟩, by decide,
      hat 40 (by decide) _ (by decide)⟩, ?_⟩
  · rintro (_ | _ | _ | _ | _ | k) f hk
    · obtain rfl := Option.some.inj hk
      exact ⟨by decide, .inl ⟨rfl, rfl⟩⟩
    · obtain rfl := Option.some.inj hk
      exact ⟨by decide, .inr ⟨by decide, 12, by decide, hat 20 (by decide) _ (by decide),
        hat 32 (by decide) _ (by decide)⟩⟩
    · obtain rfl := Option.some.inj hk
      exact ⟨by decide, .inr ⟨by decide, hat 28 (by decide) _ (by decide)⟩⟩
    · obtain rfl := Option.some.inj hk
      exact ⟨by decide, 20, by decide, hat 24 (by decide) _ (by decide), by decide⟩
    · obtain rfl := Option.some.inj hk
      exact ⟨by decide, .inl ⟨rfl, rfl⟩⟩
    · cases hk
  · rintro (_ | _ | _ | _ | _ | k) f hk
    · obtain rfl := Option.some.inj hk
      exact ⟨by decide, .inl ⟨rfl, rfl⟩⟩
    · obtain rfl := Option.some.inj hk
      exact ⟨by decide, .inl ⟨rfl, rfl⟩⟩
    · obtain rfl := Option.some.inj hk
      exact ⟨by decide, .inl ⟨rfl, rfl⟩⟩
    · obtain rfl := Option.some.inj hk
      exact ⟨by decide, .inl ⟨rfl, rfl⟩⟩
    · obtain rfl := Option.some.inj hk
      exact ⟨by decide, .inl ⟨rfl, rfl⟩⟩
    · cases hk

theorem cutShort_preserved :
    ∃ X : List Exchange, X.map Prod.fst = [⟨.binary, emptyFrame⟩, ⟨.binary, emptyFrame⟩] ∧
      List.Forall₂ (fun x call =>
          ∃ r, Carries sampleLibraries "V" x.1 r ∧ call = ⟨0, .frame, r⟩)
        (X.filter fun x => x.2 = some true)
        (((log sampleLibraries 1 cutShort).filterMap (dispatchedBy 0)).filter
          fun call => call.origin = .frame) := by
  have hs : ((after sampleLibraries 1 cutShort).session 0).map Session.vin = some "V" := by decide
  obtain ⟨ss, hss, hv⟩ := Option.map_eq_some_iff.mp hs
  have hcarries : Carries sampleLibraries "V" ⟨.binary, emptyFrame⟩
      ⟨"V", .data, 0, "", emptyMessage .data, []⟩ :=
    ⟨rfl, by decide, _, .data, emptyMessage .data, emptyFrame_serialises, rfl, rfl, rfl⟩
  have hmessages : (acts 0 (log sampleLibraries 1 cutShort)).filterMap Act.message =
      [⟨.binary, emptyFrame⟩, ⟨.binary, emptyFrame⟩] := rfl
  obtain ⟨X, hm, -, -, -, hall⟩ := telemetry_preserved sampleLibraries
    FlatBuffers.reference_documented 1 cutShort 0 ss hss (by
      intro msg hmsg ht
      have hmem := (message_mem_iff 0 _ msg).mpr hmsg
      rw [hmessages] at hmem
      simp only [List.mem_cons, List.not_mem_nil, or_false, or_self] at hmem
      rw [hmem, hv]
      exact ⟨_, hcarries⟩)
  rw [hv] at hall
  exact ⟨X, hm.symm.trans rfl, hall⟩

end Server

end FleetTelemetry
