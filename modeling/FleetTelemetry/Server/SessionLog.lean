import FleetTelemetry.Server.Registry

/-!
# What one session does

The acts of a session, in a run in which nothing raises in it, are a `Script`:

    registered, CONNECTED, exchange x₁, …, exchange xₖ, disconnecting, DISCONNECTED?

where an exchange is a message with the outcome of the send it led to.

    s.session i = none → (∀ now, .raises i now ∉ es) →
      Scripted lib i (outputs (step lib) (seen lib) s es) (run (step lib) s es)   (scripted_run)
-/

namespace FleetTelemetry

open Runs

namespace Server

variable {V : Type} (lib : Libraries V)

/-! ## Algorithm -/

/-- An observation without the session it is of. -/
inductive Act (V : Type) where
  | registered
  | disconnecting
  | dispatched (call : Call V)
  | received (msg : WSMessage)
  | sending (ack : Bytes)
  | sent (ok : Bool)

/-- The act of session `i`. -/
def act (i : Nat) : Obs V → Option (Act V)
  | .registered j _ => if j = i then some .registered else none
  | .disconnecting j _ => if j = i then some .disconnecting else none
  | .dispatched call _ => if call.session = i then some (.dispatched call) else none
  | .received j msg => if j = i then some (.received msg) else none
  | .sending j ack => if j = i then some (.sending ack) else none
  | .sent j ok => if j = i then some (.sent ok) else none
  | .responded _ _ | .invoked _ _ => none

/-- The acts of session `i` in a run. -/
def acts (i : Nat) (log : List (Obs V)) : List (Act V) := log.filterMap (act i)

/-- A message, and the outcome of the send that it led to, if there was one. -/
abbrev Exchange := WSMessage × Option Bool

/-- The frame of a message and the acknowledgement it gets. -/
def reply (msg : WSMessage) : Option (StreamFrame × Bytes) :=
  (accept lib msg).bind fun f => (ackOf lib f).map fun ack => (f, ack)

/-- What an exchange shows: the acknowledgement first, then the record. -/
def exchange (vin : String) (i : Nat) (x : Exchange) : List (Act V) :=
  .received x.1 ::
    match reply lib x.1 with
    | none => []
    | some (f, ack) => .sending ack ::
      match x.2 with
      | none => []
      | some false => [.sent false]
      | some true => .sent true :: (recordOf lib vin f).toList.map fun r => .dispatched ⟨i, .frame, r⟩

/-- The send has ended exactly where there was one. -/
def Complete (x : Exchange) : Prop := x.2.isSome = (reply lib x.1).isSome

/-- The acts of `_connect`. -/
def opening (vin : String) (i now : Nat) : List (Act V) :=
  [.registered, .dispatched ⟨i, .connect, connectivityRecord vin .connected now⟩]

/-- The acts of `_disconnect`. -/
def Closing (vin : String) (i : Nat) (closing : List (Act V)) : Prop :=
  closing = [.disconnecting] ∨
    ∃ now, closing = [.disconnecting,
      .dispatched ⟨i, .disconnect, connectivityRecord vin .disconnected now⟩]

/-- The acts that lead to a phase. -/
inductive Script (vin : String) (i : Nat) : Phase V → List (Act V) → Prop where
  | fresh (p : Phase V) (hp : p = .preparing ∨ ∃ raised, p = .ended raised) : Script vin i p []
  | connecting (d : Delivery V) (now : Nat) :
      Script vin i (.delivering .connect d) (opening vin i now)
  | handling (p : Phase V) (now : Nat) (X : List Exchange)
      (hp : p = .receiving ∨ ∃ d, p = .delivering .frame d) (hX : ∀ x ∈ X, Complete lib x) :
      Script vin i p (opening vin i now ++ X.flatMap (exchange lib vin i))
  | acking (f : StreamFrame) (now : Nat) (X : List Exchange) (msg : WSMessage) (ack : Bytes)
      (hX : ∀ x ∈ X, Complete lib x) (h : reply lib msg = some (f, ack)) :
      Script vin i (.acking f)
        (opening vin i now ++ (X ++ [(msg, none)]).flatMap (exchange lib vin i))
  | closed (p : Phase V) (raised : Bool) (now : Nat) (X : List Exchange) (closing : List (Act V))
      (hp : p = .ended raised ∨ ∃ d, p = .delivering (.disconnect raised) d)
      (hX : ∀ x ∈ X, Complete lib x) (hc : Closing vin i closing)
      (hr : raised = true → ∃ x ∈ X, accept lib x.1 ≠ none ∧ reply lib x.1 = none) :
      Script vin i p (opening vin i now ++ X.flatMap (exchange lib vin i) ++ closing)

/-- The session is where its acts have led it. -/
def Scripted (i : Nat) (log : List (Obs V)) (s : Server V) : Prop :=
  match s.session i with
  | none => acts i log = []
  | some ss => Script lib ss.vin i ss.phase (acts i log)

/-! ## Lemmas -/

variable {lib}

theorem acts_append (i : Nat) (log obs : List (Obs V)) :
    acts i (log ++ obs) = acts i log ++ acts i obs := List.filterMap_append

theorem acts_cons (i : Nat) (o : Obs V) (obs : List (Obs V)) :
    acts i (o :: obs) = (act i o).toList ++ acts i obs := by
  unfold acts
  rw [List.filterMap_cons]
  cases act i o <;> rfl

theorem acts_invoked (i : Nat) (d : Option (Delivery V)) : acts i (invoked d) = [] := by
  cases d <;> rfl

section
variable (s : Server V) (i j : Nat) (ss : Session V)

theorem dispatch_acts (stage : Stage) (record : Record V) :
    acts i (s.dispatch j ss stage record).2 =
      if j = i then [.dispatched ⟨j, stage.origin, record⟩] else [] := by
  rw [dispatch_seen, acts_cons, acts_invoked]
  show (if j = i then some _ else none : Option (Act V)).toList ++ [] = _
  split <;> rfl

theorem connect_acts (now : Nat) :
    acts i (s.connect j ss now).2 = if j = i then opening ss.vin j now else [] := by
  show acts i (.registered j ss.vin :: (dispatch _ j ss _ _).2) = _
  rw [acts_cons, dispatch_acts]
  show (if j = i then some _ else none : Option (Act V)).toList ++ _ = _
  split <;> rfl

theorem disconnect_acts (raised : Bool) (now : Nat) :
    (j = i → Closing ss.vin i (acts i (s.disconnect j ss raised now).2)) ∧
      (j ≠ i → acts i (s.disconnect j ss raised now).2 = []) := by
  have hact : act i (.disconnecting j ss.vin : Obs V) = if j = i then some .disconnecting else none :=
    rfl
  by_cases hj : s.holder ss.vin = some j
  · rw [disconnect_of_holder s j ss hj, acts_cons, dispatch_acts, hact]
    constructor <;> intro hij
    · subst hij
      rw [if_pos rfl, if_pos rfl]
      exact .inr ⟨now, rfl⟩
    · rw [if_neg hij, if_neg hij]
      rfl
  · rw [disconnect_of_not_holder s j ss hj, acts_cons, hact]
    constructor <;> intro hij
    · rw [if_pos hij]
      exact .inl rfl
    · rw [if_neg hij]
      rfl

end

theorem Quiet.acts_of_ne {vin : String} {i j : Nat} {e : Event} {p p' : Phase V}
    {obs : List (Obs V)} (h : Quiet lib vin j e p p' obs) (hij : j ≠ i) : acts i obs = [] := by
  cases h <;> simp [acts, act, hij]

theorem Leaves.acts_of_ne {i j : Nat} {e : Event} {p : Phase V} {raised : Bool}
    {obs : List (Obs V)} (h : Leaves lib j e p raised obs) (hij : j ≠ i) : acts i obs = [] := by
  cases h <;> simp [acts, act, hij]

theorem reply_eq_none {msg : WSMessage} (h : accept lib msg = none) : reply lib msg = none := by
  unfold reply; rw [h]; rfl

theorem reply_eq_some {msg : WSMessage} {f : StreamFrame} {ack : Bytes} :
    reply lib msg = some (f, ack) ↔ accept lib msg = some f ∧ ackOf lib f = some ack := by
  unfold reply
  simp [Option.bind_eq_some_iff]

section
variable {vin : String} {i : Nat}

theorem exchange_of_no_reply {msg : WSMessage} (h : reply lib msg = none) :
    exchange lib vin i (msg, none) = [.received msg] := by
  unfold exchange; rw [h]

theorem exchange_sending {msg : WSMessage} {f : StreamFrame} {ack : Bytes}
    (h : reply lib msg = some (f, ack)) :
    exchange lib vin i (msg, none) = [.received msg, .sending ack] := by
  unfold exchange; rw [h]

/-- The end of the send goes on with the exchange. -/
theorem exchange_sent {msg : WSMessage} {f : StreamFrame} {ack : Bytes}
    (h : reply lib msg = some (f, ack)) (ok : Bool) :
    exchange lib vin i (msg, some ok) = exchange lib vin i (msg, none) ++
      .sent ok :: if ok then (recordOf lib vin f).toList.map fun r => .dispatched ⟨i, .frame, r⟩
        else [] := by
  unfold exchange
  rw [h]
  cases ok <;> rfl

theorem complete_snoc {X : List Exchange} {x : Exchange} (hX : ∀ x ∈ X, Complete lib x)
    (hx : Complete lib x) : ∀ y ∈ X ++ [x], Complete lib y := by
  intro y hy
  rcases List.mem_append.mp hy with hy | hy
  · exact hX y hy
  · rw [List.mem_singleton.mp hy]; exact hx

theorem flatMap_snoc (X : List Exchange) (x : Exchange) :
    (X ++ [x]).flatMap (exchange lib vin i) =
      X.flatMap (exchange lib vin i) ++ exchange lib vin i x := by
  rw [List.flatMap_append, List.flatMap_singleton]

/-- The script of a session that waits for a message. -/
theorem Script.of_receiving {own : List (Act V)} (h : Script lib vin i .receiving own) :
    ∃ now, ∃ X : List Exchange, (∀ x ∈ X, Complete lib x) ∧
      own = opening vin i now ++ X.flatMap (exchange lib vin i) := by
  generalize hp : Phase.receiving = p at h
  cases h with
  | fresh p h => subst hp; rcases h with h | ⟨_, h⟩ <;> cases h
  | connecting => cases hp
  | handling p now X h hX => exact ⟨now, X, hX, rfl⟩
  | acking => cases hp
  | closed p raised now X closing h => subst hp; rcases h with h | ⟨_, h⟩ <;> cases h

theorem Script.of_acking {f : StreamFrame} {own : List (Act V)}
    (h : Script lib vin i (.acking f) own) :
    ∃ now, ∃ X : List Exchange, ∃ msg ack, (∀ x ∈ X, Complete lib x) ∧
      reply lib msg = some (f, ack) ∧
        own = opening vin i now ++ (X ++ [(msg, none)]).flatMap (exchange lib vin i) := by
  generalize hp : Phase.acking f = p at h
  cases h with
  | fresh p h => subst hp; rcases h with h | ⟨_, h⟩ <;> cases h
  | connecting => cases hp
  | handling p now X h => subst hp; rcases h with h | ⟨_, h⟩ <;> cases h
  | acking f now X msg ack hX h =>
    obtain rfl := Phase.acking.inj hp
    exact ⟨now, X, msg, ack, hX, h, rfl⟩
  | closed p raised now X closing h => subst hp; rcases h with h | ⟨_, h⟩ <;> cases h

theorem Script.of_preparing {own : List (Act V)} (h : Script lib vin i .preparing own) : own = [] := by
  generalize hp : Phase.preparing = p at h
  cases h with
  | fresh => rfl
  | connecting | acking => cases hp
  | handling p now X h => subst hp; rcases h with h | ⟨_, h⟩ <;> cases h
  | closed p raised now X closing h => subst hp; rcases h with h | ⟨_, h⟩ <;> cases h

theorem Script.connected (now : Nat) (d : Option (Delivery V)) :
    Script lib vin i (walk .connect d) (opening vin i now) := by
  cases d with
  | some d => exact .connecting d now
  | none =>
    have h : Script lib vin i .receiving (opening vin i now ++ []) :=
      .handling .receiving now [] (.inl rfl) nofun
    rwa [List.append_nil] at h

theorem Script.dispatching {X : List Exchange} (hX : ∀ x ∈ X, Complete lib x) (now : Nat)
    (d : Option (Delivery V)) :
    Script lib vin i (walk .frame d) (opening vin i now ++ X.flatMap (exchange lib vin i)) := by
  cases d with
  | some d => exact .handling _ now X (.inr ⟨d, rfl⟩) hX
  | none => exact .handling _ now X (.inl rfl) hX

/-- A dispatch that goes on does not change the script. -/
theorem Script.walk {stage : Stage} {d : Delivery V} {own : List (Act V)}
    (h : Script lib vin i (.delivering stage d) own) (d' : Option (Delivery V)) :
    Script lib vin i (walk stage d') own := by
  generalize hp : Phase.delivering stage d = p at h
  cases h with
  | fresh p h => subst hp; rcases h with h | ⟨_, h⟩ <;> cases h
  | connecting d₀ now =>
    obtain ⟨rfl, -⟩ := Phase.delivering.inj hp
    exact .connected now d'
  | handling p now X h hX =>
    subst hp
    rcases h with h | ⟨d₀, h⟩
    · cases h
    · obtain ⟨rfl, -⟩ := Phase.delivering.inj h
      exact .dispatching hX now d'
  | acking => cases hp
  | closed p raised now X closing h hX hc hr =>
    subst hp
    rcases h with h | ⟨d₀, h⟩
    · cases h
    · obtain ⟨rfl, -⟩ := Phase.delivering.inj h
      cases d' with
      | none => exact .closed _ raised now X closing (.inl rfl) hX hc hr
      | some d' => exact .closed _ raised now X closing (.inr ⟨d', rfl⟩) hX hc hr

end

theorem scripted_of_ne {i j : Nat} {log obs : List (Obs V)} {s s' : Server V}
    {session : Option (Session V)} (h : Scripted lib i log s) (hij : j ≠ i)
    (hs : s'.session = Function.update s.session j session) (hobs : acts i obs = []) :
    Scripted lib i (log ++ obs) s' := by
  unfold Scripted at h ⊢
  rw [acts_append, hobs, List.append_nil, hs, Function.update_of_ne (Ne.symm hij)]
  exact h

theorem Scripted.script {i : Nat} {log : List (Obs V)} {s : Server V} {ss : Session V}
    (h : Scripted lib i log s) (hs : s.session i = some ss) :
    Script lib ss.vin i ss.phase (acts i log) := by
  unfold Scripted at h
  rw [hs] at h
  exact h

theorem scripted_of_update {i : Nat} {log obs : List (Obs V)} {s s' : Server V} {ss : Session V}
    {p : Phase V} (hs : s'.session = Function.update s.session i (some { ss with phase := p }))
    (h : Script lib ss.vin i p (acts i log ++ acts i obs)) : Scripted lib i (log ++ obs) s' := by
  unfold Scripted
  rw [acts_append, hs, Function.update_self]
  exact h

/-- What a quiet move of the session adds to its script. -/
theorem Quiet.script {vin : String} {i : Nat} {e : Event} {p p' : Phase V} {obs : List (Obs V)}
    {own : List (Act V)} (hq : Quiet lib vin i e p p' obs) (he : ∀ now, e ≠ .raises i now)
    (h : Script lib vin i p own) : Script lib vin i p' (own ++ acts i obs) := by
  cases hq with
  | skipped msg now ha =>
    obtain ⟨t, X, hX, rfl⟩ := h.of_receiving
    have hr := reply_eq_none ha
    have hobs : acts i [(.received i msg : Obs V)] = exchange lib vin i (msg, none) := by
      rw [exchange_of_no_reply hr]; simp [acts, act]
    rw [hobs, List.append_assoc, ← flatMap_snoc]
    exact .handling _ t _ (.inl rfl) (complete_snoc hX (by unfold Complete; rw [hr]; rfl))
  | acknowledged msg now f ack ha hack =>
    obtain ⟨t, X, hX, rfl⟩ := h.of_receiving
    have hr := reply_eq_some.mpr ⟨ha, hack⟩
    have hobs : acts i [(.received i msg : Obs V), .sending i ack] =
        exchange lib vin i (msg, none) := by
      rw [exchange_sending hr]; simp [acts, act]
    rw [hobs, List.append_assoc, ← flatMap_snoc]
    exact .acking f t X msg ack hX hr
  | unsent f =>
    obtain ⟨t, X, msg, ack, hX, hr, rfl⟩ := h.of_acking
    have hobs : exchange lib vin i (msg, none) ++ acts i [(.sent i false : Obs V)] =
        exchange lib vin i (msg, some false) := by
      rw [exchange_sent hr]; simp [acts, act]
    rw [flatMap_snoc, List.append_assoc, List.append_assoc, hobs, ← flatMap_snoc]
    exact .handling _ t _ (.inl rfl) (complete_snoc hX (by unfold Complete; rw [hr]; rfl))
  | unparsable f hn =>
    obtain ⟨t, X, msg, ack, hX, hr, rfl⟩ := h.of_acking
    have hobs : exchange lib vin i (msg, none) ++ acts i [(.sent i true : Obs V)] =
        exchange lib vin i (msg, some true) := by
      rw [exchange_sent hr, hn]; simp [acts, act]
    rw [flatMap_snoc, List.append_assoc, List.append_assoc, hobs, ← flatMap_snoc]
    exact .handling _ t _ (.inl rfl) (complete_snoc hX (by unfold Complete; rw [hr]; rfl))
  | abandoned p now hp hend => exact absurd rfl (he now)

/-- What a session has done when it leaves the `try` block. -/
theorem Leaves.script {vin : String} {i : Nat} {e : Event} {p : Phase V} {raised : Bool}
    {obs : List (Obs V)} {own : List (Act V)} (hl : Leaves lib i e p raised obs)
    (he : ∀ now, e ≠ .raises i now) (h : Script lib vin i p own) :
    ∃ t, ∃ X : List Exchange, (∀ x ∈ X, Complete lib x) ∧
      own ++ acts i obs = opening vin i t ++ X.flatMap (exchange lib vin i) ∧
      (raised = true → ∃ x ∈ X, accept lib x.1 ≠ none ∧ reply lib x.1 = none) := by
  cases hl with
  | finished now =>
    obtain ⟨t, X, hX, rfl⟩ := h.of_receiving
    exact ⟨t, X, hX, List.append_nil _, nofun⟩
  | raised p now hp => exact absurd rfl (he now)
  | unencodable msg now f ha hack =>
    obtain ⟨t, X, hX, rfl⟩ := h.of_receiving
    have hr : reply lib msg = none := by unfold reply; rw [ha, Option.bind_some, hack]; rfl
    refine ⟨t, X ++ [(msg, none)], complete_snoc hX (by unfold Complete; rw [hr]; rfl), ?_, fun _ => ?_⟩
    · rw [flatMap_snoc, exchange_of_no_reply hr]
      simp [acts, act]
    · exact ⟨(msg, none), by simp, by rw [ha]; nofun, hr⟩

theorem scripted_step {i : Nat} {log : List (Obs V)} {s : Server V} {e : Event}
    (h : Scripted lib i log s) (he : ∀ now, e ≠ .raises i now) :
    Scripted lib i (log ++ s.seen lib e) (s.step lib e) := by
  have hm := step_move lib s e
  generalize s.step lib e = s' at hm ⊢
  generalize s.seen lib e = obs at hm ⊢
  cases hm with
  | idle => rwa [List.append_nil]
  | environment e henv =>
    rw [List.append_nil]
    unfold Scripted at h ⊢
    rw [(environment_frame lib s henv).2]
    exact h
  | opened j request ss obs hnew hphase hobs =>
    have hnil : acts i obs = [] := filterMap_responded (fun _ _ => rfl) hobs
    by_cases hij : j = i
    · subst hij
      unfold Scripted at h
      rw [hnew] at h
      refine scripted_of_update (p := ss.phase) rfl ?_
      rw [h, hnil]
      exact .fresh _ hphase
    · exact scripted_of_ne h hij rfl hnil
  | quiet e j ss p obs hs hq =>
    by_cases hij : j = i
    · subst hij
      exact scripted_of_update rfl (hq.script he (h.script hs))
    · exact scripted_of_ne h hij rfl (hq.acts_of_ne hij)
  | connect j ss now hs hp =>
    by_cases hij : j = i
    · subst hij
      have hscript := h.script hs
      rw [hp] at hscript
      have hown := hscript.of_preparing
      refine scripted_of_update rfl ?_
      rw [hown, connect_acts, if_pos rfl, List.nil_append]
      exact .connected now _
    · exact scripted_of_ne h hij rfl (by rw [connect_acts, if_neg hij])
  | frame j ss f record hs hp hr =>
    by_cases hij : j = i
    · subst hij
      have hscript := h.script hs
      rw [hp] at hscript
      obtain ⟨t, X, msg, ack, hX, hrep, hown⟩ := hscript.of_acking
      have hobs : exchange lib ss.vin j (msg, none) ++
          acts j (.sent j true :: (s.dispatch j ss .frame record).2) =
          exchange lib ss.vin j (msg, some true) := by
        rw [exchange_sent hrep, hr, acts_cons, dispatch_acts, if_pos rfl]; simp [act, Stage.origin]
      refine scripted_of_update rfl ?_
      rw [hown, flatMap_snoc, List.append_assoc, List.append_assoc, hobs, ← flatMap_snoc]
      have hX' := complete_snoc hX (x := (msg, some true)) (by unfold Complete; rw [hrep]; rfl)
      exact .dispatching hX' t _
    · refine scripted_of_ne h hij rfl ?_
      rw [acts_cons, dispatch_acts, if_neg hij]
      simp [act, hij]
  | disconnect e j ss raised now pre hs hl =>
    obtain ⟨p, hses, hp⟩ := disconnect_session s j ss raised now
    obtain ⟨hclose, hother⟩ := disconnect_acts s i j ss raised now
    by_cases hij : j = i
    · subst hij
      refine scripted_of_update hses ?_
      obtain ⟨t, X, hX, hown, hr⟩ := hl.script he (h.script hs)
      rw [acts_append, ← List.append_assoc, hown]
      exact .closed p raised t X _ (hp.symm.imp id id) hX (hclose rfl) hr
    · refine scripted_of_ne h hij hses ?_
      rw [acts_append, hl.acts_of_ne hij, hother hij]
      rfl
  | resume j ss stage d hs hp =>
    by_cases hij : j = i
    · subst hij
      have hscript := h.script hs
      rw [hp] at hscript
      refine scripted_of_update rfl ?_
      rw [acts_invoked, List.append_nil]
      exact hscript.walk _
    · exact scripted_of_ne h hij rfl (acts_invoked i _)

/-- **The acts of a session in which nothing raises are a script**, from any state before it. -/
theorem scripted_run (lib : Libraries V) (s : Server V) (es : List Event) {i : Nat}
    (hnew : s.session i = none) (h : ∀ now, .raises i now ∉ es) :
    Scripted lib i (outputs (step lib) (seen lib) s es) (run (step lib) s es) := by
  have hc : Along (step lib) (fun _ e => ∀ now, e ≠ .raises i now) s es := by
    rw [along_of_forall]
    rintro e he now rfl
    exact h now he
  have h0 : Scripted lib i [] s := by unfold Scripted; rw [hnew]; rfl
  exact Along.trace_invariant (step lib) _ (seen lib) h0 (fun _ _ _ h he => scripted_step h he) hc

/-! ### What a script says -/

/-- The message of a `received`. -/
def Act.message : Act V → Option WSMessage
  | .received msg => some msg
  | _ => none

/-- The outcome of a `sent`. -/
def Act.outcome : Act V → Option Bool
  | .sent ok => some ok
  | _ => none

/-- The call of a `dispatched`. -/
def Act.call : Act V → Option (Call V)
  | .dispatched call => some call
  | _ => none

/-- The acts of `_handle_message`. -/
def Act.onMessage : Act V → Bool
  | .received _ | .sending _ | .sent _ => true
  | .dispatched call => call.origin = .frame
  | .registered | .disconnecting => false

/-- The call made of an exchange whose frame was acknowledged and parsed. -/
def frameCall (lib : Libraries V) (vin : String) (i : Nat) (x : Exchange) : Option (Call V) :=
  match reply lib x.1, x.2 with
  | some (f, _), some true => (recordOf lib vin f).map fun r => ⟨i, .frame, r⟩
  | _, _ => none

/-- Past the `try` block, because of an exception. -/
def Raised (p : Phase V) : Prop := p = .ended true ∨ ∃ d, p = .delivering (.disconnect true) d

/-- The sends that have an outcome are those that there were. -/
theorem complete_iff {X : List Exchange} : (∀ x ∈ X, Complete lib x) ↔
    (∀ x ∈ X, x.2.isSome → (reply lib x.1).isSome) ∧
      ∀ x ∈ X, (reply lib x.1).isSome → x.2.isSome := by
  constructor
  · intro hX
    exact ⟨fun x hx h => hX x hx ▸ h, fun x hx h => (hX x hx).symm ▸ h⟩
  · rintro ⟨hbegun, hdone⟩ x hx
    exact Bool.eq_iff_iff.mpr ⟨hbegun x hx, hdone x hx⟩

section
variable {vin : String} {i : Nat}

/-- What a script shows, before and after the messages. -/
theorem Script.shape {p : Phase V} {own : List (Act V)} (h : Script lib vin i p own) :
    own = [] ∨ ∃ now, ∃ X : List Exchange, ∃ closing,
      own = opening vin i now ++ X.flatMap (exchange lib vin i) ++ closing ∧
      (closing = [] ∨ Closing vin i closing) ∧
      (∀ x ∈ X, x.2.isSome → (reply lib x.1).isSome) ∧
      ((∀ f, p ≠ .acking f) → ∀ x ∈ X, (reply lib x.1).isSome → x.2.isSome) ∧
      (Raised p → ∃ x ∈ X, accept lib x.1 ≠ none ∧ reply lib x.1 = none) := by
  have hsome {X : List Exchange} (hX : ∀ x ∈ X, Complete lib x) := complete_iff.mp hX
  cases h with
  | fresh p hp => exact .inl rfl
  | connecting d now =>
    refine .inr ⟨now, [], [], by simp, .inl rfl, nofun, fun _ => nofun, ?_⟩
    rintro (h | ⟨d', h⟩) <;> cases h
  | handling p now X hp hX =>
    obtain ⟨h1, h2⟩ := hsome hX
    refine .inr ⟨now, X, [], by simp, .inl rfl, h1, fun _ => h2, ?_⟩
    rcases hp with rfl | ⟨d, rfl⟩ <;> rintro (h | ⟨d', h⟩) <;> cases h
  | acking f now X msg ack hX hr =>
    refine .inr ⟨now, X ++ [(msg, none)], [], by simp, .inl rfl, ?_, fun h => absurd rfl (h f), ?_⟩
    · intro x hx h
      rcases List.mem_append.mp hx with hx | hx
      · exact (hsome hX).1 x hx h
      · rw [List.mem_singleton.mp hx] at h; cases h
    · rintro (h | ⟨d', h⟩) <;> cases h
  | closed p raised now X closing hp hX hc hr =>
    obtain ⟨h1, h2⟩ := hsome hX
    refine .inr ⟨now, X, closing, rfl, .inr hc, h1, fun _ => h2, fun h => hr ?_⟩
    rcases hp with rfl | ⟨d, rfl⟩ <;> rcases h with h | ⟨d', h⟩ <;> cases h <;> rfl

/-- The projections of an exchange. -/
theorem exchange_projections (vin : String) (i : Nat) (x : Exchange)
    (hx : x.2.isSome → (reply lib x.1).isSome) :
    (exchange lib vin i x).filterMap Act.message = [x.1] ∧
      (exchange lib vin i x).filterMap Act.outcome = x.2.toList ∧
      (exchange lib vin i x).filterMap Act.call = (frameCall lib vin i x).toList ∧
      (exchange lib vin i x).filter Act.onMessage = exchange lib vin i x := by
  obtain ⟨msg, outcome⟩ := x
  unfold exchange frameCall
  cases hr : reply lib msg with
  | none =>
    cases outcome with
    | none => exact ⟨rfl, rfl, rfl, rfl⟩
    | some ok => rw [hr] at hx; cases hx rfl
  | some r =>
    obtain ⟨f, ack⟩ := r
    cases outcome with
    | none => exact ⟨rfl, rfl, rfl, rfl⟩
    | some ok =>
      cases ok with
      | false => exact ⟨rfl, rfl, rfl, rfl⟩
      | true =>
        dsimp only
        cases recordOf lib vin f <;> exact ⟨rfl, rfl, rfl, rfl⟩

theorem flatMap_projections (vin : String) (i : Nat) {X : List Exchange}
    (hX : ∀ x ∈ X, x.2.isSome → (reply lib x.1).isSome) :
    (X.flatMap (exchange lib vin i)).filterMap Act.message = X.map Prod.fst ∧
      (X.flatMap (exchange lib vin i)).filterMap Act.outcome = X.filterMap Prod.snd ∧
      (X.flatMap (exchange lib vin i)).filterMap Act.call = X.filterMap (frameCall lib vin i) ∧
      (X.flatMap (exchange lib vin i)).filter Act.onMessage = X.flatMap (exchange lib vin i) := by
  induction X with
  | nil => exact ⟨rfl, rfl, rfl, rfl⟩
  | cons x X ih =>
    obtain ⟨hm, ho, hc, hf⟩ := exchange_projections vin i x (hX x List.mem_cons_self)
    obtain ⟨ihm, iho, ihc, ihf⟩ := ih fun y hy => hX y (List.mem_cons_of_mem _ hy)
    simp only [List.flatMap_cons, List.filterMap_append, List.filter_append, hm, ho, hc, hf, ihm,
      iho, ihc, ihf]
    refine ⟨rfl, ?_, ?_, trivial⟩
    · rw [List.filterMap_cons]; cases x.2 <;> rfl
    · rw [List.filterMap_cons]; cases frameCall lib vin i x <;> rfl

theorem opening_projections (vin : String) (i now : Nat) :
    (opening vin i now : List (Act V)).filterMap Act.message = [] ∧
      (opening vin i now : List (Act V)).filterMap Act.outcome = [] ∧
      (opening vin i now : List (Act V)).filterMap Act.call =
        [⟨i, .connect, connectivityRecord vin .connected now⟩] ∧
      (opening vin i now : List (Act V)).filter Act.onMessage = [] := ⟨rfl, rfl, rfl, rfl⟩

theorem closing_projections {closing : List (Act V)} (h : closing = [] ∨ Closing vin i closing) :
    closing.filterMap Act.message = [] ∧ closing.filterMap Act.outcome = [] ∧
      (closing.filterMap Act.call = [] ∨ ∃ now, closing.filterMap Act.call =
        [⟨i, .disconnect, connectivityRecord vin .disconnected now⟩]) ∧
      closing.filter Act.onMessage = [] := by
  rcases h with rfl | rfl | ⟨now, rfl⟩
  · exact ⟨rfl, rfl, .inl rfl, rfl⟩
  · exact ⟨rfl, rfl, .inl rfl, rfl⟩
  · exact ⟨rfl, rfl, .inr ⟨now, rfl⟩, rfl⟩

/-- The exchanges of a script, and the calls it makes. -/
theorem Script.exchanges {p : Phase V} {own : List (Act V)} (h : Script lib vin i p own) :
    ∃ X : List Exchange,
      own.filterMap Act.message = X.map Prod.fst ∧
      own.filterMap Act.outcome = X.filterMap Prod.snd ∧
      own.filter Act.onMessage = X.flatMap (exchange lib vin i) ∧
      (own = [] ∨ ∃ now closing, own.filterMap Act.call =
          ⟨i, .connect, connectivityRecord vin .connected now⟩ ::
            X.filterMap (frameCall lib vin i) ++ closing ∧
        (closing = [] ∨
          ∃ now, closing = [⟨i, .disconnect, connectivityRecord vin .disconnected now⟩])) ∧
      (∀ x ∈ X, x.2.isSome → (reply lib x.1).isSome) ∧
      ((∀ f, p ≠ .acking f) → ∀ x ∈ X, (reply lib x.1).isSome → x.2.isSome) ∧
      (Raised p → own = [] ∨ ∃ x ∈ X, accept lib x.1 ≠ none ∧ reply lib x.1 = none) := by
  rcases h.shape with rfl | ⟨now, X, closing, rfl, hc, hsome, hdone, hr⟩
  · exact ⟨[], rfl, rfl, rfl, .inl rfl, nofun, fun _ => nofun, fun _ => .inl rfl⟩
  · obtain ⟨om, oo, oc, of⟩ := opening_projections (V := V) vin i now
    obtain ⟨fm, fo, fc, ff⟩ := flatMap_projections vin i hsome
    obtain ⟨cm, co, cc, cf⟩ := closing_projections hc
    simp only [List.filterMap_append, List.filter_append, om, oo, oc, of, fm, fo, fc, ff, cm, co,
      cf, List.nil_append, List.append_nil]
    exact ⟨X, rfl, rfl, rfl, .inr ⟨now, _, rfl, cc⟩, hsome, hdone, fun h => .inr (hr h)⟩

end

/-- Complete exchanges are determined by the messages and the outcomes. -/
theorem exchanges_determined {X Y : List Exchange} (hX : ∀ x ∈ X, Complete lib x)
    (hY : ∀ y ∈ Y, Complete lib y) (hm : X.map Prod.fst = Y.map Prod.fst)
    (ho : X.filterMap Prod.snd = Y.filterMap Prod.snd) : X = Y := by
  induction X generalizing Y with
  | nil => exact (List.map_eq_nil_iff.mp hm.symm).symm
  | cons x X ih =>
    obtain ⟨y, Y, rfl, hy, hm⟩ := List.map_eq_cons_iff.mp hm.symm
    have ih := ih (fun x h => hX x (List.mem_cons_of_mem _ h))
      (fun y h => hY y (List.mem_cons_of_mem _ h)) hm.symm
    obtain ⟨msg, outcome⟩ := x
    obtain ⟨msg', outcome'⟩ := y
    obtain rfl : msg' = msg := hy
    -- both have an outcome exactly if the message has a reply
    have hsame : outcome.isSome = outcome'.isSome :=
      (hX _ List.mem_cons_self).trans (hY _ List.mem_cons_self).symm
    cases outcome with
    | none =>
      obtain rfl : outcome' = none := by
        cases outcome' with
        | none => rfl
        | some ok => cases hsame
      rw [ih ho]
    | some ok =>
      obtain ⟨ok', rfl⟩ := Option.isSome_iff_exists.mp hsame.symm
      have hcons := List.cons.inj ho
      obtain rfl := hcons.1
      rw [ih hcons.2]

end Server

end FleetTelemetry
