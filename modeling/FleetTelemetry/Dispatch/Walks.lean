import FleetTelemetry.Dispatch.Listeners
import FleetTelemetry.Lib.Runs

/-!
# Dispatches under way

Dispatches of any records, with registrations and unsubscriptions between the
invocations, made by the listeners themselves or by anybody else.  A dispatch walks
the registrations there were when it was called:

    (k, sub) registered by es ↔ sub was the k-th registration, not unsubscribed since   (get_iff)
    invoked by d = (wanted.take (returns d es + 1))                                     (dispatch_invokes)
-/

namespace FleetTelemetry

open Runs

variable {V : Type}

/-! ## Algorithm -/

/-- A registration as its caller states it. -/
structure Subscription where
  callback : Nat
  vin : FilterSpec
  topic : FilterSpec
  field : FilterSpec

/-- A call of one of the methods that register a listener. -/
inductive Register where
  | addListener (callback : Nat) (vin topic field : FilterSpec)
  | onData (callback : Nat) (vin field : FilterSpec)
  | onAlert (callback : Nat) (vin field : FilterSpec)
  | onError (callback : Nat) (vin field : FilterSpec)
  | onConnectivity (callback : Nat) (vin field : FilterSpec)

def Register.apply (l : Listeners) : Register → Listeners
  | .addListener callback vin topic field => l.addListener callback vin topic field
  | .onData callback vin field => l.onData callback vin field
  | .onAlert callback vin field => l.onAlert callback vin field
  | .onError callback vin field => l.onError callback vin field
  | .onConnectivity callback vin field => l.onConnectivity callback vin field

/-- What the call asks for; four of the methods preset the topic. -/
def Register.subscription : Register → Subscription
  | .addListener callback vin topic field => ⟨callback, vin, topic, field⟩
  | .onData callback vin field => ⟨callback, vin, .value Topic.data.value, field⟩
  | .onAlert callback vin field => ⟨callback, vin, .value Topic.alerts.value, field⟩
  | .onError callback vin field => ⟨callback, vin, .value Topic.errors.value, field⟩
  | .onConnectivity callback vin field => ⟨callback, vin, .value Topic.connectivity.value, field⟩

/-- The specification lets through what `p` says of one of its values. -/
def FilterSpec.Holds (spec : FilterSpec) (p : String → Prop) : Prop :=
  match spec with
  | .none => True
  | .value s => p s
  | .values vs => ∃ v ∈ vs, p v

/-- All three filters let the record through. -/
structure Subscription.Accepts (sub : Subscription) (record : Record V) : Prop where
  vin : sub.vin.Holds (record.vin = ·)
  topic : sub.topic.Holds (record.topic.value = ·)
  field : sub.field.Holds (· ∈ record.fields.keys)

def Subscription.registration (sub : Subscription) : Registration :=
  ⟨sub.callback, normalize sub.vin, normalize sub.topic, normalize sub.field⟩

/-- A dispatch that waits for a listener, with the registrations it still has to pass. -/
structure Walk (V : Type) where
  record : Record V
  rest : List (Nat × Registration)

/-- The registrations, and the dispatches under way by the names their callers have for them. -/
structure Walks (V : Type) where
  listeners : Listeners
  running : Nat → Option (Walk V)

/-- `returned d`: the listener `d` waits for returned, or raised an `Exception`.  `raised d`: an
exception of another family surfaced there, and `d` does not go on. -/
inductive WalkEvent (V : Type) where
  | register (r : Register)
  | unsubscribe (key : Nat)
  | dispatch (d : Nat) (record : Record V)
  | returned (d : Nat)
  | raised (d : Nat)

structure Invocation (V : Type) where
  dispatch : Nat
  key : Nat
  record : Record V

namespace Walks

def init : Walks V := ⟨Listeners.empty, fun _ => none⟩

/-- The dispatch goes on to the next listener that matches, or is over. -/
def goOn (s : Walks V) (d : Nat) (record : Record V) (entries : List (Nat × Registration)) :
    Walks V × List (Invocation V) :=
  let next := nextListener record record.fields.keys entries
  ({ s with running := Function.update s.running d (next.map fun (_, rest) => ⟨record, rest⟩) },
    (next.map fun (key, _) => ⟨d, key, record⟩).toList)

def exec (s : Walks V) : WalkEvent V → Walks V × List (Invocation V)
  | .register r => ({ s with listeners := r.apply s.listeners }, [])
  | .unsubscribe key => ({ s with listeners := s.listeners.unsubscribe key }, [])
  | .dispatch d record =>
    match s.running d with
    | none => s.goOn d record s.listeners.registrations.entries
    | some _ => (s, [])
  | .returned d =>
    match s.running d with
    | some w => s.goOn d w.record w.rest
    | none => (s, [])
  | .raised d => ({ s with running := Function.update s.running d none }, [])

def step (s : Walks V) (e : WalkEvent V) : Walks V := (s.exec e).1

def seen (s : Walks V) (e : WalkEvent V) : List (Invocation V) := (s.exec e).2

def after (es : List (WalkEvent V)) : Walks V := run step init es

/-- The subscription an event makes. -/
def subscribed : WalkEvent V → Option Subscription
  | .register r => some r.subscription
  | _ => none

/-- How many registrations there have been. -/
def count (es : List (WalkEvent V)) : Nat := (es.filterMap subscribed).length

/-- `sub` was registered as number `key`, and not unsubscribed since. -/
def Registered (key : Nat) (sub : Subscription) (es : List (WalkEvent V)) : Prop :=
  ∃ es₁ e es₂, es = es₁ ++ e :: es₂ ∧ subscribed e = some sub ∧ key = count es₁ ∧
    .unsubscribe key ∉ es₂

/-- How often a listener of dispatch `d` has returned. -/
def returns (d : Nat) (es : List (WalkEvent V)) : Nat :=
  es.countP fun | .returned d' => decide (d' = d) | _ => false

/-- The event is one of dispatch `d`. -/
def Of (d : Nat) : WalkEvent V → Prop
  | .dispatch d' _ | .returned d' | .raised d' => d' = d
  | _ => False

/-! ## Lemmas -/

/-! ### Filters -/

theorem normalize_holds (spec : FilterSpec) (p : String → Prop) :
    (∀ vs, normalize spec = some vs → ∃ v ∈ vs, p v) ↔ spec.Holds p := by
  cases spec with
  | none => simp [normalize, FilterSpec.Holds]
  | value s => simp [normalize, FilterSpec.Holds]
  | values vs => simp [normalize, FilterSpec.Holds]

/-- **`matches` is what the filters say.** -/
theorem matches_iff (sub : Subscription) (record : Record V) :
    sub.registration.matchesRecord record record.fields.keys = true ↔ sub.Accepts record := by
  have hvin := normalize_holds sub.vin (record.vin = ·)
  have htopic := normalize_holds sub.topic (record.topic.value = ·)
  have hfield := normalize_holds sub.field (· ∈ record.fields.keys)
  have haccepts : sub.Accepts record ↔ sub.vin.Holds (record.vin = ·) ∧
      sub.topic.Holds (record.topic.value = ·) ∧ sub.field.Holds (· ∈ record.fields.keys) :=
    ⟨fun h => ⟨h.vin, h.topic, h.field⟩, fun h => ⟨h.1, h.2.1, h.2.2⟩⟩
  rw [haccepts, ← hvin, ← htopic, ← hfield]
  unfold Registration.matchesRecord Subscription.registration
  simp only [Bool.and_eq_true, and_assoc]
  refine and_congr ?_ (and_congr ?_ ?_)
  · cases normalize sub.vin <;> simp
  · cases normalize sub.topic <;> simp
  · cases normalize sub.field <;> simp [and_comm]

/-! ### Registrations -/

theorem apply_eq (r : Register) (l : Listeners) :
    r.apply l = l.addListener r.subscription.callback r.subscription.vin r.subscription.topic
      r.subscription.field := by
  cases r <;> rfl

theorem entries_apply (r : Register) (l : Listeners) :
    (r.apply l).registrations.entries =
      l.registrations.entries ++ [(l.ids, r.subscription.registration)] := by
  rw [apply_eq]
  exact Dict.entries_set_of_new _ _ _ fun h => Nat.lt_irrefl _ (l.fresh _ h)

theorem step_listeners (s : Walks V) (e : WalkEvent V) :
    (s.step e).listeners = match e with
      | .register r => r.apply s.listeners
      | .unsubscribe key => s.listeners.unsubscribe key
      | _ => s.listeners := by
  unfold step
  cases e with
  | dispatch d record => simp only [exec]; split <;> rfl
  | returned d => simp only [exec]; split <;> rfl
  | register | unsubscribe | raised => rfl

theorem count_snoc (es : List (WalkEvent V)) (e : WalkEvent V) :
    count (es ++ [e]) = count es + (subscribed e).toList.length := by
  unfold count
  rw [List.filterMap_append, List.length_append]
  cases h : subscribed e <;> simp [h]

/-- The counter is the number of registrations so far. -/
theorem ids_eq (es : List (WalkEvent V)) : (after es).listeners.ids = count es := by
  induction es using List.reverseRecOn with
  | nil => rfl
  | append_singleton es e ih =>
    unfold after at ih ⊢
    rw [run_snoc, step_listeners, count_snoc, ← ih]
    cases e with
    | register r => simp only [apply_eq]; rfl
    | unsubscribe | dispatch | returned | raised => rfl

theorem registered_snoc (key : Nat) (sub : Subscription) (es : List (WalkEvent V))
    (e : WalkEvent V) :
    Registered key sub (es ++ [e]) ↔
      (Registered key sub es ∧ e ≠ .unsubscribe key) ∨
        (subscribed e = some sub ∧ key = count es) := by
  constructor
  · rintro ⟨es₁, e', es₂, heq, hsub, hkey, hkeep⟩
    rcases List.eq_nil_or_concat es₂ with rfl | ⟨es₂', x, rfl⟩
    · obtain ⟨rfl, hx⟩ := List.append_inj' heq rfl
      obtain rfl : e = e' := by simpa using hx
      exact .inr ⟨hsub, hkey⟩
    · rw [List.concat_eq_append] at heq hkeep
      rw [← List.cons_append, ← List.append_assoc] at heq
      obtain ⟨rfl, hx⟩ := List.append_inj' heq rfl
      obtain rfl : e = x := by simpa using hx
      refine .inl ⟨⟨es₁, e', es₂', rfl, hsub, hkey, ?_⟩, ?_⟩
      · exact fun h => hkeep (List.mem_append_left _ h)
      · rintro rfl
        exact hkeep (by simp)
  · rintro (⟨⟨es₁, e', es₂, rfl, hsub, hkey, hkeep⟩, he⟩ | ⟨hsub, hkey⟩)
    · refine ⟨es₁, e', es₂ ++ [e], by simp, hsub, hkey, ?_⟩
      rw [List.mem_append, List.mem_singleton, not_or]
      exact ⟨hkeep, fun h => he h.symm⟩
    · exact ⟨es, e, [], rfl, hsub, hkey, List.not_mem_nil⟩

/-- **The registrations are those made and not unsubscribed since**, each under its number. -/
theorem mem_entries_iff (es : List (WalkEvent V)) (key : Nat) (reg : Registration) :
    (key, reg) ∈ (after es).listeners.registrations.entries ↔
      ∃ sub, Registered key sub es ∧ sub.registration = reg := by
  induction es using List.reverseRecOn with
  | nil =>
    constructor
    · intro h; cases h
    · rintro ⟨sub, ⟨es₁, e, es₂, h, -⟩, -⟩
      cases es₁ <;> cases h
  | append_singleton es e ih =>
    have hids := ids_eq es
    have hstep := step_listeners (after es) e
    unfold after at ih hids hstep ⊢
    rw [run_snoc, hstep]
    simp only [registered_snoc]
    cases e with
    | register r =>
      simp only [entries_apply, List.mem_append, ih, List.mem_singleton, Prod.mk.injEq, subscribed,
        Option.some.injEq, hids]
      constructor
      · rintro (⟨sub, hsub, rfl⟩ | ⟨rfl, rfl⟩)
        · exact ⟨sub, .inl ⟨hsub, nofun⟩, rfl⟩
        · exact ⟨r.subscription, .inr ⟨rfl, rfl⟩, rfl⟩
      · rintro ⟨sub, ⟨hsub, -⟩ | ⟨rfl, rfl⟩, rfl⟩
        · exact .inl ⟨sub, hsub, rfl⟩
        · exact .inr ⟨rfl, rfl⟩
    | unsubscribe k =>
      have hmem : ∀ x : Nat × Registration,
          x ∈ ((run step init es).listeners.unsubscribe k).registrations.entries ↔
            x ∈ (run step init es).listeners.registrations.entries ∧ x.1 ≠ k := by
        intro x
        show x ∈ List.filter _ _ ↔ _
        rw [List.mem_filter]
        simp
      rw [hmem, ih]
      simp only [subscribed, reduceCtorEq, false_and, or_false, ne_eq, WalkEvent.unsubscribe.injEq]
      constructor
      · rintro ⟨⟨sub, hsub, rfl⟩, hk⟩
        exact ⟨sub, ⟨hsub, fun h => hk h.symm⟩, rfl⟩
      · rintro ⟨sub, ⟨hsub, hk⟩, rfl⟩
        exact ⟨⟨sub, hsub, rfl⟩, fun h => hk h.symm⟩
    | dispatch | returned | raised => simp [ih, subscribed]

/-- The registrations stand in the order they were made in. -/
theorem keys_sorted (es : List (WalkEvent V)) :
    (after es).listeners.registrations.keys.Pairwise (· < ·) := by
  unfold after
  refine Runs.invariant step (I := fun s => s.listeners.registrations.keys.Pairwise (· < ·))
    (fun s e h => ?_) List.Pairwise.nil es
  rw [step_listeners]
  cases e with
  | register r =>
    show ((r.apply s.listeners).registrations.entries.map Prod.fst).Pairwise _
    rw [entries_apply, List.map_append, List.pairwise_append]
    refine ⟨h, List.pairwise_singleton _ _, fun k hk k' hk' => ?_⟩
    obtain rfl := List.mem_singleton.mp hk'
    exact s.listeners.fresh k hk
  | unsubscribe k => exact h.sublist (List.filter_sublist.map _)
  | dispatch | returned | raised => exact h

/-! ### Walking -/

section
variable {s : Walks V} {d : Nat} {record : Record V} {entries : List (Nat × Registration)}

/-- Going on invokes the first listener that matches, and leaves the others. -/
theorem goOn_cases (s : Walks V) (d : Nat) (record : Record V) (entries : List (Nat × Registration)) :
    (matching record record.fields.keys entries = [] ∧
        (s.goOn d record entries).1.running d = none ∧ (s.goOn d record entries).2 = []) ∨
      ∃ key rest, matching record record.fields.keys entries =
          key :: matching record record.fields.keys rest ∧
        (s.goOn d record entries).1.running d = some ⟨record, rest⟩ ∧
        (s.goOn d record entries).2 = [⟨d, key, record⟩] := by
  unfold goOn
  cases hn : nextListener record record.fields.keys entries with
  | none => exact .inl ⟨matching_of_next_none hn, by simp, rfl⟩
  | some next =>
    obtain ⟨key, rest⟩ := next
    exact .inr ⟨key, rest, matching_of_next hn, by simp, rfl⟩

theorem goOn_other {d' : Nat} (h : d' ≠ d) :
    (s.goOn d' record entries).1.running d = s.running d ∧
      ((s.goOn d' record entries).2.filter fun inv => inv.dispatch = d) = [] := by
  refine ⟨Function.update_of_ne h.symm .., ?_⟩
  rcases goOn_cases s d' record entries with ⟨-, -, hobs⟩ | ⟨key, rest, -, -, hobs⟩
  · rw [hobs]; rfl
  · rw [hobs]; simp [h]

/-- Events that are not of dispatch `d` leave it where it is. -/
theorem step_other {e : WalkEvent V} (h : ¬ Of d e) :
    (s.step e).running d = s.running d ∧ ((s.seen e).filter fun inv => inv.dispatch = d) = [] := by
  unfold step seen
  cases e with
  | register | unsubscribe => exact ⟨rfl, rfl⟩
  | dispatch d' record =>
    simp only [exec]
    split
    · exact goOn_other h
    · exact ⟨rfl, rfl⟩
  | returned d' =>
    simp only [exec]
    split
    · exact goOn_other h
    · exact ⟨rfl, rfl⟩
  | raised d' => exact ⟨Function.update_of_ne (Ne.symm h) .., rfl⟩

/-- A dispatch that is over stays over. -/
theorem over_run (es : List (WalkEvent V)) (hover : s.running d = none)
    (honce : ∀ record, .dispatch d record ∉ es) :
    ((outputs step seen s es).filter fun inv => inv.dispatch = d) = [] ∧
      (run step s es).running d = none := by
  induction es generalizing s with
  | nil => exact ⟨rfl, hover⟩
  | cons e es ih =>
    have hstep : (s.step e).running d = none ∧
        ((s.seen e).filter fun inv => inv.dispatch = d) = [] := by
      by_cases he : Of d e
      · cases e with
        | register | unsubscribe => cases he
        | dispatch d' record => obtain rfl : d' = d := he; exact absurd List.mem_cons_self (honce record)
        | returned d' =>
          obtain rfl : d' = d := he
          unfold step seen
          simp only [exec, hover]
          exact ⟨trivial, rfl⟩
        | raised d' => obtain rfl : d' = d := he; exact ⟨Function.update_self .., rfl⟩
      · rw [← hover]
        exact step_other he
    obtain ⟨hobs, hrun⟩ := ih hstep.1 fun record h => honce record (List.mem_cons_of_mem _ h)
    exact ⟨by rw [outputs, List.filter_append, hstep.2, hobs]; rfl, hrun⟩

theorem returns_cons_self (d : Nat) (es : List (WalkEvent V)) :
    returns d (.returned d :: es) = returns d es + 1 := by
  simp [returns]

theorem returns_cons_of_not {e : WalkEvent V} (h : ¬ Of d e) (es : List (WalkEvent V)) :
    returns d (e :: es) = returns d es := by
  cases e with
  | returned d' => have : d' ≠ d := h; simp [returns, this]
  | register | unsubscribe | dispatch | raised => simp [returns]

/-- **A dispatch under way.**  Each return takes it to the next of the listeners that match, and the
one after the last ends it. -/
theorem walk_run (es : List (WalkEvent V)) {w : Walk V} (hw : s.running d = some w)
    (honce : ∀ record, .dispatch d record ∉ es) (hno : .raised d ∉ es) :
    let wanted := matching w.record w.record.fields.keys w.rest
    ((outputs step seen s es).filter fun inv => inv.dispatch = d) =
        (wanted.take (returns d es)).map (⟨d, ·, w.record⟩) ∧
      ((run step s es).running d = none ↔ wanted.length < returns d es) := by
  intro wanted
  induction es generalizing s w with
  | nil => exact ⟨rfl, by simp [hw, returns]⟩
  | cons e es ih =>
    have honce' : ∀ record, .dispatch d record ∉ es := fun record h =>
      honce record (List.mem_cons_of_mem _ h)
    have hno' : .raised d ∉ es := fun h => hno (List.mem_cons_of_mem _ h)
    rw [outputs, List.filter_append, run_cons]
    by_cases he : Of d e
    · cases e with
      | register | unsubscribe => cases he
      | dispatch d' record => obtain rfl : d' = d := he; exact absurd List.mem_cons_self (honce record)
      | raised d' => obtain rfl : d' = d := he; exact absurd List.mem_cons_self hno
      | returned d' =>
        obtain rfl : d' = d := he
        rw [returns_cons_self]
        have hst : s.step (.returned d') = (s.goOn d' w.record w.rest).1 := by
          unfold step; simp only [exec, hw]
        have hobs : s.seen (.returned d') = (s.goOn d' w.record w.rest).2 := by
          unfold seen; simp only [exec, hw]
        rcases goOn_cases s d' w.record w.rest with ⟨hm, hover, hnil⟩ | ⟨key, rest, hm, hon, hone⟩
        · -- it was the last
          obtain ⟨hout, hend⟩ := over_run es (hst ▸ hover) honce'
          rw [hobs, hnil, hout, show wanted = [] from hm]
          exact ⟨by simp, by simp [hend]⟩
        · obtain ⟨hout, hend⟩ := ih (hst ▸ hon) honce' hno'
          rw [hobs, hone, hout, hend, show wanted = _ from hm]
          refine ⟨?_, by simp⟩
          simp [List.take_succ_cons]
    · obtain ⟨hrun, hobs⟩ := step_other (s := s) he
      rw [hobs, List.nil_append, returns_cons_of_not he]
      exact ih (hrun.trans hw) honce' hno'

end

/-! ## Top theorems (proved from the lemmas above) -/

/-- **A dispatch invokes the listeners that were registered when it was called, in order.**  Between
its invocations there may be registrations, unsubscriptions and other dispatches.  The `wanted`
are those whose filters let the record through, each once and in the order they were registered
in; each return of a listener takes the dispatch to the next one, and when all have returned it
is over.  An `unsubscribe` takes away its own registration and no other. -/
theorem dispatch_invokes (es₁ es₂ : List (WalkEvent V)) (d : Nat) (record : Record V)
    (hidle : (after es₁).running d = none) (honce : ∀ record, .dispatch d record ∉ es₂)
    (hno : .raised d ∉ es₂) :
    (∃ wanted : List Nat, wanted.Pairwise (· < ·) ∧
      (∀ key, key ∈ wanted ↔ ∃ sub, Registered key sub es₁ ∧ sub.Accepts record) ∧
      ((outputs step seen (after es₁) (.dispatch d record :: es₂)).filter
          fun inv => inv.dispatch = d) =
        (wanted.take (returns d es₂ + 1)).map (⟨d, ·, record⟩) ∧
      ((after (es₁ ++ .dispatch d record :: es₂)).running d = none ↔
        wanted.length ≤ returns d es₂)) ∧
    ∀ key, (after (es₁ ++ [.unsubscribe key])).listeners.registrations.entries =
      (after es₁).listeners.registrations.entries.filter (·.1 ≠ key) := by
  set entries := (after es₁).listeners.registrations.entries with hentries
  refine ⟨⟨matching record record.fields.keys entries, ?_, fun key => ?_, ?_⟩, fun key => ?_⟩
  · exact (keys_sorted es₁).sublist (List.filter_sublist.map _)
  · unfold matching
    simp only [List.mem_map, List.mem_filter, Prod.exists, exists_and_right, exists_eq_right]
    constructor
    · rintro ⟨reg, hreg, hm⟩
      obtain ⟨sub, hsub, rfl⟩ := (mem_entries_iff es₁ key reg).mp hreg
      exact ⟨sub, hsub, (matches_iff sub record).mp hm⟩
    · rintro ⟨sub, hsub, hacc⟩
      exact ⟨sub.registration, (mem_entries_iff es₁ key _).mpr ⟨sub, hsub, rfl⟩,
        (matches_iff sub record).mpr hacc⟩
  · have hst : (after es₁).step (.dispatch d record) = ((after es₁).goOn d record entries).1 := by
      unfold step; simp only [exec, hidle]; rfl
    have hobs : (after es₁).seen (.dispatch d record) = ((after es₁).goOn d record entries).2 := by
      unfold seen; simp only [exec, hidle]; rfl
    rw [outputs, List.filter_append, hobs,
      show after (es₁ ++ .dispatch d record :: es₂) = _ from run_append ..]
    show _ ∧ ((run step ((after es₁).step (.dispatch d record)) es₂).running d = none ↔ _)
    rcases goOn_cases (after es₁) d record entries with ⟨hm, hover, hnil⟩ | ⟨key, rest, hm, hon, hone⟩
    · obtain ⟨hout, hend⟩ := over_run es₂ (hst ▸ hover) honce
      rw [hnil, hout, hend, hm]
      exact ⟨rfl, by simp⟩
    · obtain ⟨hout, hend⟩ := walk_run es₂ (hst ▸ hon) honce hno
      rw [hone, hout, hend, hm]
      refine ⟨by simp, ?_⟩
      rw [List.length_cons]
      exact Nat.lt_iff_add_one_le
  · show (run step init (es₁ ++ [.unsubscribe key])).listeners.registrations.entries = _
    rw [run_snoc]
    rfl

/-- A callback registered three times, once for nothing, and one for the data of a vehicle. -/
def fourListeners : List (WalkEvent Unit) :=
  [.register (.addListener 7 .none .none .none), .register (.onData 8 (.value "V") .none),
    .register (.addListener 7 (.values []) .none .none),
    .register (.addListener 7 .none .none .none)]

def emptyRecord : Record Unit where
  vin := "V"
  topic := .data
  createdAt := 0
  txid := ""
  message := (⟨[], "V"⟩ : Payload Unit)
  raw := []

/-- The first listener unsubscribes the second and registers a new one: neither matters. -/
theorem dispatch_invokes_four :
    let es : List (WalkEvent Unit) := [.unsubscribe 1, .register (.addListener 9 .none .none .none),
      .returned 0, .returned 0, .returned 0]
    (∃ wanted : List Nat, wanted.Pairwise (· < ·) ∧
      ((outputs step seen (after fourListeners) (.dispatch 0 emptyRecord :: es)).filter
        fun inv => inv.dispatch = 0) = (wanted.take 4).map (⟨0, ·, emptyRecord⟩)) ∧
    (outputs step seen (after fourListeners) (.dispatch 0 emptyRecord :: es)).map Invocation.key =
      [0, 1, 3] := by
  intro es
  obtain ⟨⟨wanted, hsorted, -, hout, -⟩, -⟩ := dispatch_invokes fourListeners es 0 emptyRecord rfl
    (by simp [es]) (by simp [es])
  exact ⟨⟨wanted, hsorted, hout⟩, by decide⟩

end Walks

end FleetTelemetry
