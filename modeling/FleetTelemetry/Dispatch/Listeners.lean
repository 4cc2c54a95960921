import FleetTelemetry.Records.Record
import Mathlib.Data.Finset.Basic

/-!
# Listeners

The registrations of `Dispatcher`, their filters, and the walk of `dispatch` over a
snapshot of them: `nextListener` goes on to the next registration that matches.

    nextListener r keys entries = some (k, rest) →
      matching r keys entries = k :: matching r keys rest          (matching_of_next)
-/

namespace FleetTelemetry

variable {V : Type}

/-- A filter argument: `None`, one string, or an iterable of strings. -/
inductive FilterSpec where
  | none
  | value (s : String)
  | values (vs : List String)

/-- `_normalize` -/
def normalize : FilterSpec → Option (Finset String)
  | .none => .none
  | .value s => some {s}
  | .values vs => some vs.toFinset

structure Registration where
  callback : Nat
  vins : Option (Finset String)
  topics : Option (Finset String)
  fields : Option (Finset String)

/-- `_Registration.matches` -/
def Registration.matchesRecord (reg : Registration) (record : Record V) (fieldKeys : List String) :
    Bool :=
  (match reg.vins with
    | none => true
    | some vins => decide (record.vin ∈ vins)) &&
  (match reg.topics with
    | none => true
    | some topics => decide (record.topic.value ∈ topics)) &&
  (match reg.fields with
    | none => true
    | some fields => fieldKeys.any fun k => decide (k ∈ fields))

/-- `fresh`: `ids` counts past every key in use. -/
structure Listeners where
  registrations : Dict Nat Registration
  ids : Nat
  fresh : ∀ k ∈ registrations.keys, k < ids

namespace Listeners

def empty : Listeners := ⟨Dict.empty, 0, by simp [Dict.keys, Dict.empty]⟩

/-- `add_listener`; the key of the registration is what `unsubscribe` closes over. -/
def addListener (l : Listeners) (callback : Nat) (vin topic field : FilterSpec) : Listeners where
  registrations := l.registrations.set l.ids ⟨callback, normalize vin, normalize topic, normalize field⟩
  ids := l.ids + 1
  fresh := by
    intro k hk
    rw [Dict.keys_set] at hk
    split at hk
    · have := l.fresh k hk; omega
    · rcases List.mem_append.mp hk with hk | hk
      · have := l.fresh k hk; omega
      · rw [List.mem_singleton] at hk; omega

def onData (l : Listeners) (callback : Nat) (vin field : FilterSpec) : Listeners :=
  l.addListener callback vin (.value Topic.data.value) field

def onAlert (l : Listeners) (callback : Nat) (vin field : FilterSpec) : Listeners :=
  l.addListener callback vin (.value Topic.alerts.value) field

def onError (l : Listeners) (callback : Nat) (vin field : FilterSpec) : Listeners :=
  l.addListener callback vin (.value Topic.errors.value) field

def onConnectivity (l : Listeners) (callback : Nat) (vin field : FilterSpec) : Listeners :=
  l.addListener callback vin (.value Topic.connectivity.value) field

def unsubscribe (l : Listeners) (key : Nat) : Listeners where
  registrations := l.registrations.erase key
  ids := l.ids
  fresh := by
    intro k hk
    obtain ⟨e, he, rfl⟩ := List.mem_map.mp hk
    exact l.fresh e.1 (List.mem_map.mpr ⟨e, (List.mem_filter.mp he).1, rfl⟩)

end Listeners

/-- The loop of `dispatch` over `list(self._registrations.values())`, up to the next registration
that matches: its key and the registrations after it. -/
def nextListener (record : Record V) (fieldKeys : List String) :
    List (Nat × Registration) → Option (Nat × List (Nat × Registration))
  | [] => none
  | (key, registration) :: rest =>
    if registration.matchesRecord record fieldKeys then some (key, rest)
    else nextListener record fieldKeys rest

/-- The keys of the registrations that match, in order. -/
def matching (record : Record V) (fieldKeys : List String) (entries : List (Nat × Registration)) :
    List Nat :=
  (entries.filter fun e => e.2.matchesRecord record fieldKeys).map Prod.fst

/-! ## Lemmas -/

theorem matching_of_next {record : Record V} {fieldKeys : List String}
    {entries rest : List (Nat × Registration)} {key : Nat}
    (h : nextListener record fieldKeys entries = some (key, rest)) :
    matching record fieldKeys entries = key :: matching record fieldKeys rest := by
  induction entries with
  | nil => cases h
  | cons e entries ih =>
    obtain ⟨k, reg⟩ := e
    unfold nextListener at h
    unfold matching at ih ⊢
    split at h
    · next hm =>
      obtain ⟨rfl, rfl⟩ := Prod.mk.inj (Option.some.inj h)
      rw [List.filter_cons_of_pos (by exact hm), List.map_cons]
    · next hm => rw [List.filter_cons_of_neg (by exact hm), ih h]

theorem matching_of_next_none {record : Record V} {fieldKeys : List String}
    {entries : List (Nat × Registration)} (h : nextListener record fieldKeys entries = none) :
    matching record fieldKeys entries = [] := by
  induction entries with
  | nil => rfl
  | cons e entries ih =>
    obtain ⟨k, reg⟩ := e
    unfold nextListener at h
    split at h
    · cases h
    · next hm =>
      unfold matching at ih ⊢
      rw [List.filter_cons_of_neg (by exact hm), ih h]

theorem suffix_of_next {record : Record V} {fieldKeys : List String}
    {entries rest : List (Nat × Registration)} {key : Nat}
    (h : nextListener record fieldKeys entries = some (key, rest)) : rest <:+ entries := by
  induction entries with
  | nil => cases h
  | cons e entries ih =>
    obtain ⟨k, reg⟩ := e
    unfold nextListener at h
    split at h
    · obtain ⟨-, rfl⟩ := Prod.mk.inj (Option.some.inj h)
      exact List.suffix_cons _ _
    · exact (ih h).trans (List.suffix_cons _ _)

theorem matching_append (record : Record V) (fieldKeys : List String)
    (entries entries' : List (Nat × Registration)) :
    matching record fieldKeys (entries ++ entries') =
      matching record fieldKeys entries ++ matching record fieldKeys entries' := by
  unfold matching
  rw [List.filter_append, List.map_append]

theorem matching_erase (record : Record V) (fieldKeys : List String) (d : Dict Nat Registration)
    (key : Nat) :
    matching record fieldKeys (d.erase key).entries =
      (matching record fieldKeys d.entries).filter (· ≠ key) := by
  unfold matching Dict.erase
  rw [List.filter_map, List.filter_filter, List.filter_filter]
  congr 1
  exact List.filter_congr fun e _ => Bool.and_comm _ _

theorem matching_nodup (record : Record V) (fieldKeys : List String) (d : Dict Nat Registration) :
    (matching record fieldKeys d.entries).Nodup :=
  d.nodup.sublist (List.filter_sublist.map _)

theorem mem_matching (record : Record V) (fieldKeys : List String) (d : Dict Nat Registration)
    (key : Nat) :
    key ∈ matching record fieldKeys d.entries ↔
      ∃ reg, d.get key = some reg ∧ reg.matchesRecord record fieldKeys = true := by
  unfold matching
  simp only [List.mem_map, List.mem_filter, Prod.exists, exists_and_right, exists_eq_right,
    Dict.mem_entries_iff]

end FleetTelemetry
