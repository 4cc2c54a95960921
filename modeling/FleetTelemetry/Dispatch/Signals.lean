import FleetTelemetry.Dispatch.Listeners
import Mathlib

/-!
# Signals

The names `fields` gives the data of a payload.  No two numbers share a name, the
enum's own names and the synthesized ones included, so the entries of `fields` are
the payload's distinct keys, each with the value of the last datum that has it:

    signalName j = signalName k → j = k                              (signalName_injective)
    fields.get (signalName k) = value of the last datum with key k   (get_fields)

A `field` filter therefore passes when some datum has the key so called.
-/

namespace FleetTelemetry

variable {V : Type}

/-! ## Lemmas: names -/

theorem letters_cons {l : List Char} {names : List String} {ls : List (List Char)}
    (h : names = ls.map String.ofList) : String.ofList l :: names = (l :: ls).map String.ofList := by
  rw [h, List.map_cons]

set_option maxRecDepth 4000 in
/-- The names letter by letter; read as numbers they are told apart at less cost. -/
theorem fieldNames_letters :
    ∃ letters : List (List Char), fieldNames = letters.map String.ofList ∧
      (letters.map fun l => l.foldl (fun n c => n * 128 + c.toNat) 0).Nodup ∧
      ∀ l ∈ letters, l.take 6 ≠ "Field_".toList := by
  apply Exists.intro
  apply And.intro
  · simp only [fieldNames]
    repeat apply letters_cons
    exact List.map_nil.symm
  · constructor
    · decide +kernel
    · decide +kernel

theorem fieldNames_nodup : fieldNames.Nodup := by
  obtain ⟨letters, hl, hn, -⟩ := fieldNames_letters
  rw [hl]
  exact (List.Nodup.of_map _ hn).map fun _ _ h => String.ofList_injective h

theorem fieldNames_not_synthesized (name : String) (h : name ∈ fieldNames) :
    name.toList.take 6 ≠ "Field_".toList := by
  obtain ⟨letters, hl, -, ha⟩ := fieldNames_letters
  rw [hl] at h
  obtain ⟨l, hm, rfl⟩ := List.mem_map.mp h
  rw [String.toList_ofList]
  exact ha l hm

theorem fieldName_eq_some (key : Int) (name : String) :
    fieldName key = some name ↔ 0 ≤ key ∧ fieldNames[key.toNat]? = some name := by
  unfold fieldName
  split
  · next h => simp [h]
  · next h => simp [h]

/-- **No two numbers share a name.** -/
theorem signalName_injective : Function.Injective signalName := by
  -- an enum name is not of the form `Field_<int>`
  have apart : ∀ (name : String) (j k : Int), fieldName j = some name →
      name ≠ "Field_" ++ toString k := by
    rintro name j k hj rfl
    have hm := List.mem_of_getElem? ((fieldName_eq_some j _).mp hj).2
    refine fieldNames_not_synthesized _ hm ?_
    rw [String.toList_append]
    show ("Field_".toList ++ (toString k).toList).take "Field_".toList.length = "Field_".toList
    exact List.take_left
  intro j k h
  unfold signalName at h
  rcases hj : fieldName j with _ | name <;> rcases hk : fieldName k with _ | name' <;>
    simp only [hj, hk, Option.getD_none, Option.getD_some] at h
  · exact Int.repr_injective ((String.append_right_inj _).mp h)
  · exact absurd h.symm (apart name' k j hk)
  · exact absurd h (apart name j k hj)
  · -- both are names of the enum, whose list repeats none
    obtain ⟨hj0, hj⟩ := (fieldName_eq_some j name).mp hj
    obtain ⟨hk0, hk⟩ := (fieldName_eq_some k name').mp hk
    obtain ⟨hlt, -⟩ := List.getElem?_eq_some_iff.mp hj
    have hjk : j.toNat = k.toNat :=
      (List.getElem?_inj hlt fieldNames_nodup).mp (by rw [hj, hk, h])
    omega

/-! ## Lemmas: `fields` -/

theorem get_fields (vin : String) (createdAt : Nat) (txid : String) (payload : Payload V)
    (raw : Bytes) (k : Int) :
    (Record.fields ⟨vin, .data, createdAt, txid, payload, raw⟩).get (signalName k) =
      (payload.data.filter (·.key = k)).getLast?.map Datum.value := by
  show (payload.data.foldl _ Dict.empty).get (signalName k) = _
  rw [Dict.get_foldl_set (fun datum => signalName datum.key) Datum.value]
  have hname : ∀ j, signalName j = signalName k ↔ j = k := fun j => signalName_injective.eq_iff
  simp [hname, Dict.get, Dict.empty]

theorem mem_fields_keys (vin : String) (createdAt : Nat) (txid : String) (payload : Payload V)
    (raw : Bytes) (name : String) :
    name ∈ (Record.fields ⟨vin, .data, createdAt, txid, payload, raw⟩).keys ↔
      ∃ datum ∈ payload.data, signalName datum.key = name := by
  rw [Dict.mem_keys_iff]
  show ((payload.data.foldl _ Dict.empty).get name).isSome ↔ _
  rw [Dict.get_foldl_set (fun datum => signalName datum.key) Datum.value]
  simp [Dict.get, Dict.empty]

/-! ## Top theorems (proved from the lemmas above) -/

/-- **The signals of a payload**: one entry per distinct key, under the key's own name, with the
value of the last datum that has the key; a `field` filter looks for the name. -/
theorem fields_signals (vin : String) (createdAt : Nat) (txid : String) (payload : Payload V)
    (raw : Bytes) :
    let r : Record V := ⟨vin, .data, createdAt, txid, payload, raw⟩
    (∀ k : Int, signalName k = match fieldName k with
      | some name => name
      | none => "Field_" ++ toString k) ∧
    Function.Injective signalName ∧
    r.fields.keys.Nodup ∧
    Set.BijOn signalName {k | k ∈ payload.data.map Datum.key} {name | name ∈ r.fields.keys} ∧
    (∀ k, r.fields.get (signalName k) =
      (payload.data.filter (·.key = k)).getLast?.map Datum.value) ∧
    ∀ callback vins topics name,
      (Registration.matchesRecord ⟨callback, vins, topics, normalize (.value name)⟩ r
          r.fields.keys = true ↔
        Registration.matchesRecord ⟨callback, vins, topics, none⟩ r r.fields.keys = true ∧
        ∃ datum ∈ payload.data, signalName datum.key = name) := by
  intro r
  refine ⟨?_, signalName_injective, Dict.nodup _, ⟨?_, signalName_injective.injOn, ?_⟩,
    get_fields vin createdAt txid payload raw, ?_⟩
  · intro k
    unfold signalName
    cases fieldName k <;> rfl
  · rintro k hk
    obtain ⟨datum, hd, rfl⟩ := List.mem_map.mp hk
    exact (mem_fields_keys ..).mpr ⟨datum, hd, rfl⟩
  · rintro name hname
    obtain ⟨datum, hd, rfl⟩ := (mem_fields_keys ..).mp hname
    exact ⟨datum.key, List.mem_map.mpr ⟨datum, hd, rfl⟩, rfl⟩
  · intro callback vins topics name
    have hname : name ∈ r.fields.keys ↔ ∃ datum ∈ payload.data, signalName datum.key = name :=
      mem_fields_keys ..
    rw [← hname]
    simp [Registration.matchesRecord, normalize, and_assoc]

end FleetTelemetry
