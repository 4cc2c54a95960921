import Mathlib.Data.List.Nodup

/-!
# Insertion-ordered dictionaries

`Dict κ α` is an association list with distinct keys, in the order in which the
keys were first set: setting a key that is there keeps its place.

    (d.set k a).get p = if p = k then some a else d.get p        (get_set)
    (d.erase k).get p = if p = k then none else d.get p          (get_erase)

A fold of `set` leaves at each key the last value set there (`get_foldl_set`).
-/

structure Dict (κ α : Type*) where
  entries : List (κ × α)
  nodup : (entries.map Prod.fst).Nodup

namespace Dict

variable {κ α : Type*}

def empty : Dict κ α := ⟨[], List.nodup_nil⟩

def keys (d : Dict κ α) : List κ := d.entries.map Prod.fst

variable [DecidableEq κ]

def get (d : Dict κ α) (k : κ) : Option α := (d.entries.find? (·.1 = k)).map Prod.snd

/-- The entries after `k` is set: its entry changed in place, or a new one at the end. -/
def setEntries (k : κ) (a : α) : List (κ × α) → List (κ × α)
  | [] => [(k, a)]
  | e :: es => if e.1 = k then (k, a) :: es else e :: setEntries k a es

theorem setEntries_keys (k : κ) (a : α) (es : List (κ × α)) :
    (setEntries k a es).map Prod.fst =
      if k ∈ es.map Prod.fst then es.map Prod.fst else es.map Prod.fst ++ [k] := by
  induction es with
  | nil => rfl
  | cons e es ih =>
    unfold setEntries
    by_cases he : e.1 = k
    · simp [he]
    · have hk : k ≠ e.1 := fun h => he h.symm
      simp only [he, if_false, List.map_cons, ih, List.mem_cons, hk, false_or]
      split <;> rfl

def set (d : Dict κ α) (k : κ) (a : α) : Dict κ α where
  entries := setEntries k a d.entries
  nodup := by
    rw [setEntries_keys]
    split
    · exact d.nodup
    · next h => exact List.Nodup.append d.nodup (List.nodup_singleton k) (by simpa using h)

def erase (d : Dict κ α) (k : κ) : Dict κ α where
  entries := d.entries.filter (·.1 ≠ k)
  nodup := d.nodup.sublist (List.filter_sublist.map _)

/-! ## Lemmas -/

theorem find_setEntries (k p : κ) (a : α) (es : List (κ × α)) :
    ((setEntries k a es).find? (·.1 = p)).map Prod.snd =
      if p = k then some a else (es.find? (·.1 = p)).map Prod.snd := by
  induction es with
  | nil => by_cases hp : k = p <;> simp [setEntries, hp, eq_comm]
  | cons e es ih =>
    unfold setEntries
    by_cases he : e.1 = k
    · by_cases hp : k = p
      · simp [he, hp]
      · have hp' : p ≠ k := fun h => hp h.symm
        simp [he, hp, hp']
    · by_cases hep : e.1 = p
      · have hpk : p ≠ k := fun h => he (hep.trans h)
        simp [hep, hpk]
      · simpa [he, hep] using ih

@[simp] theorem get_set (d : Dict κ α) (k p : κ) (a : α) :
    (d.set k a).get p = if p = k then some a else d.get p :=
  find_setEntries k p a d.entries

@[simp] theorem get_erase (d : Dict κ α) (k p : κ) :
    (d.erase k).get p = if p = k then none else d.get p := by
  unfold get erase
  by_cases hp : p = k
  · subst hp
    simp
  · rw [if_neg hp, List.find?_filter]
    congr 2
    funext e
    by_cases he : e.1 = p
    · have : e.1 ≠ k := fun h => hp (he.symm.trans h)
      simp [he, hp]
    · simp [he]

theorem mem_entries_iff (d : Dict κ α) (k : κ) (a : α) :
    (k, a) ∈ d.entries ↔ d.get k = some a := by
  unfold get
  obtain ⟨es, hn⟩ := d
  simp only
  induction es with
  | nil => simp
  | cons e es ih =>
    obtain ⟨p, b⟩ := e
    rw [List.map_cons, List.nodup_cons] at hn
    have ih := ih hn.2
    by_cases hp : p = k
    · subst hp
      have : (p, a) ∉ es := fun h => hn.1 (List.mem_map.mpr ⟨_, h, rfl⟩)
      simp [this, eq_comm]
    · have hp' : k ≠ p := fun h => hp h.symm
      simpa [hp, hp'] using ih

theorem mem_keys_iff (d : Dict κ α) (k : κ) : k ∈ d.keys ↔ (d.get k).isSome := by
  rw [Option.isSome_iff_exists]
  simp only [keys, List.mem_map, Prod.exists, exists_and_right, exists_eq_right, mem_entries_iff]

theorem keys_set (d : Dict κ α) (k : κ) (a : α) :
    (d.set k a).keys = if k ∈ d.keys then d.keys else d.keys ++ [k] :=
  setEntries_keys k a d.entries

/-- A fold of `set` leaves at `k` the last value set there. -/
theorem get_foldl_set {β : Type*} (key : β → κ) (value : β → α) (l : List β) (d : Dict κ α) (k : κ) :
    (l.foldl (fun d x => d.set (key x) (value x)) d).get k =
      ((l.filter (key · = k)).getLast?.map value).or (d.get k) := by
  induction l generalizing d with
  | nil => simp
  | cons x l ih =>
    rw [List.foldl_cons, ih, get_set]
    by_cases hx : key x = k
    · rw [List.filter_cons_of_pos (by simpa using hx), if_pos hx.symm, List.getLast?_cons]
      cases (l.filter (key · = k)).getLast? <;> simp
    · have hx' : k ≠ key x := fun h => hx h.symm
      rw [List.filter_cons_of_neg (by simpa using hx), if_neg hx']

theorem setEntries_of_new (k : κ) (a : α) (es : List (κ × α)) (h : k ∉ es.map Prod.fst) :
    setEntries k a es = es ++ [(k, a)] := by
  induction es with
  | nil => rfl
  | cons e es ih =>
    rw [List.map_cons, List.mem_cons, not_or] at h
    have he : e.1 ≠ k := fun h' => h.1 h'.symm
    simp [setEntries, he, ih h.2]

/-- A new key goes to the end. -/
theorem entries_set_of_new (d : Dict κ α) (k : κ) (a : α) (h : k ∉ d.keys) :
    (d.set k a).entries = d.entries ++ [(k, a)] :=
  setEntries_of_new k a d.entries h

end Dict
