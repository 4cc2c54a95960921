import FleetTelemetry.Lib.Runs
import Mathlib.Data.List.Induction
import Mathlib.Logic.Function.Basic

/-!
# Last-writer-wins slots with owner tokens

One slot a key.  A token that registers takes the slot whoever had it; a token that
releases clears the slot only while it still holds it.  What the registry announces
is `true` for a registration and `false` for a release that cleared the slot.

    Once ops → (run step s ops k = some t ↔ latest k ops = some t ∧ .release k t ∉ ops)   (holder_iff)
    every `false` announced for `k` right after a `true`, the last is `true` while held     (announcements)
-/

namespace TokenRegistry

open Runs

variable {κ τ : Type*}

inductive Op (κ τ : Type*) where
  | register (k : κ) (t : τ)
  | release (k : κ) (t : τ)
deriving DecidableEq

/-- The token registered last for `k`. -/
def latest [DecidableEq κ] (k : κ) (ops : List (Op κ τ)) : Option τ :=
  ops.foldl (fun last op => match op with
    | .register p t => if p = k then some t else last
    | .release _ _ => last) none

/-- A token that was never used. -/
def Fresh (t : τ) (ops : List (Op κ τ)) : Prop := ∀ k, .register k t ∉ ops ∧ .release k t ∉ ops

/-- Every token is registered at most once, and not after its release. -/
inductive Once : List (Op κ τ) → Prop where
  | nil : Once []
  | register {ops : List (Op κ τ)} {t : τ} (k : κ) (h : Once ops) (hfresh : Fresh t ops) :
      Once (ops ++ [.register k t])
  | release {ops : List (Op κ τ)} (k : κ) (t : τ) (h : Once ops) : Once (ops ++ [.release k t])

variable [DecidableEq κ] [DecidableEq τ]

def step (s : κ → Option τ) : Op κ τ → κ → Option τ
  | .register k t => Function.update s k (some t)
  | .release k t => if s k = some t then Function.update s k none else s

def announce (s : κ → Option τ) : Op κ τ → List (κ × Bool)
  | .register k _ => [(k, true)]
  | .release k t => if s k = some t then [(k, false)] else []

/-- What is announced for `k`. -/
def announced (k : κ) (s : κ → Option τ) (ops : List (Op κ τ)) : List Bool :=
  (outputs step announce s ops).filterMap fun a => if a.1 = k then some a.2 else none

/-- Every `false` comes right after a `true`. -/
def Paired (h : List Bool) : Prop := ∀ pre post, h = pre ++ false :: post → ∃ p, pre = p ++ [true]

/-! ## Lemmas -/

theorem step_register (s : κ → Option τ) (k : κ) (t : τ) :
    step s (.register k t) = Function.update s k (some t) := rfl

theorem step_release (s : κ → Option τ) (k : κ) (t : τ) :
    step s (.release k t) = if s k = some t then Function.update s k none else s := rfl

omit [DecidableEq κ] in
theorem announce_release (s : κ → Option τ) (k : κ) (t : τ) :
    announce s (.release k t) = if s k = some t then [(k, false)] else [] := rfl

/-- A release by a token that does not hold the slot changes and announces nothing. -/
theorem release_of_not_holder {s : κ → Option τ} {k : κ} {t : τ} (h : s k ≠ some t) :
    step s (.release k t) = s ∧ announce s (.release k t) = [] := by
  exact ⟨if_neg h, if_neg h⟩

omit [DecidableEq τ] in
theorem latest_mem {k : κ} {ops : List (Op κ τ)} {t : τ} (h : latest k ops = some t) :
    .register k t ∈ ops := by
  induction ops using List.reverseRecOn with
  | nil => cases h
  | append_singleton ops op ih =>
    unfold latest at h ih
    rw [List.foldl_append, List.foldl_cons, List.foldl_nil] at h
    rw [List.mem_append]
    cases op with
    | register p u =>
      simp only at h
      split at h
      · next hp => obtain rfl := Option.some.inj h; exact .inr (by simp [hp])
      · exact .inl (ih h)
    | release p u => exact .inl (ih h)

omit [DecidableEq τ] in
theorem latest_isSome {k : κ} {t : τ} {ops : List (Op κ τ)} (h : .register k t ∈ ops) :
    (latest k ops).isSome := by
  induction ops using List.reverseRecOn with
  | nil => cases h
  | append_singleton ops op ih =>
    unfold latest at ih ⊢
    rw [List.foldl_append, List.foldl_cons, List.foldl_nil]
    rcases List.mem_append.mp h with hm | hm
    · cases op with
      | register p u =>
        simp only
        split
        · rfl
        · exact ih hm
      | release p u => exact ih hm
    · obtain rfl := List.mem_singleton.mp hm
      simp

omit [DecidableEq τ] in
@[simp] theorem latest_register (k p : κ) (t : τ) (ops : List (Op κ τ)) :
    latest k (ops ++ [.register p t]) = if p = k then some t else latest k ops := by
  unfold latest
  rw [List.foldl_append]
  rfl

omit [DecidableEq τ] in
@[simp] theorem latest_release (k p : κ) (t : τ) (ops : List (Op κ τ)) :
    latest k (ops ++ [.release p t]) = latest k ops := by
  unfold latest
  rw [List.foldl_append]
  rfl

/-- **A token holds the slot exactly while it is the one registered last and has not released.** -/
theorem holder_iff {ops : List (Op κ τ)} (h : Once ops) (k : κ) (t : τ) :
    run step (fun _ => none) ops k = some t ↔ latest k ops = some t ∧ .release k t ∉ ops := by
  induction h generalizing k t with
  | nil => simp [latest]
  | @register ops u p h hfresh ih =>
    rw [run_snoc, latest_register, step_register]
    by_cases hp : p = k
    · subst hp
      rw [Function.update_self, if_pos rfl]
      constructor
      · intro hu
        obtain rfl := Option.some.inj hu
        exact ⟨rfl, by simpa using (hfresh p).2⟩
      · exact fun h => h.1
    · rw [Function.update_of_ne (fun h => hp h.symm), if_neg hp, ih]
      simp
  | @release ops p u h ih =>
    rw [run_snoc, latest_release, step_release]
    by_cases hu : run step (fun _ => none) ops p = some u
    · rw [if_pos hu]
      by_cases hp : k = p
      · subst hp
        rw [Function.update_self]
        have hl := (ih k u).mp hu
        constructor
        · intro h; cases h
        · rintro ⟨ht, hne⟩
          rw [hl.1] at ht
          obtain rfl := Option.some.inj ht
          exact absurd (by simp) hne
      · rw [Function.update_of_ne hp, ih]
        simp [hp]
    · rw [if_neg hu, ih]
      constructor
      · rintro ⟨ht, hne⟩
        refine ⟨ht, ?_⟩
        rw [List.mem_append, List.mem_singleton, not_or]
        refine ⟨hne, fun he => ?_⟩
        obtain ⟨rfl, rfl⟩ := Op.release.inj he
        exact hu ((ih k t).mpr ⟨ht, hne⟩)
      · rintro ⟨ht, hne⟩
        exact ⟨ht, fun hm => hne (List.mem_append_left _ hm)⟩

/-- Every registration is announced. -/
theorem register_announced {k : κ} {t : τ} {ops : List (Op κ τ)} (h : .register k t ∈ ops)
    (s : κ → Option τ) : true ∈ announced k s ops := by
  unfold announced
  induction ops generalizing s with
  | nil => cases h
  | cons op ops ih =>
    rw [outputs, List.filterMap_append, List.mem_append]
    rcases List.mem_cons.mp h with rfl | h
    · left
      simp [announce]
    · exact .inr (ih h _)

theorem Paired.snoc {h : List Bool} (hp : Paired h) {b : Bool}
    (hb : b = false → h.getLast? = some true) : Paired (h ++ [b]) := by
  intro pre post he
  rcases List.eq_nil_or_concat post with rfl | ⟨post', x, hx⟩
  · obtain ⟨rfl, hbf⟩ := List.append_inj' he rfl
    obtain rfl : b = false := by simpa using hbf
    obtain ⟨p, hp⟩ := List.getLast?_eq_some_iff.mp (hb rfl)
    exact ⟨p, hp⟩
  · rw [List.concat_eq_append] at hx
    subst hx
    rw [← List.cons_append, ← List.append_assoc] at he
    exact hp pre post' (List.append_inj' he rfl).1

/-- **Announcements alternate.**  After a `true` that stands for the slot already being held: every
`false` comes right after a `true`, and the slot is held exactly while the last one is `true`. -/
theorem announcements (k : κ) (s : κ → Option τ) (ops : List (Op κ τ)) :
    let h := (if (s k).isSome then [true] else []) ++ announced k s ops
    Paired h ∧ ((run step s ops k).isSome ↔ h.getLast? = some true) := by
  induction ops using List.reverseRecOn with
  | nil =>
    unfold announced
    cases hs : s k with
    | none => simp [outputs, Paired, hs]
    | some t =>
      refine ⟨?_, by simp [outputs, hs]⟩
      intro pre post he
      cases pre with
      | nil => simp [outputs] at he
      | cons x pre => simp [outputs] at he
  | append_singleton ops op ih =>
    obtain ⟨hpair, hlast⟩ := ih
    simp only [announced] at hpair hlast ⊢
    rw [outputs_snoc, run_snoc, List.filterMap_append, ← List.append_assoc]
    set h := (if (s k).isSome then [true] else []) ++
      (outputs step announce s ops).filterMap fun a => if a.1 = k then some a.2 else none with hh
    set s' := run step s ops with hs'
    cases op with
    | register p t =>
      by_cases hp : p = k
      · subst hp
        refine ⟨?_, by simp [step, announce]⟩
        simpa [announce] using hpair.snoc (b := true) (by simp)
      · have hk : k ≠ p := fun h => hp h.symm
        simpa [announce, hp, step, hk] using ⟨hpair, hlast⟩
    | release p t =>
      by_cases ht : s' p = some t
      · by_cases hp : p = k
        · subst hp
          have hl : h.getLast? = some true := hlast.mp (by rw [ht]; rfl)
          refine ⟨?_, by simp [step, announce, ht]⟩
          simpa [announce, ht] using hpair.snoc (b := false) fun _ => hl
        · have hk : k ≠ p := fun h => hp h.symm
          simpa [announce, ht, hp, step, hk] using ⟨hpair, hlast⟩
      · obtain ⟨h1, h2⟩ := release_of_not_holder ht
        rw [h1, h2]
        simpa using ⟨hpair, hlast⟩

end TokenRegistry
