import FleetTelemetry.Lib.Runs

/-!
# A bounded first-in first-out buffer that drops its oldest item when full

`step n` takes an offered item or takes the oldest one out; capacity `n = 0`
means no bound.  For every sequence of operations:

    held = a suffix of what was offered                          (queue_suffix)
    taken ++ held is a subsequence of what was offered           (taken_append_queue_sublist)
    lost items were the oldest of a full buffer when they went   (dropped_when_full)
    nothing is lost exactly while no item is offered to a full buffer      (lossless_iff)
-/

namespace DropOldest

open Runs

variable {α : Type*}

inductive Op (α : Type*) where
  | offer (x : α)
  | take

/-- `queue` is held oldest first; `fates` tells of every item that has left, in
the order offered, whether it was taken (`true`) or dropped (`false`). -/
structure State (α : Type*) where
  queue : List α
  taken : List α
  fates : List Bool

def init : State α := ⟨[], [], []⟩

/-- The buffer holds as many items as it may. -/
def Full (n : Nat) (q : List α) : Prop := 0 < n ∧ n ≤ q.length

instance (n : Nat) (q : List α) : Decidable (Full n q) := by unfold Full; infer_instance

def step (n : Nat) (s : State α) : Op α → State α
  | .offer x =>
    if Full n s.queue then ⟨s.queue.tail ++ [x], s.taken, s.fates ++ [false]⟩
    else { s with queue := s.queue ++ [x] }
  | .take =>
    match s.queue with
    | [] => s
    | x :: q => ⟨q, s.taken ++ [x], s.fates ++ [true]⟩

/-- The items offered, in order. -/
def offered (ops : List (Op α)) : List α :=
  ops.filterMap fun
    | .offer x => some x
    | .take => none

/-- The items whose fate is `true`. -/
def keep : List Bool → List α → List α
  | b :: bs, x :: xs => if b then x :: keep bs xs else keep bs xs
  | _, _ => []

/-! ## Lemmas -/

@[simp] theorem offered_snoc_offer (ops : List (Op α)) (x : α) :
    offered (ops ++ [.offer x]) = offered ops ++ [x] := by
  simp [offered]

@[simp] theorem offered_snoc_take (ops : List (Op α)) : offered (ops ++ [.take]) = offered ops := by
  simp [offered]

theorem keep_snoc (fates : List Bool) (xs : List α) (h : xs.length = fates.length) (b : Bool)
    (x : α) : keep (fates ++ [b]) (xs ++ [x]) = keep fates xs ++ if b then [x] else [] := by
  induction fates generalizing xs with
  | nil =>
    obtain rfl := List.eq_nil_of_length_eq_zero h
    cases b <;> rfl
  | cons c fates ih =>
    cases xs with
    | nil => simp at h
    | cons y xs =>
      have ih' := ih xs (by simpa using h)
      simp only [List.cons_append, keep, ih']
      split <;> rfl

theorem keep_sublist (fates : List Bool) (xs : List α) : (keep fates xs).Sublist xs := by
  induction fates generalizing xs with
  | nil => simp [keep]
  | cons b fates ih =>
    cases xs with
    | nil => simp [keep]
    | cons x xs =>
      unfold keep
      split
      · exact (ih xs).cons_cons x
      · exact (ih xs).cons x

theorem keep_append (fates : List Bool) (xs ys : List α) (h : xs.length = fates.length) :
    keep fates (xs ++ ys) = keep fates xs := by
  induction fates generalizing xs with
  | nil => simp [keep]
  | cons c fates ih =>
    cases xs with
    | nil => simp at h
    | cons x xs => simp only [List.cons_append, keep, ih xs (by simpa using h)]

/-- The books of the buffer: what was offered is what has left, then what is held. -/
def Ledger (offered : List α) (s : State α) : Prop :=
  ∃ gone, offered = gone ++ s.queue ∧ gone.length = s.fates.length ∧ s.taken = keep s.fates gone

theorem Ledger.offer {n : Nat} {xs : List α} {s : State α} (h : Ledger xs s) (x : α) :
    Ledger (xs ++ [x]) (step n s (.offer x)) := by
  obtain ⟨gone, hx, hl, ht⟩ := h
  simp only [step]
  split
  · next hfull =>
    cases hq : s.queue with
    | nil => rw [hq] at hfull; exact absurd hfull.2 (by have := hfull.1; simp; omega)
    | cons y q =>
      refine ⟨gone ++ [y], by simp [hx, hq], by simp [hl], ?_⟩
      rw [keep_snoc _ _ hl, ← ht]
      simp
  · exact ⟨gone, by simp [hx], hl, ht⟩

theorem Ledger.take {n : Nat} {xs : List α} {s : State α} (h : Ledger xs s) :
    Ledger xs (step n s .take) := by
  obtain ⟨gone, hx, hl, ht⟩ := h
  simp only [step]
  split
  · exact ⟨gone, hx, hl, ht⟩
  · next y q hq =>
    refine ⟨gone ++ [y], by simp [hx, hq], by simp [hl], ?_⟩
    rw [keep_snoc _ _ hl, ← ht]
    simp

theorem ledger (n : Nat) (ops : List (Op α)) : Ledger (offered ops) (run (step n) init ops) := by
  refine history_invariant (step n) (I := fun ops s => Ledger (offered ops) s)
    ⟨[], rfl, rfl, rfl⟩ (fun ops op ih => ?_) ops
  cases op with
  | offer x => rw [offered_snoc_offer]; exact ih.offer x
  | take => rw [offered_snoc_take]; exact ih.take

/-! ## Top theorems -/

theorem queue_suffix (n : Nat) (ops : List (Op α)) :
    (run (step n) init ops).queue <:+ offered ops := by
  obtain ⟨gone, h, -, -⟩ := ledger n ops
  exact ⟨gone, h.symm⟩

theorem queue_length_le (n : Nat) (hn : 0 < n) (ops : List (Op α)) :
    (run (step n) init ops).queue.length ≤ n := by
  refine invariant (step n) (I := fun s => s.queue.length ≤ n) (fun s op ih => ?_) (by simp [init]) ops
  cases op with
  | offer x =>
    simp only [step]
    split
    · simp only [List.length_append, List.length_tail, List.length_singleton]; omega
    · next h =>
      have : s.queue.length < n := by
        by_contra hc
        exact h ⟨hn, by omega⟩
      simp only [List.length_append, List.length_singleton]; omega
  | take =>
    simp only [step]
    split
    · exact ih
    · next hq =>
      rw [hq, List.length_cons] at ih
      exact Nat.le_of_succ_le ih

theorem taken_append_queue_sublist (n : Nat) (ops : List (Op α)) :
    ((run (step n) init ops).taken ++ (run (step n) init ops).queue).Sublist (offered ops) := by
  obtain ⟨gone, h, -, ht⟩ := ledger n ops
  rw [h, ht]
  exact (keep_sublist _ gone).append (List.Sublist.refl _)

/-- The `i`-th item offered was the oldest of a full buffer when another was offered. -/
def LostAt (n : Nat) (ops : List (Op α)) (i : Nat) : Prop :=
  ∃ before x after, ops = before ++ .offer x :: after ∧
    Full n (run (step n) init before).queue ∧ (run (step n) init before).fates.length = i

theorem LostAt.snoc {n : Nat} {ops : List (Op α)} {i : Nat} (h : LostAt n ops i) (op : Op α) :
    LostAt n (ops ++ [op]) i := by
  obtain ⟨before, x, after, rfl, hf, hi⟩ := h
  exact ⟨before, x, after ++ [op], by simp, hf, hi⟩

theorem dropped_when_full (n : Nat) (ops : List (Op α)) (i : Nat) :
    (run (step n) init ops).fates[i]? = some false → LostAt n ops i := by
  refine history_invariant (step n) (I := fun ops s => s.fates[i]? = some false → LostAt n ops i)
    (by simp [init]) (fun ops op ih h => ?_) ops
  cases op with
  | offer x =>
    simp only [step] at h
    split at h
    · next hfull =>
      rw [List.getElem?_append] at h
      split at h
      · exact (ih h).snoc _
      · next hi =>
        refine ⟨ops, x, [], rfl, hfull, ?_⟩
        have := (List.getElem?_eq_some_iff.1 h).1
        simp only [List.length_singleton] at this
        omega
    · exact (ih h).snoc _
  | take =>
    simp only [step] at h
    split at h
    · exact (ih h).snoc _
    · rw [List.getElem?_append] at h
      split at h
      · exact (ih h).snoc _
      · rw [List.getElem?_singleton] at h
        simp at h

/-- Nothing is offered to the buffer while it is full. -/
def Roomy (n : Nat) (s : State α) : Op α → Prop
  | .offer _ => ¬ Full n s.queue
  | .take => True

theorem held_take (n : Nat) (s : State α) :
    (step n s .take).taken ++ (step n s .take).queue = s.taken ++ s.queue := by
  cases hq : s.queue with
  | nil => simp [step, hq]
  | cons x q => simp [step, hq]

/-- **The buffer loses nothing exactly while it always has room.** -/
theorem lossless_iff (n : Nat) (ops : List (Op α)) :
    Along (step n) (Roomy n) init ops ↔
      (run (step n) init ops).taken ++ (run (step n) init ops).queue = offered ops := by
  induction ops using List.reverseRecOn with
  | nil => exact iff_of_true trivial rfl
  | append_singleton ops op ih =>
    rw [along_snoc, run_snoc, ih]
    set s := run (step n) init ops with hs
    cases op with
    | take =>
      rw [held_take, offered_snoc_take]
      exact and_iff_left trivial
    | offer x =>
      rw [offered_snoc_offer]
      show (_ ∧ ¬ Full n s.queue) ↔ _
      by_cases hfull : Full n s.queue
      · -- the oldest item is gone, so there is one item less than was offered
        refine iff_of_false (fun h => h.2 hfull) fun h => ?_
        have hle := (taken_append_queue_sublist n ops).length_le
        have hlen := congrArg List.length h
        have hpos := hfull.1
        have hge := hfull.2
        simp only [step, if_pos hfull, List.length_append, List.length_tail,
          List.length_singleton] at hlen
        rw [← hs, List.length_append] at hle
        omega
      · rw [and_iff_left hfull]
        simp only [step, if_neg hfull, ← List.append_assoc]
        exact (List.append_left_inj [x]).symm

end DropOldest
