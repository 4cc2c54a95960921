import Mathlib.Algebra.GroupWithZero.Nat
import Mathlib.Data.List.Induction

/-!
# Runs of a machine given by a total step function

A machine is a step function `σ → ε → σ`; an event that is not enabled leaves
the state alone, so every list of events is a run.  `Along C` says that every
step of a run meets a condition on the state before it, `outputs out` collects
what the steps of a run give out.

    I s → Along step C s es → (steps that meet C keep I) → I (run step s es)   (Along.invariant)
-/

namespace Runs

variable {σ ε β : Type*}

/-- The state after the events `es`, first event first. -/
def run (step : σ → ε → σ) (s : σ) (es : List ε) : σ := es.foldl step s

/-- Every step of the run meets `C`, a condition on the state before the step. -/
def Along (step : σ → ε → σ) (C : σ → ε → Prop) : σ → List ε → Prop
  | _, [] => True
  | s, e :: es => C s e ∧ Along step C (step s e) es

/-- What the steps of a run give out, in order. -/
def outputs (step : σ → ε → σ) (out : σ → ε → List β) : σ → List ε → List β
  | _, [] => []
  | s, e :: es => out s e ++ outputs step out (step s e) es

section
variable (step : σ → ε → σ) (C : σ → ε → Prop) (out : σ → ε → List β)

@[simp] theorem run_nil (s : σ) : run step s [] = s := rfl

@[simp] theorem run_cons (s : σ) (e : ε) (es : List ε) :
    run step s (e :: es) = run step (step s e) es := rfl

theorem run_append (s : σ) (es fs : List ε) :
    run step s (es ++ fs) = run step (run step s es) fs := by
  unfold run
  rw [List.foldl_append]

@[simp] theorem run_snoc (s : σ) (es : List ε) (e : ε) :
    run step s (es ++ [e]) = step (run step s es) e := by
  rw [run_append]; rfl

theorem along_append (s : σ) (es fs : List ε) :
    Along step C s (es ++ fs) ↔ Along step C s es ∧ Along step C (run step s es) fs := by
  induction es generalizing s with
  | nil => simp [Along]
  | cons e es ih => simp only [List.cons_append, Along, ih, run_cons, and_assoc]

@[simp] theorem along_snoc (s : σ) (es : List ε) (e : ε) :
    Along step C s (es ++ [e]) ↔ Along step C s es ∧ C (run step s es) e := by
  rw [along_append]; simp [Along]

/-- A condition on the events alone, checked event by event. -/
theorem along_of_forall {P : ε → Prop} (s : σ) (es : List ε) :
    Along step (fun _ e => P e) s es ↔ ∀ e ∈ es, P e := by
  induction es generalizing s with
  | nil => simp [Along]
  | cons e es ih => simp [Along, ih]

/-- **Invariant rule.**  What the steps that meet `C` keep holds after every run along `C`. -/
theorem Along.invariant {I : σ → Prop} (hstep : ∀ s e, I s → C s e → I (step s e)) {s : σ}
    {es : List ε} (h0 : I s) (h : Along step C s es) : I (run step s es) := by
  induction es generalizing s with
  | nil => exact h0
  | cons e es ih => exact ih (hstep s e h0 h.1) h.2

/-- What the events and an invariant give of every step holds along the run. -/
theorem along_of_invariant {I : σ → Prop} {P : ε → Prop}
    (hstep : ∀ s e, I s → P e → I (step s e) ∧ C s e) {s : σ} {es : List ε} (h0 : I s)
    (h : ∀ e ∈ es, P e) : Along step C s es := by
  induction es generalizing s with
  | nil => trivial
  | cons e es ih =>
    obtain ⟨hI, hC⟩ := hstep s e h0 (h e List.mem_cons_self)
    exact ⟨hC, ih hI fun e' he' => h e' (List.mem_cons_of_mem _ he')⟩

/-- Invariant rule without a condition on the steps. -/
theorem invariant {I : σ → Prop} (hstep : ∀ s e, I s → I (step s e)) {s : σ} (h0 : I s)
    (es : List ε) : I (run step s es) := by
  induction es generalizing s with
  | nil => exact h0
  | cons e es ih => exact ih (hstep s e h0)

/-- Invariant rule for a property of the run so far and the state it led to. -/
theorem history_invariant {I : List ε → σ → Prop} {s : σ} (h0 : I [] s)
    (hstep : ∀ es e, I es (run step s es) → I (es ++ [e]) (step (run step s es) e))
    (es : List ε) : I es (run step s es) := by
  induction es using List.reverseRecOn with
  | nil => exact h0
  | append_singleton es e ih => rw [run_snoc]; exact hstep es e ih

/-- History rule along a condition. -/
theorem Along.history_invariant {I : List ε → σ → Prop} {s : σ} (h0 : I [] s)
    (hstep : ∀ es e, Along step C s es → C (run step s es) e → I es (run step s es) →
      I (es ++ [e]) (step (run step s es) e))
    {es : List ε} (h : Along step C s es) : I es (run step s es) := by
  induction es using List.reverseRecOn with
  | nil => exact h0
  | append_singleton es e ih =>
    rw [along_snoc] at h
    rw [run_snoc]
    exact hstep es e h.1 h.2 (ih h.1)

theorem outputs_append (s : σ) (es fs : List ε) :
    outputs step out s (es ++ fs) =
      outputs step out s es ++ outputs step out (run step s es) fs := by
  induction es generalizing s with
  | nil => rfl
  | cons e es ih => simp only [List.cons_append, outputs, ih, run_cons, List.append_assoc]

@[simp] theorem outputs_snoc (s : σ) (es : List ε) (e : ε) :
    outputs step out s (es ++ [e]) = outputs step out s es ++ out (run step s es) e := by
  rw [outputs_append]; simp [outputs]

theorem outputs_filterMap {γ : Type*} (f : β → Option γ) (s : σ) (es : List ε) :
    outputs step (fun s e => (out s e).filterMap f) s es = (outputs step out s es).filterMap f := by
  induction es generalizing s with
  | nil => rfl
  | cons e es ih => simp only [outputs, ih, List.filterMap_append]

/-- What a run gives out, one of its steps does. -/
theorem mem_outputs {s : σ} {es : List ε} {b : β} (h : b ∈ outputs step out s es) :
    ∃ e ∈ es, ∃ s', b ∈ out s' e := by
  induction es generalizing s with
  | nil => cases h
  | cons e es ih =>
    rcases List.mem_append.mp h with h | h
    · exact ⟨e, List.mem_cons_self, s, h⟩
    · obtain ⟨e', he', hs'⟩ := ih h
      exact ⟨e', List.mem_cons_of_mem _ he', hs'⟩

/-- What every step's output meets, a run's output meets. -/
theorem forall_outputs {P : β → Prop} (h : ∀ s e, ∀ b ∈ out s e, P b) (s : σ) (es : List ε) :
    ∀ b ∈ outputs step out s es, P b := by
  induction es generalizing s with
  | nil => simp [outputs]
  | cons e es ih =>
    intro b hb
    rcases List.mem_append.mp hb with hb | hb
    · exact h s e b hb
    · exact ih _ b hb

/-- Invariant rule for what was given out so far and the state. -/
theorem trace_invariant {I : List β → σ → Prop} {s : σ} (h0 : I [] s)
    (hstep : ∀ bs s e, I bs s → I (bs ++ out s e) (step s e)) (es : List ε) :
    I (outputs step out s es) (run step s es) := by
  induction es using List.reverseRecOn with
  | nil => exact h0
  | append_singleton es e ih => rw [outputs_snoc, run_snoc]; exact hstep _ _ e ih

/-- **Potential rule.**  Where every step pays for what it gives out with the potential `μ` and with
what its event grants, so does a run. -/
theorem Along.length_outputs_le {μ : σ → Nat} {grant : ε → Nat} {s : σ} {es : List ε}
    (h : Along step (fun s e => (out s e).length + μ (step s e) ≤ μ s + grant e) s es) :
    (outputs step out s es).length + μ (run step s es) ≤ μ s + (es.map grant).sum := by
  induction es generalizing s with
  | nil => simp [outputs]
  | cons e es ih =>
    have hfirst := h.1
    have hrest := ih h.2
    rw [outputs, List.length_append, run_cons, List.map_cons, List.sum_cons]
    omega

/-- Trace rule along a condition. -/
theorem Along.trace_invariant {I : List β → σ → Prop} {s : σ} (h0 : I [] s)
    (hstep : ∀ bs s e, I bs s → C s e → I (bs ++ out s e) (step s e)) {es : List ε}
    (h : Along step C s es) : I (outputs step out s es) (run step s es) := by
  induction es using List.reverseRecOn with
  | nil => exact h0
  | append_singleton es e ih =>
    rw [along_snoc] at h
    rw [outputs_snoc, run_snoc]
    exact hstep _ _ e (ih h.1) h.2

/-- **Refinement.**  When each step is some steps of a machine below, so is each run. -/
theorem run_refines {τ α : Type*} {astep : τ → α → τ} {f : σ → τ} {ops : σ → ε → List α}
    (hstep : ∀ s e, f (step s e) = run astep (f s) (ops s e)) (s : σ) (es : List ε) :
    f (run step s es) = run astep (f s) (outputs step ops s es) := by
  induction es generalizing s with
  | nil => rfl
  | cons e es ih => rw [run_cons, ih, hstep, outputs, run_append]

/-- What a refined run gives out. -/
theorem outputs_refines {τ α : Type*} {astep : τ → α → τ} {f : σ → τ} {ops : σ → ε → List α}
    {aout : τ → α → List β} (hstep : ∀ s e, f (step s e) = run astep (f s) (ops s e))
    (hout : ∀ s e, out s e = outputs astep aout (f s) (ops s e)) (s : σ) (es : List ε) :
    outputs step out s es = outputs astep aout (f s) (outputs step ops s es) := by
  induction es generalizing s with
  | nil => rfl
  | cons e es ih => rw [outputs, ih, hout, hstep, outputs, outputs_append]

/-- A condition along a run, as one along the run it refines. -/
theorem along_refines {τ α : Type*} {astep : τ → α → τ} {f : σ → τ} {ops : σ → ε → List α}
    {D : τ → α → Prop} (hstep : ∀ s e, f (step s e) = run astep (f s) (ops s e))
    (hcond : ∀ s e, C s e ↔ Along astep D (f s) (ops s e)) (s : σ) (es : List ε) :
    Along step C s es ↔ Along astep D (f s) (outputs step ops s es) := by
  induction es generalizing s with
  | nil => exact Iff.rfl
  | cons e es ih =>
    show (C s e ∧ Along step C (step s e) es) ↔ _
    rw [outputs, along_append, ← hstep, ← ih, hcond]

/-- Where the steps give out one thing at most, a cut in what a run gives out is a cut in the
run. -/
theorem outputs_cut (hone : ∀ s e, (out s e).length ≤ 1) {s : σ} {es : List ε} {bs cs : List β}
    {b : β} (h : outputs step out s es = bs ++ b :: cs) :
    ∃ es₁ e es₂, es = es₁ ++ e :: es₂ ∧ outputs step out s es₁ = bs ∧
      out (run step s es₁) e = [b] := by
  induction es generalizing s bs with
  | nil => simp [outputs] at h
  | cons e es ih =>
    simp only [outputs] at h
    have h1 := hone s e
    cases ho : out s e with
    | nil =>
      rw [ho, List.nil_append] at h
      obtain ⟨es₁, e', es₂, rfl, hb, hc⟩ := ih h
      exact ⟨e :: es₁, e', es₂, rfl, by simp [outputs, ho, hb], hc⟩
    | cons x xs =>
      rw [ho] at h h1
      obtain rfl : xs = [] := List.eq_nil_of_length_eq_zero (by simpa using h1)
      cases bs with
      | nil =>
        simp only [List.cons_append, List.nil_append, List.cons.injEq] at h
        exact ⟨[], e, es, rfl, rfl, by rw [run_nil, ho, h.1]⟩
      | cons y bs =>
        simp only [List.cons_append, List.nil_append, List.cons.injEq] at h
        obtain ⟨es₁, e', es₂, rfl, hb, hc⟩ := ih h.2
        exact ⟨e :: es₁, e', es₂, rfl, by simp [outputs, ho, hb, h.1], hc⟩

end

end Runs
