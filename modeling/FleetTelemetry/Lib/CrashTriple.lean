import FleetTelemetry.Lib.StepProgram

/-!
# What a program leaves when it is interrupted

`CrashTriple P p C Q E`: from `P` the program ends as `Triple P p Q E` has it, and
wherever it is cut between two of its steps the state is in `C`.

    CrashTriple P p C Q E → (∀ a, CrashTriple (Q a) (f a) C R E) →
      CrashTriple P (p >>= f) C R E                                 (CrashTriple.bind)

A program that only looks is cut where it started (`CrashTriple.of_silent`).
-/

namespace StepProgram

open Program

variable {σ ε err α β : Type} [Stepped σ ε]

namespace Program

/-- A program that is cut after all of its steps has ended. -/
theorem cut_length (p : Program σ ε err α) (s : σ) : p.cut (p.exec s).1.length s = p.final s := by
  unfold cut final
  rw [List.take_length]

/-- The second program is reached when the first one is over. -/
theorem cut_bind_ok {p : Program σ ε err α} {s : σ} {a : α} (h : p.result s = .ok a)
    (f : α → Program σ ε err β) (k : Nat) :
    (p >>= f).cut k s = p.cut k s ∨ ∃ j, (p >>= f).cut k s = (f a).cut j (p.final s) := by
  unfold cut
  rw [exec_bind_ok h f]
  by_cases hk : k ≤ (p.exec s).1.length
  · left
    show Runs.run Stepped.apply s (List.take k (_ ++ _)) = _
    rw [List.take_append_of_le_length hk]
  · right
    refine ⟨k - (p.exec s).1.length, ?_⟩
    show Runs.run Stepped.apply s (List.take k (_ ++ _)) = _
    rw [List.take_append, List.take_of_length_le (by omega), Runs.run_append]
    rfl

theorem cut_bind_error {p : Program σ ε err α} {s : σ} {e : err} (h : p.result s = .error e)
    (f : α → Program σ ε err β) (k : Nat) : (p >>= f).cut k s = p.cut k s := by
  unfold cut
  rw [exec_bind_error h f]

end Program

/-- From `P` the program keeps to `C` at every cut, and ends in `Q` or `E`. -/
structure CrashTriple (P : σ → Prop) (p : Program σ ε err α) (C : σ → Prop) (Q : α → σ → Prop)
    (E : err → σ → Prop) : Prop where
  triple : Triple P p Q E
  cut : ∀ s, P s → ∀ k, C (p.cut k s)

namespace CrashTriple

variable {P P' : σ → Prop} {p : Program σ ε err α} {f : α → Program σ ε err β} {C C' : σ → Prop}
  {Q Q' : α → σ → Prop} {R : β → σ → Prop} {E E' : err → σ → Prop}

theorem of_silent (hp : Silent p) (h : Triple P p Q E) (hC : ∀ s, P s → C s) :
    CrashTriple P p C Q E := by
  refine ⟨h, fun s hs k => ?_⟩
  have hnil : (p.exec s).1 = [] := hp s
  unfold Program.cut
  rw [hnil, List.take_nil]
  exact hC s hs

theorem pure {a : α} (h : ∀ s, P s → Q a s) (hC : ∀ s, P s → C s) :
    CrashTriple P (Pure.pure a : Program σ ε err α) C Q E :=
  of_silent (Emits.pure rfl) (.pure h) hC

theorem raise {e : err} (h : ∀ s, P s → E e s) (hC : ∀ s, P s → C s) :
    CrashTriple P (Program.raise e : Program σ ε err α) C Q E :=
  of_silent (Emits.raise rfl) (.raise h) hC

theorem perform {e : ε} {Q : Unit → σ → Prop} (h : ∀ s, P s → Q () (Stepped.apply s e))
    (hC : ∀ s, P s → C s ∧ C (Stepped.apply s e)) :
    CrashTriple P (Program.perform e : Program σ ε err Unit) C Q E := by
  refine ⟨.perform h, fun s hs k => ?_⟩
  cases k with
  | zero => exact (hC s hs).1
  | succ k =>
    have hcut : (Program.perform e : Program σ ε err Unit).cut (k + 1) s = Stepped.apply s e := by
      show Runs.run Stepped.apply s (List.take (k + 1) [e]) = _
      rw [List.take_of_length_le (by simp)]
      rfl
    rw [hcut]
    exact (hC s hs).2

theorem bind (hp : CrashTriple P p C Q E) (hf : ∀ a, CrashTriple (Q a) (f a) C R E) :
    CrashTriple P (p >>= f) C R E := by
  refine ⟨.bind hp.triple fun a => (hf a).triple, fun s hs k => ?_⟩
  cases hr : p.result s with
  | ok a =>
    rcases cut_bind_ok hr f k with h | ⟨j, h⟩
    · rw [h]
      exact hp.cut s hs k
    · rw [h]
      exact (hf a).cut _ ((hp.triple s hs).1 a hr) j
  | error e =>
    rw [cut_bind_error hr f k]
    exact hp.cut s hs k

theorem consequence (h : CrashTriple P p C Q E) (hP : ∀ s, P' s → P s) (hC : ∀ s, C s → C' s)
    (hQ : ∀ a s, Q a s → Q' a s) (hE : ∀ e s, E e s → E' e s) : CrashTriple P' p C' Q' E' :=
  ⟨h.triple.consequence hP hQ hE, fun s hs k => hC _ (h.cut s (hP s hs) k)⟩

/-- What holds beside the state is a hypothesis. -/
theorem assume {h : Prop} (hp : h → CrashTriple P p C Q E) :
    CrashTriple (fun s => P s ∧ h) p C Q E :=
  ⟨.assume fun hh => (hp hh).triple, fun s hs k => (hp hs.2).cut s hs.1 k⟩

theorem or (h : CrashTriple P p C Q E) (h' : CrashTriple P' p C Q E) :
    CrashTriple (fun s => P s ∨ P' s) p C Q E :=
  ⟨.or h.triple h'.triple, fun s hs k => hs.elim (fun hs => h.cut s hs k) fun hs => h'.cut s hs k⟩

end CrashTriple

end StepProgram
