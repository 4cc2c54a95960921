import FleetTelemetry.Lib.Runs

/-!
# Programs that change a state step by step

A `Program` reads a state, takes steps on it and ends with a value or an error; the
steps are kept, so that a program cut between two of them is a prefix of its steps.
`Triple P p Q E`: from `P`, `p` ends in `Q` when it returns and in `E` when it raises.

    Triple P p Q E → (∀ a, Triple (Q a) (f a) R E) → Triple P (p >>= f) R E      (Triple.bind)

`Emits p T`: `T` holds of how `p` ends and of the list of its steps; `TakesOnly p P`: `P` holds
of each of them.
-/

namespace StepProgram

/-- States `σ` that change by steps `ε`. -/
class Stepped (σ : Type) (ε : outParam Type) where
  apply : σ → ε → σ

/-- What a program does on a state: its steps, first to last, and how it ends. -/
structure Program (σ ε err α : Type) where
  exec : σ → List ε × Except err α

variable {σ ε err α β : Type} [Stepped σ ε]

namespace Program

/-- The state a program leaves. -/
def final (p : Program σ ε err α) (s : σ) : σ := Runs.run Stepped.apply s (p.exec s).1

/-- How a program ends. -/
def result (p : Program σ ε err α) (s : σ) : Except err α := (p.exec s).2

instance : Monad (Program σ ε err) where
  pure a := ⟨fun _ => ([], .ok a)⟩
  bind p f := ⟨fun s =>
    match p.exec s with
    | (es, .ok a) =>
      let r := (f a).exec (Runs.run Stepped.apply s es)
      (es ++ r.1, r.2)
    | (es, .error e) => (es, .error e)⟩

omit [Stepped σ ε] in
def read (g : σ → α) : Program σ ε err α := ⟨fun s => ([], .ok (g s))⟩

def perform (e : ε) : Program σ ε err Unit := ⟨fun _ => ([e], .ok ())⟩

def raise (e : err) : Program σ ε err α := ⟨fun _ => ([], .error e)⟩

/-- The value, or the error `e` when there is none. -/
def orRaise (e : err) : Option α → Program σ ε err α
  | some a => pure a
  | none => raise e

/-- The state when the program is interrupted after `k` of its steps. -/
def cut (p : Program σ ε err α) (k : Nat) (s : σ) : σ :=
  Runs.run Stepped.apply s ((p.exec s).1.take k)

theorem exec_bind_ok {p : Program σ ε err α} {s : σ} {a : α} (h : p.result s = .ok a)
    (f : α → Program σ ε err β) :
    (p >>= f).exec s =
      ((p.exec s).1 ++ ((f a).exec (p.final s)).1, ((f a).exec (p.final s)).2) := by
  obtain ⟨es, r, hp⟩ : ∃ es r, p.exec s = (es, r) := ⟨_, _, rfl⟩
  unfold result at h
  rw [hp] at h
  obtain rfl : r = .ok a := h
  unfold final
  show (match p.exec s with | (es, .ok a) => _ | (es, .error e) => _) = _
  rw [hp]

theorem exec_bind_error {p : Program σ ε err α} {s : σ} {e : err} (h : p.result s = .error e)
    (f : α → Program σ ε err β) : (p >>= f).exec s = ((p.exec s).1, .error e) := by
  obtain ⟨es, r, hp⟩ : ∃ es r, p.exec s = (es, r) := ⟨_, _, rfl⟩
  unfold result at h
  rw [hp] at h
  obtain rfl : r = .error e := h
  show (match p.exec s with | (es, .ok a) => _ | (es, .error e) => _) = _
  rw [hp]

/-- After a program that returns, the next one goes on where it stopped. -/
theorem bind_of_ok {p : Program σ ε err α} {s : σ} {a : α} (h : p.result s = .ok a)
    (f : α → Program σ ε err β) :
    (p >>= f).final s = (f a).final (p.final s) ∧ (p >>= f).result s = (f a).result (p.final s) := by
  unfold final result
  rw [exec_bind_ok h f]
  exact ⟨Runs.run_append _ _ _ _, rfl⟩

/-- A program that raises ends the whole. -/
theorem bind_of_error {p : Program σ ε err α} {s : σ} {e : err} (h : p.result s = .error e)
    (f : α → Program σ ε err β) :
    (p >>= f).final s = p.final s ∧ (p >>= f).result s = .error e := by
  unfold final result
  rw [exec_bind_error h f]
  exact ⟨rfl, rfl⟩

/-- The whole returns when both parts do. -/
theorem result_bind_eq_ok {p : Program σ ε err α} {s : σ} {f : α → Program σ ε err β} {b : β} :
    (p >>= f).result s = .ok b ↔
      ∃ a, p.result s = .ok a ∧ (f a).result (p.final s) = .ok b := by
  cases hr : p.result s with
  | ok a =>
    rw [(bind_of_ok hr f).2]
    exact ⟨fun h => ⟨a, rfl, h⟩, fun ⟨a', ha, h⟩ => by rwa [Except.ok.inj ha]⟩
  | error e =>
    rw [(bind_of_error hr f).2]
    refine ⟨fun h => (by cases h), ?_⟩
    rintro ⟨a, ha, -⟩
    cases ha

end Program

open Program

/-- From `P` the program ends in `Q` when it returns, in `E` when it raises. -/
def Triple (P : σ → Prop) (p : Program σ ε err α) (Q : α → σ → Prop) (E : err → σ → Prop) : Prop :=
  ∀ s, P s → (∀ a, p.result s = .ok a → Q a (p.final s)) ∧
    ∀ e, p.result s = .error e → E e (p.final s)

namespace Triple

variable {P P' : σ → Prop} {p : Program σ ε err α} {f : α → Program σ ε err β}
  {Q Q' : α → σ → Prop} {R : β → σ → Prop} {E E' : err → σ → Prop}

theorem pure {a : α} (h : ∀ s, P s → Q a s) : Triple P (Pure.pure a : Program σ ε err α) Q E := by
  intro s hs
  refine ⟨fun b hb => ?_, fun e he => (by cases he)⟩
  obtain rfl := Except.ok.inj hb
  exact h s hs

theorem raise {e : err} (h : ∀ s, P s → E e s) : Triple P (raise e : Program σ ε err α) Q E := by
  intro s hs
  refine ⟨fun b hb => (by cases hb), fun e' he => ?_⟩
  obtain rfl := Except.error.inj he
  exact h s hs

theorem read {g : σ → α} (h : ∀ s, P s → Q (g s) s) :
    Triple P (read g : Program σ ε err α) Q E := by
  intro s hs
  refine ⟨fun b hb => ?_, fun e he => (by cases he)⟩
  obtain rfl := Except.ok.inj hb
  exact h s hs

theorem perform {e : ε} {Q : Unit → σ → Prop} (h : ∀ s, P s → Q () (Stepped.apply s e)) :
    Triple P (perform e : Program σ ε err Unit) Q E := by
  intro s hs
  exact ⟨fun _ _ => h s hs, fun e he => (by cases he)⟩

theorem bind (hp : Triple P p Q E) (hf : ∀ a, Triple (Q a) (f a) R E) :
    Triple P (p >>= f) R E := by
  intro s hs
  obtain ⟨hok, herr⟩ := hp s hs
  cases hr : p.result s with
  | ok a =>
    obtain ⟨hfin, hres⟩ := bind_of_ok hr f
    rw [hfin, hres]
    exact hf a _ (hok a hr)
  | error e =>
    obtain ⟨hfin, hres⟩ := bind_of_error hr f
    rw [hfin, hres]
    refine ⟨fun b hb => (by cases hb), fun e' he => ?_⟩
    obtain rfl := Except.error.inj he
    exact herr e hr

theorem consequence (h : Triple P p Q E) (hP : ∀ s, P' s → P s) (hQ : ∀ a s, Q a s → Q' a s)
    (hE : ∀ e s, E e s → E' e s) : Triple P' p Q' E' := by
  intro s hs
  obtain ⟨hok, herr⟩ := h s (hP s hs)
  exact ⟨fun a ha => hQ a _ (hok a ha), fun e he => hE e _ (herr e he)⟩

/-- What holds beside the state is a hypothesis. -/
theorem assume {h : Prop} (hp : h → Triple P p Q E) : Triple (fun s => P s ∧ h) p Q E :=
  fun s hs => hp hs.2 s hs.1

theorem or (h : Triple P p Q E) (h' : Triple P' p Q E) : Triple (fun s => P s ∨ P' s) p Q E :=
  fun s hs => hs.elim (h s) (h' s)

theorem orRaise {e : err} {o : Option α} (hsome : ∀ a, o = some a → ∀ s, P s → Q a s)
    (hnone : o = none → ∀ s, P s → E e s) :
    Triple P (Program.orRaise e o : Program σ ε err α) Q E := by
  cases o with
  | some a => exact pure (hsome a rfl)
  | none => exact raise (hnone rfl)

end Triple

/-! ## The steps themselves -/

/-- On every state the way the program ends and the steps it takes meet `T`. -/
def Emits (p : Program σ ε err α) (T : Except err α → List ε → Prop) : Prop :=
  ∀ s, T (p.result s) (p.exec s).1

/-- A program that only looks. -/
def Silent (p : Program σ ε err α) : Prop := Emits p fun _ es => es = []

namespace Emits

variable {p : Program σ ε err α} {f : α → Program σ ε err β} {T : Except err β → List ε → Prop}

omit [Stepped σ ε] in
theorem consequence {U U' : Except err α → List ε → Prop} (hp : Emits p U)
    (h : ∀ r es, U r es → U' r es) : Emits p U' :=
  fun s => h _ _ (hp s)

theorem bind {U : Except err α → List ε → Prop} (hp : Emits p U)
    (herr : ∀ e es, U (.error e) es → T (.error e) es)
    (hok : ∀ a es, U (.ok a) es → Emits (f a) fun r es' => T r (es ++ es')) :
    Emits (p >>= f) T := by
  intro s
  have hs := hp s
  unfold result
  cases hr : p.result s with
  | ok a =>
    rw [hr] at hs
    rw [exec_bind_ok hr f]
    exact hok a _ hs (p.final s)
  | error e =>
    rw [hr] at hs
    rw [exec_bind_error hr f]
    exact herr e _ hs

theorem bind_silent (hp : Silent p) (herr : ∀ e, T (.error e) []) (hok : ∀ a, Emits (f a) T) :
    Emits (p >>= f) T := by
  refine bind hp (fun e es hes => ?_) fun a es hes => ?_
  · subst hes
    exact herr e
  · subst hes
    exact hok a

theorem pure {a : β} (h : T (.ok a) []) : Emits (Pure.pure a : Program σ ε err β) T := fun _ => h

omit [Stepped σ ε] in
theorem raise {e : err} (h : T (.error e) []) : Emits (Program.raise e : Program σ ε err β) T :=
  fun _ => h

end Emits

namespace Silent

omit [Stepped σ ε] in
theorem read (g : σ → α) : Silent (Program.read g : Program σ ε err α) := fun _ => rfl

theorem orRaise (e : err) (o : Option α) : Silent (Program.orRaise e o : Program σ ε err α) := by
  cases o with
  | some a => exact Emits.pure rfl
  | none => exact Emits.raise rfl

theorem bind {p : Program σ ε err α} {f : α → Program σ ε err β} (hp : Silent p)
    (hf : ∀ a, Silent (f a)) : Silent (p >>= f) :=
  Emits.bind_silent hp (fun _ => rfl) hf

end Silent

/-- Every step the program takes meets `P`. -/
def TakesOnly (p : Program σ ε err α) (P : ε → Prop) : Prop := Emits p fun _ es => ∀ e ∈ es, P e

namespace TakesOnly

variable {p : Program σ ε err α} {f : α → Program σ ε err β} {P : ε → Prop}

omit [Stepped σ ε] in
theorem of_silent (hp : Silent p) : TakesOnly p P := by
  intro s e he
  have hnil : (p.exec s).1 = [] := hp s
  rw [hnil] at he
  cases he

omit [Stepped σ ε] in
theorem perform {e : ε} (h : P e) : TakesOnly (Program.perform e : Program σ ε err Unit) P := by
  intro s e' he
  obtain rfl := List.mem_singleton.mp he
  exact h

theorem bind (hp : TakesOnly p P) (hf : ∀ a, TakesOnly (f a) P) : TakesOnly (p >>= f) P :=
  Emits.bind hp (fun _ _ h => h) fun a _ h s => List.forall_mem_append.mpr ⟨h, hf a s⟩

theorem pure {a : α} : TakesOnly (Pure.pure a : Program σ ε err α) P := of_silent (Emits.pure rfl)

omit [Stepped σ ε] in
theorem raise {e : err} : TakesOnly (Program.raise e : Program σ ε err α) P :=
  of_silent (Emits.raise rfl)

end TakesOnly

end StepProgram
