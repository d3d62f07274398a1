import Mathlib.Logic.Function.Iterate

/-!
# Computations with a precondition

What a computation with a state and with errors does from the states that meet a precondition: the states in which
it succeeds, and those in which it fails. And machines: one that goes down in a measure comes to an end.
-/

namespace QuickJs.Hoare

universe u v

variable {σ ε α β : Type u} {P P' : σ → Prop} {Q Q' : α → σ → Prop} {R : β → σ → Prop} {E E' : ε → σ → Prop}

/-- From `P`, the computation succeeds and ends in `Q`, or fails and ends in `E`. -/
def Triple (P : σ → Prop) (x : EStateM ε σ α) (Q : α → σ → Prop) (E : ε → σ → Prop) : Prop :=
  ∀ s, P s → match x s with
    | .ok a s' => Q a s'
    | .error e s' => E e s'

variable {x : EStateM ε σ α}

theorem Triple.mono (h : Triple P x Q E) (hP : ∀ s, P' s → P s) (hQ : ∀ a s, Q a s → Q' a s)
    (hE : ∀ e s, E e s → E' e s) : Triple P' x Q' E' := by
  intro s hs
  have hx := h s (hP s hs)
  generalize x s = r at hx
  cases r with
  | ok a s' => exact hQ _ _ hx
  | error e s' => exact hE _ _ hx

theorem Triple.bind {f : α → EStateM ε σ β} (h : Triple P x Q E)
    (hf : ∀ a, Triple (Q a) (f a) R E) : Triple P (x >>= f) R E := by
  intro s hs
  have hx := h s hs
  change match EStateM.bind x f s with
    | .ok a s' => R a s'
    | .error e s' => E e s'
  rw [EStateM.bind]
  generalize x s = r at hx
  cases r with
  | ok a s' => exact hf a s' hx
  | error e s' => exact hx

/-- Nothing is said. -/
theorem Triple.trivial (x : EStateM ε σ α) : Triple P x (fun _ _ => True) (fun _ _ => True) := by
  intro s _
  split <;> exact True.intro

/-- What two triples say of the same computation. -/
theorem Triple.and (h : Triple P x Q E) (h' : Triple P' x Q' E') :
    Triple (fun s => P s ∧ P' s) x (fun a s => Q a s ∧ Q' a s) (fun e s => E e s ∧ E' e s) := by
  rintro s ⟨hs, hs'⟩
  have hx := h s hs
  have hx' := h' s hs'
  generalize x s = r at hx hx'
  cases r with
  | ok a s' => exact ⟨hx, hx'⟩
  | error e s' => exact ⟨hx, hx'⟩

theorem Triple.pure {a : α} (h : ∀ s, P s → Q a s) : Triple (ε := ε) P (pure a) Q E := h

theorem Triple.throw {e : ε} (h : ∀ s, P s → E e s) : Triple (α := α) P (throw e) Q E := h

theorem Triple.modify {f : σ → σ} {Q : PUnit → σ → Prop} (h : ∀ s, P s → Q ⟨⟩ (f s)) :
    Triple (ε := ε) P (modify f) Q E := h

/-- What the state is: the rest is from that state. -/
theorem Triple.get {f : σ → EStateM ε σ β} (h : ∀ s, P s → Triple (· = s) (f s) R E) :
    Triple P (get >>= f) R E := fun s hs => h s hs s rfl

/-- From one state. -/
theorem Triple.from {s : σ} (h : Triple P x Q E) (hs : P s) : Triple (· = s) x Q E :=
  h.mono (fun _ hs' => hs' ▸ hs) (fun _ _ h => h) fun _ _ h => h

/-- A machine that goes down in a measure, until it halts, halts. -/
theorem exists_halted {τ : Type v} {step : τ → τ} (halted : τ → Prop) (measure : τ → ℕ) (s : τ)
    (h : ∀ n, ¬ halted (step^[n] s) → measure (step^[n + 1] s) < measure (step^[n] s)) :
    ∃ n, halted (step^[n] s) := by
  by_contra hne
  have hlt (n : ℕ) : measure (step^[n + 1] s) < measure (step^[n] s) := h n fun hn => hne ⟨n, hn⟩
  have hbound (n : ℕ) : measure (step^[n] s) + n ≤ measure s := by
    induction n with
    | zero => exact Nat.le_refl _
    | succ n ih =>
      have := hlt n
      omega
  have := hbound (measure s + 1)
  omega

end QuickJs.Hoare
