import Mathlib.Data.Nat.Notation

/-!
# Loops with a bound on their rounds

A round of a loop fails, goes on with a new state, or ends with a result. `loop` plays a number of
rounds at most. `loop_rule` is the induction over the rounds of a loop that ends, and
`loop_ne_outOfSteps` says that the bound is never met when something shrinks in every round.
-/

namespace QuickJs.Rounds

variable {ε α β σ : Type*}

variable {x : Except ε α} {f : α → Except ε β} {P : σ → Prop}

theorem bind_eq_ok {b : β} (h : x.bind f = .ok b) :
    ∃ a, x = .ok a ∧ f a = .ok b := by
  cases x with
  | error e => cases h
  | ok a => exact ⟨a, rfl, h⟩

theorem bind_ne_error {e : ε} (hx : x ≠ .error e)
    (hf : ∀ a, x = .ok a → f a ≠ .error e) : x.bind f ≠ .error e := by
  cases x with
  | error e' => exact fun h => hx (congrArg Except.error (Except.error.inj h))
  | ok a => exact hf a rfl

/-- Play a number of rounds at most. -/
def loop (round : σ → Except ε (σ ⊕ β)) (outOfSteps : ε) : ℕ → σ → Except ε β
  | 0, _ => .error outOfSteps
  | n + 1, s => (round s).bind fun
    | .inl s' => loop round outOfSteps n s'
    | .inr b => .ok b

variable {round : σ → Except ε (σ ⊕ β)} {outOfSteps : ε} {n : ℕ} {s s' : σ} {b : β}

theorem loop_inl (h : round s = .ok (.inl s')) :
    loop round outOfSteps (n + 1) s = loop round outOfSteps n s' := by
  rw [loop, h]
  rfl

theorem loop_inr (h : round s = .ok (.inr b)) : loop round outOfSteps (n + 1) s = .ok b := by
  rw [loop, h]
  rfl

/-- What the last round gives, and every other round hands back, the loop gives. -/
theorem loop_rule {Q : σ → β → Prop}
    (hinl : ∀ s s' b, P s → round s = .ok (.inl s') → P s' ∧ (Q s' b → Q s b))
    (hinr : ∀ s b, P s → round s = .ok (.inr b) → Q s b)
    (hs : P s) (h : loop round outOfSteps n s = .ok b) : Q s b := by
  induction n generalizing s with
  | zero => cases h
  | succ n ih =>
    obtain ⟨r, hr, h⟩ := bind_eq_ok h
    cases r with
    | inl s' =>
      obtain ⟨hs', hQ⟩ := hinl s s' b hs hr
      exact hQ (ih hs' h)
    | inr b' =>
      obtain rfl := Except.ok.inj h
      exact hinr s b' hs hr

/-- There are rounds enough when something shrinks in each of them. -/
theorem loop_ne_outOfSteps (size : σ → ℕ)
    (hround : ∀ s, P s → size s < n → round s ≠ .error outOfSteps)
    (hinl : ∀ s s', P s → round s = .ok (.inl s') → P s' ∧ size s' < size s)
    (hs : P s) (hn : size s < n) : loop round outOfSteps n s ≠ .error outOfSteps := by
  suffices h : ∀ m s, P s → size s < m → m ≤ n →
      loop round outOfSteps m s ≠ .error outOfSteps from h n s hs hn (Nat.le_refl n)
  intro m
  induction m with
  | zero => exact fun s _ hlt => absurd hlt (Nat.not_lt_zero _)
  | succ m ih =>
    intro s hs hlt hle
    apply bind_ne_error (hround s hs (by omega))
    intro r hr
    cases r with
    | inl s' =>
      obtain ⟨hs', hsize⟩ := hinl s s' hs hr
      exact ih s' hs' (by omega) (by omega)
    | inr b => exact nofun

end QuickJs.Rounds
