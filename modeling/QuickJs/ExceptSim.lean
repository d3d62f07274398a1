import Mathlib.Logic.Basic

/-!
# Computations that fail alike

Two computations with errors simulate each other if they fail with the same error, or succeed with
results that are related. The relation goes through sequences and loops.
-/

namespace QuickJs.ExceptSim

universe u v w

variable {ε : Type u} {α β α' β' : Type v} {ι : Type w} {P : α → β → Prop} {Q : α' → β' → Prop}

inductive Sim (P : α → β → Prop) : Except ε α → Except ε β → Prop
  | error (e : ε) : Sim P (.error e) (.error e)
  | ok {a : α} {b : β} : P a b → Sim P (.ok a) (.ok b)

variable {x : Except ε α} {y : Except ε β}

theorem Sim.mono {P' : α → β → Prop} (h : Sim P x y) (hP : ∀ a b, P a b → P' a b) : Sim P' x y := by
  cases h with
  | error e => exact .error e
  | ok hab => exact .ok (hP _ _ hab)

theorem Sim.bind {f : α → Except ε α'} {g : β → Except ε β'}
    (h : Sim P x y) (hf : ∀ a b, P a b → Sim Q (f a) (g b)) : Sim Q (x >>= f) (y >>= g) := by
  cases h with
  | error e => exact .error e
  | ok hab => exact hf _ _ hab

/-- The second computation does nothing more. -/
theorem Sim.bind_left {f : α → Except ε α'} {Q : α' → β → Prop}
    (h : Sim P x y) (hf : ∀ a b, P a b → Sim Q (f a) (.ok b)) : Sim Q (x >>= f) y := by
  cases h with
  | error e => exact .error e
  | ok hab => exact hf _ _ hab

theorem Sim.map_left {f : α → α'} {Q : α' → β → Prop}
    (h : Sim P x y) (hf : ∀ a b, P a b → Q (f a) b) : Sim Q (x.map f) y := by
  cases h with
  | error e => exact .error e
  | ok hab => exact .ok (hf _ _ hab)

/-- What the results have in common, when the second one is known. -/
theorem Sim.of_ok {b : β} (h : Sim P x (.ok b)) : ∃ a, x = .ok a ∧ P a b := by
  cases h with
  | ok hab => exact ⟨_, rfl, hab⟩

theorem Sim.of_error {e : ε} (h : Sim P x (.error e)) : x = .error e := by
  cases h
  rfl

end QuickJs.ExceptSim
