import Mathlib.Data.Nat.Notation

/-!
# Requests that may be refused

Computations that ask for something again and again, memory for one, and go on when they do not get it. What such a
computation does is stated for the runs in which every request is served and for those in which one is refused.
-/

namespace QuickJs.Requests

universe u

variable {α β : Type}

/-- The answers that are still to come, and whether a request was refused so far. -/
structure Heap where
  answers : ℕ → Bool
  refused : Bool

/-- A computation that makes requests. -/
def Asking (α : Type) : Type := Heap → α × Heap

instance : Monad Asking where
  pure a := fun h => (a, h)
  bind m f := fun h => f (m h).1 (m h).2

/-- Ask once. -/
def request : Asking Bool := fun h =>
  (h.answers 0, { answers := fun n => h.answers (n + 1), refused := h.refused || !h.answers 0 })

/-- A request that nothing can serve. -/
def refuse : Asking Bool := fun h => (false, { h with refused := true })

theorem pure_apply (a : α) (h : Heap) : (pure a : Asking α) h = (a, h) := rfl

theorem bind_apply (m : Asking α) (f : α → Asking β) (h : Heap) : (m >>= f) h = f (m h).1 (m h).2 := rfl

theorem pure_bind_apply (a : α) (f : α → Asking β) : (pure a : Asking α) >>= f = f a := rfl

theorem request_apply (h : Heap) :
    request h = (h.answers 0, { answers := fun n => h.answers (n + 1), refused := h.refused || !h.answers 0 }) := rfl

/-- `Q` holds of the result where every request is served, and `E` where one is refused. -/
def Spec (m : Asking α) (Q E : α → Prop) : Prop :=
  ∀ h : Heap, h.refused = false → if (m h).2.refused then E (m h).1 else Q (m h).1

/-- `E` holds of the result after a request was refused. -/
def After (m : Asking α) (E : α → Prop) : Prop :=
  ∀ h : Heap, h.refused = true → (m h).2.refused = true ∧ E (m h).1

variable {m : Asking α} {f : α → Asking β} {Q Q' E E' : α → Prop} {R F : β → Prop}

theorem After.mono (h : After m E) (he : ∀ a, E a → E' a) : After m E' :=
  fun s hs => ⟨(h s hs).1, he _ (h s hs).2⟩

theorem Spec.mono (h : Spec m Q E) (hq : ∀ a, Q a → Q' a) (he : ∀ a, E a → E' a) : Spec m Q' E' := by
  intro s hs
  have hm := h s hs
  split <;> rename_i hr
  · rw [if_pos hr] at hm
    exact he _ hm
  · rw [if_neg hr] at hm
    exact hq _ hm

theorem After.pure {a : α} (h : E a) : After (Pure.pure a) E := fun _ hs => ⟨hs, h⟩

theorem Spec.pure {a : α} (h : Q a) : Spec (Pure.pure a) Q E := by
  intro s hs
  rw [pure_apply, if_neg (by simp [hs])]
  exact h

theorem After.bind (hm : After m E) (hf : ∀ a, E a → After (f a) F) : After (m >>= f) F := by
  intro s hs
  obtain ⟨hr, he⟩ := hm s hs
  exact hf _ he _ hr

theorem Spec.bind (hm : Spec m Q E) (hf : ∀ a, Q a → Spec (f a) R F) (he : ∀ a, E a → After (f a) F) :
    Spec (m >>= f) R F := by
  intro s hs
  have h := hm s hs
  rw [bind_apply]
  by_cases hr : (m s).2.refused = true
  · rw [if_pos hr] at h
    obtain ⟨hr', he'⟩ := he _ h _ hr
    rw [if_pos hr']
    exact he'
  · rw [if_neg hr] at h
    exact hf _ h _ (by simpa using hr)

theorem After.ite {c : Prop} [Decidable c] {m' : Asking α} (h : After m E) (h' : After m' E) :
    After (if c then m else m') E := by
  split
  · exact h
  · exact h'

theorem Spec.request : Spec request (· = true) (· = false) := by
  intro s hs
  rw [request_apply, hs]
  cases s.answers 0 <;> simp

theorem After.request : After request fun _ => True := by
  intro s hs
  rw [request_apply]
  simp [hs]

theorem Spec.refuse {Q : Bool → Prop} : Spec refuse Q (· = false) := fun _ _ => rfl

theorem After.refuse : After refuse (· = false) := fun _ _ => ⟨rfl, rfl⟩

/-- A run in which no request is refused. -/
theorem Spec.served (h : Spec m Q E) {s : Heap} (hs : s.refused = false) (hr : (m s).2.refused = false) :
    Q (m s).1 := by
  have hm := h s hs
  rwa [if_neg (by simp [hr])] at hm

end QuickJs.Requests
