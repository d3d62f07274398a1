import Mathlib

/-!
# Ledgers of counted references

A holder has a reference to at most one object. The references that a list of holders has to an
object are counted, so that the count of the object can be compared with them.
-/

namespace QuickJs.Ledger

universe u v

variable {α : Type u} {ρ : Type v} [DecidableEq ρ] (ref : α → Option ρ)

/-- The references of one holder to `r`. -/
def owes (a : α) (r : ρ) : ℤ := if ref a = some r then 1 else 0

/-- The references of a list of holders to `r`. -/
def held (l : List α) (r : ρ) : ℤ := (l.map fun a => owes ref a r).sum

variable {ref} {l l' : List α} {a b : α} {r : ρ} {i : ℕ} {p : α → Bool}

theorem owes_eq_zero (h : ref a = none) : owes ref a r = 0 := by
  rw [owes, if_neg (by rw [h]; nofun)]

@[simp] theorem held_nil : held ref [] r = 0 := rfl

@[simp] theorem held_cons : held ref (a :: l) r = owes ref a r + held ref l r := List.sum_cons

@[simp] theorem held_append : held ref (l ++ l') r = held ref l r + held ref l' r := by
  rw [held, List.map_append, List.sum_append]
  rfl

theorem held_eq_zero (h : ∀ a ∈ l, ref a = none) : held ref l r = 0 := by
  induction l with
  | nil => rfl
  | cons a l ih =>
    rw [held_cons, owes_eq_zero (h a (.head _)), ih fun b hb => h b (.tail _ hb)]
    rfl

/-- A holder is replaced. -/
theorem held_set (ref : α → Option ρ) (b : α) (r : ρ) (h : l[i]? = some a) :
    held ref (l.set i b) r = held ref l r - owes ref a r + owes ref b r := by
  induction l generalizing i with
  | nil => cases h
  | cons c l ih =>
    cases i with
    | zero =>
      cases h
      rw [List.set_cons_zero, held_cons, held_cons]
      omega
    | succ i =>
      rw [List.set_cons_succ, held_cons, held_cons, ih h]
      omega

/-- The first holder with a property leaves. -/
theorem held_eraseP (h : l.find? p = some a) : held ref (l.eraseP p) r = held ref l r - owes ref a r := by
  induction l with
  | nil => cases h
  | cons c l ih =>
    rw [List.find?_cons] at h
    rw [List.eraseP_cons, held_cons]
    cases hp : p c <;> rw [hp] at h
    · simp only [cond_false, held_cons, ih h]
      omega
    · cases h
      simp only [cond_true]
      omega

/-- The holders with a property, and those without it. -/
theorem held_filter_add_held_filter_not (ref : α → Option ρ) (p : α → Bool) (l : List α) (r : ρ) :
    held ref (l.filter p) r + held ref (l.filter (!p ·)) r = held ref l r := by
  induction l with
  | nil => rfl
  | cons c l ih =>
    rw [held_cons]
    cases hp : p c
    · rw [List.filter_cons_of_neg (by simp [hp]), List.filter_cons_of_pos (by simp [hp]), held_cons]
      omega
    · rw [List.filter_cons_of_pos hp, List.filter_cons_of_neg (by simp [hp]), held_cons]
      omega

end QuickJs.Ledger
