import Mathlib

/-!
# Words that end in a separator

A sequence of words is written as one word, each followed by a separator that no word holds. The words can be read off
any beginning of it: those that are complete are the first ones, and the rest begins the next one.
-/

namespace QuickJs.Framing

variable {α : Type*} {sep : α} {ws vs : List (List α)} {t : List α}

/-- The words, each with its separator. -/
def frames (sep : α) (ws : List (List α)) : List α := (ws.map (· ++ [sep])).flatten

@[simp] theorem frames_nil : frames sep [] = [] := rfl

@[simp] theorem frames_cons {w : List α} : frames sep (w :: ws) = w ++ sep :: frames sep ws := by
  simp [frames]

theorem frames_append : frames sep (ws ++ vs) = frames sep ws ++ frames sep vs := by
  rw [frames, List.map_append, List.flatten_append]
  rfl

theorem frames_concat {w : List α} : frames sep (ws ++ [w]) = frames sep ws ++ w ++ [sep] := by
  rw [frames_append, frames_cons, frames_nil, List.append_assoc]

/-- The first separator ends the first word. -/
theorem eq_of_append_cons {w v a b : List α} (hw : sep ∉ w) (hv : sep ∉ v) (h : w ++ sep :: a = v ++ sep :: b) :
    w = v ∧ a = b := by
  induction w generalizing v with
  | nil =>
    cases v with
    | nil => exact ⟨rfl, List.tail_eq_of_cons_eq h⟩
    | cons x v => exact absurd ((List.cons.inj h).1 ▸ List.mem_cons_self) hv
  | cons x w ih =>
    cases v with
    | nil => exact absurd ((List.cons.inj h).1 ▸ List.mem_cons_self) hw
    | cons y v =>
      obtain ⟨rfl, htail⟩ := List.cons.inj h
      obtain ⟨rfl, rfl⟩ := ih (fun hmem => hw (List.mem_cons_of_mem _ hmem))
        (fun hmem => hv (List.mem_cons_of_mem _ hmem)) htail
      exact ⟨rfl, rfl⟩

end QuickJs.Framing
