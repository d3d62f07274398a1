import Mathlib.Data.List.Basic

/-!
# Lists in the order of a stamp

Entries that are only ever appended, each with a larger stamp than all before, form
a list that increases with the stamp. The stamp identifies the entry, and the entries
after a given one are those with a larger stamp.
-/

namespace QuickJs.Stamped

universe u

variable {α : Type u}

/-- The stamps increase along the list. -/
abbrev Increasing (f : α → ℕ) (l : List α) : Prop := l.Pairwise (f · < f ·)

variable {f : α → ℕ} {l : List α} {a b : α}

namespace Increasing

section

variable (h : Increasing f l)

include h

/-- The stamp identifies the entry. -/
theorem eq_of_stamp (ha : a ∈ l) (hb : b ∈ l) (heq : f a = f b) : a = b := by
  induction l with
  | nil => cases ha
  | cons c l ih =>
    obtain ⟨hc, hl⟩ := List.pairwise_cons.mp h
    rcases List.mem_cons.mp ha with rfl | ha' <;> rcases List.mem_cons.mp hb with rfl | hb
    · rfl
    · exact absurd heq (Nat.ne_of_lt (hc b hb))
    · exact absurd heq (Nat.ne_of_gt (hc a ha'))
    · exact ih hl ha' hb

theorem nodup : (l.map f).Nodup :=
  List.pairwise_map.mpr (h.imp fun hlt => Nat.ne_of_lt hlt)

/-- Searching a stamp finds its entry. -/
theorem find?_stamp (ha : a ∈ l) : l.find? (f · == f a) = some a := by
  cases hfind : l.find? (f · == f a) with
  | none => exact absurd (List.find?_eq_none.mp hfind a ha) (by simp)
  | some b =>
    have hb := List.find?_some hfind
    rw [h.eq_of_stamp (List.mem_of_find?_eq_some hfind) ha (by simpa using hb)]

/-- What a search finds is the first such entry. -/
theorem find?_le {p : α → Bool} (hfind : l.find? p = some a) (hb : b ∈ l)
    (hpb : p b = true) : f a ≤ f b := by
  induction l with
  | nil => cases hb
  | cons c l ih =>
    obtain ⟨hc, hl⟩ := List.pairwise_cons.mp h
    cases hpc : p c with
    | true =>
      rw [List.find?_cons_of_pos hpc] at hfind
      obtain rfl := Option.some.inj hfind
      rcases List.mem_cons.mp hb with rfl | hb
      · exact Nat.le_refl _
      · exact Nat.le_of_lt (hc b hb)
    | false =>
      rw [List.find?_cons_of_neg (by simp [hpc])] at hfind
      rcases List.mem_cons.mp hb with rfl | hb
      · rw [hpc] at hpb
        cases hpb
      · exact ih hl hfind hb

/-- Going to an entry leaves it and the later ones. -/
theorem dropWhile_stamp (ha : a ∈ l) :
    l.dropWhile (f · != f a) = a :: l.filter (fun b => decide (f a < f b)) := by
  induction l with
  | nil => cases ha
  | cons c l ih =>
    obtain ⟨hc, hl⟩ := List.pairwise_cons.mp h
    rcases List.mem_cons.mp ha with rfl | ha
    · rw [List.dropWhile_cons_of_neg (by simp), List.filter_cons_of_neg (by simp),
        List.filter_eq_self.mpr fun b hb => decide_eq_true (hc b hb)]
    · have hlt := hc a ha
      rw [List.dropWhile_cons_of_pos (by simpa using Nat.ne_of_lt hlt), ih hl ha,
        List.filter_cons_of_neg (by simpa using Nat.le_of_lt hlt)]

/-- Changing entries but not their stamps. -/
theorem map {g : α → α} (hg : ∀ a, f (g a) = f a) : Increasing f (l.map g) :=
  List.pairwise_map.mpr (h.imp fun hlt => by rwa [hg, hg])

/-- Appending an entry with a new stamp. -/
theorem concat (hlt : ∀ b ∈ l, f b < f a) : Increasing f (l ++ [a]) :=
  List.pairwise_append.mpr ⟨h, List.pairwise_singleton .., fun b hb _ hc =>
    List.mem_singleton.mp hc ▸ hlt b hb⟩

end

end Increasing

end QuickJs.Stamped
