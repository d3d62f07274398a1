import Mathlib.Data.List.Basic
import Mathlib.Data.Nat.Find

/-!
# Occurrences of a list in a list

A list stands in another one at a position. Cut the list at the occurrences of a separator, each the least one from the
end of the one before: the pieces, with the separator between them, are the list. The empty separator stands
everywhere; it cuts after each element and not at the ends.
-/

namespace QuickJs.Occurrence

variable {α : Type} {s t : List α} {i j p e : ℕ}

/-- `t` stands in `s` at `i`. -/
def OccursAt (t s : List α) (i : ℕ) : Prop := t <+: s.drop i

/-- The part of `s` from `i` up to `j`. -/
def slice (s : List α) (i j : ℕ) : List α := (s.drop i).take (j - i)

theorem occursAt_nil (s : List α) (i : ℕ) : OccursAt [] s i := List.nil_prefix

theorem OccursAt.length_le (h : OccursAt t s i) (ht : t ≠ []) : i + t.length ≤ s.length := by
  have hle := List.IsPrefix.length_le h
  have hpos := List.length_pos_iff.mpr ht
  rw [List.length_drop] at hle
  omega

theorem slice_append_drop (h : i ≤ j) : slice s i j ++ s.drop j = s.drop i := by
  have hj : j = i + (j - i) := by omega
  conv_lhs => rw [slice, hj, ← List.drop_drop, Nat.add_sub_cancel_left]
  exact List.take_append_drop (j - i) (s.drop i)

theorem OccursAt.append_drop (h : OccursAt t s i) : t ++ s.drop (i + t.length) = s.drop i := by
  obtain ⟨rest, hrest⟩ := h
  rw [← List.drop_drop, ← hrest, List.drop_left]

/-- The least position from `p` on at which `t` stands. -/
structure First (t s : List α) (p e : ℕ) : Prop where
  le : p ≤ e
  occurs : OccursAt t s e
  least : ∀ k, p ≤ k → k < e → ¬OccursAt t s k

theorem First.unique {e' : ℕ} (h : First t s p e) (h' : First t s p e') : e = e' := by
  rcases Nat.lt_trichotomy e e' with hlt | heq | hlt
  · exact absurd h.occurs (h'.least e h.le hlt)
  · exact heq
  · exact absurd h'.occurs (h.least e' h'.le hlt)

/-- The empty separator does not cut in front of the first element, nor behind the last one. -/
def skip (t : List α) : ℕ := if t.length = 0 then 1 else 0

/-- The pieces of `s` from `p` on. -/
inductive Pieces (t s : List α) : ℕ → List (List α) → Prop
  | last {p : ℕ} : (∀ e, p + skip t ≤ e → e + t.length + skip t ≤ s.length → ¬OccursAt t s e) → Pieces t s p [s.drop p]
  | cut {p e : ℕ} {ps : List (List α)} : First t s (p + skip t) e → e + t.length + skip t ≤ s.length →
      Pieces t s (e + t.length) ps → Pieces t s p (slice s p e :: ps)

/-- There are pieces. -/
theorem exists_pieces (t s : List α) (p : ℕ) : ∃ ps, Pieces t s p ps := by
  by_cases h : ∃ e, p + skip t ≤ e ∧ e + t.length + skip t ≤ s.length ∧ OccursAt t s e
  · classical
    obtain ⟨hle, hend, hoccurs⟩ := Nat.find_spec h
    have hskip : 1 ≤ t.length + skip t := by
      unfold skip
      split <;> omega
    have hfirst : First t s (p + skip t) (Nat.find h) :=
      ⟨hle, hoccurs, fun k hk hke hk' => Nat.find_min h hke ⟨hk, by omega, hk'⟩⟩
    obtain ⟨ps, hps⟩ := exists_pieces t s (Nat.find h + t.length)
    exact ⟨_, .cut hfirst hend hps⟩
  · exact ⟨_, .last fun e he hend hoccurs => h ⟨e, he, hend, hoccurs⟩⟩
termination_by s.length - p

variable {ps : List (List α)}

/-- There is one way to cut. -/
theorem Pieces.unique {ps' : List (List α)} (h : Pieces t s p ps) (h' : Pieces t s p ps') : ps = ps' := by
  induction h generalizing ps' with
  | last hnone =>
    cases h' with
    | last _ => rfl
    | cut hfirst hend _ => exact absurd hfirst.occurs (hnone _ hfirst.le hend)
  | cut hfirst hend _ ih =>
    cases h' with
    | last hnone => exact absurd hfirst.occurs (hnone _ hfirst.le hend)
    | cut hfirst' _ hps' =>
      obtain rfl := hfirst.unique hfirst'
      rw [ih hps']

theorem Pieces.ne_nil (h : Pieces t s p ps) : ps ≠ [] := by
  cases h with
  | last _ => exact List.cons_ne_nil _ _
  | cut _ _ _ => exact List.cons_ne_nil _ _

/-- **The pieces, with the separator between them, are the list.** -/
theorem Pieces.intercalate (h : Pieces t s p ps) : t.intercalate ps = s.drop p := by
  induction h with
  | last _ => exact List.intercalate_singleton
  | cut hfirst _ hps ih =>
    have hle := hfirst.le
    rw [List.intercalate_cons_of_ne_nil hps.ne_nil, ih, List.append_assoc, hfirst.occurs.append_drop,
      slice_append_drop (by omega)]

/-- There are no more pieces than elements, and one. -/
theorem Pieces.length_le (h : Pieces t s p ps) (hp : p ≤ s.length) :
    ps.length + p ≤ s.length + 1 := by
  induction h with
  | last _ =>
    rw [List.length_singleton]
    omega
  | cut hfirst hle _ ih =>
    have hstart := hfirst.le
    have hskip : 1 ≤ t.length + skip t := by
      unfold skip
      split <;> omega
    rw [List.length_cons]
    omega

end QuickJs.Occurrence
