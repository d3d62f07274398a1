import Mathlib.Data.List.Nodup
import Mathlib.Data.List.Perm.Subperm

/-!
# Chains of indices

The buckets of a hash table and its list of free slots are chains: every entry
holds the index of the next one, and index `0` ends the chain. A chain is
described by the list of the entries it visits, so that searching it is
`List.find?` and unlinking an entry is `List.erase`.
-/

namespace QuickJs.HashChain

/-- Following `next` from `i` visits exactly `l` and arrives at `j`. -/
def Seg (next : ℕ → ℕ) : ℕ → List ℕ → ℕ → Prop
  | i, [], j => i = j
  | i, a :: l, j => i = a ∧ a ≠ 0 ∧ Seg next (next a) l j

/-- Following `next` from `i` visits exactly `l`, then ends. -/
abbrev IsChain (next : ℕ → ℕ) (i : ℕ) (l : List ℕ) : Prop := Seg next i l 0

variable {next next' : ℕ → ℕ} {i j a b : ℕ} {l l₁ l₂ : List ℕ}

theorem seg_append : Seg next i (l₁ ++ l₂) j ↔ ∃ k, Seg next i l₁ k ∧ Seg next k l₂ j := by
  induction l₁ generalizing i with
  | nil => simp [Seg]
  | cons a l ih =>
    simp only [List.cons_append, Seg, ih]
    constructor
    · rintro ⟨hi, ha, k, hk, hk'⟩
      exact ⟨k, ⟨hi, ha, hk⟩, hk'⟩
    · rintro ⟨k, ⟨hi, ha, hk⟩, hk'⟩
      exact ⟨hi, ha, k, hk, hk'⟩

/-- A segment only depends on the entries it visits. -/
theorem Seg.congr (h : Seg next i l j) (heq : ∀ b ∈ l, next' b = next b) : Seg next' i l j := by
  induction l generalizing i with
  | nil => exact h
  | cons a l ih =>
    obtain ⟨hi, ha, hl⟩ := h
    refine ⟨hi, ha, ?_⟩
    rw [heq a (List.mem_cons_self ..)]
    exact ih hl fun b hb => heq b (List.mem_cons_of_mem _ hb)

theorem Seg.ne_zero (h : Seg next i l j) (ha : a ∈ l) : a ≠ 0 := by
  induction l generalizing i with
  | nil => cases ha
  | cons b l ih =>
    rcases List.mem_cons.mp ha with rfl | ha
    · exact h.2.1
    · exact ih h.2.2 ha

/-- Link a new first entry. -/
theorem IsChain.push (h : IsChain next i l) (ha : a ≠ 0) (hnext : next' a = i)
    (heq : ∀ b ∈ l, next' b = next b) : IsChain next' a (a :: l) :=
  ⟨rfl, ha, hnext ▸ Seg.congr h heq⟩

/-- Unlink an entry that is not the first one, through its predecessor `b`. -/
theorem IsChain.unlink (h : IsChain next i (l₁ ++ b :: a :: l₂)) (hnodup : (l₁ ++ b :: a :: l₂).Nodup)
    (hb : next' b = next a) (heq : ∀ c, c ≠ b → next' c = next c) :
    IsChain next' i (l₁ ++ b :: l₂) := by
  obtain ⟨k, hk, rfl, hb0, hba, ha0, hl₂⟩ := seg_append.mp h
  rw [List.nodup_append] at hnodup
  obtain ⟨-, hnodup₂, hdisj⟩ := hnodup
  rw [List.nodup_cons] at hnodup₂
  refine seg_append.mpr ⟨k, hk.congr fun c hc => heq c fun hcb => ?_, rfl, hb0, ?_⟩
  · exact hdisj c hc k (List.mem_cons_self ..) hcb
  · rw [hb]
    exact hl₂.congr fun c hc => heq c fun hcb =>
      hnodup₂.1 (List.mem_cons_of_mem _ (hcb ▸ hc))

/-! ## Searching -/

/-- The first entry from `i` on that satisfies `f`, or `0`. The first argument
bounds the number of entries looked at. -/
def findFrom (next : ℕ → ℕ) (f : ℕ → Bool) : ℕ → ℕ → ℕ
  | 0, _ => 0
  | n + 1, i => if i = 0 then 0 else if f i then i else findFrom next f n (next i)

theorem findFrom_eq {f : ℕ → Bool} : ∀ {n i : ℕ} {l : List ℕ}, IsChain next i l → l.length ≤ n →
    findFrom next f n i = (l.find? f).getD 0 := by
  intro n
  induction n with
  | zero =>
    intro i l h hl
    rw [List.length_eq_zero_iff.mp (Nat.le_zero.mp hl)]
    rfl
  | succ n ih =>
    intro i l h hl
    cases l with
    | nil =>
      obtain rfl : i = 0 := h
      rfl
    | cons a l =>
      obtain ⟨rfl, ha, h⟩ := h
      rw [findFrom, if_neg ha]
      by_cases hf : f i = true
      · rw [if_pos hf, List.find?_cons_of_pos hf, Option.getD_some]
      · rw [if_neg hf, List.find?_cons_of_neg hf]
        exact ih h (Nat.le_of_succ_le_succ hl)

/-- Searching for the only entry that satisfies `f` finds it. -/
theorem findFrom_unique {f : ℕ → Bool} {n : ℕ} (h : IsChain next i l) (hl : l.length ≤ n)
    (ha : a ∈ l) (hfa : f a = true) (huniq : ∀ b ∈ l, f b = true → b = a) :
    findFrom next f n i = a := by
  rw [findFrom_eq h hl]
  cases hfind : l.find? f with
  | none => exact absurd hfa (List.find?_eq_none.mp hfind a ha)
  | some b =>
    exact huniq b (List.mem_of_find?_eq_some hfind) (List.find?_some hfind)

/-- A chain without repetition below `n` has less than `n` entries. -/
theorem length_le_of_lt {n : ℕ} (hnodup : l.Nodup) (hlt : ∀ a ∈ l, a < n) : l.length ≤ n := by
  have hsub : l ⊆ List.range n := fun a ha => List.mem_range.mpr (hlt a ha)
  simpa using (hnodup.subperm hsub).length_le

end QuickJs.HashChain
