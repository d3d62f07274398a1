import Mathlib.Algebra.Order.Ring.Int

/-!
# Binary search among intervals

The intervals of a table are disjoint, in increasing order, and have their last number as bound. They are
read by an index, which is a word of 32 bits that can wrap around.
-/

namespace QuickJs

/-- Is `c` in one of the intervals with these indices? None if something is read that is not there, or if the
search has not ended. -/
def intervalSearch (read : ℕ → Option (ℕ × ℕ)) (c : ℕ) : ℕ → ℕ → ℕ → Option Bool
  | 0, _, _ => none
  | fuel + 1, idxMin, idxMax =>
    if idxMin ≤ idxMax then
      let idx := (idxMin + idxMax) % 2 ^ 32 / 2
      (read idx).bind fun r =>
        if c < r.1 then intervalSearch read c fuel idxMin ((idx + (2 ^ 32 - 1)) % 2 ^ 32)
        else if r.2 < c then intervalSearch read c fuel ((idx + 1) % 2 ^ 32) idxMax
        else some true
    else some false

/-- Intervals in increasing order. -/
structure Ascending (l : List (ℕ × ℕ)) : Prop where
  nonempty : ∀ r ∈ l, r.1 ≤ r.2
  disjoint : l.Pairwise fun r s => r.2 < s.1

variable {read : ℕ → Option (ℕ × ℕ)} {l : List (ℕ × ℕ)} {c fuel idxMin idxMax i j : ℕ} {r s : ℕ × ℕ}

theorem Ascending.lt (ha : Ascending l) (hr : l[i]? = some r) (hs : l[j]? = some s) (hij : i < j) : r.2 < s.1 := by
  obtain ⟨hi, rfl⟩ := List.getElem?_eq_some_iff.mp hr
  obtain ⟨hj, rfl⟩ := List.getElem?_eq_some_iff.mp hs
  exact List.pairwise_iff_getElem.mp ha.disjoint i j hi hj hij

theorem Ascending.first_le (ha : Ascending l) (hr : l[0]? = some r) (hs : s ∈ l) : r.1 ≤ s.1 := by
  obtain ⟨i, hi⟩ := List.mem_iff_getElem?.mp hs
  rcases Nat.eq_zero_or_pos i with rfl | hpos
  · rw [hr] at hi
    cases hi
    exact Nat.le_refl _
  · exact Nat.le_of_lt (Nat.lt_of_le_of_lt (ha.nonempty r (List.mem_of_getElem? hr)) (ha.lt hr hi hpos))

theorem Ascending.le_last (ha : Ascending l) (hr : l[l.length - 1]? = some r) (hs : s ∈ l) : s.2 ≤ r.2 := by
  obtain ⟨i, hi⟩ := List.mem_iff_getElem?.mp hs
  have hlt := (List.getElem?_eq_some_iff.mp hi).1
  rcases Nat.lt_or_eq_of_le (Nat.le_sub_one_of_lt hlt) with hlt | rfl
  · exact Nat.le_of_lt (Nat.lt_of_lt_of_le (ha.lt hi hr hlt) (ha.nonempty r (List.mem_of_getElem? hr)))
  · rw [hr] at hi
    cases hi
    exact Nat.le_refl _

/-- The intervals in the table that lie outside of the part that is searched do not have the number. -/
structure Searched (l : List (ℕ × ℕ)) (c idxMin idxMax : ℕ) : Prop where
  below : ∀ i r, l[i]? = some r → i < idxMin → r.2 < c
  above : ∀ i r, l[i]? = some r → idxMax < i → c < r.1
  inside : idxMax < l.length
  first : ∀ r, l[0]? = some r → r.1 ≤ c

theorem Searched.not_mem (hs : Searched l c idxMin idxMax) (hlt : idxMax < idxMin) :
    ¬∃ r ∈ l, r.1 ≤ c ∧ c ≤ r.2 := by
  rintro ⟨r, hr, hlow, hhigh⟩
  obtain ⟨i, hi⟩ := List.mem_iff_getElem?.mp hr
  rcases Nat.lt_or_ge i idxMin with hi' | hi'
  · exact Nat.not_lt_of_le hhigh (hs.below i r hi hi')
  · exact Nat.not_lt_of_le hlow (hs.above i r hi (Nat.lt_of_lt_of_le hlt hi'))

/-- The left half is left. -/
theorem Searched.left (ha : Ascending l) (hs : Searched l c idxMin idxMax) (hr : l[i]? = some r) (hi : i ≤ idxMax) (hc : c < r.1) :
    0 < i ∧ Searched l c idxMin (i - 1) := by
  have hpos : 0 < i := by
    refine Nat.pos_of_ne_zero fun h0 => ?_
    rw [h0] at hr
    exact Nat.not_lt_of_le (hs.first r hr) hc
  refine ⟨hpos, hs.below, fun j s hj hij => ?_, ?_, hs.first⟩
  · have hle : i ≤ j := by omega
    rcases Nat.lt_or_eq_of_le hle with hlt | rfl
    · have hrs := ha.lt hr hj hlt
      have hne := ha.nonempty r (List.mem_of_getElem? hr)
      omega
    · rw [hr] at hj
      cases hj
      exact hc
  · have := hs.inside
    omega

/-- The right half is left. -/
theorem Searched.right (ha : Ascending l) (hs : Searched l c idxMin idxMax) (hr : l[i]? = some r) (hc : r.2 < c) :
    Searched l c (i + 1) idxMax := by
  refine ⟨fun j s hj hij => ?_, hs.above, hs.inside, hs.first⟩
  rcases Nat.lt_or_eq_of_le (Nat.le_of_lt_succ hij) with hlt | rfl
  · have hsr := ha.lt hj hr hlt
    have hne := ha.nonempty r (List.mem_of_getElem? hr)
    omega
  · rw [hr] at hj
    cases hj
    exact hc

/-- A search with enough fuel reads only the table, and decides whether the number is in an interval. -/
theorem intervalSearch_eq (ha : Ascending l) (hread : ∀ i < l.length, read i = l[i]?) (hlen : l.length ≤ 2 ^ 31)
    (hs : Searched l c idxMin idxMax) (hmin : idxMin ≤ l.length) (hfuel : idxMax + 1 - idxMin < fuel) :
    ∃ b, intervalSearch read c fuel idxMin idxMax = some b ∧ (b = true ↔ ∃ r ∈ l, r.1 ≤ c ∧ c ≤ r.2) := by
  induction fuel generalizing idxMin idxMax with
  | zero => exact absurd hfuel (Nat.not_lt_zero _)
  | succ fuel ih =>
    unfold intervalSearch
    split
    · have hin := hs.inside
      have hmod : (idxMin + idxMax) % 2 ^ 32 = idxMin + idxMax := Nat.mod_eq_of_lt (by omega)
      dsimp only
      rw [hmod]
      generalize hidx : (idxMin + idxMax) / 2 = idx
      have hidx' : idx < l.length := by omega
      obtain ⟨r, hr⟩ : ∃ r, l[idx]? = some r := ⟨_, List.getElem?_eq_getElem hidx'⟩
      rw [hread idx hidx', hr, Option.bind_some]
      split
      · rename_i hc
        obtain ⟨hpos, hs'⟩ := hs.left ha hr (by omega) hc
        -- the index does not wrap around, because the number is not below the first interval
        have hpred : (idx + (2 ^ 32 - 1)) % 2 ^ 32 = idx - 1 := by omega
        rw [hpred]
        exact ih hs' hmin (by omega)
      split
      · rename_i hc
        have hsucc : (idx + 1) % 2 ^ 32 = idx + 1 := Nat.mod_eq_of_lt (by omega)
        rw [hsucc]
        exact ih (hs.right ha hr hc) (by omega) (by omega)
      · refine ⟨true, rfl, fun _ => ⟨r, List.mem_of_getElem? hr, ?_⟩, fun _ => rfl⟩
        omega
    · exact ⟨false, rfl, fun h => absurd h Bool.false_ne_true, fun h => absurd h (hs.not_mem (by omega))⟩

end QuickJs
