import Mathlib.Algebra.Order.Ring.Int

/-!
# Double precision numbers as bit patterns

An IEEE 754 binary64 number is the pattern of its 64 bits: a sign, eleven bits of
exponent and 52 bits of fraction. Comparison and the conversion of a 32-bit integer,
which is exact, are defined on the patterns.
-/

namespace QuickJs.Double

/-- The pattern without its sign bit. -/
def magnitude (d : UInt64) : ℕ := d.toNat % 2 ^ 63

/-- All exponent bits are set and the fraction is not zero. -/
def isnan (d : UInt64) : Bool := 2047 * 2 ^ 52 < magnitude d

/-- Either zero. -/
def isZero (d : UInt64) : Bool := magnitude d == 0

/-- The comparison `d1 == d2`: a NaN equals nothing, the two zeros are equal. -/
def feq (d₁ d₂ : UInt64) : Bool :=
  !isnan d₁ && !isnan d₂ && (d₁ == d₂ || isZero d₁ && isZero d₂)

/-- The magnitude of the number `n < 2 ^ 53`. -/
def ofNat (n : ℕ) : ℕ :=
  if n = 0 then 0 else (1023 + n.log2) * 2 ^ 52 + (n - 2 ^ n.log2) * 2 ^ (52 - n.log2)

/-- The conversion `(double)n`. -/
def ofInt32 (n : Int32) : UInt64 :=
  UInt64.ofNat ((if n.toInt < 0 then 2 ^ 63 else 0) + ofNat n.toInt.natAbs)

example : ofInt32 5 = 0x4014000000000000 := by decide

variable {n m : ℕ}

/-- The fraction fits its field. -/
theorem fraction_lt (hn : n ≠ 0) (h : n < 2 ^ 53) : (n - 2 ^ n.log2) * 2 ^ (52 - n.log2) < 2 ^ 52 := by
  have hlog : n.log2 ≤ 52 := Nat.lt_succ_iff.mp ((Nat.log2_lt hn).mpr h)
  have hlt : n < 2 ^ (n.log2 + 1) := Nat.lt_log2_self
  have hle : n - 2 ^ n.log2 < 2 ^ n.log2 := by
    omega
  calc (n - 2 ^ n.log2) * 2 ^ (52 - n.log2)
      < 2 ^ n.log2 * 2 ^ (52 - n.log2) := Nat.mul_lt_mul_of_pos_right hle (Nat.two_pow_pos _)
    _ = 2 ^ 52 := by rw [← Nat.pow_add, Nat.add_sub_cancel' hlog]

theorem ofNat_lt (h : n < 2 ^ 53) : ofNat n < 2047 * 2 ^ 52 := by
  unfold ofNat
  split
  · omega
  · rename_i hn
    have hfrac := fraction_lt hn h
    have hlog : n.log2 ≤ 52 := Nat.lt_succ_iff.mp ((Nat.log2_lt hn).mpr h)
    omega

theorem ofNat_pos (hn : n ≠ 0) : 0 < ofNat n := by
  rw [ofNat, if_neg hn]
  omega

theorem ofNat_inj (hn : n < 2 ^ 53) (hm : m < 2 ^ 53) (h : ofNat n = ofNat m) : n = m := by
  by_cases hn0 : n = 0
  · by_contra hne
    have hpos := ofNat_pos (n := m) fun hm0 => hne (hn0.trans hm0.symm)
    rw [← h, ofNat, if_pos hn0] at hpos
    exact absurd hpos (Nat.lt_irrefl 0)
  by_cases hm0 : m = 0
  · have hpos := ofNat_pos hn0
    rw [h, ofNat, if_pos hm0] at hpos
    exact absurd hpos (Nat.lt_irrefl 0)
  rw [ofNat, if_neg hn0, ofNat, if_neg hm0] at h
  have hfn := fraction_lt hn0 hn
  have hfm := fraction_lt hm0 hm
  have hlog : n.log2 = m.log2 := by omega
  have hfrac : (n - 2 ^ n.log2) * 2 ^ (52 - n.log2) = (m - 2 ^ n.log2) * 2 ^ (52 - n.log2) := by
    rw [hlog] at h ⊢
    omega
  have hsub := Nat.eq_of_mul_eq_mul_right (Nat.two_pow_pos _) hfrac
  have hlen : 2 ^ n.log2 ≤ n := Nat.log2_self_le hn0
  have hlem : 2 ^ n.log2 ≤ m := hlog ▸ Nat.log2_self_le hm0
  omega

/-! ## Integers -/

theorem natAbs_lt (n : Int32) : n.toInt.natAbs < 2 ^ 53 := by
  have h₁ := n.toInt_lt
  have h₂ := n.le_toInt
  omega

theorem toNat_ofInt32 (n : Int32) :
    (ofInt32 n).toNat = (if n.toInt < 0 then 2 ^ 63 else 0) + ofNat n.toInt.natAbs := by
  have hlt := ofNat_lt (natAbs_lt n)
  refine UInt64.toNat_ofNat_of_lt' ?_
  rw [show UInt64.size = 2 ^ 64 from rfl]
  split <;> omega

theorem magnitude_ofInt32 (n : Int32) : magnitude (ofInt32 n) = ofNat n.toInt.natAbs := by
  have hlt := ofNat_lt (natAbs_lt n)
  rw [magnitude, toNat_ofInt32]
  split <;> omega

theorem isnan_ofInt32 (n : Int32) : isnan (ofInt32 n) = false := by
  have hlt := ofNat_lt (natAbs_lt n)
  rw [isnan, magnitude_ofInt32]
  exact decide_eq_false (by omega)

/-- Equal doubles come from equal integers. -/
theorem feq_ofInt32 {a b : Int32} (h : feq (ofInt32 a) (ofInt32 b) = true) : a = b := by
  have hnat : ∀ n : Int32, magnitude (ofInt32 n) = 0 → n.toInt = 0 := by
    intro n hn
    rw [magnitude_ofInt32] at hn
    by_contra hne
    have hpos := ofNat_pos (Int.natAbs_ne_zero.mpr hne)
    omega
  apply Int32.toInt_inj.mp
  simp only [feq, Bool.and_eq_true, Bool.or_eq_true, beq_iff_eq, isZero] at h
  obtain ⟨-, heq | ⟨ha, hb⟩⟩ := h
  · have htoNat := congrArg UInt64.toNat heq
    have hmag := congrArg magnitude heq
    rw [magnitude_ofInt32, magnitude_ofInt32] at hmag
    have habs := ofNat_inj (natAbs_lt a) (natAbs_lt b) hmag
    rw [toNat_ofInt32, toNat_ofInt32] at htoNat
    split at htoNat <;> split at htoNat <;> omega
  · rw [hnat a ha, hnat b hb]

/-! ## Comparison up to NaN -/

/-- The representative of the numbers that count as the same: one NaN, one zero. -/
def canonical (d : UInt64) : UInt64 :=
  if isnan d then UInt64.ofNat (2047 * 2 ^ 52 + 1) else if isZero d then 0 else d

/-- `==` extended by "NaN equals NaN" compares the representatives. -/
theorem canonical_eq_iff (d₁ d₂ : UInt64) : canonical d₁ = canonical d₂ ↔
      (if isnan d₁ || isnan d₂ then isnan d₁ == isnan d₂ else feq d₁ d₂) = true := by
  have hnanOf : isnan (UInt64.ofNat (2047 * 2 ^ 52 + 1)) = true := by decide
  have hnan0 : isnan 0 = false := by decide
  have hzeroOf : isZero 0 = true := by decide
  have hnanCanon : ∀ d, isnan (canonical d) = isnan d := by
    intro d
    unfold canonical
    cases h : isnan d
    · simp only [Bool.false_eq_true, if_false]
      split <;> assumption
    · simpa using hnanOf
  have hzeroCanon : ∀ d, isnan d = false → isZero (canonical d) = isZero d := by
    intro d h
    rw [canonical, h]
    cases hz : isZero d <;> simp [hz, hzeroOf]
  cases h₁ : isnan d₁ <;> cases h₂ : isnan d₂
  · simp only [Bool.or_self, Bool.false_eq_true, if_false, feq, h₁, h₂, Bool.not_false,
      Bool.true_and, Bool.or_eq_true, beq_iff_eq, Bool.and_eq_true]
    constructor
    · intro h
      have hz := congrArg isZero h
      rw [hzeroCanon _ h₁, hzeroCanon _ h₂] at hz
      cases hz₁ : isZero d₁
      · rw [canonical, canonical, h₁, h₂, ← hz, hz₁] at h
        exact .inl h
      · exact .inr ⟨rfl, hz ▸ hz₁⟩
    · rintro (rfl | ⟨hz₁, hz₂⟩)
      · rfl
      · simp [canonical, h₁, h₂, hz₁, hz₂]
  · have hne : canonical d₁ ≠ canonical d₂ := fun h => by
      have hn := congrArg isnan h
      rw [hnanCanon, hnanCanon, h₁, h₂] at hn
      cases hn
    simp [hne]
  · have hne : canonical d₁ ≠ canonical d₂ := fun h => by
      have hn := congrArg isnan h
      rw [hnanCanon, hnanCanon, h₁, h₂] at hn
      cases hn
    simp [hne]
  · simp [canonical, h₁, h₂]

end QuickJs.Double
