import Mathlib

/-!
# Rounding to double precision

The finite doubles are rational numbers. The result of an operation is the exact result, rounded to 53 bits; it is not
finite if it is too large. Integers of up to 53 bits are exact.
-/

namespace QuickJs.Rounding

/-- The nearest integer; of two that are as near, the even one. -/
def roundEven (q : ℚ) : ℤ :=
  if 2 * Int.fract q < 1 then ⌊q⌋
  else if 1 < 2 * Int.fract q then ⌊q⌋ + 1
  else if ⌊q⌋ % 2 = 0 then ⌊q⌋ else ⌊q⌋ + 1

/-- The exponent of the last bit of a double near a number. -/
def lastBit (q : ℚ) : ℤ := max (Int.log 2 |q| - 52) (-1074)

/-- The nearest double without a limit to the exponent. -/
def nearest (q : ℚ) : ℚ := roundEven (q / 2 ^ lastBit q) * 2 ^ lastBit q

/-- A double. The infinities are not told from NaN. -/
inductive Number
  | nan
  | finite (q : ℚ)
  deriving DecidableEq

/-- The double of an exact result. -/
def double (q : ℚ) : Number := if |nearest q| < 2 ^ 1024 then .finite (nearest q) else .nan

/-- The integer part. -/
def trunc (q : ℚ) : ℤ := if 0 ≤ q then ⌊q⌋ else ⌈q⌉

namespace Number

/-- An operation of finite doubles; NaN stays NaN. -/
def lift (f : ℚ → ℚ → ℚ) : Number → Number → Number
  | finite x, finite y => double (f x y)
  | _, _ => nan

instance : Add Number := ⟨lift (· + ·)⟩

instance : Sub Number := ⟨lift (· - ·)⟩

instance : Mul Number := ⟨lift (· * ·)⟩

/-- The quotient by a number that is not zero. -/
instance : Div Number := ⟨lift (· / ·)⟩

instance (n : ℕ) : OfNat Number n := ⟨finite n⟩

end Number

variable {q : ℚ} {n k m : ℤ}

theorem roundEven_intCast (n : ℤ) : roundEven n = n := by
  rw [roundEven, Int.floor_intCast, if_pos (by norm_num)]

/-- It is at most a half away. -/
theorem abs_roundEven_sub_le (q : ℚ) : |(roundEven q : ℚ) - q| ≤ 1 / 2 := by
  have hle := Int.fract_nonneg q
  have hlt := Int.fract_lt_one q
  have hsum := Int.floor_add_fract q
  rw [roundEven, abs_le]
  split_ifs <;> push_cast <;> constructor <;> linarith

/-- The error is at most a half of the last bit. -/
theorem abs_nearest_sub_le (q : ℚ) : |nearest q - q| ≤ 2 ^ lastBit q / 2 := by
  have hpos : (0 : ℚ) < 2 ^ lastBit q := zpow_pos two_pos _
  have herror := abs_roundEven_sub_le (q / 2 ^ lastBit q)
  have heq : nearest q - q = (roundEven (q / 2 ^ lastBit q) - q / 2 ^ lastBit q) * 2 ^ lastBit q := by
    rw [nearest, sub_mul, div_mul_cancel₀ _ hpos.ne']
  rw [heq, abs_mul, abs_of_pos hpos]
  calc |(roundEven (q / 2 ^ lastBit q) : ℚ) - q / 2 ^ lastBit q| * 2 ^ lastBit q
      ≤ 1 / 2 * 2 ^ lastBit q := mul_le_mul_of_nonneg_right herror hpos.le
    _ = 2 ^ lastBit q / 2 := by ring

/-- A number below a power of two has its last bit 53 bits lower. -/
theorem lastBit_le (h : |q| < 2 ^ k) (hk : -1021 ≤ k) (hq : q ≠ 0) : lastBit q ≤ k - 53 := by
  have hlog : Int.log 2 |q| < k := (Int.lt_zpow_iff_log_lt one_lt_two (abs_pos.mpr hq)).mp (by exact_mod_cast h)
  rw [lastBit]
  omega

/-! ## Exact results -/

theorem nearest_zero : nearest 0 = 0 := by
  rw [nearest, zero_div]
  have hzero : roundEven 0 = 0 := roundEven_intCast 0
  rw [hzero, Int.cast_zero, zero_mul]

/-- What is a multiple of the last bit stays as it is. -/
theorem nearest_mul_zpow (h : lastBit (m * 2 ^ k) ≤ k) : nearest (m * 2 ^ k) = m * 2 ^ k := by
  rw [nearest]
  generalize lastBit (m * 2 ^ k) = e at h
  obtain ⟨j, hj⟩ := Int.eq_ofNat_of_zero_le (Int.sub_nonneg_of_le h)
  have hpow : (2 : ℚ) ^ k = 2 ^ j * 2 ^ e := by
    rw [← zpow_natCast, ← zpow_add₀ two_ne_zero]
    congr 1
    omega
  have hquot : (m : ℚ) * 2 ^ k / 2 ^ e = (m * 2 ^ j : ℤ) := by
    rw [div_eq_iff (zpow_ne_zero _ two_ne_zero), hpow]
    push_cast
    ring
  rw [hquot, roundEven_intCast, hpow]
  push_cast
  ring

/-- A number of 53 bits is a double. -/
theorem nearest_of_bits (hm : |m| < 2 ^ 53) (hk : -1074 ≤ k) : nearest (m * 2 ^ k) = m * 2 ^ k := by
  by_cases hzero : m = 0
  · rw [hzero, Int.cast_zero, zero_mul, nearest_zero]
  refine nearest_mul_zpow (max_le ?_ hk)
  have hpos : (0 : ℚ) < |(m : ℚ) * 2 ^ k| := abs_pos.mpr (mul_ne_zero (Int.cast_ne_zero.mpr hzero) (zpow_ne_zero _ two_ne_zero))
  have hlt : |(m : ℚ) * 2 ^ k| < ((2 : ℕ) : ℚ) ^ (53 + k) := by
    have hpow : (0 : ℚ) < 2 ^ k := zpow_pos two_pos _
    rw [abs_mul, abs_of_pos hpow, Nat.cast_ofNat, zpow_add₀ two_ne_zero]
    refine mul_lt_mul_of_pos_right ?_ hpow
    exact_mod_cast hm
  have hlog := (Int.lt_zpow_iff_log_lt one_lt_two hpos).mp hlt
  omega

/-- Integers of 53 bits are doubles. -/
theorem nearest_intCast (h : |n| ≤ 2 ^ 53) : nearest n = n := by
  obtain hlt | heq := h.lt_or_eq
  · have hbits := nearest_of_bits (k := 0) hlt (by decide)
    rwa [zpow_zero, mul_one] at hbits
  · -- a power of two
    have hdvd : n = n / 2 * 2 ^ 1 := by
      obtain hn | hn := abs_choice n <;> omega
    have hbits : nearest ((n / 2 : ℤ) * 2 ^ (1 : ℤ)) = (n / 2 : ℤ) * 2 ^ (1 : ℤ) := by
      refine nearest_of_bits ?_ (by decide)
      obtain hn | hn := abs_choice n <;> rw [abs_lt] <;> omega
    have hcast : (n : ℚ) = (n / 2 : ℤ) * 2 ^ (1 : ℤ) := by
      conv_lhs => rw [hdvd]
      push_cast
      rfl
    rw [hcast]
    exact hbits

/-- The double of an integer is an integer. -/
theorem exists_nearest_intCast (n : ℤ) : ∃ m : ℤ, nearest n = m := by
  by_cases h : |n| ≤ 2 ^ 53
  · exact ⟨n, nearest_intCast h⟩
  · have hpos : (0 : ℚ) < |(n : ℚ)| := by
      rw [abs_pos, Int.cast_ne_zero]
      rintro rfl
      exact h (by decide)
    have hle : ((2 : ℕ) : ℚ) ^ (53 : ℤ) ≤ |(n : ℚ)| := by
      have hcast : (2 : ℚ) ^ 53 ≤ |(n : ℚ)| := by exact_mod_cast (not_le.mp h).le
      exact_mod_cast hcast
    have hlog := (Int.zpow_le_iff_le_log one_lt_two hpos).mp hle
    -- the last bit is not behind the point
    obtain ⟨k, hk⟩ : ∃ k : ℕ, lastBit n = k := Int.eq_ofNat_of_zero_le (by rw [lastBit]; omega)
    refine ⟨roundEven ((n : ℚ) / 2 ^ lastBit n) * 2 ^ k, ?_⟩
    rw [nearest, hk]
    push_cast
    rfl

theorem double_intCast (h : |n| ≤ 2 ^ 53) : double n = .finite n := by
  have hlarge : |(n : ℚ)| < 2 ^ 1024 := by
    have hcast : |(n : ℚ)| ≤ 2 ^ 53 := by exact_mod_cast h
    exact hcast.trans_lt (pow_lt_pow_right₀ one_lt_two (by norm_num))
  rw [double, nearest_intCast h, if_pos hlarge]

namespace Number

theorem add_intCast (h : |m + n| ≤ 2 ^ 53) : finite m + finite n = finite (m + n : ℤ) := by
  rw [← double_intCast h, Int.cast_add]
  rfl

theorem sub_intCast (h : |m - n| ≤ 2 ^ 53) : finite m - finite n = finite (m - n : ℤ) := by
  rw [← double_intCast h, Int.cast_sub]
  rfl

theorem mul_intCast (h : |m * n| ≤ 2 ^ 53) : finite m * finite n = finite (m * n : ℤ) := by
  rw [← double_intCast h, Int.cast_mul]
  rfl

end Number

/-- NaN, or an integer. -/
def Number.Integral (x : Number) : Prop := ∀ q, x = .finite q → ∃ n : ℤ, q = n

namespace Number

variable {x z : Number}

theorem integral_double (n : ℤ) : (double n).Integral := by
  intro q hq
  rw [double] at hq
  split at hq
  · cases hq
    exact exists_nearest_intCast n
  · cases hq

theorem integral_intCast (n : ℤ) : (finite n).Integral := fun _ hq => ⟨n, (Number.finite.inj hq).symm⟩

/-- Operations on integers give integers. -/
theorem Integral.lift {f : ℚ → ℚ → ℚ} (hf : ∀ m n : ℤ, ∃ k : ℤ, f m n = k) (hx : x.Integral) (hz : z.Integral) :
    (Number.lift f x z).Integral := by
  cases x with
  | nan => exact nofun
  | finite a =>
    cases z with
    | nan => exact nofun
    | finite b =>
      obtain ⟨m, rfl⟩ := hx a rfl
      obtain ⟨n, rfl⟩ := hz b rfl
      obtain ⟨k, hk⟩ := hf m n
      have hdouble : Number.lift f (finite m) (finite n) = double (f m n) := rfl
      rw [hdouble, hk]
      exact integral_double k

theorem Integral.add (hx : x.Integral) (hz : z.Integral) : (x + z).Integral :=
  hx.lift (fun m n => ⟨m + n, (Int.cast_add m n).symm⟩) hz

theorem Integral.sub (hx : x.Integral) (hz : z.Integral) : (x - z).Integral :=
  hx.lift (fun m n => ⟨m - n, (Int.cast_sub m n).symm⟩) hz

theorem Integral.mul (hx : x.Integral) (hz : z.Integral) : (x * z).Integral :=
  hx.lift (fun m n => ⟨m * n, (Int.cast_mul m n).symm⟩) hz

end Number

theorem trunc_intCast (n : ℤ) : trunc n = n := by
  rw [trunc, Int.floor_intCast, Int.ceil_intCast, ite_self]

end QuickJs.Rounding
