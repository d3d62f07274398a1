import QuickJs.StorageValue

/-!
# Conversion to a 32-bit integer

A finite double is a significand times a power of two. The conversion reads both off the pattern: a number below
`2 ^ 31` is cut off by the processor, the significand of a larger one is shifted in 64 bits so that the upper half is the
integer part modulo `2 ^ 32`.
-/

namespace QuickJs.Double

open Rounding

/-! ## The number of a pattern -/

/-- The exponent field. -/
def exponent (d : UInt64) : ℕ := magnitude d / 2 ^ 52

/-- The fraction field. -/
def fraction (d : UInt64) : ℕ := magnitude d % 2 ^ 52

/-- The distance from zero of a finite number; the least exponent has no hidden bit. -/
def distance (d : UInt64) : ℚ :=
  if exponent d = 0 then fraction d / 2 ^ 1074 else ((2 ^ 52 + fraction d : ℕ) : ℚ) * 2 ^ exponent d / 2 ^ 1075

/-- The number that a pattern stands for. -/
def value (d : UInt64) : Number :=
  if exponent d = 2047 then .nan else .finite (if d.toNat < 2 ^ 63 then distance d else -distance d)

/-- The integer part of the distance: that of the significand, shifted by its exponent. -/
def integerPart (d : UInt64) : ℕ := (2 ^ 52 + fraction d) * 2 ^ exponent d / 2 ^ 1075

/-! ## The conversion -/

/-- The number types. -/
inductive Num
  | int (n : Int32)
  | float64 (d : UInt64)

/-- A value: a number, a big float, or what `JS_ToNumberFree` makes a number of. -/
inductive Val (α β : Type*)
  | num (n : Num)
  | bigFloat (n : β)
  | other (v : α)

/-- The branch `JS_TAG_FLOAT64`. The negation and the conversions to `int32_t` wrap. -/
def float64ToInt32 (d : UInt64) : Int32 :=
  let e := d >>> 52 &&& 0x7ff
  if e ≤ 1023 + 30 then StoredValue.toInt32 d
  else if e ≤ 1023 + 30 + 53 then
    let v := (d &&& (((1 : UInt64) <<< (52 : UInt64)) - 1)) ||| ((1 : UInt64) <<< (52 : UInt64))
    let v := v <<< (e - 1023 - 52 + 32)
    let ret := (v >>> 32).toUInt32.toInt32
    if d >>> 63 ≠ 0 then -ret else ret
  else 0

/-- The least number is its own negation. -/
example : float64ToInt32 0xC1E0000000000000 = Int32.minValue := by decide

variable {α β : Type*}

/-- The cases of `JS_ToInt32Free` for a number. -/
def Num.toInt32 : Num → Int32
  | .int n => n
  | .float64 d => float64ToInt32 d

/-- `JS_ToInt32Free`: the status and `*pres`; `JS_ToNumberFree` and `bf_get_int32` are given. -/
def jsToInt32Free (jsToNumberFree : α → Option Num) (bfGetInt32 : β → Int32) : Val α β → ℤ × Int32
  | .num n => (0, n.toInt32)
  | .bigFloat n => (0, bfGetInt32 n)
  | .other v =>
    match jsToNumberFree v with
    | none => (-1, 0)
    | some n => (0, n.toInt32)

/-! ## Bits -/

theorem exponent_bits (d : UInt64) : (d >>> 52 &&& 0x7ff).toNat = exponent d := by
  have hshift : (d >>> 52).toNat = d.toNat / 2 ^ 52 := by
    rw [UInt64.toNat_shiftRight, Nat.shiftRight_eq_div_pow]
    rfl
  rw [UInt64.toNat_and, show (0x7ff : UInt64).toNat = 2 ^ 11 - 1 from rfl, Nat.and_two_pow_sub_one_eq_mod,
    exponent, magnitude]
  omega

/-- The fraction with the hidden bit. -/
theorem significand_bits (d : UInt64) : ((d &&& (((1 : UInt64) <<< (52 : UInt64)) - 1)) ||| ((1 : UInt64) <<< (52 : UInt64))).toNat = 2 ^ 52 + fraction d := by
  have hmask : (((1 : UInt64) <<< (52 : UInt64)) - 1).toNat = 2 ^ 52 - 1 := by decide
  have hbit : ((1 : UInt64) <<< (52 : UInt64)).toNat = 2 ^ 52 * 1 := by decide
  have hlt : d.toNat % 2 ^ 52 < 2 ^ 52 := Nat.mod_lt _ (by decide)
  rw [UInt64.toNat_or, UInt64.toNat_and, hmask, hbit, Nat.and_two_pow_sub_one_eq_mod, Nat.or_comm,
    ← Nat.two_pow_add_eq_or_of_lt hlt, fraction, magnitude]
  omega

theorem sign_bit (d : UInt64) : d >>> 63 ≠ 0 ↔ ¬d.toNat < 2 ^ 63 := by
  have hshift : (d >>> 63).toNat = d.toNat / 2 ^ 63 := by
    rw [UInt64.toNat_shiftRight, Nat.shiftRight_eq_div_pow]
    rfl
  rw [ne_eq, ← UInt64.toNat_inj, UInt64.toNat_zero]
  omega

variable {v k d : UInt64}

/-- The upper half of a word that is shifted is the part above it modulo `2 ^ 32`. -/
theorem toNat_shiftLeft_shiftRight (hk : k.toNat < 64) :
    ((v <<< k) >>> 32).toNat = v.toNat * 2 ^ k.toNat / 2 ^ 32 % 2 ^ 32 := by
  rw [UInt64.toNat_shiftRight, UInt64.toNat_shiftLeft, Nat.mod_eq_of_lt hk, Nat.shiftLeft_eq,
    Nat.shiftRight_eq_div_pow]
  exact Nat.mod_mul_right_div_self _ (2 ^ 32) (2 ^ 32)

/-! ## Integer parts -/

theorem trunc_neg (q : ℚ) : trunc (-q) = -trunc q := by
  rcases lt_trichotomy q 0 with hq | rfl | hq
  · rw [trunc, trunc, if_pos (by linarith), if_neg (by linarith), Int.floor_neg]
  · rfl
  · rw [trunc, trunc, if_neg (by linarith), if_pos hq.le, Int.ceil_neg]

theorem trunc_natCast_div (n m : ℕ) : trunc ((n : ℚ) / m) = (n / m : ℕ) := by
  rw [trunc, if_pos (by positivity), Rat.floor_natCast_div_natCast]
  rfl

theorem fraction_lt_two_pow (d : UInt64) : fraction d < 2 ^ 52 := Nat.mod_lt _ (Nat.two_pow_pos 52)

theorem trunc_distance (d : UInt64) : trunc (distance d) = integerPart d := by
  have hfrac := fraction_lt_two_pow d
  rw [distance, integerPart]
  split
  · rename_i h0
    -- Neither the fraction nor the bit that is not there reaches one.
    have hleast : fraction d < 2 ^ 1074 := hfrac.trans_le (Nat.pow_le_pow_right Nat.two_pos (by omega))
    have hhidden : (2 ^ 52 + fraction d) * 2 ^ exponent d < 2 ^ 1075 := by
      rw [h0, Nat.pow_zero, Nat.mul_one]
      calc 2 ^ 52 + fraction d < 2 ^ 53 := by omega
        _ ≤ 2 ^ 1075 := Nat.pow_le_pow_right Nat.two_pos (by omega)
    have htrunc := trunc_natCast_div (fraction d) (2 ^ 1074)
    rw [Nat.div_eq_of_lt hleast, Nat.cast_pow, Nat.cast_ofNat] at htrunc
    rw [htrunc, Nat.div_eq_of_lt hhidden]
  · have htrunc := trunc_natCast_div ((2 ^ 52 + fraction d) * 2 ^ exponent d) (2 ^ 1075)
    rwa [Nat.cast_mul, Nat.cast_pow, Nat.cast_pow, Nat.cast_ofNat] at htrunc

/-! ## The ranges -/

theorem two_pow_split {a b n : ℕ} (h : a + b = n) : (2 : ℕ) ^ n = 2 ^ a * 2 ^ b := by rw [← h, Nat.pow_add]

theorem ofNat_mod (n : ℕ) : Int32.ofNat (n % 2 ^ 32) = Int32.ofNat n := by
  apply Int32.toBitVec_inj.mp
  exact BitVec.eq_of_toNat_eq (by simp)

/-- A number below `2 ^ 31` is cut off. -/
theorem toInt32_of_le (he : exponent d ≤ 1053) :
    StoredValue.toInt32 d = if d.toNat < 2 ^ 63 then .ofNat (integerPart d) else -.ofNat (integerPart d) := by
  have hpow : (2 : ℕ) ^ 1075 = 2 ^ (1075 - exponent d) * 2 ^ exponent d := two_pow_split (by omega)
  have hpart : integerPart d = (2 ^ 52 + fraction d) / 2 ^ (1075 - exponent d) := by
    rw [integerPart, hpow, Nat.mul_div_mul_right _ _ (Nat.two_pow_pos _)]
  rw [StoredValue.toInt32, if_neg (show ¬1054 ≤ magnitude d / 2 ^ 52 by rw [exponent] at he; omega), hpart]
  rfl

/-- The upper half of the shifted significand is the integer part modulo `2 ^ 32`. -/
theorem ofNat_shifted (hv : v.toNat = 2 ^ 52 + fraction d) (hk : k.toNat + 1043 = exponent d)
    (hlt : k.toNat < 64) : ((v <<< k) >>> 32).toUInt32.toInt32 = Int32.ofNat (integerPart d) := by
  have hpow : (2 : ℕ) ^ 1075 = 2 ^ 32 * 2 ^ 1043 := two_pow_split (by omega)
  have hpart : integerPart d = (2 ^ 52 + fraction d) * 2 ^ k.toNat / 2 ^ 32 := by
    rw [integerPart, ← hk, Nat.pow_add, ← Nat.mul_assoc, hpow, Nat.mul_div_mul_right _ _ (Nat.two_pow_pos _)]
  rw [hpart, ← ofNat_mod, ← hv, ← toNat_shiftLeft_shiftRight hlt]
  rfl

/-- From `2 ^ 84` on a double is a multiple of `2 ^ 32`. -/
theorem ofNat_integerPart_of_lt (he : 1106 < exponent d) : Int32.ofNat (integerPart d) = 0 := by
  have hpart : integerPart d = 2 ^ 32 * ((2 ^ 52 + fraction d) * 2 ^ (exponent d - 1107)) := by
    have hpow : (2 : ℕ) ^ exponent d = 2 ^ 32 * 2 ^ (exponent d - 1107) * 2 ^ 1075 := by
      rw [← Nat.pow_add, ← Nat.pow_add]
      congr 1
      omega
    rw [integerPart, hpow, ← Nat.mul_assoc, Nat.mul_div_cancel _ (Nat.two_pow_pos _), Nat.mul_left_comm]
  rw [hpart, ← ofNat_mod, Nat.mul_mod_right]
  rfl

theorem float64ToInt32_eq (d : UInt64) :
    float64ToInt32 d = if d.toNat < 2 ^ 63 then .ofNat (integerPart d) else -.ofNat (integerPart d) := by
  have hbits := exponent_bits d
  have hlow : d >>> 52 &&& 0x7ff ≤ 1023 + 30 ↔ exponent d ≤ 1053 := by
    rw [UInt64.le_iff_toNat_le, hbits]
    rfl
  have hmid : d >>> 52 &&& 0x7ff ≤ 1023 + 30 + 53 ↔ exponent d ≤ 1106 := by
    rw [UInt64.le_iff_toNat_le, hbits]
    rfl
  rw [float64ToInt32]
  split
  · rename_i he
    exact toInt32_of_le (hlow.mp he)
  split
  · rename_i hnot he
    have hge : 1053 < exponent d := Nat.lt_of_not_le fun hle => hnot (hlow.mpr hle)
    have hle := hmid.mp he
    have hk : ((d >>> 52 &&& 0x7ff) - 1023 - 52 + 32).toNat + 1043 = exponent d := by
      rw [UInt64.toNat_add, UInt64.toNat_sub, UInt64.toNat_sub]
      simp only [UInt64.reduceToNat]
      omega
    dsimp only
    rw [ofNat_shifted (significand_bits d) hk (by omega)]
    by_cases hsign : d.toNat < 2 ^ 63
    · rw [if_neg (fun hne => (sign_bit d).mp hne hsign), if_pos hsign]
    · rw [if_pos ((sign_bit d).mpr hsign), if_neg hsign]
  · rename_i hnot
    have hlt : 1106 < exponent d := Nat.lt_of_not_le fun hle => hnot (hmid.mpr hle)
    rw [ofNat_integerPart_of_lt hlt, Int32.neg_zero, ite_self]

/-! ## The result -/

/-- A double becomes the representative of its integer part; NaN and the infinities become zero. -/
theorem jsToInt32Free_float64 {α β : Type} (jsToNumberFree : α → Option Num) (bfGetInt32 : β → Int32) (d : UInt64) :
    ∃ ret : Int32, jsToInt32Free jsToNumberFree bfGetInt32 (.num (.float64 d)) = (0, ret) ∧
      ret.toInt = match value d with
        | .nan => 0
        | .finite q => Int.bmod (trunc q) (2 ^ 32) := by
  refine ⟨float64ToInt32 d, rfl, ?_⟩
  rw [float64ToInt32_eq, value]
  by_cases he : exponent d = 2047
  · rw [if_pos he, ofNat_integerPart_of_lt (by omega), Int32.neg_zero, ite_self]
    rfl
  split
  · simp only [Int32.toInt_ofNat', trunc_distance, Nat.reducePow]
  · simp only [Int32.neg_ofNat, Int32.toInt_ofInt, trunc_neg, trunc_distance, Nat.reducePow]

end QuickJs.Double
