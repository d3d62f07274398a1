import Mathlib

/-!
# Numbers in limbs

A natural number as a row of words of `w` bits, the least significant word first; the words of such a row at any bit
position, also before its first bit and after its last; the sum of two rows word by word with a carry, and the
comparison of two rows from the top.
-/

namespace QuickJs.Limbs

variable {w : ℕ}

/-- The number whose limbs are `f 0, …, f (n - 1)`. -/
def value (f : ℕ → BitVec w) : ℕ → ℕ
  | 0 => 0
  | n + 1 => value f n + (f n).toNat * 2 ^ (w * n)

/-- The number that is in a list of limbs. -/
def toNat (tab : List (BitVec w)) : ℕ :=
  value (fun i => tab.getD i 0) tab.length

/-- The limb at an index, which is zero outside of the list. -/
def limb (tab : List (BitVec w)) (i : ℤ) : BitVec w :=
  if i < 0 then 0 else tab.getD i.toNat 0

/-- The bit at a position. -/
def bit (tab : List (BitVec w)) (p : ℤ) : Bool :=
  (limb tab (p / w)).getLsbD (p % w).toNat

/-- The `w` bits from a position on. -/
def getBits (tab : List (BitVec w)) (p : ℤ) : BitVec w :=
  let i := p / w
  let q := (p % w).toNat
  let a0 := limb tab i
  if q = 0 then a0
  else
    let a1 := limb tab (i + 1)
    a0 >>> q ||| a1 <<< (w - q)

/-- A number moved down by `p` bits, or up where `p` is negative. -/
def shift (n : ℕ) (p : ℤ) : ℕ :=
  n * 2 ^ (-p).toNat / 2 ^ p.toNat

/-! ### The number of a row -/

variable {f g : ℕ → BitVec w} {n : ℕ}

theorem value_lt (f : ℕ → BitVec w) (n : ℕ) : value f n < 2 ^ (w * n) := by
  induction n with
  | zero => simp [value]
  | succ n ih =>
    have hf := (f n).isLt
    calc value f n + (f n).toNat * 2 ^ (w * n)
      _ < 2 ^ (w * n) + (f n).toNat * 2 ^ (w * n) := by omega
      _ = ((f n).toNat + 1) * 2 ^ (w * n) := by ring
      _ ≤ 2 ^ w * 2 ^ (w * n) := Nat.mul_le_mul_right _ hf
      _ = 2 ^ (w * (n + 1)) := by rw [← Nat.pow_add]; ring_nf

theorem value_congr (h : ∀ i < n, f i = g i) : value f n = value g n := by
  induction n with
  | zero => rfl
  | succ n ih => rw [value, value, ih fun i hi => h i (by omega), h n (by omega)]

theorem toNat_lt (tab : List (BitVec w)) : toNat tab < 2 ^ (w * tab.length) := value_lt _ _

/-- A list that is built limb by limb. -/
theorem toNat_map_range (f : ℕ → BitVec w) (n : ℕ) : toNat ((List.range n).map f) = value f n := by
  unfold toNat
  rw [List.length_map, List.length_range]
  apply value_congr
  intro i hi
  simp [hi]

/-- The lower limbs and the upper ones. -/
theorem value_add (f : ℕ → BitVec w) (m n : ℕ) :
    value f (m + n) = value f m + 2 ^ (w * m) * value (fun i => f (m + i)) n := by
  induction n with
  | zero => simp [value]
  | succ n ih =>
    rw [← Nat.add_assoc, value, value, ih]
    ring

theorem toNat_append (xs ys : List (BitVec w)) : toNat (xs ++ ys) = toNat xs + 2 ^ (w * xs.length) * toNat ys := by
  unfold toNat
  rw [List.length_append, value_add]
  congr 1
  · apply value_congr
    intro i hi
    simp [List.getElem?_append_left hi]
  · congr 1
    simp [List.getElem?_append_right]

@[simp] theorem toNat_nil : toNat ([] : List (BitVec w)) = 0 := rfl

@[simp] theorem toNat_singleton (x : BitVec w) : toNat [x] = x.toNat := by simp [toNat, value]

theorem toNat_cons (x : BitVec w) (xs : List (BitVec w)) : toNat (x :: xs) = x.toNat + 2 ^ w * toNat xs := by
  have h := toNat_append [x] xs
  simpa using h

@[simp] theorem toNat_replicate_zero (n : ℕ) : toNat (List.replicate n 0#w) = 0 := by
  induction n with
  | zero => rfl
  | succ n ih => simp [List.replicate_succ, toNat_cons, ih]

/-- The row of the complements. -/
theorem value_not (f : ℕ → BitVec w) (n : ℕ) : value (fun i => ~~~f i) n + value f n = 2 ^ (w * n) - 1 := by
  induction n with
  | zero => simp [value]
  | succ n ih =>
    have hp := Nat.two_pow_pos (w * n)
    have hle : 2 ^ (w * n) ≤ 2 ^ w * 2 ^ (w * n) := Nat.le_mul_of_pos_left _ (Nat.two_pow_pos w)
    rw [value, value, BitVec.toNat_not, Nat.mul_succ, Nat.pow_add, Nat.mul_comm (2 ^ (w * n)) (2 ^ w)]
    have h : (2 ^ w - 1 - (f n).toNat) * 2 ^ (w * n) + (f n).toNat * 2 ^ (w * n) = 2 ^ w * 2 ^ (w * n) - 2 ^ (w * n) := by
      rw [← Nat.add_mul, show 2 ^ w - 1 - (f n).toNat + (f n).toNat = 2 ^ w - 1 by omega, Nat.sub_mul, Nat.one_mul]
    omega

/-! ### The comparison of two rows -/

/-- Where the rows differ first from the top. -/
def cmpLoop (f g : ℕ → BitVec w) : ℕ → ℤ
  | 0 => 0
  | i + 1 => if f i ≠ g i then if f i < g i then -1 else 1 else cmpLoop f g i

theorem cmpLoop_spec (f g : ℕ → BitVec w) (n : ℕ) :
    (cmpLoop f g n < 0 ↔ value f n < value g n) ∧ (cmpLoop f g n = 0 ↔ value f n = value g n) := by
  induction n with
  | zero => simp [cmpLoop, value]
  | succ n ih =>
    have hf := value_lt f n
    have hg := value_lt g n
    rw [cmpLoop, value, value]
    by_cases h : f n = g n
    · rw [if_neg (by simpa using h), h]
      constructor
      · omega
      · omega
    · have hne : (f n).toNat ≠ (g n).toNat := fun hn => h (BitVec.eq_of_toNat_eq hn)
      rw [if_pos h]
      by_cases hlt : f n < g n
      · have hm := Nat.mul_le_mul_right (2 ^ (w * n)) (Nat.succ_le_of_lt (BitVec.lt_def.1 hlt))
        rw [Nat.succ_mul] at hm
        rw [if_pos hlt]
        constructor
        · omega
        · omega
      · have hgt : (g n).toNat < (f n).toNat := by rw [BitVec.lt_def] at hlt; omega
        have hm := Nat.mul_le_mul_right (2 ^ (w * n)) (Nat.succ_le_of_lt hgt)
        rw [Nat.succ_mul] at hm
        rw [if_neg hlt]
        constructor
        · omega
        · omega

/-- Whether a sum of two words overflows can be seen by either of them. -/
theorem toNat_add_cases (x y : BitVec w) :
    (x + y < x ∧ x + y < y ∧ (x + y).toNat + 2 ^ w = x.toNat + y.toNat) ∨
      (¬ x + y < x ∧ ¬ x + y < y ∧ (x + y).toNat = x.toNat + y.toNat) := by
  simp only [BitVec.lt_def, BitVec.toNat_add]
  by_cases h : x.toNat + y.toNat < 2 ^ w
  · rw [Nat.mod_eq_of_lt h]
    omega
  · rw [Nat.mod_eq_sub_mod (by omega), Nat.mod_eq_of_lt (by omega)]
    omega

/-! ### A row without its zeros, and a row moved up -/

/-- The length of a row without the zeros at its top. -/
def topLen (f : ℕ → BitVec w) : ℕ → ℕ
  | 0 => 0
  | l + 1 => if f l = 0 then topLen f l else l + 1

/-- The row moved up by `s` bits; `v` is the limb below it. -/
def shiftLeft (s : ℕ) (v : BitVec w) : List (BitVec w) → List (BitVec w)
  | [] => []
  | a :: tab => (a <<< s ||| v >>> (w - s)) :: shiftLeft s a tab

theorem topLen_le (f : ℕ → BitVec w) (n : ℕ) : topLen f n ≤ n := by
  induction n with
  | zero => exact Nat.le_refl 0
  | succ n ih =>
    rw [topLen]
    split <;> omega

theorem value_topLen (f : ℕ → BitVec w) (n : ℕ) : value f (topLen f n) = value f n := by
  induction n with
  | zero => rfl
  | succ n ih =>
    rw [topLen]
    split <;> rename_i h
    · simp [value, h, ih]
    · rfl

theorem topLen_top {l : ℕ} (h : topLen f n = l + 1) : f l ≠ 0 := by
  induction n with
  | zero => exact absurd h (by simp [topLen])
  | succ n ih =>
    rw [topLen] at h
    split at h <;> rename_i h0
    · exact ih h
    · obtain rfl := Nat.succ.inj h
      exact h0

theorem length_shiftLeft (s : ℕ) (v : BitVec w) (tab : List (BitVec w)) : (shiftLeft s v tab).length = tab.length := by
  induction tab generalizing v with
  | nil => rfl
  | cons a tab ih => simp [shiftLeft, ih]

/-- The two halves of a limb that is moved do not overlap. -/
theorem toNat_shifted_or {s : ℕ} (hs : s ≤ w) (a v : BitVec w) :
    (a <<< s ||| v >>> (w - s)).toNat = a.toNat * 2 ^ s % 2 ^ w + v.toNat / 2 ^ (w - s) := by
  have hv : v.toNat / 2 ^ (w - s) < 2 ^ s := by
    rw [Nat.div_lt_iff_lt_mul (Nat.two_pow_pos _), ← Nat.pow_add, Nat.add_sub_cancel' hs]
    exact v.isLt
  rw [BitVec.toNat_or, BitVec.toNat_shiftLeft, BitVec.toNat_ushiftRight, Nat.shiftLeft_eq, Nat.shiftRight_eq_div_pow]
  conv_lhs => rw [show 2 ^ w = 2 ^ (w - s) * 2 ^ s by rw [← Nat.pow_add, Nat.sub_add_cancel hs], Nat.mul_mod_mul_right]
  rw [Nat.mul_comm, ← Nat.two_pow_add_eq_or_of_lt hv, Nat.mul_comm a.toNat, show 2 ^ w = 2 ^ s * 2 ^ (w - s) by
    rw [← Nat.pow_add, Nat.add_sub_cancel' hs], Nat.mul_mod_mul_left]

theorem toNat_shiftLeft {s : ℕ} (hs : s ≤ w) (v : BitVec w) (tab : List (BitVec w)) :
    toNat (shiftLeft s v tab) = (toNat tab * 2 ^ s + v.toNat / 2 ^ (w - s)) % 2 ^ (w * tab.length) := by
  induction tab generalizing v with
  | nil => simp [shiftLeft, Nat.mod_one]
  | cons a tab ih =>
    have hsplit : a.toNat * 2 ^ s = a.toNat * 2 ^ s % 2 ^ w + 2 ^ w * (a.toNat / 2 ^ (w - s)) := by
      conv_lhs => rw [← Nat.mod_add_div (a.toNat * 2 ^ s) (2 ^ w)]
      rw [show 2 ^ w = 2 ^ (w - s) * 2 ^ s by rw [← Nat.pow_add, Nat.sub_add_cancel hs],
        Nat.mul_div_mul_right _ _ (Nat.two_pow_pos s)]
    have hlow := (a <<< s ||| v >>> (w - s)).isLt
    rw [toNat_shifted_or hs] at hlow
    rw [shiftLeft, toNat_cons, toNat_cons, ih, toNat_shifted_or hs, List.length_cons, Nat.mul_succ, Nat.add_comm _ w,
      Nat.pow_add]
    have hsum : (a.toNat + 2 ^ w * toNat tab) * 2 ^ s + v.toNat / 2 ^ (w - s) =
        a.toNat * 2 ^ s % 2 ^ w + v.toNat / 2 ^ (w - s) + 2 ^ w * (toNat tab * 2 ^ s + a.toNat / 2 ^ (w - s)) := by
      linarith
    rw [hsum, Nat.mod_mul, Nat.add_mul_mod_self_left, Nat.mod_eq_of_lt hlow, Nat.add_mul_div_left _ _ (Nat.two_pow_pos w),
      Nat.div_eq_of_lt hlow, Nat.zero_add]

/-- The zeros at the bottom. -/
theorem toNat_dropWhile (tab : List (BitVec w)) :
    toNat tab = 2 ^ (w * (tab.length - (tab.dropWhile (· == 0)).length)) * toNat (tab.dropWhile (· == 0)) := by
  induction tab with
  | nil => simp
  | cons a tab ih =>
    by_cases h : a = 0
    · have hle := (List.dropWhile_suffix (· == 0) (l := tab)).length_le
      rw [List.dropWhile_cons_of_pos (by simpa using h), toNat_cons, h, ih, List.length_cons, Nat.succ_sub hle,
        Nat.mul_succ]
      simp
      ring
    · rw [List.dropWhile_cons_of_neg (by simpa using h)]
      simp

/-! ### Bits -/

theorem getBits_nil (p : ℤ) : getBits ([] : List (BitVec w)) p = 0 := by
  have h : ∀ i, limb ([] : List (BitVec w)) i = 0 := fun i => by
    unfold limb
    split <;> rfl
  unfold getBits
  simp [h]

theorem limb_natCast (tab : List (BitVec w)) (i : ℕ) : limb tab i = tab.getD i 0 := by
  unfold limb
  rw [if_neg (by omega), Int.toNat_natCast]

theorem limb_of_neg {tab : List (BitVec w)} {i : ℤ} (hi : i < 0) : limb tab i = 0 := if_pos hi

variable [NeZero w]

theorem testBit_value (f : ℕ → BitVec w) (n j : ℕ) :
    (value f n).testBit j = (decide (j < w * n) && (f (j / w)).getLsbD (j % w)) := by
  induction n with
  | zero => simp [value]
  | succ n ih =>
    have hw := NeZero.pos w
    rw [value, Nat.add_comm, Nat.mul_comm, Nat.testBit_two_pow_mul_add _ (value_lt f n), ih]
    by_cases hj : j < w * n
    · have hj' : j < w * (n + 1) := by rw [Nat.mul_succ]; omega
      simp [hj, hj']
    · simp only [hj]
      rw [BitVec.testBit_toNat]
      by_cases hj' : j < w * (n + 1)
      · obtain ⟨k, rfl⟩ := Nat.exists_eq_add_of_le (Nat.le_of_not_lt hj)
        have hk : k < w := by rw [Nat.mul_succ] at hj'; omega
        have h1 : (w * n + k) / w = n := by rw [Nat.mul_add_div hw, Nat.div_eq_of_lt hk, Nat.add_zero]
        have h2 : (w * n + k) % w = k := by rw [Nat.mul_add_mod, Nat.mod_eq_of_lt hk]
        simp [hj', h1, h2]
      · have hk : w ≤ j - w * n := by rw [Nat.mul_succ] at hj'; omega
        simp [hj', BitVec.getLsbD_of_ge _ _ hk]

theorem bit_natCast (tab : List (BitVec w)) (j : ℕ) : bit tab j = (toNat tab).testBit j := by
  unfold bit toNat
  rw [testBit_value, ← Int.natCast_ediv, ← Int.natCast_emod, limb_natCast, Int.toNat_natCast]
  by_cases hj : j < w * tab.length
  · simp [hj]
  · have hle : tab.length ≤ j / w := by
      rw [Nat.le_div_iff_mul_le (NeZero.pos w), Nat.mul_comm]
      omega
    simp [List.getElem?_eq_none hle]

theorem bit_of_neg {tab : List (BitVec w)} {p : ℤ} (hp : p < 0) : bit tab p = false := by
  unfold bit
  rw [limb_of_neg (Int.ediv_neg_of_neg_of_pos hp (by have := NeZero.pos w; omega))]
  simp

theorem getLsbD_getBits (tab : List (BitVec w)) (p : ℤ) {k : ℕ} (hk : k < w) :
    (getBits tab p).getLsbD k = bit tab (p + k) := by
  have hw : (0 : ℤ) < w := by have := NeZero.pos w; omega
  obtain ⟨q, hq⟩ := Int.eq_ofNat_of_zero_le (Int.emod_nonneg p hw.ne')
  have hlt : q < w := by have := Int.emod_lt_of_pos p hw; omega
  have hp := Int.mul_ediv_add_emod p w
  rw [hq] at hp
  unfold getBits bit
  simp only [hq, Int.toNat_natCast]
  generalize p / (w : ℤ) = i at hp ⊢
  -- is the bit in the limb of the first one, or in the next?
  by_cases hqk : q + k < w
  · have hdiv : (p + k) / (w : ℤ) = i := by
      rw [← hp, show w * i + q + k = (q + k : ℤ) + w * i by ring, Int.add_mul_ediv_left _ _ hw.ne',
        Int.ediv_eq_zero_of_lt (by omega) (by omega), Int.zero_add]
    have hmod : ((p + k) % (w : ℤ)).toNat = q + k := by
      rw [← hp, show w * i + q + k = (q + k : ℤ) + w * i by ring, Int.add_mul_emod_self_left,
        Int.emod_eq_of_lt (by omega) (by omega)]
      omega
    rw [hdiv, hmod]
    by_cases hq0 : q = 0
    · simp [hq0]
    · rw [if_neg hq0]
      simp [show k < w - q by omega]
  · have hq0 : q ≠ 0 := by omega
    have hdiv : (p + k) / (w : ℤ) = i + 1 := by
      rw [← hp, show w * i + q + k = (q + k - w : ℤ) + w * (i + 1) by ring, Int.add_mul_ediv_left _ _ hw.ne',
        Int.ediv_eq_zero_of_lt (by omega) (by omega), Int.zero_add]
    have hmod : ((p + k) % (w : ℤ)).toNat = q + k - w := by
      rw [← hp, show w * i + q + k = (q + k - w : ℤ) + w * (i + 1) by ring, Int.add_mul_emod_self_left,
        Int.emod_eq_of_lt (by omega) (by omega)]
      omega
    rw [hdiv, hmod, if_neg hq0, BitVec.getLsbD_or, BitVec.getLsbD_ushiftRight, BitVec.getLsbD_shiftLeft,
      BitVec.getLsbD_of_ge _ (q + k) (by omega)]
    simp [hk, show ¬ k < w - q by omega, show k - (w - q) = q + k - w by omega]

/-- A bit of a number that is moved. -/
theorem testBit_shift (tab : List (BitVec w)) (p : ℤ) (j : ℕ) : (shift (toNat tab) p).testBit j = bit tab (p + j) := by
  unfold shift
  rw [Nat.testBit_div_two_pow, Nat.testBit_mul_two_pow]
  by_cases hp : 0 ≤ p
  · rw [show p + j = ((j + p.toNat : ℕ) : ℤ) by omega, bit_natCast, show (-p).toNat = 0 by omega]
    simp
  · rw [show p.toNat = 0 by omega]
    by_cases hj : p + j < 0
    · rw [bit_of_neg hj]
      simp [show ¬ (-p).toNat ≤ j by omega]
    · rw [show p + j = ((j - (-p).toNat : ℕ) : ℤ) by omega, bit_natCast]
      simp [show (-p).toNat ≤ j by omega]

/-- The limbs that are read at one distance from each other are those of the number, moved. -/
theorem value_getBits (tab : List (BitVec w)) (p : ℤ) (n : ℕ) :
    value (fun i => getBits tab (p + w * i)) n = shift (toNat tab) p % 2 ^ (w * n) := by
  apply Nat.eq_of_testBit_eq
  intro j
  rw [testBit_value, Nat.testBit_mod_two_pow, testBit_shift, getLsbD_getBits _ _ (Nat.mod_lt _ (NeZero.pos w))]
  have h : p + w * (j / w : ℕ) + (j % w : ℕ) = p + j := by
    rw [Int.add_assoc]
    exact_mod_cast congrArg (fun i : ℕ => p + (i : ℤ)) (Nat.div_add_mod j w)
  rw [h]

/-- The limbs at whole distances are not split. -/
theorem getBits_mul (tab : List (BitVec w)) (k : ℤ) : getBits tab (w * k) = limb tab k := by
  have hw : (w : ℤ) ≠ 0 := by have := NeZero.pos w; omega
  unfold getBits
  simp [Int.mul_ediv_cancel_left _ hw]

theorem shift_neg (n k : ℕ) : shift n (-(k : ℤ)) = n * 2 ^ k := by
  unfold shift
  rw [neg_neg, Int.toNat_natCast, show (-(k : ℤ)).toNat = 0 by omega, Nat.pow_zero, Nat.div_one]

/-- A row with zeros below it, as long as another one. -/
theorem value_getBits_up (tab : List (BitVec w)) {k n : ℕ} (h : w * tab.length + k ≤ w * n) :
    value (fun i => getBits tab (-(k : ℤ) + w * i)) n = toNat tab * 2 ^ k := by
  rw [value_getBits, shift_neg, Nat.mod_eq_of_lt]
  calc toNat tab * 2 ^ k
    _ < 2 ^ (w * tab.length) * 2 ^ k := Nat.mul_lt_mul_of_pos_right (toNat_lt tab) (Nat.two_pow_pos k)
    _ = 2 ^ (w * tab.length + k) := (Nat.pow_add _ _ _).symm
    _ ≤ 2 ^ (w * n) := Nat.pow_le_pow_right Nat.two_pos h

theorem value_limb (tab : List (BitVec w)) {n : ℕ} (h : tab.length ≤ n) :
    value (fun i => limb tab (tab.length - n + i)) n = toNat tab * 2 ^ (w * (n - tab.length)) := by
  rw [← value_getBits_up tab (n := n) (by rw [← Nat.mul_add, Nat.add_sub_cancel' h])]
  apply value_congr
  intro i _
  rw [← getBits_mul]
  congr 1
  push_cast [Nat.cast_sub h]
  ring

/-! ### The sum of two rows -/

/-- One limb of a sum, and the carry out of it. -/
def addCarry (v1 v2 carry : BitVec w) : BitVec w × BitVec w :=
  let u := v1 + v2
  let carry1 := if u < v1 then 1 else 0
  let u := u + carry
  (u, (if u < carry then 1 else 0) ||| carry1)

/-- The first `n` limbs of a sum and the carry out of them; `c` is the carry into the lowest. -/
def addLoop (f g : ℕ → BitVec w) (c : BitVec w) : ℕ → List (BitVec w) × BitVec w
  | 0 => ([], c)
  | i + 1 =>
    let (tab, carry) := addLoop f g c i
    let (u, carry) := addCarry (f i) (g i) carry
    (tab ++ [u], carry)

/-- At most one of the two additions overflows. -/
theorem addCarry_spec (x y : BitVec w) {c : BitVec w} (hc : c.toNat ≤ 1) :
    (addCarry x y c).1.toNat + 2 ^ w * (addCarry x y c).2.toNat = x.toNat + y.toNat + c.toNat ∧
      (addCarry x y c).2.toNat ≤ 1 := by
  have hw : 1 < 2 ^ w := Nat.one_lt_two_pow (NeZero.ne w)
  have h0 : (0 : BitVec w).toNat = 0 := by simp
  have h1 : (1 : BitVec w).toNat = 1 := by simp [Nat.mod_eq_of_lt hw]
  unfold addCarry
  simp only [BitVec.toNat_or, apply_ite BitVec.toNat, h0, h1]
  obtain ⟨hxy, -, hs⟩ | ⟨hxy, -, hs⟩ := toNat_add_cases x y <;>
    obtain ⟨-, hu, ht⟩ | ⟨-, hu, ht⟩ := toNat_add_cases (x + y) c
  · omega
  · rw [if_pos hxy, if_neg hu, Nat.zero_or]
    omega
  · rw [if_neg hxy, if_pos hu, Nat.or_zero]
    omega
  · rw [if_neg hxy, if_neg hu, Nat.or_self]
    omega

theorem addLoop_spec (f g : ℕ → BitVec w) {c : BitVec w} (hc : c.toNat ≤ 1) (n : ℕ) :
    (addLoop f g c n).1.length = n ∧ (addLoop f g c n).2.toNat ≤ 1 ∧
      toNat (addLoop f g c n).1 + 2 ^ (w * n) * (addLoop f g c n).2.toNat = value f n + value g n + c.toNat := by
  induction n with
  | zero => simp [addLoop, value, hc]
  | succ n ih =>
    obtain ⟨hlen, hcn, hv⟩ := ih
    obtain ⟨hsum, hc'⟩ := addCarry_spec (f n) (g n) hcn
    simp only [addLoop]
    refine ⟨by simp [hlen], hc', ?_⟩
    rw [toNat_append, toNat_singleton, hlen, value, value, Nat.mul_succ, Nat.pow_add, Nat.mul_assoc, Nat.add_assoc,
      ← Nat.mul_add, hsum]
    linarith

end QuickJs.Limbs

/-!
## Two's complement

An integer is a natural number and a sign: the bits of a negative one are the complements of the bits of `-z - 1`.
Two integers with the same bits are equal, and the lowest bits of an integer are its remainder.
-/

namespace QuickJs.TwosComplement

/-- The number whose bits are those of `z`, or for a negative `z` their complements. -/
def natPart (z : ℤ) : ℕ := if z < 0 then (-z - 1).toNat else z.toNat

/-- The integer with this natural number and this sign. -/
def ofPart (neg : Bool) (n : ℕ) : ℤ := if neg then -n - 1 else n

theorem ofPart_natPart (z : ℤ) : ofPart (decide (z < 0)) (natPart z) = z := by
  unfold ofPart natPart
  by_cases h : z < 0
  · simp only [h, decide_true, if_true]
    omega
  · simp only [h, decide_false, if_false, Bool.false_eq_true]
    omega

theorem testBit_ofPart (neg : Bool) (n j : ℕ) : (ofPart neg n).testBit j = (n.testBit j ^^ neg) := by
  cases neg with
  | false => simp [ofPart, Int.testBit]
  | true =>
    have h : ofPart true n = Int.negSucc n := by
      simp [ofPart]
      omega
    rw [h]
    simp [Int.testBit]

theorem testBit_eq (z : ℤ) (j : ℕ) : z.testBit j = ((natPart z).testBit j ^^ decide (z < 0)) := by
  conv_lhs => rw [← ofPart_natPart z]
  exact testBit_ofPart _ _ _

/-- Bits that are far enough up show the sign. -/
theorem exists_testBit_eq_sign (z : ℤ) : ∃ k, ∀ j, k ≤ j → z.testBit j = decide (z < 0) := by
  refine ⟨natPart z, fun j hj => ?_⟩
  rw [testBit_eq, Nat.testBit_lt_two_pow (Nat.lt_of_le_of_lt hj Nat.lt_two_pow_self), Bool.false_xor]

theorem eq_of_testBit_eq {x y : ℤ} (h : ∀ j, x.testBit j = y.testBit j) : x = y := by
  have hs : decide (x < 0) = decide (y < 0) := by
    obtain ⟨k, hk⟩ := exists_testBit_eq_sign x
    obtain ⟨k', hk'⟩ := exists_testBit_eq_sign y
    rw [← hk (max k k') (Nat.le_max_left _ _), ← hk' (max k k') (Nat.le_max_right _ _), h]
  have hn : natPart x = natPart y := by
    apply Nat.eq_of_testBit_eq
    intro j
    have hj := h j
    rw [testBit_eq, testBit_eq, hs] at hj
    simpa using hj
  rw [← ofPart_natPart x, ← ofPart_natPart y, hs, hn]

/-- The lowest bits are the remainder. -/
theorem testBit_emod_two_pow (z : ℤ) (n j : ℕ) : (z % 2 ^ n).testBit j = (decide (j < n) && z.testBit j) := by
  have hp : 0 < 2 ^ n := Nat.two_pow_pos n
  rw [testBit_eq z]
  obtain ⟨m, hm⟩ | ⟨m, hm⟩ : (∃ m : ℕ, z = m) ∨ ∃ m : ℕ, z = -m - 1 := by
    by_cases h : z < 0
    · exact .inr ⟨(-z - 1).toNat, by omega⟩
    · exact .inl ⟨z.toNat, by omega⟩
  · subst hm
    have hneg : ¬ (m : ℤ) < 0 := by omega
    rw [decide_eq_false hneg, Bool.xor_false]
    exact Nat.testBit_mod_two_pow m n j
  · subst hm
    have hlt : m % 2 ^ n < 2 ^ n := Nat.mod_lt _ hp
    have h : (-(m : ℤ) - 1) % 2 ^ n = ((2 ^ n - (m % 2 ^ n + 1) : ℕ) : ℤ) := by
      have hdiv := Nat.div_add_mod m (2 ^ n)
      have hz : -(m : ℤ) - 1 = ((2 ^ n - (m % 2 ^ n + 1) : ℕ) : ℤ) + 2 ^ n * (-(m / 2 ^ n : ℕ) - 1) := by
        push_cast [Nat.cast_sub (show m % 2 ^ n + 1 ≤ 2 ^ n from hlt)]
        have : (m : ℤ) = 2 ^ n * ((m / 2 ^ n : ℕ) : ℤ) + ((m % 2 ^ n : ℕ) : ℤ) := by exact_mod_cast hdiv.symm
        push_cast at this
        linear_combination (-1 : ℤ) * this
      rw [hz, Int.add_mul_emod_self_left, Int.emod_eq_of_lt (by omega)]
      exact_mod_cast Nat.sub_lt hp (Nat.succ_pos _)
    have hpart : natPart (-(m : ℤ) - 1) = m := by
      unfold natPart
      rw [if_pos (by omega)]
      omega
    have hneg : -(m : ℤ) - 1 < 0 := by omega
    rw [h, hpart, decide_eq_true hneg]
    change Nat.testBit _ j = _
    rw [Nat.testBit_two_pow_sub_succ hlt, Nat.testBit_mod_two_pow]
    cases decide (j < n) <;> simp

end QuickJs.TwosComplement
