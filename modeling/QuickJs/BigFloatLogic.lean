import QuickJs.BigFloatAdd

/-!
# Bitwise operations on numbers of arbitrary precision

`bf_logic_op`: the limbs of both operands are read at the same positions; a negative operand is made the complement of
a number that is not negative before, and a negative result after.
-/

namespace QuickJs.BigFloat

open Limbs Requests TwosComplement

inductive LogicOp
  | or
  | xor
  | and
deriving DecidableEq, Repr

def bfLogicOp1 (a b : Limb) : LogicOp → Limb
  | .or => a ||| b
  | .xor => a ^^^ b
  | .and => a &&& b

/-- `bf_logic_op1` of two signs, and of two bits. -/
def logicBit (a b : Bool) : LogicOp → Bool
  | .or => a || b
  | .xor => a ^^ b
  | .and => a && b

/-- Minus zero is considered as positive. -/
def logicSign (a : Bf) : Bool := if a.expn ≤ 0 then false else a.sign

/-- What the limbs of an operand are read from: `-a - 1` without its sign where `a` is negative. -/
def logicOperand (a : Bf) : Asking (Bf × Status) :=
  if logicSign a then bfAddSi bfInit a 1 else pure (a, 0)

/-- The bits of the result, in limbs. -/
def logicLen (a b : Bf) (aSign bSign : Bool) (op : LogicOp) : ℕ :=
  let l :=
    if op = .and && !logicBit aSign bSign op then
      if !aSign && !bSign then min a.expn b.expn
      else if !aSign then a.expn
      else b.expn
    else max a.expn b.expn
  ((max l 1 + 63) / 64).toNat

def signMask (sign : Bool) : Limb := if sign then -1 else 0

def bfLogicOp (r a1 b1 : Bf) (op : LogicOp) : Asking (Bf × Status) := do
  let aSign := logicSign a1
  let bSign := logicSign b1
  let (a, ret) ← logicOperand a1
  if ret ≠ 0 then pure (bfSetNan, bfStMemError)
  else
    let (b, ret) ← logicOperand b1
    if ret ≠ 0 then pure (bfSetNan, bfStMemError)
    else
      let rSign := logicBit aSign bSign op
      let l := logicLen a b aSign bSign op
      match ← bfResize r l with
      | none => pure (bfSetNan, bfStMemError)
      | some _ =>
        let aBitOffset : ℤ := a.tab.length * 64 - a.expn
        let bBitOffset : ℤ := b.tab.length * 64 - b.expn
        let tab := (List.range l).map fun i : ℕ =>
          bfLogicOp1 (getBits a.tab (aBitOffset + (64 : ℕ) * i) ^^^ signMask aSign)
            (getBits b.tab (bBitOffset + (64 : ℕ) * i) ^^^ signMask bSign) op ^^^ signMask rSign
        let r := (bfNormalizeAndRound ⟨rSign, l * 64, tab⟩).1
        if rSign then
          let (r, ret) ← bfAddSi bfInit r (-1)
          if ret ≠ 0 then pure (bfSetNan, bfStMemError) else pure (r, 0)
        else pure (r, 0)

def bfLogicOr (r a b : Bf) : Asking (Bf × Status) := bfLogicOp r a b .or

def bfLogicXor (r a b : Bf) : Asking (Bf × Status) := bfLogicOp r a b .xor

def bfLogicAnd (r a b : Bf) : Asking (Bf × Status) := bfLogicOp r a b .and

/-! ### The operands -/

/-- The number is an integer. -/
structure Bf.IsInt (a : Bf) (z : ℤ) : Prop where
  normal : a.Normal
  val : a.val = z

variable {a b : Bf} {z x y : ℤ} {n : ℕ}

theorem Bf.IsInt.mag (h : a.IsInt z) : a.mag = z.natAbs := by
  rw [← a.abs_val, h.val, ← Int.cast_abs, Int.abs_eq_natAbs]
  rfl

theorem Bf.Normal.mag_pos (h : a.Normal) (ha : a.tab ≠ []) : 0 < a.mag := by
  obtain ⟨h0, -⟩ | ⟨n, hlen, htop, -, -⟩ := h.cases
  · exact absurd h0 ha
  · exact lt_of_lt_of_le (by positivity) (Bf.mag_bounds hlen htop).1

theorem Bf.Normal.mag_lt (h : a.Normal) : a.mag < 2 ^ a.expn := by
  obtain ⟨h0, -⟩ | ⟨n, hlen, htop, -, -⟩ := h.cases
  · rw [Bf.mag_of_nil h0]
    positivity
  · exact (Bf.mag_bounds hlen htop).2

theorem Bf.Normal.mag_lt_eMax (h : a.Normal) : a.mag < 2 ^ eMax := by
  obtain ⟨h0, -⟩ | ⟨n, hlen, htop, -, he⟩ := h.cases
  · rw [Bf.mag_of_nil h0]
    positivity
  · exact (Bf.mag_bounds hlen htop).2.trans_le (zpow_le_zpow_right₀ one_le_two he)

/-- The exponent of an integer is positive, if it is not zero. -/
theorem Bf.IsInt.expn_pos (h : a.IsInt z) (hz : z ≠ 0) : 0 < a.expn := by
  by_contra hle
  have hlt := h.normal.mag_lt
  have h1 : (2 : ℚ) ^ a.expn ≤ 2 ^ (0 : ℤ) := zpow_le_zpow_right₀ one_le_two (not_lt.1 hle)
  rw [h.mag] at *
  have h2 : (1 : ℚ) ≤ z.natAbs := by exact_mod_cast Int.natAbs_pos.2 hz
  linarith

theorem Bf.IsInt.tab_ne (h : a.IsInt z) (hz : z ≠ 0) : a.tab ≠ [] :=
  Exact.tab_ne (p := (a, 0)) ⟨rfl, h.normal, h.val⟩ (Int.cast_ne_zero.2 hz)

theorem logicSign_eq (h : a.IsInt z) : logicSign a = decide (z < 0) := by
  have hval := h.val
  unfold logicSign
  by_cases hz : z = 0
  · subst hz
    split
    · rfl
    · rename_i he
      obtain ⟨-, he'⟩ | ⟨n, hlen, htop, -, -⟩ := h.normal.cases
      · rw [he'] at he
        exact absurd (by decide) he
      · have h1 := (Bf.mag_bounds hlen htop).1
        rw [h.mag] at h1
        have h2 : (0 : ℚ) < 2 ^ (a.expn - 1) := by positivity
        simp at h1
        linarith
  · have hpos := h.normal.mag_pos (h.tab_ne hz)
    rw [if_neg (not_le.2 (h.expn_pos hz))]
    unfold Bf.val at hval
    cases hs : a.sign with
    | false =>
      rw [hs, if_neg (by simp)] at hval
      rw [hval] at hpos
      have : ¬ z < 0 := not_lt.2 (by exact_mod_cast hpos.le)
      simp [this]
    | true =>
      rw [hs, if_pos rfl] at hval
      have : (z : ℚ) < 0 := by rw [← hval]; linarith
      have : z < 0 := by exact_mod_cast this
      simp [this]

/-- Integers that are not too large are in the range. -/
theorem inRange_int (h : |(z : ℚ)| < 2 ^ eMax) : InRange z := by
  intro h0
  have hz : z ≠ 0 := fun hz => h0 (by rw [hz, Int.cast_zero])
  have h1 : (1 : ℚ) ≤ |(z : ℚ)| := by
    exact_mod_cast Int.one_le_abs hz
  refine ⟨le_trans ?_ h1, h⟩
  rw [← zpow_zero (2 : ℚ)]
  exact zpow_le_zpow_right₀ one_le_two (by decide)

theorem logicOperand_spec (h : a.IsInt z) :
    Spec (logicOperand a) (fun p => p.2 = 0 ∧ p.1.Normal ∧ p.1.mag = natPart z) fun p => p.2 ≠ 0 := by
  unfold logicOperand
  rw [logicSign_eq h]
  by_cases hz : z < 0
  · rw [if_pos (by simpa using hz)]
    have hr : InRange (a.val + (1 : ℤ)) := by
      rw [h.val, ← Int.cast_add]
      apply inRange_int
      refine lt_of_le_of_lt ?_ h.normal.mag_lt_eMax
      rw [h.mag, ← Int.cast_abs, Int.abs_eq_natAbs, Int.cast_natCast, Nat.cast_le]
      omega
    refine (bfAddSi_spec h.normal (h.tab_ne hz.ne) (by decide) (by decide) hr).mono ?_ ?_
    · rintro ⟨p, st⟩ ⟨rfl, hp, hv⟩
      refine ⟨rfl, hp, ?_⟩
      rw [h.val, ← Int.cast_add] at hv
      rw [Bf.IsInt.mag ⟨hp, hv⟩]
      unfold natPart
      rw [if_pos hz]
      congr 1
      omega
    · rintro ⟨p, st⟩ ⟨-, rfl⟩
      exact (by decide : bfStMemError ≠ 0)
  · rw [if_neg (by simpa using hz)]
    refine .pure ⟨rfl, h.normal, ?_⟩
    rw [h.mag]
    unfold natPart
    rw [if_neg hz]
    congr 1
    omega

/-! ### The result -/

/-- The integer that has the bits of the result. -/
def logicInt (x y : ℤ) : LogicOp → ℤ
  | .or => Int.lor x y
  | .xor => Int.xor x y
  | .and => Int.land x y

theorem testBit_logicInt (x y : ℤ) (op : LogicOp) (j : ℕ) :
    (logicInt x y op).testBit j = logicBit (x.testBit j) (y.testBit j) op := by
  cases op with
  | or => exact Int.testBit_lor x y j
  | xor => exact Int.testBit_lxor x y j
  | and => exact Int.testBit_land x y j

/-- The sign of the result is that of the operation on the signs. -/
theorem sign_logicInt (x y : ℤ) (op : LogicOp) :
    decide (logicInt x y op < 0) = logicBit (decide (x < 0)) (decide (y < 0)) op := by
  obtain ⟨k, hk⟩ := exists_testBit_eq_sign x
  obtain ⟨k', hk'⟩ := exists_testBit_eq_sign y
  obtain ⟨k'', hk''⟩ := exists_testBit_eq_sign (logicInt x y op)
  rw [← hk (k + k' + k'') (by omega), ← hk' (k + k' + k'') (by omega), ← hk'' (k + k' + k'') (by omega),
    testBit_logicInt]

theorem getLsbD_bfLogicOp1 (a b : Limb) (op : LogicOp) (k : ℕ) :
    (bfLogicOp1 a b op).getLsbD k = logicBit (a.getLsbD k) (b.getLsbD k) op := by
  cases op <;> simp [bfLogicOp1, logicBit]

theorem getLsbD_signMask (s : Bool) {k : ℕ} (hk : k < 64) : (signMask s).getLsbD k = s := by
  cases s with
  | false => simp [signMask]
  | true =>
    have h : signMask true = BitVec.allOnes 64 := rfl
    rw [h, BitVec.getLsbD_allOnes]
    simp [hk]

/-- The bits of an integer where the code reads them. -/
theorem bit_offset (h : a.mag = n) (j : ℕ) :
    bit a.tab ((a.tab.length * 64 - a.expn : ℤ) + j) = n.testBit j := by
  rw [← testBit_shift]
  congr 1
  unfold Bf.mag at h
  unfold shift
  by_cases he : 64 * (a.tab.length : ℤ) ≤ a.expn
  · obtain ⟨k, hk⟩ := Int.eq_ofNat_of_zero_le (Int.sub_nonneg.2 he)
    rw [hk] at h
    rw [show (-((a.tab.length : ℤ) * 64 - a.expn)).toNat = k by omega,
      show ((a.tab.length : ℤ) * 64 - a.expn).toNat = 0 by omega, Nat.pow_zero, Nat.div_one]
    exact_mod_cast h
  · obtain ⟨k, hk⟩ := Int.eq_ofNat_of_zero_le (Int.sub_nonneg.2 (le_of_not_ge he))
    rw [show a.expn - 64 * (a.tab.length : ℤ) = -(k : ℤ) by omega, zpow_neg, zpow_natCast] at h
    have hT : (toNat a.tab : ℚ) = n * 2 ^ k := by
      field_simp at h
      rw [h, mul_comm]
    rw [show (-((a.tab.length : ℤ) * 64 - a.expn)).toNat = 0 by omega,
      show ((a.tab.length : ℤ) * 64 - a.expn).toNat = k by omega, show toNat a.tab = n * 2 ^ k by exact_mod_cast hT,
      Nat.pow_zero, Nat.mul_one, Nat.mul_div_cancel _ (Nat.two_pow_pos k)]

/-- The bits of an integer above its exponent. -/
theorem testBit_of_expn_le {j : ℕ} (ha : a.Normal) (h : a.mag = n) (hj : a.expn ≤ j) :
    n.testBit j = false := by
  apply Nat.testBit_lt_two_pow
  have hlt := ha.mag_lt
  have hle : (2 : ℚ) ^ a.expn ≤ 2 ^ (j : ℤ) := zpow_le_zpow_right₀ one_le_two hj
  rw [h] at hlt
  exact_mod_cast hlt.trans_le hle

/-- Above the bits that are computed the result shows its sign. -/
theorem logicLen_spec {op : LogicOp} {j : ℕ} (ha : a.Normal) (hb : b.Normal)
    (hx : a.mag = natPart x) (hy : b.mag = natPart y)
    (hj : 64 * logicLen a b (decide (x < 0)) (decide (y < 0)) op ≤ j) :
    logicBit (x.testBit j) (y.testBit j) op = logicBit (decide (x < 0)) (decide (y < 0)) op := by
  rw [testBit_eq x, testBit_eq y]
  unfold logicLen at hj
  dsimp only at hj
  split at hj <;> rename_i hand
  · simp only [Bool.and_eq_true, decide_eq_true_eq, Bool.not_eq_true'] at hand
    obtain ⟨rfl, hs⟩ := hand
    rw [hs]
    split at hj <;> rename_i h
    · simp only [Bool.and_eq_true, Bool.not_eq_true'] at h
      rw [h.1, h.2, Bool.xor_false, Bool.xor_false]
      by_cases hmin : a.expn ≤ b.expn
      · rw [testBit_of_expn_le ha hx (by omega)]
        rfl
      · rw [testBit_of_expn_le hb hy (by omega), logicBit, Bool.and_false]
    · split at hj <;> rename_i h'
      · rw [testBit_of_expn_le ha hx (by omega), show decide (x < 0) = false by simpa using h']
        rfl
      · have hx' : decide (x < 0) = true := by simpa using h'
        have hy' : decide (y < 0) = false := by
          rw [hx'] at hs
          simpa [logicBit] using hs
        rw [testBit_of_expn_le hb hy (by omega), hy', logicBit, Bool.xor_false, Bool.and_false]
  · rw [testBit_of_expn_le ha hx (by omega), testBit_of_expn_le hb hy (by omega), Bool.false_xor, Bool.false_xor]

/-- The limbs of the result, without the sign. -/
theorem value_logic (op : LogicOp) (ha : a.Normal) (hb : b.Normal) (hx : a.mag = natPart x)
    (hy : b.mag = natPart y) :
    let sx := decide (x < 0)
    let sy := decide (y < 0)
    value (fun i =>
      bfLogicOp1 (getBits a.tab ((a.tab.length * 64 - a.expn : ℤ) + (64 : ℕ) * i) ^^^ signMask sx)
        (getBits b.tab ((b.tab.length * 64 - b.expn : ℤ) + (64 : ℕ) * i) ^^^ signMask sy) op ^^^
          signMask (logicBit sx sy op)) (logicLen a b sx sy op) = natPart (logicInt x y op) := by
  intro sx sy
  apply Nat.eq_of_testBit_eq
  intro j
  have hz := testBit_eq (logicInt x y op) j
  rw [testBit_logicInt, sign_logicInt] at hz
  rw [testBit_value]
  by_cases hj : j < 64 * logicLen a b sx sy op
  · have hmod : j % 64 < 64 := Nat.mod_lt _ (by decide)
    have hpos : ∀ e : ℤ, e + (64 : ℕ) * ((j / 64 : ℕ) : ℤ) + ((j % 64 : ℕ) : ℤ) = e + j := by
      omega
    rw [decide_eq_true hj, Bool.true_and, BitVec.getLsbD_xor, getLsbD_bfLogicOp1, BitVec.getLsbD_xor,
      BitVec.getLsbD_xor, getLsbD_getBits _ _ hmod, getLsbD_getBits _ _ hmod, hpos, hpos, bit_offset hx, bit_offset hy,
      getLsbD_signMask _ hmod, getLsbD_signMask _ hmod, getLsbD_signMask _ hmod, ← testBit_eq x, ← testBit_eq y, hz,
      Bool.xor_assoc, Bool.xor_self, Bool.xor_false]
  · rw [decide_eq_false hj]
    rw [logicLen_spec ha hb hx hy (not_lt.1 hj)] at hz
    cases h : (natPart (logicInt x y op)).testBit j with
    | false => rfl
    | true =>
      rw [h] at hz
      cases hs : logicBit (decide (x < 0)) (decide (y < 0)) op <;> rw [hs] at hz <;> simp at hz

/-- A number of limbs for which there is room is in the range, and so is the next one. -/
theorem lt_eMax {l : ℕ} (hn : n ≤ 2 ^ (64 * l)) (hl : l < limbsMax) : (n : ℚ) < 2 ^ eMax := by
  have h1 : (n : ℚ) ≤ 2 ^ ((64 * l : ℕ) : ℤ) := by
    exact_mod_cast hn
  refine h1.trans_lt (zpow_lt_zpow_right₀ one_lt_two ?_)
  unfold limbsMax at hl
  unfold eMax
  omega

/-- What is left of `bf_logic_op` with the limbs. -/
theorem logic_finish {tab : List Limb} {l : ℕ} (hl : l < limbsMax) (hlen : tab.length = l)
    (htab : toNat tab = natPart z) :
    Spec (let r := (bfNormalizeAndRound ⟨decide (z < 0), l * 64, tab⟩).1
        if decide (z < 0) then do
          let (r, ret) ← bfAddSi bfInit r (-1)
          if ret ≠ 0 then pure (bfSetNan, bfStMemError) else pure (r, 0)
        else (pure (r, 0) : Asking (Bf × Status)))
      (fun p => p.2 = 0 ∧ p.1.IsInt z) fun p => Refused p ∨ z = -1 ∧ ∃ t, p = (bfSetZero t, 0) := by
  have hlt : natPart z < 2 ^ (64 * l) := by
    rw [← htab, ← hlen]
    exact toNat_lt tab
  have hmag : (⟨decide (z < 0), l * 64, tab⟩ : Bf).mag = natPart z := by
    unfold Bf.mag
    rw [htab, hlen]
    simp [mul_comm]
  have hrange : InRange ((natPart z : ℕ) : ℚ) := by
    have h := inRange_int (z := natPart z) (by
      rw [Int.cast_natCast, Nat.abs_cast]
      exact lt_eMax hlt.le hl)
    exact_mod_cast h
  have hnorm := normalize_of_mag hmag hrange
  by_cases hz : z < 0
  · rw [if_pos (by simpa using hz)]
    rw [show signed (decide (z < 0)) ((natPart z : ℕ) : ℚ) = ((z + 1 : ℤ) : ℚ) by
      unfold natPart signed
      rw [decide_eq_true hz, if_pos rfl, if_pos hz, ← Int.cast_natCast, Int.toNat_of_nonneg (by omega)]
      push_cast
      ring] at hnorm
    have hz1 : InRange ((z : ℤ) : ℚ) := inRange_int (by
      rw [← Int.cast_abs, Int.abs_eq_natAbs]
      refine lt_eMax (l := l) ?_ hl
      unfold natPart at hlt
      rw [if_pos hz] at hlt
      omega)
    by_cases h1 : z = -1
    · -- the number that is complemented is zero
      subst h1
      have h0 : toNat tab = 0 := htab
      rw [bfNormalizeAndRound_zero (r := ⟨decide ((-1 : ℤ) < 0), l * 64, tab⟩) h0]
      refine .bind (bfAddSi_zero (by decide) (by decide) hz1) ?_ ?_
      · rintro ⟨p, st⟩ ⟨rfl, hp, hv⟩
        exact .pure ⟨rfl, hp, hv⟩
      · rintro ⟨p, st⟩ (⟨-, rfl⟩ | ⟨t, h⟩)
        · exact .pure (.inl ⟨rfl, rfl⟩)
        · obtain ⟨rfl, rfl⟩ := Prod.mk.inj h
          exact .pure (.inr ⟨rfl, t, rfl⟩)
    · obtain ⟨-, hn, hv⟩ := hnorm
      have hne := Bf.IsInt.tab_ne ⟨hn, hv⟩ (by omega)
      have hsum : (bfNormalizeAndRound ⟨decide (z < 0), l * 64, tab⟩).1.val + ((-1 : ℤ) : ℚ) = z := by
        rw [hv]
        push_cast
        ring
      have h := bfAddSi_spec (r := bfInit) hn hne (n := -1) (by decide) (by decide) (by rw [hsum]; exact hz1)
      rw [hsum] at h
      refine .bind h ?_ ?_
      · rintro ⟨p, st⟩ ⟨rfl, hp, hv⟩
        exact .pure ⟨rfl, hp, hv⟩
      · rintro ⟨p, st⟩ ⟨-, rfl⟩
        exact .pure (.inl ⟨rfl, rfl⟩)
  · rw [if_neg (by simpa using hz)]
    obtain ⟨-, hn, hv⟩ := hnorm
    refine .pure ⟨rfl, hn, ?_⟩
    rw [hv]
    unfold natPart signed
    rw [decide_eq_false hz, if_neg hz]
    exact_mod_cast Int.toNat_of_nonneg (not_lt.1 hz)

theorem bfLogicOp_spec {r : Bf} (op : LogicOp) (hr : r.tab.length < limbsMax) (ha : a.IsInt x)
    (hb : b.IsInt y) :
    Spec (bfLogicOp r a b op) (fun p => p.2 = 0 ∧ p.1.IsInt (logicInt x y op)) fun p =>
      Refused p ∨ logicInt x y op = -1 ∧ ∃ t, p = (bfSetZero t, 0) := by
  unfold bfLogicOp
  rw [logicSign_eq ha, logicSign_eq hb]
  refine .bind (logicOperand_spec ha) ?_ ?_
  · rintro ⟨a', st⟩ ⟨rfl, han, hax⟩
    simp only
    refine .bind (logicOperand_spec hb) ?_ ?_
    · rintro ⟨b', st⟩ ⟨rfl, hbn, hby⟩
      simp only
      refine .bind (bfResize_spec r _) ?_ ?_
      · rintro _ ⟨r', rfl, hl⟩
        have hv := value_logic op han hbn hax hby
        have hs := sign_logicInt x y op
        dsimp only at hv ⊢
        rw [← toNat_map_range] at hv
        rw [← hs] at hv ⊢
        exact logic_finish (by omega) (by simp) hv
      · rintro _ rfl
        exact .pure (.inl ⟨rfl, rfl⟩)
    · rintro ⟨b', st⟩ h
      rw [if_pos h]
      exact .pure (.inl ⟨rfl, rfl⟩)
  · rintro ⟨a', st⟩ h
    simp only at h ⊢
    rw [if_pos h]
    exact .pure (.inl ⟨rfl, rfl⟩)

/-- Where memory is served, the bits of the result in two's complement are those of the operands, combined. -/
theorem logic_twos_complement {r a b : Bf} {x y : ℤ} (hr : r.tab.length < limbsMax) (ha : a.IsInt x) (hb : b.IsInt y)
    (answers : ℕ → Bool) :
    (∀ out, out = bfLogicAnd r a b ⟨answers, false⟩ → out.2.refused = false →
      out.1.2 = 0 ∧ ∃ z, out.1.1.IsInt z ∧ ∀ j, z.testBit j = (x.testBit j && y.testBit j)) ∧
    (∀ out, out = bfLogicOr r a b ⟨answers, false⟩ → out.2.refused = false →
      out.1.2 = 0 ∧ ∃ z, out.1.1.IsInt z ∧ ∀ j, z.testBit j = (x.testBit j || y.testBit j)) ∧
    (∀ out, out = bfLogicXor r a b ⟨answers, false⟩ → out.2.refused = false →
      out.1.2 = 0 ∧ ∃ z, out.1.1.IsInt z ∧ ∀ j, z.testBit j = (x.testBit j ^^ y.testBit j)) := by
  have key (op : LogicOp) (out : (Bf × Status) × Heap) (hout : out = bfLogicOp r a b op ⟨answers, false⟩)
      (hs : out.2.refused = false) :
      out.1.2 = 0 ∧ ∃ z, out.1.1.IsInt z ∧ ∀ j, z.testBit j = logicBit (x.testBit j) (y.testBit j) op := by
    subst hout
    obtain ⟨hst, hz⟩ := (bfLogicOp_spec op hr ha hb).served rfl hs
    exact ⟨hst, logicInt x y op, hz, testBit_logicInt x y op⟩
  exact ⟨key .and, key .or, key .xor⟩

/-- `-6` and `3`. -/
theorem logic_twos_complement_example :
    (bfLogicAnd bfInit ⟨true, 3, [6 <<< 61]⟩ ⟨false, 2, [3 <<< 62]⟩ ⟨fun _ => true, false⟩).1.2 = 0 ∧
      ∃ z, (bfLogicAnd bfInit ⟨true, 3, [6 <<< 61]⟩ ⟨false, 2, [3 <<< 62]⟩ ⟨fun _ => true, false⟩).1.1.IsInt z ∧
        ∀ j, z.testBit j = ((-6 : ℤ).testBit j && (3 : ℤ).testBit j) :=
  (logic_twos_complement (r := bfInit) (a := ⟨true, 3, [6 <<< 61]⟩) (b := ⟨false, 2, [3 <<< 62]⟩) (x := -6) (y := 3)
    (by decide)
    ⟨.finite (n := 0) rfl (by decide) (by decide) (by decide) (by decide), by
      rw [Bf.val_eq, Bf.mag, toNat_singleton, show (6 <<< 61 : Limb).toNat = 6 * 2 ^ 61 from rfl]
      norm_num [signed]⟩
    ⟨.finite (n := 0) rfl (by decide) (by decide) (by decide) (by decide), by
      rw [Bf.val_eq, Bf.mag, toNat_singleton, show (3 <<< 62 : Limb).toNat = 3 * 2 ^ 62 from rfl]
      norm_num [signed]⟩
    fun _ => true).1 _ rfl (by decide)

example : (bfLogicAnd bfInit ⟨true, 3, [6 <<< 61]⟩ ⟨false, 2, [3 <<< 62]⟩ ⟨fun _ => true, false⟩).1 =
    (⟨false, 2, [2 <<< 62]⟩, 0) := by decide

end QuickJs.BigFloat
