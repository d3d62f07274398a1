import QuickJs.BigFloatLogic

/-!
# BigInt.asUintN and BigInt.asIntN

The lowest bits of a bigint: a mask of all of the bits, the bitwise and with it, and for `asIntN` a subtraction where
the bit at the top is set. None of the operations in between is asked whether it got its memory.
-/

namespace QuickJs.BigInt

open BigFloat Limbs Requests TwosComplement

/-- What a call gives. -/
inductive JSValue
  | exception
  | int (v : ℤ)
  | bigInt (a : Bf)
deriving DecidableEq

def maxSafeInteger : ℤ := 2 ^ 53 - 1

/-- `bf_get_int64` without flags: the integer and the status. -/
def bfGetInt64 (a : Bf) : ℤ × Status :=
  if bfExpInf ≤ a.expn then
    (if a.expn = bfExpInf then (if a.sign then -2 ^ 63 else 2 ^ 63 - 1) else 2 ^ 63 - 1, bfStInvalidOp)
  else if a.expn ≤ 0 then (0, 0)
  else if a.expn ≤ 63 then
    let v := (limb a.tab (a.tab.length - 1) >>> (64 - a.expn).toNat).toNat
    (if a.sign then -v else v, 0)
  else if a.sign then
    (-2 ^ 63, if a.expn = 64 ∧ limb a.tab (a.tab.length - 1) = 1 <<< 63 then 0 else bfStInvalidOp)
  else (2 ^ 63 - 1, bfStInvalidOp)

/-- Out of memory is thrown where there is none for the object. -/
def jsNewBigInt : Asking (Option Bf) := do
  let ok ← request
  pure (if ok then some bfInit else none)

/-- In math mode an integer that is safe is not a bigint. -/
def jsCompactBigInt (mathMode : Bool) (a : Bf) : JSValue :=
  let (v, ret) := bfGetInt64 a
  if mathMode && ret = 0 && -maxSafeInteger ≤ v && v ≤ maxSafeInteger then .int v
  else if a.expn = bfExpZero ∧ a.sign then .bigInt { a with sign := false }
  else .bigInt a

/-- The mask of `bits` bits. -/
def setMask (bits : ℕ) : Asking Bf := do
  let (mask, _) ← bfSetUi bfInit 1
  let mask := (bfMul2exp mask bits).1
  let (mask, _) ← bfAddSi bfInit mask (-1)
  pure mask

/-- The part for `asIntN`. -/
def wrapSign (bits : ℕ) (r mask : Bf) : Asking Bf := do
  let (mask, _) ← bfSetUi mask 1
  let mask := (bfMul2exp mask (bits - 1)).1
  if 0 ≤ bfCmpu r mask then do
    let (mask, _) ← bfSetUi mask 1
    let mask := (bfMul2exp mask bits).1
    let (r, _) ← bfSub bfInit r mask
    pure r
  else pure r

/-- The end of the call: the sign, and the value. -/
def finishAsN (mathMode asIntN : Bool) (bits : ℕ) (r mask : Bf) : Asking JSValue :=
  if asIntN && bits ≠ 0 then do
    let r ← wrapSign bits r mask
    pure (jsCompactBigInt mathMode r)
  else pure (jsCompactBigInt mathMode r)

def jsBigintAsUintN (mathMode : Bool) (bits : ℕ) (a : Bf) (asIntN : Bool) : Asking JSValue := do
  match ← jsNewBigInt with
  | none => pure .exception
  | some r =>
    let mask ← setMask bits
    let (r, _) ← bfLogicAnd r a mask
    finishAsN mathMode asIntN bits r mask

/-! ### The value -/

/-- The integer that a value is. -/
def JSValue.HasValue : JSValue → ℤ → Prop
  | .exception, _ => False
  | .int v, z => v = z
  | .bigInt a, z => a.IsInt z

variable {a r mask : Bf} {z x : ℤ} {n bits : ℕ}

theorem topLimb_eq (h : a.IsInt z) (hlo : 0 < a.expn) (hhi : a.expn ≤ 63) :
    (limb a.tab (a.tab.length - 1) >>> (64 - a.expn).toNat).toNat = z.natAbs := by
  obtain ⟨k, hk⟩ := Int.eq_ofNat_of_zero_le (show 0 ≤ 64 - a.expn by omega)
  rw [hk, Int.toNat_natCast]
  apply Nat.eq_of_testBit_eq
  intro j
  rw [BitVec.testBit_toNat, BitVec.getLsbD_ushiftRight]
  by_cases hj : k + j < 64
  · rw [← bit_offset h.mag j]
    unfold bit
    rw [show ((a.tab.length : ℤ) * 64 - a.expn + j) / (64 : ℕ) = a.tab.length - 1 by omega,
      show (((a.tab.length : ℤ) * 64 - a.expn + j) % (64 : ℕ)).toNat = k + j by omega]
  · rw [BitVec.getLsbD_of_ge _ _ (by omega), testBit_of_expn_le h.normal h.mag (by omega)]

theorem bfGetInt64_spec (h : a.IsInt z) (hret : (bfGetInt64 a).2 = 0)
    (hsafe : -maxSafeInteger ≤ (bfGetInt64 a).1) : (bfGetInt64 a).1 = z := by
  have hinf := h.normal.expn_lt_inf
  have hsign := logicSign_eq h
  unfold bfGetInt64 at hret hsafe ⊢
  unfold logicSign at hsign
  rw [if_neg (by omega)] at hret hsafe ⊢
  by_cases hz : z = 0
  · subst hz
    split
    · rfl
    · rename_i he
      obtain ⟨-, he'⟩ | ⟨n, hlen, htop, -, -⟩ := h.normal.cases
      · rw [he'] at he
        exact absurd (by decide) he
      · have h1 := h.normal.mag_pos (fun h0 => by rw [h0] at hlen; simp at hlen)
        rw [h.mag] at h1
        simp at h1
  · have hpos := h.expn_pos hz
    rw [if_neg (by omega)] at hsign hret hsafe ⊢
    rw [hsign] at hret hsafe ⊢
    split <;> rename_i he
    · rw [topLimb_eq h hpos he]
      dsimp only
      split <;> rename_i hneg <;> simp at hneg <;> omega
    · rw [if_neg he] at hret hsafe
      split <;> rename_i hneg
      · rw [if_pos hneg] at hsafe
        unfold maxSafeInteger at hsafe
        dsimp only at hsafe
        omega
      · rw [if_neg hneg] at hret
        exact absurd hret (by decide)

theorem jsCompactBigInt_spec (h : a.IsInt z) (mathMode : Bool) : (jsCompactBigInt mathMode a).HasValue z := by
  unfold jsCompactBigInt
  dsimp only
  split <;> rename_i hm
  · simp only [Bool.and_eq_true, decide_eq_true_eq] at hm
    exact bfGetInt64_spec h hm.1.1.2 hm.1.2
  · split <;> rename_i h0
    · -- minus zero
      have hnil : a.tab = [] := by
        obtain ⟨hnil, -⟩ | ⟨_, -, -, hlow, -⟩ := h.normal.cases
        · exact hnil
        · rw [h0.1] at hlow
          exact absurd hlow (by decide)
      have hz : z = 0 := by
        by_contra hz
        exact h.tab_ne hz hnil
      subst hz
      have ha : ({ a with sign := false } : Bf) = ⟨false, bfExpZero, []⟩ := by rw [← h0.1, ← hnil]
      rw [ha]
      exact ⟨.zero false, by rw [Bf.val_eq, Bf.mag_of_nil rfl]; simp [signed]⟩
    · exact h

theorem jsCompactBigInt_nan (mathMode : Bool) : jsCompactBigInt mathMode bfSetNan = .bigInt bfSetNan := by
  cases mathMode <;> decide

theorem not_hasValue_nan (z : ℤ) : ¬ (JSValue.bigInt bfSetNan).HasValue z := by
  intro h
  have hlt := (show bfSetNan.IsInt z from h).normal.expn_lt_inf
  exact absurd hlt (by decide)

/-! ### The mask -/

def bfOne : Bf := ⟨false, 1, [1 <<< 63]⟩

theorem bfOne_isInt : bfOne.IsInt 1 := by
  refine ⟨.finite (n := 0) rfl (by decide) (by decide) (by decide) (by decide), ?_⟩
  rw [bfOne, Bf.val_eq, Bf.mag, toNat_singleton, show (1 <<< 63 : Limb).toNat = 2 ^ 63 from rfl]
  norm_num [signed]

/-- The powers of two that are needed are in the range. -/
theorem two_pow_lt_eMax (hn : n ≤ 2 ^ 53) : (2 : ℚ) ^ n < 2 ^ eMax := by
  rw [← zpow_natCast]
  refine zpow_lt_zpow_right₀ one_lt_two ?_
  unfold eMax
  have : (n : ℤ) ≤ 2 ^ 53 := by exact_mod_cast hn
  omega

theorem bfMul2exp_one (hn : n ≤ 2 ^ 53) : (bfMul2exp bfOne n).1.IsInt (2 ^ n) := by
  have h1 : bfOne.val * 2 ^ (n : ℤ) = ((2 ^ n : ℤ) : ℚ) := by
    rw [bfOne_isInt.val, zpow_natCast]
    push_cast
    ring
  have hr : InRange ((2 ^ n : ℤ) : ℚ) := inRange_int (by
    push_cast
    rw [abs_of_pos (by positivity)]
    exact two_pow_lt_eMax hn)
  have h := bfMul2exp_spec (e := n) bfOne_isInt.normal (by decide) (by
    have : (n : ℤ) ≤ 2 ^ 53 := by exact_mod_cast hn
    rw [abs_of_nonneg (by omega)]
    omega) (by rw [h1]; exact hr)
  rw [h1] at h
  exact ⟨h.2.1, h.2.2⟩

theorem bfMul2exp_nan (e : ℤ) : bfMul2exp bfSetNan e = (bfSetNan, 0) := rfl

theorem bfSetUi_one_cases (r : Bf) (h : Heap) :
    (bfSetUi r 1 h).1 = (bfOne, 0) ∨ (bfSetUi r 1 h).1 = (bfSetNan, bfStMemError) :=
  bfSetUi_cases r (by decide) h

theorem bfSetUi_one_spec (r : Bf) : Spec (bfSetUi r 1) (· = (bfOne, 0)) (· = (bfSetNan, bfStMemError)) := by
  intro h hh
  have hs := bfSetUi_spec r (a := 1) (by decide) h hh
  obtain hc | hc := bfSetUi_one_cases r h
  · rw [hc] at hs ⊢
    split <;> rename_i hr
    · rw [if_pos hr] at hs
      exact absurd hs.1 (by decide)
    · rfl
  · rw [hc] at hs ⊢
    split <;> rename_i hr
    · rfl
    · rw [if_neg hr] at hs
      exact absurd hs.1.1 (by decide)

theorem bfAddSi_isNan (r : Bf) {n : ℤ} (h0 : n ≠ 0) (hn : n.natAbs < 2 ^ 64) :
    After (bfAddSi r bfSetNan n) fun p => p.1 = bfSetNan := by
  unfold bfAddSi
  refine .bind (bfSetSi_after bfInit h0 hn) fun p hp => ?_
  obtain ⟨b, ret⟩ := p
  have h : bfAdd r bfSetNan b = pure (bfSetNan, 0) := bfAddInternal_nan (.inl ⟨isNan_bfSetNan, hp⟩)
  dsimp only
  rw [h]
  exact .pure rfl

/-- A mask for which there is no memory is not a number. -/
theorem setMask_spec (hb : bits ≤ 2 ^ 53) :
    Spec (setMask bits) (fun m => m.IsInt (2 ^ bits - 1)) (· = bfSetNan) := by
  unfold setMask
  refine .bind (bfSetUi_one_spec bfInit) ?_ ?_
  · rintro _ rfl
    have hm := bfMul2exp_one hb
    dsimp only
    generalize bfMul2exp bfOne bits = q at hm ⊢
    have hsum : q.1.val + ((-1 : ℤ) : ℚ) = ((2 ^ bits - 1 : ℤ) : ℚ) := by
      rw [hm.val]
      push_cast
      ring
    have hr : InRange ((2 ^ bits - 1 : ℤ) : ℚ) := inRange_int (by
      have h1 : (1 : ℚ) ≤ 2 ^ bits := one_le_pow₀ one_le_two
      have h2 := two_pow_lt_eMax hb
      push_cast
      rw [abs_of_nonneg (by linarith)]
      linarith)
    refine .bind (bfAddSi_spec hm.normal (hm.tab_ne (by positivity)) (n := -1) (by decide) (by decide)
      (by rw [hsum]; exact hr)) ?_ ?_
    · rintro ⟨p, st⟩ ⟨-, hp, hv⟩
      rw [hsum] at hv
      exact .pure ⟨hp, hv⟩
    · rintro ⟨p, st⟩ ⟨rfl, -⟩
      exact .pure rfl
  · rintro _ rfl
    refine .bind (bfAddSi_isNan bfInit (by decide) (by decide)) ?_
    rintro ⟨p, st⟩ rfl
    exact .pure rfl

/-! ### The sign -/

theorem natCast_pred (hn : n ≠ 0) : ((n : ℤ) - 1) = ((n - 1 : ℕ) : ℤ) := by omega

theorem bfCmpu_two_pow {q : Bf} {m : ℤ} (hr : r.IsInt m) (hm : 0 ≤ m) (hq : q.IsInt (2 ^ n)) :
    0 ≤ bfCmpu r q ↔ 2 ^ n ≤ m := by
  have h := (bfCmpu_spec hr.normal hq.normal).1
  rw [← not_lt, h, hr.mag, hq.mag, Nat.cast_lt, not_lt, ← Int.ofNat_le, Int.natAbs_of_nonneg hm,
    Int.natAbs_of_nonneg (by positivity)]

/-- A remainder becomes the integer in the range around zero. -/
theorem wrapSign_spec {m : ℤ} (h0 : bits ≠ 0) (hb : bits ≤ 2 ^ 53) (hr : r.IsInt m)
    (hm : 0 ≤ m) (hm' : m < 2 ^ bits) (hmask : mask.tab ≠ []) :
    Spec (wrapSign bits r mask) (fun q => q.IsInt (if 2 ^ (bits - 1) ≤ m then m - 2 ^ bits else m))
      (· = bfSetNan) := by
  have hset : ∀ q : Bf, q.tab ≠ [] → bfSetUi q 1 = pure (bfOne, 0) := fun q hq => bfSetUi_of_tab_ne 1 (by decide) hq
  have h1 := bfMul2exp_one (show bits - 1 ≤ 2 ^ 53 by omega)
  have h2 := bfMul2exp_one hb
  have hcmp := bfCmpu_two_pow hr hm h1
  unfold wrapSign
  rw [hset mask hmask, natCast_pred h0]
  refine .bind (Q := (· = (bfOne, 0))) (E := fun _ => False) (.pure rfl) ?_ (fun _ h => h.elim)
  rintro _ rfl
  dsimp only
  generalize bfMul2exp bfOne (bits - 1 : ℕ) = q at h1 hcmp ⊢
  by_cases hge : 2 ^ (bits - 1) ≤ m
  · rw [if_pos (hcmp.2 hge), if_pos hge, hset _ (h1.tab_ne (by positivity))]
    refine .bind (Q := (· = (bfOne, 0))) (E := fun _ => False) (.pure rfl) ?_ (fun _ h => h.elim)
    rintro _ rfl
    dsimp only
    generalize bfMul2exp bfOne bits = q' at h2 ⊢
    have hdiff : r.val + signed true q'.1.val = ((m - 2 ^ bits : ℤ) : ℚ) := by
      rw [hr.val, h2.val]
      simp [signed]
      ring
    have hrange : InRange ((m - 2 ^ bits : ℤ) : ℚ) := inRange_int (by
      have hlt := two_pow_lt_eMax hb
      have hm0 : (0 : ℚ) ≤ m := by exact_mod_cast hm
      have hm1 : (m : ℚ) < 2 ^ bits := by exact_mod_cast hm'
      push_cast
      rw [abs_lt]
      constructor <;> linarith)
    have hpos : m ≠ 0 := (lt_of_lt_of_le (by positivity) hge).ne'
    have h := bfAddInternal_spec (r := bfInit) true hr.normal h2.normal (hr.tab_ne hpos) (h2.tab_ne (by positivity))
      (by rw [hdiff]; exact hrange)
    rw [hdiff] at h
    refine .bind h ?_ ?_
    · rintro ⟨p, st⟩ ⟨-, hp, hv⟩
      exact .pure ⟨hp, hv⟩
    · rintro ⟨p, st⟩ ⟨rfl, -⟩
      exact .pure rfl
  · rw [if_neg fun h => hge (hcmp.1 h), if_neg hge]
    exact .pure hr

/-- A power of two, or what is left of it where there was no memory for it. -/
theorem bfMul2exp_cases {p : Bf} (hn : n ≤ 2 ^ 53) (hp : p = bfOne ∨ p = bfSetNan) :
    (bfMul2exp p n).1.Normal ∨ (bfMul2exp p n).1.IsNan := by
  obtain rfl | rfl := hp
  · exact .inl (bfMul2exp_one hn).normal
  · rw [bfMul2exp_nan]
    exact .inr isNan_bfSetNan

theorem bfSetUi_one_after (r : Bf) : After (bfSetUi r 1) fun p => p.1 = bfOne ∨ p.1 = bfSetNan :=
  bfSetUi_after r (by decide)

theorem wrapSign_nan (h0 : bits ≠ 0) (hb : bits ≤ 2 ^ 53) (mask : Bf) :
    After (wrapSign bits bfSetNan mask) (· = bfSetNan) := by
  unfold wrapSign
  rw [natCast_pred h0]
  refine .bind (bfSetUi_one_after mask) ?_
  rintro ⟨p, st⟩ hp
  have hq := bfMul2exp_cases (show bits - 1 ≤ 2 ^ 53 by omega) hp
  dsimp only
  generalize bfMul2exp p (bits - 1 : ℕ) = q at hq ⊢
  rw [if_pos (not_lt.1 (bfCmpu_nan isNan_bfSetNan hq))]
  refine .bind (bfSetUi_one_after q.1) ?_
  rintro ⟨p', st'⟩ hp'
  have hq' := bfMul2exp_cases hb hp'
  dsimp only
  generalize bfMul2exp p' bits = q' at hq' ⊢
  rw [show bfSub bfInit bfSetNan q'.1 = pure (bfSetNan, 0) from bfAddInternal_nan (.inl ⟨isNan_bfSetNan, hq'⟩)]
  exact .pure rfl

theorem wrapSign_zero (h0 : bits ≠ 0) (hb : bits ≤ 2 ^ 53) (s : Bool) (mask : Bf) :
    After (wrapSign bits (bfSetZero s) mask) (· = bfSetZero s) := by
  unfold wrapSign
  rw [natCast_pred h0]
  refine .bind (bfSetUi_one_after mask) ?_
  rintro ⟨p, st⟩ hp
  have hq : bfExpZero < (bfMul2exp p (bits - 1 : ℕ)).1.expn := by
    obtain rfl | rfl := hp
    · exact (by decide : bfExpZero < 0).trans
        ((bfMul2exp_one (show bits - 1 ≤ 2 ^ 53 by omega)).expn_pos (by positivity))
    · rw [bfMul2exp_nan]
      decide
  dsimp only
  generalize bfMul2exp p (bits - 1 : ℕ) = q at hq ⊢
  have hcmp : ¬ 0 ≤ bfCmpu (bfSetZero s) q.1 := by
    have hlt : (bfSetZero s).expn < q.1.expn := hq
    unfold bfCmpu
    rw [if_pos hlt.ne, if_pos hlt]
    decide
  rw [if_neg hcmp]
  exact .pure rfl

/-! ### The mask that is not a number -/

/-- The limbs of the result where the mask is not a number. -/
def andLen (a : Bf) : ℕ := ((max a.expn 1 + 63) / 64).toNat

/-- The mask has no limbs, and so every bit of the result is zero. -/
theorem bfLogicAnd_nan (ha : a.IsInt x) (hx : 0 ≤ x) : bfLogicAnd bfInit a bfSetNan = (do
      match ← bfResize bfInit (andLen a) with
      | none => pure (bfSetNan, bfStMemError)
      | some _ => pure (bfSetZero false, 0)) := by
  have hs : logicSign a = false := by
    rw [logicSign_eq ha]
    simpa using hx
  have hn : logicSign bfSetNan = false := rfl
  have hlen : logicLen a bfSetNan false false .and = andLen a := by
    have hle : a.expn ≤ bfSetNan.expn := (ha.normal.expn_lt_inf.trans_le (by decide)).le
    unfold logicLen andLen
    rw [if_pos (by decide), if_pos (by decide), Int.min_eq_left hle]
  have hzero (n : ℕ) (f : ℕ → Limb) (g : ℕ → ℤ) :
      toNat ((List.range n).map fun i => bfLogicOp1 (f i) (getBits bfSetNan.tab (g i) ^^^ signMask false) .and ^^^
        signMask false) = 0 := by
    have h : (fun i => bfLogicOp1 (f i) (getBits bfSetNan.tab (g i) ^^^ signMask false) .and ^^^ signMask false) =
        fun _ => 0#64 := by
      funext i
      rw [show bfSetNan.tab = [] from rfl, getBits_nil]
      simp [signMask, bfLogicOp1]
    rw [h, List.map_const', toNat_replicate_zero]
  unfold bfLogicAnd bfLogicOp logicOperand
  rw [hs, hn]
  simp only [Bool.false_eq_true, if_false, pure_bind_apply, ne_eq, not_true_eq_false, hlen]
  congr 1
  funext o
  cases o with
  | none => rfl
  | some _ =>
    have h := bfNormalizeAndRound_zero (r := ⟨false, (andLen a : ℕ) * 64, _⟩) (hzero (andLen a) (fun i => getBits a.tab
      (a.tab.length * 64 - a.expn + (64 : ℕ) * i) ^^^ signMask false)
      fun i => bfSetNan.tab.length * 64 - bfSetNan.expn + (64 : ℕ) * i)
    exact congrArg (fun p : Bf × Status => (pure (p.1, 0) : Asking (Bf × Status))) h

theorem bfLogicAnd_nan_neg (ha : a.IsInt x) (hx : x < 0) :
    After (bfLogicAnd bfInit a bfSetNan) fun p => p.1 = bfSetNan := by
  have hs : logicSign a = true := by
    rw [logicSign_eq ha]
    simpa using hx
  have hn : logicSign bfSetNan = false := rfl
  unfold bfLogicAnd bfLogicOp logicOperand
  rw [hs, hn]
  simp only [Bool.false_eq_true, if_false, pure_bind_apply]
  refine .bind (bfAddSi_after bfInit a (by decide) (by decide)) ?_
  rintro ⟨a', ret⟩ -
  dsimp only
  split
  · exact .pure rfl
  · -- the length is that of the mask, for which there is never room
    have hlen : logicLen a' bfSetNan true false .and = 2 ^ 57 := by
      unfold logicLen
      rw [if_pos (by decide), if_neg (by decide), if_neg (by decide)]
      decide
    rw [hlen]
    refine .bind (E := (· = none)) ?_ ?_
    · unfold bfResize bfRealloc
      rw [if_neg (by decide), if_neg (by decide)]
      refine After.refuse.bind ?_
      rintro _ rfl
      exact .pure rfl
    · rintro _ rfl
      exact .pure rfl

/-! ### The call -/

/-- The integer that the call is for. -/
def asN (asIntN : Bool) (bits : ℕ) (x : ℤ) : ℤ := if asIntN then x.bmod (2 ^ bits) else x % 2 ^ bits

/-- The call with the object for the result. -/
theorem jsBigintAsUintN_apply (mathMode asIntN : Bool) (bits : ℕ) (a : Bf) {answers : ℕ → Bool}
    (h : answers 0 = true) :
    jsBigintAsUintN mathMode bits a asIntN ⟨answers, false⟩ = (do
      let mask ← setMask bits
      let (r, _) ← bfLogicAnd bfInit a mask
      finishAsN mathMode asIntN bits r mask : Asking JSValue) ⟨fun n => answers (n + 1), false⟩ := by
  unfold jsBigintAsUintN jsNewBigInt
  simp only [bind_apply, request_apply, pure_apply, h, if_true, Bool.not_true, Bool.or_false]

theorem testBit_two_pow_sub_one (n j : ℕ) : ((2 : ℤ) ^ n - 1).testBit j = decide (j < n) := by
  have h : ((2 : ℤ) ^ n - 1) = ((2 ^ n - 1 : ℕ) : ℤ) := by
    push_cast [Nat.one_le_two_pow]
    rfl
  rw [h]
  exact Nat.testBit_two_pow_sub_one n j

/-- The bits under the mask are the remainder. -/
theorem land_mask (x : ℤ) (bits : ℕ) : logicInt x (2 ^ bits - 1) .and = x % 2 ^ bits := by
  apply eq_of_testBit_eq
  intro j
  rw [testBit_logicInt, testBit_two_pow_sub_one, testBit_emod_two_pow, logicBit, Bool.and_comm]

theorem asN_true (h0 : bits ≠ 0) (x : ℤ) :
    asN true bits x = if 2 ^ (bits - 1) ≤ x % 2 ^ bits then x % 2 ^ bits - 2 ^ bits else x % 2 ^ bits := by
  obtain ⟨n, rfl⟩ := Nat.exists_eq_succ_of_ne_zero h0
  have hhalf : (((2 ^ (n + 1) : ℕ) : ℤ) + 1) / 2 = 2 ^ n := by
    push_cast
    omega
  unfold asN Int.bmod
  rw [if_pos rfl]
  dsimp only
  rw [hhalf]
  push_cast
  split <;> split <;> omega

section

variable (mathMode asIntN : Bool) (hb : bits ≤ 2 ^ 53)

include mathMode asIntN hb

theorem finishAsN_spec
    (hr : r.IsInt (x % 2 ^ bits)) (hm : mask.IsInt (2 ^ bits - 1)) :
    Spec (finishAsN mathMode asIntN bits r mask) (fun v => v.HasValue (asN asIntN bits x)) (· = .bigInt bfSetNan) := by
  have hp : (0 : ℤ) < 2 ^ bits := by positivity
  unfold finishAsN
  split <;> rename_i h
  · simp only [Bool.and_eq_true, decide_eq_true_eq] at h
    obtain ⟨rfl, h0⟩ := h
    have h2 : (2 : ℤ) ≤ 2 ^ bits := by
      calc (2 : ℤ)
        _ = 2 ^ 1 := (pow_one 2).symm
        _ ≤ 2 ^ bits := pow_le_pow_right₀ one_le_two (Nat.pos_of_ne_zero h0)
    refine .bind (wrapSign_spec h0 hb hr (Int.emod_nonneg x hp.ne') (Int.emod_lt_of_pos x hp) (hm.tab_ne (by omega))) ?_ ?_
    · intro q hq
      rw [← asN_true h0] at hq
      exact .pure (jsCompactBigInt_spec hq mathMode)
    · rintro _ rfl
      exact .pure (jsCompactBigInt_nan mathMode)
  · have hval : asN asIntN bits x = x % 2 ^ bits := by
      unfold asN
      split <;> rename_i ht
      · have h0 : bits = 0 := by simpa [ht] using h
        subst h0
        simp
      · rfl
    rw [hval]
    exact .pure (jsCompactBigInt_spec hr mathMode)

theorem finishAsN_nan (mask : Bf) :
    After (finishAsN mathMode asIntN bits bfSetNan mask) (· = .bigInt bfSetNan) := by
  unfold finishAsN
  split <;> rename_i h
  · simp only [Bool.and_eq_true, decide_eq_true_eq] at h
    refine .bind (wrapSign_nan h.2 hb mask) ?_
    rintro _ rfl
    exact .pure (jsCompactBigInt_nan mathMode)
  · exact .pure (jsCompactBigInt_nan mathMode)

theorem finishAsN_zero (mask : Bf) :
    After (finishAsN mathMode asIntN bits (bfSetZero false) mask) (·.HasValue 0) := by
  have hz : (bfSetZero false).IsInt 0 :=
    ⟨.zero false, by rw [Bf.val_eq, Bf.mag_of_nil rfl]; simp [signed]⟩
  unfold finishAsN
  split <;> rename_i h
  · simp only [Bool.and_eq_true, decide_eq_true_eq] at h
    refine .bind (wrapSign_zero h.2 hb false mask) ?_
    rintro _ rfl
    exact .pure (jsCompactBigInt_spec hz mathMode)
  · exact .pure (jsCompactBigInt_spec hz mathMode)

/-- The rest of the call, with a mask. -/
theorem asN_spec (ha : a.IsInt x)
    (hm : mask.IsInt (2 ^ bits - 1)) :
    Spec (do let (r, _) ← bfLogicAnd bfInit a mask; finishAsN mathMode asIntN bits r mask)
      (fun v => v.HasValue (asN asIntN bits x)) (· = .bigInt bfSetNan) := by
  refine .bind (bfLogicOp_spec .and (r := bfInit) (by decide) ha hm) ?_ ?_
  · rintro ⟨r, st⟩ ⟨-, hr⟩
    rw [land_mask] at hr
    exact finishAsN_spec mathMode asIntN hb hr hm
  · rintro ⟨r, st⟩ (⟨rfl, -⟩ | ⟨h1, -⟩)
    · exact finishAsN_nan mathMode asIntN hb mask
    · have hlo := Int.emod_nonneg x (show (2 : ℤ) ^ bits ≠ 0 by positivity)
      rw [land_mask] at h1
      omega

/-- The rest of the call, without a mask. -/
theorem asN_nan (ha : a.IsInt x) {h : Heap}
    (hh : h.refused = true) :
    let out := (do let (r, _) ← bfLogicAnd bfInit a bfSetNan; finishAsN mathMode asIntN bits r bfSetNan) h
    out.2.refused = true ∧
      if 0 ≤ x ∧ (bfResize bfInit (andLen a) h).1 ≠ none then out.1.HasValue 0 else out.1 = .bigInt bfSetNan := by
  have hnan := finishAsN_nan mathMode asIntN hb bfSetNan
  by_cases hx : 0 ≤ x
  · have hh' := (bfResize_after bfInit (andLen a) h hh).1
    rw [bfLogicAnd_nan ha hx]
    simp only [bind_apply]
    cases hres : (bfResize bfInit (andLen a) h).1 with
    | none =>
      rw [if_neg (by simp)]
      exact hnan _ hh'
    | some _ =>
      rw [if_pos ⟨hx, by simp⟩]
      exact finishAsN_zero mathMode asIntN hb bfSetNan _ hh'
  · intro out
    rw [if_neg (by simp [hx])]
    have hall : After (do let (r, _) ← bfLogicAnd bfInit a bfSetNan; finishAsN mathMode asIntN bits r bfSetNan)
        (· = .bigInt bfSetNan) := by
      refine .bind (bfLogicAnd_nan_neg ha (not_le.1 hx)) ?_
      rintro ⟨r, st⟩ rfl
      exact hnan
    exact hall h hh

end

/-- No memory for the mask, and none is needed: every bit of the result is zero. -/
def MaskOnly (bits : ℕ) (a : Bf) (x : ℤ) (h : Heap) : Prop :=
  let h' := (setMask bits h).2
  h'.refused = true ∧ 2 ^ bits ∣ x ∧ 0 ≤ x ∧ (bfResize bfInit (andLen a) h').1 ≠ none

theorem asN_eq_zero (asIntN : Bool) (bits : ℕ) (x : ℤ) : asN asIntN bits x = 0 ↔ 2 ^ bits ∣ x := by
  unfold asN
  split
  · rw [← Int.dvd_iff_bmod_eq_zero]
    push_cast
    rfl
  · exact (Int.dvd_iff_emod_eq_zero).symm

theorem JSValue.HasValue.unique {v : JSValue} {y : ℤ} (hx : v.HasValue x) (hy : v.HasValue y) : x = y := by
  cases v with
  | exception => exact hx.elim
  | int v => exact Eq.trans (Eq.symm hx) hy
  | bigInt a => exact_mod_cast hx.val.symm.trans hy.val

/-- When the call gives the integer or throws: where the object is refused, where nothing is refused, and where only
the mask is and nothing of the argument is under it. -/
theorem jsBigintAsUintN_iff (mathMode asIntN : Bool) {bits : ℕ} (hb : bits < 2 ^ 53) {a : Bf} {x : ℤ} (ha : a.IsInt x)
    (answers : ℕ → Bool) :
    ((jsBigintAsUintN mathMode bits a asIntN ⟨answers, false⟩).1 = .exception ∨
      (jsBigintAsUintN mathMode bits a asIntN ⟨answers, false⟩).1.HasValue (asN asIntN bits x)) ↔
    (answers 0 = false ∨ (jsBigintAsUintN mathMode bits a asIntN ⟨answers, false⟩).2.refused = false ∨
      MaskOnly bits a x ⟨fun n => answers (n + 1), false⟩) := by
  cases h0 : answers 0 with
  | false =>
    have h : (jsBigintAsUintN mathMode bits a asIntN ⟨answers, false⟩).1 = .exception := by
      unfold jsBigintAsUintN jsNewBigInt
      simp only [bind_apply, request_apply, pure_apply, h0, Bool.false_eq_true, if_false]
    simp [h]
  | true =>
    rw [jsBigintAsUintN_apply mathMode asIntN bits a h0, bind_apply]
    have hmask := setMask_spec hb.le ⟨fun n => answers (n + 1), false⟩ rfl
    unfold MaskOnly
    generalize setMask bits ⟨fun n => answers (n + 1), false⟩ = m at hmask ⊢
    obtain ⟨mask, h⟩ := m
    dsimp only at hmask ⊢
    by_cases hr : h.refused = true
    · rw [if_pos hr] at hmask
      subst hmask
      obtain ⟨hout, hres⟩ := asN_nan mathMode asIntN hb.le ha hr
      dsimp only at hout hres
      generalize (do let (r, _) ← bfLogicAnd bfInit a bfSetNan; finishAsN mathMode asIntN bits r bfSetNan) h = out
        at hout hres ⊢
      rw [hout]
      by_cases hc : 0 ≤ x ∧ (bfResize bfInit (andLen a) h).1 ≠ none
      · rw [if_pos hc] at hres
        have hne : out.1 ≠ .exception := fun he => by rw [he] at hres; exact hres
        constructor
        · rintro (he | hv)
          · exact absurd he hne
          · exact .inr (.inr ⟨hr, (asN_eq_zero asIntN bits x).1 (hv.unique hres), hc.1, hc.2⟩)
        · rintro (he | he | ⟨-, hd, -, -⟩)
          · exact absurd he (by simp)
          · exact absurd he (by simp)
          · rw [(asN_eq_zero asIntN bits x).2 hd]
            exact .inr hres
      · rw [if_neg hc] at hres
        rw [hres]
        constructor
        · rintro (he | hv)
          · exact absurd he (by simp)
          · exact absurd hv (not_hasValue_nan _)
        · rintro (he | he | ⟨-, -, hc1, hc2⟩)
          · exact absurd he (by simp)
          · exact absurd he (by simp)
          · exact absurd ⟨hc1, hc2⟩ hc
    · have hr' : h.refused = false := by simpa using hr
      rw [if_neg hr] at hmask
      have hspec := asN_spec mathMode asIntN hb.le ha hmask h hr'
      generalize (do let (r, _) ← bfLogicAnd bfInit a mask; finishAsN mathMode asIntN bits r mask) h = out at hspec ⊢
      by_cases ho : out.2.refused = true
      · rw [if_pos ho] at hspec
        rw [hspec, ho, hr']
        constructor
        · rintro (he | hv)
          · exact absurd he (by simp)
          · exact absurd hv (not_hasValue_nan _)
        · simp
      · rw [if_neg ho] at hspec
        exact ⟨fun _ => .inr (.inl (by simpa using ho)), fun _ => .inr hspec⟩

/-- `1n` under `2^53 - 1` bits: the third part of the mask is 2^47 limbs. -/
theorem jsBigintAsUintN_wrong :
    ¬ ((jsBigintAsUintN false (2 ^ 53 - 1) bfOne false ⟨fun n => n ≠ 3, false⟩).1 = .exception ∨
      (jsBigintAsUintN false (2 ^ 53 - 1) bfOne false ⟨fun n => n ≠ 3, false⟩).1.HasValue
        (asN false (2 ^ 53 - 1) 1)) := by
  have h : (jsBigintAsUintN false (2 ^ 53 - 1) bfOne false ⟨fun n => n ≠ 3, false⟩).1 = .bigInt (bfSetZero false) := by
    decide
  rw [h]
  rintro (he | hv)
  · exact absurd he (by simp)
  · have hz : (bfSetZero false).IsInt 0 :=
      ⟨.zero false, by rw [Bf.val_eq, Bf.mag_of_nil rfl]; simp [signed]⟩
    have hd := (asN_eq_zero false _ 1).1 (hv.unique (show (JSValue.bigInt (bfSetZero false)).HasValue 0 from hz))
    generalize hn : 2 ^ 53 - 1 = n at hd
    have hle := Int.le_of_dvd one_pos hd
    have h2 : (2 : ℤ) ^ 1 ≤ 2 ^ n := pow_le_pow_right₀ one_le_two (by omega)
    omega

/-- `asIntN(3, 5n)`, where there is memory. -/
theorem jsBigintAsUintN_iff_example :
    ((jsBigintAsUintN false 3 ⟨false, 3, [5 <<< 61]⟩ true ⟨fun _ => true, false⟩).1 = .exception ∨
      (jsBigintAsUintN false 3 ⟨false, 3, [5 <<< 61]⟩ true ⟨fun _ => true, false⟩).1.HasValue (asN true 3 5)) ↔
    (true = false ∨ (jsBigintAsUintN false 3 ⟨false, 3, [5 <<< 61]⟩ true ⟨fun _ => true, false⟩).2.refused = false ∨
      MaskOnly 3 ⟨false, 3, [5 <<< 61]⟩ 5 ⟨fun _ => true, false⟩) :=
  jsBigintAsUintN_iff false true (by decide) (a := ⟨false, 3, [5 <<< 61]⟩) (x := 5)
    ⟨.finite (n := 0) rfl (by decide) (by decide) (by decide) (by decide), by
      rw [Bf.val_eq, Bf.mag, toNat_singleton, show (5 <<< 61 : Limb).toNat = 5 * 2 ^ 61 from rfl]
      norm_num [signed]⟩ fun _ => true

example : (jsBigintAsUintN false 3 ⟨false, 3, [5 <<< 61]⟩ true ⟨fun _ => true, false⟩).1 =
    .bigInt ⟨true, 2, [3 <<< 62]⟩ := by decide

end QuickJs.BigInt
