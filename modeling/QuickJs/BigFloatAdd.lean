import QuickJs.BigFloat

/-!
# Sums of numbers of arbitrary precision

`bf_add`, `bf_sub` and `bf_add_si` at the precision `BF_PREC_INF`: the limbs of the operand that is closer to zero are
read at the position where they belong under those of the other one. The sum is exact, or memory is refused.
-/

namespace QuickJs.BigFloat

open Limbs Requests

/-- The order of the absolute values. -/
def bfCmpu (a b : Bf) : ℤ :=
  if a.expn ≠ b.expn then if a.expn < b.expn then -1 else 1
  else
    let len := max a.tab.length b.tab.length
    cmpLoop (fun i => limb a.tab (a.tab.length - len + i)) (fun i => limb b.tab (b.tab.length - len + i)) len

/-- The limbs of a sum or a difference, where both are finite and `b` is not further from zero than `a`.

`r_len` is the minimum of `tot_len` and the limbs for the precision, which are more. -/
def bfAddLimbs (r a b : Bf) (aSign isSub : Bool) : Asking (Bf × Status) := do
  let d := (a.expn - b.expn).toNat
  let rLen := max a.tab.length (b.tab.length + (d + 63) / 64)
  match ← bfResize r rLen with
  | none => pure (bfSetNan, bfStMemError)
  | some r =>
    let aOffset : ℤ := a.tab.length - rLen
    let bBitOffset : ℤ := (b.tab.length - rLen) * 64 + d
    let subMask : Limb := if isSub then -1 else 0
    let (tab, carry) := addLoop (fun i => limb a.tab (aOffset + i))
      (fun i => getBits b.tab (bBitOffset + (64 : ℕ) * i) ^^^ subMask) (if isSub then 1 else 0) rLen
    if !isSub && carry ≠ 0 then
      match ← bfResize { r with tab } (rLen + 1) with
      | none => pure (bfSetNan, bfStMemError)
      | some _ => pure (bfNormalizeAndRound ⟨aSign, a.expn + 64, tab ++ [1]⟩)
    else pure (bfNormalizeAndRound ⟨aSign, a.expn, tab⟩)

def bfAddInternal (r a b : Bf) (bNeg : Bool) : Asking (Bf × Status) := do
  let bSign := b.sign ^^ bNeg
  let isSub := a.sign ^^ bSign
  let cmpRes := bfCmpu a b
  let (a, b, aSign) := if cmpRes < 0 then (b, a, bSign) else (a, b, a.sign)
  if cmpRes = 0 && isSub && a.expn < bfExpInf then pure (bfSetZero false, 0)
  else if a.tab = [] || b.tab = [] then
    if bfExpInf ≤ a.expn then
      if a.expn = bfExpNan then pure (bfSetNan, 0)
      else if b.expn = bfExpInf && isSub then pure (bfSetNan, bfStInvalidOp)
      else pure (bfSetInf aSign, 0)
    else do
      -- the status of `bf_set` is not looked at
      let (r, _) ← bfSet r a
      pure (bfNormalizeAndRound { r with sign := aSign })
  else bfAddLimbs r a b aSign isSub

/-- Where the result is an operand too, the code passes a new number for `r`. -/
def bfAdd (r a b : Bf) : Asking (Bf × Status) := bfAddInternal r a b false

def bfSub (r a b : Bf) : Asking (Bf × Status) := bfAddInternal r a b true

def bfAddSi (r a : Bf) (b1 : ℤ) : Asking (Bf × Status) := do
  let (b, ret) ← bfSetSi bfInit b1
  let (r, ret') ← bfAdd r a b
  pure (r, ret ||| ret')

variable {a b r : Bf} {q : ℚ} {n : ℤ}

/-! ### The comparison -/

theorem Bf.Normal.cases (h : a.Normal) : (a.tab = [] ∧ a.expn = bfExpZero) ∨
    ∃ n, a.tab.length = n + 1 ∧ 2 ^ (64 * n + 63) ≤ toNat a.tab ∧ eMin ≤ a.expn ∧ a.expn ≤ eMax := by
  cases h with
  | zero sign => exact .inl ⟨rfl, rfl⟩
  | finite len top _ low high => exact .inr ⟨_, len, top, low, high⟩

/-- The absolute value from a row that is as long as another one. -/
theorem Bf.mag_eq (a : Bf) {n : ℕ} (h : a.tab.length ≤ n) :
    a.mag = (toNat a.tab * 2 ^ (64 * (n - a.tab.length)) : ℕ) * 2 ^ (a.expn - 64 * n) := by
  unfold Bf.mag
  push_cast
  rw [← zpow_natCast, mul_assoc, ← zpow_add₀ two_ne_zero]
  congr 2
  push_cast [Nat.cast_sub h]
  ring

theorem Bf.mag_lt_of_expn (ha : a.Normal) (hb : b.Normal) (h : a.expn < b.expn) : a.mag < b.mag := by
  obtain ⟨hb0, he⟩ | ⟨n, hlen, htop, -, hbe⟩ := hb.cases
  · obtain ⟨ha0, he'⟩ | ⟨_, -, -, hlo, -⟩ := ha.cases
    · omega
    · unfold eMin at hlo
      unfold bfExpZero at he
      omega
  · have hbm := (Bf.mag_bounds hlen htop).1
    obtain ⟨ha0, -⟩ | ⟨m, hlen', htop', -, -⟩ := ha.cases
    · rw [Bf.mag_of_nil ha0]
      exact lt_of_lt_of_le (by positivity) hbm
    · calc a.mag
        _ < 2 ^ a.expn := (Bf.mag_bounds hlen' htop').2
        _ ≤ 2 ^ (b.expn - 1) := zpow_le_zpow_right₀ one_le_two (by omega)
        _ ≤ b.mag := hbm

theorem bfCmpu_spec (ha : a.Normal) (hb : b.Normal) :
    (bfCmpu a b < 0 ↔ a.mag < b.mag) ∧ (bfCmpu a b = 0 ↔ a.mag = b.mag) := by
  unfold bfCmpu
  by_cases he : a.expn = b.expn
  · rw [if_neg (by simpa using he)]
    have h := cmpLoop_spec (fun i => limb a.tab (a.tab.length - (max a.tab.length b.tab.length : ℕ) + i))
      (fun i => limb b.tab (b.tab.length - (max a.tab.length b.tab.length : ℕ) + i))
      (max a.tab.length b.tab.length)
    rw [value_limb _ (Nat.le_max_left _ _), value_limb _ (Nat.le_max_right _ _)] at h
    have hpos : (0 : ℚ) < 2 ^ (b.expn - 64 * (max a.tab.length b.tab.length : ℕ)) := by positivity
    rw [a.mag_eq (Nat.le_max_left a.tab.length b.tab.length), b.mag_eq (Nat.le_max_right a.tab.length b.tab.length), he,
      mul_lt_mul_iff_left₀ hpos, mul_left_inj' hpos.ne']
    exact_mod_cast h
  · rw [if_pos he]
    by_cases hlt : a.expn < b.expn
    · have hm := Bf.mag_lt_of_expn ha hb hlt
      rw [if_pos hlt]
      simp [hm, hm.ne]
    · have hm := Bf.mag_lt_of_expn hb ha (by omega)
      rw [if_neg hlt]
      simp [hm.le, hm.ne']

/-! ### Signs -/

/-- The number with a sign. -/
def signed (neg : Bool) (q : ℚ) : ℚ := if neg then -q else q

theorem Bf.val_eq (a : Bf) : a.val = signed a.sign a.mag := rfl

theorem signed_signed (s t : Bool) (q : ℚ) : signed t (signed s q) = signed (s ^^ t) q := by
  cases s <;> cases t <;> simp [signed]

/-- The sign of a sum is that of the operand that is further from zero. -/
theorem signed_add (s t : Bool) (x y : ℚ) : signed s x + signed t y = signed s (if s ^^ t then x - y else x + y) := by
  cases s <;> cases t <;> simp [signed] <;> ring

theorem inRange_signed (s : Bool) : InRange (signed s q) ↔ InRange q := by
  cases s <;> simp [signed, InRange]

/-! ### The sum of the limbs -/

/-- The limbs of the operand that is closer to zero, where they belong under those of the other one. -/
theorem Bf.row {n : ℕ} (he : b.expn ≤ a.expn) (h : b.tab.length + ((a.expn - b.expn).toNat + 63) / 64 ≤ n) :
    (value (fun i => getBits b.tab ((b.tab.length - n : ℤ) * 64 + (a.expn - b.expn).toNat + (64 : ℕ) * i)) n : ℚ) *
      2 ^ (a.expn - 64 * n) = b.mag := by
  obtain ⟨d, hd⟩ := Int.eq_ofNat_of_zero_le (Int.sub_nonneg.2 he)
  rw [hd, Int.toNat_natCast] at h ⊢
  obtain ⟨k, hk⟩ := Nat.exists_eq_add_of_le (show d ≤ 64 * (n - b.tab.length) by omega)
  have hn : (b.tab.length - n : ℤ) * 64 + d = -(k : ℤ) := by omega
  rw [hn, value_getBits_up b.tab (by omega)]
  push_cast
  rw [← zpow_natCast, mul_assoc, ← zpow_add₀ two_ne_zero]
  congr 2
  omega

theorem xor_mask (v : Limb) (isSub : Bool) : v ^^^ (if isSub then -1 else 0) = if isSub then ~~~v else v := by
  cases isSub
  · simp
  · exact BitVec.xor_allOnes

/-- The loop adds or subtracts. -/
theorem addLoop_mask (f g : ℕ → Limb) (n : ℕ) (isSub : Bool) (h : isSub = true → value g n ≤ value f n) :
    let p := addLoop f (fun i => g i ^^^ (if isSub then -1 else 0)) (if isSub then 1 else 0) n
    p.1.length = n ∧ (isSub = true → toNat p.1 + value g n = value f n) ∧
      (isSub = false → toNat p.1 + 2 ^ (64 * n) * p.2.toNat = value f n + value g n ∧ p.2.toNat ≤ 1) := by
  simp only [xor_mask]
  cases isSub with
  | false =>
    obtain ⟨hlen, hc, hv⟩ := addLoop_spec f g (c := (0 : Limb)) (by decide) n
    exact ⟨hlen, by simp, fun _ => ⟨hv, hc⟩⟩
  | true =>
    obtain ⟨hlen, hc, hv⟩ := addLoop_spec f (fun i => ~~~g i) (c := (1 : Limb)) (by decide) n
    have hnot := value_not g n
    have hlt := toNat_lt (addLoop f (fun i => ~~~g i) (1 : Limb) n).1
    have h := h rfl
    rw [hlen] at hlt
    refine ⟨hlen, fun _ => ?_, by simp⟩
    simp only [if_true]
    rw [show (1 : Limb).toNat = 1 from rfl] at hv
    -- the carry out is the borrow that was not needed
    have hcarry : (addLoop f (fun i => ~~~g i) (1 : Limb) n).2.toNat = 0 ∨
        (addLoop f (fun i => ~~~g i) (1 : Limb) n).2.toNat = 1 := by omega
    obtain hc0 | hc1 := hcarry
    · rw [hc0] at hv
      omega
    · rw [hc1] at hv
      omega

theorem normalize_of_mag (h : r.mag = q) (hr : InRange q) :
    Exact (signed r.sign q) (bfNormalizeAndRound r) := by
  subst h
  exact bfNormalizeAndRound_spec ((inRange_signed r.sign).2 hr)

theorem bfAddLimbs_spec {aSign isSub : Bool} (hle : b.mag ≤ a.mag)
    (he : b.expn ≤ a.expn) (hr : InRange (if isSub then a.mag - b.mag else a.mag + b.mag)) :
    Spec (bfAddLimbs r a b aSign isSub)
      (Exact (signed aSign (if isSub then a.mag - b.mag else a.mag + b.mag))) Refused := by
  refine .bind (bfResize_spec r _) ?_ (by rintro _ rfl; exact .pure ⟨rfl, rfl⟩)
  rintro _ ⟨r', rfl, -⟩
  simp only
  generalize hn : max a.tab.length (b.tab.length + ((a.expn - b.expn).toNat + 63) / 64) = n
  have hf := value_limb a.tab (n := n) (by omega)
  have hg := Bf.row (n := n) he (by omega)
  have hma := a.mag_eq (n := n) (by omega)
  rw [← hf] at hma
  have hpos : (0 : ℚ) < 2 ^ (a.expn - 64 * n) := by positivity
  -- what a row stands for
  have hmag : ∀ (e : ℤ) (tab : List Limb) (m : ℕ), tab.length = m → e - 64 * m = a.expn - 64 * n →
      (⟨aSign, e, tab⟩ : Bf).mag = toNat tab * 2 ^ (a.expn - 64 * n) := by
    rintro e tab m rfl h
    unfold Bf.mag
    rw [h]
  have hloop := addLoop_mask (fun i : ℕ => limb a.tab (a.tab.length - n + i))
    (fun i => getBits b.tab ((b.tab.length - n : ℤ) * 64 + (a.expn - b.expn).toNat + (64 : ℕ) * i)) n isSub fun _ => by
      rw [← hg, hma, mul_le_mul_iff_left₀ hpos] at hle
      exact_mod_cast hle
  generalize addLoop _ _ _ _ = p at hloop ⊢
  generalize value (fun i => getBits b.tab _) n = vb at hg hloop
  generalize value (fun i => limb a.tab _) n = va at hma hf hloop
  obtain ⟨tab, carry⟩ := p
  obtain ⟨hlen, hsub, hadd⟩ := hloop
  dsimp only at hlen hsub hadd ⊢
  cases isSub with
  | true =>
    have hv : (toNat tab : ℚ) + vb = va := by exact_mod_cast hsub rfl
    refine .pure (normalize_of_mag (r := ⟨aSign, a.expn, tab⟩) ?_ hr)
    rw [hmag _ _ n hlen rfl, ← hg, hma, ← hv, if_pos rfl]
    ring
  | false =>
    obtain ⟨hv, hc⟩ := hadd rfl
    have hv' : (toNat tab : ℚ) + 2 ^ (64 * n) * carry.toNat = va + vb := by exact_mod_cast hv
    have hsum : a.mag + b.mag = (va + vb) * 2 ^ (a.expn - 64 * n) := by
      rw [← hg, hma]
      ring
    by_cases h0 : carry = 0
    · rw [if_neg (by simp [h0])]
      refine .pure (normalize_of_mag (r := ⟨aSign, a.expn, tab⟩) ?_ hr)
      rw [hmag _ _ n hlen rfl, hsum, ← hv', h0]
      simp
    · rw [if_pos (by simpa using h0)]
      refine .bind (bfResize_spec _ _) ?_ (by rintro _ rfl; exact .pure ⟨rfl, rfl⟩)
      rintro _ ⟨r'', rfl, -⟩
      refine .pure (normalize_of_mag (r := ⟨aSign, a.expn + 64, tab ++ [1]⟩) ?_ hr)
      have h1 : carry.toNat = 1 := by
        have : carry.toNat ≠ 0 := fun h => h0 (BitVec.eq_of_toNat_eq h)
        omega
      rw [hmag _ _ (n + 1) (by simp [hlen]) (by push_cast; ring), hsum, ← hv', h1, toNat_append, hlen]
      push_cast
      rfl

/-! ### Sums -/

theorem Bf.Normal.expn_le (ha : a.Normal) (hb : b.Normal) (h : b.mag ≤ a.mag) : b.expn ≤ a.expn := by
  by_contra hlt
  exact absurd (Bf.mag_lt_of_expn ha hb (by omega)) (not_lt.2 h)

theorem Bf.Normal.expn_lt_inf (ha : a.Normal) : a.expn < bfExpInf := by
  unfold bfExpInf
  obtain ⟨-, he⟩ | ⟨_, -, -, -, he⟩ := ha.cases
  · rw [he]
    decide
  · unfold eMax at he
    omega

/-- Both operands have limbs. -/
theorem bfAddInternal_spec (bNeg : Bool) (ha : a.Normal) (hb : b.Normal) (ha0 : a.tab ≠ [])
    (hb0 : b.tab ≠ []) (hr : InRange (a.val + signed bNeg b.val)) :
    Spec (bfAddInternal r a b bNeg) (Exact (a.val + signed bNeg b.val)) Refused := by
  obtain ⟨hlt, heq⟩ := bfCmpu_spec ha hb
  rw [b.val_eq, signed_signed, a.val_eq] at hr ⊢
  generalize hs : (b.sign ^^ bNeg) = bSign at hr ⊢
  unfold bfAddInternal
  rw [hs]
  by_cases hcmp : bfCmpu a b < 0
  · have hm := (hlt.1 hcmp).le
    simp only [hcmp]
    rw [if_neg (by simp; omega), if_neg (by simp [ha0, hb0])]
    rw [add_comm, signed_add, Bool.xor_comm bSign] at hr ⊢
    exact bfAddLimbs_spec hm (hb.expn_le ha hm) ((inRange_signed _).1 hr)
  · have hm : b.mag ≤ a.mag := not_lt.1 fun h => hcmp (hlt.2 h)
    simp only [hcmp]
    rw [signed_add] at hr ⊢
    by_cases h0 : bfCmpu a b = 0 ∧ (a.sign ^^ bSign) = true
    · rw [if_pos (by simp [h0.1, h0.2, ha.expn_lt_inf]), if_pos h0.2, heq.1 h0.1]
      refine .pure ⟨rfl, .zero false, ?_⟩
      rw [Bf.val_eq, Bf.mag_of_nil rfl]
      cases a.sign <;> simp [signed]
    · rw [if_neg (by intro h; simp at h; exact h0 ⟨h.1.1, by simpa using h.1.2⟩), if_neg (by simp [ha0, hb0])]
      exact bfAddLimbs_spec hm (ha.expn_le hb hm) ((inRange_signed _).1 hr)

/-- What is not a number is larger than all numbers. -/
theorem bfCmpu_nan (ha : a.IsNan) (hb : b.Normal ∨ b.IsNan) : ¬ bfCmpu a b < 0 := by
  unfold bfCmpu
  obtain hb | hb := hb
  · have hlt : b.expn < a.expn := by rw [ha.1]; exact hb.expn_lt_inf.trans_le (by decide)
    rw [if_pos hlt.ne', if_neg hlt.not_gt]
    decide
  · rw [if_neg (by simp [ha.1, hb.1]), ha.2, hb.2]
    simp [cmpLoop]

/-- A sum with a number that there was no memory for. -/
theorem bfAddInternal_nan {bNeg : Bool} (h : (a.IsNan ∧ (b.Normal ∨ b.IsNan)) ∨ (a.Normal ∧ b.IsNan)) :
    bfAddInternal r a b bNeg = pure (bfSetNan, 0) := by
  have hinf : bfExpInf ≤ bfExpNan := by decide
  unfold bfAddInternal
  obtain ⟨⟨hae, hat⟩, hb⟩ | ⟨ha, hbe, hbt⟩ := h
  · have hcmp := bfCmpu_nan ⟨hae, hat⟩ hb
    simp only [hcmp, if_false]
    rw [if_neg (by simp [hae, hinf]), if_pos (by simp [hat]), if_pos (by rw [hae]; exact hinf), if_pos hae]
  · have hlt : a.expn < b.expn := by rw [hbe]; exact ha.expn_lt_inf.trans_le hinf
    have hcmp : bfCmpu a b < 0 := by
      unfold bfCmpu
      rw [if_pos hlt.ne, if_pos hlt]
      decide
    simp only [hcmp, if_true]
    rw [if_neg (by simp; omega), if_pos (by simp [hbt]), if_pos (by rw [hbe]; exact hinf), if_pos hbe]

/-- A sum with zero is a copy; where there is no memory for it the result is zero, and no error is reported. -/
theorem bfAddInternal_zero {s : Bool} (bNeg : Bool) (hb : b.Normal) (hb0 : b.tab ≠ []) (hr : InRange b.val) :
    Spec (bfAddInternal r ⟨s, bfExpZero, []⟩ b bNeg) (Exact (signed bNeg b.val))
      (· = (bfSetZero (b.sign ^^ bNeg), 0)) := by
  have hlt : bfCmpu ⟨s, bfExpZero, []⟩ b < 0 := by
    rw [(bfCmpu_spec (.zero s) hb).1, Bf.mag_of_nil rfl]
    refine lt_of_le_of_ne b.mag_nonneg fun h => ?_
    obtain ⟨h0, -⟩ | ⟨n, hlen, htop, -, -⟩ := hb.cases
    · exact hb0 h0
    · have h1 := (Bf.mag_bounds hlen htop).1
      have h2 : (0 : ℚ) < 2 ^ (b.expn - 1) := by positivity
      linarith
  have hinf := hb.expn_lt_inf
  unfold bfAddInternal
  simp only [hlt, if_true]
  rw [if_neg (by simp; omega), if_pos (by simp), if_neg (by omega)]
  refine .bind (Q := (· = (b, 0))) (E := fun p => p.1 = bfSetNan) ?_ ?_ ?_
  · refine .bind (bfResize_spec _ _) ?_ ?_
    · rintro _ ⟨r', rfl, -⟩
      exact .pure rfl
    · rintro _ rfl
      exact .pure rfl
  · rintro _ rfl
    refine .pure ?_
    rw [b.val_eq, signed_signed]
    exact normalize_of_mag (r := ⟨b.sign ^^ bNeg, b.expn, b.tab⟩) rfl ((inRange_signed _).1 (by rwa [b.val_eq] at hr))
  · rintro ⟨p, st⟩ rfl
    exact .pure (bfNormalizeAndRound_zero rfl)

theorem Exact.tab_ne {p : Bf × Status} (h : Exact q p) (hq : q ≠ 0) : p.1.tab ≠ [] := by
  intro h0
  have hv := h.2.2
  rw [Bf.val_eq, Bf.mag_of_nil h0] at hv
  apply hq
  rw [← hv]
  cases p.1.sign <;> simp [signed]

/-- What is left of `bf_add_si` where there was no memory for the second number. -/
theorem bfAddSi_nan {ret : Status} (ha : a.Normal ∨ a.IsNan) (hb : b.IsNan) (hret : ret = bfStMemError) :
    After (do let (r, ret') ← bfAdd r a b; pure (r, ret ||| ret')) Refused := by
  have h : bfAdd r a b = pure (bfSetNan, 0) :=
    bfAddInternal_nan (ha.elim (fun h => .inr ⟨h, hb⟩) fun h => .inl ⟨h, .inr hb⟩)
  rw [h, hret]
  exact .pure ⟨rfl, rfl⟩

theorem bfAddSi_spec (ha : a.Normal) (ha0 : a.tab ≠ []) (hn : n ≠ 0) (hsmall : n.natAbs < 2 ^ 64)
    (hr : InRange (a.val + n)) : Spec (bfAddSi r a n) (Exact (a.val + n)) Refused := by
  refine .bind (bfSetSi_spec bfInit hn hsmall) ?_ ?_
  · rintro ⟨b, ret⟩ hb
    obtain ⟨rfl, hnorm, hval⟩ := hb
    have htab := Exact.tab_ne (p := (b, 0)) ⟨rfl, hnorm, hval⟩ (Int.cast_ne_zero.2 hn)
    have hadd := bfAddInternal_spec (r := r) false ha hnorm ha0 htab (by
      rw [hval]
      exact hr)
    rw [hval] at hadd
    refine .bind hadd ?_ ?_
    · rintro ⟨p, st⟩ ⟨rfl, hp, hv⟩
      exact .pure ⟨rfl, hp, hv⟩
    · rintro ⟨p, st⟩ ⟨rfl, rfl⟩
      exact .pure ⟨rfl, rfl⟩
  · rintro ⟨b, ret⟩ ⟨hb, rfl⟩
    exact bfAddSi_nan (.inl ha) hb rfl

/-- The first operand is zero. -/
theorem bfAddSi_zero {s : Bool} (hn : n ≠ 0) (hsmall : n.natAbs < 2 ^ 64) (hr : InRange n) :
    Spec (bfAddSi r ⟨s, bfExpZero, []⟩ n) (Exact n) fun p => Refused p ∨ ∃ t, p = (bfSetZero t, 0) := by
  refine .bind (bfSetSi_spec bfInit hn hsmall) ?_ ?_
  · rintro ⟨b, ret⟩ hb
    obtain ⟨rfl, hnorm, hval⟩ := hb
    have htab := Exact.tab_ne (p := (b, 0)) ⟨rfl, hnorm, hval⟩ (Int.cast_ne_zero.2 hn)
    have hadd := bfAddInternal_zero (r := r) (s := s) false hnorm htab (by rw [hval]; exact hr)
    rw [hval] at hadd
    refine .bind hadd ?_ ?_
    · rintro ⟨p, st⟩ ⟨rfl, hp, hv⟩
      exact .pure ⟨rfl, hp, hv⟩
    · rintro _ rfl
      exact .pure (.inr ⟨_, rfl⟩)
  · rintro ⟨b, ret⟩ ⟨hb, rfl⟩
    exact (bfAddSi_nan (.inl (.zero s)) hb rfl).mono fun _ h => .inl h

/-! ### Sums after memory was refused -/

theorem bfAddLimbs_after (r a b : Bf) (aSign isSub : Bool) : After (bfAddLimbs r a b aSign isSub) fun _ => True := by
  refine .bind (bfResize_after r _) fun o _ => ?_
  cases o with
  | none => exact .pure trivial
  | some _ =>
    refine .ite (.bind (bfResize_after _ _) fun o _ => ?_) (.pure trivial)
    cases o <;> exact .pure trivial

theorem bfAddInternal_after (r a b : Bf) (bNeg : Bool) : After (bfAddInternal r a b bNeg) fun _ => True := by
  unfold bfAddInternal
  dsimp only
  generalize (if bfCmpu a b < 0 then (b, a, b.sign ^^ bNeg) else (a, b, a.sign)) = t
  obtain ⟨a', b', aSign⟩ := t
  have hset : After (bfSet r a') fun _ => True := by
    refine .bind (bfResize_after _ _) fun o _ => ?_
    cases o <;> exact .pure trivial
  refine .ite (.pure trivial) (.ite (.ite ?_ ?_) (bfAddLimbs_after _ _ _ _ _))
  · exact .ite (.pure trivial) (.ite (.pure trivial) (.pure trivial))
  · exact .bind hset fun _ _ => .pure trivial

theorem bfAddSi_after (r a : Bf) (h0 : n ≠ 0) (hn : n.natAbs < 2 ^ 64) :
    After (bfAddSi r a n) fun _ => True := by
  refine .bind (bfSetSi_after bfInit h0 hn) fun p _ => ?_
  exact .bind (bfAddInternal_after _ _ _ _) fun _ _ => .pure trivial

/-! ### Sums and differences -/

/-- Of two numbers with limbs the sum and the difference are exact, the carries, borrows and limbs
that cancel included, if the result is in the range; where memory is refused it is NaN with an error. -/
theorem bfAdd_bfSub_exact (r : Bf) (ha : a.Normal) (hb : b.Normal) (ha0 : a.tab ≠ []) (hb0 : b.tab ≠ []) :
    (InRange (a.val + b.val) → Spec (bfAdd r a b) (Exact (a.val + b.val)) Refused) ∧
      (InRange (a.val - b.val) → Spec (bfSub r a b) (Exact (a.val - b.val)) Refused) :=
  ⟨bfAddInternal_spec false ha hb ha0 hb0, fun hr => sub_eq_add_neg a.val b.val ▸
    bfAddInternal_spec true ha hb ha0 hb0 (sub_eq_add_neg a.val b.val ▸ hr)⟩

/-- The limbs of 3 and -3 cancel. -/
theorem bfAdd_bfSub_exact_cancel : Spec (bfAdd bfInit ⟨false, 2, [3 <<< 62]⟩ ⟨true, 2, [3 <<< 62]⟩) (Exact 0) Refused := by
  have hsum : Bf.val ⟨false, 2, [3 <<< 62]⟩ + Bf.val ⟨true, 2, [3 <<< 62]⟩ = 0 := add_neg_cancel _
  have hspec := (bfAdd_bfSub_exact (a := ⟨false, 2, [3 <<< 62]⟩) (b := ⟨true, 2, [3 <<< 62]⟩) bfInit
    (.finite (n := 0) rfl (by decide) (by decide) (by decide) (by decide))
    (.finite (n := 0) rfl (by decide) (by decide) (by decide) (by decide)) (by decide) (by decide)).1
  rw [hsum] at hspec
  exact hspec fun h => absurd rfl h

end QuickJs.BigFloat
