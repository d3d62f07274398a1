import QuickJs.Limbs
import QuickJs.Requests

/-!
# Numbers of arbitrary precision

`bf_t`: a sign, limbs that are aligned at the top and an exponent. Here are the numbers, what is done to bring one to
its normal form, and the functions that give a number a small value. All of it is at the precision `BF_PREC_INF` and
in the mode `BF_RNDZ`, with which nothing is rounded: no bit lies behind the last one that counts.

Memory comes from `bf_realloc`, which may refuse it.
-/

namespace QuickJs.BigFloat

open Limbs Requests

/-! ### The data -/

abbrev Limb : Type := BitVec 64

structure Bf where
  sign : Bool
  expn : ℤ
  tab : List Limb
deriving DecidableEq, Repr

/-- The flags of a result. -/
abbrev Status : Type := ℕ

def bfStInvalidOp : Status := 1
def bfStOverflow : Status := 4
def bfStUnderflow : Status := 8
def bfStInexact : Status := 16
def bfStMemError : Status := 32

def bfExpZero : ℤ := -2 ^ 63
def bfExpInf : ℤ := 2 ^ 63 - 2
def bfExpNan : ℤ := 2 ^ 63 - 1

/-- The largest exponent and the least of the default range, `BF_EXP_BITS_MAX` bits. -/
def eMax : ℤ := 2 ^ 60
def eMin : ℤ := -2 ^ 60 + 3

def bfInit : Bf := ⟨false, bfExpZero, []⟩

def bfSetNan : Bf := ⟨false, bfExpNan, []⟩

def bfSetZero (isNeg : Bool) : Bf := ⟨isNeg, bfExpZero, []⟩

def bfSetInf (isNeg : Bool) : Bf := ⟨isNeg, bfExpInf, []⟩

/-- No address space has room for so many limbs: they are 2^57 bytes. -/
def limbsMax : ℕ := 2 ^ 54

/-! ### Memory -/

/-- A block of `old` limbs is made one of `len`. A block that shrinks stays where it is. -/
def bfRealloc (old len : ℕ) : Asking Bool :=
  if len ≤ old then pure true else if limbsMax ≤ len then refuse else request

/-- `none` is the code's `-1`. What is in new limbs is not said; all of the callers write them. -/
def bfResize (r : Bf) (len : ℕ) : Asking (Option Bf) :=
  if len = r.tab.length then pure (some r)
  else do
    let ok ← bfRealloc r.tab.length len
    if !ok && len ≠ 0 then pure none
    else pure (some { r with tab := r.tab.takeD len 0 })

/-! ### Small values -/

def clz (v : Limb) : ℕ :=
  if v = 0 then 64 else 63 - v.toNat.log2

def bfSetUi (r : Bf) (a : Limb) : Asking (Bf × Status) :=
  if a = 0 then pure (⟨false, bfExpZero, []⟩, 0)
  else do
    match ← bfResize r 1 with
    | none => pure (bfSetNan, bfStMemError)
    | some _ => pure (⟨false, 64 - clz a, [a <<< clz a]⟩, 0)

def bfSetSi (r : Bf) (a : ℤ) : Asking (Bf × Status) :=
  if a < 0 then do
    let (r, ret) ← bfSetUi r (BitVec.ofInt 64 (-a))
    pure ({ r with sign := true }, ret)
  else bfSetUi r (BitVec.ofInt 64 a)

def bfSet (r a : Bf) : Asking (Bf × Status) := do
  match ← bfResize r a.tab.length with
  | none => pure (bfSetNan, bfStMemError)
  | some _ => pure (a, 0)

/-! ### The normal form -/

/-- `__bf_round`: the range of the exponent is checked and the zeros at the bottom are removed. -/
def bfRound (r : Bf) : Bf × Status :=
  if r.expn < eMin then (bfSetZero r.sign, bfStUnderflow ||| bfStInexact)
  else if eMax < r.expn then (bfSetInf r.sign, bfStOverflow ||| bfStInexact)
  else ({ r with tab := r.tab.dropWhile (· == 0) }, 0)

def bfNormalizeAndRound (r : Bf) : Bf × Status :=
  let l := topLen (fun i => r.tab.getD i 0) r.tab.length
  if l = 0 then ({ r with expn := bfExpZero, tab := [] }, 0)
  else
    let expn := r.expn - (r.tab.length - l : ℕ) * 64
    let shift := clz (r.tab.getD (l - 1) 0)
    let tab := r.tab.take l
    if shift ≠ 0 then bfRound { r with expn := expn - shift, tab := shiftLeft shift 0 tab }
    else bfRound { r with expn, tab }

def bfMul2exp (r : Bf) (e : ℤ) : Bf × Status :=
  if r.tab = [] then (r, 0)
  else
    let eMax := 2 ^ 62 - 1
    let e := max e (-eMax)
    let e := min e eMax
    bfRound { r with expn := r.expn + e }

/-! ### The value -/

/-- The absolute value of a number that is finite. -/
def Bf.mag (a : Bf) : ℚ :=
  toNat a.tab * 2 ^ (a.expn - 64 * a.tab.length)

def Bf.val (a : Bf) : ℚ :=
  if a.sign then -a.mag else a.mag

/-- A finite number as the library leaves it: zero, or the bit at the top and a limb at the bottom that are not zero.-/
inductive Bf.Normal : Bf → Prop
  | zero (sign : Bool) : Bf.Normal ⟨sign, bfExpZero, []⟩
  | finite {a : Bf} {n : ℕ} (len : a.tab.length = n + 1) (top : 2 ^ (64 * n + 63) ≤ toNat a.tab)
      (bottom : a.tab.head? ≠ some 0) (low : eMin ≤ a.expn) (high : a.expn ≤ eMax) : Bf.Normal a

/-- The exponent of such a number is in the range, if it is not zero. -/
def InRange (q : ℚ) : Prop :=
  q ≠ 0 → 2 ^ (eMin - 1) ≤ |q| ∧ |q| < 2 ^ eMax

/-- A result without an error, which is the number `q`. -/
def Exact (q : ℚ) (p : Bf × Status) : Prop :=
  p.2 = 0 ∧ p.1.Normal ∧ p.1.val = q

/-- A result where memory was refused. -/
def Refused (p : Bf × Status) : Prop :=
  p.1 = bfSetNan ∧ p.2 = bfStMemError

theorem Bf.mag_nonneg (a : Bf) : 0 ≤ a.mag := by
  unfold Bf.mag
  positivity

theorem Bf.abs_val (a : Bf) : |a.val| = a.mag := by
  unfold Bf.val
  split
  · rw [abs_neg, abs_of_nonneg a.mag_nonneg]
  · exact abs_of_nonneg a.mag_nonneg

theorem Bf.mag_of_nil {a : Bf} (h : a.tab = []) : a.mag = 0 := by simp [Bf.mag, h]

variable {n : ℕ} {r : Bf} {a : Limb}

/-- How far the bit at the top is from the exponent. -/
theorem Bf.mag_bounds {a : Bf} (hlen : a.tab.length = n + 1) (htop : 2 ^ (64 * n + 63) ≤ toNat a.tab) :
    (2 : ℚ) ^ (a.expn - 1) ≤ a.mag ∧ a.mag < 2 ^ a.expn := by
  have hlt : (toNat a.tab : ℚ) < 2 ^ (64 * a.tab.length) := by exact_mod_cast toNat_lt a.tab
  have hle : (2 : ℚ) ^ (64 * n + 63) ≤ toNat a.tab := by exact_mod_cast htop
  have hpos : (0 : ℚ) < 2 ^ (a.expn - 64 * a.tab.length) := by positivity
  constructor
  · calc (2 : ℚ) ^ (a.expn - 1)
      _ = 2 ^ (64 * n + 63) * 2 ^ (a.expn - 64 * a.tab.length) := by
        rw [← zpow_natCast, ← zpow_add₀ two_ne_zero, hlen]
        congr 1
        push_cast
        ring
      _ ≤ toNat a.tab * 2 ^ (a.expn - 64 * a.tab.length) := mul_le_mul_of_nonneg_right hle hpos.le
  · calc (toNat a.tab : ℚ) * 2 ^ (a.expn - 64 * a.tab.length)
      _ < 2 ^ (64 * a.tab.length) * 2 ^ (a.expn - 64 * a.tab.length) := mul_lt_mul_of_pos_right hlt hpos
      _ = 2 ^ a.expn := by
        rw [← zpow_natCast, ← zpow_add₀ two_ne_zero]
        congr 1
        push_cast
        ring

/-- The exponent of a number that is in the range. -/
theorem Bf.expn_mem {a : Bf} (hlen : a.tab.length = n + 1) (htop : 2 ^ (64 * n + 63) ≤ toNat a.tab)
    (hr : (2 : ℚ) ^ (eMin - 1) ≤ a.mag ∧ a.mag < 2 ^ eMax) : eMin ≤ a.expn ∧ a.expn ≤ eMax := by
  obtain ⟨hlo, hhi⟩ := Bf.mag_bounds hlen htop
  have h1 : eMin - 1 < a.expn := (zpow_lt_zpow_iff_right₀ one_lt_two).1 (hr.1.trans_lt hhi)
  have h2 : a.expn - 1 < eMax := (zpow_lt_zpow_iff_right₀ one_lt_two).1 (hlo.trans_lt hr.2)
  omega

/-! ### What the normal form keeps -/

theorem bfRound_spec (hlen : r.tab.length = n + 1) (htop : 2 ^ (64 * n + 63) ≤ toNat r.tab)
    (hr : (2 : ℚ) ^ (eMin - 1) ≤ r.mag ∧ r.mag < 2 ^ eMax) : Exact r.val (bfRound r) := by
  obtain ⟨hlow, hhigh⟩ := Bf.expn_mem hlen htop hr
  have hdrop := toNat_dropWhile r.tab
  have hle := (List.dropWhile_suffix (· == 0) (l := r.tab)).length_le
  unfold bfRound
  rw [if_neg (by omega), if_neg (by omega)]
  generalize htab : r.tab.dropWhile (· == 0) = tab at hdrop hle
  -- the limbs that are removed
  obtain ⟨k, hk⟩ := Nat.exists_eq_add_of_le hle
  rw [hk, Nat.add_sub_cancel_left] at hdrop
  have hne : tab ≠ [] := by
    rintro rfl
    have := Nat.two_pow_pos (64 * n + 63)
    rw [toNat_nil] at hdrop
    omega
  obtain ⟨m, hm⟩ := Nat.exists_eq_succ_of_ne_zero (List.length_pos_of_ne_nil hne).ne'
  have hmag : (⟨r.sign, r.expn, tab⟩ : Bf).mag = r.mag := by
    unfold Bf.mag
    rw [hdrop, hk]
    push_cast
    rw [← zpow_natCast, mul_comm ((2 : ℚ) ^ _), mul_assoc, ← zpow_add₀ two_ne_zero]
    congr 2
    push_cast
    ring
  refine ⟨rfl, .finite hm ?_ ?_ hlow hhigh, by unfold Bf.val; rw [hmag]⟩
  · rw [hdrop, show 64 * n + 63 = 64 * k + (64 * m + 63) by omega, Nat.pow_add] at htop
    exact Nat.le_of_mul_le_mul_left htop (Nat.two_pow_pos _)
  · have h := List.head?_dropWhile_not (· == (0 : Limb)) r.tab
    rw [htab] at h
    intro h0
    rw [h0] at h
    simp at h

theorem clz_spec {v : Limb} (hv : v ≠ 0) :
    clz v < 64 ∧ 2 ^ 63 ≤ v.toNat * 2 ^ clz v ∧ (v.toNat + 1) * 2 ^ clz v ≤ 2 ^ 64 := by
  have h0 : v.toNat ≠ 0 := fun h => hv (BitVec.eq_of_toNat_eq h)
  have hlog : v.toNat.log2 < 64 := (Nat.log2_lt h0).2 v.isLt
  have h1 := Nat.log2_self_le h0
  have h2 : v.toNat < 2 ^ (v.toNat.log2 + 1) := Nat.lt_log2_self
  unfold clz
  rw [if_neg hv]
  refine ⟨by omega, ?_, ?_⟩
  · calc 2 ^ 63
      _ = 2 ^ v.toNat.log2 * 2 ^ (63 - v.toNat.log2) := by rw [← Nat.pow_add]; congr 1; omega
      _ ≤ v.toNat * 2 ^ (63 - v.toNat.log2) := Nat.mul_le_mul_right _ h1
  · calc (v.toNat + 1) * 2 ^ (63 - v.toNat.log2)
      _ ≤ 2 ^ (v.toNat.log2 + 1) * 2 ^ (63 - v.toNat.log2) := Nat.mul_le_mul_right _ h2
      _ = 2 ^ 64 := by rw [← Nat.pow_add]; congr 1; omega

/-- The bit at the top of a row is brought to the top of its limb. -/
theorem value_clz {f : ℕ → Limb} {m : ℕ} (hv : f m ≠ 0) :
    2 ^ (64 * m + 63) ≤ value f (m + 1) * 2 ^ clz (f m) ∧ value f (m + 1) * 2 ^ clz (f m) < 2 ^ (64 * (m + 1)) := by
  obtain ⟨-, hlo, hhi⟩ := clz_spec hv
  have hlt := value_lt f m
  constructor
  · calc 2 ^ (64 * m + 63)
      _ = 2 ^ 63 * 2 ^ (64 * m) := by rw [Nat.add_comm, Nat.pow_add]
      _ ≤ (f m).toNat * 2 ^ clz (f m) * 2 ^ (64 * m) := Nat.mul_le_mul_right _ hlo
      _ = (f m).toNat * 2 ^ (64 * m) * 2 ^ clz (f m) := by ring
      _ ≤ (value f m + (f m).toNat * 2 ^ (64 * m)) * 2 ^ clz (f m) := Nat.mul_le_mul_right _ (Nat.le_add_left _ _)
  · calc (value f m + (f m).toNat * 2 ^ (64 * m)) * 2 ^ clz (f m)
      _ < ((f m).toNat + 1) * 2 ^ (64 * m) * 2 ^ clz (f m) :=
        Nat.mul_lt_mul_of_pos_right (by rw [Nat.succ_mul (f m).toNat]; omega) (Nat.two_pow_pos _)
      _ = ((f m).toNat + 1) * 2 ^ clz (f m) * 2 ^ (64 * m) := by ring
      _ ≤ 2 ^ 64 * 2 ^ (64 * m) := Nat.mul_le_mul_right _ hhi
      _ = 2 ^ (64 * (m + 1)) := by rw [← Nat.pow_add]; congr 1; ring

theorem toNat_take {tab : List Limb} {l : ℕ} (hl : l ≤ tab.length) :
    toNat (tab.take l) = value (fun i => tab.getD i 0) l := by
  unfold Limbs.toNat
  rw [List.length_take, Nat.min_eq_left hl]
  apply value_congr
  intro i hi
  simp [hi]

theorem InRange.mag (hr : InRange r.val) (h0 : toNat r.tab ≠ 0) :
    (2 : ℚ) ^ (eMin - 1) ≤ r.mag ∧ r.mag < 2 ^ eMax := by
  have hpos : 0 < r.mag := by
    unfold Bf.mag
    positivity
  have h := hr fun hv => by
    have hm := r.abs_val
    rw [hv] at hm
    exact hpos.ne hm
  rwa [r.abs_val] at h

/-- A row that is another one, moved up. -/
theorem Bf.val_moved {l s : ℕ} {tab : List Limb} (hl : l ≤ r.tab.length) (hlen : tab.length = l)
    (htab : toNat tab = toNat r.tab * 2 ^ s) :
    (⟨r.sign, r.expn - (r.tab.length - l : ℕ) * 64 - s, tab⟩ : Bf).val = r.val := by
  have hmag : (⟨r.sign, r.expn - (r.tab.length - l : ℕ) * 64 - s, tab⟩ : Bf).mag = r.mag := by
    unfold Bf.mag
    simp only [htab, hlen]
    push_cast [Nat.cast_sub hl]
    rw [← zpow_natCast, mul_assoc, ← zpow_add₀ two_ne_zero]
    congr 2
    ring
  unfold Bf.val
  rw [hmag]

theorem bfNormalizeAndRound_zero (h0 : toNat r.tab = 0) : bfNormalizeAndRound r = (bfSetZero r.sign, 0) := by
  have hval : value (fun i => r.tab.getD i 0) (topLen (fun i => r.tab.getD i 0) r.tab.length) = 0 :=
    (value_topLen _ _).trans h0
  have htop := @topLen_top _ (fun i => r.tab.getD i 0) r.tab.length
  unfold bfNormalizeAndRound
  generalize topLen (fun i => r.tab.getD i 0) r.tab.length = l at hval htop ⊢
  cases l with
  | zero => rfl
  | succ m =>
    have h := (value_clz (f := fun i => r.tab.getD i 0) (htop rfl)).1
    rw [hval, Nat.zero_mul] at h
    exact absurd (Nat.two_pow_pos _) (Nat.not_lt.2 h)

/-- The zeros at the top go away, and the bit below them moves to the top. -/
theorem bfNormalizeAndRound_spec (hr : InRange r.val) : Exact r.val (bfNormalizeAndRound r) := by
  by_cases hne : toNat r.tab = 0
  · rw [bfNormalizeAndRound_zero hne]
    refine ⟨rfl, .zero r.sign, ?_⟩
    simp [Bf.val, Bf.mag, hne, bfSetZero]
  have hle := topLen_le (fun i => r.tab.getD i 0) r.tab.length
  have hval : value (fun i => r.tab.getD i 0) (topLen (fun i => r.tab.getD i 0) r.tab.length) = toNat r.tab :=
    value_topLen _ _
  have htop := @topLen_top _ (fun i => r.tab.getD i 0) r.tab.length
  unfold bfNormalizeAndRound
  generalize topLen (fun i => r.tab.getD i 0) r.tab.length = l at hle hval htop ⊢
  cases l with
  | zero => exact absurd hval.symm hne
  | succ m =>
    have hv := htop rfl
    obtain ⟨hlo, hhi⟩ := value_clz (f := fun i => r.tab.getD i 0) hv
    have hs := (clz_spec hv).1
    rw [hval] at hlo hhi
    simp only [Nat.add_sub_cancel, Nat.succ_ne_zero, if_false]
    generalize clz (r.tab.getD m 0) = shift at hs hlo hhi ⊢
    -- the row that is rounded
    have key : ∀ tab : List Limb, tab.length = m + 1 → toNat tab = toNat r.tab * 2 ^ shift →
        Exact r.val (bfRound ⟨r.sign, r.expn - (r.tab.length - (m + 1) : ℕ) * 64 - shift, tab⟩) := by
      intro tab hlen htab
      have hv := Bf.val_moved hle hlen htab
      rw [← hv] at hr ⊢
      exact bfRound_spec hlen (by rw [htab]; exact hlo) (hr.mag (by rw [htab]; positivity))
    by_cases h0 : shift = 0
    · rw [if_neg (by simpa using h0)]
      have h := key (r.tab.take (m + 1)) (by simp; omega) (by rw [toNat_take hle, hval, h0]; simp)
      rw [h0] at h
      simpa using h
    · rw [if_pos h0]
      have hlen : (r.tab.take (m + 1)).length = m + 1 := by simp; omega
      apply key
      · rw [length_shiftLeft, hlen]
      · rw [toNat_shiftLeft hs.le, toNat_take hle, hval, hlen, show (0 : Limb).toNat = 0 from rfl, Nat.zero_div]
        exact Nat.mod_eq_of_lt hhi

/-! ### Memory that is refused -/

theorem bfResize_after (r : Bf) (len : ℕ) : After (bfResize r len) fun _ => True := by
  unfold bfResize bfRealloc
  split
  · exact .pure trivial
  · refine .bind (E := fun _ => True) ?_ fun ok _ => by split <;> exact .pure trivial
    split
    · exact .pure trivial
    · split
      · exact After.refuse.mono fun _ _ => trivial
      · exact After.request

/-- There is room for what was served. -/
theorem bfResize_spec (r : Bf) (len : ℕ) :
    Spec (bfResize r len) (fun o => ∃ r', o = some r' ∧ (len < limbsMax ∨ len ≤ r.tab.length)) (· = none) := by
  unfold bfResize bfRealloc
  split <;> rename_i hlen
  · exact .pure ⟨r, rfl, .inr hlen.le⟩
  · split <;> rename_i hle
    · exact .bind (Q := (· = true)) (E := fun _ => False) (.pure rfl)
        (by rintro _ rfl; exact .pure ⟨_, rfl, .inr hle⟩) (fun _ h => h.elim)
    · have h0 : len ≠ 0 := by omega
      split <;> rename_i hmax
      · exact .bind (Q := fun _ => False) .refuse (fun _ h => h.elim) (by
          rintro _ rfl
          rw [if_pos (by simpa using h0)]
          exact .pure rfl)
      · refine .bind .request ?_ ?_
        · rintro _ rfl
          exact .pure ⟨_, rfl, .inl (by omega)⟩
        · rintro _ rfl
          rw [if_pos (by simpa using h0)]
          exact .pure rfl

/-- A number without limbs that is not finite. -/
def Bf.IsNan (a : Bf) : Prop :=
  a.expn = bfExpNan ∧ a.tab = []

theorem isNan_bfSetNan : bfSetNan.IsNan := ⟨rfl, rfl⟩

theorem toNat_shiftLeft_clz {v : Limb} (h : v ≠ 0) : (v <<< clz v).toNat = v.toNat * 2 ^ clz v := by
  obtain ⟨-, -, hhi⟩ := clz_spec h
  rw [BitVec.toNat_shiftLeft]
  have := Nat.two_pow_pos (clz v)
  rw [Nat.succ_mul] at hhi
  omega

theorem normal_small (s : Bool) (ha : a ≠ 0) : Bf.Normal ⟨s, 64 - clz a, [a <<< clz a]⟩ := by
  obtain ⟨hlt, hlo, -⟩ := clz_spec ha
  have hv := toNat_shiftLeft_clz ha
  refine .finite (n := 0) rfl ?_ ?_ ?_ ?_
  · rw [toNat_singleton, hv]
    exact hlo
  · intro h
    have h0 : a <<< clz a = 0 := by simpa using h
    rw [h0, show (0 : Limb).toNat = 0 from rfl] at hv
    omega
  · unfold eMin
    dsimp only
    omega
  · unfold eMax
    dsimp only
    omega

theorem bfSetUi_spec (r : Bf) (ha : a ≠ 0) :
    Spec (bfSetUi r a) (fun p => Exact a.toNat p ∧ p.1.sign = false) Refused := by
  unfold bfSetUi
  rw [if_neg ha]
  refine .bind (bfResize_spec r 1) ?_ ?_
  · rintro _ ⟨r', rfl, -⟩
    refine .pure ⟨⟨rfl, normal_small false ha, ?_⟩, rfl⟩
    simp only [Bf.val, Bf.mag, toNat_singleton, toNat_shiftLeft_clz ha]
    simp
  · rintro _ rfl
    exact .pure ⟨rfl, rfl⟩

theorem toNat_ofInt (h : n < 2 ^ 64) : (BitVec.ofInt 64 n).toNat = n := by
  rw [BitVec.ofInt_natCast, BitVec.toNat_ofNat, Nat.mod_eq_of_lt h]

theorem ofInt_ne_zero (h0 : n ≠ 0) (h : n < 2 ^ 64) : BitVec.ofInt 64 n ≠ 0 := by
  intro hz
  have hn := toNat_ofInt h
  rw [hz] at hn
  exact h0 hn.symm

theorem bfSetSi_spec (r : Bf) {a : ℤ} (h0 : a ≠ 0) (ha : a.natAbs < 2 ^ 64) :
    Spec (bfSetSi r a) (Exact a) fun p => p.1.IsNan ∧ p.2 = bfStMemError := by
  obtain ⟨n, rfl | rfl⟩ := a.eq_nat_or_neg
  · have hn : n < 2 ^ 64 := by simpa using ha
    have hne := ofInt_ne_zero (n := n) (by omega) hn
    refine (bfSetUi_spec r hne).mono (fun p hp => ?_) fun p hp => ⟨by rw [hp.1]; exact isNan_bfSetNan, hp.2⟩
    have h := hp.1
    rwa [toNat_ofInt hn] at h
  · have hn : n < 2 ^ 64 := by simpa using ha
    have hne := ofInt_ne_zero (n := n) (by omega) hn
    unfold bfSetSi
    rw [if_pos (by omega), neg_neg]
    refine .bind (bfSetUi_spec r hne) ?_ ?_
    · rintro ⟨p, st⟩ ⟨⟨rfl, hnorm, hval⟩, hsign⟩
      refine .pure ⟨rfl, ?_, ?_⟩
      · cases hnorm with
        | zero sign => exact .zero true
        | finite len top bottom low high => exact .finite len top bottom low high
      · unfold Bf.val at hval ⊢
        rw [hsign, toNat_ofInt hn] at hval
        exact congrArg Neg.neg hval
    · rintro ⟨p, st⟩ ⟨rfl, rfl⟩
      exact .pure ⟨⟨rfl, rfl⟩, rfl⟩

/-- A power of two as a factor. -/
theorem bfMul2exp_spec {e : ℤ} (h : r.Normal) (h0 : r.tab ≠ []) (he : |e| < 2 ^ 62)
    (hr : InRange (r.val * 2 ^ e)) : Exact (r.val * 2 ^ e) (bfMul2exp r e) := by
  obtain ⟨hlo, hhi⟩ := abs_lt.1 he
  have hval : (⟨r.sign, r.expn + e, r.tab⟩ : Bf).val = r.val * 2 ^ e := by
    unfold Bf.val Bf.mag
    rw [add_sub_right_comm, zpow_add₀ two_ne_zero]
    cases r.sign
    · simp [mul_assoc]
    · simp [mul_assoc]
  have hclamp : min (max e (-(2 ^ 62 - 1))) (2 ^ 62 - 1) = e := by omega
  unfold bfMul2exp
  rw [if_neg h0]
  dsimp only
  rw [hclamp]
  cases h with
  | zero sign => exact absurd rfl h0
  | finite len top _ _ _ =>
    rw [← hval] at hr ⊢
    have hpos : Limbs.toNat r.tab ≠ 0 := (lt_of_lt_of_le (Nat.two_pow_pos _) top).ne'
    exact bfRound_spec (r := ⟨r.sign, r.expn + e, r.tab⟩) len top (hr.mag hpos)

/-- A number that has limbs has room for one. -/
theorem bfSetUi_of_tab_ne (a : Limb) (ha : a ≠ 0) (h : r.tab ≠ []) :
    bfSetUi r a = pure (⟨false, 64 - clz a, [a <<< clz a]⟩, 0) := by
  have hlen := List.length_pos_of_ne_nil h
  have hres : bfResize r 1 = pure (some r) ∨ bfResize r 1 = pure (some { r with tab := r.tab.takeD 1 0 }) := by
    unfold bfResize bfRealloc
    split
    · exact .inl rfl
    · rw [if_pos (by omega)]
      exact .inr rfl
  unfold bfSetUi
  rw [if_neg ha]
  obtain hres | hres := hres <;> rw [hres] <;> rfl

/-- Whatever the answer is, the number is set or it is not a number. -/
theorem bfSetUi_cases (r : Bf) (ha : a ≠ 0) (h : Heap) :
    (bfSetUi r a h).1 = (⟨false, 64 - clz a, [a <<< clz a]⟩, 0) ∨ (bfSetUi r a h).1 = (bfSetNan, bfStMemError) := by
  unfold bfSetUi
  rw [if_neg ha, bind_apply]
  cases (bfResize r 1 h).1 with
  | none => exact .inr rfl
  | some _ => exact .inl rfl

/-- A small number is one, or it is not a number. -/
theorem bfSetUi_after (r : Bf) (ha : a ≠ 0) :
    After (bfSetUi r a) fun p => p.1 = ⟨false, 64 - clz a, [a <<< clz a]⟩ ∨ p.1 = bfSetNan := by
  unfold bfSetUi
  rw [if_neg ha]
  refine .bind (bfResize_after r 1) fun o _ => ?_
  cases o with
  | none => exact .pure (.inr rfl)
  | some _ => exact .pure (.inl rfl)

theorem bfSetSi_after (r : Bf) {n : ℤ} (h0 : n ≠ 0) (hn : n.natAbs < 2 ^ 64) :
    After (bfSetSi r n) fun p => p.1.Normal ∨ p.1.IsNan := by
  unfold bfSetSi
  split <;> rename_i hneg
  · have hne : BitVec.ofInt 64 (-n) ≠ 0 := by
      have h := ofInt_ne_zero (n := n.natAbs) (by omega) hn
      rwa [show ((n.natAbs : ℕ) : ℤ) = -n by omega] at h
    refine .bind (bfSetUi_after r hne) ?_
    rintro ⟨p, st⟩ (rfl | rfl)
    · exact .pure (.inl (normal_small true hne))
    · exact .pure (.inr ⟨rfl, rfl⟩)
  · have hne : BitVec.ofInt 64 n ≠ 0 := by
      have h := ofInt_ne_zero (n := n.natAbs) (by omega) hn
      rwa [show ((n.natAbs : ℕ) : ℤ) = n by omega] at h
    refine (bfSetUi_after r hne).mono ?_
    rintro ⟨p, st⟩ (rfl | rfl)
    · exact .inl (normal_small false hne)
    · exact .inr ⟨rfl, rfl⟩

end QuickJs.BigFloat
