import QuickJs.StorageCache
import Mathlib.Tactic.Linarith

/-!
# Keys of an index

What the values given as keys mean for an index of a type, and when `db_transform` makes a key of that
type of them. The key of a date is not its number of milliseconds, but keeps the order.
-/

namespace QuickJs.Storage

variable {s : State} {type : DybaseType} {v : KeyValue} {k : Key} {n m : ℕ} {a b : ℤ}

/-! ## What keys mean -/

/-- The integer that a double is, if it is an `int32_t`. -/
def integer (d : UInt64) : Option ℤ :=
  let e := Double.magnitude d / 2 ^ 52
  let f := 2 ^ 52 + Double.magnitude d % 2 ^ 52
  let i : ℤ := if d.toNat < 2 ^ 63 then (f / 2 ^ (1075 - e) : ℕ) else -(f / 2 ^ (1075 - e) : ℕ)
  if Double.isZero d then some 0
  else if 1023 ≤ e ∧ e ≤ 1054 ∧ f % 2 ^ (1075 - e) = 0 ∧ -2 ^ 31 ≤ i ∧ i < 2 ^ 31 then some i
  else none

/-- The key that a value is for an index of a type. -/
def KeyValue.key (type : DybaseType) (v : KeyValue) : Option Key :=
  match type, v with
  | .int, .int i => some (.num i.toInt)
  | .int, .float64 d => (integer d).map .num
  | .real, .int i => some (.num (rank (Double.ofInt32 i)))
  | .real, .float64 d => if Double.isnan d then none else some (.num (rank d))
  | .long, .bigInt n => some (.num n)
  | .date, .date ms => ms.map .num
  | .chars, .string x => some (.chars (Utf8.jsToCString x))
  | _, _ => none

/-- The product of the milliseconds and the sum with the offset do not run over. -/
def DateInRange (ms : ℤ) : Prop :=
  -2 ^ 63 ≤ roundDouble (ms * 10000) ∧ roundDouble (ms * 10000) + 116444736000000 < 2 ^ 63

instance (ms : ℤ) : Decidable (DateInRange ms) := inferInstanceAs (Decidable (_ ∧ _))

/-- The value is of the type of the index. -/
def KeyValue.Fits (type : DybaseType) (v : KeyValue) : Prop :=
  match type, v with
  | .int, .int _ => True
  | .real, .float64 d => Double.isnan d = false
  | .long, .bigInt n => -2 ^ 63 ≤ n ∧ n < 2 ^ 63
  | .date, .date (some ms) => DateInRange ms
  | .chars, .string _ => True
  | _, _ => False

instance (type : DybaseType) (v : KeyValue) : Decidable (v.Fits type) := by
  unfold KeyValue.Fits
  split <;> infer_instance

/-- The key that the B-tree gets. -/
def storedKey (type : DybaseType) (k : Key) : Key :=
  match type, k with
  | .date, .num ms => .num (dateKey (some ms))
  | _, k => k

/-- The keys of the values that fit. -/
def FittingKeys (type : DybaseType) : Set Key := { k | ∃ v : KeyValue, v.Fits type ∧ v.key type = some k }

/-! ## Rounding -/

theorem le_roundNat (hn : n ≠ 0) : 2 ^ n.log2 ≤ roundNat n ∨ roundNat n = n := by
  unfold roundNat
  dsimp only
  by_cases he : n.log2 ≤ 52
  · rw [Nat.sub_eq_zero_of_le he, pow_zero, Nat.mod_one, Nat.div_one, mul_one]
    exact .inr rfl
  left
  have hlog : n.log2 = 52 + (n.log2 - 52) := by omega
  have hpow : 2 ^ n.log2 = 2 ^ 52 * 2 ^ (n.log2 - 52) := by rw [← pow_add, ← hlog]
  have hq : 2 ^ 52 ≤ n / 2 ^ (n.log2 - 52) := by
    rw [Nat.le_div_iff_mul_le (Nat.two_pow_pos _), ← hpow]
    exact Nat.log2_self_le hn
  rw [hpow]
  split
  · exact Nat.mul_le_mul_right _ hq
  · exact Nat.mul_le_mul_right _ (hq.trans (Nat.le_succ _))

/-- Below `2 ^ 64` a number and its double are less than `1025` apart. -/
theorem roundNat_near (hn : n < 2 ^ 64) : n ≤ roundNat n + 1024 ∧ roundNat n ≤ n + 1024 := by
  have he : n.log2 - 52 ≤ 11 := by
    by_cases h0 : n = 0
    · subst h0
      exact Nat.zero_le _
    · have hlog := (Nat.log2_lt h0).mpr hn
      omega
  have hpow : 2 ^ (n.log2 - 52) ≤ 2048 := Nat.pow_le_pow_right Nat.two_pos he
  have hdiv := Nat.div_add_mod n (2 ^ (n.log2 - 52))
  unfold roundNat
  dsimp only
  rw [mul_comm] at hdiv
  split
  · omega
  · rw [Nat.succ_mul]
    omega

theorem roundDouble_near (hlo : -2 ^ 63 ≤ roundDouble a) (hhi : roundDouble a < 2 ^ 63) :
    a ≤ roundDouble a + 1024 ∧ roundDouble a ≤ a + 1024 := by
  have hlt : a.natAbs < 2 ^ 64 := by
    by_cases h0 : a.natAbs = 0
    · rw [h0]
      exact Nat.two_pow_pos 64
    have hbound : roundNat a.natAbs ≤ 2 ^ 63 := by
      unfold roundDouble at hlo hhi
      split at hlo <;> omega
    rcases le_roundNat h0 with hle | heq
    · have hlog : a.natAbs.log2 < 64 := by
        rw [← Nat.pow_lt_pow_iff_right Nat.one_lt_two]
        exact (hle.trans hbound).trans_lt (by decide)
      exact (Nat.log2_lt h0).mp hlog
    · omega
  have hnear := roundNat_near hlt
  unfold roundDouble
  split <;> omega

theorem dateKey_eq (h : DateInRange a) : dateKey (some a) = roundDouble (a * 10000) + 116444736000000 := by
  obtain ⟨hlo, hhi⟩ := h
  have hint : toInt64 (roundDouble (a * 10000)) = roundDouble (a * 10000) := if_pos ⟨hlo, by omega⟩
  rw [dateKey, Option.elim_some, wrap, Int.bmod_eq_of_le] <;> omega

/-- The keys of dates have the order of the dates. -/
theorem dateKey_lt (ha : DateInRange a) (hb : DateInRange b) (hlt : a < b) :
    dateKey (some a) < dateKey (some b) := by
  rw [dateKey_eq ha, dateKey_eq hb]
  have hna := roundDouble_near ha.1 (by have := ha.2; omega)
  have hnb := roundDouble_near hb.1 (by have := hb.2; omega)
  omega

/-! ## Keys that fit -/

theorem num_lt_num : Key.num a < Key.num b ↔ a < b := Sum.Lex.inl_lt_inl_iff

/-- A value of the type of the index has a key, and `db_transform` makes that key of it. -/
theorem transform_fits (h : v.Fits type) : ∃ k ∈ FittingKeys type, v.key type = some k ∧
    s.transform v = (s, ⟨type, some (storedKey type k)⟩) := by
  have hfit {k : Key} (hk : v.key type = some k) : k ∈ FittingKeys type := ⟨v, h, hk⟩
  unfold KeyValue.Fits at h
  split at h
  · exact ⟨_, hfit rfl, rfl, rfl⟩
  · rename_i d
    have hk : (KeyValue.float64 d).key .real = some (.num (rank d)) := if_neg (ne_true_of_eq_false h)
    exact ⟨_, hfit hk, hk, rfl⟩
  · rename_i n
    refine ⟨_, hfit rfl, rfl, ?_⟩
    have hwrap : wrap n = n := by
      rw [wrap, Int.bmod_eq_of_le] <;> omega
    rw [State.transform, hwrap]
    rfl
  · exact ⟨_, hfit rfl, rfl, rfl⟩
  · exact ⟨_, hfit rfl, rfl, rfl⟩
  · exact h.elim

/-- The keys of the B-tree have the order of what they mean. -/
theorem storedKey_strictMonoOn : StrictMonoOn (storedKey type) (FittingKeys type) := by
  intro k hk k' hk' hlt
  by_cases htype : type = .date
  · subst htype
    have hdate {k : Key} (hk : k ∈ FittingKeys .date) : ∃ ms, DateInRange ms ∧ k = .num ms := by
      obtain ⟨v, hfits, hkey⟩ := hk
      cases v with
      | date ms =>
        cases ms with
        | none => exact hfits.elim
        | some ms => exact ⟨ms, hfits, (Option.some.inj hkey).symm⟩
      | _ => exact hfits.elim
    obtain ⟨a, ha, rfl⟩ := hdate hk
    obtain ⟨b, hb, rfl⟩ := hdate hk'
    exact num_lt_num.mpr (dateKey_lt ha hb (num_lt_num.mp hlt))
  · have hid (k : Key) : storedKey type k = k := by
      unfold storedKey
      split
      · exact absurd rfl htype
      · rfl
    rw [hid, hid]
    exact hlt

end QuickJs.Storage
