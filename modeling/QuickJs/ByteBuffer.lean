import Mathlib.Tactic.Linarith

/-!
# Byte buffers

A buffer that is written and cut at positions, and numbers with sign in it, the lowest byte first.
-/

namespace ByteBuffer

variable {α : Type} {n : ℕ} {d : ℤ}

/-- Write `bs` over what is at `i`. -/
def put (buf : List α) (i : ℕ) (bs : List α) : List α := buf.take i ++ bs ++ buf.drop (i + bs.length)

/-- Move what comes after the `n` elements at `i` over them. -/
def cut (buf : List α) (i n : ℕ) : List α := buf.take i ++ buf.drop (i + n)

theorem put_append (xs ys : List α) {old bs : List α} (h : old.length = bs.length) :
    put (xs ++ old ++ ys) xs.length bs = xs ++ bs ++ ys := by
  rw [put, ← h, ← List.length_append, List.drop_left, List.append_assoc xs old, List.take_left]

theorem cut_append (xs old ys : List α) : cut (xs ++ old ++ ys) xs.length old.length = xs ++ ys := by
  rw [cut, ← List.length_append, List.drop_left, List.append_assoc xs old, List.take_left]

/-- `n` bytes of a number. -/
def ofInt : ℕ → ℤ → List UInt8
  | 0, _ => []
  | n + 1, d => UInt8.ofNat (d % 256).toNat :: ofInt n (d / 256)

def toNat : List UInt8 → ℕ
  | [] => 0
  | b :: bs => b.toNat + 256 * toNat bs

/-- The number with sign that the bytes are. -/
def toInt (bs : List UInt8) : ℤ := Int.bmod (toNat bs) (256 ^ bs.length)

/-- The number has `n` bytes. -/
def Fits (n : ℕ) (d : ℤ) : Prop := -(256 ^ n : ℕ) ≤ d * 2 ∧ d * 2 < (256 ^ n : ℕ)

instance : Decidable (Fits n d) := inferInstanceAs (Decidable (_ ∧ _))

@[simp]
theorem length_ofInt (n : ℕ) (d : ℤ) : (ofInt n d).length = n := by
  induction n generalizing d with
  | zero => rfl
  | succ n ih => rw [ofInt, List.length_cons, ih]

theorem dvd_sub_ofInt (n : ℕ) (d : ℤ) : ((256 ^ n : ℕ) : ℤ) ∣ d - toNat (ofInt n d) := by
  induction n generalizing d with
  | zero => exact Int.one_dvd _
  | succ n ih =>
    have hbyte : ((UInt8.ofNat (d % 256).toNat).toNat : ℤ) = d % 256 := by
      rw [UInt8.toNat_ofNat']
      omega
    obtain ⟨q, hq⟩ := ih (d / 256)
    refine ⟨q, ?_⟩
    have hsplit := Int.emod_add_mul_ediv d 256
    rw [ofInt, toNat, Int.natCast_add, Int.natCast_mul, pow_succ, Nat.mul_comm, Int.natCast_mul,
      Int.mul_assoc, ← hq]
    push_cast
    linarith

theorem toNat_lt (bs : List UInt8) : toNat bs < 256 ^ bs.length := by
  induction bs with
  | nil => exact Nat.one_pos
  | cons b bs ih =>
    have hb := b.toNat_lt
    rw [toNat, List.length_cons]
    omega

/-- A number without sign that has `n` bytes is read back from them. -/
theorem toNat_ofInt {m : ℕ} (h : m < 256 ^ n) : toNat (ofInt n m) = m := by
  have hmod : (m : ℤ) % (256 ^ n : ℕ) = toNat (ofInt n m) % (256 ^ n : ℕ) :=
    Int.emod_eq_emod_iff_emod_sub_eq_zero.mpr (Int.emod_eq_zero_of_dvd (dvd_sub_ofInt n m))
  have hlt := toNat_lt (ofInt n m)
  rw [length_ofInt] at hlt
  have hnat : m % 256 ^ n = toNat (ofInt n m) % 256 ^ n := by exact_mod_cast hmod
  rw [Nat.mod_eq_of_lt h, Nat.mod_eq_of_lt hlt] at hnat
  exact hnat.symm

/-- A number that has `n` bytes is read back from them. -/
theorem toInt_ofInt (h : Fits n d) : toInt (ofInt n d) = d := by
  have hmod : d % (256 ^ n : ℕ) = toNat (ofInt n d) % (256 ^ n : ℕ) :=
    Int.emod_eq_emod_iff_emod_sub_eq_zero.mpr (Int.emod_eq_zero_of_dvd (dvd_sub_ofInt n d))
  rw [toInt, length_ofInt, ← Int.emod_bmod (toNat (ofInt n d) : ℤ), ← hmod, Int.emod_bmod]
  exact Int.bmod_eq_of_le_mul_two h.1 h.2

/-- What is nearer to zero also has so many bytes. -/
theorem Fits.of_between {d' : ℤ} (h : Fits n d) (hd : 0 ≤ d' ∧ d' ≤ d ∨ d ≤ d' ∧ d' ≤ 0) : Fits n d' := by
  unfold Fits at h ⊢
  omega

end ByteBuffer
