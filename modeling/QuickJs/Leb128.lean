import Mathlib.Tactic.Ring

/-!
# Numbers in groups of seven bits

`dbuf_put_leb128`, `dbuf_put_sleb128` and what reads their bytes: seven bits a byte, the lowest first, the high
bit set in every byte but the last. A number with sign has its sign moved to the lowest bit.
-/

namespace QuickJs.Leb128

theorem toNat_shiftRight (w : UInt32) {k : ℕ} (hk : k < 32) : (w >>> UInt32.ofNat k).toNat = w.toNat / 2 ^ k := by
  rw [UInt32.toNat_shiftRight, Nat.shiftRight_eq_div_pow, UInt32.toNat_ofNat', Nat.mod_mod_of_dvd _ (by decide),
    Nat.mod_eq_of_lt hk]

theorem toNat_shiftRight_seven (w : UInt32) : (w >>> 7).toNat = w.toNat / 128 :=
  toNat_shiftRight w (k := 7) (by decide)

/-- `dbuf_put_leb128`. -/
def dbufPutLeb128 (v : UInt32) : List UInt8 :=
  let a := (v &&& 0x7f).toUInt8
  if v >>> 7 ≠ 0 then (a ||| 0x80) :: dbufPutLeb128 (v >>> 7) else [a]
termination_by v.toNat
decreasing_by
  rename_i h
  have hne : (v >>> 7).toNat ≠ 0 := fun h0 => h (UInt32.toNat_inj.mp h0)
  rw [toNat_shiftRight_seven] at hne ⊢
  omega

/-- `dbuf_put_sleb128`. -/
def dbufPutSleb128 (v₁ : Int32) : List UInt8 :=
  let v := v₁.toUInt32
  dbufPutLeb128 ((2 : UInt32) * v ^^^ -(v >>> 31))

/-- The loop of `get_leb128` with `n` rounds to go: the bits go to `shift`. -/
def getLeb128Loop : ℕ → ℕ → UInt32 → List UInt8 → Option (UInt32 × List UInt8)
  | n + 1, shift, v, a :: p =>
    let v := v ||| (a &&& 0x7f).toUInt32 <<< .ofNat shift
    if a &&& 0x80 = 0 then some (v, p) else getLeb128Loop n (shift + 7) v p
  | _, _, _, _ => none

/-- `get_leb128`: the number and the bytes after it. -/
def getLeb128 (buf : List UInt8) : Option (UInt32 × List UInt8) := getLeb128Loop 5 0 0 buf

/-- `get_sleb128`. -/
def getSleb128 (buf : List UInt8) : Option (Int32 × List UInt8) := do
  let (val, p) ← getLeb128 buf
  some ((val >>> 1 ^^^ -(val &&& 1)).toInt32, p)

variable {n shift : ℕ} {v w : UInt32} {p : List UInt8}

/-! ## Unsigned numbers -/

theorem toNat_group (w : UInt32) : (w &&& 0x7f).toUInt8.toNat = w.toNat % 128 := by
  have h := Nat.and_two_pow_sub_one_eq_mod w.toNat 7
  have heq : (w &&& 0x7f).toNat = w.toNat % 128 := by simpa using h
  rw [UInt32.toNat_toUInt8]
  omega

/-- The two parts of a byte that is not the last one, and of the last one. -/
theorem parts_of_lt : ∀ a < 128, a &&& 128 = 0 ∧ a &&& 127 = a ∧ (a ||| 128) &&& 128 = 128 ∧ (a ||| 128) &&& 127 = a := by
  decide

variable {a : UInt8}

theorem last_byte (ha : a.toNat < 128) : a &&& 0x80 = 0 ∧ a &&& 0x7f = a := by
  obtain ⟨hhigh, hlow, -, -⟩ := parts_of_lt a.toNat ha
  exact ⟨UInt8.toNat_inj.mp hhigh, UInt8.toNat_inj.mp hlow⟩

theorem other_byte (ha : a.toNat < 128) : (a ||| 0x80) &&& 0x80 ≠ 0 ∧ (a ||| 0x80) &&& 0x7f = a := by
  obtain ⟨-, -, hhigh, hlow⟩ := parts_of_lt a.toNat ha
  refine ⟨fun h => ?_, UInt8.toNat_inj.mp hlow⟩
  have hzero : (a.toNat ||| 128) &&& 128 = 0 := congrArg UInt8.toNat h
  omega

/-- The bits of a group, at their place. -/
theorem toNat_or_group (hv : v.toNat < 2 ^ shift) (hshift : shift < 32) (hlt : a.toNat * 2 ^ shift < 2 ^ 32) :
    (v ||| a.toUInt32 <<< UInt32.ofNat shift).toNat = v.toNat + a.toNat * 2 ^ shift := by
  have hsh : (UInt32.ofNat shift).toNat % 32 = shift := by
    rw [UInt32.toNat_ofNat']
    omega
  have hmul : (a.toUInt32 <<< UInt32.ofNat shift).toNat = 2 ^ shift * a.toNat := by
    rw [UInt32.toNat_shiftLeft, hsh, Nat.shiftLeft_eq, UInt8.toNat_toUInt32, Nat.mod_eq_of_lt hlt, Nat.mul_comm]
  rw [UInt32.toNat_or, hmul, Nat.or_comm, ← Nat.two_pow_add_eq_or_of_lt hv]
  ring

/-- The loop reads what is left of the number after the groups below `shift`. -/
theorem getLeb128Loop_put (hv : v.toNat < 2 ^ shift) (hshift : shift < 32) (hw : w.toNat * 2 ^ shift < 2 ^ 32)
    (hn : 32 ≤ shift + 7 * n) : ∃ r, getLeb128Loop n shift v (dbufPutLeb128 w ++ p) = some (r, p) ∧
      r.toNat = v.toNat + w.toNat * 2 ^ shift := by
  induction n generalizing shift v w with
  | zero => omega
  | succ n ih =>
    have hgroup := toNat_group w
    have hsplit : w.toNat * 2 ^ shift = w.toNat % 128 * 2 ^ shift + w.toNat / 128 * 2 ^ (shift + 7) := by
      conv_lhs => rw [← Nat.mod_add_div w.toNat 128]
      ring
    have hor := toNat_or_group hv hshift (a := (w &&& 0x7f).toUInt8) (by rw [hgroup]; omega)
    rw [hgroup] at hor
    have hlt : (w &&& 0x7f).toUInt8.toNat < 128 := by omega
    rw [dbufPutLeb128]
    by_cases hzero : w >>> 7 = 0
    · -- the last group
      have hdiv : w.toNat / 128 = 0 := by rw [← toNat_shiftRight_seven, hzero]; rfl
      obtain ⟨hhigh, hlow⟩ := last_byte hlt
      rw [if_neg (not_not.mpr hzero), List.singleton_append, getLeb128Loop, hhigh, hlow]
      refine ⟨_, if_pos rfl, ?_⟩
      rw [hsplit, hdiv]
      omega
    · have hdiv : w.toNat / 128 ≠ 0 := by
        rw [← toNat_shiftRight_seven]
        exact fun h0 => hzero (UInt32.toNat_inj.mp h0)
      obtain ⟨hhigh, hlow⟩ := other_byte hlt
      rw [if_pos hzero, List.cons_append, getLeb128Loop, hlow, if_neg hhigh]
      have hnext : 2 ^ (shift + 7) ≤ w.toNat / 128 * 2 ^ (shift + 7) :=
        Nat.le_mul_of_pos_left _ (Nat.pos_of_ne_zero hdiv)
      have hshift' : shift + 7 < 32 := (Nat.pow_lt_pow_iff_right (a := 2) (by decide)).mp (by omega)
      have hv' : (v ||| (w &&& 0x7f).toUInt8.toUInt32 <<< UInt32.ofNat shift).toNat < 2 ^ (shift + 7) := by
        have hmod : w.toNat % 128 * 2 ^ shift ≤ 127 * 2 ^ shift := Nat.mul_le_mul_right _ (by omega)
        rw [pow_add]
        omega
      obtain ⟨r, hr, hrn⟩ := ih hv' hshift' (w := w >>> 7) (by rw [toNat_shiftRight_seven]; omega) (by omega)
      refine ⟨r, hr, ?_⟩
      rw [hrn, hor, toNat_shiftRight_seven, hsplit, Nat.add_assoc]

/-- A number is read back. -/
theorem getLeb128_put (w : UInt32) (p : List UInt8) : getLeb128 (dbufPutLeb128 w ++ p) = some (w, p) := by
  have hw := w.toNat_lt
  have hread : ∃ r, getLeb128Loop 5 0 0 (dbufPutLeb128 w ++ p) = some (r, p) ∧
      r.toNat = (0 : UInt32).toNat + w.toNat * 2 ^ 0 :=
    getLeb128Loop_put (by decide) (by decide) (by omega) (by decide)
  obtain ⟨r, hr, hrn⟩ := hread
  have heq : r = w := UInt32.toNat_inj.mp (by simpa using hrn)
  rw [getLeb128, hr, heq]

/-! ## Numbers with sign -/

/-- A number without sign is doubled. -/
theorem zigzag_of_lt (h : v.toNat < 2 ^ 31) : (2 : UInt32) * v ^^^ -(v >>> 31) = 2 * v := by
  have hsign : v >>> 31 = 0 := by
    apply UInt32.toNat_inj.mp
    rw [show (v >>> 31).toNat = _ from toNat_shiftRight v (k := 31) (by decide), Nat.div_eq_of_lt h]
    rfl
  rw [hsign]
  simp

/-- A number with sign is doubled and complemented. -/
theorem zigzag_of_le (h : 2 ^ 31 ≤ v.toNat) : (2 : UInt32) * v ^^^ -(v >>> 31) = ~~~(2 * v) := by
  have hlt := v.toNat_lt
  have hsign : v >>> 31 = 1 := by
    apply UInt32.toNat_inj.mp
    rw [show (v >>> 31).toNat = _ from toNat_shiftRight v (k := 31) (by decide),
      show (1 : UInt32).toNat = 1 from rfl]
    omega
  rw [hsign]
  simp

/-- The sign goes to the lowest bit and comes back. -/
theorem zigzag (v : UInt32) :
    ((2 : UInt32) * v ^^^ -(v >>> 31)) >>> 1 ^^^ -(((2 : UInt32) * v ^^^ -(v >>> 31)) &&& 1) = v := by
  have hlt := v.toNat_lt
  have hmul : ((2 : UInt32) * v).toNat = 2 * v.toNat % 2 ^ 32 := UInt32.toNat_mul 2 v
  by_cases h : v.toNat < 2 ^ 31
  · rw [zigzag_of_lt h]
    have hbit : (2 : UInt32) * v &&& 1 = 0 := by
      apply UInt32.toNat_inj.mp
      rw [UInt32.toNat_and, show (1 : UInt32).toNat = 1 from rfl, Nat.and_one_is_mod]
      simp only [UInt32.toNat_zero]
      omega
    have hhalf : ((2 : UInt32) * v) >>> 1 = v := by
      apply UInt32.toNat_inj.mp
      rw [show (((2 : UInt32) * v) >>> 1).toNat = _ from toNat_shiftRight _ (k := 1) (by decide)]
      omega
    rw [hbit, hhalf]
    simp
  · rw [zigzag_of_le (by omega)]
    have hnot : (~~~((2 : UInt32) * v)).toNat = 2 ^ 32 - 1 - 2 * v.toNat % 2 ^ 32 := by
      rw [UInt32.toNat_not]
      rfl
    have hbit : ~~~((2 : UInt32) * v) &&& 1 = 1 := by
      apply UInt32.toNat_inj.mp
      rw [UInt32.toNat_and, show (1 : UInt32).toNat = 1 from rfl, Nat.and_one_is_mod]
      omega
    have hhalf : (~~~((2 : UInt32) * v)) >>> 1 = ~~~v := by
      apply UInt32.toNat_inj.mp
      rw [show ((~~~((2 : UInt32) * v)) >>> 1).toNat = _ from toNat_shiftRight _ (k := 1) (by decide), hnot,
        UInt32.toNat_not, UInt32.size]
      omega
    rw [hbit, hhalf]
    simp

theorem getSleb128_put (v : Int32) (p : List UInt8) : getSleb128 (dbufPutSleb128 v ++ p) = some (v, p) := by
  rw [getSleb128, dbufPutSleb128, getLeb128_put]
  show some (UInt32.toInt32 _, p) = some (v, p)
  rw [zigzag]
  rfl

/-- Numbers come back from their bytes, whatever follows: all of 32 bits, with a sign or without. -/
theorem leb128_roundTrip (p : List UInt8) :
    (∀ w, getLeb128 (dbufPutLeb128 w ++ p) = some (w, p)) ∧
      ∀ v, getSleb128 (dbufPutSleb128 v ++ p) = some (v, p) :=
  ⟨fun w => getLeb128_put w p, fun v => getSleb128_put v p⟩

end QuickJs.Leb128
