import QuickJs.Utf8

/-!
# UTF-16

The code points of a string of code units, and the conversion of a string to UTF-8. A surrogate
without its partner is a code point of its own.
-/

namespace QuickJs.Utf8

/-- The code points that `string_getc` finds one after the other. -/
def codePoints : List UInt16 → List ℕ
  | [] => []
  | [u] => [u.toNat]
  | u :: v :: s =>
    if (0xd800 ≤ u.toNat ∧ u.toNat < 0xdc00) ∧ 0xdc00 ≤ v.toNat ∧ v.toNat < 0xe000 then
      (u.toNat % 1024 * 1024 + v.toNat % 1024 + 0x10000) :: codePoints s
    else u.toNat :: codePoints (v :: s)

/-- `JS_ToCStringLen`. -/
def jsToCString (s : List UInt16) : List Char := (codePoints s).flatMap unicodeToUtf8

/-- The code units of an ASCII text. -/
def units (s : List Char) : List UInt16 := s.map fun c => UInt16.ofNat c.toNat

/-- A code point that is no surrogate. -/
def Scalar (c : ℕ) : Prop := c ≤ 0x10ffff ∧ ¬ (0xd800 ≤ c ∧ c < 0xe000)

variable {c : ℕ} {u : UInt16} {s t : List UInt16} {x y : List Char}

theorem toNat_ofNat_unit (h : c < 0x10000) : (UInt16.ofNat c).toNat = c :=
  UInt16.toNat_ofNat_of_lt h

theorem stringBufferPutc_unit : stringBufferPutc u.toNat = [u] := by
  have hlt : u.toNat < 0x10000 := u.toNat_lt
  rw [stringBufferPutc, if_neg (by omega), UInt16.ofNat_toNat]

theorem stringBufferPutc_pair {v : UInt16} (hu : 0xd800 ≤ u.toNat ∧ u.toNat < 0xdc00)
    (hv : 0xdc00 ≤ v.toNat ∧ v.toNat < 0xe000) :
    stringBufferPutc (u.toNat % 1024 * 1024 + v.toNat % 1024 + 0x10000) = [u, v] := by
  have hhigh : (u.toNat % 1024 * 1024 + v.toNat % 1024 + 0x10000 - 0x10000) / 1024 + 0xd800 =
      u.toNat := by omega
  have hlow : (u.toNat % 1024 * 1024 + v.toNat % 1024 + 0x10000 - 0x10000) % 1024 + 0xdc00 =
      v.toNat := by omega
  rw [stringBufferPutc, if_pos (by omega), hhigh, hlow, UInt16.ofNat_toNat, UInt16.ofNat_toNat]

/-- The code points spell the string. -/
theorem flatMap_codePoints : (codePoints s).flatMap stringBufferPutc = s := by
  induction s using codePoints.induct with
  | case1 => rfl
  | case2 u =>
    rw [codePoints, List.flatMap_singleton, stringBufferPutc_unit]
  | case3 u v s h ih =>
    rw [codePoints, if_pos h, List.flatMap_cons, ih, stringBufferPutc_pair h.1 h.2]
    rfl
  | case4 u v s h ih =>
    rw [codePoints, if_neg h, List.flatMap_cons, ih, stringBufferPutc_unit]
    rfl

theorem le_of_mem_codePoints (h : c ∈ codePoints s) : c ≤ 0x10ffff := by
  induction s using codePoints.induct with
  | case1 => cases h
  | case2 u =>
    obtain rfl := List.mem_singleton.mp h
    have hlt : u.toNat < 0x10000 := u.toNat_lt
    omega
  | case3 u v s hpair ih =>
    rw [codePoints, if_pos hpair] at h
    obtain rfl | h := List.mem_cons.mp h
    · omega
    · exact ih h
  | case4 u v s hpair ih =>
    rw [codePoints, if_neg hpair] at h
    obtain rfl | h := List.mem_cons.mp h
    · have hlt : u.toNat < 0x10000 := u.toNat_lt
      omega
    · exact ih h

theorem codePoints_cons (hu : ¬ (0xd800 ≤ u.toNat ∧ u.toNat < 0xe000)) :
    codePoints (u :: s) = u.toNat :: codePoints s := by
  cases s with
  | nil => rfl
  | cons v s => rw [codePoints, if_neg (by omega)]

/-- A code point that is no surrogate is found again. -/
theorem codePoints_stringBufferPutc (hc : Scalar c) :
    codePoints (stringBufferPutc c ++ s) = c :: codePoints s := by
  obtain ⟨hmax, hsurrogate⟩ := hc
  by_cases hbig : 0x10000 ≤ c
  · have hhigh : (UInt16.ofNat ((c - 0x10000) / 1024 + 0xd800)).toNat =
        (c - 0x10000) / 1024 + 0xd800 := toNat_ofNat_unit (by omega)
    have hlow : (UInt16.ofNat ((c - 0x10000) % 1024 + 0xdc00)).toNat =
        (c - 0x10000) % 1024 + 0xdc00 := toNat_ofNat_unit (by omega)
    have hsum : ((c - 0x10000) / 1024 + 0xd800) % 1024 * 1024 +
        ((c - 0x10000) % 1024 + 0xdc00) % 1024 + 0x10000 = c := by omega
    rw [stringBufferPutc, if_pos hbig, List.cons_append, List.singleton_append, codePoints,
      hhigh, hlow, if_pos (by omega), hsum]
  · have hc : (UInt16.ofNat c).toNat = c := toNat_ofNat_unit (by omega)
    rw [stringBufferPutc, if_neg hbig, List.singleton_append, codePoints_cons (by omega), hc]

section Renders

/-- A string without lone surrogates, and its UTF-8 text. -/
def Renders (s : List UInt16) (x : List Char) : Prop :=
  ∃ cs : List ℕ, (∀ c ∈ cs, Scalar c) ∧ s = cs.flatMap stringBufferPutc ∧ x = cs.flatMap unicodeToUtf8

theorem Renders.nil : Renders [] [] := ⟨[], nofun, rfl, rfl⟩

theorem Renders.append (hs : Renders s x) (ht : Renders t y) : Renders (s ++ t) (x ++ y) := by
  obtain ⟨cs, hcs, rfl, rfl⟩ := hs
  obtain ⟨ds, hds, rfl, rfl⟩ := ht
  exact ⟨cs ++ ds, List.forall_mem_append.mpr ⟨hcs, hds⟩, List.flatMap_append.symm, List.flatMap_append.symm⟩

theorem Renders.scalar (hc : Scalar c) : Renders (stringBufferPutc c) (unicodeToUtf8 c) :=
  ⟨[c], fun _ hd => List.mem_singleton.mp hd ▸ hc, (List.flatMap_singleton ..).symm,
    (List.flatMap_singleton ..).symm⟩

theorem Renders.units (hx : x.all fun d => d.toNat < 0x80) : Renders (units x) x := by
  induction x with
  | nil => exact .nil
  | cons d x ih =>
    rw [List.all_cons, Bool.and_eq_true, decide_eq_true_iff] at hx
    obtain ⟨hd, hx⟩ := hx
    have hone := Renders.scalar (c := d.toNat) ⟨by omega, by omega⟩
    rw [stringBufferPutc, if_neg (by omega), unicodeToUtf8_ascii hd, byte_toNat] at hone
    exact hone.append (ih hx)

/-- The conversion of a string finds its text. -/
theorem Renders.jsToCString (h : Renders s x) : jsToCString s = x := by
  obtain ⟨cs, hcs, rfl, rfl⟩ := h
  have hpoints : codePoints (cs.flatMap stringBufferPutc) = cs := by
    induction cs with
    | nil => rfl
    | cons c cs ih =>
      obtain ⟨hc, hcs⟩ := List.forall_mem_cons.mp hcs
      rw [List.flatMap_cons, codePoints_stringBufferPutc hc, ih hcs]
  rw [Utf8.jsToCString, hpoints]

end Renders

end QuickJs.Utf8
