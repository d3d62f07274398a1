import Mathlib.Data.List.Basic
import Mathlib.Tactic.NormNum

/-!
# Strings of two widths

A string has characters of 8 or of 16 bits. What it says are its code units; comparison and concatenation are
defined on the two widths.
-/

namespace QuickJs.JSString

/-- `JS_STRING_LEN_MAX`. -/
def JS_STRING_LEN_MAX : ℕ := 2 ^ 30 - 1

/-- The characters of a `JSString`. -/
inductive Chars
  | str8 (s : List UInt8)
  | str16 (s : List UInt16)
  deriving DecidableEq

namespace Chars

/-- The code units. -/
def units : Chars → List UInt16
  | str8 s => s.map UInt8.toUInt16
  | str16 s => s

def isWideChar : Chars → Bool
  | str8 _ => false
  | str16 _ => true

def len (p : Chars) : ℕ := p.units.length

/-- Add characters of 8 bits. -/
def append8 : Chars → List UInt8 → Chars
  | str8 s, t => str8 (s ++ t)
  | str16 s, t => str16 (s ++ t.map UInt8.toUInt16)

/-- Add characters of 16 bits; where the string has 8 bits, so many are kept. -/
def append16 : Chars → List UInt16 → Chars
  | str8 s, t => str8 (s ++ t.map UInt16.toUInt8)
  | str16 s, t => str16 (s ++ t)

/-- Make the characters wide. -/
def widen (p : Chars) : Chars := str16 p.units

end Chars

/-! ## Comparison -/

/-- The loops of `memcmp16`, `memcmp16_8` and, on bytes, `memcmp`: the first difference of two characters. -/
def memcmp {α β : Type} (toA : α → ℕ) (toB : β → ℕ) : ℕ → List α → List β → ℤ
  | n + 1, a :: s, b :: t =>
    let c : ℤ := toA a - toB b
    if c ≠ 0 then c else memcmp toA toB n s t
  | _, _, _ => 0

/-- `js_string_memcmp`. -/
def jsStringMemcmp (p₁ p₂ : Chars) (len : ℕ) : ℤ :=
  match p₁, p₂ with
  | .str8 s, .str8 t => memcmp UInt8.toNat UInt8.toNat len s t
  | .str8 s, .str16 t => -memcmp UInt16.toNat UInt8.toNat len t s
  | .str16 s, .str8 t => memcmp UInt16.toNat UInt8.toNat len s t
  | .str16 s, .str16 t => memcmp UInt16.toNat UInt16.toNat len s t

/-- `js_string_compare`. -/
def jsStringCompare (p₁ p₂ : Chars) : ℤ :=
  let res := jsStringMemcmp p₁ p₂ (min p₁.len p₂.len)
  if res = 0 then if p₁.len = p₂.len then 0 else if p₁.len < p₂.len then -1 else 1 else res

variable {p p₁ p₂ : Chars} {s t : List UInt16}

/-! ## The characters and the code units -/

theorem length_units (p : Chars) : p.units.length = p.len := rfl

theorem units_append8 (t : List UInt8) : (p.append8 t).units = p.units ++ t.map UInt8.toUInt16 := by
  cases p with
  | str8 s => exact List.map_append
  | str16 s => rfl

theorem units_append16 (h : p.isWideChar = true ∨ ∀ u ∈ t, u.toNat < 256) : (p.append16 t).units = p.units ++ t := by
  cases p with
  | str8 s =>
    have hsmall : ∀ u ∈ t, u.toUInt8.toUInt16 = u := by
      intro u hu
      apply UInt16.toNat_inj.mp
      rw [UInt8.toNat_toUInt16, UInt16.toNat_toUInt8, Nat.mod_eq_of_lt (h.resolve_left Bool.false_ne_true u hu)]
    rw [Chars.append16, Chars.units, List.map_append, List.map_map]
    exact congrArg _ ((List.map_congr_left hsmall).trans (List.map_id _))
  | str16 s => rfl

/-! ## The order of strings -/

/-- The sign tells the order of two lists of code units. -/
def Orders (res : ℤ) (s t : List UInt16) : Prop :=
  (res < 0 ↔ s < t) ∧ (res = 0 ↔ s = t) ∧ (0 < res ↔ t < s)

variable {α β : Type} {n : ℕ}

theorem memcmp_map (f : α → UInt16) (g : β → UInt16) (s : List α) (t : List β) :
    memcmp UInt16.toNat UInt16.toNat n (s.map f) (t.map g) =
      memcmp (UInt16.toNat ∘ f) (UInt16.toNat ∘ g) n s t := by
  induction n generalizing s t with
  | zero => cases s <;> cases t <;> rfl
  | succ n ih =>
    cases s with
    | nil => cases t <;> rfl
    | cons a s =>
      cases t with
      | nil => rfl
      | cons b t =>
        rw [List.map_cons, List.map_cons, memcmp, ih]
        rfl

/-- Exchanging the strings changes the sign. -/
theorem memcmp_swap (n : ℕ) (s t : List UInt16) :
    -memcmp UInt16.toNat UInt16.toNat n t s = memcmp UInt16.toNat UInt16.toNat n s t := by
  induction n generalizing s t with
  | zero => cases s <;> cases t <;> rfl
  | succ n ih =>
    cases s with
    | nil => cases t <;> rfl
    | cons a s =>
      cases t with
      | nil => rfl
      | cons b t =>
        simp only [memcmp]
        split <;> split
        · omega
        · omega
        · omega
        · exact ih s t

/-- The comparison reads the code units only. -/
theorem jsStringMemcmp_eq (p₁ p₂ : Chars) (n : ℕ) :
    jsStringMemcmp p₁ p₂ n = memcmp UInt16.toNat UInt16.toNat n p₁.units p₂.units := by
  have hid (s : List UInt16) : s.map id = s := List.map_id s
  cases p₁ with
  | str8 s =>
    cases p₂ with
    | str8 t => exact (memcmp_map UInt8.toUInt16 UInt8.toUInt16 s t).symm
    | str16 t =>
      rw [Chars.units, Chars.units, ← memcmp_swap, ← hid t, memcmp_map id UInt8.toUInt16 t s, hid]
      rfl
  | str16 s =>
    cases p₂ with
    | str8 t =>
      rw [Chars.units, Chars.units, ← hid s, memcmp_map id UInt8.toUInt16 s t, hid]
      rfl
    | str16 t => rfl

/-- The first difference, else the lengths, decide the order. -/
theorem orders_memcmp (s t : List UInt16) :
    Orders (let res := memcmp UInt16.toNat UInt16.toNat (min s.length t.length) s t
      if res = 0 then if s.length = t.length then 0 else if s.length < t.length then -1 else 1 else res) s t := by
  induction s generalizing t with
  | nil =>
    cases t with
    | nil => simp [Orders, memcmp]
    | cons b t => simp [Orders, memcmp]
  | cons a s ih =>
    cases t with
    | nil => simp [Orders, memcmp]
    | cons b t =>
      have hmin : min (a :: s).length (b :: t).length = min s.length t.length + 1 := by simp
      rw [hmin]
      simp only [memcmp]
      by_cases hc : (a.toNat : ℤ) - b.toNat = 0
      · -- the same character
        have hab : a = b := UInt16.toNat_inj.mp (by omega)
        subst hab
        obtain ⟨hlt, heq, hgt⟩ := ih t
        simp only [Orders, sub_self, List.length_cons, Nat.add_right_cancel_iff,
          Nat.add_lt_add_iff_right, List.cons_lt_cons_iff, UInt16.lt_irrefl, false_or, true_and, List.cons.injEq]
        exact ⟨hlt, heq, hgt⟩
      · have hne : a ≠ b := fun h => hc (by rw [h, sub_self])
        have hltiff : a < b ↔ a.toNat < b.toNat := UInt16.lt_iff_toNat_lt
        have hgtiff : b < a ↔ b.toNat < a.toNat := UInt16.lt_iff_toNat_lt
        simp only [Orders, ne_eq, hc, not_false_eq_true, if_true, if_false, List.cons_lt_cons_iff, hne, hne.symm, false_and, or_false,
          List.cons.injEq, hltiff, hgtiff]
        exact ⟨by omega, trivial, by omega⟩

/-- **`js_string_compare` orders strings by code units**, whatever their widths. -/
theorem orders_jsStringCompare (p₁ p₂ : Chars) : Orders (jsStringCompare p₁ p₂) p₁.units p₂.units := by
  have h := orders_memcmp p₁.units p₂.units
  rw [jsStringCompare, jsStringMemcmp_eq]
  exact h

end QuickJs.JSString
