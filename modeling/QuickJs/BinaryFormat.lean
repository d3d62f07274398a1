import Mathlib.Algebra.Order.Ring.Int

/-!
# Binary floating point formats

A number of a format is a sign, an exponent and a fraction, packed into a natural number. A significand and an exponent
are packed into the nearest number.
-/

namespace QuickJs.BinaryFormat

/-- The bits of the fraction and of the exponent. -/
structure Format where
  frac : ℕ
  expBits : ℕ

def single : Format := ⟨23, 8⟩

def double : Format := ⟨52, 11⟩

namespace Format

variable (f g : Format)

/-- The exponent of the last bit of the least numbers. -/
def minExp : ℤ := 2 - 2 ^ (f.expBits - 1) - f.frac

/-- Infinity without its sign; what is above is not a number. -/
def infMag : ℕ := (2 ^ f.expBits - 1) * 2 ^ f.frac

def signBit : ℕ := 2 ^ (f.expBits + f.frac)

def mag (bits : ℕ) : ℕ := bits % f.signBit

def isNeg (bits : ℕ) : Bool := f.signBit ≤ bits

def isNan (bits : ℕ) : Bool := f.infMag < f.mag bits

/-- The significand and the exponent of its last bit; the least exponent has no hidden bit. -/
def unpack (mag : ℕ) : ℕ × ℤ :=
  let e := mag / 2 ^ f.frac
  let m := mag % 2 ^ f.frac
  if e = 0 then (m, f.minExp) else (2 ^ f.frac + m, f.minExp + (e - 1))

/-- A number without its last `s` bits, rounded to the nearest one, and to the even one of two that are as near. -/
def shiftRightEven (m s : ℕ) : ℕ :=
  let n := m / 2 ^ s
  let r := m % 2 ^ s
  if 2 * r < 2 ^ s ∨ (2 * r = 2 ^ s ∧ n % 2 = 0) then n else n + 1

/-- The number of the format that is nearest to `m * 2 ^ e`. -/
def pack (m : ℕ) (e : ℤ) : ℕ :=
  if m = 0 then 0
  else
    let q := max (m.log2 + e - f.frac) f.minExp
    let n := if q ≤ e then m * 2 ^ (e - q).toNat else shiftRightEven m (q - e).toNat
    min ((q - f.minExp).toNat * 2 ^ f.frac + n) f.infMag

/-- The conversion from `f` to `g`. Of what is not a number only that is kept. -/
def convert (bits : ℕ) : ℕ :=
  if f.isNan bits then g.infMag + 2 ^ (g.frac - 1)
  else
    let m := if f.mag bits = f.infMag then g.infMag else g.pack (f.unpack (f.mag bits)).1 (f.unpack (f.mag bits)).2
    if f.isNeg bits then g.signBit + m else m

end Format

end QuickJs.BinaryFormat
