import QuickJs.Double

/-!
# Keys of Map and Set

The hash of a key and the comparison of two keys. They are written independently:
the comparison converts a tagged integer to a double, the hash multiplies it by 3163
first. So the hash respects the comparison except between a tagged integer and
a double of the same value.
-/

namespace QuickJs.Map

open Double

/-- A JavaScript value. A string is its code units, whatever their width in memory;
objects and symbols are addresses. -/
inductive JSValue
  | int (n : Int32)
  | bool (b : Bool)
  | null
  | undefined
  | float64 (d : UInt64)
  | object (p : UInt64)
  | string (s : List UInt16)
  | symbol (p : UInt64)
  | bigInt (n : ℤ)
  deriving DecidableEq, Repr

namespace JSValue

/-- `JS_VALUE_GET_NORM_TAG`. -/
def tag : JSValue → UInt32
  | int _ => 1
  | bool _ => 2
  | null => 3
  | undefined => 4
  | float64 _ => 7
  | object _ => 8
  | string _ => 11
  | symbol _ => 12
  | bigInt _ => 14

end JSValue

/-- `map_normalize_key`: both zeros become the integer. -/
def mapNormalizeKey : JSValue → JSValue
  | .float64 d => if isZero d then .int 0 else .float64 d
  | k => k

/-- `hash_string`, the same for both widths. -/
def hashString (s : List UInt16) (h : UInt32) : UInt32 :=
  s.foldl (fun h c => h * 263 + c.toUInt32) h

/-- `JS_FLOAT64_NAN`. -/
def jsFloat64Nan : UInt64 := 0x7FF8000000000000

/-- The label `hash_float64` of `map_hash_key`. -/
def hashFloat64 (d : UInt64) : UInt32 := (d.toUInt32 ^^^ (d >>> 32).toUInt32) * 3163

/-- `map_hash_key`. -/
def mapHashKey (key : JSValue) : UInt32 :=
  (match key with
  | .bool b => if b then 1 else 0
  | .string s => hashString s 0
  | .object p | .symbol p => p.toUInt32 * 3163
  | .int n => hashFloat64 (ofInt32 (n * 3163))
  | .float64 d => hashFloat64 (if isnan d then jsFloat64Nan else d)
  | .null | .undefined | .bigInt _ => 0) ^^^ key.tag

/-- `number_test` of `js_strict_eq2` with `JS_EQ_SAME_VALUE_ZERO`. -/
def numberTest (d₁ d₂ : UInt64) : Bool :=
  if isnan d₁ || isnan d₂ then isnan d₁ == isnan d₂ else feq d₁ d₂

/-- `js_same_value_zero`. -/
def jsSameValueZero : JSValue → JSValue → Bool
  | .bool b₁, .bool b₂ => b₁ == b₂
  | .null, .null => true
  | .undefined, .undefined => true
  | .string s₁, .string s₂ => s₁ == s₂
  | .symbol p₁, .symbol p₂ => p₁ == p₂
  | .object p₁, .object p₂ => p₁ == p₂
  | .int n₁, .int n₂ => numberTest (ofInt32 n₁) (ofInt32 n₂)
  | .int n₁, .float64 d₂ => numberTest (ofInt32 n₁) d₂
  | .float64 d₁, .float64 d₂ => numberTest d₁ d₂
  | .float64 d₁, .int n₂ => numberTest d₁ (ofInt32 n₂)
  | .bigInt n₁, .bigInt n₂ => n₁ == n₂
  | _, _ => false

/-! ## The comparison is an equivalence -/

/-- The value a key stands for: every number is a double, with one zero and one NaN. -/
def JSValue.canonical : JSValue → JSValue
  | .int n => .float64 (Double.canonical (ofInt32 n))
  | .float64 d => .float64 (Double.canonical d)
  | k => k

theorem numberTest_iff (d₁ d₂ : UInt64) :
    numberTest d₁ d₂ = true ↔ Double.canonical d₁ = Double.canonical d₂ :=
  (canonical_eq_iff d₁ d₂).symm

/-- Two keys are the same when they stand for the same value. -/
theorem jsSameValueZero_iff (k₁ k₂ : JSValue) :
    jsSameValueZero k₁ k₂ = true ↔ k₁.canonical = k₂.canonical := by
  cases k₁ <;> cases k₂ <;>
    simp [jsSameValueZero, JSValue.canonical, numberTest_iff]

theorem jsSameValueZero_symm {k₁ k₂ : JSValue} (h : jsSameValueZero k₁ k₂ = true) :
    jsSameValueZero k₂ k₁ = true :=
  (jsSameValueZero_iff _ _).mpr ((jsSameValueZero_iff _ _).mp h).symm

theorem jsSameValueZero_trans {k₁ k₂ k₃ : JSValue} (h₁ : jsSameValueZero k₁ k₂ = true)
    (h₂ : jsSameValueZero k₂ k₃ = true) : jsSameValueZero k₁ k₃ = true :=
  (jsSameValueZero_iff _ _).mpr
    (((jsSameValueZero_iff _ _).mp h₁).trans ((jsSameValueZero_iff _ _).mp h₂))

/-- Normalising a key does not change what it stands for. -/
theorem canonical_mapNormalizeKey (k : JSValue) : (mapNormalizeKey k).canonical = k.canonical := by
  cases k with
  | float64 d =>
    rw [mapNormalizeKey]
    split
    · rename_i hz
      have hnan : isnan d = false := by
        simp only [isZero, beq_iff_eq] at hz
        rw [isnan, hz]
        rfl
      have hzero : Double.canonical (ofInt32 0) = 0 := by decide
      rw [JSValue.canonical, JSValue.canonical, hzero, Double.canonical, hnan, hz]
      rfl
    · rfl
  | _ => rfl

theorem jsSameValueZero_normalize_right (k₁ k₂ : JSValue) :
    jsSameValueZero k₁ (mapNormalizeKey k₂) = jsSameValueZero k₁ k₂ := by
  rw [Bool.eq_iff_iff, jsSameValueZero_iff, jsSameValueZero_iff, canonical_mapNormalizeKey]

/-! ## When the hash respects the comparison -/

/-- One key is a tagged integer, the other one a double. -/
def Mixed : JSValue → JSValue → Prop
  | .int _, .float64 _ => True
  | .float64 _, .int _ => True
  | _, _ => False

/-- A key as a record holds it. -/
def Normal (k : JSValue) : Prop := mapNormalizeKey k = k

theorem normal_mapNormalizeKey (k : JSValue) : Normal (mapNormalizeKey k) := by
  unfold Normal
  cases k with
  | float64 d =>
    simp only [mapNormalizeKey]
    cases hz : isZero d <;> simp [hz]
  | _ => rfl

theorem Normal.isZero {d : UInt64} (h : Normal (.float64 d)) : isZero d = false := by
  unfold Normal at h
  rw [mapNormalizeKey] at h
  split at h
  · cases h
  · rename_i hz
    exact Bool.eq_false_iff.mpr hz

/-- Same keys of one representation have the same hash. -/
theorem mapHashKey_eq {k₁ k₂ : JSValue} (h₁ : Normal k₁) (h₂ : Normal k₂)
    (hsame : jsSameValueZero k₁ k₂ = true) (hmixed : ¬Mixed k₁ k₂) :
    mapHashKey k₁ = mapHashKey k₂ := by
  cases k₁ with
  | int n₁ =>
    cases k₂ with
    | int n₂ =>
      rw [jsSameValueZero, numberTest, isnan_ofInt32, isnan_ofInt32] at hsame
      rw [feq_ofInt32 hsame]
    | float64 _ => exact absurd trivial hmixed
    | _ => cases hsame
  | float64 d₁ =>
    cases k₂ with
    | int n₂ => exact absurd trivial hmixed
    | float64 d₂ =>
      rw [jsSameValueZero, numberTest] at hsame
      cases hn₁ : isnan d₁ <;> cases hn₂ : isnan d₂ <;> rw [hn₁, hn₂] at hsame
      · simp only [Bool.false_eq_true, if_false, feq, hn₁, hn₂, Bool.not_false,
          Bool.true_and, h₁.isZero, Bool.false_and, Bool.or_false, beq_iff_eq] at hsame
        rw [hsame]
      · cases hsame
      · cases hsame
      · simp only [mapHashKey, hn₁, hn₂, if_true, JSValue.tag]
    | _ => cases hsame
  | _ =>
    -- the other keys stand for themselves
    have heq := (jsSameValueZero_iff _ _).mp hsame
    refine congrArg mapHashKey ?_
    cases k₂ <;> first | exact heq | cases heq

example : jsSameValueZero (.int 5) (.float64 (ofInt32 5)) = true ∧
    mapHashKey (.int 5) ≠ mapHashKey (.float64 (ofInt32 5)) := by decide

end QuickJs.Map
