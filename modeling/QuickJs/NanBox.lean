import Mathlib.Algebra.Order.Ring.Int

/-!
# Strict NaN boxing

A value is a word of 64 bits. The upper twelve bits of a word that is not a double are zero,
then come four bits of tag and 48 bits of payload. A finite double is stored with its bits
inverted, so that its upper twelve bits are not all zero; a NaN and the infinities have words
of their own, under the tag `JS_TAG_FLOAT64`.
-/

namespace QuickJs.NanBox

abbrev JSValue : Type := BitVec 64

inductive JSTag
  | uninitialized
  | int
  | bool
  | null
  | undefined
  | catchOffset
  | exception
  | float64
  -- the tags with a reference count
  | object
  | functionBytecode
  | module
  | string
  | symbol
  | bigFloat
  | bigInt
  | bigDecimal
  deriving DecidableEq

/-- The number of a tag. -/
def JSTag.code : JSTag → BitVec 32
  | uninitialized => 0
  | int => 1
  | bool => 2
  | null => 3
  | undefined => 4
  | catchOffset => 5
  | exception => 6
  | float64 => 7
  | object => 8
  | functionBytecode => 9
  | module => 10
  | string => 11
  | symbol => 12
  | bigFloat => 13
  | bigInt => 14
  | bigDecimal => 15

/-- The tags of the values that point to something with a reference count. -/
def JSTag.refCounted : JSTag → Bool
  | object | functionBytecode | module | string | symbol | bigFloat | bigInt | bigDecimal => true
  | uninitialized | int | bool | null | undefined | catchOffset | exception | float64 => false

/-! ## The macros -/

/-- `JS_VALUE_GET_TAG`. -/
def jsValueGetTag (v : JSValue) : BitVec 32 :=
  if 0xFFFFFFFFFFFFF < v then JSTag.float64.code else (v >>> 48).setWidth 32

/-- `JS_VALUE_GET_INT` and `JS_VALUE_GET_BOOL`. -/
def jsValueGetInt (v : JSValue) : BitVec 32 := v.setWidth 32

/-- `JS_VALUE_GET_PTR`. -/
def jsValueGetPtr (v : JSValue) : BitVec 64 := v &&& 0x0000FFFFFFFFFFFF

/-- `JS_MKVAL`. -/
def jsMkval (tag : JSTag) (val : BitVec 32) : JSValue :=
  ((0xF &&& tag.code).setWidth 64 <<< 48) ||| val.setWidth 64

/-- `JS_MKPTR`. -/
def jsMkptr (tag : JSTag) (ptr : BitVec 64) : JSValue :=
  ((0xF &&& tag.code).setWidth 64 <<< 48) ||| (ptr &&& 0x0000FFFFFFFFFFFF)

/-- `JS_NAN`. -/
def jsNan : JSValue := jsMkval .float64 0

/-- `JS_INFINITY_NEGATIVE`. -/
def jsInfinityNegative : JSValue := jsMkval .float64 1

/-- `JS_INFINITY_POSITIVE`. -/
def jsInfinityPositive : JSValue := jsMkval .float64 2

/-- The bits of a double. -/
abbrev Double : Type := BitVec 64

/-- `NAN`. -/
def nan : Double := 0x7ff8000000000000

/-- `INFINITY`. -/
def infinity : Double := 0x7ff0000000000000

/-- `-INFINITY`. -/
def negInfinity : Double := 0xfff0000000000000

/-- The bits without the sign. -/
def magnitude (d : Double) : BitVec 64 := d &&& 0x7fffffffffffffff

/-- All exponent bits are set and the fraction is not zero. -/
def isnan (d : Double) : Bool := 0x7ff0000000000000 < magnitude d

/-- The comparison `d < 0.0`. -/
def isNegative (d : Double) : Bool := !isnan d && d.msb && magnitude d != 0

/-- `JS_VALUE_GET_FLOAT64`. -/
def jsValueGetFloat64 (v : JSValue) : Double :=
  if 0xFFFFFFFFFFFFF < v then ~~~v
  else if v = jsNan then nan
  else if v = jsInfinityPositive then infinity
  else negInfinity

/-- `__JS_NewFloat64`. -/
def jsNewFloat64 (d : Double) : JSValue :=
  if d &&& 0x7ff0000000000000 = 0x7ff0000000000000 then
    if isnan d then jsNan
    else if isNegative d then jsInfinityNegative
    else jsInfinityPositive
  else ~~~d

/-- `JS_NewInt32`. -/
def jsNewInt32 (n : BitVec 32) : JSValue := jsMkval .int n

/-- `JS_TAG_IS_FLOAT64`. -/
def jsTagIsFloat64 (tag : BitVec 32) : Bool := tag == JSTag.float64.code

/-- `JS_VALUE_IS_NAN`. -/
def jsValueIsNan (v : JSValue) : Bool := v == jsNan

/-- `JS_VALUE_HAS_REF_COUNT`. -/
def jsValueHasRefCount (v : JSValue) : Bool := jsValueGetTag v &&& 0xFFF8 == 0x8

/-- `JS_VALUE_IS_BOTH_INT`: the tag of an int is taken to be 0. -/
def jsValueIsBothInt (v₁ v₂ : JSValue) : Bool := jsValueGetTag v₁ ||| jsValueGetTag v₂ == 0

/-- `JS_VALUE_IS_BOTH_FLOAT`. -/
def jsValueIsBothFloat (v₁ v₂ : JSValue) : Bool :=
  jsTagIsFloat64 (jsValueGetTag v₁) && jsTagIsFloat64 (jsValueGetTag v₂)

variable {v v₁ v₂ : JSValue} {tag tag' : JSTag} {d : Double} {ptr : BitVec 64} {val : BitVec 32}

/-! ## Tags -/

theorem JSTag.code_inj : tag.code = tag'.code → tag = tag' := by
  cases tag <;> cases tag' <;> decide

theorem toNat_code_lt (tag : JSTag) : tag.code.toNat < 16 := by
  cases tag <;> decide

/-- The four bits of the tag in their place. -/
theorem toNat_tagBits (tag : JSTag) :
    ((0xF &&& tag.code).setWidth 64 <<< 48 : BitVec 64).toNat = tag.code.toNat * 2 ^ 48 := by
  cases tag <;> rfl

/-- A tag and a payload of 48 bits. -/
theorem toNat_or_payload (tag : JSTag) {x : BitVec 64} (hx : x.toNat < 2 ^ 48) :
    ((0xF &&& tag.code).setWidth 64 <<< 48 ||| x : BitVec 64).toNat = tag.code.toNat * 2 ^ 48 + x.toNat := by
  rw [BitVec.toNat_or, toNat_tagBits, Nat.mul_comm, Nat.two_pow_add_eq_or_of_lt hx]

theorem toNat_jsMkval (tag : JSTag) (val : BitVec 32) :
    (jsMkval tag val).toNat = tag.code.toNat * 2 ^ 48 + val.toNat := by
  have hval : (val.setWidth 64).toNat = val.toNat := BitVec.toNat_setWidth_of_le (by decide)
  rw [jsMkval, toNat_or_payload tag (by omega), hval]

theorem toNat_jsMkptr (tag : JSTag) (hptr : ptr.toNat < 2 ^ 48) :
    (jsMkptr tag ptr).toNat = tag.code.toNat * 2 ^ 48 + ptr.toNat := by
  have hmask : (ptr &&& 0x0000FFFFFFFFFFFF : BitVec 64).toNat = ptr.toNat := by
    exact (Nat.and_two_pow_sub_one_eq_mod ptr.toNat 48).trans (Nat.mod_eq_of_lt hptr)
  rw [jsMkptr, toNat_or_payload tag (hmask ▸ hptr), hmask]

/-- The tag of a word below the doubles. -/
theorem toNat_jsValueGetTag (hv : v.toNat < 2 ^ 52) : (jsValueGetTag v).toNat = v.toNat / 2 ^ 48 := by
  have hlt : ¬(0xFFFFFFFFFFFFF : BitVec 64) < v := by
    exact Nat.not_lt.mpr (Nat.le_of_lt_succ hv)
  rw [jsValueGetTag, if_neg hlt, BitVec.toNat_setWidth, BitVec.toNat_ushiftRight]
  omega

theorem jsValueGetTag_of_toNat {x : ℕ} (hv : v.toNat = tag.code.toNat * 2 ^ 48 + x)
    (hx : x < 2 ^ 48) : jsValueGetTag v = tag.code := by
  have htag := toNat_code_lt tag
  refine BitVec.eq_of_toNat_eq ?_
  rw [toNat_jsValueGetTag (by omega)]
  omega

theorem jsValueGetTag_jsMkval : jsValueGetTag (jsMkval tag val) = tag.code :=
  jsValueGetTag_of_toNat (toNat_jsMkval tag val) (by omega)

theorem jsValueGetTag_jsMkptr (hptr : ptr.toNat < 2 ^ 48) : jsValueGetTag (jsMkptr tag ptr) = tag.code :=
  jsValueGetTag_of_toNat (toNat_jsMkptr tag hptr) hptr

theorem jsValueGetInt_jsMkval : jsValueGetInt (jsMkval tag val) = val := by
  refine BitVec.eq_of_toNat_eq ?_
  rw [jsValueGetInt, BitVec.toNat_setWidth, toNat_jsMkval]
  omega

theorem jsValueGetPtr_jsMkptr (hptr : ptr.toNat < 2 ^ 48) : jsValueGetPtr (jsMkptr tag ptr) = ptr := by
  refine BitVec.eq_of_toNat_eq ?_
  rw [jsValueGetPtr, BitVec.toNat_and, toNat_jsMkptr tag hptr]
  refine (Nat.and_two_pow_sub_one_eq_mod _ 48).trans ?_
  omega

/-- Every word has a tag. -/
theorem exists_tag (v : JSValue) : ∃ tag : JSTag, jsValueGetTag v = tag.code := by
  rcases Nat.lt_or_ge v.toNat (2 ^ 52) with hv | hv
  · have hlt : (jsValueGetTag v).toNat < 16 := by
      rw [toNat_jsValueGetTag hv]
      omega
    have hall : ∀ n : Fin 16, (JSTag.ofNat n).code = BitVec.ofNat 32 n := by decide
    exact ⟨_, ((hall ⟨_, hlt⟩).trans (BitVec.ofNat_toNat ..)).symm⟩
  · refine ⟨.float64, if_pos ?_⟩
    exact hv

theorem jsValueHasRefCount_eq (hv : jsValueGetTag v = tag.code) : jsValueHasRefCount v = tag.refCounted := by
  rw [jsValueHasRefCount, hv]
  cases tag <;> rfl

/-- `JS_VALUE_IS_BOTH_INT` asks whether both are `JS_UNINITIALIZED`. -/
theorem jsValueIsBothInt_iff : jsValueIsBothInt v₁ v₂ ↔
    jsValueGetTag v₁ = JSTag.uninitialized.code ∧ jsValueGetTag v₂ = JSTag.uninitialized.code := by
  rw [jsValueIsBothInt, beq_iff_eq]
  exact BitVec.or_eq_zero_iff

/-! ## Doubles -/

theorem toNat_magnitude (d : Double) : (magnitude d).toNat = d.toNat % 2 ^ 63 := by
  exact Nat.and_two_pow_sub_one_eq_mod d.toNat 63

theorem isnan_iff : isnan d ↔ 0x7ff0000000000000 < d.toNat % 2 ^ 63 := by
  rw [isnan, decide_eq_true_iff, BitVec.lt_def, toNat_magnitude]
  rfl

/-- The exponent bits of a double are set. -/
theorem le_magnitude (hexp : d &&& 0x7ff0000000000000 = 0x7ff0000000000000) :
    0x7ff0000000000000 ≤ d.toNat % 2 ^ 63 := by
  have hmask : (0x7fffffffffffffff : BitVec 64) &&& 0x7ff0000000000000 = 0x7ff0000000000000 := by
    decide
  have hand : magnitude d &&& 0x7ff0000000000000 = 0x7ff0000000000000 := by
    rw [magnitude, BitVec.and_assoc, hmask, hexp]
  calc 0x7ff0000000000000
      = (magnitude d &&& 0x7ff0000000000000).toNat := by rw [hand]; rfl
    _ ≤ (magnitude d).toNat := by rw [BitVec.toNat_and]; exact Nat.and_le_left
    _ = d.toNat % 2 ^ 63 := toNat_magnitude d

theorem exponent_of_le_magnitude (hle : 0x7ff0000000000000 ≤ d.toNat % 2 ^ 63) :
    d &&& 0x7ff0000000000000 = 0x7ff0000000000000 := by
  refine BitVec.eq_of_getLsbD_eq fun i hi => ?_
  have hmask : ∀ i : Fin 64, (0x7ff0000000000000 : BitVec 64).getLsbD i = true →
      52 ≤ i.val ∧ i.val < 63 ∧ (2047).testBit (i.val - 52) := by decide
  rw [BitVec.getLsbD_and]
  cases hbit : (0x7ff0000000000000 : BitVec 64).getLsbD i with
  | false => exact Bool.and_false _
  | true =>
    obtain ⟨hlow, hhigh, hexp⟩ := hmask ⟨i, hi⟩ hbit
    have hsplit : d.toNat % 2 ^ 63 = 2 ^ 52 * 2047 + (d.toNat % 2 ^ 63 - 2 ^ 52 * 2047) := by omega
    have hset : (d.toNat % 2 ^ 63).testBit i = true := by
      rw [hsplit, Nat.testBit_two_pow_mul_add _ (by omega), if_neg (Nat.not_lt.mpr hlow)]
      exact hexp
    rw [Nat.testBit_mod_two_pow, decide_eq_true hhigh] at hset
    rw [Bool.and_true]
    exact hset

/-- The inverted bits of a finite double are not below `2 ^ 52`. -/
theorem lt_not (hexp : d &&& 0x7ff0000000000000 ≠ 0x7ff0000000000000) :
    (0xFFFFFFFFFFFFF : BitVec 64) < ~~~d := by
  rw [BitVec.lt_def, BitVec.toNat_not]
  have hmag := mt exponent_of_le_magnitude hexp
  have hval : (0xFFFFFFFFFFFFF : BitVec 64).toNat = 0xFFFFFFFFFFFFF := rfl
  omega

/-- The infinities. -/
theorem infinity_cases (hexp : d &&& 0x7ff0000000000000 = 0x7ff0000000000000)
    (hnan : isnan d = false) : d = infinity ∨ d = negInfinity := by
  have hle := le_magnitude hexp
  have hge := mt isnan_iff.mpr (Bool.not_eq_true _ ▸ hnan)
  rcases Nat.lt_or_ge d.toNat (2 ^ 63) with hsign | hsign
  · refine .inl (BitVec.eq_of_toNat_eq ?_)
    rw [Nat.mod_eq_of_lt hsign] at hle hge
    exact Nat.le_antisymm (Nat.le_of_not_lt hge) hle
  · refine .inr (BitVec.eq_of_toNat_eq ?_)
    have hval : negInfinity.toNat = 0xfff0000000000000 := rfl
    omega

theorem jsNewFloat64_cases (d : Double) : isnan d ∧ jsNewFloat64 d = jsNan ∨
    d = infinity ∧ jsNewFloat64 d = jsInfinityPositive ∨
    d = negInfinity ∧ jsNewFloat64 d = jsInfinityNegative ∨
    isnan d = false ∧ jsNewFloat64 d = ~~~d ∧ 0xFFFFFFFFFFFFF < ~~~d := by
  by_cases hexp : d &&& 0x7ff0000000000000 = 0x7ff0000000000000
  · cases hnan : isnan d with
    | true =>
      refine .inl ⟨rfl, ?_⟩
      rw [jsNewFloat64, if_pos hexp, if_pos hnan]
    | false =>
      rcases infinity_cases hexp hnan with rfl | rfl
      · exact .inr (.inl ⟨rfl, rfl⟩)
      · exact .inr (.inr (.inl ⟨rfl, rfl⟩))
  · have hnan : isnan d = false := by
      by_contra h
      rw [Bool.not_eq_false, isnan_iff] at h
      exact hexp (exponent_of_le_magnitude (Nat.le_of_lt h))
    exact .inr (.inr (.inr ⟨hnan, if_neg hexp, lt_not hexp⟩))

theorem jsValueGetTag_jsNewFloat64 (d : Double) : jsValueGetTag (jsNewFloat64 d) = JSTag.float64.code := by
  rcases jsNewFloat64_cases d with ⟨_, h⟩ | ⟨_, h⟩ | ⟨_, h⟩ | ⟨_, h, hlt⟩
  · rw [h, jsNan, jsValueGetTag_jsMkval]
  · rw [h, jsInfinityPositive, jsValueGetTag_jsMkval]
  · rw [h, jsInfinityNegative, jsValueGetTag_jsMkval]
  · rw [h, jsValueGetTag, if_pos hlt]

/-- A double comes back; all NaNs are one. -/
theorem jsValueGetFloat64_jsNewFloat64 (d : Double) :
    jsValueGetFloat64 (jsNewFloat64 d) = if isnan d then nan else d := by
  rcases jsNewFloat64_cases d with ⟨hnan, h⟩ | ⟨rfl, h⟩ | ⟨rfl, h⟩ | ⟨hnan, h, hlt⟩
  · rw [h, if_pos hnan]
    rfl
  · rfl
  · rfl
  · rw [h, jsValueGetFloat64, if_pos hlt, BitVec.not_not, hnan]
    rfl

theorem jsValueIsNan_jsNewFloat64 (d : Double) : jsValueIsNan (jsNewFloat64 d) = isnan d := by
  rcases jsNewFloat64_cases d with ⟨hnan, h⟩ | ⟨rfl, h⟩ | ⟨rfl, h⟩ | ⟨hnan, h, hlt⟩
  · rw [h, hnan]
    rfl
  · rfl
  · rfl
  · rw [h, hnan]
    refine beq_false_of_ne fun heq => ?_
    rw [heq] at hlt
    exact absurd hlt (by decide)

/-! ## The encoding -/

/-- The words that the code makes of a tag and a payload. -/
inductive Boxed : JSTag → JSValue → Prop
  | val (tag : JSTag) (val : BitVec 32) : Boxed tag (jsMkval tag val)
  | ptr (tag : JSTag) (ptr : BitVec 64) : ptr.toNat < 2 ^ 48 → Boxed tag (jsMkptr tag ptr)
  | float64 (d : Double) : Boxed .float64 (jsNewFloat64 d)

theorem Boxed.getTag (h : Boxed tag v) : jsValueGetTag v = tag.code := by
  cases h with
  | val => exact jsValueGetTag_jsMkval
  | ptr _ _ hptr => exact jsValueGetTag_jsMkptr hptr
  | float64 d => exact jsValueGetTag_jsNewFloat64 d

/-- Decoding gives back what was encoded, and what is different stays different. -/
structure Faithful : Prop where
  /-- an int is a tag and its 32 bits -/
  int : ∀ n, jsValueGetTag (jsNewInt32 n) = JSTag.int.code ∧ jsValueGetInt (jsNewInt32 n) = n
  /-- a double is its 64 bits, NaNs up to the canonical one -/
  float64 : ∀ d, jsValueGetTag (jsNewFloat64 d) = JSTag.float64.code ∧
    jsValueGetFloat64 (jsNewFloat64 d) = if isnan d then nan else d
  val : ∀ tag val, jsValueGetTag (jsMkval tag val) = tag.code ∧ jsValueGetInt (jsMkval tag val) = val
  ptr : ∀ (tag : JSTag) (ptr : BitVec 64), ptr.toNat < 2 ^ 48 →
    jsValueGetTag (jsMkptr tag ptr) = tag.code ∧ jsValueGetPtr (jsMkptr tag ptr) = ptr
  /-- no word belongs to two tags; a double belongs to its own -/
  disjoint : ∀ tag tag' v, Boxed tag v → Boxed tag' v → tag = tag'
  /-- also a word that nobody made has a tag, which says whether there is a reference count -/
  refCount : ∀ v, ∃ tag : JSTag, jsValueGetTag v = tag.code ∧ jsValueHasRefCount v = tag.refCounted

theorem faithful : Faithful where
  int _ := ⟨jsValueGetTag_jsMkval, jsValueGetInt_jsMkval⟩
  float64 d := ⟨jsValueGetTag_jsNewFloat64 d, jsValueGetFloat64_jsNewFloat64 d⟩
  val _ _ := ⟨jsValueGetTag_jsMkval, jsValueGetInt_jsMkval⟩
  ptr _ _ hptr := ⟨jsValueGetTag_jsMkptr hptr, jsValueGetPtr_jsMkptr hptr⟩
  disjoint _ _ _ h h' := JSTag.code_inj (h.getTag.symm.trans h'.getTag)
  refCount v := by
    obtain ⟨tag, htag⟩ := exists_tag v
    exact ⟨tag, htag, jsValueHasRefCount_eq htag⟩

/-- Both values are ints. -/
def BothInt (v₁ v₂ : JSValue) : Prop :=
  jsValueGetTag v₁ = JSTag.int.code ∧ jsValueGetTag v₂ = JSTag.int.code

/-- Both values are `JS_UNINITIALIZED`. -/
def BothUninitialized (v₁ v₂ : JSValue) : Prop :=
  jsValueGetTag v₁ = JSTag.uninitialized.code ∧ jsValueGetTag v₂ = JSTag.uninitialized.code

/-- **The encoding is faithful**, and `JS_VALUE_IS_BOTH_INT` is right about the values that are
neither both ints nor both uninitialized. -/
theorem nanBoxing_iff (v₁ v₂ : JSValue) : (Faithful ∧ (jsValueIsBothInt v₁ v₂ ↔ BothInt v₁ v₂)) ↔
      ¬BothInt v₁ v₂ ∧ ¬BothUninitialized v₁ v₂ := by
  rw [jsValueIsBothInt_iff]
  have hdiff : BothInt v₁ v₂ → ¬BothUninitialized v₁ v₂ := fun h hun =>
    nomatch JSTag.code_inj (h.1.symm.trans hun.1)
  constructor
  · rintro ⟨_, hiff⟩
    have hint : ¬BothInt v₁ v₂ := fun h => hdiff h (hiff.mpr h)
    exact ⟨hint, mt hiff.mp hint⟩
  · rintro ⟨hint, hun⟩
    exact ⟨faithful, iff_of_false hun hint⟩

/-- Two ints are not recognised. -/
theorem nanBoxing_not_bothInt : ¬∀ v₁ v₂ : JSValue,
    Faithful ∧ (jsValueIsBothInt v₁ v₂ ↔ BothInt v₁ v₂) := by
  intro hall
  have hints : BothInt (jsNewInt32 1) (jsNewInt32 2) := by
    constructor <;> exact jsValueGetTag_jsMkval
  exact nomatch (hall (jsNewInt32 1) (jsNewInt32 2)).2.mpr hints

end QuickJs.NanBox
