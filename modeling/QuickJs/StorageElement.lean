import QuickJs.ByteBuffer
import QuickJs.StorageIndex
import Mathlib.Data.List.TakeDrop

/-!
# The elements of a stored object

The body of an object in the storage is a sequence of elements: a byte with the type, and the value. Texts, blobs,
arrays and maps have a length; one from 1 to 15 is in the upper bits of the byte, another one is a number of 32 bits.
-/

namespace QuickJs.Storage

open ByteBuffer

/-- The number of a type. -/
def DybaseType.code : DybaseType → ℕ
  | objectRef => 0
  | arrayRef => 1
  | indexRef => 2
  | bool => 3
  | int => 4
  | date => 5
  | real => 6
  | chars => 7
  | array => 8
  | map => 9
  | long => 10
  | bytes => 11

def DybaseType.ofCode : ℕ → Option DybaseType
  | 0 => some objectRef
  | 1 => some arrayRef
  | 2 => some indexRef
  | 3 => some bool
  | 4 => some int
  | 5 => some date
  | 6 => some real
  | 7 => some chars
  | 8 => some array
  | 9 => some map
  | 10 => some long
  | 11 => some bytes
  | _ => none

/-- `dbSizeofType`: the bytes of a value, if they are always as many. -/
def dbSizeofType : DybaseType → ℕ
  | .objectRef | .arrayRef | .indexRef => 4
  | .bool => 1
  | .int => 4
  | .date | .real | .long => 8
  | .chars | .array | .map | .bytes => 0

/-- What the `dbLoadHandle` has after a step: the type, the memory that `getValue` points to, and what `getLength`
returns, which is a length only where the type has one. -/
structure Element where
  type : ℕ
  value : List UInt8
  length : ℤ
  deriving DecidableEq

/-! ## Writing -/

/-- The type and the length; `(unsigned)(length - 1) < 15` leaves the length 0 to the long form. -/
def putLength (type : DybaseType) (length : ℤ) : List UInt8 :=
  if 1 ≤ length ∧ length ≤ 15 then [.ofNat (type.code + 16 * length.toNat)] else .ofNat type.code :: ofInt 4 length

/-- `dbStoreHandle::setElement`: what it adds to the body. -/
def setElement (type : DybaseType) (value : List UInt8) (length : ℤ) : List UInt8 :=
  match type with
  | .objectRef | .arrayRef | .indexRef => .ofNat type.code :: value.take 4
  | .bool => .ofNat type.code :: value.take 1
  | .int => .ofNat type.code :: value.take 4
  | .date | .long | .real => .ofNat type.code :: value.take 8
  | .chars | .bytes => putLength type length ++ value.take length.toNat
  | .array | .map => putLength type length

/-! ## Reading -/

/-- A value of `n` bytes is copied. Nothing stands for what is behind the body. -/
def loadFixed (type n : ℕ) (curr : List UInt8) : Option (Element × List UInt8) :=
  if n ≤ curr.length then some (⟨type, curr.take n, 0⟩, curr.drop n) else none

/-- The length is in the byte or behind it. -/
def loadLength (t : DybaseType) (type : ℕ) (curr : List UInt8) : Option (ℤ × List UInt8) :=
  if type ≠ t.code then some ((type / 16 : ℕ), curr)
  else if 4 ≤ curr.length then some (toInt (curr.take 4), curr.drop 4)
  else none

/-- The value stays where it is. -/
def loadBytes (t : DybaseType) (length : ℤ) (curr : List UInt8) : Option (Element × List UInt8) :=
  if 0 ≤ length ∧ length.toNat ≤ curr.length then
    some (⟨t.code, curr.take length.toNat, length⟩, curr.drop length.toNat)
  else none

/-- `dbLoadHandle::hasNext`. -/
def hasNext : List UInt8 → Option (Element × List UInt8)
  | [] => none
  | b :: curr =>
    let type := b.toNat
    match DybaseType.ofCode (type % 16) with
    | none => some (⟨type, [], 0⟩, curr)
    | some t =>
      match t with
      | .objectRef | .arrayRef | .indexRef => loadFixed type 4 curr
      | .bool => loadFixed type 1 curr
      | .int => loadFixed type 4 curr
      | .date | .long | .real => loadFixed type 8 curr
      | .chars | .bytes => (loadLength t type curr).bind fun (length, curr) => loadBytes t length curr
      | .array | .map => (loadLength t type curr).map fun (length, curr) => (⟨t.code, [], length⟩, curr)

variable {t : DybaseType} {value rest : List UInt8} {length : ℤ}

/-! ## Types -/

theorem DybaseType.ofCode_code (t : DybaseType) : ofCode t.code = some t := by cases t <;> rfl

theorem DybaseType.code_lt (t : DybaseType) : t.code < 12 := by cases t <;> decide

/-- The lower bits of the byte are the type. -/
theorem ofCode_byte (t : DybaseType) {n : ℕ} (hn : n ≤ 15) :
    (UInt8.ofNat (t.code + 16 * n)).toNat = t.code + 16 * n ∧
      DybaseType.ofCode ((UInt8.ofNat (t.code + 16 * n)).toNat % 16) = some t := by
  have hcode := t.code_lt
  have hbyte : (UInt8.ofNat (t.code + 16 * n)).toNat = t.code + 16 * n := by
    rw [UInt8.toNat_ofNat']
    omega
  have hmod : (t.code + 16 * n) % 16 = t.code := by omega
  exact ⟨hbyte, by rw [hbyte, hmod, t.ofCode_code]⟩

theorem ofCode_byte_zero (t : DybaseType) : (UInt8.ofNat t.code).toNat = t.code ∧
    DybaseType.ofCode ((UInt8.ofNat t.code).toNat % 16) = some t := ofCode_byte t (Nat.zero_le 15)

/-! ## What is written is read -/

theorem loadFixed_append {type n : ℕ} (h : value.length = n) :
    loadFixed type n (value ++ rest) = some (⟨type, value, 0⟩, rest) := by
  have hle : n ≤ (value ++ rest).length := by
    rw [List.length_append]
    omega
  rw [loadFixed, if_pos hle, ← h, List.take_left, List.drop_left]

theorem loadBytes_append (h₀ : 0 ≤ length) (h : value.length = length.toNat) :
    loadBytes t length (value ++ rest) = some (⟨t.code, value, length⟩, rest) := by
  have hle : length.toNat ≤ (value ++ rest).length := by
    rw [List.length_append]
    omega
  rw [loadBytes, if_pos ⟨h₀, hle⟩, ← h, List.take_left, List.drop_left]

/-- Both forms of a length. -/
theorem putLength_cases (h₀ : 0 ≤ length) (h : length < 2 ^ 31) : ∃ (b : UInt8) (bs : List UInt8),
    putLength t length = b :: bs ∧ DybaseType.ofCode (b.toNat % 16) = some t ∧
      ∀ curr, loadLength t b.toNat (bs ++ curr) = some (length, curr) := by
  rw [putLength]
  split
  · obtain ⟨hbyte, hcode⟩ := ofCode_byte t (show length.toNat ≤ 15 by omega)
    have ht := t.code_lt
    have hne : t.code + 16 * length.toNat ≠ t.code := by omega
    have hdiv : (((t.code + 16 * length.toNat) / 16 : ℕ) : ℤ) = length := by omega
    refine ⟨_, [], rfl, hcode, fun curr => ?_⟩
    rw [hbyte, loadLength, if_pos hne, hdiv, List.nil_append]
  · obtain ⟨hbyte, hcode⟩ := ofCode_byte_zero t
    refine ⟨_, ofInt 4 length, rfl, hcode, fun curr => ?_⟩
    have hfour : (ofInt 4 length).length = 4 := length_ofInt 4 length
    have hle : 4 ≤ (ofInt 4 length ++ curr).length := by
      rw [List.length_append]
      exact Nat.le_add_right 4 _
    have htake : (ofInt 4 length ++ curr).take 4 = ofInt 4 length := List.take_left' hfour
    have hdrop : (ofInt 4 length ++ curr).drop 4 = curr := List.drop_left' hfour
    have hfits : Fits 4 length := ⟨by omega, by omega⟩
    rw [hbyte, loadLength, if_neg (not_not_intro rfl), if_pos hle, htake, hdrop, toInt_ofInt hfits]

/-- **A value of a fixed size** is read. -/
theorem hasNext_fixed (ht : dbSizeofType t ≠ 0) (h : dbSizeofType t ≤ value.length) :
    hasNext (setElement t value length ++ rest) = some (⟨t.code, value.take (dbSizeofType t), 0⟩, rest) := by
  have hload : loadFixed t.code (dbSizeofType t) (value.take (dbSizeofType t) ++ rest) =
    some (⟨t.code, value.take (dbSizeofType t), 0⟩, rest) := loadFixed_append (List.length_take_of_le h)
  cases t <;> first | exact hload | exact absurd rfl ht

/-- **A text or a blob** is read. -/
theorem hasNext_bytes (ht : t = .chars ∨ t = .bytes) (h : value.length = length.toNat) (h₀ : 0 ≤ length)
    (hlt : length < 2 ^ 31) :
    hasNext (setElement t value length ++ rest) = some (⟨t.code, value, length⟩, rest) := by
  obtain ⟨b, bs, heq, hcode, hload⟩ := putLength_cases (t := t) h₀ hlt
  have hbytes : loadBytes t length (value ++ rest) = some (⟨t.code, value, length⟩, rest) := loadBytes_append h₀ h
  have hset : setElement t value length = putLength t length ++ value.take length.toNat := by
    rcases ht with rfl | rfl <;> rfl
  have hnext : hasNext (b :: (bs ++ (value ++ rest))) =
      (loadLength t b.toNat (bs ++ (value ++ rest))).bind fun (length, curr) => loadBytes t length curr := by
    rw [hasNext, hcode]
    rcases ht with rfl | rfl <;> rfl
  rw [hset, heq, ← h, List.take_length, List.append_assoc, List.cons_append, hnext, hload]
  exact hbytes

/-- **The head of an array or a map** is read. -/
theorem hasNext_length (ht : t = .array ∨ t = .map) (h₀ : 0 ≤ length) (hlt : length < 2 ^ 31) :
    hasNext (setElement t value length ++ rest) = some (⟨t.code, [], length⟩, rest) := by
  obtain ⟨b, bs, heq, hcode, hload⟩ := putLength_cases (t := t) h₀ hlt
  have hset : setElement t value length = putLength t length := by
    rcases ht with rfl | rfl <;> rfl
  have hnext : hasNext (b :: (bs ++ rest)) =
      (loadLength t b.toNat (bs ++ rest)).map fun (length, curr) => (⟨t.code, [], length⟩, curr) := by
    rw [hasNext, hcode]
    rcases ht with rfl | rfl <;> rfl
  rw [hset, heq, List.cons_append, hnext, hload]
  rfl

end QuickJs.Storage
