import QuickJs.BinaryFormat
import QuickJs.ToInt32
import QuickJs.TypedArray

/-!
# `set` of a typed array

`js_typed_array_set_internal` moves the bytes of an array of the same class. The elements of another class are converted
one after the other, in increasing order; where the two arrays share a buffer, an element may be read after it has been
overwritten.
-/

namespace QuickJs.TypedArraySet

open BinaryFormat Double TypedArray

/-! ## Bytes -/

abbrev Memory := ℕ → UInt8

def read (mem : Memory) (a size : ℕ) : List UInt8 := (List.range size).map fun k : ℕ => mem (a + k)

def write (mem : Memory) (a : ℕ) (bytes : List UInt8) : Memory := fun x =>
  if a ≤ x ∧ x < a + bytes.length then bytes.getD (x - a) 0 else mem x

/-- The number that bytes store, the last bits first. -/
def ofBytes : List UInt8 → ℕ
  | [] => 0
  | b :: bytes => b.toNat + 2 ^ 8 * ofBytes bytes

def toBytes (size w : ℕ) : List UInt8 := (List.range size).map fun k : ℕ => .ofNat (w / 2 ^ (8 * k))

/-! ## Elements -/

inductive Value
  | num (n : Double.Num)
  | bigInt (z : ℤ)

/-- `JS_NewInt32`, `JS_NewUint32` and `JS_NewInt64`, up to `2 ^ 53` -/
def jsNewInt64 (v : ℤ) : Value :=
  if -2 ^ 31 ≤ v ∧ v < 2 ^ 31 then .num (.int (.ofInt v))
  else .num (.float64 (.ofNat ((if v < 0 then 2 ^ 63 else 0) + Double.ofNat v.natAbs)))

/-- `JS_NewBigInt64` and `JS_NewBigUint64` -/
def jsNewBigInt64 (mathMode : Bool) (v : ℤ) : Value :=
  if mathMode ∧ v.natAbs ≤ maxSafeInteger then jsNewInt64 v else .bigInt v

/-- `JS_GetPropertyValue`, for the bits of the element -/
def jsGetPropertyValue (mathMode : Bool) (w : ℕ) : JSClass → Value
  | .int8Array => jsNewInt64 ((w : ℤ).bmod (2 ^ 8))
  | .uint8CArray | .uint8Array | .uint16Array | .uint32Array => jsNewInt64 w
  | .int16Array => jsNewInt64 ((w : ℤ).bmod (2 ^ 16))
  | .int32Array => jsNewInt64 ((w : ℤ).bmod (2 ^ 32))
  | .bigInt64Array => jsNewBigInt64 mathMode ((w : ℤ).bmod (2 ^ 64))
  | .bigUint64Array => jsNewBigInt64 mathMode w
  | .float32Array => .num (.float64 (.ofNat (single.convert double w)))
  | .float64Array => .num (.float64 (.ofNat w))

def toFloat64 : Double.Num → UInt64
  | .int n => ofInt32 n
  | .float64 d => d

/-- `JS_ToUint8ClampFree`; a negative zero is 0 too. -/
def jsToUint8Clamp : Double.Num → ℕ
  | .int n => (max 0 (min 255 n.toInt)).toNat
  | .float64 d =>
    if isnan d ∨ 2 ^ 63 ≤ d.toNat then 0
    else if ofInt32 255 < d then 255
    else
      -- `lrint`
      let (m, e) := BinaryFormat.double.unpack d.toNat
      if 0 ≤ e then m * 2 ^ e.toNat else Format.shiftRightEven m (-e).toNat

/-- `JS_ToBigIntFree`: in math mode a finite number is cut off. -/
def jsToBigInt (mathMode : Bool) : Value → Option ℤ
  | .bigInt z => some z
  | .num n =>
    if !mathMode then none
    else
      match n with
      | .int n => some n.toInt
      | .float64 d =>
        if exponent d = 2047 then none else some (if d.toNat < 2 ^ 63 then integerPart d else -integerPart d)

/-- `JS_SetPropertyValue`: the bits that are stored; none is a `TypeError`. -/
def jsSetPropertyValue (mathMode : Bool) (v : Value) : JSClass → Option ℕ
  | .bigInt64Array | .bigUint64Array => (jsToBigInt mathMode v).map fun z => (z % 2 ^ 64).toNat
  | c =>
    match v with
    | .bigInt _ => none
    | .num n =>
      match c with
      | .uint8CArray => some (jsToUint8Clamp n)
      | .float32Array => some (BinaryFormat.double.convert single (toFloat64 n).toNat)
      | .float64Array => some (toFloat64 n).toNat
      | _ => some n.toInt32.toUInt32.toNat

/-- An element is read from an array of one class and stored in another one. -/
def convert (mathMode : Bool) (src dst : JSClass) (bytes : List UInt8) : Option (List UInt8) :=
  (jsSetPropertyValue mathMode (jsGetPropertyValue mathMode (ofBytes bytes) src) dst).map (toBytes (1 <<< dst.sizeLog2))

/-! ## `js_typed_array_set_internal` -/

/-- A typed array, with the address of its first byte. -/
structure View where
  classId : JSClass
  addr : ℕ
  count : ℕ
  detached : Bool

def View.size (v : View) : ℕ := 1 <<< v.classId.sizeLog2

inductive JSError
  | rangeError
  | typeError
  deriving DecidableEq

/-- The loop, for `n` elements from `i` on; the index is below the length. -/
def copyLoop (conv : List UInt8 → Option (List UInt8)) (d ds s ss : ℕ) : ℕ → ℕ → Memory → Option JSError × Memory
  | 0, _, mem => (none, mem)
  | n + 1, i, mem =>
    match conv (read mem (s + i * ss) ss) with
    | none => (some .typeError, mem)
    | some bytes => copyLoop conv d ds s ss n (i + 1) (write mem (d + i * ds) bytes)

/-- `js_typed_array_set_internal`, for a source that is a typed array -/
def jsTypedArraySetInternal (mathMode : Bool) (mem : Memory) (dst src : View) (offset : ℤ) : Option JSError × Memory :=
  if offset < 0 then (some .rangeError, mem)
  else if dst.detached || src.detached then (some .typeError, mem)
  else if (dst.count : ℤ) - src.count < offset then (some .rangeError, mem)
  else
    let d := dst.addr + offset.toNat * dst.size
    -- `memmove`
    if src.classId = dst.classId then (none, write mem d (read mem src.addr (src.count * src.size)))
    else copyLoop (convert mathMode src.classId dst.classId) d dst.size src.addr src.size src.count 0 mem

/-! ## A snapshot -/

def View.element (v : View) (mem : Memory) (i : ℕ) : List UInt8 := read mem (v.addr + i * v.size) v.size

/-- What an element becomes; that of the same class is kept. -/
def conversion (mathMode : Bool) (src dst : JSClass) (bytes : List UInt8) : Option (List UInt8) :=
  if src = dst then some bytes else convert mathMode src dst bytes

/-- If the elements can be converted they are, as they were before the call; the other bytes stay. -/
def Right (mathMode : Bool) (mem : Memory) (dst src : View) (offset : ℕ) : Prop :=
  let conv := conversion mathMode src.classId dst.classId
  let r := jsTypedArraySetInternal mathMode mem dst src offset
  (∀ i < src.count, (conv (src.element mem i)).isSome) →
    r.1 = none ∧ (∀ i < src.count, some (dst.element r.2 (offset + i)) = conv (src.element mem i)) ∧
      ∀ x, (x < dst.addr + offset * dst.size ∨ dst.addr + (offset + src.count) * dst.size ≤ x) → r.2 x = mem x

/-- The memory once the first elements are stored as they were in `mem`. -/
def stored (conv : List UInt8 → Option (List UInt8)) (d ds s ss : ℕ) (mem : Memory) : ℕ → Memory
  | 0 => mem
  | i + 1 => write (stored conv d ds s ss mem i) (d + i * ds) ((conv (read mem (s + i * ss) ss)).getD [])

/-- An element is converted as before, once those before it are stored. -/
def Undisturbed (mathMode : Bool) (mem : Memory) (dst src : View) (offset : ℕ) : Prop :=
  let conv := conversion mathMode src.classId dst.classId
  src.classId = dst.classId ∨ ((∀ i < src.count, (conv (src.element mem i)).isSome) → ∀ i < src.count,
      conv (src.element (stored conv (dst.addr + offset * dst.size) dst.size src.addr src.size mem i) i) =
        conv (src.element mem i))

variable {mathMode : Bool} {mem mem' : Memory} {dst src : View} {conv : List UInt8 → Option (List UInt8)}
  {a x d ds s ss n i : ℕ} {bytes : List UInt8}

theorem length_read : (read mem a n).length = n := by rw [read, List.length_map, List.length_range]

theorem getD_read (h : i < n) : (read mem a n).getD i 0 = mem (a + i) := by
  rw [List.getD_eq_getElem _ _ (length_read.symm ▸ h)]
  simp only [read, List.getElem_map, List.getElem_range]

theorem read_congr (h : ∀ x, a ≤ x → x < a + n → mem' x = mem x) : read mem' a n = read mem a n := by
  refine List.map_congr_left fun k hk => h _ (Nat.le_add_right a k) ?_
  exact Nat.add_lt_add_left (List.mem_range.mp hk) a

theorem write_of_mem (h : a ≤ x ∧ x < a + bytes.length) : write mem a bytes x = bytes.getD (x - a) 0 := if_pos h

theorem write_of_not (h : x < a ∨ a + bytes.length ≤ x) : write mem a bytes x = mem x := if_neg (by omega)

theorem read_write (h : bytes.length = n) : read (write mem a bytes) a n = bytes := by
  refine List.ext_getElem (length_read.trans h.symm) fun k hk hk' => ?_
  simp only [read, List.getElem_map, List.getElem_range]
  rw [write_of_mem (by omega), Nat.add_sub_cancel_left, List.getD_eq_getElem _ _ hk']

/-- The loop leaves what is outside of the elements that it stores. -/
theorem copyLoop_frame (hlen : ∀ b c, conv b = some c → c.length = ds) (n i : ℕ) (mem : Memory)
    (hx : x < d + i * ds ∨ d + (i + n) * ds ≤ x) : (copyLoop conv d ds s ss n i mem).2 x = mem x := by
  induction n generalizing i mem with
  | zero => rfl
  | succ n ih =>
    have hi : (i + 1) * ds = i * ds + ds := Nat.succ_mul i ds
    have hend : (i + (n + 1)) * ds = (i + 1 + n) * ds := by rw [Nat.add_comm n 1, Nat.add_assoc]
    have hle : (i + 1) * ds ≤ (i + 1 + n) * ds := Nat.mul_le_mul_right ds (Nat.le_add_right _ n)
    unfold copyLoop
    split
    · rfl
    · rename_i bytes hconv
      have hbytes := hlen _ _ hconv
      rw [ih (i + 1) _ (by omega), write_of_not (by omega)]

/-- **The loop stores a snapshot exactly if no element is disturbed.** -/
theorem copyLoop_iff (hlen : ∀ b c, conv b = some c → c.length = ds) (n i : ℕ)
    (hsome : ∀ j, i ≤ j → j < i + n → (conv (read mem (s + j * ss) ss)).isSome) :
    ((copyLoop conv d ds s ss n i (stored conv d ds s ss mem i)).1 = none ∧ ∀ j, i ≤ j → j < i + n →
        some (read (copyLoop conv d ds s ss n i (stored conv d ds s ss mem i)).2 (d + j * ds) ds) =
          conv (read mem (s + j * ss) ss)) ↔
      ∀ j, i ≤ j → j < i + n →
        conv (read (stored conv d ds s ss mem j) (s + j * ss) ss) = conv (read mem (s + j * ss) ss) := by
  induction n generalizing i with
  | zero => exact iff_of_true ⟨rfl, fun j _ _ => by omega⟩ fun j _ _ => by omega
  | succ n ih =>
    obtain ⟨c, hc⟩ := Option.isSome_iff_exists.mp (hsome i (Nat.le_refl i) (by omega))
    unfold copyLoop
    split
    · rename_i hnone
      refine iff_of_false (fun h => nomatch h.1) fun h => ?_
      cases hnone.symm.trans ((h i (Nat.le_refl i) (by omega)).trans hc)
    rename_i bytes hconv
    have hbytes := hlen _ _ hconv
    -- the rest of the loop does not touch the element
    have hkept (m : Memory) : read (copyLoop conv d ds s ss n (i + 1) (write m (d + i * ds) bytes)).2 (d + i * ds) ds =
        bytes := by
      refine (read_congr fun x _ hx => copyLoop_frame hlen n (i + 1) _ (.inl ?_)).trans (read_write hbytes)
      rw [Nat.succ_mul]
      omega
    by_cases heq : c = bytes
    · have hnext : write (stored conv d ds s ss mem i) (d + i * ds) bytes = stored conv d ds s ss mem (i + 1) := by
        rw [stored, hc, heq]
        rfl
      have hrest := ih (i + 1) fun j hj hlt => hsome j (by omega) (by omega)
      have hsplit {P : ℕ → Prop} (hi : P i) :
          (∀ j, i ≤ j → j < i + (n + 1) → P j) ↔ ∀ j, i + 1 ≤ j → j < i + 1 + n → P j := by
        refine ⟨fun h j hj hlt => h j (by omega) (by omega), fun h j hj hlt => ?_⟩
        obtain rfl | hj := Nat.eq_or_lt_of_le hj
        · exact hi
        · exact h j hj (by omega)
      have hfirst := hkept (stored conv d ds s ss mem i)
      rw [hnext] at hfirst ⊢
      rw [hsplit (by rw [hfirst, hc, heq]), hsplit (by rw [hconv, hc, heq])]
      exact hrest
    · refine iff_of_false (fun h => heq ?_) fun h => heq ?_
      · have hi := h.2 i (Nat.le_refl i) (by omega)
        rw [hkept, hc] at hi
        exact (Option.some.inj hi).symm
      · have hi := h i (Nat.le_refl i) (by omega)
        rw [hconv, hc] at hi
        exact (Option.some.inj hi).symm

theorem length_convert {b c : List UInt8} {x y : JSClass} (h : convert mathMode x y b = some c) :
    c.length = 1 <<< y.sizeLog2 := by
  obtain ⟨w, -, rfl⟩ := Option.map_eq_some_iff.mp h
  rw [toBytes, List.length_map, List.length_range]

/-- **`set` stores a snapshot** exactly if the classes are the same or no element is disturbed. -/
theorem jsTypedArraySetInternal_iff (mathMode : Bool) (mem : Memory) (dst src : View) (offset : ℕ)
    (hdst : dst.detached = false) (hsrc : src.detached = false) (hoffset : offset + src.count ≤ dst.count) :
    Right mathMode mem dst src offset ↔ Undisturbed mathMode mem dst src offset := by
  have haddr (i : ℕ) : dst.addr + (offset + i) * dst.size = dst.addr + offset * dst.size + i * dst.size := by
    rw [Nat.add_mul, Nat.add_assoc]
  unfold Right Undisturbed jsTypedArraySetInternal View.element conversion
  rw [if_neg (by omega), hdst, hsrc, Bool.or_false, if_neg Bool.false_ne_true, if_neg (by omega), Int.toNat_natCast]
  simp only [haddr]
  by_cases hclass : src.classId = dst.classId
  · have hsize : src.size = dst.size := by rw [View.size, hclass, View.size]
    refine iff_of_true (fun _ => ?_) (.inl hclass)
    rw [if_pos hclass]
    refine ⟨rfl, fun i hi => ?_, fun x hx => write_of_not ?_⟩
    · rw [if_pos hclass, ← hsize]
      refine congrArg some (List.map_congr_left fun k hk => ?_)
      have hle : (i + 1) * src.size ≤ src.count * src.size := Nat.mul_le_mul_right _ hi
      have hin : i * src.size + k < src.count * src.size := by
        rw [Nat.succ_mul] at hle
        have hlt := List.mem_range.mp hk
        omega
      have hsub (d : ℕ) : d + i * src.size + k - d = i * src.size + k := by omega
      refine (write_of_mem (by rw [length_read]; omega)).trans ?_
      rw [hsub, getD_read hin, Nat.add_assoc]
    · rwa [length_read, hsize]
  · rw [or_iff_right hclass]
    simp only [if_neg hclass]
    refine forall_congr' fun hsome => ?_
    have hlen (b c : List UInt8) (h : convert mathMode src.classId dst.classId b = some c) : c.length = dst.size :=
      length_convert h
    have hloop := copyLoop_iff hlen (d := dst.addr + offset * dst.size) src.count 0 fun j _ hj =>
      hsome j (by omega)
    simp only [Nat.zero_le, true_imp_iff, Nat.zero_add] at hloop
    refine Iff.trans ⟨fun h => ⟨h.1, h.2.1⟩, fun h => ⟨h.1, h.2, fun x hx => ?_⟩⟩ hloop
    refine copyLoop_frame hlen src.count 0 mem ?_
    rwa [Nat.zero_mul, Nat.zero_add, Nat.add_zero]

/-- The words are read over the bytes 1, 2, 3 and so on. -/
def words : View := ⟨.uint16Array, 0, 2, false⟩

def octets : View := ⟨.uint8Array, 0, 2, false⟩

theorem jsTypedArraySetInternal_iff_example :
    Right false (fun x => .ofNat (x + 1)) words octets 0 ↔ Undisturbed false (fun x => .ofNat (x + 1)) words octets 0 :=
  jsTypedArraySetInternal_iff false (fun x => .ofNat (x + 1)) words octets 0 rfl rfl (by decide)

/-- The first word is 1, and its second byte is the next element. -/
theorem jsTypedArraySetInternal_wrong : ¬Right false (fun x => .ofNat (x + 1)) words octets 0 := by
  intro h
  have hone := (h (by decide)).2.1 1 (by decide)
  have hconv : conversion false octets.classId words.classId (octets.element (fun x => .ofNat (x + 1)) 1) =
      some [2, 0] := by decide
  rw [hconv, Option.some.injEq] at hone
  have htwo : some ((jsTypedArraySetInternal false (fun x => .ofNat (x + 1)) words octets 0).2 2) = some 2 :=
    congrArg List.head? hone
  cases htwo

end QuickJs.TypedArraySet
