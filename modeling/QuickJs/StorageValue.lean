import QuickJs.StorageElement
import QuickJs.CStringExact
import QuickJs.AtomLen
import QuickJs.DateFields

/-!
# Stored values

`db_transform` makes a typed piece of memory of a value, which `db_store_field` writes as an element of a stored object.
`db_fetch_value` makes a value of an element again. The keys of an object are stored as texts.
-/

namespace QuickJs.StoredValue

open Storage
open ByteBuffer
open Rounding
open JSString (Chars jsToCStringLen2 jsNewStringLen)

/-- An object that has a place of its own in the storage. -/
inductive EntityKind
  | object
  | array
  | index
  deriving DecidableEq

/-- A value of a property. -/
inductive Value
  | null
  | undefined
  | bool (b : Bool)
  | int (n : Int32)
  | float64 (d : UInt64)
  | bigInt (n : ℤ)
  | string (s : Chars)
  | date (ms : Number)
  /-- none is a buffer that is detached -/
  | arrayBuffer (data : Option (List UInt8))
  /-- an object with the identifier that it has, or gets from `db_persist_entity` -/
  | entity (kind : EntityKind) (oid : UInt32)
  deriving DecidableEq

/-! ## Storing -/

/-- `db_data`. -/
inductive Data
  | i (n : ℤ)
  | d (bits : UInt64)
  /-- what the pointer points to, nothing if it is null -/
  | s (bytes : List UInt8)
  | i64 (n : ℤ)
  | oid (n : ℕ)

/-- The memory of the union, which was set to 0, or what it points to: `keyptr`. -/
def Data.memory : Data → List UInt8
  | i n => ofInt 4 n ++ ofInt 4 0
  | d bits => ofInt 8 bits.toNat
  | s bytes => bytes
  | i64 n => ofInt 8 n
  | oid n => ofInt 4 n ++ ofInt 4 0

/-- `db_triplet`. None is a type that nobody has set. -/
structure Triplet where
  data : Data
  type : Option DybaseType
  len : ℤ

/-- `JS_FLOAT64_NAN`. -/
def jsFloat64Nan : UInt64 := 0x7ff8000000000000

/-- `JS_ToFloat64` of a double. -/
def jsToFloat64 (d : UInt64) : UInt64 := if Double.isnan d then jsFloat64Nan else d

/-- `SEC_TO_UNIX_EPOCH` in units of 100 ns, as it is added. -/
def epochTicks : ℤ := 116444736000000

/-- The number stored for a date. A conversion to `int64_t` that does not fit gives the least number. -/
def dateTicks (ms : Number) : ℤ := wrap ((JsDate.toInt64 (ms * 10000)).getD (-2 ^ 63) + epochTicks)

/-- A text as bytes. -/
def bytesOf (text : List Char) : List UInt8 := text.map fun c => .ofNat c.toNat

/-- `db_transform`, and whether it leaves an exception. `JS_GetArrayBuffer` throws for what is no array buffer, and for
one that is detached; the checks that follow it find no type for the latter. -/
def dbTransform (val : Value) (answer : Option ℕ) : Triplet × Bool :=
  match val with
  | .int n => (⟨.i n.toInt, some .int, 0⟩, false)
  | .bigInt n => (⟨.i64 (wrap n), some .long, 0⟩, false)
  | .bool b => (⟨.i (if b then 1 else 0), some .bool, 0⟩, false)
  | .null | .undefined => (⟨.s [], some .chars, 0⟩, false)
  | .float64 d => (⟨.d (jsToFloat64 d), some .real, 0⟩, false)
  | .string s =>
    match jsToCStringLen2 s false answer with
    | some str => (⟨.s (bytesOf str), some .chars, JSString.int32 str.length⟩, false)
    | none => (⟨.s [], some .chars, 0⟩, true)
  | .entity .array oid => (⟨.oid oid.toNat, some .arrayRef, 0⟩, false)
  | .entity .index oid => (⟨.oid oid.toNat, some .indexRef, 0⟩, false)
  | .arrayBuffer (some bytes) => (⟨.s bytes, some .bytes, JSString.int32 bytes.length⟩, false)
  | .entity .object oid => (⟨.oid oid.toNat, some .objectRef, 0⟩, true)
  | .date ms => (⟨.i64 (dateTicks ms), some .date, 0⟩, true)
  | .arrayBuffer none => (⟨.i64 0, none, 0⟩, true)

/-- `db_store_field`: the element; none if the type is not set. -/
def dbStoreField (val : Value) (answer : Option ℕ) : Option (List UInt8) :=
  let dbVal := (dbTransform val answer).1
  dbVal.type.map fun type => setElement type dbVal.data.memory dbVal.len

/-! ## Fetching -/

/-- The conversion `(int32_t)d`; what does not fit is the least number. -/
def toInt32 (d : UInt64) : Int32 :=
  let e := Double.magnitude d / 2 ^ 52
  let n := (2 ^ 52 + Double.magnitude d % 2 ^ 52) / 2 ^ (1075 - e)
  if 1054 ≤ e then Int32.minValue else if d.toNat < 2 ^ 63 then .ofNat n else -.ofNat n

/-- `JS_NewFloat64`: a double that is an `int32_t` becomes one. -/
def jsNewFloat64 (d : UInt64) : Value :=
  let val := toInt32 d
  if d = Double.ofInt32 val then .int val else .float64 (if Double.isnan d then jsFloat64Nan else d)

def MAX_SAFE_INTEGER : ℤ := 2 ^ 53 - 1

/-- `JS_NewInt64` of a number that a double can be. -/
def jsNewInt64 (v : ℤ) : Value :=
  if v = (Int32.ofInt v).toInt then .int (.ofInt v)
  else .float64 (.ofNat ((if v < 0 then 2 ^ 63 else 0) + Double.ofNat v.natAbs))

/-- `JS_NewBigInt64`. -/
def jsNewBigInt64 (mathMode : Bool) (v : ℤ) : Value :=
  if mathMode = true ∧ -MAX_SAFE_INTEGER ≤ v ∧ v ≤ MAX_SAFE_INTEGER then jsNewInt64 v else .bigInt v

/-- The date of a number that is stored. -/
def dateOfTicks (wtime : ℤ) : Number := double wtime / 10000 - 11644473600

/-- `JS_NewArrayBufferCopy`. -/
def jsNewArrayBufferCopy (buf : List UInt8) (len : ℤ) : Option Value :=
  if 2 ^ 31 - 1 < len then none else some (.arrayBuffer (some buf))

/-- `db_fetch_value`; none is an exception. An object is found by its identifier. -/
def dbFetchValue (mathMode : Bool) (e : Element) (answer : ℕ → Option ℕ) : Option Value :=
  match DybaseType.ofCode e.type with
  | some .objectRef => some (.entity .object (.ofNat (toNat e.value)))
  | some .arrayRef => some (.entity .array (.ofNat (toNat e.value)))
  | some .indexRef => some (.entity .index (.ofNat (toNat e.value)))
  | some .bool => some (.bool (toInt e.value ≠ 0))
  | some .int => some (.int (.ofInt (toInt e.value)))
  | some .date => some (.date (dateOfTicks (toInt e.value)))
  | some .long => some (jsNewBigInt64 mathMode (toInt e.value))
  | some .real => some (jsNewFloat64 (.ofNat (toNat e.value)))
  | some .chars => if e.length = 0 then some .null else (jsNewStringLen (Atom.utf8 e.value) answer).map .string
  | some .bytes => if e.length = 0 then some .null else jsNewArrayBufferCopy e.value e.length
  | some .map | some .array | none => none

/-! ## Arrays -/

/-- The elements of an array are stored one after the other. -/
def storeElements (answer : ℕ → Option ℕ) : List Value → Option (List UInt8)
  | [] => some []
  | val :: vals => do
    let bytes ← dbStoreField val (answer 0)
    return bytes ++ (← storeElements (fun i => answer (i + 1)) vals)

/-- `db_store_array_data`. -/
def dbStoreArrayData (vals : List Value) (answer : ℕ → Option ℕ) : Option (List UInt8) :=
  (storeElements answer vals).map (setElement .array [] vals.length ++ ·)

/-- The loop of `db_fetch_array_data`. An exception becomes an element like a value. -/
def fetchElements (mathMode : Bool) : ℕ → (ℕ → ℕ → Option ℕ) → List UInt8 → Option (List (Option Value))
  | 0, _, _ => some []
  | n + 1, answer, buf => do
    let (e, buf) ← hasNext buf
    let vals ← fetchElements mathMode n (fun i => answer (i + 1)) buf
    return dbFetchValue mathMode e (answer 0) :: vals

/-- `db_fetch_array_data`. -/
def dbFetchArrayData (mathMode : Bool) (answer : ℕ → ℕ → Option ℕ) (buf : List UInt8) :
    Option (List (Option Value)) := do
  let (e, buf) ← hasNext buf
  if e.type = DybaseType.array.code then fetchElements mathMode e.length.toNat answer buf else none

/-! ## Keys -/

/-- The loop of `JS_AtomGetStrRT`, where `n` bytes are written. Surrogates are written one by one. -/
def atomChars (bufSize : ℕ) : ℕ → List ℕ → List Char
  | _, [] => []
  | n, c :: str =>
    if bufSize - 6 ≤ n then [] else Utf8.unicodeToUtf8 c ++ atomChars bufSize (n + (Utf8.unicodeToUtf8 c).length) str

/-- `JS_AtomGetStrRT`: the bytes before the 0 at the end. An ASCII string is not copied. -/
def jsAtomGetStr (s : Atom.JSRuntime) (bufSize : ℕ) (atom : ℕ) : List Char :=
  if Atom.jsAtomTagInt ≤ atom then ((Atom.decimal (atom - Atom.jsAtomTagInt)).map Utf8.byte).take (bufSize - 1)
  else if atom = 0 then "<null>".toList
  else match s.atom atom with
    | none => []
    | some str =>
      if str.isWideChar = false ∧ str.chars.foldl (· ||| ·) 0 < 0x80 then str.chars.map Utf8.byte
      else atomChars bufSize 0 str.chars

/-- `db_store_atom`; `strlen` ends at a character 0. -/
def dbStoreAtom (s : Atom.JSRuntime) (atom : ℕ) : List UInt8 :=
  let str := (jsAtomGetStr s (1024 - 2) atom).takeWhile fun c => c.toNat ≠ 0
  setElement .chars (bytesOf str) (JSString.int32 str.length)

/-- `db_fetch_atom`; an empty key is `JS_ATOM_NULL`. -/
def dbFetchAtom (predefined emptyString : ℕ) (s : Atom.JSRuntime) (e : Element) (alloc : Atom.AllocLen) :
    Atom.JSRuntime × ℕ :=
  if e.type ≠ DybaseType.chars.code then (s, 0)
  else if e.length = 0 then (s, 0)
  else Atom.jsNewAtomLen predefined emptyString s e.value alloc

end QuickJs.StoredValue
