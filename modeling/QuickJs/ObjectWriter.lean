import QuickJs.JSString
import QuickJs.Leb128

/-!
# Writing an object

`JS_WriteObject2` turns a value and everything that it refers to into bytes. An object that is being written
carries a mark, or stands in a list if references are allowed. What the writer takes from the runtime is a
parameter: the objects, the code of the program that a property may run, the memory and the stack. The length of
a `DynBuf` and of the table of atoms is not limited by the memory.
-/

namespace QuickJs.ObjectWriter

open JSString (Chars)
open Leb128 (dbufPutLeb128 dbufPutSleb128)

/-- The address of an object. -/
abbrev Obj := ℕ

/-- `JSClassID`, as far as the writer tells the classes apart; `typedArray` counts from `JS_CLASS_UINT8C_ARRAY`. -/
inductive ClassId
  | object | array | number | string | boolean | date | arrayBuffer | sharedArrayBuffer | bigInt | bigFloat
  | bigDecimal
  | typedArray (kind : UInt8)
  | other (classId : ℕ)
  deriving DecidableEq

inductive BigTag
  | bigInt | bigFloat | bigDecimal
  deriving DecidableEq

/-- A number of any size: its exponent as it is written, with the sign, and the bytes of its mantissa. -/
structure BigNum where
  tag : BigTag
  e : ℤ
  mantissa : List UInt8

/-- A value, by its tag. -/
inductive Value
  | null
  | undefined
  | bool (b : Bool)
  | int (i : Int32)
  | float64 (bits : UInt64)
  | string (s : Chars)
  | functionBytecode (b : ℕ)
  | module (m : ℕ)
  | object (p : Obj)
  | bigNum (n : BigNum)
  /-- a symbol, or a value that is never seen by a program -/
  | other (tag : ℤ)

/-- `JS_VALUE_GET_NORM_TAG`. -/
def Value.tag : Value → ℤ
  | null => 2
  | undefined => 3
  | bool _ => 1
  | int _ => 0
  | float64 _ => 7
  | string _ => -7
  | functionBytecode _ => -2
  | module _ => -3
  | object _ => -1
  | bigNum n => match n.tag with
    | .bigInt => -10
    | .bigFloat => -9
    | .bigDecimal => -11
  | other tag => tag

/-- `JSShapeProperty`: the property is of interest if its atom is a string. `isTmask` is `JS_PROP_TMASK`. -/
structure ShapeProperty where
  atom : ℕ
  isString : Bool
  enumerable : Bool
  isTmask : Bool

structure ArrayBuffer where
  detached : Bool
  data : List UInt8
  /-- the address of the bytes -/
  address : UInt64

structure TypedArray where
  count : UInt32
  offset : UInt32
  buffer : Obj

/-- What is put for one field of a record. -/
inductive Field
  | u8 (v : UInt8)
  | u16 (v : UInt16)
  | leb128 (v : UInt32)
  | atom (a : ℕ)
  | bytes (b : List UInt8)

/-- A piece of a bytecode. -/
inductive CodePiece
  | opcode (op : UInt8)
  | operand (bytes : List UInt8)
  | atom (a : ℕ)

/-- `JSFunctionBytecode`: the fields before the bytecode, the bytecode, the fields after it and the constants. -/
structure FunctionBytecode where
  fields : List Field
  byteCode : List CodePiece
  debug : List Field
  cpool : List Value

/-- `JSModuleDef`. -/
structure ModuleDef where
  fields : List Field
  funcObj : Value

/-- What a writer has thrown. -/
inductive Failure
  | typeError (message : String)
  | internalError (message : String)
  | outOfMemory
  /-- thrown by the program, in the code that a property runs -/
  | exception
  deriving DecidableEq

/-- The runtime. What the code of a property does, it does to `ω`: only the writer itself sets marks. -/
structure Runtime (ω : Type) where
  jsAtomEnd : ℕ
  atomString : ℕ → Chars
  checkStackOverflow : ω → Bool × ω
  allocFails : ω → Bool × ω
  classId : ω → Obj → ClassId
  extensible : ω → Obj → Bool
  getLength32 : ω → Obj → Option UInt32 × ω
  getPropertyUint32 : ω → Obj → ℕ → Option Value × ω
  /-- the property `raw` -/
  getRaw : ω → Obj → Option Value × ω
  shapeProps : ω → Obj → List ShapeProperty
  propValue : ω → Obj → ℕ → Value
  objectData : ω → Obj → Value
  arrayBuffer : ω → Obj → ArrayBuffer
  typedArray : ω → Obj → TypedArray
  functionBytecode : ω → ℕ → FunctionBytecode
  moduleDef : ω → ℕ → ModuleDef

/-- The flags of `JS_WriteObject`. -/
structure Flags where
  byteSwap : Bool
  allowBytecode : Bool
  allowSab : Bool
  allowReference : Bool

/-- `BCWriterState`, with the marks of the objects and the rest of the runtime. -/
structure BCWriterState (ω : Type) where
  world : ω
  tmpMark : Obj → Bool
  dbuf : List UInt8
  idxToAtom : List ℕ
  sabTab : List UInt64
  objectList : List Obj

/-- A part of the writer. What it has done before it fails is not undone. -/
abbrev Write (ω : Type) (α : Type) := EStateM Failure (BCWriterState ω) α

variable {ω : Type} (rt : Runtime ω) (flags : Flags)

/-- Ask the runtime. -/
def ask {α : Type} (f : ω → α × ω) : Write ω α :=
  modifyGet fun s => ((f s.world).1, { s with world := (f s.world).2 })

def bcPut (bytes : List UInt8) : Write ω Unit := modify fun s => { s with dbuf := s.dbuf ++ bytes }

def bcPutU8 (v : UInt8) : Write ω Unit := bcPut [v]

/-- The bytes of a number, which `byte_swap` turns around. -/
def bcPutBytes (littleEndian : List UInt8) : Write ω Unit :=
  bcPut <| if flags.byteSwap then littleEndian.reverse else littleEndian

def bcPutU16 (v : UInt16) : Write ω Unit := bcPutBytes flags [v.toUInt8, (v >>> 8).toUInt8]

def bcPutU64 (v : UInt64) : Write ω Unit :=
  bcPutBytes flags <| (List.range 8).map fun i => (v >>> (8 * UInt64.ofNat i)).toUInt8

def bcPutLeb128 (v : UInt32) : Write ω Unit := bcPut (dbufPutLeb128 v)

def bcPutSleb128 (v : Int32) : Write ω Unit := bcPut (dbufPutSleb128 v)

/-- `s->first_atom`. -/
def firstAtom : ℕ := if flags.allowBytecode then rt.jsAtomEnd else 1

/-- `__JS_AtomIsTaggedInt`. -/
def atomIsTaggedInt (a : ℕ) : Bool := decide (2 ^ 31 ≤ a)

/-- `bc_atom_to_idx`. -/
def bcAtomToIdx (a : ℕ) : Write ω ℕ :=
  if a < firstAtom rt flags || atomIsTaggedInt a then pure a
  else modifyGet fun s =>
    if a ∈ s.idxToAtom then (s.idxToAtom.idxOf a + firstAtom rt flags, s)
    else (s.idxToAtom.length + firstAtom rt flags, { s with idxToAtom := s.idxToAtom ++ [a] })

def bcPutAtom (a : ℕ) : Write ω Unit :=
  if atomIsTaggedInt a then bcPutLeb128 (UInt32.ofNat ((a - 2 ^ 31) * 2 + 1))
  else do
    let v ← bcAtomToIdx rt flags a
    bcPutLeb128 (UInt32.ofNat (v * 2))

def jsWriteString (s : Chars) : Write ω Unit := do
  bcPutLeb128 (UInt32.ofNat (s.len * 2 + if s.isWideChar then 1 else 0))
  match s with
  | .str8 units => bcPut units
  | .str16 units => forM units (bcPutU16 flags)

def Field.put : Field → Write ω Unit
  | u8 v => bcPutU8 v
  | u16 v => bcPutU16 flags v
  | leb128 v => bcPutLeb128 v
  | atom a => bcPutAtom rt flags a
  | bytes b => bcPut b

def CodePiece.put : CodePiece → Write ω Unit
  | opcode op => bcPutU8 op
  | operand bytes => bcPutBytes flags bytes
  | atom a => do
    let v ← bcAtomToIdx rt flags a
    bcPutBytes flags ((List.range 4).map fun i => (UInt32.ofNat v >>> (8 * UInt32.ofNat i)).toUInt8)

/-- A call that fails if there is no memory for it. -/
def alloc : Write ω Unit := do
  if (← ask rt.allocFails) then throw .outOfMemory

/-- A property that is read: the program may throw. -/
def read (f : ω → Option Value × ω) : Write ω Value := do
  match ← ask f with
  | none => throw .exception
  | some val => pure val

/-- `BCTagEnum`. -/
inductive BCTag
  | null | undefined | boolFalse | boolTrue | int32 | float64 | string | object | array | bigInt | bigFloat
  | bigDecimal | templateObject | functionBytecode | module | typedArray | arrayBuffer | sharedArrayBuffer | date
  | objectValue | objectReference
  deriving DecidableEq

def BCTag.code (tag : BCTag) : UInt8 := UInt8.ofNat (tag.ctorIdx + 1)

def bcPutTag (tag : BCTag) : Write ω Unit := bcPutU8 tag.code

/-- `JS_WriteBigNum`. -/
def jsWriteBigNum (n : BigNum) : Write ω Unit := do
  bcPutTag <| match n.tag with
    | .bigInt => .bigInt
    | .bigFloat => .bigFloat
    | .bigDecimal => .bigDecimal
  if n.e < -2 ^ 31 ∨ 2 ^ 31 - 1 < n.e then throw (.internalError "bignum exponent is too large")
  else
    bcPutSleb128 (Int32.ofInt n.e)
    if n.mantissa = [] then pure ()
    else if 2 ^ 31 - 1 < n.mantissa.length then throw (.internalError "bignum is too large")
    else
      bcPutLeb128 (UInt32.ofNat n.mantissa.length)
      bcPut n.mantissa

section Parts

/-! ## The parts of the writer, with the writer that they call for the values in them -/

variable (jsWriteObjectRec : Value → Write ω Unit)

def jsWriteFunctionTag (b : ℕ) : Write ω Unit := do
  let f := rt.functionBytecode (← get).world b
  bcPutTag .functionBytecode
  forM f.fields (Field.put rt flags)
  alloc rt
  forM f.byteCode (CodePiece.put rt flags)
  forM f.debug (Field.put rt flags)
  forM f.cpool jsWriteObjectRec

def jsWriteModule (m : ℕ) : Write ω Unit := do
  let def' := rt.moduleDef (← get).world m
  bcPutTag .module
  forM def'.fields (Field.put rt flags)
  jsWriteObjectRec def'.funcObj

/-- An array that cannot be extended is taken for the object of a template when bytecode is written. -/
def isTemplate (w : ω) (p : Obj) : Bool := flags.allowBytecode && !rt.extensible w p

def jsWriteArray (p : Obj) : Write ω Unit := do
  let template := isTemplate rt flags (← get).world p
  bcPutTag (if template then .templateObject else .array)
  match ← ask (rt.getLength32 · p) with
  | none => throw .exception
  | some len =>
    bcPutLeb128 len
    forM (List.range len.toNat) fun i => do
      jsWriteObjectRec (← read (rt.getPropertyUint32 · p i))
    if template then
      jsWriteObjectRec (← read (rt.getRaw · p))

/-- The properties that are written. -/
def ShapeProperty.isWritten (pr : ShapeProperty) : Bool := pr.isString && pr.enumerable

/-- The first pass. -/
def countProps : ℕ → List ShapeProperty → Write ω ℕ
  | n, [] => pure n
  | n, pr :: prs =>
    if pr.isWritten then
      if pr.isTmask then throw (.typeError "only value properties are supported")
      else countProps (n + 1) prs
    else countProps n prs

/-- The second pass, from the `i`-th property on. -/
def writeProps (p : Obj) : ℕ → List ShapeProperty → Write ω Unit
  | _, [] => pure ()
  | i, pr :: prs =>
    if pr.isWritten then
      if pr.isTmask then throw (.typeError "only value properties are supported")
      else do
        bcPutAtom rt flags pr.atom
        jsWriteObjectRec (rt.propValue (← get).world p i)
        writeProps p (i + 1) prs
    else writeProps p (i + 1) prs

def jsWriteObjectTag (p : Obj) : Write ω Unit := do
  let sh := rt.shapeProps (← get).world p
  bcPutTag .object
  let propCount ← countProps 0 sh
  bcPutLeb128 (UInt32.ofNat propCount)
  writeProps rt flags jsWriteObjectRec p 0 sh

def jsWriteTypedArray (kind : UInt8) (p : Obj) : Write ω Unit := do
  let ta := rt.typedArray (← get).world p
  bcPutTag .typedArray
  bcPutU8 kind
  bcPutLeb128 ta.count
  bcPutLeb128 ta.offset
  jsWriteObjectRec (.object ta.buffer)

def jsWriteArrayBuffer (p : Obj) : Write ω Unit := do
  let abuf := rt.arrayBuffer (← get).world p
  if abuf.detached then throw (.typeError "ArrayBuffer is detached")
  else do
    bcPutTag .arrayBuffer
    bcPutLeb128 (UInt32.ofNat abuf.data.length)
    bcPut abuf.data

def jsWriteSharedArrayBuffer (p : Obj) : Write ω Unit := do
  let abuf := rt.arrayBuffer (← get).world p
  bcPutTag .sharedArrayBuffer
  bcPutLeb128 (UInt32.ofNat abuf.data.length)
  bcPutU64 flags abuf.address
  alloc rt
  modify fun s => { s with sabTab := s.sabTab ++ [abuf.address] }

/-- The value inside of a date, and of a number, string or boolean that is an object. -/
def jsWriteObjectData (tag : BCTag) (p : Obj) : Write ω Unit := do
  let val := rt.objectData (← get).world p
  bcPutTag tag
  jsWriteObjectRec val

def invalidTag (v : Value) : Failure := .internalError ("unsupported tag (" ++ toString v.tag ++ ")")

def setMark (p : Obj) (b : Bool) : Write ω Unit :=
  modify fun s => { s with tmpMark := Function.update s.tmpMark p b }

/-- `x`, and the mark of `p` is cleared whether it has failed or not. -/
def clearingMark (p : Obj) (x : Write ω Unit) : Write ω Unit := fun s =>
  match x s with
  | .ok () s => .ok () { s with tmpMark := Function.update s.tmpMark p false }
  | .error e s => .error e { s with tmpMark := Function.update s.tmpMark p false }

/-- The object has been entered: what its class asks for. A shared buffer that is not allowed is left by `goto`,
with its mark. -/
def writeClass (p : Obj) : Write ω Unit := do
  match rt.classId (← get).world p with
  | .array => clearingMark p (jsWriteArray rt flags jsWriteObjectRec p)
  | .object => clearingMark p (jsWriteObjectTag rt flags jsWriteObjectRec p)
  | .arrayBuffer => clearingMark p (jsWriteArrayBuffer rt p)
  | .sharedArrayBuffer =>
    if !flags.allowSab then throw (invalidTag (.object p))
    else clearingMark p (jsWriteSharedArrayBuffer rt flags p)
  | .date => clearingMark p (jsWriteObjectData rt jsWriteObjectRec .date p)
  | .number | .string | .boolean | .bigInt | .bigFloat | .bigDecimal =>
    clearingMark p (jsWriteObjectData rt jsWriteObjectRec .objectValue p)
  | .typedArray kind => clearingMark p (jsWriteTypedArray rt jsWriteObjectRec kind p)
  | .other _ => clearingMark p (throw (.typeError "unsupported object class"))

/-- An object, which is entered unless it has been seen. -/
def writeObject (p : Obj) : Write ω Unit := do
  if flags.allowReference then
    if p ∈ (← get).objectList then
      bcPutTag .objectReference
      bcPutLeb128 (UInt32.ofNat ((← get).objectList.idxOf p))
    else
      alloc rt
      modify fun s => { s with objectList := s.objectList ++ [p] }
      writeClass rt flags jsWriteObjectRec p
  else
    if (← get).tmpMark p then throw (.typeError "circular reference")
    else
      setMark p true
      writeClass rt flags jsWriteObjectRec p

/-- The value, when there is room on the stack. -/
def writeValue (v : Value) : Write ω Unit :=
  match v with
  | .null => bcPutTag .null
  | .undefined => bcPutTag .undefined
  | .bool b => bcPutTag (if b then .boolTrue else .boolFalse)
  | .int i => do
    bcPutTag .int32
    bcPutSleb128 i
  | .float64 bits => do
    bcPutTag .float64
    bcPutU64 flags bits
  | .string s => do
    bcPutTag .string
    jsWriteString flags s
  | .functionBytecode b =>
    if !flags.allowBytecode then throw (invalidTag v) else jsWriteFunctionTag rt flags jsWriteObjectRec b
  | .module m =>
    if !flags.allowBytecode then throw (invalidTag v) else jsWriteModule rt flags jsWriteObjectRec m
  | .object p => writeObject rt flags jsWriteObjectRec p
  | .bigNum n => jsWriteBigNum n
  | .other _ => throw (invalidTag v)

end Parts

/-- `JS_WriteObjectRec`, on a stack with room for so many calls at most. -/
def jsWriteObjectRec : ℕ → Value → Write ω Unit
  | 0, _ => throw (.internalError "stack overflow")
  | depth + 1, v => do
    if (← ask rt.checkStackOverflow) then throw (.internalError "stack overflow")
    else writeValue rt flags (jsWriteObjectRec depth) v

/-- `BC_VERSION`, turned around for a reader of the other byte order. -/
def version : UInt8 := if flags.byteSwap then 2 ^^^ 0x40 else 2

/-- `JS_WriteObjectAtoms`: the atoms come before what has been written. -/
def jsWriteObjectAtoms : Write ω Unit := do
  let dbuf1 := (← get).dbuf
  modify fun s => { s with dbuf := [] }
  bcPutU8 (version flags)
  bcPutLeb128 (UInt32.ofNat (← get).idxToAtom.length)
  forM (← get).idxToAtom fun a => jsWriteString flags (rt.atomString a)
  alloc rt
  bcPut dbuf1

/-- What `JS_WriteObject2` leaves behind: the bytes and the shared buffers, or an error; and the runtime. -/
structure Written (ω : Type) where
  result : Except Failure (List UInt8 × List UInt64)
  world : ω
  tmpMark : Obj → Bool

/-- `JS_WriteObject2`. -/
def jsWriteObject2 (depth : ℕ) (obj : Value) (w : ω) (tmpMark : Obj → Bool) : Written ω :=
  let write : Write ω Unit := do
    jsWriteObjectRec rt flags depth obj
    jsWriteObjectAtoms rt flags
  match write ⟨w, tmpMark, [], [], [], []⟩ with
  | .ok () s => ⟨.ok (s.dbuf, s.sabTab), s.world, s.tmpMark⟩
  | .error e s => ⟨.error e, s.world, s.tmpMark⟩

end QuickJs.ObjectWriter
