import QuickJs.HashChain
import Mathlib.Data.Nat.Bitwise

/-!
# Shapes

The shape of an object lists its properties and finds them through a hash table of its own;
the values are in an array of the object, in the same order. Objects that have got the same
properties in the same order share a hashed shape, which is cloned before one of them goes
its own way.

A shape is known by its address. Every allocation takes its answer from a list: the address
of the new block, or nothing when the memory is exhausted. Atoms and values are not counted.
-/

namespace QuickJs.Shape

open HashChain

abbrev JSAtom : Type := ℕ
abbrev Ptr : Type := ℕ

/-- `JS_ATOM_NULL`, the atom of a deleted property. -/
def jsAtomNull : JSAtom := 0

/-- `__JS_AtomIsTaggedInt`. -/
def jsAtomIsTaggedInt (atom : JSAtom) : Bool := 2 ^ 31 ≤ atom

/-- `__JS_AtomFromUInt32`. -/
def jsAtomFromUInt32 (n : ℕ) : JSAtom := n + 2 ^ 31

/-- The content of a property; the contents are numbered, and `undefined` is 0. -/
abbrev JSValue : Type := ℕ

def jsUndefined : JSValue := 0

/-- `JS_PROP_CONFIGURABLE`. -/
def configurable (flags : BitVec 6) : Bool := flags.getLsbD 0

/-- `JS_PROP_C_W_E`. -/
def jsPropCWE : BitVec 6 := 7

/-- `JSShapeProperty`. -/
structure JSShapeProperty where
  hashNext : BitVec 26
  flags : BitVec 6
  atom : JSAtom
  deriving DecidableEq

/-- `JSShape`. The table has `prop_hash_mask + 1` entries and `prop` has `prop_count`. -/
structure JSShape where
  refCount : ℕ
  isHashed : Bool
  hasSmallArrayIndex : Bool
  hash : ℕ
  propHash : List ℕ
  propSize : ℕ
  prop : List JSShapeProperty
  deletedPropCount : ℕ
  proto : Option Ptr
  deriving DecidableEq

namespace JSShape

/-! ## The hash table of a shape -/

/-- The bucket of an atom. -/
def bucket (sh : JSShape) (atom : JSAtom) : ℕ := atom &&& (sh.propHash.length - 1)

/-- The first entry of a bucket. Entries are numbered from 1. -/
def head (sh : JSShape) (b : ℕ) : ℕ := sh.propHash[b]?.getD 0

/-- Entry `i`. -/
def entry (sh : JSShape) : ℕ → Option JSShapeProperty
  | 0 => none
  | i + 1 => sh.prop[i]?

/-- The entry after entry `i` in its chain. -/
def next (sh : JSShape) (i : ℕ) : ℕ := (sh.entry i).elim 0 fun pr => pr.hashNext.toNat

/-- Does entry `i` belong to `atom`? -/
def isAt (sh : JSShape) (atom : JSAtom) (i : ℕ) : Bool := (sh.entry i).any (·.atom = atom)

/-- `find_own_property`: the number of the entry, or 0. -/
def findOwnProperty (sh : JSShape) (atom : JSAtom) : ℕ :=
  findFrom sh.next (sh.isAt atom) sh.prop.length (sh.head (sh.bucket atom))

/-- Enter `pr` as the last property, and in the hash table unless it is deleted. -/
def link (sh : JSShape) (pr : JSShapeProperty) : JSShape :=
  if pr.atom = jsAtomNull then { sh with prop := sh.prop ++ [pr] }
  else { sh with
    prop := sh.prop ++ [{ pr with hashNext := .ofNat 26 (sh.head (sh.bucket pr.atom)) }]
    propHash := sh.propHash.set (sh.bucket pr.atom) (sh.prop.length + 1) }

/-- A new hash table of `hashSize` entries for the properties `prop`. -/
def rebuild (sh : JSShape) (hashSize : ℕ) (prop : List JSShapeProperty) : JSShape :=
  prop.foldl link { sh with propHash := .replicate hashSize 0, prop := [] }

/-- The end of `add_shape_property`. -/
def add (sh : JSShape) (atom : JSAtom) (flags : BitVec 6) : JSShape :=
  { sh.link ⟨0, flags, atom⟩ with
    hasSmallArrayIndex := sh.hasSmallArrayIndex || jsAtomIsTaggedInt atom }

/-- The loop of `delete_property`: the entry of `atom` and the one before it in the chain,
0 for the first. -/
def findPrev (sh : JSShape) (atom : JSAtom) : ℕ → ℕ → ℕ → Option (ℕ × ℕ)
  | 0, _, _ => none
  | fuel + 1, lpr, h =>
    if h = 0 then none
    else if sh.isAt atom h then some (lpr, h)
    else findPrev sh atom fuel h (sh.next h)

/-- Take entry `h` out of its chain. -/
def unlinkEntry (sh : JSShape) (lpr h : ℕ) (atom : JSAtom) : JSShape :=
  if lpr = 0 then { sh with propHash := sh.propHash.set (sh.bucket atom) (sh.next h) }
  else { sh with prop := sh.prop.modify (lpr - 1) fun pr =>
    { pr with hashNext := .ofNat 26 (sh.next h) } }

/-- Give entry `h` up. -/
def remove (sh : JSShape) (lpr h : ℕ) (atom : JSAtom) : JSShape :=
  let sh := sh.unlinkEntry lpr h atom
  { sh with
    prop := sh.prop.modify (h - 1) fun pr => { pr with flags := 0, atom := jsAtomNull }
    deletedPropCount := sh.deletedPropCount + 1 }

/-- Entry `h` gets other flags. -/
def withFlags (sh : JSShape) (h : ℕ) (flags : BitVec 6) : JSShape :=
  { sh with prop := sh.prop.modify (h - 1) fun pr => { pr with flags := flags } }

/-- The loops that double the size of the hash table. The first argument bounds their
number. -/
def growHashSize : ℕ → ℕ → ℕ → ℕ
  | 0, hashSize, _ => hashSize
  | fuel + 1, hashSize, size =>
    if hashSize < size then growHashSize fuel (2 * hashSize) size else hashSize

/-- The loop that halves it. -/
def shrinkHashSize : ℕ → ℕ → ℕ → ℕ
  | 0, hashSize, _ => hashSize
  | fuel + 1, hashSize, size =>
    if size ≤ hashSize / 2 then shrinkHashSize fuel (hashSize / 2) size else hashSize

/-- What `resize_properties` makes of a shape. -/
def resize (sh : JSShape) (newSize : ℕ) : JSShape :=
  let newHashSize := growHashSize newSize sh.propHash.length newSize
  if newHashSize ≠ sh.propHash.length then
    { sh.rebuild newHashSize sh.prop with propSize := newSize }
  else { sh with propSize := newSize }

/-- The size `resize_properties` chooses to hold `count` properties. -/
def newSize (sh : JSShape) (count : ℕ) : ℕ := max count (sh.propSize * 3 / 2)

/-- The size `compact_properties` chooses; `JS_PROP_INITIAL_SIZE` is 2. -/
def compactSize (sh : JSShape) : ℕ := max 2 (sh.prop.length - sh.deletedPropCount)

/-- Is the entry in use? -/
def isLive (pr : JSShapeProperty) : Bool := pr.atom ≠ jsAtomNull

/-- What `compact_properties` makes of a shape. -/
def compact (sh : JSShape) : JSShape :=
  { sh.rebuild (shrinkHashSize sh.propHash.length sh.propHash.length sh.compactSize)
      (sh.prop.filter isLive) with
    propSize := sh.compactSize
    deletedPropCount := 0 }

/-- The test of `delete_property` for too many deleted properties. -/
def shouldCompact (sh : JSShape) : Bool :=
  8 ≤ sh.deletedPropCount && sh.prop.length / 2 ≤ sh.deletedPropCount

end JSShape

/-! ## Objects and the hash table of shapes -/

/-- The part of `JSObject` that holds its properties. `prop` are the values in use, and
`propAlloc` is the size of the array. -/
structure JSObject where
  shape : Ptr
  prop : List JSValue
  propAlloc : ℕ
  /-- the elements of a fast array -/
  fastArray : Option (List JSValue)
  deriving DecidableEq

/-- The part of `JSRuntime` and `JSContext` that concerns shapes. Chains of the table of
shapes are lists. -/
structure JSRuntime where
  shape : Ptr → Option JSShape
  objects : List (Option JSObject)
  shapeHashBits : ℕ
  shapeHash : List (List Ptr)
  shapeHashCount : ℕ
  arrayShape : Option Ptr

/-- The answers to the allocations to come. -/
abbrev Alloc : Type := List (Option Ptr)

namespace JSRuntime

def setShape (s : JSRuntime) (q : Ptr) (sh : Option JSShape) : JSRuntime :=
  { s with shape := Function.update s.shape q sh }

def setObject (s : JSRuntime) (p : Ptr) (o : JSObject) : JSRuntime :=
  { s with objects := s.objects.set p (some o) }

def object (s : JSRuntime) (p : Ptr) : Option JSObject := s.objects[p]?.join

/-- `js_malloc` of a shape: an address that is free. -/
def malloc (s : JSRuntime) : Alloc → Option Ptr × Alloc
  | some a :: mem => (if s.shape a = none then some a else none, mem)
  | _ :: mem => (none, mem)
  | [] => (none, [])

/-- `js_realloc` of the shape at `q`: it may stay where it is. -/
def realloc (s : JSRuntime) (q : Ptr) : Alloc → Option Ptr × Alloc
  | some a :: mem => (if a = q ∨ s.shape a = none then some a else none, mem)
  | _ :: mem => (none, mem)
  | [] => (none, [])

/-- An allocation that is no shape. -/
def mallocOther : Alloc → Bool × Alloc
  | a :: mem => (a.isSome, mem)
  | [] => (false, [])

end JSRuntime

/-- `shape_hash`. -/
def shapeHash (h val : ℕ) : ℕ := (h + val) * 0x9e370001 % 2 ^ 32

/-- `get_shape_hash`. -/
def getShapeHash (h hashBits : ℕ) : ℕ := h / 2 ^ (32 - hashBits)

/-- `shape_initial_hash` on a 64 bit machine; no object is at the address 0. -/
def shapeInitialHash (proto : Option Ptr) : ℕ :=
  let p := (proto.map (· + 1)).getD 0
  shapeHash (shapeHash 1 (p % 2 ^ 32)) (p / 2 ^ 32)

/-- `js_shape_hash_link`. -/
def jsShapeHashLink (s : JSRuntime) (q : Ptr) (hash : ℕ) : JSRuntime :=
  { s with
    shapeHash := s.shapeHash.modify (getShapeHash hash s.shapeHashBits) (q :: ·)
    shapeHashCount := s.shapeHashCount + 1 }

/-- `js_shape_hash_unlink`. -/
def jsShapeHashUnlink (s : JSRuntime) (q : Ptr) (hash : ℕ) : JSRuntime :=
  { s with
    shapeHash := s.shapeHash.modify (getShapeHash hash s.shapeHashBits) (·.erase q)
    shapeHashCount := s.shapeHashCount - 1 }

/-- `resize_shape_hash`. -/
def resizeShapeHash (s : JSRuntime) (bits : ℕ) : JSRuntime :=
  { s with
    shapeHashBits := bits
    shapeHash := s.shapeHash.flatten.foldl (fun table q =>
      table.modify (getShapeHash ((s.shape q).elim 0 JSShape.hash) bits) (q :: ·))
      (.replicate (2 ^ bits) []) }

/-! ## Shapes and their references -/

/-- `js_new_shape2`. -/
def jsNewShape2 (s : JSRuntime) (proto : Option Ptr) (hashSize propSize : ℕ) (mem : Alloc) :
    Option Ptr × JSRuntime × Alloc :=
  let (s, mem) :=
    if s.shapeHash.length < 2 * (s.shapeHashCount + 1) then
      match JSRuntime.mallocOther mem with
      | (true, mem) => (resizeShapeHash s (s.shapeHashBits + 1), mem)
      | (false, mem) => (s, mem)
    else (s, mem)
  match s.malloc mem with
  | (none, mem) => (none, s, mem)
  | (some q, mem) =>
    let hash := shapeInitialHash proto
    (some q, jsShapeHashLink (s.setShape q (some
      ⟨1, true, false, hash, .replicate hashSize 0, propSize, [], 0, proto⟩)) q hash, mem)

/-- `js_clone_shape`. -/
def jsCloneShape (s : JSRuntime) (sh : JSShape) (mem : Alloc) : Option Ptr × JSRuntime × Alloc :=
  match s.malloc mem with
  | (none, mem) => (none, s, mem)
  | (some q, mem) => (some q, s.setShape q (some { sh with refCount := 1, isHashed := false }), mem)

/-- `js_dup_shape`. -/
def jsDupShape (s : JSRuntime) (q : Ptr) : JSRuntime :=
  match s.shape q with
  | none => s
  | some sh => s.setShape q (some { sh with refCount := sh.refCount + 1 })

/-- `js_free_shape`. -/
def jsFreeShape (s : JSRuntime) (q : Ptr) : JSRuntime :=
  match s.shape q with
  | none => s
  | some sh =>
    if sh.refCount ≤ 1 then
      (if sh.isHashed then jsShapeHashUnlink s q sh.hash else s).setShape q none
    else s.setShape q (some { sh with refCount := sh.refCount - 1 })

/-- What the comparisons of shapes look at. -/
def JSShapeProperty.key (pr : JSShapeProperty) : JSAtom × BitVec 6 := (pr.atom, pr.flags)

/-- The first shape of the bucket of `hash` that satisfies `f`. -/
def findHashedShape (s : JSRuntime) (hash : ℕ) (f : JSShape → Bool) : Option Ptr :=
  (s.shapeHash[getShapeHash hash s.shapeHashBits]?.getD []).find? fun q =>
    (s.shape q).any fun sh => sh.hash = hash && f sh

/-- `find_hashed_shape_proto`. -/
def findHashedShapeProto (s : JSRuntime) (proto : Option Ptr) : Option Ptr :=
  findHashedShape s (shapeInitialHash proto) fun sh => sh.proto = proto && sh.prop.length = 0

/-- `find_hashed_shape_prop`. -/
def findHashedShapeProp (s : JSRuntime) (sh : JSShape) (atom : JSAtom) (flags : BitVec 6) :
    Option Ptr :=
  findHashedShape s (shapeHash (shapeHash sh.hash atom) flags.toNat) fun sh1 =>
    sh1.proto = sh.proto &&
      sh1.prop.map JSShapeProperty.key = sh.prop.map JSShapeProperty.key ++ [(atom, flags)]

/-! ## The operations on the properties of an object -/

/-- What an operation returns: -1, 0 or 1. -/
inductive Result
  | exception
  | false
  | true
  deriving DecidableEq, Repr

/-- An object and its shape. -/
def JSRuntime.objectShape (s : JSRuntime) (p : Ptr) : Option (JSObject × JSShape) :=
  (s.object p).bind fun o => (s.shape o.shape).map (o, ·)

/-- `js_shape_prepare_update`: the shape of `p` can be safely modified. -/
def jsShapePrepareUpdate (s : JSRuntime) (p : Ptr) (mem : Alloc) : Bool × JSRuntime × Alloc :=
  match s.objectShape p with
  | none => (false, s, mem)
  | some (o, sh) =>
    if sh.isHashed then
      if sh.refCount ≠ 1 then
        match jsCloneShape s sh mem with
        | (none, s, mem) => (false, s, mem)
        | (some q, s, mem) => (true, (jsFreeShape s o.shape).setObject p { o with shape := q }, mem)
      else
        (true, (jsShapeHashUnlink s o.shape sh.hash).setShape o.shape
          (some { sh with isHashed := false }), mem)
    else (true, s, mem)

/-- `resize_properties`. -/
def resizeProperties (s : JSRuntime) (p : Ptr) (count : ℕ) (mem : Alloc) :
    Bool × JSRuntime × Alloc :=
  match s.objectShape p with
  | none => (false, s, mem)
  | some (o, sh) =>
    let newSize := sh.newSize count
    match JSRuntime.mallocOther mem with
    | (false, mem) => (false, s, mem)
    | (true, mem) =>
      let o := { o with propAlloc := newSize }
      let s := s.setObject p o
      let newHashSize := JSShape.growHashSize newSize sh.propHash.length newSize
      match if newHashSize ≠ sh.propHash.length then s.malloc mem else s.realloc o.shape mem with
      | (none, mem) => (false, s, mem)
      | (some q, mem) =>
        (true, ((s.setShape o.shape none).setShape q (some (sh.resize newSize))).setObject p
          { o with shape := q }, mem)

/-- `compact_properties`. -/
def compactProperties (s : JSRuntime) (p : Ptr) (mem : Alloc) : JSRuntime × Alloc :=
  match s.objectShape p with
  | none => (s, mem)
  | some (o, sh) =>
    match s.malloc mem with
    | (none, mem) => (s, mem)
    | (some q, mem) =>
      let (shrunk, mem) := JSRuntime.mallocOther mem
      let values := ((sh.prop.zip o.prop).filter (JSShape.isLive ·.1)).map (·.2)
      (((s.setShape o.shape none).setShape q (some sh.compact)).setObject p
        { o with
          shape := q
          prop := values
          propAlloc := if shrunk then sh.compactSize else o.propAlloc }, mem)

/-- `add_shape_property`, and the value that the caller stores. -/
def addShapeProperty (s : JSRuntime) (p : Ptr) (atom : JSAtom) (flags : BitVec 6) (val : JSValue)
    (mem : Alloc) : Bool × JSRuntime × Alloc :=
  match s.objectShape p with
  | none => (false, s, mem)
  | some (o, sh) =>
    let hash := if sh.isHashed then shapeHash (shapeHash sh.hash atom) flags.toNat else sh.hash
    let s := if sh.isHashed then jsShapeHashUnlink s o.shape sh.hash else s
    let (ok, s, mem) :=
      if sh.propSize ≤ sh.prop.length then resizeProperties s p (sh.prop.length + 1) mem
      else (true, s, mem)
    if !ok then (false, if sh.isHashed then jsShapeHashLink s o.shape sh.hash else s, mem)
    else
      match s.objectShape p with
      | none => (false, s, mem)
      | some (o, sh) =>
        let s := if sh.isHashed then jsShapeHashLink s o.shape hash else s
        (true, (s.setShape o.shape (some { sh.add atom flags with hash := hash })).setObject p
          { o with prop := o.prop ++ [val] }, mem)

/-- `add_property`. -/
def addProperty (s : JSRuntime) (p : Ptr) (atom : JSAtom) (flags : BitVec 6) (val : JSValue)
    (mem : Alloc) : Bool × JSRuntime × Alloc :=
  match s.objectShape p with
  | none => (false, s, mem)
  | some (o, sh) =>
    if sh.isHashed then
      match findHashedShapeProp s sh atom flags with
      | some q =>
        let propSize := ((s.shape q).elim 0 JSShape.propSize)
        let (ok, mem) :=
          if propSize ≠ sh.propSize then JSRuntime.mallocOther mem else (true, mem)
        if !ok then (false, s, mem)
        else
          let propAlloc := if propSize ≠ sh.propSize then propSize else o.propAlloc
          (true, jsFreeShape (jsDupShape (s.setObject p ⟨q, o.prop ++ [val], propAlloc,
            o.fastArray⟩) q) o.shape, mem)
      | none =>
        if sh.refCount ≠ 1 then
          match jsCloneShape s sh mem with
          | (none, s, mem) => (false, s, mem)
          | (some q, s, mem) =>
            let s := jsShapeHashLink (s.setShape q (some { sh with refCount := 1 })) q sh.hash
            addShapeProperty ((jsFreeShape s o.shape).setObject p { o with shape := q }) p atom
              flags val mem
        else addShapeProperty s p atom flags val mem
    else addShapeProperty s p atom flags val mem

/-- `convert_fast_array_to_array`. -/
def convertFastArrayToArray (s : JSRuntime) (p : Ptr) (mem : Alloc) : Bool × JSRuntime × Alloc :=
  match jsShapePrepareUpdate s p mem with
  | (false, s, mem) => (false, s, mem)
  | (true, s, mem) =>
    match s.objectShape p with
    | none => (false, s, mem)
    | some (o, sh) =>
      let tab := o.fastArray.getD []
      let newCount := sh.prop.length + tab.length
      let (ok, s, mem) :=
        if sh.propSize < newCount then resizeProperties s p newCount mem else (true, s, mem)
      if !ok then (false, s, mem)
      else
        let s := tab.zipIdx.foldl (fun s e =>
          (addProperty s p (jsAtomFromUInt32 e.2) jsPropCWE e.1 []).2.1) s
        match s.object p with
        | none => (false, s, mem)
        | some o => (true, s.setObject p { o with fastArray := none }, mem)

/-- The part of `delete_property` for a property of the shape; nothing if there is none. -/
def deleteEntry (s : JSRuntime) (p : Ptr) (atom : JSAtom) (mem : Alloc) :
    Option (Result × JSRuntime × Alloc) :=
  match s.objectShape p with
  | none => none
  | some (_, sh) =>
    match sh.findPrev atom sh.prop.length 0 (sh.head (sh.bucket atom)) with
    | none => none
    | some (lpr, h) =>
      if !((sh.entry h).any fun pr => configurable pr.flags) then some (.false, s, mem)
      else
        match jsShapePrepareUpdate s p mem with
        | (false, s, mem) => some (.exception, s, mem)
        | (true, s, mem) =>
          match s.objectShape p with
          | none => none
          | some (o, sh) =>
            let sh := sh.remove lpr h atom
            let s := (s.setShape o.shape (some sh)).setObject p
              { o with prop := o.prop.set (h - 1) jsUndefined }
            if sh.shouldCompact then
              let (s, mem) := compactProperties s p mem
              some (.true, s, mem)
            else some (.true, s, mem)

/-- `delete_property` on an object without exotic methods. -/
def deleteProperty (s : JSRuntime) (p : Ptr) (atom : JSAtom) (mem : Alloc) :
    Result × JSRuntime × Alloc :=
  match deleteEntry s p atom mem with
  | some r => r
  | none =>
    match s.object p with
    | none => (.true, s, mem)
    | some o =>
      let tab := o.fastArray.getD []
      let idx := atom - 2 ^ 31
      if jsAtomIsTaggedInt atom && idx < tab.length then
        if idx = tab.length - 1 then
          (.true, s.setObject p { o with fastArray := some (tab.take idx) }, mem)
        else
          match convertFastArrayToArray s p mem with
          | (false, s, mem) => (.exception, s, mem)
          | (true, s, mem) => (deleteEntry s p atom mem).getD (.true, s, mem)
      else (.true, s, mem)

/-- The write of `JS_SetPropertyInternal` to a property that the object has. -/
def setProperty (s : JSRuntime) (p : Ptr) (atom : JSAtom) (val : JSValue) : Bool × JSRuntime :=
  match s.objectShape p with
  | none => (false, s)
  | some (o, sh) =>
    let h := sh.findOwnProperty atom
    if h = 0 then (false, s)
    else (true, s.setObject p { o with prop := o.prop.set (h - 1) val })

/-- The end of `add_fast_array_element`. -/
def addFastArrayElement (s : JSRuntime) (p : Ptr) (val : JSValue) (mem : Alloc) :
    Bool × JSRuntime × Alloc :=
  match s.object p with
  | none => (false, s, mem)
  | some o =>
    match o.fastArray with
    | none => (false, s, mem)
    | some tab =>
      -- the array may have to be enlarged
      match JSRuntime.mallocOther mem with
      | (false, mem) => (false, s, mem)
      | (true, mem) => (true, s.setObject p { o with fastArray := some (tab ++ [val]) }, mem)

/-- `js_update_property_flags` on the property `atom`, which `p` has. -/
def jsUpdatePropertyFlags (s : JSRuntime) (p : Ptr) (atom : JSAtom) (flags : BitVec 6)
    (mem : Alloc) : Bool × JSRuntime × Alloc :=
  match s.objectShape p with
  | none => (false, s, mem)
  | some (_, sh) =>
    let h := sh.findOwnProperty atom
    if (sh.entry h).any (·.flags = flags) then (true, s, mem)
    else
      match jsShapePrepareUpdate s p mem with
      | (false, s, mem) => (false, s, mem)
      | (true, s, mem) =>
        match s.objectShape p with
        | none => (false, s, mem)
        | some (o, sh) =>
          (true, s.setShape o.shape (some (sh.withFlags h flags)), mem)

/-- The end of `JS_SetPrototypeInternal`. -/
def jsSetPrototype (s : JSRuntime) (p : Ptr) (proto : Option Ptr) (mem : Alloc) :
    Bool × JSRuntime × Alloc :=
  match jsShapePrepareUpdate s p mem with
  | (false, s, mem) => (false, s, mem)
  | (true, s, mem) =>
    match s.objectShape p with
    | none => (false, s, mem)
    | some (o, sh) => (true, s.setShape o.shape (some { sh with proto := proto }), mem)

/-- `JS_NewObjectFromShape`, which takes over a reference to the shape. -/
def jsNewObjectFromShape (s : JSRuntime) (q : Ptr) (prop : List JSValue)
    (fastArray : Option (List JSValue)) (mem : Alloc) : Bool × JSRuntime × Alloc :=
  match JSRuntime.mallocOther mem with
  | (false, mem) => (false, jsFreeShape s q, mem)
  | (true, mem) =>
    match JSRuntime.mallocOther mem with
    | (false, mem) => (false, jsFreeShape s q, mem)
    | (true, mem) =>
      (true, { s with objects := s.objects ++ [some
        ⟨q, prop, (s.shape q).elim 0 JSShape.propSize, fastArray⟩] }, mem)

/-- `JS_NewObjectProtoClass` for a class without properties. -/
def jsNewObjectProtoClass (s : JSRuntime) (proto : Option Ptr) (mem : Alloc) :
    Bool × JSRuntime × Alloc :=
  match findHashedShapeProto s proto with
  | some q => jsNewObjectFromShape (jsDupShape s q) q [] none mem
  | none =>
    match jsNewShape2 s proto 4 2 mem with
    | (none, s, mem) => (false, s, mem)
    | (some q, s, mem) => jsNewObjectFromShape s q [] none mem

/-- `JS_NewArray`. -/
def jsNewArray (s : JSRuntime) (length : JSValue) (mem : Alloc) : Bool × JSRuntime × Alloc :=
  match s.arrayShape with
  | none => (false, s, mem)
  | some q => jsNewObjectFromShape (jsDupShape s q) q [length] (some []) mem

/-- The part of `free_object` that gives the properties up. -/
def freeObject (s : JSRuntime) (p : Ptr) : JSRuntime :=
  match s.object p with
  | none => s
  | some o => jsFreeShape { s with objects := s.objects.set p none } o.shape

end QuickJs.Shape
