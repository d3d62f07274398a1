import QuickJs.HashChain
import Mathlib.Algebra.Order.Ring.Int

/-!
# Strings and atoms

Strings and atoms share one struct and one reference count. A string becomes an
atom by entering `atom_array`, and a string atom also enters a bucket of
`atom_hash`, chained through the `hash_next` fields. Free entries of the array
form a chain of their own.

A `JSAtom` is a number: `0` is `JS_ATOM_NULL`, tagged integers have bit 31 set,
and any other atom is an index of the array. The runtime is modelled with the
addresses of its strings; allocation is decided
by the environment, which supplies fresh addresses. Reference counts are
unbounded.
-/

namespace QuickJs.Atom

open HashChain

/-- The address of a `JSString`. -/
abbrev Ptr : Type := ℕ

/-- The `atom_type` field. -/
inductive AtomType where
  /-- not an atom -/
  | none
  /-- `JS_ATOM_TYPE_STRING` -/
  | string
  /-- `JS_ATOM_TYPE_GLOBAL_SYMBOL` -/
  | globalSymbol
  /-- `JS_ATOM_TYPE_SYMBOL`, private names included -/
  | symbol
  deriving DecidableEq, Repr

/-- The kind of atom that `__JS_NewAtom` is asked for. -/
inductive AtomKind where
  /-- `JS_ATOM_TYPE_STRING` -/
  | string
  /-- `JS_ATOM_TYPE_GLOBAL_SYMBOL` -/
  | globalSymbol
  /-- `JS_ATOM_TYPE_SYMBOL` -/
  | symbol
  /-- `JS_ATOM_TYPE_PRIVATE` -/
  | priv
  deriving DecidableEq, Repr

/-- The `atom_type` of an atom of the kind. -/
def AtomKind.type : AtomKind → AtomType
  | .string => .string
  | .globalSymbol => .globalSymbol
  | .symbol | .priv => .symbol

/-- The seed of the hash, `atom_type` as a number. -/
def AtomType.seed : AtomType → ℕ
  | .none => 0
  | .string => 1
  | .globalSymbol => 2
  | .symbol => 3

/-- Are atoms of the type interned? -/
def AtomType.hashed : AtomType → Bool
  | .string | .globalSymbol => true
  | _ => false

/-- `JSString`. The characters are UTF-16 code units whatever their width. -/
structure JSString where
  refCount : ℕ
  chars : List ℕ
  isWideChar : Bool
  hash : ℕ
  atomType : AtomType
  hashNext : ℕ
  deriving DecidableEq

/-- A string as `js_alloc_string` makes it. -/
def JSString.alloc (chars : List ℕ) (isWideChar : Bool) : JSString :=
  ⟨1, chars, isWideChar, 0, .none, 0⟩

/-- An entry of `atom_array`. -/
inductive Entry where
  /-- the struct of `JS_ATOM_NULL` -/
  | null
  /-- a free entry and the next free one -/
  | free (next : ℕ)
  /-- an atom -/
  | used (p : Ptr)
  deriving DecidableEq

/-- The part of `JSRuntime` about atoms, and the memory of the strings. -/
structure JSRuntime where
  mem : Ptr → Option JSString
  atomArray : ℕ → Entry
  atomSize : ℕ
  atomFreeIndex : ℕ
  atomHash : ℕ → ℕ
  atomHashSize : ℕ
  atomCount : ℕ
  atomCountResize : ℕ

/-- What the allocator answers during a call of `__JS_NewAtom`: whether the atom
array can grow, the address for a copy of the string, and whether the hash table
can grow. -/
structure Alloc where
  grow : Bool := true
  copy : Option Ptr := none
  resize : Bool := true

def jsAtomTagInt : ℕ := 2 ^ 31

def jsAtomMaxInt : ℕ := jsAtomTagInt - 1

def jsAtomMax : ℕ := 2 ^ 30 - 1

def jsAtomHashMask : ℕ := 2 ^ 30 - 1

/-- `hash_string8` and `hash_string16`. -/
def hashString (chars : List ℕ) (h : ℕ) : ℕ := chars.foldl (fun h c => (h * 263 + c) % 2 ^ 32) h

/-- The hash of an interned atom. -/
def atomHashOf (t : AtomType) (chars : List ℕ) : ℕ := hashString chars t.seed &&& jsAtomHashMask

/-- `is_num`. -/
def isNum (c : ℕ) : Bool := 48 ≤ c && c ≤ 57

/-- One step of the loop of `is_num_string`. -/
def numStep (n : Option ℕ) (c : ℕ) : Option ℕ :=
  n.bind fun n => if isNum c && n * 10 + (c - 48) < 2 ^ 32 then some (n * 10 + (c - 48)) else none

/-- `is_num_string`: the number when it is at most `2^32 - 1`. -/
def isNumString (chars : List ℕ) : Option ℕ :=
  match chars with
  | [] => none
  | c :: cs =>
    if 10 < chars.length then none
    else if isNum c then
      if c = 48 then if cs = [] then some 0 else none
      else cs.foldl numStep (some (c - 48))
    else none

namespace JSRuntime

variable (s : JSRuntime)

/-- Change the string at `p`. -/
def modify (p : Ptr) (f : JSString → JSString) : JSRuntime :=
  { s with mem := Function.update s.mem p ((s.mem p).map f) }

/-- Allocate or release the string at `p`. -/
def setMem (p : Ptr) (str : Option JSString) : JSRuntime :=
  { s with mem := Function.update s.mem p str }

/-- `p->header.ref_count++`. -/
def incRef (p : Ptr) : JSRuntime :=
  s.modify p fun str => { str with refCount := str.refCount + 1 }

/-- `p->header.ref_count--`. -/
def decRef (p : Ptr) : JSRuntime :=
  s.modify p fun str => { str with refCount := str.refCount - 1 }

/-- The struct of the atom `i`. -/
def atom (i : ℕ) : Option JSString :=
  match s.atomArray i with
  | .used p => s.mem p
  | _ => none

/-- The `hash_next` field of the atom `i`. -/
def hashNextOf (i : ℕ) : ℕ := ((s.atom i).map JSString.hashNext).getD 0

/-- Write the `hash_next` field of the atom `i`. -/
def setHashNext (i n : ℕ) : JSRuntime :=
  match s.atomArray i with
  | .used p => s.modify p fun str => { str with hashNext := n }
  | _ => s

/-- `atom_get_free`. -/
def atomGetFree (i : ℕ) : ℕ :=
  match s.atomArray i with
  | .free n => n
  | _ => 0

/-- The bucket of a hash. -/
def bucket (h : ℕ) : ℕ := h &&& (s.atomHashSize - 1)

end JSRuntime

open JSRuntime

/-! ## Releasing strings and atoms -/

/-- `js_get_atom_index`. -/
def jsGetAtomIndex (s : JSRuntime) (p : Ptr) (str : JSString) : ℕ :=
  if str.atomType = .symbol then str.hashNext
  else findFrom s.hashNextOf (fun i => s.atomArray i = .used p) s.atomSize
    (s.atomHash (s.bucket str.hash))

/-- The loop of `JS_FreeAtomStruct`: unlink `p` from its chain, starting after
the entry `i0`. -/
def unlinkAfter (p : Ptr) (next : ℕ) : ℕ → JSRuntime → ℕ → JSRuntime × ℕ
  | 0, s, _ => (s, 0)
  | n + 1, s, i0 =>
    let i := s.hashNextOf i0
    if s.atomArray i = .used p then (s.setHashNext i0 next, i) else unlinkAfter p next n s i

/-- The first half of `JS_FreeAtomStruct`: unlink an interned atom and give its
index. -/
def unlinkAtom (s : JSRuntime) (p : Ptr) (str : JSString) : JSRuntime × ℕ :=
  if str.atomType = .symbol then (s, str.hashNext)
  else
    let h0 := s.bucket str.hash
    let i := s.atomHash h0
    if s.atomArray i = .used p then
      ({ s with atomHash := Function.update s.atomHash h0 str.hashNext }, i)
    else unlinkAfter p str.hashNext s.atomSize s i

/-- `JS_FreeAtomStruct`. -/
def jsFreeAtomStruct (s : JSRuntime) (p : Ptr) (str : JSString) : JSRuntime :=
  let (s, i) := unlinkAtom s p str
  { s with
    atomArray := Function.update s.atomArray i (.free s.atomFreeIndex)
    atomFreeIndex := i
    mem := Function.update s.mem p none
    atomCount := s.atomCount - 1 }

/-- `js_free_string`, and `JS_FreeValue` on a string or a symbol. -/
def jsFreeString (s : JSRuntime) (p : Ptr) : JSRuntime :=
  match s.mem p with
  | none => s
  | some str =>
    if 1 < str.refCount then s.decRef p
    else if str.atomType = .none then s.setMem p none
    else jsFreeAtomStruct s p str

/-- `__JS_AtomIsConst`: `JS_ATOM_NULL`, the predefined atoms and the tagged
integers are not counted. `predefined` is `JS_ATOM_END - 1`. -/
def jsAtomIsConst (predefined i : ℕ) : Bool := i ≤ predefined || jsAtomTagInt ≤ i

/-- `JS_FreeAtom`. -/
def jsFreeAtom (predefined : ℕ) (s : JSRuntime) (i : ℕ) : JSRuntime :=
  if jsAtomIsConst predefined i then s
  else match s.atomArray i with
    | .used p => match s.mem p with
      | some str => if 1 < str.refCount then s.decRef p else jsFreeAtomStruct s p str
      | none => s
    | _ => s

/-- `JS_DupAtom`. -/
def jsDupAtom (predefined : ℕ) (s : JSRuntime) (i : ℕ) : JSRuntime :=
  if jsAtomIsConst predefined i then s
  else match s.atomArray i with
    | .used p => s.incRef p
    | _ => s

/-! ## The hash table -/

/-- The inner loop of `JS_ResizeAtomHash`: move the chain that starts at `h`. -/
def rehashChain (newSize : ℕ) : ℕ → JSRuntime → (ℕ → ℕ) → ℕ → JSRuntime × (ℕ → ℕ)
  | 0, s, newHash, _ => (s, newHash)
  | n + 1, s, newHash, h =>
    if h = 0 then (s, newHash)
    else
      let hashNext1 := s.hashNextOf h
      let j := ((s.atom h).map JSString.hash).getD 0 &&& (newSize - 1)
      rehashChain newSize n (s.setHashNext h (newHash j)) (Function.update newHash j h) hashNext1

/-- The outer loop of `JS_ResizeAtomHash`. -/
def rehash (newSize : ℕ) (s : JSRuntime) : JSRuntime × (ℕ → ℕ) :=
  (List.range s.atomHashSize).foldl
    (fun (t : JSRuntime × (ℕ → ℕ)) i =>
      rehashChain newSize t.1.atomSize t.1 t.2 (t.1.atomHash i))
    (s, fun _ => 0)

/-- `JS_ResizeAtomHash`, when the allocation of the new table succeeds. -/
def jsResizeAtomHash (s : JSRuntime) (newSize : ℕ) : JSRuntime :=
  let (s, newHash) := rehash newSize s
  { s with atomHash := newHash, atomHashSize := newSize, atomCountResize := newSize * 2 }

/-! ## Interning -/

/-- The search of `__JS_NewAtom` for a registered atom. -/
def findAtom (s : JSRuntime) (t : AtomType) (h : ℕ) (chars : List ℕ) : ℕ :=
  findFrom s.hashNextOf
    (fun i => (s.atom i).any fun p => p.hash = h && p.atomType = t && p.chars = chars)
    s.atomSize (s.atomHash (s.bucket h))

/-- The first new entry when `atom_array` grows: entry `0` is never free. -/
def firstNew (s : JSRuntime) : ℕ := if s.atomSize = 0 then 1 else s.atomSize

/-- The new entries of `atom_array`, all free, when it grows to `newSize`. -/
def addEntries (s : JSRuntime) (newSize : ℕ) : JSRuntime :=
  { s with
    atomArray := fun i =>
      if i = 0 then .null
      else if firstNew s ≤ i ∧ i < newSize then .free (if i = newSize - 1 then 0 else i + 1)
      else s.atomArray i
    atomSize := newSize
    atomFreeIndex := firstNew s
    atomCount := if s.atomSize = 0 then s.atomCount + 1 else s.atomCount }

/-- The part of `__JS_NewAtom` that makes room in `atom_array`. -/
def growAtomArray (s : JSRuntime) (alloc : Alloc) : Option JSRuntime :=
  if s.atomFreeIndex ≠ 0 then some s
  else
    let newSize := max 211 (s.atomSize * 3 / 2)
    if jsAtomMax < newSize || !alloc.grow then none else some (addEntries s newSize)

/-- The end of `__JS_NewAtom`: enter the string at `p` in `atom_array` and, when
its type is interned, in the hash table. -/
def registerAtom (s : JSRuntime) (p : Ptr) (t : AtomType) (h : ℕ) (alloc : Alloc) :
    JSRuntime × ℕ :=
  let i := s.atomFreeIndex
  let s := { s with
    atomFreeIndex := s.atomGetFree i
    atomArray := Function.update s.atomArray i (.used p)
    atomCount := s.atomCount + 1 }
  if t = .symbol then
    (s.modify p fun str => { str with hash := h, atomType := t, hashNext := i }, i)
  else
    let h1 := s.bucket h
    let s := s.modify p fun str =>
      { str with hash := h, atomType := t, hashNext := s.atomHash h1 }
    let s := { s with atomHash := Function.update s.atomHash h1 i }
    if s.atomCountResize ≤ s.atomCount && alloc.resize then
      (jsResizeAtomHash s (s.atomHashSize * 2), i)
    else (s, i)

/-- `__JS_NewAtom` once no registered atom was found: the new atom is the string
itself, or a copy when the string is an atom already. -/
def addAtom (s : JSRuntime) (p : Ptr) (t : AtomType) (h : ℕ) (alloc : Alloc) :
    JSRuntime × ℕ :=
  match growAtomArray s alloc with
  | none => (jsFreeString s p, 0)
  | some s =>
    match s.mem p with
    | none => (s, 0)
    | some str =>
      if str.atomType = .none then registerAtom s p t h alloc
      else match alloc.copy with
        | none => (jsFreeString s p, 0)
        | some q =>
          let copy := JSString.alloc str.chars str.isWideChar
          registerAtom (jsFreeString (s.setMem q (some copy)) p) q t h alloc

/-- `__JS_NewAtom` on a string, which it consumes. The result `0` reports a
failed allocation. -/
def newAtom (predefined : ℕ) (s : JSRuntime) (p : Ptr) (kind : AtomKind) (alloc : Alloc) :
    JSRuntime × ℕ :=
  match s.mem p with
  | none => (s, 0)
  | some str =>
    match kind with
    | .symbol => addAtom s p .symbol 0 alloc
    | .priv => addAtom s p .symbol 1 alloc
    | _ =>
      if str.atomType = kind.type then
        -- the string is the atom
        let i := jsGetAtomIndex s p str
        if jsAtomIsConst predefined i then (s.decRef p, i) else (s, i)
      else
        let h := atomHashOf kind.type str.chars
        let i := findAtom s kind.type h str.chars
        if i ≠ 0 then (jsFreeString (jsDupAtom predefined s i) p, i)
        else addAtom s p kind.type h alloc

/-- `__JS_NewAtom` for a symbol without description. -/
def newAtomNull (s : JSRuntime) (kind : AtomKind) (alloc : Alloc) : JSRuntime × ℕ :=
  match growAtomArray s alloc with
  | none => (s, 0)
  | some s =>
    match alloc.copy with
    | none => (s, 0)
    | some q =>
      registerAtom (s.setMem q (some (JSString.alloc [] true))) q .symbol
        (if kind = .priv then 1 else 0) alloc

/-- `JS_NewAtomStr`. -/
def jsNewAtomStr (predefined : ℕ) (s : JSRuntime) (p : Ptr) (alloc : Alloc) :
    JSRuntime × ℕ :=
  match (s.mem p).bind fun str => isNumString str.chars with
  | some n =>
    if n ≤ jsAtomMaxInt then (jsFreeString s p, n + jsAtomTagInt)
    else newAtom predefined s p .string alloc
  | none => newAtom predefined s p .string alloc

/-! ## Concatenation -/

/-- The fast path of `JS_ConcatString`: `room` tells whether the block of the
first string has room for the characters of the second one. -/
def concatInPlace (s : JSRuntime) (p1 p2 : Ptr) (room : Bool) : Bool :=
  match s.mem p1, s.mem p2 with
  | some s1, some s2 =>
    s2.chars ≠ [] && s1.refCount = 1 && s1.isWideChar = s2.isWideChar && room
  | _, _ => false

def jsStringLenMax : ℕ := 2 ^ 30 - 1

/-- `JS_ConcatString` on two strings, which it consumes. `q` is the address of a
new string, if one can be allocated; without it the result is an exception. -/
def jsConcatString (s : JSRuntime) (p1 p2 : Ptr) (room : Bool) (q : Option Ptr) :
    JSRuntime × Option Ptr :=
  match s.mem p1, s.mem p2 with
  | some s1, some s2 =>
    if s2.chars = [] then (jsFreeString s p2, some p1)
    else if concatInPlace s p1 p2 room then
      (jsFreeString (s.modify p1 fun str => { str with chars := str.chars ++ s2.chars }) p2, some p1)
    else
      let chars := s1.chars ++ s2.chars
      match if jsStringLenMax < chars.length then none else q with
      | none => (jsFreeString (jsFreeString s p1) p2, none)
      | some q =>
        let str := JSString.alloc chars (s1.isWideChar || s2.isWideChar)
        (jsFreeString (jsFreeString (s.setMem q (some str)) p1) p2, some q)
  | _, _ => (s, none)

end QuickJs.Atom
