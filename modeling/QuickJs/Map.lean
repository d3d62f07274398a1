import QuickJs.MapKey

/-!
# Map and Set

The records of a map are linked in insertion order and, while they are not deleted, in
the buckets of a hash table. A deleted record stays linked as long as an iterator or a
running `forEach` locks it. Freeing a value may destroy iterators; which ones is up
to the program and therefore an argument of every operation that frees values.

The list `records` holds exactly the records in memory. An address is never used twice,
so that looking at a freed record is a fault.
-/

namespace QuickJs.Map

/-! ## State -/

/-- `JSMapRecord`. -/
structure JSMapRecord where
  /-- its address -/
  addr : ℕ
  refCount : ℕ
  /-- whether the record is deleted -/
  empty : Bool
  key : JSValue
  value : JSValue
  deriving DecidableEq

/-- `JSIteratorKindEnum`. -/
inductive JSIteratorKindEnum
  | key
  | value
  | keyAndValue
  deriving DecidableEq

/-- `JSMapIteratorData`. -/
structure JSMapIteratorData where
  /-- whether the iterator still refers to its map -/
  obj : Bool
  kind : JSIteratorKindEnum
  curRecord : Option ℕ
  deriving DecidableEq

/-- What walks over the records. -/
inductive Walker
  /-- an iterator object -/
  | iterator (it : JSMapIteratorData)
  /-- a `forEach` whose callback is running on the record `mr` -/
  | forEach (mr : ℕ)
  /-- a `forEach` that has returned at the end of the records -/
  | returned
  /-- a destroyed iterator or a `forEach` left by an exception -/
  | gone
  deriving DecidableEq

/-- The record a walker locks. -/
def Walker.lock : Walker → Option ℕ
  | iterator it => it.curRecord
  | forEach mr => some mr
  | returned | gone => none

/-- Whether a walk has come to the end of the records. -/
def Walker.ended : Walker → Bool
  | iterator it => !it.obj
  | returned => true
  | forEach _ | gone => false

/-- A walker with its history: the records it has produced, and the address below which
it has passed every record. -/
structure Cursor where
  walker : Walker
  produced : List ℕ
  passed : ℕ
  deriving DecidableEq

/-- `JSMapState`, with the iterators over the map. -/
structure JSMapState where
  /-- a Set keeps no values -/
  isSet : Bool
  records : List JSMapRecord
  recordCount : ℕ
  hashTable : ℕ → List ℕ
  hashSize : ℕ
  recordCountThreshold : ℕ
  /-- the next address to be allocated -/
  fresh : ℕ
  cursors : List Cursor

/-- The fresh map of `js_map_constructor`. -/
def jsMapConstructor (isSet : Bool) : JSMapState where
  isSet := isSet
  records := []
  recordCount := 0
  hashTable := fun _ => []
  hashSize := 1
  recordCountThreshold := 4
  fresh := 0
  cursors := []

/-- Why an operation does not return. -/
inductive Fault
  /-- it looked at a freed record -/
  | freedRecord
  /-- an assertion failed -/
  | assertion
  /-- a loop did not end -/
  | endless
  /-- the program is not entitled to the operation -/
  | notEntitled
  deriving DecidableEq

@[simp] theorem ok_bind {α β : Type} (a : α) (f : α → Except Fault β) : (Except.ok a >>= f) = f a := rfl

@[simp] theorem pure_eq_ok {α : Type} (a : α) : (pure a : Except Fault α) = .ok a := rfl

/-- What an operation returns. -/
inductive Outcome
  | exception
  | value (v : JSValue)
  | this
  | size (n : ℕ)
  /-- the callback of `forEach` is called -/
  | call (value key : JSValue)
  /-- the next item of an iteration, an array if there are two values -/
  | item (vs : List JSValue)
  /-- the end of an iteration -/
  | done
  deriving DecidableEq

/-- What the allocator answers: whether there is memory for a record, and whether
there is for a larger table and with how many spare buckets. -/
structure Memory where
  record : Bool
  table : Option ℕ
  deriving DecidableEq

namespace JSMapState

variable (s : JSMapState)

/-- The record at an address. -/
def record (a : ℕ) : Except Fault JSMapRecord :=
  match s.records.find? (·.addr == a) with
  | some r => .ok r
  | none => .error .freedRecord

/-- Write to the record at an address. -/
def modify (a : ℕ) (f : JSMapRecord → JSMapRecord) : JSMapState :=
  { s with records := s.records.map fun r => if r.addr = a then f r else r }

/-- `list_del` of a record followed by `js_free`. -/
def free (a : ℕ) : JSMapState :=
  { s with records := s.records.filter (·.addr != a) }

/-- The records from a link on; the link `none` is the list head. -/
def linked : Option ℕ → Except Fault (List JSMapRecord)
  | none => .ok []
  | some a =>
    match s.records.dropWhile (·.addr != a) with
    | [] => .error .freedRecord
    | rs => .ok rs

/-- `records.next` -/
def first : Option ℕ := s.records.head?.map (·.addr)

/-- `link.next` -/
def next (a : ℕ) : Except Fault (Option ℕ) :=
  return (← s.linked (some a)).tail.head?.map (·.addr)

/-- The bucket of a key. -/
def bucket (key : JSValue) : ℕ := (mapHashKey key).toNat &&& (s.hashSize - 1)

def setCursor (i : ℕ) (c : Cursor) : JSMapState := { s with cursors := s.cursors.set i c }

def addCursor (c : Cursor) : JSMapState := { s with cursors := s.cursors ++ [c] }

end JSMapState

open JSMapState

/-! ## Records -/

/-- `map_decref_record`. -/
def mapDecrefRecord (s : JSMapState) (a : ℕ) : Except Fault JSMapState := do
  let r ← s.record a
  if r.refCount - 1 = 0 then
    if r.empty then return s.free a else throw .assertion
  else return s.modify a fun r => { r with refCount := r.refCount - 1 }

/-- `js_map_iterator_finalizer`. -/
def jsMapIteratorFinalizer (s : JSMapState) (i : ℕ) : Except Fault JSMapState :=
  match s.cursors[i]? with
  | some ⟨.iterator it, produced, passed⟩ => do
    let s ← match it.obj, it.curRecord with
      | true, some a => mapDecrefRecord s a
      | _, _ => pure s
    return s.setCursor i ⟨.gone, produced, passed⟩
  | _ => .error .notEntitled

/-- `JS_FreeValue` of values whose destruction destroys the given iterators. -/
def freeValue (s : JSMapState) (destroyed : List ℕ) : Except Fault JSMapState :=
  destroyed.foldlM jsMapIteratorFinalizer s

/-- The search of `map_find_record` in a bucket. -/
def findInBucket (s : JSMapState) (key : JSValue) : List ℕ → Except Fault (Option ℕ)
  | [] => .ok none
  | a :: as => do
    let mr ← s.record a
    if jsSameValueZero mr.key key then return some a else findInBucket s key as

/-- `map_find_record`. -/
def mapFindRecord (s : JSMapState) (key : JSValue) : Except Fault (Option ℕ) :=
  findInBucket s key (s.hashTable (s.bucket key))

/-- `list_add_tail` on a bucket. -/
def addTail (table : ℕ → List ℕ) (h a : ℕ) : ℕ → List ℕ :=
  fun b => if b = h then table b ++ [a] else table b

/-- `map_hash_resize`, given the spare buckets of the new table if there is memory. -/
def mapHashResize (s : JSMapState) : Option ℕ → JSMapState
  | none => s
  | some slack =>
    let newHashSize := (if s.hashSize = 1 then 4 else s.hashSize * 2) + slack
    let newHashTable := s.records.foldl (fun table mr =>
      if mr.empty then table
      else addTail table ((mapHashKey mr.key).toNat &&& (newHashSize - 1)) mr.addr) fun _ => []
    { s with
      hashTable := newHashTable
      hashSize := newHashSize
      recordCountThreshold := newHashSize * 2 }

/-- The part of `map_add_record` that links the new record. -/
def linkRecord (s : JSMapState) (key : JSValue) : JSMapState :=
  { s with
    hashTable := addTail s.hashTable (s.bucket key) s.fresh
    records := s.records ++ [⟨s.fresh, 1, false, key, .undefined⟩]
    recordCount := s.recordCount + 1
    fresh := s.fresh + 1 }

/-- `map_add_record`; the new record has the address `fresh`. -/
def mapAddRecord (s : JSMapState) (key : JSValue) (memory : Memory) : JSMapState :=
  let s := linkRecord s key
  if s.recordCountThreshold ≤ s.recordCount then mapHashResize s memory.table else s

/-- `list_del` of the link in the hash table. -/
def unlinkHash (s : JSMapState) (a : ℕ) : JSMapState :=
  { s with hashTable := fun b => (s.hashTable b).erase a }

/-- The end of `map_delete_record`: a record without locks is freed, another one becomes
a zombie. -/
def dropRecord (s : JSMapState) (a : ℕ) : Except Fault JSMapState := do
  let mr ← s.record a
  let s := if mr.refCount - 1 = 0 then s.free a
    else s.modify a fun mr =>
      { mr with refCount := mr.refCount - 1, empty := true, key := .undefined, value := .undefined }
  return { s with recordCount := s.recordCount - 1 }

/-- `map_delete_record`; freeing the key and the value destroys iterators. -/
def mapDeleteRecord (s : JSMapState) (a : ℕ) (destroyed : List ℕ) : Except Fault JSMapState := do
  let mr ← s.record a
  if mr.empty then return s
  let s ← freeValue (unlinkHash s a) destroyed
  dropRecord s a

/-! ## Methods -/

/-- `js_map_set`; replacing a value frees the old one. -/
def jsMapSet (s : JSMapState) (key value : JSValue) (memory : Memory) (destroyed : List ℕ) :
    Except Fault (JSMapState × Outcome) := do
  let key := mapNormalizeKey key
  let value := if s.isSet then .undefined else value
  match ← mapFindRecord s key with
  | some a =>
    let s ← freeValue s destroyed
    let _ ← s.record a
    return (s.modify a fun mr => { mr with value }, .this)
  | none =>
    if memory.record then
      return ((mapAddRecord s key memory).modify s.fresh fun mr => { mr with value }, .this)
    else return (s, .exception)

/-- `js_map_get`. -/
def jsMapGet (s : JSMapState) (key : JSValue) : Except Fault (JSMapState × Outcome) := do
  match ← mapFindRecord s (mapNormalizeKey key) with
  | some a => return (s, .value (← s.record a).value)
  | none => return (s, .value .undefined)

/-- `js_map_has`. -/
def jsMapHas (s : JSMapState) (key : JSValue) : Except Fault (JSMapState × Outcome) :=
  return (s, .value (.bool (← mapFindRecord s (mapNormalizeKey key)).isSome))

/-- `js_map_delete`. -/
def jsMapDelete (s : JSMapState) (key : JSValue) (destroyed : List ℕ) :
    Except Fault (JSMapState × Outcome) := do
  match ← mapFindRecord s (mapNormalizeKey key) with
  | some a => return (← mapDeleteRecord s a destroyed, .value (.bool true))
  | none => return (s, .value (.bool false))

/-- `js_map_get_size`. -/
def jsMapGetSize (s : JSMapState) : JSMapState × Outcome := (s, .size s.recordCount)

/-- The body of the loop of `js_map_clear` at the record `a`, with the link the loop goes on
with: it is read before the record is deleted. -/
def clearStep (s : JSMapState) (a : ℕ) (destroyed : List ℕ) :
    Except Fault (JSMapState × Option ℕ) := do
  let el1 ← s.next a
  return (← mapDeleteRecord s a destroyed, el1)

/-- The loop of `js_map_clear` from a link on. Deleting the record `a` destroys the
iterators `destroyed a`. -/
def clearLoop (destroyed : ℕ → List ℕ) : ℕ → JSMapState → Option ℕ → Except Fault JSMapState
  | _, s, none => .ok s
  | 0, _, some _ => .error .endless
  | n + 1, s, some a => do
    let (s, el1) ← clearStep s a (destroyed a)
    clearLoop destroyed n s el1

/-- `js_map_clear`. -/
def jsMapClear (s : JSMapState) (destroyed : ℕ → List ℕ) : Except Fault (JSMapState × Outcome) :=
  return (← clearLoop destroyed s.records.length s s.first, .value .undefined)

/-! ## Walking over the records -/

/-- The loop over deleted records that `js_map_iterator_next` and `js_map_forEach` share:
the first record from a link on that is not deleted, which is then locked. -/
def lockNext (s : JSMapState) (el : Option ℕ) : Except Fault (JSMapState × Option JSMapRecord) := do
  match (← s.linked el).find? (!·.empty) with
  | none => return (s, none)
  | some mr => return (s.modify mr.addr fun mr => { mr with refCount := mr.refCount + 1 }, some mr)

/-- `js_create_map_iterator`. -/
def jsCreateMapIterator (s : JSMapState) (kind : JSIteratorKindEnum) : JSMapState × Outcome :=
  (s.addCursor ⟨.iterator ⟨true, kind, none⟩, [], 0⟩, .this)

/-- The value `js_map_iterator_next` returns for a record. -/
def iteratorItem (isSet : Bool) (kind : JSIteratorKindEnum) (mr : JSMapRecord) : Outcome :=
  let value := if isSet then mr.key else mr.value
  match kind with
  | .key => .item [mr.key]
  | .value => .item [value]
  | .keyAndValue => .item [mr.key, value]

/-- `js_map_iterator_next` on the iterator number `i`. -/
def jsMapIteratorNext (s : JSMapState) (i : ℕ) : Except Fault (JSMapState × Outcome) :=
  match s.cursors[i]? with
  | some ⟨.iterator it, produced, _⟩ => do
    if !it.obj then return (s, .done)
    let (s, el) ← match it.curRecord with
      | none => pure (s, s.first)
      | some a => do
        let el ← s.next a
        pure (← mapDecrefRecord s a, el)
    match ← lockNext s el with
    | (s, none) => return (s.setCursor i ⟨.iterator ⟨false, it.kind, none⟩, produced, s.fresh⟩, .done)
    | (s, some mr) =>
      return (s.setCursor i ⟨.iterator ⟨true, it.kind, some mr.addr⟩, produced ++ [mr.addr],
        mr.addr + 1⟩, iteratorItem s.isSet it.kind mr)
  | _ => .error .notEntitled

/-- The arguments `js_map_forEach` passes to the callback. -/
def forEachCall (isSet : Bool) (mr : JSMapRecord) : Outcome :=
  .call (if isSet then mr.key else mr.value) mr.key

/-- `js_map_forEach` up to the first call. -/
def jsMapForEach (s : JSMapState) : Except Fault (JSMapState × Outcome) := do
  match ← lockNext s s.first with
  | (s, none) => return (s, .value .undefined)
  | (s, some mr) =>
    return (s.addCursor ⟨.forEach mr.addr, [mr.addr], mr.addr + 1⟩, forEachCall s.isSet mr)

/-- `js_map_forEach` from the return of the callback, once the arguments are freed, to the
next call: the next link is read, the record is unlocked and only then the returned value is
freed. -/
def forEachReturn (s : JSMapState) (i : ℕ) (exception : Bool) (destroyed : List ℕ) :
    Except Fault (JSMapState × Outcome) :=
  match s.cursors[i]? with
  | some ⟨.forEach mr, produced, passed⟩ => do
    let el ← s.next mr
    let s ← mapDecrefRecord s mr
    let s := s.setCursor i ⟨.gone, produced, passed⟩
    if exception then return (s, .exception)
    let s ← freeValue s destroyed
    match ← lockNext s el with
    | (s, none) => return (s.setCursor i ⟨.returned, produced, s.fresh⟩, .value .undefined)
    | (s, some mr) =>
      return (s.setCursor i ⟨.forEach mr.addr, produced ++ [mr.addr], mr.addr + 1⟩, forEachCall s.isSet mr)
  | _ => .error .notEntitled

end QuickJs.Map
