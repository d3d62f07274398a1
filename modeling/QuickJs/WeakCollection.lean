import QuickJs.RefGraph
import QuickJs.Run

/-!
# Weak collections

A record of a `WeakMap` or `WeakSet` is linked in the list and in the hash table of its collection and
in the list of weak references of its key. It holds its value and not its key. An object is freed when
its last reference is released, but not at once: the objects to free wait in a list, and the
operation that released the reference goes on when the list is empty. The cycle collector frees what
it has found unreachable, and meanwhile a count that reaches zero has no effect.
-/

namespace QuickJs.Weak

open RefGraph

/-! ## The state -/

/-- Who holds a counted reference. -/
inductive Holder
  /-- a script, or C code -/
  | root
  /-- a property of an object -/
  | field (p : ℕ)
  /-- the value of a record -/
  | record (r : ℕ)
  deriving DecidableEq

/-- `JSObject` but for its count and its properties, and `JSMapState` if it is a weak collection. -/
structure JSObject where
  isMap : Bool
  /-- `records` of the collection -/
  records : List ℕ
  /-- the hash chains of the collection, as one -/
  hashed : List ℕ
  firstWeakRef : List ℕ
  /-- `free_mark`: the object has been freed, but for its memory -/
  freeMark : Bool

/-- `JSMapRecord`. No value is one that is not collected, as `undefined` in a `WeakSet`. -/
structure JSMapRecord where
  map : ℕ
  key : ℕ
  value : Option ℕ

/-- `JSGCPhaseEnum`. -/
inductive Phase
  | none
  | decref
  | removeCycles
  deriving DecidableEq

/-- What an operation still has to do when the objects are freed that it has released. -/
inductive Pending
  | none
  /-- the end of `js_map_set`: the new value of the record -/
  | store (r : ℕ) (v : Option ℕ)
  /-- the end of `map_delete_record` -/
  | unlink (r : ℕ)
  deriving DecidableEq

/-- The heap. None is an object or a record whose memory has been given back, or that is to come. -/
structure State where
  object : ℕ → Option JSObject
  record : ℕ → Option JSMapRecord
  /-- the numbers of the next object and of the next record -/
  nextObject : ℕ
  nextRecord : ℕ
  /-- `ref_count` of the objects -/
  refCount : ℕ → ℤ
  /-- the counted references -/
  refs : List (Holder × ℕ)
  phase : Phase
  gcZeroRefCountList : List ℕ
  tmpObjList : List ℕ
  pending : Pending

def State.initial : State where
  object _ := none
  record _ := none
  nextObject := 0
  nextRecord := 0
  refCount _ := 0
  refs := []
  phase := .none
  gcZeroRefCountList := []
  tmpObjList := []
  pending := .none

/-- The references to an object. -/
def State.count (s : State) (o : ℕ) : ℕ := s.refs.countP (·.2 = o)

/-- The object is in memory and has not been freed. -/
def State.Live (s : State) (o : ℕ) : Prop := ∃ ob, s.object o = some ob ∧ ob.freeMark = false

/-- The value of a record. -/
def State.value (s : State) (r : ℕ) : Option ℕ := (s.record r).bind JSMapRecord.value

def State.modify (s : State) (o : ℕ) (f : JSObject → JSObject) : State :=
  { s with object := fun q => if q = o then (s.object q).map f else s.object q }

/-- All objects are changed. -/
def State.modifyAll (s : State) (f : JSObject → JSObject) : State :=
  { s with object := fun q => (s.object q).map f }

def State.setRecord (s : State) (r : ℕ) (mr : Option JSMapRecord) : State :=
  { s with record := fun q => if q = r then mr else s.record q }

def State.setValue (s : State) (r : ℕ) (v : Option ℕ) : State :=
  s.setRecord r ((s.record r).map fun mr => { mr with value := v })

/-! ## References -/

/-- The count of an object is changed. -/
def State.addCount (s : State) (o : ℕ) (n : ℤ) : State :=
  { s with refCount := fun q => if q = o then s.refCount q + n else s.refCount q }

/-- `JS_DupValue`. -/
def State.dup (s : State) (h : Holder) (o : ℕ) : State :=
  { s.addCount o 1 with refs := (h, o) :: s.refs }

/-- `JS_FreeValueRT`: the object whose count reaches zero is to be freed, unless the collector is
removing cycles. -/
def State.release (s : State) (e : Holder × ℕ) : State :=
  let s := { s.addCount e.2 (-1) with refs := s.refs.erase e }
  if s.refCount e.2 = 0 ∧ s.phase ≠ .removeCycles then
    { s with gcZeroRefCountList := e.2 :: s.gcZeroRefCountList, phase := .decref }
  else s

/-- The value of a record is released. The pointer that the C code leaves there is not read again. -/
def State.freeValue (s : State) (r : ℕ) : State :=
  match s.value r with
  | none => s
  | some v => (s.setValue r none).release (.record r, v)

/-! ## Freeing -/

/-- `free_property` for all properties of an object. -/
def State.freeProperties (s : State) (p : ℕ) : State :=
  (s.refs.filter (·.1 = Holder.field p)).foldl State.release s

/-- The value of a record is released, and the record is freed. -/
def State.freeRecord (s : State) (r : ℕ) : State := (s.freeValue r).setRecord r none

/-- `reset_weak_ref`: the records of a key leave the lists of their collections. -/
def State.resetWeakRef (s : State) (p : ℕ) : State :=
  let rs := (s.object p).elim [] JSObject.firstWeakRef
  let s := s.modifyAll fun ob => { ob with
    hashed := ob.hashed.filter (· ∉ rs)
    records := ob.records.filter (· ∉ rs) }
  (rs.foldl State.freeRecord s).modify p fun ob => { ob with firstWeakRef := [] }

/-- `js_map_finalizer`: the records of a collection leave the lists of their keys. -/
def State.mapFinalizer (s : State) (p : ℕ) : State :=
  let rs := (s.object p).elim [] JSObject.records
  let s := s.modifyAll fun ob => { ob with firstWeakRef := ob.firstWeakRef.filter (· ∉ rs) }
  (rs.foldl State.freeRecord s).modify p fun ob => { ob with records := [], hashed := [] }

/-- The end of `free_object`. The memory is kept during the removal of cycles if something still
refers to it. -/
def State.freeMemory (s : State) (p : ℕ) : State :=
  let s := { s with
    gcZeroRefCountList := s.gcZeroRefCountList.erase p
    tmpObjList := s.tmpObjList.erase p }
  if s.phase = .removeCycles ∧ s.refCount p ≠ 0 then
    { s with gcZeroRefCountList := s.gcZeroRefCountList ++ [p] }
  else { s with object := fun q => if q = p then none else s.object q }

/-- `free_object`. -/
def State.freeObject (s : State) (p : ℕ) : State :=
  let s := s.modify p fun ob => { ob with freeMark := true }
  (((s.freeProperties p).resetWeakRef p).mapFinalizer p).freeMemory p

/-- What is left of an operation. -/
def State.resume (s : State) : State :=
  let t := { s with pending := .none }
  match s.pending with
  | .none => t
  | .store _ none => t
  | .store r (some v) => (t.setValue r v).dup (.record r) v
  | .unlink r =>
    (t.modifyAll fun ob => { ob with records := ob.records.filter (· ≠ r) }).setRecord r none

/-- An operation goes on at once if nothing is to be freed. -/
def State.settle (s : State) : State := if s.phase = .none then s.resume else s

/-! ## Collections -/

/-- `map_find_record`. -/
def State.findRecord (s : State) (m k : ℕ) : Option ℕ :=
  ((s.object m).elim [] JSObject.hashed).find? fun r => (s.record r).any (·.key = k)

/-- `map_add_record`. -/
def State.addRecord (s : State) (m k : ℕ) : State :=
  let r := s.nextRecord
  let s := s.modify k fun ob => { ob with firstWeakRef := r :: ob.firstWeakRef }
  let s := s.modify m fun ob => { ob with hashed := ob.hashed ++ [r], records := ob.records ++ [r] }
  { s.setRecord r (some ⟨m, k, none⟩) with nextRecord := r + 1 }

/-- `js_map_set`. -/
def State.mapSet (s : State) (m k : ℕ) (v : Option ℕ) : State :=
  match s.findRecord m k with
  | some r => { s.freeValue r with pending := .store r v }.settle
  | none => { s.addRecord m k with pending := .store s.nextRecord v }.settle

/-- `js_map_delete`, and `map_delete_record` up to the release of the value. -/
def State.mapDelete (s : State) (m k : ℕ) : State :=
  match s.findRecord m k with
  | none => s
  | some r =>
    let s := s.modifyAll fun ob => { ob with
      hashed := ob.hashed.filter (· ≠ r)
      firstWeakRef := ob.firstWeakRef.filter (· ≠ r) }
    { s.freeValue r with pending := .unlink r }.settle

/-! ## The cycle collector -/

/-- What `mark_children` visits: the properties, and with `js_map_mark` the values of the records. -/
def State.edges (s : State) (p : ℕ) : List ℕ :=
  (s.refs.filter (·.1 = .field p)).map (·.2) ++ ((s.object p).elim [] JSObject.records).filterMap s.value

/-- The references that no object accounts for. -/
def State.external (s : State) : List ℕ := (s.refs.filter (·.1 = .root)).map (·.2)

/-- The objects that `gc_scan` finds alive. -/
def State.marked (s : State) : Finset ℕ :=
  RefGraph.marked s.edges s.nextObject s.external.toFinset

/-- The objects that it sets aside. -/
def State.unmarked (s : State) : List ℕ :=
  (List.range s.nextObject).filter fun o => (s.object o).isSome ∧ o ∉ s.marked

/-! ## Runs -/

inductive Op
  | newObject (isMap : Bool)
  /-- a script gets hold of what an object refers to -/
  | getField (p o : ℕ)
  | setField (p o : ℕ)
  | dropField (p o : ℕ)
  /-- a script drops a reference -/
  | drop (o : ℕ)
  /-- `js_map_get` -/
  | mapGet (m k : ℕ)
  | mapSet (m k : ℕ) (v : Option ℕ)
  | mapDelete (m k : ℕ)
  /-- one turn of the loop of `free_zero_refcount` -/
  | freeZero
  /-- the end of the loop -/
  | zeroFreed
  /-- `JS_RunGC` up to `gc_free_cycles`; the order is that of the list -/
  | runGC (order : List ℕ)
  /-- one turn of the loop of `gc_free_cycles` -/
  | freeCycle
  /-- the end of `gc_free_cycles` -/
  | cyclesFreed
  deriving DecidableEq

/-- Does a script hold an object? -/
def State.holds (s : State) (o : ℕ) : Prop := (.root, o) ∈ s.refs

instance (s : State) (o : ℕ) : Decidable (s.holds o) := inferInstanceAs (Decidable (_ ∈ _))

/-- Is the object a weak collection? -/
def State.isMap (s : State) (m : ℕ) : Bool := (s.object m).any JSObject.isMap

def State.newObject (s : State) (isMap : Bool) : State :=
  { s with
    object := fun q => if q = s.nextObject then some ⟨isMap, [], [], [], false⟩ else s.object q
    nextObject := s.nextObject + 1 }.dup .root s.nextObject

/-- A step of a script: nothing is being freed. -/
def State.script (s : State) : Op → Option State
  | .newObject isMap => some (s.newObject isMap)
  | .getField p o => if s.holds p ∧ (.field p, o) ∈ s.refs then some (s.dup .root o) else none
  | .setField p o => if s.holds p ∧ s.holds o then some (s.dup (.field p) o) else none
  | .dropField p o =>
    if s.holds p ∧ (.field p, o) ∈ s.refs then some (s.release (.field p, o)) else none
  | .drop o => if s.holds o then some (s.release (.root, o)) else none
  | .mapGet m k =>
    if s.holds m ∧ s.isMap m ∧ s.holds k then
      some (((s.findRecord m k).bind s.value).elim s (s.dup .root))
    else none
  | .mapSet m k v =>
    if s.holds m ∧ s.isMap m ∧ s.holds k ∧ ∀ o ∈ v, s.holds o then some (s.mapSet m k v) else none
  | .mapDelete m k => if s.holds m ∧ s.isMap m ∧ s.holds k then some (s.mapDelete m k) else none
  | .runGC order =>
    if order.Perm s.unmarked then some { s with tmpObjList := order, phase := .removeCycles } else none
  | _ => none

/-- One step, if it can be made. -/
def State.step (s : State) (op : Op) : Option State :=
  match s.phase with
  | .none => s.script op
  | .decref =>
    match op, s.gcZeroRefCountList with
    | .freeZero, p :: _ => some (s.freeObject p)
    | .zeroFreed, [] => some { s with phase := .none }.resume
    | _, _ => none
  | .removeCycles =>
    match op, s.tmpObjList with
    | .freeCycle, p :: _ => some (s.freeObject p)
    | .cyclesFreed, [] =>
      some { s with
        object := fun q => if q ∈ s.gcZeroRefCountList then none else s.object q
        gcZeroRefCountList := []
        phase := .none }
    | _, _ => none

end QuickJs.Weak
