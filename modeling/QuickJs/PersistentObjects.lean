import QuickJs.StorageIndex

/-!
# Persistent objects and closed storages

Persistent objects, the entries of the object cache and the iterators of indexes have plain pointers to
a storage, and closing a storage frees it. To close one is not a single step: the final commit goes
through the object cache, and while it stores an object, objects are freed and scripts run.
-/

namespace QuickJs.Persistent

open Storage (calculateHashCode)

/-! ## The state -/

/-- `JS_PERSISTENT_STATUS` of a persistent object. -/
inductive Status
  | dormant
  | loaded
  | modified
  deriving DecidableEq

/-- `JSPersitentBlock`. Blocks have numbers, since there are pointers to them. -/
structure JSPersitentBlock where
  number : ℕ
  storage : ℕ
  oid : ℕ
  status : Status
  deriving DecidableEq

/-- `JSObject`: an object, an array or an index. -/
structure JSObject where
  persistent : Option JSPersitentBlock
  deriving DecidableEq

/-- An entry of `oid2obj`. -/
structure Entry where
  hash : ℕ
  /-- The key points into a block, or into a stack frame that has been left. -/
  key : Option ℕ
  obj : ℕ
  deriving DecidableEq

/-- `JSStorage`. -/
structure JSStorage where
  /-- none is `JS_NULL` -/
  root : Option ℕ
  /-- the chains of the hash table, as one; the newest entry of a chain is the first -/
  oid2obj : List Entry
  deriving DecidableEq

/-- A call of `free_storage` that has not returned, and what is left of the table that
`final_commit_storage` goes through. -/
structure Frame where
  storage : ℕ
  pending : List Entry
  deriving DecidableEq

structure State where
  /-- none is an object that has been freed, or is to come -/
  object : ℕ → Option JSObject
  /-- none is a record that has been freed, or is to come -/
  storage : ℕ → Option JSStorage
  /-- `pst` of the iterators -/
  iterator : ℕ → Option ℕ
  /-- the innermost call first -/
  frames : List Frame
  /-- the next number of anything -/
  next : ℕ
  /-- the storages that have been opened -/
  opened : List ℕ
  /-- how often a record has been freed -/
  freed : ℕ → ℕ
  /-- the storages that no script can reach any more -/
  dead : List ℕ
  /-- An assertion has failed, or freed memory has been used. -/
  fault : Bool

/-- What keys read as that point to freed memory. -/
abbrev Memory := Entry → ℕ

def State.initial : State where
  object _ := none
  storage _ := none
  iterator _ := none
  frames := []
  next := 0
  opened := []
  freed _ := 0
  dead := []
  fault := false

def State.Alive (s : State) (o : ℕ) : Prop := (s.object o).isSome

def State.Open (s : State) (st : ℕ) : Prop := (s.storage st).isSome

instance (s : State) (o : ℕ) : Decidable (s.Alive o) := inferInstanceAs (Decidable (Option.isSome _ = true))

instance (s : State) (st : ℕ) : Decidable (s.Open st) := inferInstanceAs (Decidable (Option.isSome _ = true))

/-- The storages that are being closed. -/
def State.closing (s : State) : List ℕ := s.frames.map Frame.storage

/-- The block of an object. -/
def State.block (s : State) (o : ℕ) : Option JSPersitentBlock := (s.object o).bind JSObject.persistent

/-- The entries of the cache of a storage. -/
def State.cache (s : State) (st : ℕ) : List Entry := (s.storage st).elim [] JSStorage.oid2obj

def State.setObject (s : State) (o : ℕ) (ob : Option JSObject) : State :=
  { s with object := fun q => if q = o then ob else s.object q }

def State.setStorage (s : State) (st : ℕ) (S : Option JSStorage) : State :=
  { s with storage := fun t => if t = st then S else s.storage t }

/-- The entries of the cache of a storage are changed. -/
def State.setCache (s : State) (st : ℕ) (es : List Entry) : State :=
  s.setStorage st ((s.storage st).map fun S => { S with oid2obj := es })

def State.fail (s : State) : State := { s with fault := true }

/-- The record of a storage is used. -/
def State.touch (s : State) (st : ℕ) : State := if s.Open st then s else s.fail

/-! ## The cache -/

/-- What the key of an entry reads as. -/
def State.read (s : State) (mem : Memory) (e : Entry) : ℕ :=
  ((s.block e.obj).filter fun b => e.key = some b.number).elim (mem e) JSPersitentBlock.oid

/-- The comparison of an entry with an identifier. -/
def State.hits (s : State) (mem : Memory) (oid : ℕ) (e : Entry) : Bool :=
  e.hash = calculateHashCode oid ∧ s.read mem e = oid

/-- `hashtable_put`. -/
def State.hashtablePut (s : State) (st : ℕ) (e : Entry) : State := s.setCache st (e :: s.cache st)

/-- `hashtable_remove`. -/
def State.hashtableRemove (s : State) (mem : Memory) (st oid : ℕ) : State :=
  s.setCache st ((s.cache st).eraseP (s.hits mem oid))

/-- The order in which `hashtable_each` visits the entries: the last chain first. -/
def eachOrder (es : List Entry) : List Entry :=
  es.insertionSort fun e e' => e'.hash % 1013 ≤ e.hash % 1013

/-! ## Persistent objects -/

/-- `js_set_persistent` for an object that has no block. -/
def State.setPersistent (s : State) (o st oid : ℕ) (status : Status) : State :=
  { s.setObject o (some ⟨some ⟨s.next, st, oid, status⟩⟩) with next := s.next + 1 }

/-- `js_set_persistent` with `JS_NOT_PERSISTENT`. -/
def State.setNotPersistent (s : State) (o : ℕ) : State := s.setObject o (some ⟨none⟩)

/-- `js_set_persistent_status`. -/
def State.setStatus (s : State) (o : ℕ) (status : Status) : State :=
  s.setObject o ((s.object o).map fun ob => ⟨ob.persistent.map fun b => { b with status := status }⟩)

/-- An object becomes persistent, and gets an entry whose key is in its block. -/
def State.bind (s : State) (o st oid : ℕ) (status : Status) : State :=
  (s.setPersistent o st oid status).hashtablePut st ⟨calculateHashCode oid, some s.next, o⟩

/-- `JS_NewObject`. -/
def State.newObject (s : State) : State := { s.setObject s.next (some ⟨none⟩) with next := s.next + 1 }

/-- `db_store_entity`. The properties that are objects have become persistent before. -/
def State.storeEntity (s : State) (st o : ℕ) : State :=
  match s.block o with
  | some b => if b.status = .modified then (s.touch st).setStatus o .dormant else s
  | none => s

/-- `db_persist_entity`, which gets a new identifier. -/
def State.persistEntity (s : State) (mem : Memory) (st o oid : ℕ) : State :=
  match s.block o with
  | none => (s.touch st).bind o st oid .modified
  | some b =>
    if b.storage = st then s
    else
      let s := (s.touch b.storage).storeEntity b.storage o
      let s := (s.hashtableRemove mem b.storage b.oid).setNotPersistent o
      (s.touch st).bind o st oid .modified

/-- `db_load_object` with `db_fetch_object`, or `db_load_index`. -/
def State.loadObject (s : State) (mem : Memory) (st oid : ℕ) (index : Bool) : State :=
  let s := s.touch st
  match (s.cache st).find? (s.hits mem oid) with
  | some e => if s.Alive e.obj then s else s.fail
  | none =>
    let t := s.newObject
    if index then t.bind s.next st oid .loaded
    -- the first of two keys is in the stack frame of `db_fetch_object`
    else (t.hashtablePut st ⟨calculateHashCode oid, none, s.next⟩).bind s.next st oid .dormant

/-! ## Opening and closing -/

/-- The root of a storage is set, and held. -/
def State.holdRoot (s : State) (st o : ℕ) : State :=
  s.setStorage st ((s.storage st).map fun S => { S with root := some o })

/-- `db_storage_open`, with the identifier of the root if there is one. -/
def State.storageOpen (s : State) (root : Option ℕ) : State :=
  let st := s.next
  let t := { s.setStorage st (some ⟨none, []⟩) with opened := st :: s.opened, next := s.next + 1 }
  match root with
  | none => t
  | some oid =>
    (t.newObject.bind t.next st oid .dormant).holdRoot st t.next

/-- `db_storage_set_root`. While the storage is being closed the old root is not its own any more. -/
def State.setRoot (s : State) (mem : Memory) (st o oid : ℕ) : State :=
  if s.Open st then
    let s := if st ∈ s.closing then s.fail else s
    ((s.holdRoot st o).persistEntity mem st o oid).storeEntity st o
  else s

/-- `db_storage_get_root`. -/
def State.getRoot (s : State) (st : ℕ) : State :=
  match (s.storage st).bind JSStorage.root with
  | none => s
  | some o => if s.Alive o then s else s.fail

/-- `db_storage_create_index`. -/
def State.createIndex (s : State) (st oid : ℕ) : State :=
  if s.Open st then s.newObject.bind s.next st oid .loaded else s

/-- The beginning of `free_storage`. The root is no longer persistent, and is released. -/
def State.freeStorage (s : State) (st : ℕ) : State :=
  match s.storage st with
  | none => s
  | some S =>
    -- the root has been released before
    if st ∈ s.closing then s.fail
    else match S.root with
      -- `js_is_persitable` is asserted
      | none => s.fail
      | some o =>
        if s.Alive o then { s.setNotPersistent o with frames := ⟨st, []⟩ :: s.frames }
        else s.fail

/-- `final_commit_value`, when the properties of the object have been stored. -/
def State.finalCommitValue (s : State) (st : ℕ) (e : Entry) : State :=
  if s.Alive e.obj then (s.storeEntity st e.obj).setNotPersistent e.obj else s.fail

/-- The next thing that the innermost call of `free_storage` does: it visits an entry, goes through the
table that has come up meanwhile, or is done. -/
def State.visit (s : State) : State :=
  match s.frames with
  | [] => s
  | ⟨st, e :: es⟩ :: fs => { s.finalCommitValue st e with frames := ⟨st, es⟩ :: fs }
  | ⟨st, []⟩ :: fs =>
    let s := s.touch st
    if s.cache st = [] then
      { s.setStorage st none with
        frames := fs
        freed := fun t => if t = st then s.freed t + 1 else s.freed t }
    else { s.setCache st [] with frames := ⟨st, eachOrder (s.cache st)⟩ :: fs }

/-! ## Runs -/

/-- What happens. Objects are used at any time, also by scripts that run while a storage is being closed. -/
inductive Op
  | open (root : Option ℕ)
  /-- a script creates an object that is not persistent -/
  | newObject
  /-- none is a value that is not persistable -/
  | setRoot (st : ℕ) (val : Option ℕ) (oid : ℕ) (mem : Memory)
  | getRoot (st : ℕ)
  | createIndex (st oid : ℕ)
  /-- an object is set in an index, or is a property of an object that is being stored -/
  | attach (i o oid : ℕ) (mem : Memory)
  /-- an object is found through an index, or through an object that is being loaded -/
  | fetch (i oid : ℕ) (index : Bool) (mem : Memory)
  /-- another use of an index -/
  | use (i : ℕ)
  /-- a property is read -/
  | read (o : ℕ)
  /-- a property is written -/
  | write (o : ℕ)
  /-- an object is stored, by a commit or because it has been set -/
  | store (o : ℕ)
  /-- an iterator of an index -/
  | createIterator (i : ℕ)
  /-- none is the end -/
  | next (it : ℕ) (oid : Option ℕ) (mem : Memory)
  | freeIterator (it : ℕ)
  /-- the method `close` -/
  | close (st : ℕ)
  /-- the collector finds that a `Storage` object is garbage, or its last reference is released -/
  | collect (st : ℕ)
  /-- `js_storage_finalizer` -/
  | finalize (st : ℕ)
  | visit
  /-- an object is freed -/
  | free (o : ℕ) (mem : Memory)

/-- `js_free_persistent_object`, and the object is freed. -/
def State.freeObject (s : State) (mem : Memory) (o : ℕ) : State :=
  match s.block o with
  | none => s.setObject o none
  | some b =>
    let s := (s.touch b.storage).storeEntity b.storage o
    (s.hashtableRemove mem b.storage b.oid).setObject o none

/-- A method of a persistent object is called, with the storage; there is an exception if it is not
persistent. -/
def State.through (s : State) (i : ℕ) (f : ℕ → State) : State :=
  (s.block i).elim s fun b => f b.storage

/-- `dybase_create_index_iterator`. -/
def State.createIterator (s : State) (st : ℕ) : State :=
  let s := s.touch st
  { s with iterator := fun i => if i = s.next then some st else s.iterator i, next := s.next + 1 }

/-- `js_index_iterator_next`. -/
def State.iteratorNext (s : State) (mem : Memory) (st : ℕ) (oid : Option ℕ) : State :=
  let s := s.touch st
  oid.elim s fun oid => s.loadObject mem st oid false

/-- A property of a dormant object is used. -/
def State.loadPersistentObject (s : State) (o : ℕ) : State :=
  match s.block o with
  | some b => if b.status = .dormant then (s.touch b.storage).setStatus o .loaded else s
  | none => s

def State.apply (s : State) : Op → Option State
  | .open root => some (s.storageOpen root)
  | .newObject => some s.newObject
  -- an assertion ends the process
  | .setRoot st val oid mem => val.map fun o => s.setRoot mem st o oid
  | .getRoot st => some (s.getRoot st)
  | .createIndex st oid => some (s.createIndex st oid)
  | .attach i o oid mem => some (s.through i fun st => (s.persistEntity mem st o oid).touch st)
  | .fetch i oid index mem => some (s.through i fun st => s.loadObject mem st oid index)
  | .use i => some (s.through i s.touch)
  | .read o => some (s.loadPersistentObject o)
  | .write o => some (s.setStatus o .modified)
  | .store o => some (s.through o fun st => s.storeEntity st o)
  | .createIterator i => some (s.through i fun st => s.createIterator st)
  | .next it oid mem => (s.iterator it).map fun st => s.iteratorNext mem st oid
  | .freeIterator it => some { s with iterator := fun i => if i = it then none else s.iterator i }
  | .close st | .finalize st => some (s.freeStorage st)
  | .collect st => some { s with dead := st :: s.dead }
  | .visit => some s.visit
  | .free o mem => some (s.freeObject mem o)

/-- The `Storage` object is there for scripts. -/
def State.Reaches (s : State) (st : ℕ) : Prop := st ∈ s.opened ∧ st ∉ s.dead

/-- The object is not the root of a storage that holds it. -/
def State.Released (s : State) (o : ℕ) : Prop :=
  ∀ st < s.next, ∀ S ∈ s.storage st, S.root = some o → st ∈ s.dead ∨ st ∈ s.closing

/-- What an operation is about is there. A `Storage` object lives on while it is being closed. -/
def State.Permits (s : State) : Op → Prop
  | .open _ | .newObject | .freeIterator _ => True
  | .setRoot st val _ _ => s.Reaches st ∧ ∀ o ∈ val, s.Alive o
  | .getRoot st | .createIndex st _ | .close st => s.Reaches st
  | .attach i o _ _ => s.Alive i ∧ s.Alive o
  | .fetch i _ _ _ | .use i | .createIterator i => s.Alive i
  | .read o | .write o | .store o => s.Alive o
  | .next it _ _ => (s.iterator it).isSome
  | .collect st => s.Reaches st ∧ st ∉ s.closing
  | .finalize st => st ∈ s.dead ∧ st ∉ s.closing
  | .visit => s.frames ≠ []
  | .free o _ => s.Alive o ∧ s.Released o

instance (s : State) (st : ℕ) : Decidable (s.Reaches st) := inferInstanceAs (Decidable (_ ∧ _))

instance (s : State) (o : ℕ) : Decidable (s.Released o) :=
  inferInstanceAs (Decidable (∀ st < s.next, ∀ S ∈ s.storage st, _ → _))

instance (s : State) : (op : Op) → Decidable (s.Permits op)
  | .open _ | .newObject | .freeIterator _ => inferInstanceAs (Decidable True)
  | .setRoot _ _ _ _ | .attach _ _ _ _ | .collect _ | .finalize _ | .free _ _ =>
    inferInstanceAs (Decidable (_ ∧ _))
  | .getRoot st | .createIndex st _ | .close st => inferInstanceAs (Decidable (s.Reaches st))
  | .fetch o _ _ _ | .use o | .createIterator o | .read o | .write o | .store o =>
    inferInstanceAs (Decidable (s.Alive o))
  | .next _ _ _ => inferInstanceAs (Decidable (_ = true))
  | .visit => inferInstanceAs (Decidable (¬ _))

/-- One step, if it can be made. -/
def State.step (s : State) (op : Op) : Option State := if s.Permits op then s.apply op else none

end QuickJs.Persistent
