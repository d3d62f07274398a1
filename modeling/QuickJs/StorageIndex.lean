import QuickJs.Double
import QuickJs.Run
import QuickJs.SortedMap
import QuickJs.Utf16
import Mathlib.Data.List.Lex
import Mathlib.Data.Sum.Order

/-!
# Storage indexes

The methods of `Storage.Index` turn their arguments into typed keys and pass them to a B-tree, which
is taken to do what its interface says. Objects are found again through a cache. Its entries are
addressed by pointers to object identifiers: that in the persistent block of the object, and, for an
object that has been fetched, also that in a stack frame of `db_fetch_object`, which is left at once.
-/

namespace QuickJs.Storage

open Utf8

/-! ## Typed keys -/

/-- `dybase_type`. -/
inductive DybaseType
  | objectRef
  | arrayRef
  | indexRef
  | bool
  | int
  | date
  | real
  | chars
  | array
  | map
  | long
  | bytes
  deriving DecidableEq

/-- What the B-tree compares: numbers, and the bytes of strings. -/
inductive Key
  | num (n : ℤ)
  | chars (s : List Char)
  deriving DecidableEq

def Key.toLex : Key → ℤ ⊕ₗ List Char
  | .num n => Sum.inlₗ n
  | .chars s => Sum.inrₗ s

theorem Key.toLex_injective : Function.Injective Key.toLex := by
  intro a b h
  cases a <;> cases b <;> cases h <;> rfl

instance : LinearOrder Key := LinearOrder.lift' Key.toLex Key.toLex_injective

/-- `db_triplet`: a type, and a key unless the pointer is null. -/
structure Triplet where
  type : DybaseType
  key : Option Key
  deriving DecidableEq

/-- A value that is given as a key. -/
inductive KeyValue
  | int (i : Int32)
  | float64 (d : UInt64)
  | bigInt (n : ℤ)
  | bool (b : Bool)
  /-- `null` or `undefined` -/
  | nullish
  | string (s : List UInt16)
  /-- none is an invalid date -/
  | date (ms : Option ℤ)
  /-- a plain object, with its identifier if it is in the storage -/
  | object (oid : Option ℕ)
  | array (oid : Option ℕ)
  | index (oid : ℕ)
  | arrayBuffer (bytes : List Char)
  /-- a value that `db_transform` does not handle: the type is what was in memory -/
  | other (type : DybaseType)
  deriving DecidableEq

/-- The place of a double among the doubles. -/
def rank (d : UInt64) : ℤ :=
  if d.toNat < 2 ^ 63 then Double.magnitude d else -Double.magnitude d

/-- A number as a double: 53 bits are kept, and of two doubles as near the even one is taken. -/
def roundNat (n : ℕ) : ℕ :=
  let e := n.log2 - 52
  let q := n / 2 ^ e
  let r := n % 2 ^ e
  if 2 * r < 2 ^ e ∨ 2 * r = 2 ^ e ∧ q % 2 = 0 then q * 2 ^ e else (q + 1) * 2 ^ e

def roundDouble (n : ℤ) : ℤ := if n < 0 then -roundNat n.natAbs else roundNat n.natAbs

/-- A double as an `int64_t`; one that does not fit, or a NaN, is the least integer. -/
def toInt64 (x : ℤ) : ℤ := if -2 ^ 63 ≤ x ∧ x < 2 ^ 63 then x else -2 ^ 63

/-- A 64-bit integer that has run over. -/
def wrap (x : ℤ) : ℤ := Int.bmod x (2 ^ 64)

/-- The key of a date. -/
def dateKey (ms : Option ℤ) : ℤ :=
  wrap (ms.elim (-2 ^ 63) (fun ms => toInt64 (roundDouble (ms * 10000))) + 116444736000000)

/-- `dbMaxKeyLen`. -/
def dbMaxKeyLen : ℕ := 2040

/-! ## The state -/

/-- An entry of `oid2obj`. -/
structure Entry where
  hash : ℕ
  /-- The key is in a stack frame that has been left, and not in the block of the object. -/
  stack : Bool
  obj : ℕ
  deriving DecidableEq

/-- What a call returns. An object is given by the identifier in its block; none is an object that
has been freed. -/
inductive Result
  | undefined
  | bool (b : Bool)
  | int (n : ℕ)
  | object (oid : Option ℕ)
  | objects (oids : List (Option ℕ))
  | typeError
  | exception
  /-- freed memory has been read -/
  | freed
  deriving DecidableEq

/-- A storage with an index. Objects are numbered as they become persistent or are fetched. -/
structure State where
  type : DybaseType
  index : SortedMap Key ℕ
  nextOid : ℕ
  nextObject : ℕ
  /-- the objects with a persistent block, and their identifiers -/
  persistent : List (ℕ × ℕ)
  /-- the chains of the hash table, as one; the newest entry of a chain is the first -/
  oid2obj : List Entry
  /-- what the calls have returned, the latest first -/
  results : List Result

/-- What the dead stack keys of entries read as. -/
abbrev Memory := ℕ → ℕ

/-- The identifier in the block of an object. -/
def State.oidOf (s : State) (o : ℕ) : Option ℕ := (s.persistent.find? (·.1 = o)).map Prod.snd

/-- Is there an object with the identifier? -/
def State.holds (s : State) (oid : ℕ) : Bool := s.persistent.any (·.2 = oid)

/-! ## The cache -/

/-- `calculateHashCode` for the four bytes of an identifier. -/
def calculateHashCode (oid : ℕ) : ℕ :=
  [oid % 256, oid / 256 % 256, oid / 65536 % 256, oid / 16777216 % 256].foldl (fun h b => h * 4 ^^^ b) 0

/-- What the key of an entry reads as. -/
def State.read (s : State) (mem : Memory) (e : Entry) : ℕ :=
  if e.stack then mem e.obj else (s.oidOf e.obj).getD (mem e.obj)

/-- The comparison of an entry with an identifier. -/
def State.hits (s : State) (mem : Memory) (oid : ℕ) (e : Entry) : Bool :=
  e.hash = calculateHashCode oid ∧ s.read mem e = oid

/-- `hashtable_get`. -/
def State.hashtableGet (s : State) (mem : Memory) (oid : ℕ) : Option ℕ :=
  (s.oid2obj.find? (s.hits mem oid)).map Entry.obj

/-- `hashtable_put`. -/
def State.hashtablePut (s : State) (oid : ℕ) (stack : Bool) (o : ℕ) : State :=
  { s with oid2obj := ⟨calculateHashCode oid, stack, o⟩ :: s.oid2obj }

/-- `hashtable_remove`. -/
def State.hashtableRemove (s : State) (mem : Memory) (oid : ℕ) : State :=
  { s with oid2obj := s.oid2obj.eraseP (s.hits mem oid) }

/-- `js_set_persistent` for an object without a block, which gets a number. -/
def State.setPersistent (s : State) (oid : ℕ) : State :=
  { s with persistent := (s.nextObject, oid) :: s.persistent, nextObject := s.nextObject + 1 }

/-- `db_persist_entity`. -/
def State.persistEntity (s : State) (oid : Option ℕ) : State × ℕ :=
  match oid with
  | some oid => (s, oid)
  | none =>
    let t := ({ s with nextOid := s.nextOid + 1 }.setPersistent s.nextOid)
    (t.hashtablePut s.nextOid false s.nextObject, s.nextOid)

/-- `db_load_object`, with `db_fetch_object`. -/
def State.loadObject (s : State) (mem : Memory) (oid : ℕ) : State × ℕ :=
  match s.hashtableGet mem oid with
  | some o => (s, o)
  | none =>
    let t := (s.setPersistent oid).hashtablePut oid true s.nextObject
    (t.hashtablePut oid false s.nextObject, s.nextObject)

/-- Objects are loaded one after the other. -/
def State.loadObjects (s : State) (mem : ℕ → Memory) : List ℕ → State × List (Option ℕ)
  | [] => (s, [])
  | oid :: oids =>
    let (t, o) := s.loadObject (mem 0) oid
    let (u, os) := t.loadObjects (fun i => mem (i + 1)) oids
    (u, t.oidOf o :: os)

/-! ## The B-tree -/

def Key.tooLong : Key → Bool
  | .num _ => false
  | .chars s => dbMaxKeyLen < s.length

/-- `dybase_insert_in_index`. A null pointer to a string is read as an empty one. -/
def State.insertInIndex (s : State) (t : Triplet) (oid : ℕ) (replace : Bool) : State × Bool :=
  let key := t.key.getD (.chars [])
  if t.type ≠ s.type ∨ key.tooLong = true then (s, false)
  else ({ s with index := (s.index.set key oid replace).1 }, (s.index.set key oid replace).2)

/-- `dybase_index_search`. -/
def State.indexSearch (s : State) (type : DybaseType) (lo hi : Option Key) : List ℕ :=
  if type ≠ s.type ∧ (lo.isSome ∨ hi.isSome) then []
  else s.index.select (lo.map (·, true)) (hi.map (·, true)) true

/-- `dybase_create_index_iterator`, with all that the iterator then yields. -/
def State.indexIterator (s : State) (type : DybaseType) (lo hi : SortedMap.Bound Key) (ascent : Bool) :
    Option (List ℕ) :=
  if s.index.entries = [] then some []
  else if type ≠ s.type ∧ (lo.isSome ∨ hi.isSome) then none
  else some (s.index.select lo hi ascent)

/-! ## The methods -/

/-- `db_transform`. -/
def State.transform (s : State) : KeyValue → State × Triplet
  | .int i => (s, ⟨.int, some (.num i.toInt)⟩)
  | .bigInt n => (s, ⟨.long, some (.num (wrap n))⟩)
  | .bool b => (s, ⟨.bool, some (.num b.toNat)⟩)
  | .nullish => (s, ⟨.chars, none⟩)
  | .float64 d => (s, ⟨.real, some (.num (rank d))⟩)
  | .string x => (s, ⟨.chars, some (.chars (jsToCString x))⟩)
  | .array oid =>
    let (t, oid) := s.persistEntity oid
    (t, ⟨.arrayRef, some (.num oid)⟩)
  | .index oid => (s, ⟨.indexRef, some (.num oid)⟩)
  | .arrayBuffer bytes => (s, ⟨.bytes, some (.chars bytes)⟩)
  | .object oid =>
    let (t, oid) := s.persistEntity oid
    (t, ⟨.objectRef, some (.num oid)⟩)
  | .date ms => (s, ⟨.date, some (.num (dateKey ms))⟩)
  | .other type => (s, ⟨type, if type = .chars ∨ type = .bytes then none else some (.num 0)⟩)

/-- The second argument of `set`. -/
inductive Item
  | notPlain
  /-- a plain object, with its identifier if it is in the storage -/
  | plain (oid : Option ℕ)
  deriving DecidableEq

/-- `db_index_get`. -/
def State.indexGet (s : State) (key : KeyValue) (mem : ℕ → Memory) : State × Result :=
  let (s, t) := s.transform key
  let selected := s.indexSearch t.type t.key t.key
  if s.index.unique then
    match selected with
    | [] => (s, .undefined)
    | oid :: _ =>
      let (u, o) := s.loadObject (mem 0) oid
      (u, .object (u.oidOf o))
  else
    let (u, os) := s.loadObjects mem selected
    (u, .objects os)

/-- `db_index_set`. The method is declared with two arguments, so that a third one which is missing is
read from behind the arguments. -/
def State.indexSet (s : State) (key : KeyValue) (item : Item) (replace : Option Bool) (behind : Bool) :
    State × Result :=
  match item with
  | .notPlain => (s, .typeError)
  | .plain oid =>
    let (s, oid) := s.persistEntity oid
    let (s, t) := s.transform key
    let (s, done) := s.insertInIndex t oid (replace.getD behind)
    (s, .bool done)

/-- `db_index_delete`. -/
def State.indexDelete (s : State) : State × Result := (s, .undefined)

/-- `db_index_clear`. -/
def State.indexClear (s : State) : State × Result := ({ s with index := s.index.clear }, .undefined)

/-- `db_index_get_length`. -/
def State.indexGetLength (s : State) : State × Result := (s, .int (s.indexSearch s.type none none).length)

/-- What an iterator yields; none is an exception. -/
def State.yield (s : State) (mem : ℕ → Memory) : Option (List ℕ) → State × Result
  | none => (s, .exception)
  | some oids =>
    let (u, os) := s.loadObjects mem oids
    (u, .objects os)

/-- `db_index_select`. The B-tree is given the type of the start alone, and reads an end of another type
as if it were one of its own. -/
def State.indexSelect (s : State) (start stop : KeyValue)
    (ascending startInclusive endInclusive : Option Bool) (misread : Key) (mem : ℕ → Memory) :
    State × Result :=
  let (s, lo) := s.transform start
  let (s, hi) := s.transform stop
  let hiKey := if hi.type = s.type then hi.key else hi.key.map fun _ => misread
  s.yield mem (s.indexIterator lo.type (lo.key.map (·, startInclusive.getD true))
    (hiKey.map (·, endInclusive.getD true)) (ascending.getD true))

/-- `db_create_index_iterator`. -/
def State.createIndexIterator (s : State) (mem : ℕ → Memory) : State × Result :=
  s.yield mem (s.indexIterator s.type none none true)

/-! ## Runs -/

inductive Op
  | set (key : KeyValue) (item : Item) (replace : Option Bool) (behind : Bool)
  | get (key : KeyValue) (mem : ℕ → Memory)
  | delete (key : KeyValue) (oid : Option ℕ)
  | clear
  | length
  | select (start stop : KeyValue) (ascending startInclusive endInclusive : Option Bool)
    (misread : Key) (mem : ℕ → Memory)
  | iterate (mem : ℕ → Memory)
  /-- an object elsewhere in the storage becomes persistent -/
  | persist
  /-- a script reads an object elsewhere in the storage -/
  | load (oid : ℕ) (mem : Memory)
  /-- an object is freed -/
  | free (oid : ℕ) (mem : Memory)
  | commit
  /-- the storage is closed and opened again -/
  | reopen

/-- A storage with a new index. -/
def State.initial (type : DybaseType) (unique : Bool) : State where
  type := type
  index := .empty unique
  nextOid := 1
  nextObject := 0
  persistent := []
  oid2obj := []
  results := []

/-- All entries of the cache have objects that have not been freed. -/
def State.intact (s : State) : Bool := s.oid2obj.all fun e => (s.oidOf e.obj).isSome

/-- `js_free_persistent_object`. -/
def State.freePersistentObject (s : State) (mem : Memory) (oid : ℕ) : State :=
  let s := s.hashtableRemove mem oid
  { s with persistent := s.persistent.filter (·.2 ≠ oid) }

/-- The call, and what it returns. -/
def State.call (s : State) : Op → State × Result
  | .set key item replace behind => s.indexSet key item replace behind
  | .get key mem => s.indexGet key mem
  | .delete _ _ => s.indexDelete
  | .clear => s.indexClear
  | .length => s.indexGetLength
  | .select start stop ascending startInclusive endInclusive misread mem =>
    s.indexSelect start stop ascending startInclusive endInclusive misread mem
  | .iterate mem => s.createIndexIterator mem
  | .persist => ((s.persistEntity none).1, .undefined)
  | .load oid mem =>
    let (t, o) := s.loadObject mem oid
    (t, .object (t.oidOf o))
  | .free oid mem => (s.freePersistentObject mem oid, .undefined)
  -- the callbacks of both visit all entries
  | .commit => (s, if s.intact then .undefined else .freed)
  | .reopen => ({ s with persistent := [], oid2obj := [] }, if s.intact then .undefined else .freed)

/-- The objects that an operation names are there. -/
def State.Permits (s : State) : Op → Prop
  | .set _ (.plain (some oid)) _ _ => s.holds oid
  | .load oid _ => oid < s.nextOid
  | .free oid _ => s.holds oid
  | _ => True

instance (s : State) : (op : Op) → Decidable (s.Permits op)
  | .set _ (.plain (some oid)) _ _ | .free oid _ => inferInstanceAs (Decidable (s.holds oid))
  | .load oid _ => inferInstanceAs (Decidable (oid < s.nextOid))
  | .set _ .notPlain _ _ | .set _ (.plain none) _ _ | .get _ _ | .delete _ _ | .clear | .length
  | .select _ _ _ _ _ _ _ | .iterate _ | .persist | .commit | .reopen => inferInstanceAs (Decidable True)

/-- One step, if it can be made. -/
def State.step (s : State) (op : Op) : Option State :=
  if s.Permits op then
    let (t, r) := s.call op
    some { t with results := r :: t.results }
  else none

end QuickJs.Storage
