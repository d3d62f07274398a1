import QuickJs.Atom

/-!
# The atom table

`Table` is the representation invariant of the atom table: every bucket is a
chain of exactly the interned atoms that hash to it, the free entries form a
chain, and no two interned atoms of one type have the same characters. Each
operation of the table keeps it.
-/

namespace QuickJs.Atom

open HashChain JSRuntime

/-! ## What the table sees of a string -/

/-- A string without its reference count. -/
def JSString.core (str : JSString) : JSString := { str with refCount := 0 }

variable {a b str : JSString} {p : Ptr} {i : ℕ}

theorem chars_of_core (h : a.core = b.core) : a.chars = b.chars :=
  (congrArg JSString.chars h :)

theorem type_of_core (h : a.core = b.core) : a.atomType = b.atomType :=
  (congrArg JSString.atomType h :)

theorem hash_of_core (h : a.core = b.core) : a.hash = b.hash :=
  (congrArg JSString.hash h :)

theorem hashNext_of_core (h : a.core = b.core) : a.hashNext = b.hashNext :=
  (congrArg JSString.hashNext h :)

/-- What is at `p` if that is an atom, reference count aside. -/
def JSRuntime.view (s : JSRuntime) (p : Ptr) : Option JSString :=
  ((s.mem p).filter fun str => str.atomType ≠ .none).map JSString.core

theorem view_eq_some {s : JSRuntime} {c : JSString} :
    s.view p = some c ↔ ∃ str, s.mem p = some str ∧ str.atomType ≠ .none ∧ str.core = c := by
  simp only [view, Option.map_eq_some_iff, Option.filter_eq_some_iff, decide_eq_true_eq, and_assoc]

theorem view_of_mem {s : JSRuntime} (h : s.mem p = some str)
    (ht : str.atomType ≠ .none) : s.view p = some str.core := view_eq_some.mpr ⟨str, h, ht, rfl⟩

/-- The chain of the bucket `b` visits `l`, the interned atoms that hash to it. -/
structure Bucket (s : JSRuntime) (b : ℕ) (l : List ℕ) : Prop where
  chain : IsChain s.hashNextOf (s.atomHash b) l
  nodup : l.Nodup
  mem : ∀ i, i ∈ l ↔ ∃ str, s.atom i = some str ∧ str.atomType.hashed ∧ s.bucket str.hash = b

/-- The free entries reachable from `atomFreeIndex`. -/
structure FreeList (s : JSRuntime) (l : List ℕ) : Prop where
  chain : IsChain s.atomGetFree s.atomFreeIndex l
  nodup : l.Nodup
  free : ∀ i ∈ l, (∃ n, s.atomArray i = .free n) ∧ i < s.atomSize

/-- The representation invariant of the atom table. -/
structure Table (s : JSRuntime) : Prop where
  hashSize : 0 < s.atomHashSize
  sizeMax : s.atomSize ≤ jsAtomMax
  buckets : ∀ b, ∃ l, Bucket s b l
  freeList : ∃ l, FreeList s l
  used : ∀ i p, s.atomArray i = .used p →
    0 < i ∧ i < s.atomSize ∧ ∃ str, s.mem p = some str ∧ str.atomType ≠ .none
  inj : ∀ i j p, s.atomArray i = .used p → s.atomArray j = .used p → i = j
  registered : ∀ p str, s.mem p = some str → str.atomType ≠ .none → ∃ i, s.atomArray i = .used p
  symbol : ∀ i str, s.atom i = some str → str.atomType = .symbol → str.hashNext = i
  hash : ∀ i str, s.atom i = some str → str.atomType.hashed → str.hash = atomHashOf str.atomType str.chars
  canonical : ∀ i j a b, s.atom i = some a → s.atom j = some b → a.atomType.hashed →
    a.atomType = b.atomType → a.chars = b.chars → i = j
  numeric : ∀ i str, s.atom i = some str → str.atomType = .string →
    ∀ n, isNumString str.chars = some n → jsAtomMaxInt < n

variable {s s' : JSRuntime}

theorem atom_eq_some : s.atom i = some str ↔ ∃ p, s.atomArray i = .used p ∧ s.mem p = some str := by
  unfold JSRuntime.atom
  cases s.atomArray i <;> simp

theorem Table.atom_ne_none (ht : Table s) (hi : s.atom i = some str) : str.atomType ≠ .none := by
  obtain ⟨p, hp, hstr⟩ := atom_eq_some.mp hi
  obtain ⟨-, -, str', hstr', htype⟩ := ht.used i p hp
  obtain rfl := Option.some.inj (hstr.symm.trans hstr')
  exact htype

theorem Table.atom_lt (ht : Table s) (hi : s.atom i = some str) : 0 < i ∧ i < s.atomSize := by
  obtain ⟨p, hp, -⟩ := atom_eq_some.mp hi
  exact ⟨(ht.used i p hp).1, (ht.used i p hp).2.1⟩

theorem Bucket.length_le (ht : Table s) {b : ℕ} {l : List ℕ} (hb : Bucket s b l) : l.length ≤ s.atomSize :=
  length_le_of_lt hb.nodup fun i hi => by
    obtain ⟨str, hstr, -⟩ := (hb.mem i).mp hi
    exact (ht.atom_lt hstr).2

/-- Every interned atom is in its bucket. -/
theorem Table.mem_bucket (ht : Table s) (hi : s.atom i = some str)
    (hh : str.atomType.hashed) : ∃ l, Bucket s (s.bucket str.hash) l ∧ i ∈ l := by
  obtain ⟨l, hl⟩ := ht.buckets (s.bucket str.hash)
  exact ⟨l, hl, (hl.mem i).mpr ⟨str, hi, hh, rfl⟩⟩

theorem hashNextOf_of_atom (hi : s.atom i = some str) :
    s.hashNextOf i = str.hashNext := by simp [hashNextOf, hi]

/-! ## Changes outside the table -/

/-- `s` and `s'` have the same atoms: they may differ in reference counts and in
the strings that are not atoms. -/
structure SameAtoms (s s' : JSRuntime) : Prop where
  array : s'.atomArray = s.atomArray
  size : s'.atomSize = s.atomSize
  freeIndex : s'.atomFreeIndex = s.atomFreeIndex
  hash : s'.atomHash = s.atomHash
  hashSize : s'.atomHashSize = s.atomHashSize
  view : ∀ p, s'.view p = s.view p

/-- An atom of `s'` is an atom of `s` with the same core. -/
theorem SameAtoms.mem_back (h : SameAtoms s s') {str' : JSString}
    (hp : s'.mem p = some str') (ht : str'.atomType ≠ .none) :
    ∃ str, s.mem p = some str ∧ str.atomType ≠ .none ∧ str.core = str'.core :=
  view_eq_some.mp ((h.view p).symm.trans (view_of_mem hp ht))

theorem SameAtoms.symm (h : SameAtoms s s') : SameAtoms s' s :=
  ⟨h.array.symm, h.size.symm, h.freeIndex.symm, h.hash.symm, h.hashSize.symm, fun p => (h.view p).symm⟩

theorem SameAtoms.atom_forward (h : SameAtoms s s') (ht : Table s)
    (hi : s.atom i = some str) : ∃ str', s'.atom i = some str' ∧ str'.core = str.core := by
  obtain ⟨p, hp, hstr⟩ := atom_eq_some.mp hi
  obtain ⟨str', hstr', -, hcore⟩ := h.symm.mem_back hstr (ht.atom_ne_none hi)
  exact ⟨str', atom_eq_some.mpr ⟨p, h.array ▸ hp, hstr'⟩, hcore⟩

/-- The table only depends on the atoms. -/
theorem Table.of_sameAtoms (ht : Table s) (h : SameAtoms s s') : Table s' := by
  have hused : ∀ i p, s'.atomArray i = .used p →
      0 < i ∧ i < s'.atomSize ∧ ∃ str, s'.mem p = some str ∧ str.atomType ≠ .none := by
    intro i p hp
    obtain ⟨h0, hlt, str, hstr, htype⟩ := ht.used i p (h.array ▸ hp)
    obtain ⟨str', hstr', htype', -⟩ := h.symm.mem_back hstr htype
    exact ⟨h0, h.size ▸ hlt, str', hstr', htype'⟩
  have hback : ∀ {i str'}, s'.atom i = some str' → ∃ str, s.atom i = some str ∧ str.core = str'.core := by
    intro i str' hi
    obtain ⟨p, hp, hstr'⟩ := atom_eq_some.mp hi
    obtain ⟨-, -, str'', hstr'', htype⟩ := hused i p hp
    obtain rfl := Option.some.inj (hstr'.symm.trans hstr'')
    obtain ⟨str, hstr, -, hcore⟩ := h.mem_back hstr' htype
    exact ⟨str, atom_eq_some.mpr ⟨p, h.array ▸ hp, hstr⟩, hcore⟩
  have hbucket : ∀ n, s'.bucket n = s.bucket n := fun n => by rw [bucket, bucket, h.hashSize]
  refine ⟨h.hashSize ▸ ht.hashSize, h.size ▸ ht.sizeMax, fun b => ?_, ?_, hused,
    fun i j p hi hj => ht.inj i j p (h.array ▸ hi) (h.array ▸ hj), fun p str hp htype => ?_,
    fun i str hi htype => ?_, fun i str hi htype => ?_, fun i j a b ha hb htype heq hchars => ?_,
    fun i str hi htype => ?_⟩
  · obtain ⟨l, hl⟩ := ht.buckets b
    refine ⟨l, h.hash ▸ hl.chain.congr fun i hi => ?_, hl.nodup, fun i => ?_⟩
    · obtain ⟨str, hstr, -⟩ := (hl.mem i).mp hi
      obtain ⟨str', hstr', hcore⟩ := h.atom_forward ht hstr
      rw [hashNextOf_of_atom hstr, hashNextOf_of_atom hstr', hashNext_of_core hcore]
    · rw [hl.mem i]
      constructor
      · rintro ⟨str, hstr, hh, hb⟩
        obtain ⟨str', hstr', hcore⟩ := h.atom_forward ht hstr
        exact ⟨str', hstr', type_of_core hcore ▸ hh, by rw [hbucket, hash_of_core hcore, hb]⟩
      · rintro ⟨str', hstr', hh, hb⟩
        obtain ⟨str, hstr, hcore⟩ := hback hstr'
        exact ⟨str, hstr, type_of_core hcore ▸ hh, by rw [← hbucket, hash_of_core hcore, hb]⟩
  · obtain ⟨l, hl⟩ := ht.freeList
    refine ⟨l, ?_, hl.nodup, fun i hi => ?_⟩
    · have hget : s'.atomGetFree = s.atomGetFree := by
        funext i
        rw [atomGetFree, atomGetFree, h.array]
      rw [hget, h.freeIndex]
      exact hl.chain
    · rw [h.array, h.size]
      exact hl.free i hi
  · obtain ⟨str', hstr', htype', -⟩ := h.mem_back hp htype
    rw [h.array]
    exact ht.registered p str' hstr' htype'
  · obtain ⟨str', hstr', hcore⟩ := hback hi
    rw [← hashNext_of_core hcore]
    exact ht.symbol i str' hstr' ((type_of_core hcore).trans htype)
  · obtain ⟨str', hstr', hcore⟩ := hback hi
    rw [← hash_of_core hcore, ← type_of_core hcore, ← chars_of_core hcore]
    exact ht.hash i str' hstr' (type_of_core hcore ▸ htype)
  · obtain ⟨a', ha', hacore⟩ := hback ha
    obtain ⟨b', hb', hbcore⟩ := hback hb
    refine ht.canonical i j a' b' ha' hb' (type_of_core hacore ▸ htype) ?_ ?_
    · rw [type_of_core hacore, heq, type_of_core hbcore]
    · rw [chars_of_core hacore, hchars, chars_of_core hbcore]
  · obtain ⟨str', hstr', hcore⟩ := hback hi
    rw [← chars_of_core hcore]
    exact ht.numeric i str' hstr' ((type_of_core hcore).trans htype)

/-- Changing memory at `p` leaves the atoms alone if it keeps the view of `p`. -/
theorem sameAtoms_setMem {str : Option JSString}
    (h : (s.setMem p str).view p = s.view p) : SameAtoms s (s.setMem p str) := by
  refine ⟨rfl, rfl, rfl, rfl, rfl, fun q => ?_⟩
  by_cases hq : q = p
  · rw [hq]
    exact h
  · simp [view, setMem, hq]

/-- Changing the string at `p` leaves the atoms alone if it keeps the core of an
atom, and makes no atom of another string. -/
theorem sameAtoms_modify {f : JSString → JSString}
    (hnone : ∀ str, s.mem p = some str → str.atomType = .none → (f str).atomType = .none)
    (hcore : ∀ str, s.mem p = some str → str.atomType ≠ .none → (f str).core = str.core) :
    SameAtoms s (s.modify p f) := by
  refine sameAtoms_setMem ?_
  simp only [view, setMem, Function.update_self]
  cases hp : s.mem p with
  | none => rfl
  | some str =>
    by_cases htype : str.atomType = .none
    · simp [Option.filter, htype, hnone str hp htype]
    · have hc := hcore str hp htype
      simp [Option.filter, htype, type_of_core hc, hc]

theorem sameAtoms_incRef (p : Ptr) : SameAtoms s (s.incRef p) :=
  sameAtoms_modify (fun _ _ h => h) fun _ _ _ => rfl

theorem sameAtoms_decRef (p : Ptr) : SameAtoms s (s.decRef p) :=
  sameAtoms_modify (fun _ _ h => h) fun _ _ _ => rfl

end QuickJs.Atom
