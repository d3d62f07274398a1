import QuickJs.PersistentObjects

/-!
# Pointers to open storages

Every persistent object has an entry in the cache of its storage, or in a table that the closing of the
storage goes through; a storage that is closed when no entry is left has no persistent objects.
-/

namespace QuickJs.Persistent

open Storage (calculateHashCode)

variable {s : State} {o q st t oid : ℕ} {ob : JSObject} {b : JSPersitentBlock} {S : JSStorage} {e : Entry}
  {es : List Entry} {mem : Memory} {status : Status}

/-- An entry is one of an object. -/
def Has (es : List Entry) (o : ℕ) : Prop := ∃ e ∈ es, e.obj = o

/-- An object has an entry in the cache of a storage, or in the table that is visited. -/
def State.Cached (s : State) (st o : ℕ) : Prop :=
  Has (s.cache st) o ∨ ∃ f ∈ s.frames, f.storage = st ∧ Has f.pending o

structure State.Inv (s : State) : Prop where
  fault : s.fault = false
  /-- a persistent object belongs to an open storage -/
  block : ∀ o, ∀ b ∈ s.block o, s.Open b.storage ∧ s.Cached b.storage o
  /-- entries have objects -/
  cache : ∀ st, ∀ e ∈ s.cache st, s.Alive e.obj
  pending : ∀ f ∈ s.frames, ∀ e ∈ f.pending, s.Alive e.obj
  iterator : ∀ i, ∀ st ∈ s.iterator i, i < s.next ∧ s.Open st
  /-- a storage is not closed twice -/
  closing : s.closing.Nodup
  closingOpen : ∀ st ∈ s.closing, s.Open st
  root : ∀ st S, s.storage st = some S → st ∉ s.dead → st ∉ s.closing → ∀ o ∈ S.root, s.Alive o
  opened : ∀ st, s.Open st → st ∈ s.opened
  lt : ∀ st ∈ s.opened, st < s.next
  objectLt : ∀ o, s.Alive o → o < s.next
  freed : ∀ st, s.freed st = if st ∈ s.opened ∧ ¬ s.Open st then 1 else 0

/-! ## Objects and caches -/

theorem block_setObject : (s.setObject o (some ob)).block q = if q = o then ob.persistent else s.block q := by
  rw [State.block, State.setObject]
  dsimp only
  split <;> rfl

theorem alive_setObject : (s.setObject o (some ob)).Alive q ↔ q = o ∨ s.Alive q := by
  unfold State.Alive State.setObject
  by_cases h : q = o
  · simp only [h, ↓reduceIte, Option.isSome_some, true_or]
  · simp only [h, ↓reduceIte, false_or]

theorem open_setCache : (s.setCache st es).Open t ↔ s.Open t := by
  unfold State.Open State.setCache State.setStorage
  dsimp only
  split
  · rename_i h
    rw [Option.isSome_map, h]
  · rfl

theorem cache_setCache (h : s.Open st) : (s.setCache st es).cache t = if t = st then es else s.cache t := by
  obtain ⟨S, hS⟩ := Option.isSome_iff_exists.mp h
  unfold State.cache State.setCache State.setStorage
  dsimp only
  split
  · rw [hS]
    rfl
  · rfl

theorem touch_of_open (h : s.Open st) : s.touch st = s := if_pos h

section

variable (hi : s.Inv)

include hi

theorem State.Inv.touch (h : s.Open st) : (s.touch st).Inv := by
  rw [touch_of_open h]
  exact hi

/-- An object gets or loses its block. -/
theorem State.Inv.setObject (ho : o < s.next)
    (h : ∀ b ∈ ob.persistent, s.Open b.storage ∧ s.Cached b.storage o) : (s.setObject o (some ob)).Inv where
  fault := hi.fault
  block q b hb := by
    rw [block_setObject] at hb
    split at hb
    · rename_i hq
      subst hq
      exact h b hb
    · exact hi.block q b hb
  cache st e he := alive_setObject.mpr (.inr (hi.cache st e he))
  pending f hf e he := alive_setObject.mpr (.inr (hi.pending f hf e he))
  iterator := hi.iterator
  closing := hi.closing
  closingOpen := hi.closingOpen
  root st S hS hdead hclosing o ho := alive_setObject.mpr (.inr (hi.root st S hS hdead hclosing o ho))
  opened := hi.opened
  lt := hi.lt
  objectLt q hq := by
    rcases alive_setObject.mp hq with rfl | hq
    · exact ho
    · exact hi.objectLt q hq
  freed := hi.freed

theorem State.Inv.setNotPersistent (ho : s.Alive o) : (s.setNotPersistent o).Inv :=
  hi.setObject (hi.objectLt o ho) nofun

/-- The next number is used. -/
theorem State.Inv.number : ({ s with next := s.next + 1 } : State).Inv :=
  ⟨hi.fault, hi.block, hi.cache, hi.pending,
    fun i st h => (hi.iterator i st h).imp_left Nat.lt_succ_of_lt, hi.closing, hi.closingOpen, hi.root, hi.opened,
    fun st hst => Nat.lt_succ_of_lt (hi.lt st hst), fun o ho => Nat.lt_succ_of_lt (hi.objectLt o ho), hi.freed⟩

theorem State.Inv.newObject : s.newObject.Inv :=
  hi.number.setObject (Nat.lt_succ_self _) nofun

/-- The cache of a storage is changed. -/
theorem State.Inv.setCache (hst : s.Open st) (halive : ∀ e ∈ es, s.Alive e.obj)
    (hkeep : ∀ q b, b ∈ s.block q → b.storage = st → Has (s.cache st) q → Has es q) :
    (s.setCache st es).Inv where
  fault := hi.fault
  block q b hb := by
    obtain ⟨hopen, hcached⟩ := hi.block q b hb
    refine ⟨open_setCache.mpr hopen, hcached.imp_left fun h => ?_⟩
    rw [cache_setCache hst]
    split
    · rename_i heq
      exact hkeep q b hb heq (heq ▸ h)
    · exact h
  cache t e he := by
    rw [cache_setCache hst] at he
    split at he
    · exact halive e he
    · exact hi.cache t e he
  pending := hi.pending
  iterator i st' h := (hi.iterator i st' h).imp_right open_setCache.mpr
  closing := hi.closing
  closingOpen st' h := open_setCache.mpr (hi.closingOpen st' h)
  root t S hS hdead hclosing o ho := by
    change (if t = st then _ else _) = some S at hS
    split at hS
    · rename_i heq
      obtain ⟨S', hS', rfl⟩ := Option.map_eq_some_iff.mp hS
      exact hi.root t S' (heq ▸ hS') hdead hclosing o ho
    · exact hi.root t S hS hdead hclosing o ho
  opened t h := hi.opened t (open_setCache.mp h)
  lt := hi.lt
  objectLt := hi.objectLt
  freed t := by
    simp only [open_setCache]
    exact hi.freed t

/-- `hashtable_put`. -/
theorem State.Inv.hashtablePut (hst : s.Open st) (he : s.Alive e.obj) :
    (s.hashtablePut st e).Inv := by
  refine hi.setCache hst (fun e' he' => ?_) fun q b _ _ ⟨e', he', ho⟩ => ⟨e', List.mem_cons_of_mem _ he', ho⟩
  rcases List.mem_cons.mp he' with rfl | he'
  · exact he
  · exact hi.cache st e' he'

/-- An entry of an object is removed that has no block. -/
theorem State.Inv.eraseEntry (hst : s.Open st) {p : Entry → Bool} (hnone : s.block o = none)
    (hp : ∀ e ∈ s.cache st, e.obj ≠ o → e ∈ (s.cache st).eraseP p) :
    (s.setCache st ((s.cache st).eraseP p)).Inv := by
  refine hi.setCache hst (fun e he => hi.cache st e (List.mem_of_mem_eraseP he)) fun q b hb _ ⟨e, he, heq⟩ => ?_
  refine ⟨e, hp e he fun ho => ?_, heq⟩
  rw [← heq, ho, hnone] at hb
  cases hb

/-! ## Persistent objects -/

theorem State.Inv.setStatus (ho : s.Alive o) : (s.setStatus o status).Inv := by
  obtain ⟨ob, hob⟩ := Option.isSome_iff_exists.mp ho
  rw [State.setStatus, hob]
  refine hi.setObject (hi.objectLt o ho) fun b hb => ?_
  obtain ⟨b', hb', rfl⟩ := Option.map_eq_some_iff.mp hb
  exact hi.block o b' (Option.bind_eq_some_iff.mpr ⟨ob, hob, hb'⟩)

end

theorem alive_of_block (h : b ∈ s.block o) : s.Alive o := by
  obtain ⟨ob, hob, -⟩ := Option.bind_eq_some_iff.mp h
  exact Option.isSome_iff_exists.mpr ⟨ob, hob⟩

theorem State.Inv.storeEntity (hi : s.Inv) (hst : s.Open st) : (s.storeEntity st o).Inv := by
  unfold State.storeEntity
  split
  · rename_i b hb
    split
    · rw [touch_of_open hst]
      exact hi.setStatus (alive_of_block hb)
    · exact hi
  · exact hi

/-- An object becomes persistent. -/
theorem State.Inv.bind (hi : s.Inv) (hst : s.Open st) (ho : s.Alive o) : (s.bind o st oid status).Inv := by
  have hput := (hi.number.hashtablePut (e := ⟨calculateHashCode oid, some s.next, o⟩) hst ho)
  refine hput.setObject (Nat.lt_succ_of_lt (hi.objectLt o ho)) ?_
  rintro _ ⟨⟩
  refine ⟨open_setCache.mpr hst, .inl ⟨⟨calculateHashCode oid, some s.next, o⟩, ?_, rfl⟩⟩
  rw [State.hashtablePut, cache_setCache (s := { s with next := s.next + 1 }) hst, if_pos rfl]
  exact List.mem_cons_self

theorem storeEntity_eq (hst : s.Open st) :
    s.storeEntity st o = s ∨ s.storeEntity st o = s.setStatus o .dormant := by
  unfold State.storeEntity
  split
  · split
    · rw [touch_of_open hst]
      exact .inr rfl
    · exact .inl rfl
  · exact .inl rfl

theorem block_setStatus : (s.setStatus o status).block q =
    if q = o then (s.block o).map fun b => { b with status := status } else s.block q := by
  unfold State.block State.setStatus State.setObject
  dsimp only
  split
  · cases s.object o <;> rfl
  · rfl

/-- A status is no part of what keys read as. -/
theorem hits_setStatus : (s.setStatus o status).hits mem oid e = s.hits mem oid e := by
  have hread : (s.setStatus o status).read mem e = s.read mem e := by
    rw [State.read, State.read, block_setStatus]
    split
    · rename_i he
      rw [he]
      cases s.block o with
      | none => rfl
      | some b =>
        rw [Option.map_some, Option.filter_some, Option.filter_some]
        split <;> rfl
    · rfl
  rw [State.hits, State.hits, hread]

theorem alive_setStatus : (s.setStatus o status).Alive q ↔ s.Alive q := by
  unfold State.Alive State.setStatus State.setObject
  dsimp only
  split
  · rename_i h
    rw [Option.isSome_map, h]
  · rfl

/-- The entry that is removed from the cache of a persistent object is one of its own. -/
def State.OwnEntry (s : State) (mem : Memory) (o : ℕ) : Prop :=
  ∀ b ∈ s.block o, ∀ e ∈ s.cache b.storage, s.hits mem b.oid e → e.obj = o

/-- A persistent object leaves its storage. -/
theorem State.Inv.leave (hi : s.Inv) (hb : b ∈ s.block o) (hown : s.OwnEntry mem o) :
    ((s.hashtableRemove mem b.storage b.oid).setNotPersistent o).Inv := by
  have hnone : (s.setNotPersistent o).block o = none := by
    rw [State.setNotPersistent, block_setObject, if_pos rfl]
  refine (hi.setNotPersistent (alive_of_block hb)).eraseEntry (hi.block o b hb).1 hnone fun e he hne => ?_
  exact (List.mem_eraseP_of_neg fun hhit => hne (hown b hb e he hhit)).mpr he

/-- `db_persist_entity`. -/
theorem State.Inv.persistEntity (hi : s.Inv) (hst : s.Open st) (ho : s.Alive o)
    (hown : ∀ b ∈ s.block o, b.storage ≠ st → s.OwnEntry mem o) : (s.persistEntity mem st o oid).Inv := by
  unfold State.persistEntity
  split
  · rw [touch_of_open hst]
    exact hi.bind hst ho
  rename_i b hb
  split
  · exact hi
  rename_i hne
  have hold := (hi.block o b hb).1
  dsimp only
  rw [touch_of_open hold]
  -- that the object is stored before it leaves changes its status at most
  have hleave : (((s.storeEntity b.storage o).hashtableRemove mem b.storage b.oid).setNotPersistent o).Inv ∧
      s.storage = (s.storeEntity b.storage o).storage := by
    rcases storeEntity_eq hold (o := o) with heq | heq
    · rw [heq]
      exact ⟨hi.leave hb (hown b hb hne), rfl⟩
    · rw [heq]
      have hb' : { b with status := .dormant } ∈ (s.setStatus o .dormant).block o := by
        rw [block_setStatus, if_pos rfl]
        exact Option.map_eq_some_iff.mpr ⟨b, hb, rfl⟩
      refine ⟨(hi.setStatus ho).leave (b := { b with status := .dormant }) hb' fun c hc e he hhit => ?_, rfl⟩
      cases Option.some.inj (hb'.symm.trans hc)
      exact hown b hb hne b hb e he (hits_setStatus ▸ hhit)
  have hopen : (((s.storeEntity b.storage o).hashtableRemove mem b.storage b.oid).setNotPersistent o).Open st := by
    refine open_setCache.mpr ?_
    rw [State.Open, ← hleave.2]
    exact hst
  rw [touch_of_open hopen]
  exact hleave.1.bind hopen (alive_setObject.mpr (.inl rfl))

/-- `db_load_object`. -/
theorem State.Inv.loadObject {index : Bool} (hi : s.Inv) (hst : s.Open st) :
    (s.loadObject mem st oid index).Inv := by
  unfold State.loadObject
  dsimp only
  rw [touch_of_open hst]
  split
  · rename_i e he
    rw [if_pos (hi.cache st e (List.mem_of_find?_eq_some he))]
    exact hi
  · have hnew : s.newObject.Alive s.next := alive_setObject.mpr (.inl rfl)
    split
    · exact hi.newObject.bind hst hnew
    · exact (hi.newObject.hashtablePut hst hnew).bind (open_setCache.mpr hst) hnew

/-! ## Freeing objects -/

theorem mem_eraseP_of_erased {es : List Entry} {p : Entry → Bool} {e e' : Entry} (he : e ∈ es)
    (herased : e ∉ es.eraseP p) (he' : e' ∈ es) (hne : e' ≠ e) : e' ∈ es.eraseP p := by
  rcases List.exists_or_eq_self_of_eraseP p es with heq | ⟨a, l₁, l₂, -, -, hsplit, heq⟩
  · rw [heq]
    exact he'
  rw [heq] at herased ⊢
  rw [hsplit] at he he'
  have hother {x : Entry} (hx : x ∈ l₁ ++ a :: l₂) : x = a ∨ x ∈ l₁ ++ l₂ := by
    rcases List.mem_append.mp hx with hx | hx
    · exact .inr (List.mem_append_left _ hx)
    rcases List.mem_cons.mp hx with rfl | hx
    · exact .inl rfl
    · exact .inr (List.mem_append_right _ hx)
  rcases hother he with rfl | he
  · exact (hother he').resolve_left hne
  · exact absurd he herased

/-- What the cache of a storage has when an object has been removed. -/
def State.left (s : State) (mem : Memory) (o st : ℕ) : List Entry :=
  match s.block o with
  | some b => if b.storage = st then (s.cache st).eraseP (s.hits mem b.oid) else s.cache st
  | none => s.cache st

/-- The object has no other entry than the one that is removed when it is freed. -/
def State.LastEntry (s : State) (mem : Memory) (o : ℕ) : Prop :=
  (∀ st ∈ s.opened, ∀ e ∈ s.left mem o st, e.obj ≠ o) ∧ ∀ f ∈ s.frames, ∀ e ∈ f.pending, e.obj ≠ o

/-- An object is freed that has no entries. -/
theorem State.Inv.die (hi : s.Inv) (hcache : ∀ st, ∀ e ∈ s.cache st, e.obj ≠ o)
    (hpending : ∀ f ∈ s.frames, ∀ e ∈ f.pending, e.obj ≠ o) (hreleased : s.Released o) :
    (s.setObject o none).Inv := by
  have halive {q : ℕ} (hq : s.Alive q) (hne : q ≠ o) : (s.setObject o none).Alive q := by
    unfold State.Alive State.setObject
    dsimp only
    rw [if_neg hne]
    exact hq
  have hblock {q : ℕ} {b : JSPersitentBlock} (hb : b ∈ (s.setObject o none).block q) : b ∈ s.block q := by
    unfold State.block State.setObject at hb
    dsimp only at hb
    split at hb
    · cases hb
    · exact hb
  refine ⟨hi.fault, fun q b hb => hi.block q b (hblock hb), fun st e he => halive (hi.cache st e he) (hcache st e he),
    fun f hf e he => halive (hi.pending f hf e he) (hpending f hf e he), hi.iterator, hi.closing, hi.closingOpen,
    fun st S hS hdead hclosing q hq => halive (hi.root st S hS hdead hclosing q hq) ?_, hi.opened, hi.lt,
    fun q hq => hi.objectLt q ?_, hi.freed⟩
  · rintro rfl
    have hlt := hi.lt st (hi.opened st (Option.isSome_iff_exists.mpr ⟨S, hS⟩))
    exact (hreleased st hlt S hS hq).elim hdead hclosing
  · unfold State.Alive State.setObject at hq
    dsimp only at hq
    split at hq
    · cases hq
    · exact hq

theorem setObject_setObject {x y : Option JSObject} : (s.setObject o x).setObject o y = s.setObject o y := by
  unfold State.setObject
  congr 1
  funext q
  dsimp only
  split <;> rfl

theorem cache_of_closed (h : ¬ s.Open st) : s.cache st = [] := by
  rw [State.cache, Option.not_isSome_iff_eq_none.mp h]
  rfl

/-- `js_free_persistent_object`, but for storing the object. -/
theorem State.Inv.freePersistent (hi : s.Inv) (hb : b ∈ s.block o) (hlast : s.LastEntry mem o)
    (hreleased : s.Released o) : ((s.hashtableRemove mem b.storage b.oid).setObject o none).Inv := by
  obtain ⟨hleft, hpending⟩ := hlast
  obtain ⟨hopen, hcached⟩ := hi.block o b hb
  have hblock : s.block o = some b := hb
  have herased (e : Entry) (he : e ∈ (s.cache b.storage).eraseP (s.hits mem b.oid)) : e.obj ≠ o := by
    refine hleft b.storage (hi.opened _ hopen) e ?_
    rw [State.left, hblock]
    dsimp only
    rw [if_pos rfl]
    exact he
  obtain ⟨e, he, heo⟩ : Has (s.cache b.storage) o := by
    refine hcached.resolve_right ?_
    rintro ⟨f, hf, -, e, he, heo⟩
    exact hpending f hf e he heo
  have hnone : (s.setNotPersistent o).block o = none := by
    rw [State.setNotPersistent, block_setObject, if_pos rfl]
  have hremoved := (hi.setNotPersistent (alive_of_block hb)).eraseEntry (p := s.hits mem b.oid) hopen hnone
    fun e' he' hne => mem_eraseP_of_erased he (fun h => herased e h heo) he' fun heq => hne (heq ▸ heo)
  refine setObject_setObject (s := s.hashtableRemove mem b.storage b.oid) ▸
    hremoved.die (fun st e' he' => ?_) hpending fun st hst S hS hroot => ?_
  · rw [cache_setCache (s := s.setNotPersistent o) hopen] at he'
    split at he'
    · exact herased e' he'
    · rename_i hne
      by_cases hst : s.Open st
      · refine hleft st (hi.opened st hst) e' ?_
        rw [State.left, hblock]
        dsimp only
        rw [if_neg (Ne.symm hne)]
        exact he'
      · rw [show (s.setNotPersistent o).cache st = s.cache st from rfl, cache_of_closed hst] at he'
        cases he'
  · change (if st = b.storage then _ else _) = some S at hS
    split at hS
    · rename_i heq
      obtain ⟨S', hS', rfl⟩ := Option.map_eq_some_iff.mp hS
      exact hreleased st hst S' (heq ▸ hS') hroot
    · exact hreleased st hst S hS hroot

end QuickJs.Persistent
