import QuickJs.PersistentInvariant

/-!
# Closed storages are not used

In the runs in which a storage is closed once, with a root that is still there and without iterators,
and in which objects that are freed leave the caches, everything that has a pointer to a storage has
one to an open storage.
-/

namespace QuickJs.Persistent

open Run

/-- What can be used belongs to open storages, and each storage that has been opened is open or has been
freed once. -/
structure State.Sound (s : State) : Prop where
  fault : s.fault = false
  block : ∀ o, ∀ b ∈ s.block o, s.Open b.storage
  cache : ∀ st, ∀ e ∈ s.cache st, s.Alive e.obj
  pending : ∀ f ∈ s.frames, s.Open f.storage ∧ ∀ e ∈ f.pending, s.Alive e.obj
  iterator : ∀ i, ∀ st ∈ s.iterator i, s.Open st
  freed : ∀ st ∈ s.opened, s.freed st = if s.Open st then 0 else 1

/-- The storage can be closed: it is not being closed, and its root has been set and is there. -/
def State.Closable (s : State) (st : ℕ) : Prop :=
  ∀ S ∈ s.storage st, st ∉ s.closing ∧ ∃ o ∈ S.root, s.Alive o

/-- The closing of the storage that is through leaves no iterators behind. -/
def State.Through (s : State) : Prop :=
  ∀ f ∈ s.frames.head?, f.pending = [] → s.cache f.storage = [] → ∀ i < s.next, s.iterator i ≠ some f.storage

/-- The condition. -/
def Op.Safe (s : State) : Op → Prop
  | .close st | .finalize st => s.Closable st
  | .visit => s.Through
  | .free o mem => s.LastEntry mem o
  | .setRoot st val _ mem => st ∉ s.closing ∧ ∀ o ∈ val, ∀ b ∈ s.block o, b.storage ≠ st → s.OwnEntry mem o
  | .getRoot st => st ∉ s.closing ∨ ∀ S ∈ s.storage st, ∀ o ∈ S.root, s.Alive o
  | .attach i o _ mem => ∀ b ∈ s.block i, ∀ c ∈ s.block o, c.storage ≠ b.storage → s.OwnEntry mem o
  | _ => True

instance (s : State) (mem : Memory) (o : ℕ) : Decidable (s.OwnEntry mem o) :=
  inferInstanceAs (Decidable (∀ b ∈ s.block o, ∀ e ∈ s.cache b.storage, _ → _))

instance (s : State) : (op : Op) → Decidable (op.Safe s)
  | .close st | .finalize st => inferInstanceAs (Decidable (∀ S ∈ s.storage st, _ ∧ ∃ o ∈ S.root, s.Alive o))
  | .visit => inferInstanceAs (Decidable (∀ f ∈ s.frames.head?, _ → _ → ∀ i < s.next, _))
  | .free o mem => inferInstanceAs (Decidable ((∀ st ∈ s.opened, ∀ e ∈ s.left mem o st, _) ∧
    ∀ f ∈ s.frames, ∀ e ∈ f.pending, _))
  | .setRoot _ val _ _ => inferInstanceAs (Decidable (_ ∧ ∀ o ∈ val, ∀ b ∈ s.block o, _ → _))
  | .getRoot st => inferInstanceAs (Decidable (_ ∨ ∀ S ∈ s.storage st, ∀ o ∈ S.root, _))
  | .attach i o _ _ => inferInstanceAs (Decidable (∀ b ∈ s.block i, ∀ c ∈ s.block o, _ → _))
  | .open _ | .newObject | .createIndex _ _ | .fetch _ _ _ _ | .use _ | .read _ | .write _ | .store _
  | .createIterator _ | .next _ _ _ | .freeIterator _ | .collect _ => inferInstanceAs (Decidable True)

variable {s s' : State} {o st oid : ℕ} {b : JSPersitentBlock} {S : JSStorage} {e : Entry} {es : List Entry}
  {fs : List Frame} {mem : Memory} {op : Op} {ops : List Op}

theorem State.Inv.sound (hi : s.Inv) : s.Sound where
  fault := hi.fault
  block o b hb := (hi.block o b hb).1
  cache := hi.cache
  pending f hf := ⟨hi.closingOpen _ (List.mem_map_of_mem hf), hi.pending f hf⟩
  iterator i st h := (hi.iterator i st h).2
  freed st hst := by
    rw [hi.freed]
    by_cases hopen : s.Open st
    · rw [if_neg fun h => h.2 hopen, if_pos hopen]
    · rw [if_pos ⟨hst, hopen⟩, if_neg hopen]

theorem inv_initial : State.initial.Inv where
  fault := rfl
  block := nofun
  cache := nofun
  pending := nofun
  iterator := nofun
  closing := .nil
  closingOpen := nofun
  root := nofun
  opened := nofun
  lt := nofun
  objectLt := nofun
  freed _ := (if_neg fun h => List.not_mem_nil h.1).symm

/-! ## Opening a storage and setting its root -/

theorem open_holdRoot : (s.holdRoot st o).Open oid ↔ s.Open oid := by
  unfold State.Open State.holdRoot State.setStorage
  dsimp only
  split
  · rename_i h
    rw [Option.isSome_map, h]
  · rfl

theorem cache_holdRoot : (s.holdRoot st o).cache = s.cache := by
  funext t
  unfold State.cache State.holdRoot State.setStorage
  dsimp only
  split
  · rename_i h
    rw [h]
    cases s.storage st <;> rfl
  · rfl

theorem State.Inv.holdRoot (hi : s.Inv) (ho : s.Alive o) : (s.holdRoot st o).Inv where
  fault := hi.fault
  block q b hb := by
    obtain ⟨hopen, hcached⟩ := hi.block q b hb
    refine ⟨open_holdRoot.mpr hopen, ?_⟩
    rw [State.Cached, cache_holdRoot]
    exact hcached
  cache t e he := hi.cache t e (by rwa [cache_holdRoot] at he)
  pending := hi.pending
  iterator i t h := (hi.iterator i t h).imp_right open_holdRoot.mpr
  closing := hi.closing
  closingOpen t h := open_holdRoot.mpr (hi.closingOpen t h)
  root t S hS hdead hclosing q hq := by
    change (if t = st then _ else _) = some S at hS
    split at hS
    · obtain ⟨S', -, rfl⟩ := Option.map_eq_some_iff.mp hS
      cases hq
      exact ho
    · exact hi.root t S hS hdead hclosing q hq
  opened t h := hi.opened t (open_holdRoot.mp h)
  lt := hi.lt
  objectLt := hi.objectLt
  freed t := by
    simp only [open_holdRoot]
    exact hi.freed t

/-- A storage without a root is opened. -/
theorem State.Inv.addStorage (hi : s.Inv) : ({ s.setStorage s.next (some ⟨none, []⟩) with
    opened := s.next :: s.opened, next := s.next + 1 } : State).Inv := by
  have hnew : s.next ∉ s.opened := fun h => (hi.lt _ h).ne rfl
  have hopen {t : ℕ} : (s.setStorage s.next (some ⟨none, []⟩)).Open t ↔ t = s.next ∨ s.Open t := by
    unfold State.Open State.setStorage
    dsimp only
    split
    · exact iff_of_true rfl (.inl ‹_›)
    · rename_i hne
      exact (or_iff_right hne).symm
  have hcache {t : ℕ} : (s.setStorage s.next (some ⟨none, []⟩)).cache t = s.cache t := by
    unfold State.cache State.setStorage
    dsimp only
    split
    · rename_i heq
      subst heq
      exact (cache_of_closed fun h => hnew (hi.opened _ h)).symm
    · rfl
  refine ⟨hi.fault, fun q b hb => ?_, fun t e he => hi.cache t e (hcache ▸ he), hi.pending,
    fun i t h => (hi.iterator i t h).imp Nat.lt_succ_of_lt fun h => hopen.mpr (.inr h), hi.closing,
    fun t h => hopen.mpr (.inr (hi.closingOpen t h)), fun t S hS hdead hclosing o ho => ?_, fun t h => ?_,
    fun t h => ?_, fun o ho => Nat.lt_succ_of_lt (hi.objectLt o ho), fun t => ?_⟩
  · obtain ⟨hb', hcached⟩ := hi.block q b hb
    refine ⟨hopen.mpr (.inr hb'), hcached.imp_left fun h => ?_⟩
    exact hcache.symm ▸ h
  · change (if t = s.next then _ else _) = some S at hS
    split at hS
    · cases hS
      cases ho
    · exact hi.root t S hS hdead hclosing o ho
  · rcases hopen.mp h with rfl | h
    · exact List.mem_cons_self
    · exact List.mem_cons_of_mem _ (hi.opened t h)
  · rcases List.mem_cons.mp h with rfl | h
    · exact Nat.lt_succ_self _
    · exact Nat.lt_succ_of_lt (hi.lt t h)
  · refine (hi.freed t).trans ?_
    by_cases ht : t = s.next
    · subst ht
      rw [if_neg fun h => hnew h.1, if_neg fun h => h.2 (hopen.mpr (.inl rfl))]
    · refine if_congr (and_congr ?_ (not_congr ?_)) rfl rfl
      · exact (List.mem_cons.trans (or_iff_right ht)).symm
      · exact (hopen.trans (or_iff_right ht)).symm

theorem State.Inv.storageOpen (hi : s.Inv) {root : Option ℕ} : (s.storageOpen root).Inv := by
  cases root with
  | none => exact hi.addStorage
  | some oid =>
    have hopen : ({ s.setStorage s.next (some ⟨none, []⟩) with
        opened := s.next :: s.opened, next := s.next + 1 } : State).newObject.Open s.next := by
      unfold State.Open State.newObject State.setObject State.setStorage
      dsimp only
      rw [if_pos rfl]
      rfl
    exact (hi.addStorage.newObject.bind hopen (alive_setObject.mpr (.inl rfl))).holdRoot
      (alive_setObject.mpr (.inl rfl))

theorem open_touch {t : ℕ} : (s.touch t).Open st ↔ s.Open st := by
  unfold State.touch
  split <;> exact .rfl

theorem open_storeEntity {t : ℕ} : (s.storeEntity t o).Open st ↔ s.Open st := by
  unfold State.storeEntity
  split
  · split
    · exact open_touch
    · exact .rfl
  · exact .rfl

theorem open_bind {t : ℕ} {status : Status} : (s.bind o t oid status).Open st ↔ s.Open st := open_setCache

theorem open_persistEntity {t : ℕ} : (s.persistEntity mem t o oid).Open st ↔ s.Open st := by
  unfold State.persistEntity
  split
  · exact open_bind.trans open_touch
  split
  · exact .rfl
  · refine open_bind.trans (open_touch.trans ?_)
    exact open_setCache.trans (open_storeEntity.trans open_touch)

section

variable (hi : s.Inv)

include hi

theorem State.Inv.setRoot (hclosing : st ∉ s.closing) (ho : s.Alive o)
    (hown : ∀ b ∈ s.block o, b.storage ≠ st → s.OwnEntry mem o) : (s.setRoot mem st o oid).Inv := by
  unfold State.setRoot
  split
  · rename_i hst
    have hst' : (s.holdRoot st o).Open st := open_holdRoot.mpr hst
    refine ((hi.holdRoot ho).persistEntity hst' ho fun b hb hne c hc e he hhit => ?_).storeEntity
      (open_persistEntity.mpr hst')
    rw [cache_holdRoot] at he
    exact hown b hb hne c hc e he hhit
  · exact hi

theorem State.Inv.createIndex : (s.createIndex st oid).Inv := by
  unfold State.createIndex
  split
  · exact hi.newObject.bind ‹_› (alive_setObject.mpr (.inl rfl))
  · exact hi

/-! ## Uses -/

theorem State.Inv.through {i : ℕ} {f : ℕ → State}
    (h : ∀ b ∈ s.block i, s.Open b.storage → (f b.storage).Inv) : (s.through i f).Inv := by
  unfold State.through
  cases hb : s.block i with
  | none => exact hi
  | some b => exact h b hb (hi.block i b hb).1

theorem State.Inv.loadPersistentObject : (s.loadPersistentObject o).Inv := by
  unfold State.loadPersistentObject
  split
  · rename_i b hb
    split
    · rw [touch_of_open (hi.block o b hb).1]
      exact hi.setStatus (alive_of_block hb)
    · exact hi
  · exact hi

theorem State.Inv.createIterator (hst : s.Open st) : (s.createIterator st).Inv := by
  unfold State.createIterator
  rw [touch_of_open hst]
  refine ⟨hi.fault, hi.block, hi.cache, hi.pending, fun i t h => ?_, hi.closing, hi.closingOpen, hi.root,
    hi.opened, fun t ht => Nat.lt_succ_of_lt (hi.lt t ht), fun o ho => Nat.lt_succ_of_lt (hi.objectLt o ho),
    hi.freed⟩
  dsimp only at h
  split at h
  · rename_i heq
    cases h
    exact ⟨heq ▸ Nat.lt_succ_self _, hst⟩
  · exact (hi.iterator i t h).imp_left Nat.lt_succ_of_lt

theorem State.Inv.freeIterator (it : ℕ) :
    ({ s with iterator := fun i => if i = it then none else s.iterator i } : State).Inv := by
  refine ⟨hi.fault, hi.block, hi.cache, hi.pending, fun i t h => ?_, hi.closing, hi.closingOpen, hi.root,
    hi.opened, hi.lt, hi.objectLt, hi.freed⟩
  dsimp only at h
  split at h
  · cases h
  · exact hi.iterator i t h

theorem State.Inv.iteratorNext (hst : s.Open st) {oid : Option ℕ} :
    (s.iteratorNext mem st oid).Inv := by
  unfold State.iteratorNext
  rw [touch_of_open hst]
  cases oid with
  | none => exact hi
  | some oid => exact hi.loadObject hst

/-- A `Storage` object is garbage from now on. -/
theorem State.Inv.collect : ({ s with dead := st :: s.dead } : State).Inv :=
  ⟨hi.fault, hi.block, hi.cache, hi.pending, hi.iterator, hi.closing, hi.closingOpen,
    fun t S hS hdead => hi.root t S hS fun h => hdead (List.mem_cons_of_mem _ h), hi.opened, hi.lt, hi.objectLt,
    hi.freed⟩

theorem State.Inv.freeObject (hlast : s.LastEntry mem o) (hreleased : s.Released o) :
    (s.freeObject mem o).Inv := by
  unfold State.freeObject
  split
  · rename_i hnone
    refine hi.die (fun st e he => ?_) hlast.2 hreleased
    by_cases hst : s.Open st
    · refine hlast.1 st (hi.opened st hst) e ?_
      rw [State.left, hnone]
      exact he
    · rw [cache_of_closed hst] at he
      cases he
  · rename_i b hb
    have hopen := (hi.block o b hb).1
    rw [touch_of_open hopen]
    rcases storeEntity_eq hopen (o := o) with heq | heq
    · rw [heq]
      exact hi.freePersistent hb hlast hreleased
    · rw [heq]
      have hb' : { b with status := .dormant } ∈ (s.setStatus o .dormant).block o := by
        rw [block_setStatus, if_pos rfl]
        exact Option.map_eq_some_iff.mpr ⟨b, hb, rfl⟩
      refine (hi.setStatus (alive_of_block hb)).freePersistent (b := { b with status := .dormant }) hb'
        ⟨fun st hst e he => hlast.1 st hst e ?_, hlast.2⟩ hreleased
      rw [State.left, hb'] at he
      rw [State.left, hb]
      dsimp only at he ⊢
      have hhits : (s.setStatus o .dormant).hits mem b.oid = s.hits mem b.oid := funext fun _ => hits_setStatus
      rw [hhits] at he
      exact he

/-! ## Closing a storage -/

theorem State.Inv.freeStorage (hclosable : s.Closable st) : (s.freeStorage st).Inv := by
  unfold State.freeStorage
  split
  · exact hi
  rename_i S hS
  obtain ⟨hclosing, o, hroot, ho⟩ := hclosable S hS
  have hroot' : S.root = some o := hroot
  rw [if_neg hclosing, hroot']
  dsimp only
  rw [if_pos ho]
  have hi' := hi.setNotPersistent ho
  refine ⟨hi'.fault, fun q b hb => ?_, hi'.cache, fun f hf e he => ?_, hi'.iterator,
    List.nodup_cons.mpr ⟨hclosing, hi'.closing⟩, fun t ht => ?_, fun t S hS hdead hclosing' => ?_, hi'.opened,
    hi'.lt, hi'.objectLt, hi'.freed⟩
  · obtain ⟨hopen, hcached⟩ := hi'.block q b hb
    exact ⟨hopen, hcached.imp_right fun ⟨f, hf, h⟩ => ⟨f, List.mem_cons_of_mem _ hf, h⟩⟩
  · rcases List.mem_cons.mp hf with rfl | hf
    · cases he
    · exact hi'.pending f hf e he
  · rcases List.mem_cons.mp ht with rfl | ht
    · exact Option.isSome_iff_exists.mpr ⟨S, hS⟩
    · exact hi'.closingOpen t ht
  · exact hi'.root t S hS hdead fun h => hclosing' (List.mem_cons_of_mem _ h)

/-- An entry has been visited, and its object has no block. -/
theorem State.Inv.visited (hframes : s.frames = ⟨st, e :: es⟩ :: fs)
    (hnone : s.block e.obj = none) : ({ s with frames := ⟨st, es⟩ :: fs } : State).Inv := by
  have hclosing : ({ s with frames := ⟨st, es⟩ :: fs } : State).closing = s.closing := by
    rw [State.closing, State.closing, hframes]
    rfl
  refine ⟨hi.fault, fun q b hb => ?_, hi.cache, fun f hf e' he' => ?_, hi.iterator, hclosing ▸ hi.closing,
    fun t ht => hi.closingOpen t (hclosing ▸ ht),
    fun t S hS hdead hnot => hi.root t S hS hdead fun h => hnot (hclosing.symm ▸ h), hi.opened, hi.lt, hi.objectLt,
    hi.freed⟩
  · obtain ⟨hopen, hcached⟩ := hi.block q b hb
    refine ⟨hopen, hcached.imp_right ?_⟩
    rintro ⟨f, hf, hst, e', he', heq⟩
    rw [hframes] at hf
    rcases List.mem_cons.mp hf with rfl | hf
    · rcases List.mem_cons.mp he' with rfl | he'
      · subst heq
        rw [show s.block e'.obj = some b from hb] at hnone
        cases hnone
      · exact ⟨_, List.mem_cons_self, hst, e', he', heq⟩
    · exact ⟨f, List.mem_cons_of_mem _ hf, hst, e', he', heq⟩
  · rcases List.mem_cons.mp hf with rfl | hf
    · exact hi.pending _ (hframes ▸ List.mem_cons_self) e' (List.mem_cons_of_mem _ he')
    · exact hi.pending f (hframes ▸ List.mem_cons_of_mem _ hf) e' he'

/-- The table that has come up is gone through next. -/
theorem State.Inv.nextRound (hframes : s.frames = ⟨st, []⟩ :: fs) :
    ({ s.setCache st [] with frames := ⟨st, eachOrder (s.cache st)⟩ :: fs } : State).Inv := by
  have hclosing : (⟨st, eachOrder (s.cache st)⟩ :: fs : List Frame).map Frame.storage = s.closing := by
    rw [State.closing, hframes]
    rfl
  have hst : s.Open st := hi.closingOpen st (hclosing ▸ List.mem_cons_self)
  have horder {e : Entry} : e ∈ eachOrder (s.cache st) ↔ e ∈ s.cache st := (List.perm_insertionSort _ _).mem_iff
  have hcache {t : ℕ} : (s.setCache st []).cache t = if t = st then [] else s.cache t := cache_setCache hst
  refine ⟨hi.fault, fun q b hb => ?_, fun t e he => ?_, fun f hf e he => ?_,
    fun i t h => (hi.iterator i t h).imp_right open_setCache.mpr, ?_,
    fun t ht => open_setCache.mpr (hi.closingOpen t (hclosing ▸ ht)), fun t S hS hdead hnot => ?_,
    fun t h => hi.opened t (open_setCache.mp h), hi.lt, hi.objectLt, fun t => ?_⟩
  · obtain ⟨hopen, hcached⟩ := hi.block q b hb
    refine ⟨open_setCache.mpr hopen, ?_⟩
    rcases hcached with ⟨e, he, heq⟩ | ⟨f, hf, hfst, e, he, heq⟩
    · by_cases hb' : b.storage = st
      · rw [hb'] at he ⊢
        exact .inr ⟨_, List.mem_cons_self, rfl, e, horder.mpr he, heq⟩
      · exact .inl ⟨e, (hcache.trans (if_neg hb')).symm ▸ he, heq⟩
    · rw [hframes] at hf
      rcases List.mem_cons.mp hf with rfl | hf
      · cases he
      · exact .inr ⟨f, List.mem_cons_of_mem _ hf, hfst, e, he, heq⟩
  · change e ∈ (s.setCache st []).cache t at he
    rw [hcache] at he
    split at he
    · cases he
    · exact hi.cache t e he
  · rcases List.mem_cons.mp hf with rfl | hf
    · exact hi.cache st e (horder.mp he)
    · exact hi.pending f (hframes ▸ List.mem_cons_of_mem _ hf) e he
  · exact (congrArg List.Nodup hclosing).mpr hi.closing
  · change (if t = st then _ else _) = some S at hS
    have hnot' : t ∉ s.closing := hclosing ▸ hnot
    split at hS
    · rename_i heq
      exact absurd (heq ▸ hclosing ▸ List.mem_cons_self) hnot'
    · exact hi.root t S hS hdead hnot'
  · refine (hi.freed t).trans (if_congr (and_congr_right fun _ => not_congr ?_) rfl rfl)
    exact open_setCache.symm

/-- The storage is closed. -/
theorem State.Inv.closed (hframes : s.frames = ⟨st, []⟩ :: fs) (hempty : s.cache st = [])
    (hiterators : ∀ i < s.next, s.iterator i ≠ some st) :
    ({ s.setStorage st none with
      frames := fs, freed := fun t => if t = st then s.freed t + 1 else s.freed t } : State).Inv := by
  have hclosing : s.closing = st :: fs.map Frame.storage := by
    rw [State.closing, hframes]
    rfl
  obtain ⟨hst, hnodup⟩ := List.nodup_cons.mp (hclosing ▸ hi.closing)
  have hopen : s.Open st := hi.closingOpen st (hclosing ▸ List.mem_cons_self)
  have hkeep {t : ℕ} (hne : t ≠ st) : (s.setStorage st none).storage t = s.storage t := if_neg hne
  have hopen' {t : ℕ} (hne : t ≠ st) (h : s.Open t) : (s.setStorage st none).Open t := by
    rw [State.Open, hkeep hne]
    exact h
  have hclosed : ¬ (s.setStorage st none).Open st := by
    unfold State.Open State.setStorage
    dsimp only
    rw [if_pos rfl]
    exact Bool.false_ne_true
  have hsome {t : ℕ} (h : (s.setStorage st none).Open t) : t ≠ st ∧ s.Open t := by
    have hne : t ≠ st := fun heq => hclosed (heq ▸ h)
    rw [State.Open, hkeep hne] at h
    exact ⟨hne, h⟩
  have hcache {t : ℕ} (hne : t ≠ st) : (s.setStorage st none).cache t = s.cache t := by
    rw [State.cache, hkeep hne]
    rfl
  refine ⟨hi.fault, fun q b hb => ?_, fun t e he => ?_, fun f hf => hi.pending f (hframes ▸ List.mem_cons_of_mem _ hf),
    fun i t h => ?_, hnodup, fun t ht => ?_, fun t S hS hdead hnot => ?_, fun t h => hi.opened t (hsome h).2, hi.lt,
    hi.objectLt, fun t => ?_⟩
  · obtain ⟨hb', hcached⟩ := hi.block q b hb
    -- an object of the storage would have an entry that is still to be visited
    have hne : b.storage ≠ st := by
      intro heq
      rw [heq] at hcached
      rcases hcached with ⟨e, he, -⟩ | ⟨f, hf, hfst, e, he, -⟩
      · rw [hempty] at he
        cases he
      · rw [hframes] at hf
        rcases List.mem_cons.mp hf with rfl | hf
        · cases he
        · exact hst (hfst ▸ List.mem_map_of_mem hf)
    refine ⟨hopen' hne hb', ?_⟩
    rcases hcached with h | ⟨f, hf, hfst, h⟩
    · exact .inl ((hcache hne).symm ▸ h)
    · rw [hframes] at hf
      rcases List.mem_cons.mp hf with rfl | hf
      · exact absurd hfst.symm hne
      · exact .inr ⟨f, hf, hfst, h⟩
  · by_cases hne : t = st
    · subst hne
      have he' : e ∈ (s.setStorage t none).cache t := he
      rw [cache_of_closed hclosed] at he'
      cases he'
    · exact hi.cache t e (hcache hne ▸ he)
  · obtain ⟨hlt, ht⟩ := hi.iterator i t h
    exact ⟨hlt, hopen' (fun heq => hiterators i hlt (heq ▸ h)) ht⟩
  · have hne : t ≠ st := fun heq => hst (heq ▸ ht)
    exact hopen' hne (hi.closingOpen t (hclosing ▸ List.mem_cons_of_mem _ ht))
  · have hne : t ≠ st := fun heq => hclosed (Option.isSome_iff_exists.mpr ⟨S, heq ▸ hS⟩)
    refine hi.root t S ((hkeep hne).symm.trans hS) hdead fun h => hnot ?_
    exact (List.mem_cons.mp (hclosing ▸ h)).resolve_left hne
  · have hfreed := hi.freed t
    dsimp only
    by_cases heq : t = st
    · subst heq
      rw [if_neg fun h => h.2 hopen] at hfreed
      rw [if_pos rfl, hfreed, if_pos ⟨hi.opened t hopen, hclosed⟩]
    · rw [if_neg heq, hfreed]
      refine if_congr (and_congr_right fun _ => not_congr ?_) rfl rfl
      exact ⟨hopen' heq, fun h => (hsome h).2⟩

theorem State.Inv.visit (hthrough : s.Through) : s.visit.Inv := by
  unfold State.visit
  split
  · exact hi
  · rename_i st e es fs hframes
    have hst : s.Open st := hi.closingOpen st (by rw [State.closing, hframes]; exact List.mem_cons_self)
    have he : s.Alive e.obj := hi.pending _ (hframes ▸ List.mem_cons_self) e List.mem_cons_self
    have hcommit : (s.finalCommitValue st e).Inv ∧ (s.finalCommitValue st e).frames = s.frames ∧
        (s.finalCommitValue st e).block e.obj = none := by
      rw [State.finalCommitValue, if_pos he, State.setNotPersistent, block_setObject, if_pos rfl]
      rcases storeEntity_eq hst (o := e.obj) with heq | heq
      · rw [heq]
        exact ⟨hi.setNotPersistent he, rfl, rfl⟩
      · rw [heq]
        exact ⟨(hi.setStatus he).setNotPersistent (alive_setStatus.mpr he), rfl, rfl⟩
    exact hcommit.1.visited (hcommit.2.1.trans hframes) hcommit.2.2
  · rename_i st fs hframes
    have hst : s.Open st := hi.closingOpen st (by rw [State.closing, hframes]; exact List.mem_cons_self)
    dsimp only
    rw [touch_of_open hst]
    split
    · rename_i hempty
      exact hi.closed hframes hempty (hthrough ⟨st, []⟩ (by rw [hframes]; rfl) rfl hempty)
    · exact hi.nextRound hframes

/-! ## Runs -/

/-- Every operation that meets the condition keeps all pointers right. -/
theorem State.Inv.step (hsafe : op.Safe s) (hs : s.step op = some s') : s'.Inv := by
  unfold State.step at hs
  split at hs
  case isFalse => cases hs
  rename_i hpermits
  cases op with
  | «open» root =>
    cases hs
    exact hi.storageOpen
  | newObject =>
    cases hs
    exact hi.newObject
  | setRoot st val oid mem =>
    obtain ⟨o, rfl, rfl⟩ := Option.map_eq_some_iff.mp hs
    exact hi.setRoot hsafe.1 (hpermits.2 o rfl) (hsafe.2 o rfl)
  | getRoot st =>
    cases hs
    unfold State.getRoot
    split
    · exact hi
    · rename_i o ho
      obtain ⟨S, hS, hroot⟩ := Option.bind_eq_some_iff.mp ho
      have halive : s.Alive o := by
        rcases hsafe with hclosing | halive
        · exact hi.root st S hS hpermits.2 hclosing o hroot
        · exact halive S hS o hroot
      rw [if_pos halive]
      exact hi
  | createIndex st oid =>
    cases hs
    exact hi.createIndex
  | attach i o oid mem =>
    cases hs
    refine hi.through fun b hb hst => ?_
    have hpersist : (s.persistEntity mem b.storage o oid).Inv := hi.persistEntity hst hpermits.2 (hsafe b hb)
    exact hpersist.touch (open_persistEntity.mpr hst)
  | fetch i oid index mem =>
    cases hs
    exact hi.through fun b _ hst => hi.loadObject hst
  | use i =>
    cases hs
    exact hi.through fun b _ hst => hi.touch hst
  | read o =>
    cases hs
    exact hi.loadPersistentObject
  | write o =>
    cases hs
    exact hi.setStatus hpermits
  | store o =>
    cases hs
    exact hi.through fun b _ hst => hi.storeEntity hst
  | createIterator i =>
    cases hs
    exact hi.through fun b _ hst => hi.createIterator hst
  | next it oid mem =>
    obtain ⟨st, hst, rfl⟩ := Option.map_eq_some_iff.mp hs
    exact hi.iteratorNext (hi.iterator it st hst).2
  | freeIterator it =>
    cases hs
    exact hi.freeIterator it
  | close st | finalize st =>
    cases hs
    exact hi.freeStorage hsafe
  | collect st =>
    cases hs
    exact hi.collect
  | visit =>
    cases hs
    exact hi.visit hsafe
  | free o mem =>
    cases hs
    exact hi.freeObject hsafe hpermits.2

end

/-- In a run whose steps all meet the condition nothing refers to a closed storage. -/
theorem sound_of_safe (hs : exec State.step .initial ops = some s)
    (hsafe : Along State.step (fun s op => op.Safe s) .initial ops) : s.Sound :=
  (hsafe.invariant (fun _ _ _ hi hok hstep => hi.step hok hstep) inv_initial hs).sound

/-- An object of an index is found with an iterator, and the storage is closed and used afterwards. -/
def closeRun : List Op :=
  [.open none, .newObject, .setRoot 0 (some 1) 1 fun _ => 0, .createIndex 0 2, .newObject,
    .attach 3 5 3 fun _ => 0, .store 5, .createIterator 3, .next 7 (some 3) fun _ => 0, .freeIterator 7,
    .close 0, .visit, .visit, .write 5, .visit, .visit, .visit, .free 5 fun _ => 0, .use 3, .getRoot 0, .close 0]

theorem closeRun_sound : ∃ s, exec State.step .initial closeRun = some s ∧ s.Sound ∧ s.freed 0 = 1 := by
  have hrun : (execIf (fun s op => decide (op.Safe s)) State.step .initial closeRun).isSome := by decide
  have hfreed : (exec State.step .initial closeRun).map (State.freed · 0) = some 1 := by decide
  obtain ⟨s, hs, hfreed⟩ := Option.map_eq_some_iff.mp hfreed
  exact ⟨s, hs, sound_of_safe hs (Along.of_execIf (fun _ _ => of_decide_eq_true) hrun), hfreed⟩

/-- An iterator of an index is used when the storage has been closed. -/
theorem iterator_not_sound : ∃ s, exec State.step .initial [.open none, .newObject,
    .setRoot 0 (some 1) 1 fun _ => 0, .createIndex 0 2, .createIterator 3, .close 0, .visit, .visit, .visit,
    .visit, .next 5 (some 3) fun _ => 0] = some s ∧ ¬ s.Sound :=
  ⟨_, rfl, fun h => Bool.false_ne_true (h.fault.symm.trans (by decide))⟩

end QuickJs.Persistent
