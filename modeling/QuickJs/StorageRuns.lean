import QuickJs.StorageKeys

/-!
# An index is a sorted map

What the methods are for: a sorted map from keys to objects, or a sorted multimap. In the runs in which
`delete` is not called, the keys are values of the type of the index, a third argument is given to
`set` or none is found behind the others, and no dead key of the cache is hit, every call returns what
the map returns.
-/

namespace QuickJs.Storage

open Run

/-! ## The sorted map -/

/-- A map from keys to the identifiers of objects. -/
structure Spec where
  type : DybaseType
  map : SortedMap Key ℕ
  /-- the identifier of the next object -/
  next : ℕ
  results : List Result

def Spec.initial (type : DybaseType) (unique : Bool) : Spec := ⟨type, .empty unique, 1, []⟩

/-- The objects of a key: all of them, or the only one if keys are unique. -/
def Spec.get (m : Spec) (k : Key) : Result :=
  if m.map.unique then
    match m.map.get k with
    | [] => .undefined
    | oid :: _ => .object (some oid)
  else .objects ((m.map.get k).map some)

/-- The bound that a value is; there is no bound if it is null. -/
def KeyValue.bound (type : DybaseType) (inclusive : Bool) : KeyValue → Option (SortedMap.Bound Key)
  | .nullish => some none
  | v => (v.key type).map fun k => some (k, inclusive)

/-- The call, and what it returns; none if an argument is not of the type of the index. -/
def Spec.call (m : Spec) : Op → Option (Spec × Result)
  | .set _ .notPlain _ _ => some (m, .typeError)
  | .set key (.plain oid) replace _ => (key.key m.type).map fun k =>
    let r := m.map.set k (oid.getD m.next) (replace.getD false)
    ({ m with map := r.1, next := if oid.isSome then m.next else m.next + 1 }, .bool r.2)
  | .get key _ => (key.key m.type).map fun k => (m, m.get k)
  | .delete key oid => (key.key m.type).map fun k =>
    ({ m with map := (m.map.delete k oid).1 }, .bool (m.map.delete k oid).2)
  | .clear => some ({ m with map := m.map.clear }, .undefined)
  | .length => some (m, .int m.map.entries.length)
  | .select start stop ascending startInclusive endInclusive _ _ =>
    (start.bound m.type (startInclusive.getD true)).bind fun lo =>
      (stop.bound m.type (endInclusive.getD true)).map fun hi =>
        (m, .objects ((m.map.select lo hi (ascending.getD true)).map some))
  | .iterate _ => some (m, .objects (m.map.entries.map fun e => some e.2))
  | .persist => some ({ m with next := m.next + 1 }, .undefined)
  | .load oid _ => some (m, .object (some oid))
  | .free _ _ | .commit | .reopen => some (m, .undefined)

def Spec.step (m : Spec) (op : Op) : Option Spec :=
  (m.call op).map fun r => { r.1 with results := r.2 :: r.1.results }

/-! ## The condition -/

/-- The bound that the B-tree gets. -/
def KeyValue.storedBound (type : DybaseType) (inclusive : Bool) (v : KeyValue) : SortedMap.Bound Key :=
  (v.key type).map fun k => (storedKey type k, inclusive)

/-- The values are of the type of the index, no `delete` is called, `set` is given its last argument or
finds nothing true in its place if the key is there, and the cache is not misled. -/
def Op.Safe (s : State) : Op → Prop
  | .set _ .notPlain _ _ => True
  | .set key (.plain _) replace behind => key.Fits s.type ∧ ∀ k ∈ key.key s.type, k.tooLong = false ∧
    (replace.isSome ∨ behind = false ∨ s.index.contains (storedKey s.type k) = false)
  | .get key mem => key.Fits s.type ∧
    ∀ k ∈ key.key s.type, s.LoadsClear mem (s.index.get (storedKey s.type k))
  | .delete _ _ => False
  | .clear | .length | .persist => True
  | .select start stop ascending startInclusive endInclusive _ mem =>
    (start.Fits s.type ∨ start = .nullish ∧ (s.type = .chars ∨ stop = .nullish ∨ s.index.entries = [])) ∧
    (stop.Fits s.type ∨ stop = .nullish) ∧
    s.LoadsClear mem (s.index.select (start.storedBound s.type (startInclusive.getD true))
      (stop.storedBound s.type (endInclusive.getD true)) (ascending.getD true))
  | .iterate mem => s.LoadsClear mem (s.index.entries.map Prod.snd)
  | .load oid mem | .free oid mem => s.Clear mem oid
  | .commit | .reopen => s.intact

instance (s : State) (mem : Memory) (oid : ℕ) : Decidable (s.Clear mem oid) :=
  inferInstanceAs (Decidable (∀ e ∈ s.oid2obj, _ → _))

instance decidableLoadsClear (s : State) (mem : ℕ → Memory) : (oids : List ℕ) → Decidable (s.LoadsClear mem oids)
  | [] => inferInstanceAs (Decidable True)
  | oid :: oids =>
    have := decidableLoadsClear (s.loadObject (mem 0) oid).1 (fun i => mem (i + 1)) oids
    inferInstanceAs (Decidable (_ ∧ _))

instance (s : State) : (op : Op) → Decidable (op.Safe s)
  | .set _ .notPlain _ _ | .clear | .length | .persist => inferInstanceAs (Decidable True)
  | .delete _ _ => inferInstanceAs (Decidable False)
  | .set _ (.plain _) _ _ | .get _ _ | .select _ _ _ _ _ _ _ => inferInstanceAs (Decidable (_ ∧ _))
  | .iterate mem => decidableLoadsClear s mem _
  | .load oid mem | .free oid mem => inferInstanceAs (Decidable (s.Clear mem oid))
  | .commit | .reopen => inferInstanceAs (Decidable s.intact)

variable {s s' : State} {m m' : Spec} {op : Op} {ops : List Op} {type : DybaseType} {unique : Bool}
  {k : Key} {v : KeyValue} {mem : Memory} {mems : ℕ → Memory} {oid : ℕ} {oids : List ℕ}

/-! ## The simulation -/

/-- The B-tree has the entries of the map, and the cache is as it should be. -/
structure Refines (s : State) (m : Spec) : Prop where
  inv : s.Inv
  type : s.type = m.type
  entries : SortedMap.Renamed (storedKey s.type) (FittingKeys s.type) m.map s.index
  next : s.nextOid = m.next
  oids : ∀ e ∈ s.index.entries, e.2 < s.nextOid
  results : s.results = m.results

theorem Refines.results_cons (h : Refines s m) (r : Result) :
    Refines { s with results := r :: s.results } { m with results := r :: m.results } where
  inv := ⟨h.inv.entry, h.inv.block, h.inv.order, h.inv.objects, h.inv.oids, h.inv.nextObject,
    h.inv.entryNext, h.inv.nextOid⟩
  type := h.type
  entries := h.entries
  next := h.next
  oids := h.oids
  results := congrArg (r :: ·) h.results

/-- What leaves the index alone does not matter to the map. -/
theorem Refines.kept (h : Refines s m) (hi : s'.Inv) (hkept : Kept s s') : Refines s' m where
  inv := hi
  type := hkept.type.trans h.type
  entries := by
    rw [hkept.index, hkept.type]
    exact h.entries
  next := hkept.nextOid.trans h.next
  oids e he := by
    rw [hkept.nextOid]
    exact h.oids e (hkept.index ▸ he)
  results := hkept.results.trans h.results

/-- A new persistent object. -/
theorem Refines.persist (h : Refines s m) : Refines (s.persistEntity none).1 { m with next := m.next + 1 } ∧
      (s.persistEntity none).2 = m.next where
  left := {
    inv := h.inv.add (fun o ho => (h.inv.nextOid o _ ho).ne rfl) (Nat.lt_succ_self _) (Nat.le_succ _)
      (.inl rfl)
    type := h.type
    entries := h.entries
    next := congrArg (· + 1) h.next
    oids := fun e he => Nat.lt_succ_of_lt (h.oids e he)
    results := h.results }
  right := h.next

/-- The values of an index are loaded. -/
theorem Refines.loads (h : Refines s m) (hclear : s.LoadsClear mems oids)
    (hin : ∀ oid ∈ oids, oid ∈ s.index.entries.map Prod.snd) :
    Refines (s.loadObjects mems oids).1 m ∧ (s.loadObjects mems oids).2 = oids.map some := by
  obtain ⟨hi, hkept, hlist⟩ := h.inv.loadObjects hclear fun oid hoid => by
    obtain ⟨e, he, rfl⟩ := List.mem_map.mp (hin oid hoid)
    exact h.oids e he
  exact ⟨h.kept hi hkept, hlist⟩

variable {lo : SortedMap.Bound Key} {ascending behind : Bool} {map : SortedMap Key ℕ}

theorem mem_of_mem_select {hi : SortedMap.Bound Key}
    (h : oid ∈ map.select lo hi ascending) : oid ∈ map.entries.map Prod.snd := by
  have hsub := (List.filter_sublist (p := fun e => SortedMap.above e.1 lo && SortedMap.below e.1 hi)
    (l := map.entries)).map Prod.snd
  rw [SortedMap.select] at h
  split at h
  · exact hsub.subset h
  · exact hsub.subset (List.mem_reverse.mp h)

theorem tooLong_storedKey : (storedKey type k).tooLong = k.tooLong := by
  unfold storedKey
  split <;> rfl

/-- `set` with the key of a value that fits. -/
theorem Refines.set (h : Refines s m) {replace : Bool} (hk : k ∈ FittingKeys s.type)
    (hlong : k.tooLong = false) (hoid : oid < s.nextOid)
    (hbehind : replace = behind ∨ s.index.contains (storedKey s.type k) = false) :
    Refines (s.insertInIndex ⟨s.type, some (storedKey s.type k)⟩ oid behind).1
      { m with map := (m.map.set k oid replace).1 } ∧
    (s.insertInIndex ⟨s.type, some (storedKey s.type k)⟩ oid behind).2 = (m.map.set k oid replace).2 := by
  have hsame : s.index.set (storedKey s.type k) oid behind = s.index.set (storedKey s.type k) oid replace := by
    rcases hbehind with rfl | hnew
    · rfl
    · rw [SortedMap.set, SortedMap.set, dif_pos hnew, dif_pos hnew]
  obtain ⟨hentries, hdone⟩ := h.entries.set (v := oid) (b := replace) storedKey_strictMonoOn hk
  rw [State.insertInIndex, Option.getD_some, tooLong_storedKey, hlong]
  rw [if_neg (by simp only [ne_eq, not_true_eq_false, Bool.false_eq_true, or_self, not_false_eq_true]), hsame]
  refine ⟨⟨⟨h.inv.entry, h.inv.block, h.inv.order, h.inv.objects, h.inv.oids, h.inv.nextObject,
    h.inv.entryNext, h.inv.nextOid⟩, h.type, hentries, h.next, fun e he => ?_, h.results⟩, hdone⟩
  rcases SortedMap.mem_set he with rfl | he
  · exact hoid
  · exact h.oids e he

/-- The values of a key. -/
theorem Refines.get_eq (h : Refines s m) (hk : k ∈ FittingKeys s.type) :
    s.index.get (storedKey s.type k) = m.map.get k := by
  have hbound : ∀ b ∈ (some (k, true) : SortedMap.Bound Key), b.1 ∈ FittingKeys s.type := by
    rintro _ ⟨⟩
    exact hk
  rw [← SortedMap.select_singleton, ← SortedMap.select_singleton]
  exact h.entries.select storedKey_strictMonoOn hbound hbound

theorem get_eq_select : s.indexSearch s.type (some k) (some k) = s.index.get k := by
  rw [State.indexSearch, if_neg fun h => h.1 rfl]
  exact SortedMap.select_singleton

theorem mem_of_mem_get (h : oid ∈ map.get k) : oid ∈ map.entries.map Prod.snd := by
  rw [← SortedMap.select_singleton] at h
  exact mem_of_mem_select h

/-- `db_index_get`. -/
theorem Refines.indexGet (h : Refines s m) (hfits : v.Fits s.type)
    (hclear : ∀ k ∈ v.key s.type, s.LoadsClear mems (s.index.get (storedKey s.type k))) :
    ∃ m', m.call (.get v mems) = some (m', (s.indexGet v mems).2) ∧ Refines (s.indexGet v mems).1 m' := by
  obtain ⟨k, hk, hkey, htransform⟩ := transform_fits hfits (s := s)
  have hloads := hclear k hkey
  have hget := h.get_eq hk
  have hunique := h.entries.unique
  have hcall : m.call (.get v mems) = some (m, m.get k) := by
    rw [Spec.call, ← h.type, hkey]
    rfl
  rw [hcall, State.indexGet, htransform]
  dsimp only
  rw [get_eq_select, Spec.get, ← hunique, ← hget]
  rcases hu : s.index.unique with _ | _
  · obtain ⟨hrefines, hlist⟩ := h.loads hloads fun _ => mem_of_mem_get
    exact ⟨m, by rw [← hlist]; rfl, hrefines⟩
  · cases hl : s.index.get (storedKey s.type k) with
    | nil => exact ⟨m, rfl, h⟩
    | cons oid oids =>
      rw [hl] at hloads
      obtain ⟨e, he, hoid⟩ := List.mem_map.mp (mem_of_mem_get (hl ▸ List.mem_cons_self))
      obtain ⟨hi, hkept, hload⟩ := h.inv.loadObject hloads.1 (hoid ▸ h.oids e he)
      dsimp only
      rw [hload]
      exact ⟨m, rfl, h.kept hi hkept⟩

/-- `db_index_set`. -/
theorem Refines.indexSet (h : Refines s m) {item : Item} {replace : Option Bool}
    (hsafe : (Op.set v item replace behind).Safe s) (hpermits : s.Permits (.set v item replace behind)) :
    ∃ m', m.call (.set v item replace behind) = some (m', (s.indexSet v item replace behind).2) ∧
      Refines (s.indexSet v item replace behind).1 m' := by
  cases item with
  | notPlain => exact ⟨m, rfl, h⟩
  | plain o =>
    obtain ⟨hfits, hset⟩ := hsafe
    obtain ⟨k, hk, hkey, htransform⟩ := transform_fits hfits (s := (s.persistEntity o).1)
    obtain ⟨hlong, hbehind⟩ := hset k hkey
    -- the object is in the storage, or gets the next identifier
    have hpersist : Refines (s.persistEntity o).1 { m with next := if o.isSome then m.next else m.next + 1 } ∧
        (s.persistEntity o).2 = o.getD m.next ∧ (s.persistEntity o).2 < (s.persistEntity o).1.nextOid := by
      cases o with
      | none => exact ⟨h.persist.1, h.persist.2, Nat.lt_succ_self _⟩
      | some oid =>
        obtain ⟨o, ho⟩ := holds_iff.mp hpermits
        exact ⟨h, rfl, h.inv.nextOid o oid ho⟩
    have hindex : (s.persistEntity o).1.index = s.index ∧ (s.persistEntity o).1.type = s.type := by
      cases o <;> exact ⟨rfl, rfl⟩
    obtain ⟨hrefines, hoid, hlt⟩ := hpersist
    have hreplace : replace.getD false = replace.getD behind ∨
        (s.persistEntity o).1.index.contains (storedKey (s.persistEntity o).1.type k) = false := by
      rw [hindex.1, hindex.2]
      rcases replace with _ | replace
      · rcases hbehind with hsome | hfalse | hnew
        · cases hsome
        · exact .inl hfalse.symm
        · exact .inr hnew
      · exact .inl rfl
    obtain ⟨hrefines', hdone⟩ := hrefines.set (hindex.2.symm ▸ hk) hlong hlt hreplace
    rw [hindex.2] at hrefines' hdone
    have hcall : m.call (.set v (.plain o) replace behind) =
        some (⟨m.type, (m.map.set k (o.getD m.next) (replace.getD false)).1,
          if o.isSome then m.next else m.next + 1, m.results⟩,
          .bool (m.map.set k (o.getD m.next) (replace.getD false)).2) := by
      rw [Spec.call, ← h.type, hkey]
      rfl
    rw [hcall, State.indexSet]
    dsimp only
    rw [htransform]
    rw [← hoid, hdone]
    exact ⟨_, rfl, hrefines'⟩

/-- The values of a range. -/
theorem Refines.yield (h : Refines s m) (hclear : s.LoadsClear mems oids)
    (hin : ∀ oid ∈ oids, oid ∈ s.index.entries.map Prod.snd) :
    (s.yield mems (some oids)).2 = .objects (oids.map some) ∧ Refines (s.yield mems (some oids)).1 m := by
  obtain ⟨hrefines, hlist⟩ := h.loads hclear hin
  exact ⟨congrArg Result.objects hlist, hrefines⟩

/-- A bound that fits, or none, is that of the map. -/
theorem bound_eq (h : v.Fits type ∨ v = .nullish) (inclusive : Bool) : ∃ b, v.bound type inclusive = some b ∧
    (∀ x ∈ b, x.1 ∈ FittingKeys type) ∧
    v.storedBound type inclusive = b.map (Prod.map (storedKey type) id) := by
  rcases h with hfits | rfl
  · obtain ⟨k, hk, hkey, -⟩ := transform_fits hfits (s := .initial type false)
    refine ⟨some (k, inclusive), ?_, ?_, ?_⟩
    · have hne : v ≠ .nullish := by
        rintro rfl
        cases type <;> exact hfits
      have hbound : v.bound type inclusive = (v.key type).map fun k => some (k, inclusive) := by
        cases v <;> first | rfl | exact absurd rfl hne
      rw [hbound, hkey]
      rfl
    · rintro _ ⟨⟩
      exact hk
    · rw [KeyValue.storedBound, hkey]
      rfl
  · refine ⟨none, rfl, nofun, ?_⟩
    cases type <;> rfl

/-- What `db_transform` makes of a bound that fits, or of none. -/
theorem transform_bound (h : v.Fits s.type ∨ v = .nullish) : ∃ t, s.transform v = (s, t) ∧
    (∀ inclusive, t.key.map (·, inclusive) = v.storedBound s.type inclusive) ∧
    (t.type = s.type ∨ t = ⟨.chars, none⟩) := by
  rcases h with hfits | rfl
  · obtain ⟨k, -, hkey, htransform⟩ := transform_fits hfits (s := s)
    refine ⟨_, htransform, fun inclusive => ?_, .inl rfl⟩
    rw [KeyValue.storedBound, hkey]
    rfl
  · refine ⟨_, rfl, fun inclusive => ?_, .inr rfl⟩
    cases s.type <;> rfl

theorem select_nil {hi : SortedMap.Bound Key} (h : s.index.entries = []) :
    s.index.select lo hi ascending = [] := by
  rw [SortedMap.select, h]
  cases ascending <;> rfl

/-- `db_index_select`. -/
theorem Refines.indexSelect (h : Refines s m) {start stop : KeyValue}
    {ascending startInclusive endInclusive : Option Bool} {misread : Key}
    (hsafe : (Op.select start stop ascending startInclusive endInclusive misread mems).Safe s) :
    ∃ m', m.call (.select start stop ascending startInclusive endInclusive misread mems) = some (m',
        (s.indexSelect start stop ascending startInclusive endInclusive misread mems).2) ∧
      Refines (s.indexSelect start stop ascending startInclusive endInclusive misread mems).1 m' := by
  obtain ⟨hstart, hstop, hclear⟩ := hsafe
  have hstart' : start.Fits s.type ∨ start = .nullish := hstart.imp_right And.left
  obtain ⟨lo, hlo, hloFits, hloStored⟩ := bound_eq hstart' (startInclusive.getD true)
  obtain ⟨hi, hhi, hhiFits, hhiStored⟩ := bound_eq hstop (endInclusive.getD true)
  obtain ⟨t, ht, htKey, htType⟩ := transform_bound hstart'
  obtain ⟨u, hu, huKey, huType⟩ := transform_bound hstop
  have hselect : s.index.select (start.storedBound s.type (startInclusive.getD true))
      (stop.storedBound s.type (endInclusive.getD true)) (ascending.getD true) =
      m.map.select lo hi (ascending.getD true) := by
    rw [hloStored, hhiStored]
    exact h.entries.select storedKey_strictMonoOn hloFits hhiFits
  -- an end without a key is not misread
  have hend : (if u.type = s.type then u.key else u.key.map fun _ => misread) = u.key := by
    split
    · rfl
    · rename_i hne
      rw [huType.resolve_left hne]
      rfl
  have hiterator : s.indexIterator t.type (start.storedBound s.type (startInclusive.getD true))
      (stop.storedBound s.type (endInclusive.getD true)) (ascending.getD true) =
      some (s.index.select (start.storedBound s.type (startInclusive.getD true))
        (stop.storedBound s.type (endInclusive.getD true)) (ascending.getD true)) := by
    rw [State.indexIterator]
    split
    · rename_i hnil
      rw [select_nil hnil]
    rename_i hne
    rw [if_neg]
    rintro ⟨htype, hsome⟩
    have htnull := htType.resolve_left htype
    rcases hstart with hfits | ⟨rfl, hchars | rfl | hnil⟩
    · obtain ⟨k, -, -, htransform⟩ := transform_fits hfits (s := s)
      cases ht.symm.trans htransform
      exact htype rfl
    · rw [htnull] at htype
      exact htype hchars.symm
    · have hnone : KeyValue.nullish.key s.type = none := by cases s.type <;> rfl
      rw [KeyValue.storedBound, KeyValue.storedBound, hnone] at hsome
      exact hsome.elim nofun nofun
    · exact hne hnil
  obtain ⟨hresult, hrefines⟩ := h.yield hclear fun _ => mem_of_mem_select
  have hcall : m.call (.select start stop ascending startInclusive endInclusive misread mems) =
      some (m, .objects ((s.index.select (start.storedBound s.type (startInclusive.getD true))
        (stop.storedBound s.type (endInclusive.getD true)) (ascending.getD true)).map some)) := by
    rw [Spec.call, ← h.type, hlo, hhi, hselect]
    rfl
  rw [hcall, State.indexSelect, ht]
  dsimp only
  rw [hu]
  rw [hend, htKey, huKey, hiterator, hresult]
  exact ⟨m, rfl, hrefines⟩

/-- A call that is safe returns what the map returns. -/
theorem Refines.call (h : Refines s m) (hsafe : op.Safe s) (hpermits : s.Permits op) :
    ∃ m', m.call op = some (m', (s.call op).2) ∧ Refines (s.call op).1 m' := by
  cases op with
  | set key item replace behind => exact h.indexSet hsafe hpermits
  | get key mems => exact h.indexGet hsafe.1 hsafe.2
  | delete key oid => exact hsafe.elim
  | clear =>
    exact ⟨_, rfl, ⟨h.inv.entry, h.inv.block, h.inv.order, h.inv.objects, h.inv.oids, h.inv.nextObject,
      h.inv.entryNext, h.inv.nextOid⟩, h.type, h.entries.clear, h.next, nofun, h.results⟩
  | length =>
    have hlength : (s.indexSearch s.type none none).length = m.map.entries.length := by
      rw [State.indexSearch, if_neg fun h => h.1 rfl]
      refine (congrArg List.length SortedMap.select_unbounded).trans ?_
      rw [List.length_map, h.entries.entries, List.length_map]
    exact ⟨m, by rw [State.call, State.indexGetLength, hlength]; rfl, h⟩
  | select start stop ascending startInclusive endInclusive misread mems => exact h.indexSelect hsafe
  | iterate mems =>
    have hiterator : s.indexIterator s.type none none true = some (s.index.entries.map Prod.snd) := by
      rw [State.indexIterator]
      split
      · rename_i hnil
        rw [hnil]
        rfl
      · rw [if_neg fun h => h.1 rfl, SortedMap.select_unbounded]
    have hvalues : s.index.entries.map Prod.snd = m.map.entries.map Prod.snd := by
      rw [h.entries.entries, List.map_map]
      rfl
    obtain ⟨hresult, hrefines⟩ := h.yield hsafe fun _ => id
    refine ⟨m, ?_, ?_⟩
    · rw [State.call, State.createIndexIterator, hiterator, hresult, hvalues, List.map_map]
      rfl
    · rw [State.call, State.createIndexIterator, hiterator]
      exact hrefines
  | persist => exact ⟨_, rfl, h.persist.1⟩
  | load oid mem =>
    obtain ⟨hi, hkept, hload⟩ := h.inv.loadObject hsafe hpermits
    refine ⟨m, ?_, h.kept hi hkept⟩
    rw [State.call]
    dsimp only
    rw [hload]
    rfl
  | free oid mem => exact ⟨m, rfl, h.kept (h.inv.free hsafe hpermits) ⟨rfl, rfl, rfl, rfl⟩⟩
  | commit =>
    have hintact : s.intact := hsafe
    exact ⟨m, by rw [State.call, if_pos hintact]; rfl, h⟩
  | reopen =>
    have hintact : s.intact := hsafe
    refine ⟨m, by rw [State.call, if_pos hintact]; rfl, ?_, h.type, h.entries, h.next, h.oids, h.results⟩
    exact ⟨nofun, nofun, .nil, .nil, .nil, nofun, nofun, nofun⟩

theorem Refines.step (h : Refines s m) (hsafe : op.Safe s) (hs : s.step op = some s') :
    ∃ m', m.step op = some m' ∧ Refines s' m' := by
  unfold State.step at hs
  split at hs
  · rename_i hpermits
    cases hs
    obtain ⟨m', hcall, hrefines⟩ := h.call hsafe hpermits
    exact ⟨_, by rw [Spec.step, hcall]; rfl, hrefines.results_cons _⟩
  · cases hs

theorem refines_initial : Refines (.initial type unique) (.initial type unique) where
  inv := ⟨nofun, nofun, .nil, .nil, .nil, nofun, nofun, nofun⟩
  type := rfl
  entries := ⟨rfl, rfl, nofun⟩
  next := rfl
  oids := nofun
  results := rfl

/-! ## Runs -/

/-- In a run of safe steps the index is a sorted map. -/
theorem results_of_safe (hs : exec State.step (.initial type unique) ops = some s)
    (hsafe : Along State.step (fun s op => op.Safe s) (.initial type unique) ops) :
    ∃ m, exec Spec.step (.initial type unique) ops = some m ∧ s.results = m.results := by
  have hstep (s : State) (m : Spec) (op : Op) (s' : State) (h : Refines s m) (hok : op.Safe s)
      (hs : State.step s op = some s') : ∃ m', Spec.step m op = some m' ∧ Refines s' m' := h.step hok hs
  obtain ⟨m, hm, hrefines⟩ := hsafe.simulates hstep refines_initial hs
  exact ⟨m, hm, hrefines.results⟩

/-- Two objects under dates, found again in a range after a commit, and under a key after reopening. -/
def datesRun : List Op :=
  [.set (.date (some 2000)) (.plain none) (some false) true,
    .set (.date (some 1000)) (.plain none) none false,
    .commit,
    .select (.date (some 1000)) (.date (some 2000)) (some false) none none (.num 0) fun _ _ => 0,
    .reopen, .get (.date (some 1000)) fun _ _ => 0, .length]

theorem datesRun_results : ∃ s m, exec State.step (.initial .date true) datesRun = some s ∧
    exec Spec.step (.initial .date true) datesRun = some m ∧ s.results = m.results := by
  have hrun : (execIf (fun s op => decide (op.Safe s)) State.step (.initial .date true) datesRun).isSome := by
    decide
  have hsome : (exec State.step (.initial .date true) datesRun).isSome := by decide
  obtain ⟨s, hs⟩ := Option.isSome_iff_exists.mp hsome
  obtain ⟨m, hm, hresults⟩ := results_of_safe hs (Along.of_execIf (fun _ _ => of_decide_eq_true) hrun)
  exact ⟨s, m, hs, hm, hresults⟩

/-- `delete` leaves the object of the key where it is. -/
theorem delete_ignored : ∃ s m,
    exec State.step (.initial .int true)
      [.set (.int 3) (.plain none) (some false) false, .delete (.int 3) none, .length] = some s ∧
    exec Spec.step (.initial .int true)
      [.set (.int 3) (.plain none) (some false) false, .delete (.int 3) none, .length] = some m ∧
    s.results = [.int 1, .undefined, .bool true] ∧ m.results = [.int 0, .bool true, .bool true] :=
  ⟨_, _, rfl, rfl, rfl, rfl⟩

end QuickJs.Storage
