import QuickJs.ShapeRun
import Mathlib.Data.Fintype.EquivFin

/-!
# The entry that does not fit

The link of an entry has 26 bits and nothing bounds the number of properties of an object.
Entry number `2 ^ 26` is stored as 0 in the link of the next entry of its bucket, so that the
property is there but is no longer found.
-/

namespace QuickJs.Shape

open JSShape Run HashChain

variable {s s' : JSRuntime} {sh : JSShape} {o : JSObject} {p q : Ptr} {pr : JSShapeProperty}
  {atom : JSAtom} {flags : BitVec 6} {val : JSValue} {proto : Option Ptr}

/-! ## The last entry -/

/-- The last property is the first one of its bucket. -/
def LastFirst (sh : JSShape) : Prop :=
  ∀ k, sh.keys.getLast? = some k → sh.head (sh.bucket k.1) = sh.prop.length

theorem lastFirst_link (hatom : pr.atom ≠ jsAtomNull) (hsize : 0 < sh.propHash.length) :
    LastFirst (sh.link pr) := by
  intro k hk
  rw [keys_link, List.getLast?_concat] at hk
  obtain rfl := Option.some.inj hk
  rw [bucket_link, head_link hatom hsize, length_prop_link]
  exact if_pos rfl

theorem lastFirst_rebuild {hashSize : ℕ} {prs : List JSShapeProperty} (hsize : 0 < hashSize)
    (hatoms : ∀ pr ∈ prs, pr.atom ≠ jsAtomNull) : LastFirst (sh.rebuild hashSize prs) := by
  rcases List.eq_nil_or_concat' prs with rfl | ⟨prs, pr, rfl⟩
  · exact nofun
  · rw [rebuild, List.foldl_append]
    obtain ⟨prop, table, heq, _, hlen⟩ :=
      foldl_link_eq prs { sh with propHash := .replicate hashSize 0, prop := [] }
    rw [heq]
    refine lastFirst_link (hatoms pr (by simp)) ?_
    rw [hlen, List.length_replicate]
    exact hsize

theorem growHashSize_le : ∀ (fuel hashSize size : ℕ),
    growHashSize fuel hashSize size ≤ max hashSize (2 * size)
  | 0, _, _ => Nat.le_max_left ..
  | fuel + 1, hashSize, size => by
    unfold growHashSize
    split
    · have := growHashSize_le fuel (2 * hashSize) size
      omega
    · exact Nat.le_max_left ..

theorem length_propHash_resize (sh : JSShape) (size : ℕ) :
    (sh.resize size).propHash.length ≤ growHashSize size sh.propHash.length size := by
  rw [resize]
  split
  · obtain ⟨prop, table, heq, _, hlen⟩ := foldl_link_eq sh.prop
      { sh with
        propHash := .replicate (growHashSize size sh.propHash.length size) 0
        prop := [] }
    rw [rebuild, heq]
    exact (hlen.trans List.length_replicate).le
  · rename_i hsame
    exact (not_not.mp hsame).ge

theorem lastFirst_resize {size : ℕ} (h : sh.Valid) (hatoms : ∀ pr ∈ sh.prop, pr.atom ≠ jsAtomNull)
    (hlast : LastFirst sh) : LastFirst (sh.resize size) := by
  rw [resize]
  split
  · exact lastFirst_rebuild (growHashSize_pos h.chains.size) hatoms
  · exact hlast

/-- The shape with room for one more property. -/
def JSShape.withRoom (sh : JSShape) : JSShape :=
  if sh.propSize ≤ sh.prop.length then sh.resize (sh.newSize (sh.prop.length + 1)) else sh

/-- A shape with the properties 1 to `n`. -/
structure Filled (sh : JSShape) (n : ℕ) : Prop where
  valid : sh.Valid
  keys : sh.keys = (List.range n).map fun k => (k + 1, jsPropCWE)
  table : sh.propHash.length ≤ 2 ^ 28
  last : LastFirst sh

theorem Filled.length {n : ℕ} (h : Filled sh n) : sh.prop.length = n := by
  rw [← length_keys, h.keys, List.length_map, List.length_range]

theorem withRoom_eq (h : sh.Valid) : ∃ prop table propSize, sh.withRoom =
    { sh with prop := prop, propHash := table, propSize := propSize } ∧
      prop.map JSShapeProperty.key = sh.keys ∧ sh.prop.length < propSize := by
  unfold JSShape.withRoom
  split
  · obtain ⟨_, prop, table, heq, hkeys⟩ := resize_eq h (sh.newSize (sh.prop.length + 1))
    exact ⟨prop, table, _, heq, hkeys, Nat.le_max_left ..⟩
  · exact ⟨sh.prop, sh.propHash, sh.propSize, rfl, rfl, by omega⟩

theorem Filled.withRoom {n : ℕ} (h : Filled sh n) (hn : n ≤ 2 ^ 26) : Filled sh.withRoom n := by
  have hlen := h.length
  unfold JSShape.withRoom
  split
  · have hsize : sh.newSize (sh.prop.length + 1) ≤ 2 ^ 27 := by
      unfold JSShape.newSize
      omega
    have hpos : sh.prop.length + 1 ≤ sh.newSize (sh.prop.length + 1) := Nat.le_max_left ..
    generalize sh.newSize (sh.prop.length + 1) = size at hsize hpos
    have hgrow := growHashSize_le size sh.propHash.length size
    have hbound := h.table
    have hatoms : ∀ pr ∈ sh.prop, pr.atom ≠ jsAtomNull := fun pr hpr => by
      have hmem : pr.key ∈ sh.keys := List.mem_map_of_mem hpr
      rw [h.keys] at hmem
      obtain ⟨k, _, hk⟩ := List.mem_map.mp hmem
      have hatom : k + 1 = pr.atom := congrArg Prod.fst hk
      exact hatom ▸ Nat.succ_ne_zero k
    obtain ⟨_, prop, table, heq, hkeys⟩ := resize_eq h.valid size
    refine ⟨h.valid.resize (by omega), by rw [← h.keys, ← hkeys, heq]; rfl, ?_, ?_⟩
    · refine Nat.le_trans (length_propHash_resize sh size) ?_
      omega
    · exact lastFirst_resize h.valid hatoms h.last
  · exact h

theorem Filled.add {n m : ℕ} (h : Filled sh n) (hroom : sh.prop.length < sh.propSize)
    (hn : n < 2 ^ 26) : Filled { sh.add (n + 1) jsPropCWE with hash := m } (n + 1) := by
  have hfresh : ∀ k ∈ sh.keys, k.1 ≠ n + 1 := fun k hk heq => by
    rw [h.keys] at hk
    obtain ⟨i, hi, rfl⟩ := List.mem_map.mp hk
    have hlt := List.mem_range.mp hi
    have hi' : i + 1 = n + 1 := heq
    omega
  have hvalid := h.valid.add jsPropCWE (Nat.succ_ne_zero n) hfresh (h.length ▸ hn) hroom
  have hlast : LastFirst (sh.link ⟨0, jsPropCWE, n + 1⟩) :=
    lastFirst_link (Nat.succ_ne_zero n) h.valid.chains.size
  refine ⟨hvalid.congr (hvalid.chains.of_eq rfl rfl) rfl rfl rfl hvalid.fits, ?_, ?_, hlast⟩
  · rw [List.range_succ, List.map_append, ← h.keys]
    exact keys_add
  · exact length_propHash_link.trans_le h.table

/-! ## An object that grows -/

theorem objectShape_put {o' : JSObject} {sh' : JSShape} (hobj : s.object p = some o)
    (hs' : s' = (s.setShape o'.shape (some sh')).setObject p o') :
    s'.objectShape p = some (o', sh') := by
  have hobj' : (s.setShape o'.shape (some sh')).object p = some o := hobj
  refine objectShape_eq_some.mpr ⟨?_, ?_⟩
  · rw [hs', object_setObject hobj', if_pos rfl]
  · rw [hs']
    exact (shape_setShape ..).trans (if_pos rfl)

/-- A full shape is moved to `q`. -/
theorem resizeProperties_free (count : ℕ) (hp : s.objectShape p = some (o, sh))
    (hfree : s.shape q = none) : ∃ s' o', resizeProperties s p count [some 0, some q] =
      (true, s', []) ∧ s'.objectShape p = some (o', sh.resize (sh.newSize count)) ∧
      o'.fastArray = o.fastArray := by
  obtain ⟨hobj, hsh⟩ := objectShape_eq_some.mp hp
  have hobj' := object_setObject hobj { o with propAlloc := sh.newSize count } p
  rw [if_pos rfl] at hobj'
  have hmalloc : (s.setObject p { o with propAlloc := sh.newSize count }).malloc [some q] = (some q, []) := by
    exact congrArg (Prod.mk · _) (if_pos hfree)
  have hrealloc : (s.setObject p { o with propAlloc := sh.newSize count }).realloc o.shape [some q] =
      (some q, []) := by
    exact congrArg (Prod.mk · _) (if_pos (.inr hfree))
  have hr : resizeProperties s p count [some 0, some q] = (true,
      ((((s.setObject p { o with propAlloc := sh.newSize count }).setShape o.shape none).setShape q
        (some (sh.resize (sh.newSize count)))).setObject p
          { o with shape := q, propAlloc := sh.newSize count }), []) := by
    rw [resizeProperties, hp]
    simp only [JSRuntime.mallocOther, Option.isSome_some, hmalloc, hrealloc, ite_self]
  exact ⟨_, { o with shape := q, propAlloc := sh.newSize count }, hr, objectShape_put (s :=
    (s.setObject p { o with propAlloc := sh.newSize count }).setShape o.shape none) hobj' rfl, rfl⟩

/-- A property is added to a shape that the object has for itself; a block at `q` is free. -/
theorem addProperty_free (atom : JSAtom) (flags : BitVec 6) (val : JSValue) (h : Inv s s.hashOf [])
    (hp : s.objectShape p = some (o, sh)) (hun : sh.isHashed = false) (hfree : s.shape q = none) : ∃ s' o' mem',
      addProperty s p atom flags val [some 0, some q] = (true, s', mem') ∧
      s'.objectShape p = some (o', { sh.withRoom.add atom flags with hash := sh.hash }) ∧
      o'.fastArray = o.fastArray := by
  obtain ⟨hobj, hsh⟩ := objectShape_eq_some.mp hp
  have hroom : ∃ s₁ o₁ mem₁, (if sh.propSize ≤ sh.prop.length then
      resizeProperties s p (sh.prop.length + 1) [some 0, some q] else (true, s, [some 0, some q])) =
        (true, s₁, mem₁) ∧ s₁.objectShape p = some (o₁, sh.withRoom) ∧
        o₁.fastArray = o.fastArray := by
    unfold JSShape.withRoom
    split
    · obtain ⟨s₁, o₁, hr, hp₁, hfast⟩ := resizeProperties_free (sh.prop.length + 1) hp hfree
      exact ⟨s₁, o₁, [], hr, hp₁, hfast⟩
    · exact ⟨s, o, _, rfl, hp, rfl⟩
  obtain ⟨s₁, o₁, mem₁, hr, hp₁, hfast⟩ := hroom
  have hun₁ : sh.withRoom.isHashed = false := by
    obtain ⟨prop, table, propSize, heq, _⟩ := withRoom_eq (h.valid _ _ hsh)
    rw [heq]
    exact hun
  have hadd : addProperty s p atom flags val [some 0, some q] = (true,
      ((s₁.setShape o₁.shape (some { sh.withRoom.add atom flags with hash := sh.hash })).setObject p
        { o₁ with prop := o₁.prop ++ [val] }), mem₁) := by
    rw [addProperty]
    simp only [hun, addShapeProperty, hp, Bool.false_eq_true, if_false, hr, Bool.not_true, hp₁, hun₁]
  exact ⟨_, { o₁ with prop := o₁.prop ++ [val] }, mem₁, hadd,
    objectShape_put (objectShape_eq_some.mp hp₁).1 rfl, hfast⟩

/-- Some address is free. -/
theorem exists_free (h : Inv s s.hashOf []) : ∃ q, s.shape q = none := by
  obtain ⟨q, hq⟩ := Infinite.exists_notMem_finset
    (s.arrayShape.toList ++ s.objects.filterMap (·.map JSObject.shape)).toFinset
  rw [List.mem_toFinset, List.mem_append, not_or] at hq
  refine ⟨q, Option.eq_none_iff_forall_ne_some.mpr fun sh hsh => ?_⟩
  have hpos := h.positive q sh hsh
  rw [h.refs q sh hsh, JSRuntime.holders, if_neg, List.count_nil, Nat.add_zero, List.countP_pos_iff] at hpos
  · obtain ⟨o, ho, hany⟩ := hpos
    cases o with
    | none => cases hany
    | some o => exact hq.2 (List.mem_filterMap.mpr ⟨_, ho, by simpa using hany⟩)
  · intro harray
    exact hq.1 (by simp [harray])

/-- Object 0 has the properties 1 to `n` and a shape for itself. -/
def Grown (w : World) (n : ℕ) : Prop :=
  ∃ o sh, w.rt.objectShape 0 = some (o, sh) ∧ sh.isHashed = false ∧ o.fastArray = none ∧ Filled sh n

/-- One more property is added. -/
theorem Grown.add {w : World} {n : ℕ} (h : Grown w n) (hinv : Inv w.rt w.rt.hashOf [])
    (hatom : atom ≠ jsAtomNull) (hfresh : ∀ k < n, k + 1 ≠ atom) :
    ∃ mem w' o sh o', w.rt.objectShape 0 = some (o, sh) ∧ Filled sh n ∧
      w.step proto (.add 0 atom jsPropCWE 0, mem) = some w' ∧ sh.isHashed = false ∧
      w'.rt.objectShape 0 = some (o', { sh.withRoom.add atom jsPropCWE with hash := sh.hash }) ∧
      o'.fastArray = none := by
  obtain ⟨o, sh, hp, hun, hfast, hfilled⟩ := h
  obtain ⟨q, hfree⟩ := exists_free hinv
  obtain ⟨s', o', mem', hr, hp', hfast'⟩ := addProperty_free atom jsPropCWE 0 hinv hp hun hfree
  have hkeys : ∀ k ∈ sh.keys, k.1 ≠ atom := fun k hk => by
    rw [hfilled.keys] at hk
    obtain ⟨i, hi, rfl⟩ := List.mem_map.mp hk
    exact hfresh i (List.mem_range.mp hi)
  have hzero := (hfilled.valid.findOwnProperty_eq_zero hatom).mpr hkeys
  have hallowed : (Op.add 0 atom jsPropCWE 0).allowed w.rt := by
    have helement : o.hasElement atom = false := by
      simp only [JSObject.hasElement, hfast, Option.getD_none, List.length_nil, Nat.not_lt_zero,
        decide_false, Bool.and_false]
    rw [Op.allowed, (objectShape_eq_some.mp hp).1, Option.any_some, helement, hasEntry_eq hp, hzero]
    simpa using hatom
  have hperform : ((Op.add 0 atom jsPropCWE 0).perform w.rt [some 0, some q]).2 = s' := by
    simp only [Op.perform, hr]
  exact ⟨_, _, o, sh, o', hp, hfilled, step_eq_some.mpr ⟨hallowed, rfl⟩, hun, hperform ▸ hp',
    hfast'.trans hfast⟩

/-- An object that has changed its prototype has a shape for itself. -/
theorem grown_zero : ∃ w, SmallRun none 0 w ∧ Grown w 0 := by
  obtain ⟨w₁, h₁, w₂, h₂, hw⟩ : ∃ w₁, (initial none 0).step none (.newObject none, [some 1, some 0, some 0]) =
      some w₁ ∧ ∃ w₂, w₁.step none (.setPrototype 0 none, []) = some w₂ ∧
      (w₂.rt.objectShape 0).any fun x => x.2.isHashed = false ∧ x.1.fastArray = none ∧
        x.2.keys = [] ∧ x.2.propHash.length ≤ 2 ^ 28 := ⟨_, rfl, _, rfl, by decide +kernel⟩
  have hnew : (Op.newObject none).Fits26 (initial none 0).rt := trivial
  have hset : (Op.setPrototype 0 none).Fits26 w₁.rt := trivial
  have hrun : SmallRun none 0 w₂ := .step (.step (.init rfl) hnew h₁) hset h₂
  obtain ⟨⟨o, sh⟩, hp, hx⟩ := (Option.any_eq_true _ _).mp hw
  obtain ⟨hun, hfast, hkeys, htable⟩ := of_decide_eq_true hx
  have hvalid := hrun.good.inv.valid _ _ (objectShape_eq_some.mp hp).2
  refine ⟨w₂, hrun, o, sh, hp, hun, hfast, hvalid, hkeys, htable, fun k hk => ?_⟩
  rw [hkeys] at hk
  cases hk

theorem exists_grown : ∀ n ≤ 2 ^ 26, ∃ w, SmallRun none 0 w ∧ Grown w n
  | 0, _ => grown_zero
  | n + 1, hn => by
    obtain ⟨w, hrun, hgrown⟩ := exists_grown n (Nat.le_of_succ_le hn)
    obtain ⟨mem, w', o, sh, o', hp, hfilled, hstep, hun, hp', hfast⟩ :=
      hgrown.add hrun.good.inv (Nat.succ_ne_zero n) fun k hk heq => by omega
    have hsmall : (Op.add 0 (n + 1) jsPropCWE 0).Fits26 w.rt := fun o₁ sh₁ hp₁ => by
      obtain ⟨_, rfl⟩ := Prod.mk.inj (Option.some.inj (hp.symm.trans hp₁))
      rw [hfilled.length]
      exact hn
    obtain ⟨prop, table, propSize, heq, _, hroom⟩ := withRoom_eq hfilled.valid
    have hfilled' := hfilled.withRoom (Nat.le_of_succ_le hn)
    have hroom' : sh.withRoom.prop.length < sh.withRoom.propSize := by
      rw [hfilled'.length, ← hfilled.length, heq]
      exact hroom
    have hun' : sh.withRoom.isHashed = false := by
      rw [heq]
      exact hun
    exact ⟨w', hrun.step hsmall hstep, o', _, hp', isHashed_add.trans hun', hfast, hfilled'.add hroom' hn⟩

/-! ## The entry that is lost -/

/-- Atoms that differ by `2 ^ 28` are in one bucket of a table with at most `2 ^ 28` entries. -/
theorem bucket_add_pow (hsize : 0 < sh.propHash.length) (hle : sh.propHash.length ≤ 2 ^ 28) (n : ℕ) :
    sh.bucket (2 ^ 28 + n) = sh.bucket n := by
  unfold bucket
  have hlt : sh.propHash.length - 1 < 2 ^ 28 := by omega
  refine Nat.eq_of_testBit_eq fun i => ?_
  rw [Nat.testBit_and, Nat.testBit_and]
  rcases Nat.lt_or_ge i 28 with hi | hi
  · rw [Nat.testBit_two_pow_add_gt hi]
  · rw [Nat.testBit_lt_two_pow (Nat.lt_of_lt_of_le hlt (Nat.pow_le_pow_right (by decide) hi)),
      Bool.and_false, Bool.and_false]

/-- The number of the last entry does not fit in the link of a new entry of its bucket, and the
search for it ends at the new entry. -/
theorem findOwnProperty_lost {n : ℕ} (flags : BitVec 6) (h : Filled sh (n + 1)) (hlink : BitVec.ofNat 26 (n + 1) = 0)
    (hatom : atom ≠ jsAtomNull) (hne : atom ≠ n + 1) (hbucket : sh.bucket atom = sh.bucket (n + 1)) :
    (sh.link ⟨0, flags, atom⟩).LiveAt (n + 1) (n + 1) ∧
      (sh.link ⟨0, flags, atom⟩).findOwnProperty (n + 1) = 0 := by
  have hlast : sh.keys.getLast? = some (n + 1, jsPropCWE) := by
    rw [h.keys, List.range_succ, List.map_append]
    exact List.getLast?_concat
  have hhead : sh.head (sh.bucket (n + 1)) = n + 1 := (h.last _ hlast).trans h.length
  have hsize := h.valid.chains.size
  have hkey : sh.keys[n]? = some (n + 1, jsPropCWE) := by
    rw [h.keys, List.getElem?_map, List.getElem?_range (Nat.lt_succ_self n)]
    rfl
  have hlive : sh.LiveAt (n + 1) (n + 1) := liveAt_of_key (Nat.succ_ne_zero n) hkey
  refine ⟨(liveAt_link hatom).mpr (.inl hlive), ?_⟩
  · have hentry := @entry_link_last sh ⟨0, flags, atom⟩ hatom
    rw [hbucket, hhead, hlink, h.length] at hentry
    have hat : (sh.link ⟨0, flags, atom⟩).isAt (n + 1) (n + 1 + 1) = false := by
      rw [isAt, hentry]
      exact decide_eq_false hne
    have hnext : (sh.link ⟨0, flags, atom⟩).next (n + 1 + 1) = 0 := by
      rw [next, hentry]
      rfl
    rw [findOwnProperty, bucket_link, head_link hatom hsize, if_pos hbucket.symm, length_prop_link,
      h.length, findFrom, hat, hnext, findFrom]
    simp

/-- An object with the properties 1 to `2 ^ 26` gets the property `2 ^ 26 + 2 ^ 28`: it still has
the property `2 ^ 26`, which is not found any more. -/
theorem shapes_not_correct : ¬∀ (proto : Option Ptr) (q : Ptr) (w : World),
    Reachable (· = initial proto q) (World.step proto) (fun _ _ => True) w → Correct w := by
  intro hall
  obtain ⟨n, hn⟩ : ∃ n, n + 1 = 2 ^ 26 := ⟨2 ^ 26 - 1, rfl⟩
  obtain ⟨w, hrun, hgrown⟩ := exists_grown (n + 1) hn.le
  have hnull : 2 ^ 28 + (n + 1) ≠ jsAtomNull := Nat.succ_ne_zero _
  have hne : 2 ^ 28 + (n + 1) ≠ n + 1 := by omega
  obtain ⟨mem, w', o, sh, o', _, hfilled, hstep, _, hp', _⟩ :=
    hgrown.add hrun.good.inv hnull fun k hk heq => by omega
  have hfilled' := hfilled.withRoom hn.le
  have hlink : BitVec.ofNat 26 (n + 1) = 0 := by
    rw [hn]
    decide
  obtain ⟨hlive, hlost⟩ := findOwnProperty_lost jsPropCWE hfilled' hlink hnull hne
      (bucket_add_pow hfilled'.valid.chains.size hfilled'.table (n + 1))
  have hreach : Reachable (· = initial none 0) (World.step none) (fun _ _ => True) w :=
    Reachable.invariant (I := Reachable _ _ _) (fun _ h => .init h) (fun _ _ _ h _ hs => h.step trivial hs) hrun
  have hcorrect := hall none 0 w' (hreach.step trivial hstep)
  have hfound := (hcorrect.shape _ _ (objectShape_eq_some.mp hp').2).found (n + 1) (n + 1) hlive
  exact Nat.succ_ne_zero n (hfound.symm.trans hlost)

end QuickJs.Shape
