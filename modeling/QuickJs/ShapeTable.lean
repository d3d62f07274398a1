import QuickJs.ShapeChains

/-!
# The hash table of the shapes

`Inv` is the representation invariant of the runtime: every shape is valid and counts its
references, only hashed shapes are shared, the table of shapes holds exactly the hashed ones,
and every object has as many values as its shape has properties.
-/

namespace QuickJs.Shape

open JSShape

variable {s s' t : JSRuntime} {sh sh' : JSShape} {o o' : JSObject} {p q q' : Ptr} {b bits hash : ℕ}
  {table : List (List Ptr)} {linked : Ptr → Option ℕ} {held : List Ptr} {mem mem' : Alloc}

/-! ## The table -/

/-- The table holds exactly the shapes that have a hash. -/
structure Table (bits : ℕ) (table : List (List Ptr)) (linked : Ptr → Option ℕ) : Prop where
  length : table.length = 2 ^ bits
  lt : ∀ q h, linked q = some h → h < 2 ^ 32
  mem : ∀ (b : ℕ) (q : Ptr), q ∈ table[b]?.getD [] ↔ ∃ h, linked q = some h ∧ getShapeHash h bits = b
  nodup : ∀ b : ℕ, (table[b]?.getD []).Nodup

theorem getShapeHash_lt (h : hash < 2 ^ 32) : getShapeHash hash bits < 2 ^ bits := by
  rw [getShapeHash, Nat.div_lt_iff_lt_mul (Nat.two_pow_pos _), ← Nat.pow_add]
  exact Nat.lt_of_lt_of_le h (Nat.pow_le_pow_right (by omega) (by omega))

theorem shapeHash_lt (h val : ℕ) : shapeHash h val < 2 ^ 32 := Nat.mod_lt _ (Nat.two_pow_pos _)

theorem shapeInitialHash_lt (proto : Option Ptr) : shapeInitialHash proto < 2 ^ 32 :=
  shapeHash_lt ..

/-- A bucket after a change of one of them. -/
theorem getElem?_modify_getD {f : List Ptr → List Ptr} (hb : b < table.length) (b' : ℕ) :
    (table.modify b f)[b']?.getD [] = if b' = b then f (table[b']?.getD []) else table[b']?.getD [] := by
  by_cases h : b' = b
  · subst h
    simp [List.getElem?_eq_getElem hb]
  · rw [if_neg h, List.getElem?_modify_ne _ _ (Ne.symm h)]

/-- `js_shape_hash_link`. -/
theorem Table.link (h : Table bits table linked) (hq : linked q = none) (hlt : hash < 2 ^ 32) :
    Table bits (table.modify (getShapeHash hash bits) (q :: ·))
      (Function.update linked q (some hash)) := by
  have hb : getShapeHash hash bits < table.length := h.length ▸ getShapeHash_lt hlt
  have hnot : ∀ b : ℕ, q ∉ table[b]?.getD [] := fun b hmem => by
    obtain ⟨_, hsome, _⟩ := (h.mem b q).mp hmem
    rw [hq] at hsome
    cases hsome
  refine ⟨by rw [List.length_modify, h.length], fun q' h' hq' => ?_, fun b q' => ?_, fun b => ?_⟩
  · rw [Function.update_apply] at hq'
    split at hq'
    · exact Option.some.inj hq' ▸ hlt
    · exact h.lt q' h' hq'
  · rw [getElem?_modify_getD hb, Function.update_apply]
    by_cases hqq : q' = q
    · subst hqq
      rw [if_pos rfl]
      simp only [Option.some.injEq, exists_eq_left']
      split
      · rename_i hbb
        simp [hbb]
      · rename_i hbb
        exact ⟨fun hmem => absurd hmem (hnot b), fun heq => absurd heq.symm hbb⟩
    · rw [if_neg hqq, ← h.mem]
      split
      · simp [hqq]
      · rfl
  · rw [getElem?_modify_getD hb]
    split
    · exact List.nodup_cons.mpr ⟨hnot b, h.nodup b⟩
    · exact h.nodup b

/-- `js_shape_hash_unlink`. -/
theorem Table.unlink (h : Table bits table linked) (hq : linked q = some hash) :
    Table bits (table.modify (getShapeHash hash bits) (·.erase q))
      (Function.update linked q none) := by
  have hb : getShapeHash hash bits < table.length := h.length ▸ getShapeHash_lt (h.lt q hash hq)
  refine ⟨by rw [List.length_modify, h.length], fun q' h' hq' => ?_, fun b q' => ?_, fun b => ?_⟩
  · rw [Function.update_apply] at hq'
    split at hq'
    · cases hq'
    · exact h.lt q' h' hq'
  · rw [getElem?_modify_getD hb, Function.update_apply]
    by_cases hqq : q' = q
    · subst hqq
      rw [if_pos rfl]
      simp only [reduceCtorEq, false_and, exists_false, iff_false]
      split
      · exact fun hmem => absurd ((h.nodup b).mem_erase_iff.mp hmem).1 (by simp)
      · rename_i hbb
        intro hmem
        obtain ⟨_, hsome, heq⟩ := (h.mem b q').mp hmem
        cases hq.symm.trans hsome
        exact hbb heq.symm
    · rw [if_neg hqq, ← h.mem]
      split
      · exact List.mem_erase_of_ne hqq
      · rfl
  · rw [getElem?_modify_getD hb]
    split
    · exact (h.nodup b).erase q
    · exact h.nodup b

theorem Table.mem_flatten (h : Table bits table linked) :
    q ∈ table.flatten ↔ ∃ hash, linked q = some hash := by
  rw [List.mem_flatten]
  constructor
  · rintro ⟨l, hl, hq⟩
    obtain ⟨b, hb⟩ := List.mem_iff_getElem?.mp hl
    obtain ⟨hash, hhash, _⟩ := (h.mem b q).mp (by rwa [hb])
    exact ⟨hash, hhash⟩
  · rintro ⟨hash, hhash⟩
    have hb : getShapeHash hash bits < table.length := h.length ▸ getShapeHash_lt (h.lt q hash hhash)
    refine ⟨table[getShapeHash hash bits], List.getElem_mem hb, ?_⟩
    have hmem := (h.mem (getShapeHash hash bits) q).mpr ⟨hash, hhash, rfl⟩
    rwa [List.getElem?_eq_getElem hb] at hmem

theorem Table.nodup_flatten (h : Table bits table linked) : table.flatten.Nodup := by
  refine List.nodup_flatten.mpr ⟨fun l hl => ?_, List.pairwise_iff_getElem.mpr ?_⟩
  · obtain ⟨b, hb⟩ := List.mem_iff_getElem?.mp hl
    have := h.nodup b
    rwa [hb] at this
  · intro b b' hb hb' hlt q hq hq'
    obtain ⟨hash, hhash, rfl⟩ := (h.mem b q).mp (by rwa [List.getElem?_eq_getElem hb])
    obtain ⟨hash', hhash', rfl⟩ := (h.mem b' q).mp (by rwa [List.getElem?_eq_getElem hb'])
    cases hhash.symm.trans hhash'
    exact Nat.lt_irrefl _ hlt

/-- The loop of `resize_shape_hash`. -/
theorem Table.foldl_link {f : Ptr → ℕ} : ∀ {l : List Ptr} {table : List (List Ptr)}
    {linked : Ptr → Option ℕ}, Table bits table linked → l.Nodup → (∀ q ∈ l, linked q = none) →
    (∀ q ∈ l, f q < 2 ^ 32) →
    Table bits (l.foldl (fun table q => table.modify (getShapeHash (f q) bits) (q :: ·)) table)
      (fun q => if q ∈ l then some (f q) else linked q)
  | [], _, _, h, _, _, _ => by simpa using h
  | q :: l, table, linked, h, hnodup, hnone, hlt => by
    obtain ⟨hq, hnodup⟩ := List.nodup_cons.mp hnodup
    have hlink := h.link (hnone q (.head _)) (hlt q (.head _))
    have hfold := hlink.foldl_link (l := l) hnodup
      (fun q' hq' => by
        have hne : q' ≠ q := fun heq => hq (heq ▸ hq')
        rw [Function.update_of_ne hne]
        exact hnone q' (.tail _ hq'))
      (fun q' hq' => hlt q' (.tail _ hq'))
    have hhash : (fun q' => if q' ∈ l then some (f q') else
        Function.update linked q (some (f q)) q') =
        fun q' => if q' ∈ q :: l then some (f q') else linked q' := by
      funext q'
      by_cases hqq : q' = q
      · subst hqq
        simp
      · simp [hqq]
    exact hhash ▸ hfold

theorem Table.empty (bits : ℕ) : Table bits (.replicate (2 ^ bits) []) fun _ => none := by
  have hnil : ∀ b : ℕ, (List.replicate (2 ^ bits) ([] : List Ptr))[b]?.getD [] = [] := fun b => by
    rw [List.getElem?_replicate]
    split <;> rfl
  exact ⟨List.length_replicate, nofun, fun b q => by simp, fun b => by simp⟩

/-- `resize_shape_hash`. -/
theorem Table.resize (h : Table bits table linked) {f : Ptr → ℕ}
    (hf : ∀ q hash, linked q = some hash → f q = hash) (bits' : ℕ) :
    Table bits' (table.flatten.foldl (fun table q =>
      table.modify (getShapeHash (f q) bits') (q :: ·)) (.replicate (2 ^ bits') [])) linked := by
  have hfold := (Table.empty bits').foldl_link (f := f) h.nodup_flatten (fun _ _ => rfl) fun q hq => by
    obtain ⟨hash, hhash⟩ := h.mem_flatten.mp hq
    exact hf q hash hhash ▸ h.lt q hash hhash
  have hhash : (fun q => if q ∈ table.flatten then some (f q) else none) = linked := by
    funext q
    split
    · rename_i hq
      obtain ⟨hash, hhash⟩ := h.mem_flatten.mp hq
      rw [hhash, hf q hash hhash]
    · rename_i hq
      cases hhash : linked q with
      | none => rfl
      | some hash => exact absurd (h.mem_flatten.mpr ⟨hash, hhash⟩) hq
  exact hhash ▸ hfold

/-! ## The runtime -/

/-- The references to the shape `q` from objects and from the context. -/
def JSRuntime.holders (s : JSRuntime) (q : Ptr) : ℕ :=
  s.objects.countP (fun o => o.any (·.shape = q)) + if s.arrayShape = some q then 1 else 0

/-- The hash under which a shape should be in the table. -/
def JSRuntime.hashOf (s : JSRuntime) (q : Ptr) : Option ℕ :=
  (s.shape q).bind fun sh => if sh.isHashed then some sh.hash else none

/-- An object has a value for each property of its shape, and room for more. -/
structure Fits (o : JSObject) (sh : JSShape) : Prop where
  count : o.prop.length = sh.prop.length
  alloc : sh.propSize ≤ o.propAlloc

/-- The representation invariant, when the table holds the shapes of `linked` and the
references `held` are in the hands of an operation. -/
structure Inv (s : JSRuntime) (linked : Ptr → Option ℕ) (held : List Ptr) : Prop where
  valid : ∀ q sh, s.shape q = some sh → sh.Valid
  refs : ∀ q sh, s.shape q = some sh → sh.refCount = s.holders q + held.count q
  positive : ∀ q sh, s.shape q = some sh → 0 < sh.refCount
  unhashed : ∀ q sh, s.shape q = some sh → sh.isHashed = false → sh.refCount = 1
  object : ∀ p o, s.object p = some o → ∃ sh, s.shape o.shape = some sh ∧ Fits o sh
  held : ∀ q ∈ held, ∃ sh, s.shape q = some sh
  array : ∀ q, s.arrayShape = some q → ∃ sh, s.shape q = some sh ∧ sh.isHashed ∧ sh.prop.length = 1
  table : Table s.shapeHashBits s.shapeHash linked
  hashed : ∀ q hash, linked q = some hash → ∃ sh, s.shape q = some sh ∧ sh.isHashed

theorem object_eq_some : s.object p = some o ↔ s.objects[p]? = some (some o) := by
  rw [JSRuntime.object, Option.join_eq_some_iff]

theorem object_setObject (hp : s.object p = some o) (o' : JSObject) (p' : Ptr) :
    (s.setObject p o').object p' = if p' = p then some o' else s.object p' := by
  have hlt := (List.getElem?_eq_some_iff.mp (object_eq_some.mp hp)).1
  unfold JSRuntime.object JSRuntime.setObject
  split
  · rename_i h
    rw [h, List.getElem?_set_self hlt]
    rfl
  · rename_i h
    rw [List.getElem?_set_ne (Ne.symm h)]

/-- The references after an object has got another shape. -/
theorem holders_setObject (hp : s.object p = some o) (o' : JSObject) (q : Ptr) :
    (s.setObject p o').holders q + (if o.shape = q then 1 else 0) =
      s.holders q + if o'.shape = q then 1 else 0 := by
  obtain ⟨hlt, hget⟩ := List.getElem?_eq_some_iff.mp (object_eq_some.mp hp)
  unfold JSRuntime.holders JSRuntime.setObject
  have hpos : o.shape = q → 0 < s.objects.countP (fun o => o.any (·.shape = q)) := fun h =>
    List.countP_pos_iff.mpr ⟨_, List.getElem_mem hlt, by simp [hget, h]⟩
  by_cases ho : o.shape = q <;> by_cases ho' : o'.shape = q <;> simp <;>
    have := hpos <;> grind

end QuickJs.Shape
