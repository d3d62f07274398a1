import QuickJs.ShapeRefs

/-!
# The operations on properties

`View` is what an object is for: its prototype and its properties in the order in which they
were added. Each operation on an object changes its view as it should and keeps the invariant.
It leaves every shape alone that is shared, and with it the views of all other objects.
-/

namespace QuickJs.Shape

open JSShape

variable {s s' t : JSRuntime} {sh sh' : JSShape} {o o' : JSObject} {p p' q q' : Ptr} {hash : ℕ}
  {linked linked' : Ptr → Option ℕ} {held : List Ptr} {mem mem' : Alloc} {ok : Bool}
  {atom : JSAtom} {flags : BitVec 6} {val : JSValue}

/-! ## What an object is -/

/-- A property with its atom, flags and value. -/
abbrev Entry : Type := (JSAtom × BitVec 6) × JSValue

/-- An object without its representation. -/
structure View where
  proto : Option Ptr
  props : List Entry
  fastArray : Option (List JSValue)
  deriving DecidableEq

/-- The properties that are not deleted, in their order. -/
def liveProps (keys : List (JSAtom × BitVec 6)) (values : List JSValue) : List Entry :=
  (keys.zip values).filter (·.1.1 ≠ jsAtomNull)

def viewOf (o : JSObject) (sh : JSShape) : View := ⟨sh.proto, liveProps sh.keys o.prop, o.fastArray⟩

def JSRuntime.view (s : JSRuntime) (p : Ptr) : Option View :=
  (s.objectShape p).map fun x => viewOf x.1 x.2

theorem objectShape_eq_some : s.objectShape p = some (o, sh) ↔
    s.object p = some o ∧ s.shape o.shape = some sh := by
  simp only [JSRuntime.objectShape, Option.bind_eq_some_iff, Option.map_eq_some_iff, Prod.mk.injEq]
  constructor
  · rintro ⟨o, ho, sh, hsh, rfl, rfl⟩
    exact ⟨ho, hsh⟩
  · rintro ⟨ho, hsh⟩
    exact ⟨o, ho, sh, hsh, rfl, rfl⟩

/-- What is known of an object and its shape. -/
theorem Inv.parts (h : Inv s linked held) (hp : s.objectShape p = some (o, sh)) :
    s.object p = some o ∧ s.shape o.shape = some sh ∧ Fits o sh ∧ sh.Valid := by
  obtain ⟨hobj, hsh⟩ := objectShape_eq_some.mp hp
  obtain ⟨x, hx, hfits⟩ := h.object p o hobj
  cases hsh.symm.trans hx
  exact ⟨hobj, hsh, hfits, h.valid _ _ hsh⟩

theorem view_of (h : s.objectShape p = some (o, sh)) : s.view p = some (viewOf o sh) := by
  rw [JSRuntime.view, h, Option.map_some]

/-! ## Steps -/

/-- The shape `q` does not belong to `p` alone. -/
def Protected (s : JSRuntime) (p q : Ptr) : Prop :=
  ∀ o sh, s.object p = some o → s.shape q = some sh → o.shape = q → sh.refCount ≠ 1

/-- The shape `q` is the same, its references aside. -/
def Kept (s s' : JSRuntime) (q : Ptr) : Prop :=
  ∀ sh, s.shape q = some sh → ∃ r, s'.shape q = some { sh with refCount := r }

/-- A part of an operation on `p` that changes its view by `f`. -/
structure Step (s s' : JSRuntime) (linked : Ptr → Option ℕ) (p : Ptr) (f : View → View) : Prop where
  inv : Inv s' linked []
  view : s'.view p = (s.view p).map f
  others : ∀ p' ≠ p, s'.object p' = s.object p'
  array : s'.arrayShape = s.arrayShape
  kept : ∀ q, (∃ sh, s.shape q = some sh) → Protected s p q → Kept s s' q ∧ Protected s' p q

theorem Step.refl (h : Inv s linked []) : Step s s linked p id :=
  ⟨h, (Option.map_id_apply ..).symm, fun _ _ => rfl, rfl, fun _ _ hq => ⟨fun _ hsh => ⟨_, hsh⟩, hq⟩⟩

variable {f : View → View}

theorem Step.trans {g : View → View} (h : Step s t linked p f) (h' : Step t s' linked' p g) :
    Step s s' linked' p (g ∘ f) := by
  refine ⟨h'.inv, ?_, fun p' hp' => (h'.others p' hp').trans (h.others p' hp'),
    h'.array.trans h.array, fun q ⟨sh, hsh⟩ hq => ?_⟩
  · rw [h'.view, h.view, Option.map_map]
  · obtain ⟨hkept, hq⟩ := h.kept q ⟨sh, hsh⟩ hq
    obtain ⟨r, ht⟩ := hkept sh hsh
    obtain ⟨hkept', hq'⟩ := h'.kept q ⟨_, ht⟩ hq
    obtain ⟨r', hs'⟩ := hkept' _ ht
    exact ⟨fun x hx => ⟨r', Option.some.inj (hsh.symm.trans hx) ▸ hs'⟩, hq'⟩

/-- An object looks the same if its shape does. -/
theorem view_of_kept (h : Inv s linked held) (hobj : s'.object p = s.object p)
    (hkept : ∀ o, s.object p = some o → Kept s s' o.shape) : s'.view p = s.view p := by
  cases hp : s.object p with
  | none =>
    simp only [JSRuntime.view, JSRuntime.objectShape, hp, hobj, Option.bind_none]
  | some o =>
    rw [hp] at hobj
    obtain ⟨sh, hsh, _⟩ := h.object p o hp
    obtain ⟨r, hsh'⟩ := hkept o hp sh hsh
    rw [view_of (objectShape_eq_some.mpr ⟨hp, hsh⟩), view_of (objectShape_eq_some.mpr ⟨hobj, hsh'⟩)]
    rfl

/-- Other objects look the same. -/
theorem Step.view_of_ne (h : Step s s' linked' p f) (hs : Inv s linked [])
    (hp' : p' ≠ p) : s'.view p' = s.view p' := by
  refine view_of_kept hs (h.others p' hp') fun o hobj => ?_
  obtain ⟨sh, hsh, _⟩ := hs.object p' o hobj
  refine (h.kept _ ⟨sh, hsh⟩ fun o' sh' ho' hsh' heq hone => ?_).1
  exact hp' ((hs.exclusive ho' (heq ▸ hsh') hone).1 p' o hobj heq.symm)

/-! ## Making a shape one's own -/

theorem setObject_self (hp : s.object p = some o) : s.setObject p o = s := by
  obtain ⟨hlt, hget⟩ := List.getElem?_eq_some_iff.mp (object_eq_some.mp hp)
  rw [JSRuntime.setObject, ← hget, List.set_getElem_self]

theorem setShape_setShape (s : JSRuntime) (q : Ptr) (x y : Option JSShape) :
    (s.setShape q x).setShape q y = s.setShape q y := by
  rw [JSRuntime.setShape, JSRuntime.setShape, Function.update_idem]
  rfl

theorem jsFreeShape_setObject (s : JSRuntime) (p q : Ptr) (o : JSObject) :
    jsFreeShape (s.setObject p o) q = (jsFreeShape s q).setObject p o := by
  have hshape : (s.setObject p o).shape q = s.shape q := rfl
  rw [jsFreeShape, jsFreeShape, hshape]
  cases s.shape q with
  | none => rfl
  | some sh =>
    simp only
    split
    · split <;> rfl
    · rfl

theorem object_jsFreeShape (s : JSRuntime) (q : Ptr) : (jsFreeShape s q).object = s.object := by
  rw [jsFreeShape]
  cases s.shape q with
  | none => rfl
  | some sh =>
    simp only
    split
    · split <;> rfl
    · rfl

theorem arrayShape_jsFreeShape (s : JSRuntime) (q : Ptr) : (jsFreeShape s q).arrayShape = s.arrayShape := by
  rw [jsFreeShape]
  cases s.shape q with
  | none => rfl
  | some sh =>
    simp only
    split
    · split <;> rfl
    · rfl

theorem shape_jsFreeShape_of_ne (hne : q' ≠ q) : (jsFreeShape s q).shape q' = s.shape q' := by
  rw [jsFreeShape]
  cases s.shape q with
  | none => rfl
  | some sh =>
    simp only
    split
    · rw [shape_setShape, if_neg hne]
      split <;> rfl
    · rw [shape_setShape, if_neg hne]

/-- Only a shape with a single reference is freed. -/
theorem kept_jsFreeShape (hsh : s.shape q = some sh) (hpos : 0 < sh.refCount)
    (hq : q' = q → sh.refCount ≠ 1) : Kept s (jsFreeShape s q) q' := by
  intro x hx
  by_cases heq : q' = q
  · have hmany := hq heq
    subst heq
    cases hsh.symm.trans hx
    rw [jsFreeShape, hsh]
    simp only
    rw [if_neg (by omega), shape_setShape, if_pos rfl]
    exact ⟨_, rfl⟩
  · exact ⟨x.refCount, (shape_jsFreeShape_of_ne heq).trans hx⟩

theorem malloc_eq_some (h : s.malloc mem = (some q, mem')) : s.shape q = none := by
  unfold JSRuntime.malloc at h
  split at h
  · split at h
    · rename_i hfree
      cases h
      exact hfree
    · cases h
  · cases h
  · cases h

/-- A copy of a shape. -/
theorem valid_copy (h : sh.Valid) (r : ℕ) (b : Bool) :
    ({ sh with refCount := r, isHashed := b } : JSShape).Valid :=
  h.congr (h.chains.of_eq rfl rfl) rfl rfl rfl h.fits

/-- `p` goes over to another shape, for which it holds a reference, and frees its own. -/
theorem swing_spec (hp : s.objectShape p = some (o, sh))
    (ht : Inv t t.hashOf [o'.shape]) (hobjects : t.objects = s.objects)
    (harray : t.arrayShape = s.arrayShape) (hne : o'.shape ≠ o.shape) (hsh' : t.shape o'.shape = some sh')
    (hothers : ∀ q' ≠ o'.shape, t.shape q' = s.shape q')
    (hold : ∀ x, s.shape o'.shape = some x → sh' = { x with refCount := sh'.refCount } ∧ sh'.refCount ≠ 1)
    (hfits : Fits o' sh') (hview : viewOf o' sh' = f (viewOf o sh))
    (hs' : s' = (jsFreeShape t o.shape).setObject p o') :
    Step s s' s'.hashOf p f ∧ s'.objectShape p = some (o', sh') := by
  obtain ⟨hobj, hsh⟩ := objectShape_eq_some.mp hp
  have hobj' : t.object = s.object := by
    funext p'
    rw [JSRuntime.object, hobjects, JSRuntime.object]
  have hp' : t.object p = some o := hobj' ▸ hobj
  have hobject : ∀ p', s'.object p' = if p' = p then some o' else s.object p' := fun p' => by
    have hfreed : (jsFreeShape t o.shape).object p = some o := by rw [object_jsFreeShape, hp']
    rw [hs', object_setObject hfreed, object_jsFreeShape, hobj']
  have hnew : s'.objectShape p = some (o', sh') := by
    refine objectShape_eq_some.mpr ⟨by rw [hobject, if_pos rfl], ?_⟩
    rw [hs']
    exact (shape_jsFreeShape_of_ne hne).trans hsh'
  have htsh : t.shape o.shape = some sh := by rw [hothers _ (Ne.symm hne), hsh]
  have harray' : s'.arrayShape = s.arrayShape := by
    rw [hs', ← harray]
    exact arrayShape_jsFreeShape t o.shape
  refine ⟨⟨?_, ?_, fun p' hp' => by rw [hobject, if_neg hp'], harray', fun q' hx hprot => ?_⟩, hnew⟩
  · have hswing : Inv (t.setObject p o') t.hashOf [o.shape] :=
      Inv.swing ht hp' fun x hx => Option.some.inj (hsh'.symm.trans hx) ▸ hfits
    rw [hs', ← jsFreeShape_setObject]
    exact Inv.free hswing
  · rw [view_of hnew, view_of hp, Option.map_some, hview]
  · obtain ⟨x, hx⟩ := hx
    have hkept : Kept t s' q' := fun y hy => by
      have hmany : q' = o.shape → sh.refCount ≠ 1 := fun heq =>
        hprot o sh hobj (heq ▸ hsh) heq.symm
      obtain ⟨r, hr⟩ := kept_jsFreeShape htsh (ht.positive _ _ htsh) hmany y hy
      exact ⟨r, hs' ▸ hr⟩
    by_cases hq' : q' = o'.shape
    · subst hq'
      obtain ⟨heq, hmany⟩ := hold x hx
      have hsame : s'.shape o'.shape = some sh' := (objectShape_eq_some.mp hnew).2
      refine ⟨fun y hy => ⟨sh'.refCount, ?_⟩, fun o'' y _ hy _ => ?_⟩
      · cases hx.symm.trans hy
        rw [← heq]
        exact hsame
      · cases hsame.symm.trans hy
        exact hmany
    · refine ⟨fun y hy => hkept y ((hothers q' hq').trans hy), fun o'' y ho'' _ heq => ?_⟩
      rw [hobject, if_pos rfl] at ho''
      cases ho''
      exact absurd heq.symm hq'

/-- `p` goes over to a copy of its shape, which is at `q`. -/
theorem clone_spec {b : Bool} (h : Inv s s.hashOf []) (hp : s.objectShape p = some (o, sh))
    (hfree : s.shape q = none) (ht : Inv t t.hashOf [q]) (hobjects : t.objects = s.objects)
    (harray : t.arrayShape = s.arrayShape)
    (hshape : ∀ q', t.shape q' = if q' = q then some { sh with refCount := 1, isHashed := b } else s.shape q')
    (hs' : s' = (jsFreeShape t o.shape).setObject p { o with shape := q }) :
    Step s s' s'.hashOf p id ∧ s'.objectShape p =
      some ({ o with shape := q }, { sh with refCount := 1, isHashed := b }) := by
  obtain ⟨hobj, hsh, hfits, _⟩ := h.parts hp
  refine swing_spec hp ht hobjects harray (fun heq => ?_) (by rw [hshape, if_pos rfl])
    (fun q' hq' => by rw [hshape, if_neg hq']) (fun x hx => ?_) ⟨hfits.count, hfits.alloc⟩ rfl hs'
  · have hnone : s.shape o.shape = none := heq ▸ hfree
    rw [hsh] at hnone
    cases hnone
  · have hnone : s.shape q = some x := hx
    rw [hfree] at hnone
    cases hnone

section

variable (h : Inv s linked []) (hp : s.object p = some o) (hsh : s.shape o.shape = some sh)

include h hp hsh

/-- The shape of `p`, which is not in the table and not shared, is replaced and may move. -/
theorem replace_spec
    (hone : sh.refCount = 1) (hlinked : linked o.shape = none)
    (hfree : o'.shape = o.shape ∨ s.shape o'.shape = none) (hvalid : sh'.Valid)
    (hone' : sh'.refCount = 1) (hfits : Fits o' sh') (hview : viewOf o' sh' = f (viewOf o sh))
    (hs' : s' = ((s.setShape o.shape none).setShape o'.shape (some sh')).setObject p o') :
    Step s s' linked p f ∧ s'.objectShape p = some (o', sh') := by
  have hobject : ∀ p', s'.object p' = if p' = p then some o' else s.object p' := fun p' => by
    rw [hs']
    exact object_setObject (s := (s.setShape o.shape none).setShape o'.shape (some sh')) hp o' p'
  have hshape : ∀ q', s'.shape q' =
      if q' = o'.shape then some sh' else if q' = o.shape then none else s.shape q' := fun q' => by
    rw [← shape_setShape, ← shape_setShape, hs']
    rfl
  have hnew : s'.objectShape p = some (o', sh') :=
    objectShape_eq_some.mpr ⟨by rw [hobject, if_pos rfl], by rw [hshape, if_pos rfl]⟩
  refine ⟨⟨?_, ?_, fun p' hp' => by rw [hobject, if_neg hp'], hs' ▸ rfl, fun q' ⟨x, hx⟩ hprot => ?_⟩, hnew⟩
  · exact hs' ▸ h.replace hp hsh hone hlinked hfree hvalid hone' rfl hfits
  · rw [view_of hnew, view_of (objectShape_eq_some.mpr ⟨hp, hsh⟩), Option.map_some, hview]
  · have hne : q' ≠ o.shape := fun heq => hprot o sh hp (heq ▸ hsh) heq.symm hone
    have hne' : q' ≠ o'.shape := fun heq => by
      rcases hfree with heq' | hfree
      · exact hne (heq.trans heq')
      · rw [← heq, hx] at hfree
        cases hfree
    refine ⟨fun y hy => ⟨y.refCount, by rw [hshape, if_neg hne', if_neg hne, hy]⟩, fun o'' y ho'' _ heq => ?_⟩
    rw [hobject, if_pos rfl] at ho''
    cases ho''
    exact absurd heq.symm hne'

/-- The shape of `p` is changed where it is. -/
theorem update_spec
    (hone : sh.refCount = 1) (hlinked : linked o.shape = none)
    (hsame : o'.shape = o.shape) (hvalid : sh'.Valid) (hone' : sh'.refCount = 1)
    (hfits : Fits o' sh') (hview : viewOf o' sh' = f (viewOf o sh)) :
    Step s ((s.setShape o.shape (some sh')).setObject p o') linked p f ∧
      ((s.setShape o.shape (some sh')).setObject p o').objectShape p = some (o', sh') :=
  replace_spec h hp hsh hone hlinked (.inl hsame) hvalid hone' hfits hview
    (by rw [hsame, setShape_setShape])

/-- The values of `p` change. -/
theorem values_spec
    (hsame : o'.shape = o.shape) (hfits : Fits o' sh)
    (hview : viewOf o' sh = f (viewOf o sh)) :
    Step s (s.setObject p o') linked p f ∧ (s.setObject p o').objectShape p = some (o', sh) := by
  have hnew : (s.setObject p o').objectShape p = some (o', sh) :=
    objectShape_eq_some.mpr ⟨by rw [object_setObject hp, if_pos rfl], hsame ▸ hsh⟩
  refine ⟨⟨?_, ?_, fun p' hp' => by rw [object_setObject hp, if_neg hp'], rfl,
    fun q' _ hprot => ⟨fun y hy => ⟨y.refCount, hy⟩, fun o'' y ho'' hy heq => ?_⟩⟩, hnew⟩
  · exact h.setObject hp hsame fun x hx => Option.some.inj (hsh.symm.trans hx) ▸ hfits
  · rw [view_of hnew, view_of (objectShape_eq_some.mpr ⟨hp, hsh⟩), Option.map_some, hview]
  · rw [object_setObject hp, if_pos rfl] at ho''
    cases ho''
    exact hprot o y hp hy (hsame ▸ heq)

end

/-- `js_shape_prepare_update` gives `p` a shape of its own that is not in the table. -/
theorem jsShapePrepareUpdate_spec (h : Inv s s.hashOf []) (hp : s.objectShape p = some (o, sh))
    (hr : jsShapePrepareUpdate s p mem = (ok, s', mem')) : Step s s' s'.hashOf p id ∧
      (ok = true → ∃ q, s'.objectShape p =
        some ({ o with shape := q }, { sh with refCount := 1, isHashed := false })) := by
  obtain ⟨hobj, hsh⟩ := objectShape_eq_some.mp hp
  rw [jsShapePrepareUpdate, hp] at hr
  simp only at hr
  split at hr
  · rename_i hhashed
    have hhash : s.hashOf o.shape = some sh.hash := by
      rw [hashOf_of_shape hsh, JSShape.tableHash, if_pos hhashed]
    split at hr
    · -- a shared shape is cloned
      rw [jsCloneShape] at hr
      cases hmalloc : s.malloc mem with
      | mk a mem₁ =>
        rw [hmalloc] at hr
        cases a with
        | none =>
          cases hr
          exact ⟨.refl h, by simp⟩
        | some q =>
          cases hr
          have hfree := malloc_eq_some hmalloc
          have halloc := h.alloc hfree (valid_copy (h.valid _ _ hsh) 1 false) rfl
          have hclone : Inv (s.setShape q (some { sh with refCount := 1, isHashed := false }))
              (s.setShape q (some { sh with refCount := 1, isHashed := false })).hashOf [q] := by
            rw [hashOf_setShape_eq]
            · exact halloc
            · exact (h.holders_free hfree).2.2.symm
          obtain ⟨hstep, hnew⟩ := clone_spec h hp hfree hclone rfl rfl
            (fun q' => shape_setShape q' _) rfl
          exact ⟨hstep, fun _ => ⟨q, hnew⟩⟩
    · -- a shape of one object leaves the table
      rename_i hone
      cases hr
      have hone : sh.refCount = 1 := by simpa using hone
      obtain ⟨_, _, hfits, _⟩ := h.parts hp
      have hfits : Fits o { sh with isHashed := false } := ⟨hfits.count, hfits.alloc⟩
      obtain ⟨hstep, hnew⟩ := update_spec (f := id) (h.unlink hhash) hobj hsh hone
        (Function.update_self ..) rfl (valid_copy (h.valid _ _ hsh) sh.refCount false) hone hfits rfl
      have hself := setObject_self (s := (jsShapeHashUnlink s o.shape sh.hash).setShape o.shape
        (some { sh with isHashed := false })) hobj
      have hhashOf := hashOf_setShape (jsShapeHashUnlink s o.shape sh.hash) o.shape
        (some { sh with isHashed := false })
      rw [hself] at hstep hnew
      refine ⟨⟨hhashOf ▸ hstep.inv, hstep.view, hstep.others, hstep.array, hstep.kept⟩, fun _ => ⟨o.shape, ?_⟩⟩
      rw [hnew, hone]
  · rename_i hhashed
    cases hr
    refine ⟨.refl h, fun _ => ⟨o.shape, ?_⟩⟩
    have hone := h.unhashed _ _ hsh (by simpa using hhashed)
    rw [hp, ← hone]
    simp only [Bool.not_eq_true] at hhashed
    rw [← hhashed]

end QuickJs.Shape
