import QuickJs.ShapeTable

/-!
# References to shapes

What the primitive steps of the operations do to the invariant of the runtime: taking and
dropping references, linking and unlinking, and replacing a shape that belongs to one object
only.
-/

namespace QuickJs.Shape

open JSShape

variable {s s' : JSRuntime} {sh sh' : JSShape} {o o' : JSObject} {p p' q q' : Ptr} {hash : ℕ}
  {linked : Ptr → Option ℕ} {held : List Ptr} {mem mem' : Alloc}

theorem shape_setShape (q' : Ptr) (x : Option JSShape) :
    (s.setShape q x).shape q' = if q' = q then x else s.shape q' := by
  exact Function.update_apply ..

/-! ## Who holds a shape -/

theorem one_le_holders (hp : s.object p = some o) : 1 ≤ s.holders o.shape := by
  have hmem := List.mem_of_getElem? (object_eq_some.mp hp)
  have hpos : 0 < s.objects.countP fun o' => o'.any (·.shape = o.shape) :=
    List.countP_pos_iff.mpr ⟨_, hmem, by simp⟩
  unfold JSRuntime.holders
  omega

/-- The references without those of `p`. -/
theorem holders_forget (hp : s.object p = some o) :
    ({ s with objects := s.objects.set p none } : JSRuntime).holders q +
      (if o.shape = q then 1 else 0) = s.holders q := by
  obtain ⟨hlt, hget⟩ := List.getElem?_eq_some_iff.mp (object_eq_some.mp hp)
  unfold JSRuntime.holders
  rw [List.countP_set hlt, hget]
  have hpos : o.shape = q → 0 < s.objects.countP (fun o => o.any (·.shape = q)) := fun h =>
    List.countP_pos_iff.mpr ⟨_, List.getElem_mem hlt, by simp [hget, h]⟩
  by_cases ho : o.shape = q
  · have := hpos ho
    simp [ho]
    omega
  · simp [ho]

section

variable (h : Inv s linked held)

include h

/-- A shape with one reference belongs to the object that has it. -/
theorem Inv.exclusive (hp : s.object p = some o)
    (hsh : s.shape o.shape = some sh) (hone : sh.refCount = 1) :
    (∀ p' o', s.object p' = some o' → o'.shape = o.shape → p' = p) ∧
      s.arrayShape ≠ some o.shape ∧ o.shape ∉ held := by
  have hrefs := h.refs _ _ hsh
  have hforget := holders_forget (q := o.shape) hp
  rw [if_pos rfl] at hforget
  refine ⟨fun p' o' hp' heq => ?_, fun harray => ?_, fun hmem => ?_⟩
  · by_contra hne
    have hp'' : ({ s with objects := s.objects.set p none } : JSRuntime).object p' = some o' := by
      rw [object_eq_some, List.getElem?_set_ne (Ne.symm hne)]
      exact object_eq_some.mp hp'
    have := one_le_holders hp''
    rw [heq] at this
    omega
  · have : ({ s with objects := s.objects.set p none } : JSRuntime).holders o.shape ≥ 1 := by
      simp [JSRuntime.holders, harray]
    omega
  · have := List.count_pos_iff.mpr hmem
    omega

/-- Nobody refers to an address that is free. -/
theorem Inv.holders_free (hq : s.shape q = none) :
    s.holders q = 0 ∧ q ∉ held ∧ linked q = none := by
  refine ⟨?_, fun hmem => ?_, ?_⟩
  · have hcount : s.objects.countP (fun o => o.any (·.shape = q)) = 0 := by
      refine List.countP_eq_zero.mpr fun o ho hany => ?_
      obtain ⟨p, hp⟩ := List.mem_iff_getElem?.mp ho
      cases o with
      | none => cases hany
      | some o =>
        obtain ⟨sh, hsh, _⟩ := h.object p o (object_eq_some.mpr hp)
        rw [of_decide_eq_true hany, hq] at hsh
        cases hsh
    have harray : s.arrayShape ≠ some q := fun harray => by
      obtain ⟨sh, hsh, _⟩ := h.array q harray
      rw [hq] at hsh
      cases hsh
    rw [JSRuntime.holders, hcount, if_neg harray]
  · obtain ⟨sh, hsh⟩ := h.held q hmem
    rw [hq] at hsh
    cases hsh
  · cases hlinked : linked q with
    | none => rfl
    | some hash =>
      obtain ⟨sh, hsh, _⟩ := h.hashed q hash hlinked
      rw [hq] at hsh
      cases hsh

/-! ## Primitive steps -/

/-- `p` gets other values for the same shape. -/
theorem Inv.setObject (hp : s.object p = some o) (hsame : o'.shape = o.shape)
    (hfits : ∀ sh, s.shape o.shape = some sh → Fits o' sh) : Inv (s.setObject p o') linked held := by
  refine ⟨h.valid, fun q sh hsh => ?_, h.positive, h.unhashed, fun p' o'' hp' => ?_, h.held,
    h.array, h.table, h.hashed⟩
  · have := holders_setObject hp o' q
    rw [hsame] at this
    rw [h.refs q sh hsh]
    omega
  · rw [object_setObject hp] at hp'
    split at hp'
    · cases hp'
      obtain ⟨sh, hsh, _⟩ := h.object p o hp
      exact ⟨sh, hsame ▸ hsh, hfits sh hsh⟩
    · exact h.object p' o'' hp'

/-- The shape of `p`, which is not in the table and not shared, is replaced and may move. -/
theorem Inv.replace (hp : s.object p = some o)
    (hsh : s.shape o.shape = some sh) (hone : sh.refCount = 1) (hlinked : linked o.shape = none)
    (hfree : q = o.shape ∨ s.shape q = none) (hvalid : sh'.Valid) (hone' : sh'.refCount = 1)
    (ho' : o'.shape = q) (hfits : Fits o' sh') :
    Inv (((s.setShape o.shape none).setShape q (some sh')).setObject p o') linked held := by
  obtain ⟨hothers, harray, hheld⟩ := h.exclusive hp hsh hone
  have hshape : ∀ q', (((s.setShape o.shape none).setShape q (some sh')).setObject p o').shape q' =
      if q' = q then some sh' else if q' = o.shape then none else s.shape q' := fun q' => by
    rw [← shape_setShape, ← shape_setShape]
    rfl
  have hhold : ∀ q', (((s.setShape o.shape none).setShape q (some sh')).setObject p o').holders q' +
      (if o.shape = q' then 1 else 0) = s.holders q' + if q = q' then 1 else 0 := fun q' =>
    ho' ▸ holders_setObject (s := (s.setShape o.shape none).setShape q (some sh')) hp o' q'
  have hq : s.holders q + held.count q = if q = o.shape then 1 else 0 := by
    have hrefs := h.refs _ _ hsh
    rcases hfree with rfl | hfree
    · rw [if_pos rfl]
      omega
    · obtain ⟨hzero, hnot, _⟩ := h.holders_free hfree
      have hne : q ≠ o.shape := fun heq => by
        rw [heq, hsh] at hfree
        cases hfree
      rw [if_neg hne, hzero, List.count_eq_zero.mpr hnot]
  -- what else exists is neither the old shape nor the new one
  have hother : ∀ q' x, s.shape q' = some x → q' ≠ o.shape → q' ≠ q := fun q' x hx hne heq => by
    rcases hfree with rfl | hfree
    · exact hne heq
    · rw [heq, hfree] at hx
      cases hx
  refine ⟨fun q' x hx => ?_, fun q' x hx => ?_, fun q' x hx => ?_, fun q' x hx hun => ?_,
    fun p' o'' hp' => ?_, fun q' hq' => ?_, fun q' hq' => ?_, h.table, fun q' hash hhash => ?_⟩
  · rw [hshape] at hx
    split at hx
    · exact Option.some.inj hx ▸ hvalid
    · split at hx
      · cases hx
      · exact h.valid q' x hx
  · have hhold' := hhold q'
    rw [hshape] at hx
    split at hx
    · rename_i heq
      subst heq
      rw [if_pos rfl] at hhold'
      cases hx
      by_cases hqq : o.shape = q'
      · rw [if_pos hqq] at hhold'
        rw [if_pos hqq.symm] at hq
        omega
      · rw [if_neg hqq] at hhold'
        rw [if_neg (Ne.symm hqq)] at hq
        omega
    · rename_i hne
      split at hx
      · cases hx
      · rename_i hne'
        rw [if_neg (Ne.symm hne), if_neg (Ne.symm hne')] at hhold'
        rw [h.refs q' x hx]
        omega
  · rw [hshape] at hx
    split at hx
    · cases hx
      omega
    · split at hx
      · cases hx
      · exact h.positive q' x hx
  · rw [hshape] at hx
    split at hx
    · exact Option.some.inj hx ▸ hone'
    · split at hx
      · cases hx
      · exact h.unhashed q' x hx hun
  · have hobject := object_setObject (s := (s.setShape o.shape none).setShape q (some sh')) hp o' p'
    rw [hobject] at hp'
    split at hp'
    · cases hp'
      exact ⟨sh', by rw [hshape, if_pos ho'], hfits⟩
    · rename_i hne
      obtain ⟨x, hx, hfits'⟩ := h.object p' o'' hp'
      have hne' : o''.shape ≠ o.shape := fun heq => hne (hothers p' o'' hp' heq)
      exact ⟨x, by rw [hshape, if_neg (hother _ _ hx hne'), if_neg hne', hx], hfits'⟩
  · obtain ⟨x, hx⟩ := h.held q' hq'
    have hne : q' ≠ o.shape := fun heq => hheld (heq ▸ hq')
    exact ⟨x, by rw [hshape, if_neg (hother _ _ hx hne), if_neg hne, hx]⟩
  · obtain ⟨x, hx, harr⟩ := h.array q' hq'
    have hne : q' ≠ o.shape := fun heq => harray (heq ▸ hq')
    exact ⟨x, by rw [hshape, if_neg (hother _ _ hx hne), if_neg hne, hx], harr⟩
  · obtain ⟨x, hx, hhashed⟩ := h.hashed q' hash hhash
    have hne : q' ≠ o.shape := fun heq => by
      rw [heq, hlinked] at hhash
      cases hhash
    exact ⟨x, by rw [hshape, if_neg (hother _ _ hx hne), if_neg hne, hx], hhashed⟩

theorem Inv.link (hsh : s.shape q = some sh) (hhashed : sh.isHashed)
    (hlinked : linked q = none) (hlt : hash < 2 ^ 32) :
    Inv (jsShapeHashLink s q hash) (Function.update linked q (some hash)) held := by
  refine ⟨h.valid, h.refs, h.positive, h.unhashed, h.object, h.held, h.array,
    h.table.link hlinked hlt, fun q' hash' hq' => ?_⟩
  rw [Function.update_apply] at hq'
  split at hq'
  · rename_i heq
    exact ⟨sh, heq ▸ hsh, hhashed⟩
  · exact h.hashed q' hash' hq'

theorem Inv.unlink (hlinked : linked q = some hash) :
    Inv (jsShapeHashUnlink s q hash) (Function.update linked q none) held := by
  refine ⟨h.valid, h.refs, h.positive, h.unhashed, h.object, h.held, h.array,
    h.table.unlink hlinked, fun q' hash' hq' => ?_⟩
  rw [Function.update_apply] at hq'
  split at hq'
  · cases hq'
  · exact h.hashed q' hash' hq'

/-- A new shape, whose reference the operation holds. -/
theorem Inv.alloc (hfree : s.shape q = none) (hvalid : sh.Valid)
    (hone : sh.refCount = 1) : Inv (s.setShape q (some sh)) linked (q :: held) := by
  obtain ⟨hzero, hnot, hlinked⟩ := h.holders_free hfree
  have hne : ∀ q' x, s.shape q' = some x → q' ≠ q := fun q' x hx heq => by
    rw [heq, hfree] at hx
    cases hx
  refine ⟨fun q' x hx => ?_, fun q' x hx => ?_, fun q' x hx => ?_, fun q' x hx hun => ?_,
    fun p o hp => ?_, fun q' hq' => ?_, fun q' hq' => ?_, h.table, fun q' hash hhash => ?_⟩
  · rw [shape_setShape] at hx
    split at hx
    · exact Option.some.inj hx ▸ hvalid
    · exact h.valid q' x hx
  · have hhold : (s.setShape q (some sh)).holders q' = s.holders q' := rfl
    rw [shape_setShape] at hx
    rw [hhold]
    split at hx
    · rename_i heq
      subst heq
      cases hx
      rw [hone, hzero, List.count_cons_self, List.count_eq_zero.mpr hnot]
    · rename_i hqq
      rw [h.refs q' x hx, List.count_cons_of_ne (Ne.symm hqq)]
  · rw [shape_setShape] at hx
    split at hx
    · cases hx
      omega
    · exact h.positive q' x hx
  · rw [shape_setShape] at hx
    split at hx
    · exact Option.some.inj hx ▸ hone
    · exact h.unhashed q' x hx hun
  · obtain ⟨x, hx, hfits⟩ := h.object p o hp
    exact ⟨x, by rw [shape_setShape, if_neg (hne _ _ hx), hx], hfits⟩
  · rcases List.mem_cons.mp hq' with rfl | hq'
    · exact ⟨sh, by rw [shape_setShape, if_pos rfl]⟩
    · obtain ⟨x, hx⟩ := h.held q' hq'
      exact ⟨x, by rw [shape_setShape, if_neg (hne _ _ hx), hx]⟩
  · obtain ⟨x, hx, harr⟩ := h.array q' hq'
    exact ⟨x, by rw [shape_setShape, if_neg (hne _ _ hx), hx], harr⟩
  · obtain ⟨x, hx, hhashed⟩ := h.hashed q' hash hhash
    exact ⟨x, by rw [shape_setShape, if_neg (hne _ _ hx), hx], hhashed⟩

/-- Only the reference count of a shape changes. -/
theorem Inv.recount {held' : List Ptr} {n : ℕ} (hsh : s.shape q = some sh)
    (hcount : n = s.holders q + held'.count q) (hpos : 0 < n)
    (hothers : ∀ q', q' ≠ q → held'.count q' = held.count q')
    (hheld : ∀ q' ∈ held', q' = q ∨ q' ∈ held) (hun : sh.isHashed = false → n = 1) :
    Inv (s.setShape q (some { sh with refCount := n })) linked held' := by
  have hsome : ∀ q' x, s.shape q' = some x → ∃ x',
      (s.setShape q (some { sh with refCount := n })).shape q' = some x' ∧
        x' = { x with refCount := x'.refCount } := fun q' x hx => by
    rw [shape_setShape]
    split
    · rename_i heq
      subst heq
      cases hsh.symm.trans hx
      exact ⟨_, rfl, rfl⟩
    · exact ⟨x, hx, rfl⟩
  refine ⟨fun q' x hx => ?_, fun q' x hx => ?_, fun q' x hx => ?_, fun q' x hx hun' => ?_,
    fun p o hp => ?_, fun q' hq' => ?_, fun q' hq' => ?_, h.table, fun q' hash hhash => ?_⟩
  · rw [shape_setShape] at hx
    split at hx
    · cases hx
      have hv := h.valid q sh hsh
      exact hv.congr (hv.chains.of_eq rfl rfl) rfl rfl rfl hv.fits
    · exact h.valid q' x hx
  · have hhold : (s.setShape q (some { sh with refCount := n })).holders q' = s.holders q' := rfl
    rw [shape_setShape] at hx
    rw [hhold]
    split at hx
    · rename_i heq
      subst heq
      cases hx
      exact hcount
    · rename_i hne
      rw [h.refs q' x hx, hothers q' hne]
  · rw [shape_setShape] at hx
    split at hx
    · cases hx
      exact hpos
    · exact h.positive q' x hx
  · rw [shape_setShape] at hx
    split at hx
    · cases hx
      exact hun hun'
    · exact h.unhashed q' x hx hun'
  · obtain ⟨x, hx, hfits⟩ := h.object p o hp
    obtain ⟨x', hx', heq⟩ := hsome _ _ hx
    exact ⟨x', hx', heq ▸ ⟨hfits.count, hfits.alloc⟩⟩
  · rcases hheld q' hq' with rfl | hq'
    · obtain ⟨x', hx', _⟩ := hsome _ _ hsh
      exact ⟨x', hx'⟩
    · obtain ⟨x, hx⟩ := h.held q' hq'
      obtain ⟨x', hx', _⟩ := hsome _ _ hx
      exact ⟨x', hx'⟩
  · obtain ⟨x, hx, hhashed, hlen⟩ := h.array q' hq'
    obtain ⟨x', hx', heq⟩ := hsome _ _ hx
    exact ⟨x', hx', heq ▸ hhashed, heq ▸ hlen⟩
  · obtain ⟨x, hx, hhashed⟩ := h.hashed q' hash hhash
    obtain ⟨x', hx', heq⟩ := hsome _ _ hx
    exact ⟨x', hx', heq ▸ hhashed⟩

/-- `js_dup_shape`. -/
theorem Inv.dup (hsh : s.shape q = some sh) (hhashed : sh.isHashed) :
    Inv (jsDupShape s q) linked (q :: held) := by
  have hdup : jsDupShape s q = s.setShape q (some { sh with refCount := sh.refCount + 1 }) := by
    rw [jsDupShape, hsh]
  rw [hdup]
  refine h.recount hsh ?_ (Nat.succ_pos _) (fun q' hne => List.count_cons_of_ne (Ne.symm hne))
    (fun q' hq' => List.mem_cons.mp hq') fun hun => ?_
  · rw [h.refs q sh hsh, List.count_cons_self, Nat.add_assoc]
  · rw [hhashed] at hun
    cases hun

end

/-- An object takes over the reference `q` and gives its own up. -/
theorem Inv.swing (h : Inv s linked (o'.shape :: held)) (hp : s.object p = some o)
    (hfits : ∀ sh, s.shape o'.shape = some sh → Fits o' sh) :
    Inv (s.setObject p o') linked (o.shape :: held) := by
  refine ⟨h.valid, fun q x hx => ?_, h.positive, h.unhashed, fun p' o'' hp' => ?_, fun q' hq' => ?_, h.array,
    h.table, h.hashed⟩
  · have hhold := holders_setObject hp o' q
    have hrefs := h.refs q x hx
    rw [List.count_cons] at hrefs ⊢
    have h1 : (o.shape == q) = decide (o.shape = q) := rfl
    have h2 : (o'.shape == q) = decide (o'.shape = q) := rfl
    simp only [h1, h2, decide_eq_true_eq] at hrefs ⊢
    omega
  · rw [object_setObject hp] at hp'
    split at hp'
    · cases hp'
      obtain ⟨x, hx⟩ := h.held o'.shape (.head _)
      exact ⟨x, hx, hfits x hx⟩
    · exact h.object p' o'' hp'
  · rcases List.mem_cons.mp hq' with rfl | hq'
    · obtain ⟨x, hx, _⟩ := h.object p o hp
      exact ⟨x, hx⟩
    · exact h.held q' (.tail _ hq')

/-- A new object takes over the reference. -/
theorem Inv.newObject (h : Inv s linked (o'.shape :: held))
    (hfits : ∀ sh, s.shape o'.shape = some sh → Fits o' sh) :
    Inv { s with objects := s.objects ++ [some o'] } linked held := by
  refine ⟨h.valid, fun q x hx => ?_, h.positive, h.unhashed, fun p' o'' hp' => ?_,
    fun q' hq' => h.held q' (.tail _ hq'), h.array, h.table, h.hashed⟩
  · have hrefs := h.refs q x hx
    rw [List.count_cons] at hrefs
    have h2 : (o'.shape == q) = decide (o'.shape = q) := rfl
    simp only [h2, decide_eq_true_eq] at hrefs
    have hhold : ({ s with objects := s.objects ++ [some o'] } : JSRuntime).holders q =
        s.holders q + if o'.shape = q then 1 else 0 := by
      unfold JSRuntime.holders
      rw [List.countP_append, List.countP_singleton]
      simp only [Option.any_some, decide_eq_true_eq]
      omega
    omega
  · rw [object_eq_some, List.getElem?_append] at hp'
    split at hp'
    · exact h.object p' o'' (object_eq_some.mpr hp')
    · have hmem := List.mem_of_getElem? hp'
      simp only [List.mem_singleton, Option.some.injEq] at hmem
      subst hmem
      obtain ⟨x, hx⟩ := h.held o''.shape (.head _)
      exact ⟨x, hx, hfits x hx⟩

/-- An object goes, and its reference remains. -/
theorem Inv.forget (h : Inv s linked held) (hp : s.object p = some o) :
    Inv { s with objects := s.objects.set p none } linked (o.shape :: held) := by
  refine ⟨h.valid, fun q x hx => ?_, h.positive, h.unhashed, fun p' o'' hp' => ?_, fun q' hq' => ?_, h.array,
    h.table, h.hashed⟩
  · have hrefs := h.refs q x hx
    have hforget := holders_forget (q := q) hp
    rw [List.count_cons]
    have h2 : (o.shape == q) = decide (o.shape = q) := rfl
    simp only [h2, decide_eq_true_eq]
    omega
  · rw [object_eq_some] at hp'
    by_cases hpp : p' = p
    · rw [List.getElem?_set] at hp'
      split at hp'
      · split at hp' <;> cases hp'
      · exact h.object p' o'' (object_eq_some.mpr hp')
    · rw [List.getElem?_set_ne (Ne.symm hpp)] at hp'
      exact h.object p' o'' (object_eq_some.mpr hp')
  · rcases List.mem_cons.mp hq' with rfl | hq'
    · obtain ⟨x, hx, _⟩ := h.object p o hp
      exact ⟨x, hx⟩
    · exact h.held q' hq'

/-- The hash of a shape that is in the table. -/
def JSShape.tableHash (sh : JSShape) : Option ℕ := if sh.isHashed then some sh.hash else none

theorem hashOf_setShape (s : JSRuntime) (q : Ptr) (x : Option JSShape) :
    (s.setShape q x).hashOf = Function.update s.hashOf q (x.bind JSShape.tableHash) := by
  funext q'
  unfold JSRuntime.hashOf
  rw [shape_setShape, Function.update_apply]
  split <;> rfl

theorem hashOf_of_shape (hsh : s.shape q = some sh) : s.hashOf q = sh.tableHash := by
  rw [JSRuntime.hashOf, hsh]
  rfl

/-- A change that leaves the hash at an address alone. -/
theorem hashOf_setShape_eq {x : Option JSShape} (h : x.bind JSShape.tableHash = s.hashOf q) :
    (s.setShape q x).hashOf = s.hashOf := by
  rw [hashOf_setShape, h]
  exact Function.update_eq_self ..

theorem hashOf_setShape_same (hsh : s.shape q = some sh) (hsame : sh'.tableHash = sh.tableHash) :
    (s.setShape q (some sh')).hashOf = s.hashOf :=
  hashOf_setShape_eq (by rw [Option.bind_some, hsame, hashOf_of_shape hsh])

/-- The last reference to a shape is dropped. -/
theorem Inv.drop (h : Inv s linked (q :: held)) (hsh : s.shape q = some sh) (hone : sh.refCount ≤ 1)
    (hlinked : linked q = none) : Inv (s.setShape q none) linked held := by
  have hrefs := h.refs q sh hsh
  rw [List.count_cons_self] at hrefs
  have hnot : q ∉ held := fun hmem => by
    have := List.count_pos_iff.mpr hmem
    omega
  have hshape : ∀ q' x, (s.setShape q none).shape q' = some x ↔ s.shape q' = some x ∧ q' ≠ q := by
    intro q' x
    rw [shape_setShape]
    split
    · rename_i heq
      exact ⟨nofun, fun h => absurd heq h.2⟩
    · rename_i hne
      exact ⟨fun h => ⟨h, hne⟩, fun h => h.1⟩
  refine ⟨fun q' x hx => h.valid q' x ((hshape q' x).mp hx).1, fun q' x hx => ?_,
    fun q' x hx => h.positive q' x ((hshape q' x).mp hx).1,
    fun q' x hx => h.unhashed q' x ((hshape q' x).mp hx).1, fun p o hp => ?_, fun q' hq' => ?_,
    fun q' hq' => ?_, h.table, fun q' hash hhash => ?_⟩
  · obtain ⟨hx, hne⟩ := (hshape q' x).mp hx
    have hrefs' := h.refs q' x hx
    rwa [List.count_cons_of_ne (Ne.symm hne)] at hrefs'
  · obtain ⟨x, hx, hfits⟩ := h.object p o hp
    refine ⟨x, (hshape _ _).mpr ⟨hx, fun heq => ?_⟩, hfits⟩
    have hone' : 1 ≤ s.holders o.shape := one_le_holders hp
    rw [heq] at hone'
    omega
  · obtain ⟨x, hx⟩ := h.held q' (.tail _ hq')
    exact ⟨x, (hshape _ _).mpr ⟨hx, fun heq => hnot (heq ▸ hq')⟩⟩
  · obtain ⟨x, hx, harr⟩ := h.array q' hq'
    refine ⟨x, (hshape _ _).mpr ⟨hx, fun heq => ?_⟩, harr⟩
    have harray : s.arrayShape = some q := heq ▸ hq'
    have hone' : 1 ≤ s.holders q := by simp [JSRuntime.holders, harray]
    omega
  · obtain ⟨x, hx, hhashed⟩ := h.hashed q' hash hhash
    refine ⟨x, (hshape _ _).mpr ⟨hx, fun heq => ?_⟩, hhashed⟩
    rw [heq, hlinked] at hhash
    cases hhash

/-- `js_free_shape`. -/
theorem Inv.free (h : Inv s s.hashOf (q :: held)) : Inv (jsFreeShape s q) (jsFreeShape s q).hashOf held := by
  obtain ⟨sh, hsh⟩ := h.held q (.head _)
  rw [jsFreeShape, hsh]
  simp only
  have hrefs := h.refs q sh hsh
  rw [List.count_cons_self] at hrefs
  split
  · rename_i hone
    rw [hashOf_setShape]
    by_cases hhashed : sh.isHashed
    · have hhash : s.hashOf q = some sh.hash := by
        rw [hashOf_of_shape hsh, JSShape.tableHash, if_pos hhashed]
      rw [if_pos hhashed]
      exact (h.unlink hhash).drop hsh hone (Function.update_self ..)
    · have hhash : s.hashOf q = none := by
        rw [hashOf_of_shape hsh, JSShape.tableHash, if_neg hhashed]
      rw [if_neg hhashed]
      have hsame : Function.update s.hashOf q none = s.hashOf :=
        hhash ▸ Function.update_eq_self ..
      exact hsame.symm ▸ h.drop hsh hone hhash
  · have hsame : (s.setShape q (some { sh with refCount := sh.refCount - 1 })).hashOf = s.hashOf :=
      hashOf_setShape_same hsh rfl
    rw [hsame]
    refine h.recount hsh (by omega) (by omega) (fun q' hne => (List.count_cons_of_ne (Ne.symm hne)).symm)
      (fun q' hq' => .inr (.tail _ hq')) fun hun => ?_
    have := h.unhashed q sh hsh hun
    omega

end QuickJs.Shape
