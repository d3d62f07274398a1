import QuickJs.ShapeOps

/-!
# Adding properties

A property that the object does not have is added at its end. The object may go over to a
shape that has the property already, to a copy of its shape, or to a larger block.
-/

namespace QuickJs.Shape

open JSShape

variable {s s' t : JSRuntime} {sh sh' : JSShape} {o o' : JSObject} {p p' q q' : Ptr} {hash : ℕ}
  {linked linked' : Ptr → Option ℕ} {mem mem' : Alloc} {ok : Bool} {atom a : JSAtom}
  {flags : BitVec 6} {val : JSValue} {keys : List (JSAtom × BitVec 6)} {values : List JSValue}

/-! ## Views -/

/-- A property is added. -/
def View.add (v : View) (atom : JSAtom) (flags : BitVec 6) (val : JSValue) : View :=
  { v with props := v.props ++ [((atom, flags), val)] }

/-- The property `atom` becomes another one, or goes. -/
def View.change (v : View) (atom : JSAtom) (f : Entry → Option Entry) : View :=
  { v with props := v.props.filterMap fun e => if e.1.1 = atom then f e else some e }

theorem liveProps_append (hlen : values.length = keys.length) (hatom : atom ≠ jsAtomNull)
    (flags : BitVec 6) (val : JSValue) :
    liveProps (keys ++ [(atom, flags)]) (values ++ [val]) =
      liveProps keys values ++ [((atom, flags), val)] := by
  rw [liveProps, List.zip_append hlen.symm]
  simp [liveProps, hatom]

theorem zip_set (keys : List (JSAtom × BitVec 6)) (values : List JSValue) (i : ℕ) (x : Entry) :
    (keys.set i x.1).zip (values.set i x.2) = (keys.zip values).set i x := by
  induction keys generalizing values i with
  | nil => rfl
  | cons k keys ih =>
    cases values with
    | nil => simp
    | cons v values =>
      cases i with
      | zero => rfl
      | succ i => exact congrArg _ (ih values i)

/-- One entry of the table changes. -/
theorem liveProps_set {i : ℕ} {e x : Entry} (hdistinct : Distinct keys)
    (hlen : values.length = keys.length) (hget : (keys.zip values)[i]? = some e)
    (hatom : e.1.1 ≠ jsAtomNull) :
    liveProps (keys.set i x.1) (values.set i x.2) = (liveProps keys values).filterMap fun e' =>
      if e'.1.1 = e.1.1 then (if x.1.1 = jsAtomNull then none else some x) else some e' := by
  have hpair : (keys.zip values).Pairwise fun e e' => e.1.1 = e'.1.1 → e.1.1 = jsAtomNull :=
    List.Pairwise.of_map Prod.fst (fun _ _ h => h)
      (by rw [List.map_fst_zip hlen.ge]; exact hdistinct)
  obtain ⟨hlt, hget⟩ := List.getElem?_eq_some_iff.mp hget
  have hset : ∀ y, (keys.zip values).set i y =
      (keys.zip values).take i ++ y :: (keys.zip values).drop (i + 1) := fun y => by
    rw [List.set_eq_take_append_cons_drop, if_pos hlt]
  have hsplit : keys.zip values = (keys.zip values).take i ++ e :: (keys.zip values).drop (i + 1) := by
    rw [← hset, ← hget, List.set_getElem_self]
  generalize (keys.zip values).take i = l₁ at hset hsplit
  generalize (keys.zip values).drop (i + 1) = l₂ at hset hsplit
  rw [hsplit] at hpair
  obtain ⟨_, hpair₂, hpair₁⟩ := List.pairwise_append.mp hpair
  -- the live entries on both sides belong to other atoms
  have hsame : ∀ l : List Entry, (∀ e' ∈ l, e'.1.1 ≠ jsAtomNull → e'.1.1 ≠ e.1.1) →
      (l.filter (·.1.1 ≠ jsAtomNull)).filterMap (fun e' =>
        if e'.1.1 = e.1.1 then (if x.1.1 = jsAtomNull then none else some x) else some e') =
      l.filter (·.1.1 ≠ jsAtomNull) := fun l hl => by
    refine (List.filterMap_congr fun e' he' => ?_).trans List.filterMap_some
    obtain ⟨hmem, hlive⟩ := List.mem_filter.mp he'
    exact if_neg (hl e' hmem (of_decide_eq_true hlive))
  have h₁ := hsame l₁ fun e' he' hlive heq => hlive (hpair₁ e' he' e (.head _) heq)
  have h₂ := hsame l₂ fun e' he' _ heq =>
    hatom (List.rel_of_pairwise_cons hpair₂ he' heq.symm)
  have he : (e :: l₂).filter (·.1.1 ≠ jsAtomNull) = e :: l₂.filter (·.1.1 ≠ jsAtomNull) :=
    List.filter_cons_of_pos (by simpa using hatom)
  rw [liveProps, zip_set, hset, liveProps, hsplit, List.filter_append, List.filter_append,
    List.filterMap_append, h₁, he, List.filterMap_cons, if_pos rfl, h₂]
  by_cases hx : x.1.1 = jsAtomNull
  · rw [List.filter_cons_of_neg (by simpa using hx), if_pos hx]
  · rw [List.filter_cons_of_pos (by simpa using hx), if_neg hx]

/-! ## A shape that is not in the table -/

/-- Every shape but `q` is in the table as it should. -/
structure Unlinked (s : JSRuntime) (linked : Ptr → Option ℕ) (q : Ptr) : Prop where
  self : linked q = none
  others : ∀ q' ≠ q, s.hashOf q' = linked q'

theorem Unlinked.hashOf (h : Unlinked s linked q) :
    s.hashOf = Function.update linked q ((s.shape q).bind JSShape.tableHash) := by
  refine (Function.update_eq_iff.mpr ⟨rfl, fun q' hq' => (h.others q' hq').symm⟩).symm

theorem Unlinked.setShape (h : Unlinked s linked q) (x : Option JSShape) :
    Unlinked (s.setShape q x) linked q := by
  refine ⟨h.self, fun q' hq' => ?_⟩
  rw [hashOf_setShape, Function.update_of_ne hq', h.others q' hq']

/-- The shape is taken out of the table if it is there. -/
theorem unlink_spec (h : Inv s s.hashOf []) (hp : s.objectShape p = some (o, sh))
    (ht : t = if sh.isHashed then jsShapeHashUnlink s o.shape sh.hash else s) :
    Step s t (Function.update s.hashOf o.shape none) p id ∧
      Unlinked t (Function.update s.hashOf o.shape none) o.shape ∧
      t.objectShape p = some (o, sh) := by
  obtain ⟨_, hsh⟩ := objectShape_eq_some.mp hp
  have hhash := hashOf_of_shape hsh
  have hrefl := Step.refl (p := p) h
  have hun : Unlinked s (Function.update s.hashOf o.shape none) o.shape :=
    ⟨Function.update_self .., fun q' hq' => (Function.update_of_ne hq' ..).symm⟩
  rw [JSShape.tableHash] at hhash
  by_cases hhashed : sh.isHashed
  · rw [if_pos hhashed] at hhash ht
    subst ht
    exact ⟨⟨h.unlink hhash, hrefl.view, hrefl.others, hrefl.array, hrefl.kept⟩, ⟨hun.self, hun.others⟩, hp⟩
  · rw [if_neg hhashed] at hhash ht
    subst ht
    refine ⟨⟨?_, hrefl.view, hrefl.others, hrefl.array, hrefl.kept⟩, hun, hp⟩
    rwa [← hhash, Function.update_eq_self]

/-- It is put back, perhaps with another hash. -/
theorem relink_spec {f : View → View} (h : Step s t linked p f) (hun : Unlinked t linked q)
    (hsh : t.shape q = some sh) (hlt : sh.isHashed → sh.hash < 2 ^ 32)
    (hs' : s' = if sh.isHashed then jsShapeHashLink t q sh.hash else t) :
    Step s s' s'.hashOf p f := by
  have hhash := hun.hashOf
  rw [hsh, Option.bind_some, JSShape.tableHash] at hhash
  by_cases hhashed : sh.isHashed
  · rw [if_pos hhashed] at hhash hs'
    have hinv := h.inv.link hsh hhashed hun.self (hlt hhashed)
    rw [← hhash] at hinv
    subst hs'
    exact ⟨hinv, h.view, h.others, h.array, h.kept⟩
  · rw [if_neg hhashed, ← hun.self, Function.update_eq_self] at hhash
    rw [if_neg hhashed] at hs'
    subst hs'
    exact hhash.symm ▸ h

/-! ## Room for more properties -/

theorem realloc_eq_some (h : s.realloc q mem = (some q', mem')) : q' = q ∨ s.shape q' = none := by
  unfold JSRuntime.realloc at h
  split at h
  · split at h
    · rename_i hfree
      cases h
      exact hfree
    · cases h
  · cases h
  · cases h

section

variable (h : Inv s linked []) (hp : s.objectShape p = some (o, sh)) (hone : sh.refCount = 1) (hun : Unlinked s linked o.shape)

include h hp hone hun

/-- `resize_properties`: the shape may have moved. -/
theorem resizeProperties_spec {count : ℕ}
    (hle : sh.prop.length ≤ count)
    (hr : resizeProperties s p count mem = (ok, s', mem')) : Step s s' linked p id ∧
      ∃ q propAlloc prop table propSize, s'.objectShape p = some
        ({ o with shape := q, propAlloc := propAlloc },
          { sh with prop := prop, propHash := table, propSize := propSize }) ∧
        prop.map JSShapeProperty.key = sh.keys ∧ Unlinked s' linked q ∧
        (ok = false → q = o.shape) ∧ (ok = true → count ≤ propSize) := by
  obtain ⟨hobj, hsh, hfits, _⟩ := h.parts hp
  have hnew : count ≤ sh.newSize count := Nat.le_max_left ..
  rw [resizeProperties, hp] at hr
  cases hmem : JSRuntime.mallocOther mem with
  | mk room mem₁ =>
    rw [hmem] at hr
    cases room with
    | false =>
      cases hr
      exact ⟨.refl h, o.shape, o.propAlloc, sh.prop, sh.propHash, sh.propSize, hp, rfl, hun,
        fun _ => rfl, nofun⟩
    | true =>
      have hsize : sh.propSize ≤ sh.newSize count := by
        unfold JSShape.newSize
        omega
      have hvalues : Step s (s.setObject p { o with propAlloc := sh.newSize count }) linked p id ∧
          _ := values_spec h hobj hsh rfl ⟨hfits.count, hsize⟩ rfl
      obtain ⟨hroom, hp₁⟩ := hvalues
      simp only at hr
      generalize hs₁ : s.setObject p { o with propAlloc := sh.newSize count } = s₁ at hr hroom hp₁
      have hun₁ : Unlinked s₁ linked o.shape := ⟨hun.self, fun q' hq' => hs₁ ▸ hun.others q' hq'⟩
      split at hr
      · cases hr
        exact ⟨hroom, o.shape, _, sh.prop, sh.propHash, sh.propSize, hp₁, rfl, hun₁, fun _ => rfl, nofun⟩
      · rename_i q mem₂ hanswer
        cases hr
        have hfree : q = o.shape ∨ s₁.shape q = none := by
          split at hanswer
          · exact .inr (malloc_eq_some hanswer)
          · exact realloc_eq_some hanswer
        obtain ⟨hobj₁, hsh₁⟩ := objectShape_eq_some.mp hp₁
        obtain ⟨_, prop, table, heq, hkeys⟩ := resize_eq (h.valid _ _ hsh) (sh.newSize count)
        have hlen : prop.length = sh.prop.length := by
          simpa using congrArg List.length hkeys
        have hvalid := (h.valid _ _ hsh).resize (Nat.le_trans hle hnew)
        generalize hsh' : sh.resize (sh.newSize count) = sh' at heq hvalid
        have hfits' : Fits { o with shape := q, propAlloc := sh.newSize count } sh' := by
          rw [heq]
          exact ⟨hfits.count.trans hlen.symm, Nat.le_refl _⟩
        have hview : viewOf { o with shape := q, propAlloc := sh.newSize count } sh' =
            viewOf { o with propAlloc := sh.newSize count } sh := by
          rw [heq]
          exact congrArg (fun keys => View.mk _ (liveProps keys _) _) hkeys
        obtain ⟨hmove, hp₂⟩ := replace_spec (f := id) hroom.inv hobj₁ hsh₁ hone hun.self hfree
          hvalid (heq ▸ hone) hfits' hview rfl
        refine ⟨hroom.trans hmove, q, _, prop, table, _, by rw [← heq]; exact hp₂, hkeys,
          ⟨?_, fun q' hq' => ?_⟩, nofun, fun _ => hnew⟩
        · rcases hfree with rfl | hfree
          · exact hun.self
          · exact (hroom.inv.holders_free hfree).2.2
        · change ((s₁.setShape o.shape none).setShape q (some sh')).hashOf q' = _
          rw [hashOf_setShape, hashOf_setShape, Function.update_of_ne hq', Function.update_apply]
          split
          · rename_i heq'
            rw [heq', hun.self]
            rfl
          · rename_i hne
            exact hun₁.others q' hne

/-- The properties get more room if the test `c` asks for it. -/
theorem room_spec {count : ℕ} {c : Prop} [Decidable c]
    (hle : sh.prop.length ≤ count)
    (hc : ¬c → count ≤ sh.propSize)
    (hr : (if c then resizeProperties s p count mem else (true, s, mem)) = (ok, s', mem')) :
    Step s s' linked p id ∧ ∃ q propAlloc prop table propSize, s'.objectShape p = some
      ({ o with shape := q, propAlloc := propAlloc },
        { sh with prop := prop, propHash := table, propSize := propSize }) ∧
      prop.map JSShapeProperty.key = sh.keys ∧ Unlinked s' linked q ∧
      (ok = false → q = o.shape) ∧ (ok = true → count ≤ propSize) := by
  split at hr
  · exact resizeProperties_spec h hp hone hun hle hr
  · rename_i hnot
    cases hr
    exact ⟨.refl h, o.shape, o.propAlloc, sh.prop, sh.propHash, sh.propSize, hp, rfl, hun,
      fun _ => rfl, fun _ => hc hnot⟩

end

/-! ## Adding a property -/

@[simp] theorem isHashed_add : (sh.add atom flags).isHashed = sh.isHashed := by
  unfold JSShape.add link
  split <;> rfl

@[simp] theorem refCount_add : (sh.add atom flags).refCount = sh.refCount := by
  unfold JSShape.add link
  split <;> rfl

@[simp] theorem propSize_add : (sh.add atom flags).propSize = sh.propSize := by
  unfold JSShape.add link
  split <;> rfl

@[simp] theorem proto_add : (sh.add atom flags).proto = sh.proto := by
  unfold JSShape.add link
  split <;> rfl

/-- `Step` of an operation that may fail. -/
def Outcome (s s' : JSRuntime) (p : Ptr) (ok : Bool) (f : View → View) : Prop :=
  Step s s' s'.hashOf p (if ok then f else id)

/-- The new entry, for a shape with room for it. -/
theorem append_spec (h : Inv s linked []) (hp : s.objectShape p = some (o, sh))
    (hone : sh.refCount = 1) (hlinked : linked o.shape = none) (hatom : atom ≠ jsAtomNull)
    (hfresh : ∀ k ∈ sh.keys, k.1 ≠ atom) (hlt : sh.prop.length < 2 ^ 26)
    (hroom : sh.prop.length < sh.propSize) (hash : ℕ) (val : JSValue) :
    Step s ((s.setShape o.shape (some { sh.add atom flags with hash := hash })).setObject p
      { o with prop := o.prop ++ [val] }) linked p (·.add atom flags val) ∧
    ((s.setShape o.shape (some { sh.add atom flags with hash := hash })).setObject p
      { o with prop := o.prop ++ [val] }).objectShape p =
      some ({ o with prop := o.prop ++ [val] }, { sh.add atom flags with hash := hash }) := by
  obtain ⟨hobj, hsh, hfits, _⟩ := h.parts hp
  have hvalid := (h.valid _ _ hsh).add flags hatom hfresh hlt hroom
  have hlen : (sh.add atom flags).prop.length = sh.prop.length + 1 := length_prop_link
  refine update_spec h hobj hsh hone hlinked rfl
    (hvalid.congr (hvalid.chains.of_eq rfl rfl) rfl rfl rfl hvalid.fits)
    (refCount_add.trans hone) ⟨?_, propSize_add.trans_le hfits.alloc⟩ ?_
  · rw [hlen, List.length_append, hfits.count, List.length_singleton]
  · have hprops := liveProps_append (hfits.count.trans (length_keys sh).symm) hatom flags val
    rw [← keys_add] at hprops
    exact congrArg₂ (View.mk · · o.fastArray) proto_add hprops

/-- `add_shape_property`, for an object with a shape of its own. -/
theorem addShapeProperty_spec (h : Inv s s.hashOf []) (hp : s.objectShape p = some (o, sh))
    (hone : sh.refCount = 1) (hatom : atom ≠ jsAtomNull) (hfresh : ∀ k ∈ sh.keys, k.1 ≠ atom)
    (hlt : sh.prop.length < 2 ^ 26) (hr : addShapeProperty s p atom flags val mem = (ok, s', mem')) :
    Outcome s s' p ok (·.add atom flags val) := by
  obtain ⟨hobj, hsh⟩ := objectShape_eq_some.mp hp
  have hhash : sh.isHashed → sh.hash < 2 ^ 32 := fun hhashed => by
    refine h.table.lt o.shape sh.hash ?_
    rw [hashOf_of_shape hsh, JSShape.tableHash, if_pos hhashed]
  rw [addShapeProperty, hp] at hr
  simp only at hr
  have hlt' : sh.isHashed → (if sh.isHashed then
      shapeHash (shapeHash sh.hash atom) flags.toNat else sh.hash) < 2 ^ 32 := fun hhashed => by
    rw [if_pos hhashed]
    exact shapeHash_lt ..
  generalize (if sh.isHashed then shapeHash (shapeHash sh.hash atom) flags.toNat
    else sh.hash) = hash at hr hlt'
  obtain ⟨hunlink, hun, hp₁⟩ := unlink_spec h hp rfl
  generalize (if sh.isHashed then jsShapeHashUnlink s o.shape sh.hash else s) = s₁
    at hr hunlink hun hp₁
  generalize hroom : (if sh.propSize ≤ sh.prop.length then
    resizeProperties s₁ p (sh.prop.length + 1) mem else (true, s₁, mem)) = r at hr
  obtain ⟨ok₂, s₂, mem₂⟩ := r
  obtain ⟨hstep, q, propAlloc, prop, table, propSize, hp₂, hkeys, hun₂, hfail, hsize⟩ :=
    room_spec hunlink.inv hp₁ hone hun (Nat.le_succ _) Nat.lt_of_not_le hroom
  obtain ⟨hobj₂, hsh₂⟩ := objectShape_eq_some.mp hp₂
  cases ok₂ with
  | false =>
    cases hr
    obtain rfl := hfail rfl
    exact relink_spec (hunlink.trans hstep) hun₂ hsh₂ hhash rfl
  | true =>
    rw [hp₂] at hr
    cases hr
    have hlen : prop.length = sh.prop.length := by
      simpa using congrArg List.length hkeys
    have hroom₂ : prop.length < propSize := by
      have := hsize rfl
      omega
    obtain ⟨hadd, hp₃⟩ := append_spec hstep.inv hp₂ hone hun₂.self hatom
      (fun k hk => hfresh k (hkeys ▸ hk)) (hlen ▸ hlt) hroom₂ hash val
    refine relink_spec ((hunlink.trans hstep).trans hadd)
      ⟨hun₂.self, (hun₂.setShape _).others⟩ (objectShape_eq_some.mp hp₃).2 (fun hhashed => ?_) ?_
    · rw [isHashed_add] at hhashed
      exact hlt' hhashed
    · simp only [isHashed_add]
      split <;> rfl

/-- A shape that a search of the table has found. -/
theorem findHashedShape_eq_some {f : JSShape → Bool} (h : Inv s linked [])
    (hfind : findHashedShape s hash f = some q) :
    ∃ sh, s.shape q = some sh ∧ sh.isHashed ∧ f sh := by
  have hmem := List.mem_of_find?_eq_some hfind
  obtain ⟨hash', hlinked, _⟩ := (h.table.mem _ q).mp hmem
  obtain ⟨sh, hsh, hhashed⟩ := h.hashed q hash' hlinked
  have hany := List.find?_some hfind
  rw [hsh, Option.any_some, Bool.and_eq_true] at hany
  exact ⟨sh, hsh, hhashed, hany.2⟩

/-- `p` goes over to a shape of the table, which it then shares. -/
theorem share_spec {f : View → View} (h : Inv s s.hashOf []) (hp : s.objectShape p = some (o, sh))
    (hsh' : s.shape o'.shape = some sh') (hhashed : sh'.isHashed) (hne : o'.shape ≠ o.shape)
    (hfits : Fits o' sh') (hview : viewOf o' sh' = f (viewOf o sh))
    (hs' : s' = jsFreeShape (jsDupShape (s.setObject p o') o'.shape) o.shape) :
    Step s s' s'.hashOf p f := by
  have hdup : jsDupShape s o'.shape =
      s.setShape o'.shape (some { sh' with refCount := sh'.refCount + 1 }) := by
    rw [jsDupShape, hsh']
  have hdup' : jsDupShape (s.setObject p o') o'.shape = (jsDupShape s o'.shape).setObject p o' := by
    have hsh'' : (s.setObject p o').shape o'.shape = some sh' := hsh'
    rw [hdup, jsDupShape, hsh'']
    rfl
  have hsame : (s.setShape o'.shape (some { sh' with refCount := sh'.refCount + 1 })).hashOf =
      s.hashOf := hashOf_setShape_same hsh' rfl
  have hnew : (s.setShape o'.shape (some { sh' with refCount := sh'.refCount + 1 })).shape o'.shape =
      some { sh' with refCount := sh'.refCount + 1 } := Function.update_self ..
  have ht := h.dup hsh' hhashed
  rw [hdup, ← hsame] at ht
  have hpos := h.positive _ _ hsh'
  refine (swing_spec hp ht rfl rfl hne hnew (fun q' hq' => by rw [shape_setShape, if_neg hq'])
    (fun x hx => ?_) ⟨hfits.count, hfits.alloc⟩ hview ?_).1
  · cases hsh'.symm.trans hx
    exact ⟨rfl, Nat.ne_of_gt (Nat.succ_lt_succ hpos)⟩
  · rw [hs', hdup', hdup, jsFreeShape_setObject]

/-- `add_property`. -/
theorem addProperty_spec (h : Inv s s.hashOf []) (hp : s.objectShape p = some (o, sh))
    (hatom : atom ≠ jsAtomNull) (hfresh : ∀ k ∈ sh.keys, k.1 ≠ atom)
    (hlt : sh.prop.length < 2 ^ 26) (hr : addProperty s p atom flags val mem = (ok, s', mem')) :
    Outcome s s' p ok (·.add atom flags val) := by
  obtain ⟨hobj, hsh, hfits, _⟩ := h.parts hp
  rw [addProperty, hp] at hr
  simp only at hr
  split at hr
  · rename_i hhashed
    split at hr
    · -- a shape of the table has the property already
      rename_i q hfind
      obtain ⟨sh', hsh', hhashed', hmatch⟩ := findHashedShape_eq_some h hfind
      rw [Bool.and_eq_true, decide_eq_true_eq, decide_eq_true_eq] at hmatch
      obtain ⟨hproto, hkeys⟩ := hmatch
      have hlen : sh'.prop.length = sh.prop.length + 1 := by
        simpa using congrArg List.length hkeys
      have hne : q ≠ o.shape := fun heq => by
        rw [heq, hsh] at hsh'
        cases hsh'
        omega
      rw [hsh', Option.elim_some] at hr
      generalize hroom : (if sh'.propSize ≠ sh.propSize then JSRuntime.mallocOther mem
        else (true, mem)) = r at hr
      obtain ⟨ok₂, mem₂⟩ := r
      cases ok₂ with
      | false =>
        cases hr
        exact .refl h
      | true =>
        cases hr
        refine share_spec h hp hsh' hhashed' hne ⟨?_, ?_⟩ ?_ rfl
        · rw [List.length_append, hlen, hfits.count, List.length_singleton]
        · have := hfits.alloc
          simp only
          split <;> omega
        · have hprops := liveProps_append (hfits.count.trans (length_keys sh).symm) hatom flags val
          rw [keys, ← hkeys] at hprops
          exact congrArg₂ (View.mk · · o.fastArray) hproto hprops
    · split at hr
      · -- a shared shape is cloned
        rw [jsCloneShape] at hr
        cases hmalloc : s.malloc mem with
        | mk a mem₁ =>
          rw [hmalloc] at hr
          cases a with
          | none =>
            cases hr
            exact .refl h
          | some q =>
            simp only [setShape_setShape] at hr
            have hfree := malloc_eq_some hmalloc
            have hcopy : ({ sh with refCount := 1 } : JSShape) =
                { sh with refCount := 1, isHashed := true } := by
              rw [← hhashed]
            have hhash : s.hashOf o.shape = some sh.hash := by
              rw [hashOf_of_shape hsh, JSShape.tableHash, if_pos hhashed]
            rw [hcopy] at hr
            generalize hs₁ : s.setShape q (some { sh with refCount := 1, isHashed := true }) = s₁ at hr
            have hshape : ∀ q', s₁.shape q' = if q' = q then
                some { sh with refCount := 1, isHashed := true } else s.shape q' := fun q' => by
              rw [← hs₁, shape_setShape]
            have hclone : Inv (jsShapeHashLink s₁ q sh.hash) (jsShapeHashLink s₁ q sh.hash).hashOf
                [q] := by
              have hinv := h.alloc hfree (valid_copy (h.valid _ _ hsh) 1 true) rfl
              rw [hs₁] at hinv
              have hlinked := hinv.link (hshape q ▸ if_pos rfl) rfl (h.holders_free hfree).2.2
                (h.table.lt _ _ hhash)
              have hhashOf : s₁.hashOf = Function.update s.hashOf q (some sh.hash) := by
                rw [← hs₁, hashOf_setShape]
                rfl
              exact hhashOf ▸ hlinked
            obtain ⟨hstep, hp₂⟩ := clone_spec h hp hfree hclone (hs₁ ▸ rfl) (hs₁ ▸ rfl) hshape rfl
            exact hstep.trans (addShapeProperty_spec hstep.inv hp₂ rfl hatom hfresh hlt hr)
      · rename_i hone
        exact addShapeProperty_spec h hp (by simpa using hone) hatom hfresh hlt hr
  · rename_i hhashed
    have hone := h.unhashed _ _ hsh (by simpa using hhashed)
    exact addShapeProperty_spec h hp hone hatom hfresh hlt hr

end QuickJs.Shape
