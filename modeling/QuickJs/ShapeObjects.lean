import QuickJs.ShapeChange

/-!
# Arrays and objects

A fast array keeps its elements outside of the shape. They become properties when the array
is converted. Objects are made from a shape of the table and give it up when they are freed.
-/

namespace QuickJs.Shape

open JSShape

variable {s s' t : JSRuntime} {sh sh' : JSShape} {o o' : JSObject} {p p' q q' : Ptr} {h i : ℕ}
  {mem mem' : Alloc} {ok : Bool} {atom a : JSAtom} {flags : BitVec 6} {val : JSValue}

/-! ## Fast arrays -/

/-- The property that the element `e` of a fast array becomes. -/
def elementEntry (e : JSValue × ℕ) : Entry := ((jsAtomFromUInt32 e.2, jsPropCWE), e.1)

/-- The elements become properties. -/
def View.convert (v : View) : View :=
  { v with
    props := v.props ++ (v.fastArray.getD []).zipIdx.map elementEntry
    fastArray := none }

/-- A property is added to a shape of one's own that has room for it. -/
theorem addProperty_own (flags : BitVec 6) (val : JSValue) (mem : Alloc) (h : Inv s s.hashOf [])
    (hp : s.objectShape p = some (o, sh))
    (hone : sh.refCount = 1) (hun : sh.isHashed = false) (hatom : atom ≠ jsAtomNull)
    (hfresh : ∀ k ∈ sh.keys, k.1 ≠ atom) (hlt : sh.prop.length < 2 ^ 26)
    (hroom : sh.prop.length < sh.propSize) (hs' : s' = (addProperty s p atom flags val mem).2.1) :
    Step s s' s'.hashOf p (·.add atom flags val) ∧ ∃ sh',
      s'.objectShape p = some ({ o with prop := o.prop ++ [val] }, sh') ∧
      sh'.keys = sh.keys ++ [(atom, flags)] ∧ sh'.refCount = 1 ∧ sh'.isHashed = false ∧
      sh'.propSize = sh.propSize := by
  obtain ⟨hobj, hsh⟩ := objectShape_eq_some.mp hp
  have hnone : s.hashOf o.shape = none := by
    rw [hashOf_of_shape hsh, JSShape.tableHash, hun]
    rfl
  have hadd : s' = (s.setShape o.shape (some { sh.add atom flags with hash := sh.hash })).setObject p
      { o with prop := o.prop ++ [val] } := by
    rw [hs', addProperty, hp]
    simp only [hun, addShapeProperty, hp, Bool.false_eq_true, if_false, if_neg (Nat.not_le_of_lt hroom),
      Bool.not_true]
  obtain ⟨hstep, hp'⟩ := append_spec h hp hone hnone hatom hfresh hlt hroom sh.hash val
  rw [← hadd] at hstep hp'
  have hhash : s'.hashOf = s.hashOf := by
    rw [hadd]
    refine hashOf_setShape_same hsh ?_
    rw [JSShape.tableHash, isHashed_add, JSShape.tableHash, hun]
  rw [hhash]
  exact ⟨hstep, _, hp', keys_add, refCount_add.trans hone, isHashed_add.trans hun, propSize_add⟩

/-- The loop of `convert_fast_array_to_array`. -/
theorem foldl_addProperty : ∀ {es : List (JSValue × ℕ)} {s : JSRuntime} {o : JSObject}
    {sh : JSShape}, Inv s s.hashOf [] → s.objectShape p = some (o, sh) → sh.refCount = 1 →
    sh.isHashed = false → (∀ e ∈ es, ∀ k ∈ sh.keys, k.1 ≠ jsAtomFromUInt32 e.2) →
    (es.map Prod.snd).Nodup → sh.prop.length + es.length ≤ 2 ^ 26 →
    sh.prop.length + es.length ≤ sh.propSize →
    ∃ s', s' = es.foldl (fun s e => (addProperty s p (jsAtomFromUInt32 e.2) jsPropCWE e.1 []).2.1) s ∧
      Step s s' s'.hashOf p (fun v => { v with props := v.props ++ es.map elementEntry }) ∧
      ∃ o' sh', s'.objectShape p = some (o', sh') ∧ sh'.refCount = 1 ∧ sh'.isHashed = false ∧
        o'.fastArray = o.fastArray
  | [], s, o, sh, h, hp, hone, hun, _, _, _, _ => by
    refine ⟨s, rfl, ?_, o, sh, hp, hone, hun, rfl⟩
    have hrefl := Step.refl (p := p) h
    refine ⟨hrefl.inv, hrefl.view.trans ?_, hrefl.others, hrefl.array, hrefl.kept⟩
    simp
  | e :: es, s, o, sh, h, hp, hone, hun, hfresh, hnodup, hlt, hroom => by
    rw [List.length_cons] at hlt hroom
    obtain ⟨hnot, hnodup⟩ := List.nodup_cons.mp hnodup
    have hatom : jsAtomFromUInt32 e.2 ≠ jsAtomNull := by
      simp [jsAtomFromUInt32, jsAtomNull]
    obtain ⟨hstep, sh₁, hp₁, hkeys, hone₁, hun₁, hsize⟩ := addProperty_own jsPropCWE e.1 [] h hp hone hun hatom (hfresh e (.head _)) (by omega) (by omega) rfl
    have hlen : sh₁.prop.length = sh.prop.length + 1 := by
      rw [← length_keys, hkeys, List.length_append, length_keys, List.length_singleton]
    have hfresh₁ : ∀ e' ∈ es, ∀ k ∈ sh₁.keys, k.1 ≠ jsAtomFromUInt32 e'.2 := by
      intro e' he' k hk heq
      rw [hkeys] at hk
      rcases List.mem_append.mp hk with hk | hk
      · exact hfresh e' (.tail _ he') k hk heq
      · rw [List.mem_singleton.mp hk] at heq
        exact hnot (Nat.add_right_cancel heq ▸ List.mem_map_of_mem he')
    obtain ⟨s', hs', hrest, o', sh', hp', hone', hun', hfast⟩ := foldl_addProperty hstep.inv hp₁ hone₁
      hun₁ hfresh₁ hnodup (by omega) (by omega)
    refine ⟨s', hs', ?_, o', sh', hp', hone', hun', hfast⟩
    have hboth := hstep.trans hrest
    refine ⟨hboth.inv, hboth.view.trans ?_, hboth.others, hboth.array, hboth.kept⟩
    refine congrArg (Option.map · (s.view p)) (funext fun v => ?_)
    simp only [Function.comp_apply, View.add, List.append_assoc, List.map_cons,
      List.singleton_append, elementEntry]

variable {v : View} {prop : List JSValue} {fastArray : Option (List JSValue)} {proto : Option Ptr}

/-- A step may be described by what it does to the view at hand. -/
theorem Step.congr {f g : View → View} {linked : Ptr → Option ℕ}
    (h : Step s s' linked p f) (hv : s.view p = some v) (hfg : f v = g v) :
    Step s s' linked p g := by
  refine ⟨h.inv, ?_, h.others, h.array, h.kept⟩
  rw [h.view, hv, Option.map_some, hfg, Option.map_some]

/-- `convert_fast_array_to_array`. -/
theorem convertFastArrayToArray_spec (h : Inv s s.hashOf []) (hp : s.objectShape p = some (o, sh))
    (hfresh : ∀ i < (o.fastArray.getD []).length, ∀ k ∈ sh.keys, k.1 ≠ jsAtomFromUInt32 i)
    (hlt : sh.prop.length + (o.fastArray.getD []).length ≤ 2 ^ 26)
    (hr : convertFastArrayToArray s p mem = (ok, s', mem')) : Outcome s s' p ok View.convert ∧
      (ok = true → ∃ o' sh', s'.objectShape p = some (o', sh') ∧ sh'.isHashed = false) := by
  rw [convertFastArrayToArray] at hr
  cases hprep : jsShapePrepareUpdate s p mem with
  | mk ok₁ x =>
    obtain ⟨s₁, mem₁⟩ := x
    obtain ⟨hstep, hown⟩ := jsShapePrepareUpdate_spec h hp hprep
    rw [hprep] at hr
    cases ok₁ with
    | false =>
      cases hr
      exact ⟨hstep, nofun⟩
    | true =>
      obtain ⟨q, hp₁⟩ := hown rfl
      simp only [hp₁] at hr
      have hnone : s₁.hashOf q = none := by
        rw [hashOf_of_shape (objectShape_eq_some.mp hp₁).2]
        rfl
      generalize htab : o.fastArray.getD [] = tab at hfresh hlt hr
      generalize hroom : (if sh.propSize < sh.prop.length + tab.length then
        resizeProperties s₁ p (sh.prop.length + tab.length) mem₁ else (true, s₁, mem₁)) = r at hr
      obtain ⟨ok₂, s₂, mem₂⟩ := r
      obtain ⟨hresize, q₂, propAlloc, prop, table, propSize, hp₂, hkeys, hun₂, _, hsize⟩ :=
        room_spec hstep.inv hp₁ rfl ⟨hnone, fun _ _ => rfl⟩ (Nat.le_add_right ..)
          Nat.le_of_not_lt hroom
      have hresize : Step s₁ s₂ s₂.hashOf p id :=
        relink_spec hresize hun₂ (objectShape_eq_some.mp hp₂).2 nofun rfl
      have hlen : prop.length = sh.prop.length := by
        simpa using congrArg List.length hkeys
      cases ok₂ with
      | false =>
        cases hr
        exact ⟨hstep.trans hresize, nofun⟩
      | true =>
        have hfresh₂ : ∀ e ∈ tab.zipIdx, ∀ k ∈ prop.map JSShapeProperty.key,
            k.1 ≠ jsAtomFromUInt32 e.2 := by
          intro e he k hk
          rw [hkeys] at hk
          obtain ⟨hlt', _⟩ := List.getElem?_eq_some_iff.mp (List.mem_zipIdx_iff_getElem?.mp he)
          exact hfresh e.2 hlt' k hk
        have hnodup : (tab.zipIdx.map Prod.snd).Nodup := by
          rw [List.zipIdx_map_snd]
          exact List.nodup_range'
        obtain ⟨s₃, hs₃, hfold, o₃, sh₃, hp₃, _, hun₃, hfast⟩ := foldl_addProperty hresize.inv hp₂
          rfl rfl hfresh₂ hnodup (by simpa [hlen] using hlt) (by simpa [hlen] using hsize rfl)
        obtain ⟨hobj₃, hsh₃⟩ := objectShape_eq_some.mp hp₃
        simp only [Bool.not_true, Bool.false_eq_true, if_false, ← hs₃, hobj₃] at hr
        cases hr
        obtain ⟨x, hx, hfits₃⟩ := hfold.inv.object p o₃ hobj₃
        cases hsh₃.symm.trans hx
        have hfits' : Fits { o₃ with fastArray := none } sh₃ := ⟨hfits₃.count, hfits₃.alloc⟩
        have hsame : ({ o₃ with fastArray := none } : JSObject).shape = o₃.shape := rfl
        obtain ⟨hlast, hp₄⟩ := values_spec (f := fun v => { v with fastArray := none })
          hfold.inv hobj₃ hsh₃ hsame hfits' rfl
        refine ⟨(((hstep.trans hresize).trans hfold).trans hlast).congr (view_of hp) ?_,
          fun _ => ⟨_, sh₃, hp₄, hun₃⟩⟩
        simp only [Function.comp_apply, id, if_true, View.convert, viewOf, htab]

/-- The index of an element that is last, or deleted after the conversion. -/
def View.delete (v : View) (atom : JSAtom) : Option View :=
  match v.find atom with
  | some e => if configurable e.1.2 then some (v.change atom fun _ => none) else none
  | none =>
    let tab := v.fastArray.getD []
    let idx := atom - 2 ^ 31
    if jsAtomIsTaggedInt atom && idx < tab.length then
      if idx = tab.length - 1 then some { v with fastArray := some (tab.take idx) }
      else some (v.convert.change atom fun _ => none)
    else some v

theorem delete_of_none (hnone : v.find atom = none) : v.delete atom =
    if jsAtomIsTaggedInt atom && atom - 2 ^ 31 < (v.fastArray.getD []).length then
      if atom - 2 ^ 31 = (v.fastArray.getD []).length - 1 then
        some { v with fastArray := some ((v.fastArray.getD []).take (atom - 2 ^ 31)) }
      else some (v.convert.change atom fun _ => none)
    else some v := by
  rw [View.delete, hnone]

/-- An element becomes a property with the usual flags. -/
theorem find_convert (hnone : v.find atom = none) (htagged : jsAtomIsTaggedInt atom)
    (hlt : atom - 2 ^ 31 < (v.fastArray.getD []).length) :
    ∃ e, v.convert.find atom = some e ∧ e.1.2 = jsPropCWE := by
  have happend : v.convert.find atom =
      ((v.fastArray.getD []).zipIdx.map elementEntry).find? (·.1.1 = atom) := by
    have hnone' : v.props.find? (·.1.1 = atom) = none := hnone
    rw [View.find, View.convert, List.find?_append, hnone', Option.none_or]
  rw [happend]
  cases hfind : ((v.fastArray.getD []).zipIdx.map elementEntry).find? (·.1.1 = atom) with
  | some e =>
    obtain ⟨x, _, rfl⟩ := List.mem_map.mp (List.mem_of_find?_eq_some hfind)
    exact ⟨_, rfl, rfl⟩
  | none =>
    obtain ⟨val, hval⟩ : ∃ val, (v.fastArray.getD [])[atom - 2 ^ 31]? = some val :=
      ⟨_, List.getElem?_eq_getElem hlt⟩
    have hmem : (val, atom - 2 ^ 31) ∈ (v.fastArray.getD []).zipIdx :=
      List.mem_zipIdx_iff_getElem?.mpr hval
    have hne := List.find?_eq_none.mp hfind _ (List.mem_map_of_mem hmem)
    have hle : 2 ^ 31 ≤ atom := of_decide_eq_true htagged
    exact absurd (decide_eq_true (Nat.sub_add_cancel hle)) hne

/-- `delete_property`. -/
theorem deleteProperty_spec {r : Result} (h : Inv s s.hashOf [])
    (hp : s.objectShape p = some (o, sh)) (hatom : atom ≠ jsAtomNull)
    (hfresh : ∀ i < (o.fastArray.getD []).length, ∀ k ∈ sh.keys, k.1 ≠ jsAtomFromUInt32 i)
    (hlt : sh.findOwnProperty atom = 0 → jsAtomIsTaggedInt atom →
      atom - 2 ^ 31 < (o.fastArray.getD []).length → atom - 2 ^ 31 ≠ (o.fastArray.getD []).length - 1 →
      sh.prop.length + (o.fastArray.getD []).length ≤ 2 ^ 26)
    (hr : deleteProperty s p atom mem = (r, s', mem')) :
    Outcome s s' p (r = .true) (fun v => (v.delete atom).getD v) ∧
      (r ≠ .exception → (r = .true ↔ ((viewOf o sh).delete atom).isSome)) := by
  obtain ⟨hobj, hsh⟩ := objectShape_eq_some.mp hp
  rw [deleteProperty] at hr
  cases hentry : deleteEntry s p atom mem with
  | some x =>
    rw [hentry] at hr
    cases hr
    obtain ⟨e, hfind, hfixed, _, hstep⟩ := deleteEntry_spec h hp hatom hentry
    have hdelete : (viewOf o sh).delete atom =
        if configurable e.1.2 then some ((viewOf o sh).change atom fun _ => none) else none := by
      rw [View.delete, hfind]
    rw [hdelete]
    cases r with
    | exception => exact ⟨hstep, fun hne => absurd rfl hne⟩
    | false =>
      rw [hfixed.mp rfl]
      exact ⟨hstep, fun _ => by simp⟩
    | true =>
      have hconf : configurable e.1.2 = true := by
        have := mt hfixed.mpr nofun
        simpa using this
      rw [hconf] at hdelete ⊢
      have hchange : Step s s' s'.hashOf p (·.change atom fun _ => none) := hstep
      have hgood : Step s s' s'.hashOf p fun v => (v.delete atom).getD v :=
        hchange.congr (view_of hp) (by simp only [hdelete, if_true, Option.getD_some])
      exact ⟨hgood, fun _ => by simp⟩
  | none =>
    have hkeys := deleteEntry_eq_none h hp hatom hentry
    have hnone := find_eq_none (o := o) hkeys
    rw [hentry] at hr
    simp only [hobj] at hr
    have hdelete := delete_of_none hnone
    have htab : (viewOf o sh).fastArray = o.fastArray := rfl
    rw [htab] at hdelete
    split at hr
    · rename_i hindex
      obtain ⟨htagged, hidx⟩ := (Bool.and_eq_true _ _).mp hindex
      have hidx := of_decide_eq_true hidx
      rw [if_pos hindex] at hdelete
      split at hr
      · -- the last element
        rename_i hlast
        cases hr
        rw [if_pos hlast] at hdelete
        obtain ⟨_, _, hfits, _⟩ := h.parts hp
        have hfits' : Fits { o with fastArray := some ((o.fastArray.getD []).take (atom - 2 ^ 31)) } sh :=
          ⟨hfits.count, hfits.alloc⟩
        have hsame : ({ o with fastArray := some ((o.fastArray.getD []).take (atom - 2 ^ 31)) } :
            JSObject).shape = o.shape := rfl
        have hgood := (values_spec (f := fun v => (v.delete atom).getD v) h hobj hsh hsame hfits'
          (by simp only [hdelete, Option.getD_some]; rfl)).1
        exact ⟨hgood, fun _ => by simp [hdelete]⟩
      · rename_i hlast
        rw [if_neg hlast] at hdelete
        cases hconv : convertFastArrayToArray s p mem with
        | mk ok₁ x =>
          obtain ⟨s₁, mem₁⟩ := x
          have hlt := hlt (((h.valid _ _ hsh).findOwnProperty_eq_zero hatom).mpr hkeys) htagged hidx
            hlast
          obtain ⟨hstep, hown⟩ := convertFastArrayToArray_spec h hp hfresh hlt hconv
          rw [hconv] at hr
          cases ok₁ with
          | false =>
            cases hr
            exact ⟨hstep, fun hne => absurd rfl hne⟩
          | true =>
            obtain ⟨o₁, sh₁, hp₁, hun₁⟩ := hown rfl
            have hview₁ : viewOf o₁ sh₁ = (viewOf o sh).convert := by
              have hview := hstep.view
              rw [view_of hp₁, view_of hp] at hview
              exact Option.some.inj hview
            obtain ⟨e, hfind, hcwe⟩ := find_convert hnone htagged hidx
            rw [← hview₁] at hfind
            cases hentry₁ : deleteEntry s₁ p atom mem₁ with
            | none =>
              rw [find_eq_none (deleteEntry_eq_none hstep.inv hp₁ hatom hentry₁)] at hfind
              cases hfind
            | some x =>
              simp only [hentry₁, Option.getD_some] at hr
              cases hr
              obtain ⟨e', hfind', hfixed, hexc, hstep₂⟩ :=
                deleteEntry_spec hstep.inv hp₁ hatom hentry₁
              cases hfind.symm.trans hfind'
              rw [hcwe] at hfixed
              cases r with
              | exception => exact absurd rfl (hexc hun₁)
              | false => exact absurd (hfixed.mp rfl) (by decide)
              | true =>
                have hchange : Step s₁ s' s'.hashOf p (·.change atom fun _ => none) := hstep₂
                have hconv : Step s s₁ s₁.hashOf p View.convert := hstep
                have hgood : Step s s' s'.hashOf p fun v => (v.delete atom).getD v :=
                  (hconv.trans hchange).congr (view_of hp)
                    (by simp only [hdelete, Option.getD_some, Function.comp_apply])
                exact ⟨hgood, fun _ => by simp [hdelete]⟩
    · rename_i hindex
      cases hr
      rw [if_neg hindex] at hdelete
      rw [hdelete]
      have hgood : Step s s s.hashOf p fun v => (v.delete atom).getD v :=
        (Step.refl h).congr (view_of hp) (by simp only [hdelete, Option.getD_some, id])
      exact ⟨hgood, fun _ => by simp⟩

/-- A new element. -/
def View.push (v : View) (val : JSValue) : View :=
  { v with fastArray := v.fastArray.map (· ++ [val]) }

/-- `add_fast_array_element`. -/
theorem addFastArrayElement_spec (h : Inv s s.hashOf []) (hp : s.objectShape p = some (o, sh))
    (hr : addFastArrayElement s p val mem = (ok, s', mem')) : Outcome s s' p ok (·.push val) := by
  obtain ⟨hobj, hsh, hfits, _⟩ := h.parts hp
  rw [addFastArrayElement, hobj] at hr
  simp only at hr
  cases htab : o.fastArray with
  | none =>
    rw [htab] at hr
    cases hr
    exact .refl h
  | some tab =>
    rw [htab] at hr
    cases hmem : JSRuntime.mallocOther mem with
    | mk room mem₁ =>
      rw [hmem] at hr
      cases room with
      | false =>
        cases hr
        exact .refl h
      | true =>
        cases hr
        have hfits' : Fits { o with fastArray := some (tab ++ [val]) } sh :=
          ⟨hfits.count, hfits.alloc⟩
        have hsame : ({ o with fastArray := some (tab ++ [val]) } : JSObject).shape = o.shape := rfl
        refine (values_spec (f := (·.push val)) h hobj hsh hsame hfits' ?_).1
        rw [viewOf, viewOf, View.push, htab]
        rfl

/-! ## Objects come and go -/

/-- A shape with several references is the same afterwards, the references aside. -/
def SharedKept (s s' : JSRuntime) : Prop :=
  ∀ q sh, s.shape q = some sh → sh.refCount ≠ 1 → ∃ r, s'.shape q = some { sh with refCount := r }

/-- An operation after which the objects look as `views` says. -/
structure Change (s s' : JSRuntime) (views : Ptr → Option View) : Prop where
  inv : Inv s' s'.hashOf []
  view : s'.view = views
  shared : SharedKept s s'
  array : s'.arrayShape = s.arrayShape
  arrayKept : ∀ q, s.arrayShape = some q → Kept s s' q

/-- A step on one object. -/
theorem Step.change {f : View → View} (h : Step s s' s'.hashOf p f) (hs : Inv s s.hashOf []) :
    Change s s' (Function.update s.view p ((s.view p).map f)) := by
  refine ⟨h.inv, ?_, fun q sh hsh hmany => ?_, h.array, fun q hq => ?_⟩
  · funext p'
    rw [Function.update_apply]
    split
    · rename_i heq
      rw [heq, h.view]
    · rename_i hne
      exact h.view_of_ne hs hne
  · exact (h.kept q ⟨sh, hsh⟩ fun _ _ _ hsh' _ =>
      Option.some.inj (hsh.symm.trans hsh') ▸ hmany).1 sh hsh
  · obtain ⟨sh, hsh, _⟩ := hs.array q hq
    refine (h.kept q ⟨sh, hsh⟩ fun o x hobj hx heq hone => ?_).1
    exact (hs.exclusive hobj (heq ▸ hx) hone).2.1 (heq ▸ hq)

theorem object_append (s : JSRuntime) (o : JSObject) (p : Ptr) :
    ({ s with objects := s.objects ++ [some o] } : JSRuntime).object p =
      if p = s.objects.length then some o else s.object p := by
  unfold JSRuntime.object
  split
  · rename_i heq
    subst heq
    rw [List.getElem?_concat_length]
    rfl
  · rename_i hne
    rcases Nat.lt_or_gt_of_ne hne with hlt | hgt
    · rw [List.getElem?_append_left hlt]
    · rw [List.getElem?_eq_none (by rw [List.length_append]; exact hgt), List.getElem?_eq_none (Nat.le_of_lt hgt)]

/-- `JS_NewObjectFromShape` takes the reference over or drops it. -/
theorem jsNewObjectFromShape_spec
    (h : Inv s s.hashOf [q]) (hsh : s.shape q = some sh) (hlen : prop.length = sh.prop.length)
    (hr : jsNewObjectFromShape s q prop fastArray mem = (ok, s', mem')) :
    Inv s' s'.hashOf [] ∧
      (if ok then s' = { s with objects := s.objects ++ [some ⟨q, prop, sh.propSize, fastArray⟩] }
        else s' = jsFreeShape s q) := by
  have hfail : Inv (jsFreeShape s q) (jsFreeShape s q).hashOf [] := Inv.free h
  rw [jsNewObjectFromShape] at hr
  cases hmem : JSRuntime.mallocOther mem with
  | mk room mem₁ =>
    rw [hmem] at hr
    cases room with
    | false =>
      cases hr
      exact ⟨hfail, rfl⟩
    | true =>
      simp only at hr
      cases hmem₁ : JSRuntime.mallocOther mem₁ with
      | mk room₁ mem₂ =>
        rw [hmem₁] at hr
        cases room₁ with
        | false =>
          cases hr
          exact ⟨hfail, rfl⟩
        | true =>
          simp only [hsh, Option.elim_some] at hr
          cases hr
          have hfits : ∀ x, s.shape q = some x → Fits ⟨q, prop, sh.propSize, fastArray⟩ x :=
            fun x hx => Option.some.inj (hsh.symm.trans hx) ▸ ⟨hlen, Nat.le_refl _⟩
          exact ⟨Inv.newObject h hfits, rfl⟩

/-- A new object. -/
theorem newObject_spec (h : Inv s s.hashOf []) (ht : Inv t t.hashOf [q]) (hobjects : t.objects = s.objects)
    (harray : t.arrayShape = s.arrayShape) (hkept : ∀ q', Kept s t q')
    (hsh : t.shape q = some sh) (hold : s.shape q ≠ none → sh.refCount ≠ 1)
    (hlen : prop.length = sh.prop.length)
    (hr : jsNewObjectFromShape t q prop fastArray mem = (ok, s', mem')) :
    Change s s' (if ok then Function.update s.view s.objects.length
      (some ⟨sh.proto, liveProps sh.keys prop, fastArray⟩) else s.view) := by
  obtain ⟨hinv, hs'⟩ := jsNewObjectFromShape_spec ht hsh hlen hr
  have hobj : t.object = s.object := by
    funext p
    rw [JSRuntime.object, hobjects, JSRuntime.object]
  cases ok with
  | false =>
    have hkept' : ∀ q', Kept s s' q' := fun q' x hx => by
      obtain ⟨r, hr⟩ := hkept q' x hx
      have hmany : q' = q → sh.refCount ≠ 1 := fun heq => hold (by rw [← heq, hx]; simp)
      obtain ⟨r', hr'⟩ := kept_jsFreeShape hsh (ht.positive _ _ hsh) hmany _ hr
      exact ⟨r', hs' ▸ hr'⟩
    have hobj' : s'.object = s.object := by rw [hs', object_jsFreeShape, hobj]
    refine ⟨hinv, ?_, fun q' x hx _ => hkept' q' x hx, ?_, fun q' _ => hkept' q'⟩
    · funext p
      exact view_of_kept h (by rw [hobj']) fun o _ => hkept' o.shape
    · rw [hs', arrayShape_jsFreeShape, harray]
  | true =>
    have hobj' : ∀ p, s'.object p = if p = s.objects.length then
        some ⟨q, prop, sh.propSize, fastArray⟩ else s.object p := fun p => by
      rw [hs', object_append, hobjects, hobj]
    have hkept' : ∀ q', Kept s s' q' := fun q' x hx => by
      obtain ⟨r, hr⟩ := hkept q' x hx
      exact ⟨r, hs' ▸ hr⟩
    have hnew : s'.shape q = some sh := hs' ▸ hsh
    refine ⟨hinv, ?_, fun q' x hx _ => hkept' q' x hx, ?_, fun q' _ => hkept' q'⟩
    · funext p
      rw [if_pos rfl, Function.update_apply]
      split
      · rename_i heq
        exact view_of (objectShape_eq_some.mpr ⟨by rw [hobj', if_pos heq], hnew⟩)
      · rename_i hne
        exact view_of_kept h (by rw [hobj', if_neg hne]) fun o _ => hkept' o.shape
    · rw [hs', ← harray]

theorem kept_jsDupShape (hsh : s.shape q = some sh) : ∀ q', Kept s (jsDupShape s q) q' := by
  intro q' x hx
  rw [jsDupShape, hsh]
  simp only [shape_setShape]
  split
  · rename_i heq
    subst heq
    cases hsh.symm.trans hx
    exact ⟨_, rfl⟩
  · exact ⟨x.refCount, hx⟩

/-- A new object with a shape of the table. -/
theorem newObject_dup (h : Inv s s.hashOf []) (hsh : s.shape q = some sh) (hhashed : sh.isHashed)
    (hlen : prop.length = sh.prop.length)
    (hr : jsNewObjectFromShape (jsDupShape s q) q prop fastArray mem = (ok, s', mem')) :
    Change s s' (if ok then Function.update s.view s.objects.length
      (some ⟨sh.proto, liveProps sh.keys prop, fastArray⟩) else s.view) := by
  have hdup : jsDupShape s q = s.setShape q (some { sh with refCount := sh.refCount + 1 }) := by
    rw [jsDupShape, hsh]
  have hinv := h.dup hsh hhashed
  have hkept := kept_jsDupShape hsh
  have hpos := h.positive _ _ hsh
  rw [hdup] at hinv hkept hr
  have hsame : (s.setShape q (some { sh with refCount := sh.refCount + 1 })).hashOf = s.hashOf :=
    hashOf_setShape_same hsh rfl
  rw [← hsame] at hinv
  have hnew : (s.setShape q (some { sh with refCount := sh.refCount + 1 })).shape q =
      some { sh with refCount := sh.refCount + 1 } := Function.update_self ..
  have hchange := newObject_spec h hinv rfl rfl hkept hnew
    (fun _ => Nat.ne_of_gt (Nat.succ_lt_succ hpos)) hlen hr
  exact hchange

/-- An empty shape. -/
theorem valid_new {n hashSize propSize : ℕ} (hsize : 0 < hashSize) :
    (⟨1, true, false, n, .replicate hashSize 0, propSize, [], 0, proto⟩ : JSShape).Valid := by
  refine ⟨chains_nil (by rwa [List.length_replicate]) (fun _ => List.eq_of_mem_replicate) rfl rfl,
    .nil, rfl, Nat.zero_le _, Nat.zero_le _, nofun⟩

/-- `resize_shape_hash`. -/
theorem Inv.resizeShapeHash (h : Inv s s.hashOf []) (bits : ℕ) :
    Inv (resizeShapeHash s bits) s.hashOf [] := by
  refine ⟨h.valid, h.refs, h.positive, h.unhashed, h.object, h.held, h.array, ?_, h.hashed⟩
  refine h.table.resize (fun q hash hhash => ?_) bits
  obtain ⟨sh, hsh, hsome⟩ := Option.bind_eq_some_iff.mp hhash
  split at hsome
  · rw [hsh, Option.elim_some]
    exact Option.some.inj hsome
  · cases hsome

theorem shape_jsShapeHashLink (s : JSRuntime) (q : Ptr) (n : ℕ) :
    (jsShapeHashLink s q n).shape = s.shape := by
  rfl

theorem object_jsShapeHashLink (s : JSRuntime) (q : Ptr) (n : ℕ) : (jsShapeHashLink s q n).object = s.object ∧
      (jsShapeHashLink s q n).arrayShape = s.arrayShape := by
  exact ⟨rfl, rfl⟩

theorem hashOf_jsShapeHashLink (s : JSRuntime) (q : Ptr) (n : ℕ) :
    (jsShapeHashLink s q n).hashOf = s.hashOf := by
  funext q'
  rw [JSRuntime.hashOf, shape_jsShapeHashLink, JSRuntime.hashOf]

/-- `js_new_shape2`: the table may be larger afterwards. -/
theorem jsNewShape2_spec {hashSize propSize : ℕ} {x : Option Ptr}
    (h : Inv s s.hashOf []) (hsize : 0 < hashSize)
    (hr : jsNewShape2 s proto hashSize propSize mem = (x, t, mem')) :
    t.objects = s.objects ∧ t.arrayShape = s.arrayShape ∧ (x = none → t.shape = s.shape ∧ Inv t t.hashOf []) ∧
      ∀ q, x = some q → s.shape q = none ∧ Inv t t.hashOf [q] ∧ ∃ sh, sh.prop = [] ∧
        sh.proto = proto ∧ ∀ q', t.shape q' = if q' = q then some sh else s.shape q' := by
  have hlt := shapeInitialHash_lt proto
  unfold jsNewShape2 at hr
  generalize shapeInitialHash proto = n at hr hlt
  split at hr
  rename_i s₁ mem₁ hs₁
  have hs₁ : s₁.objects = s.objects ∧ s₁.arrayShape = s.arrayShape ∧ s₁.shape = s.shape ∧
      Inv s₁ s.hashOf [] := by
    split at hs₁
    · split at hs₁ <;> cases hs₁
      · exact ⟨rfl, rfl, rfl, h.resizeShapeHash _⟩
      · exact ⟨rfl, rfl, rfl, h⟩
    · cases hs₁
      exact ⟨rfl, rfl, rfl, h⟩
  obtain ⟨hobjects, harray, hshape, hinv⟩ := hs₁
  have hhash : s₁.hashOf = s.hashOf := by
    funext q
    rw [JSRuntime.hashOf, hshape, JSRuntime.hashOf]
  simp only at hr
  cases hmalloc : s₁.malloc mem₁ with
  | mk a mem₂ =>
    rw [hmalloc] at hr
    cases a with
    | none =>
      cases hr
      exact ⟨hobjects, harray, fun _ => ⟨hshape, hhash.symm ▸ hinv⟩, by simp⟩
    | some q =>
      have hfree := malloc_eq_some hmalloc
      cases hr
      have hvalid : (⟨1, true, false, n, .replicate hashSize 0, propSize, [], 0, proto⟩ :
        JSShape).Valid := valid_new hsize
      generalize hnew : (⟨1, true, false, n, .replicate hashSize 0, propSize, [], 0, proto⟩ :
        JSShape) = sh at hvalid
      have hset : (s₁.setShape q (some sh)).shape q = some sh := Function.update_self ..
      have hlink := (hinv.alloc hfree hvalid (hnew ▸ rfl)).link hset (hnew ▸ rfl)
        (hinv.holders_free hfree).2.2 hlt
      have hhash' : (s₁.setShape q (some sh)).hashOf = Function.update s.hashOf q (some n) := by
        rw [hashOf_setShape, hhash, ← hnew]
        rfl
      rw [← hhash', ← hashOf_jsShapeHashLink _ q n] at hlink
      refine ⟨hobjects, harray, by simp, fun _ hq => ?_⟩
      cases hq
      refine ⟨hshape ▸ hfree, hlink, sh, hnew ▸ rfl, hnew ▸ rfl, fun q' => ?_⟩
      rw [shape_jsShapeHashLink, shape_setShape, hshape]

theorem kept_of_shape (hshape : t.shape = s.shape) (q : Ptr) : Kept s t q := fun x hx =>
  ⟨x.refCount, hshape ▸ hx⟩

/-- `JS_NewObjectProtoClass`. -/
theorem jsNewObjectProtoClass_spec (h : Inv s s.hashOf [])
    (hr : jsNewObjectProtoClass s proto mem = (ok, s', mem')) :
    Change s s' (if ok then Function.update s.view s.objects.length (some ⟨proto, [], none⟩)
      else s.view) := by
  rw [jsNewObjectProtoClass] at hr
  cases hfind : findHashedShapeProto s proto with
  | some q =>
    rw [hfind] at hr
    obtain ⟨sh, hsh, hhashed, hmatch⟩ := findHashedShape_eq_some h hfind
    rw [Bool.and_eq_true, decide_eq_true_eq, decide_eq_true_eq] at hmatch
    obtain ⟨rfl, hnil⟩ := hmatch
    have hlen : ([] : List JSValue).length = sh.prop.length := hnil.symm
    have hchange := newObject_dup h hsh hhashed hlen hr
    rwa [liveProps, List.zip_nil_right] at hchange
  | none =>
    rw [hfind] at hr
    cases hnew : jsNewShape2 s proto 4 2 mem with
    | mk x r =>
      obtain ⟨t, mem₁⟩ := r
      obtain ⟨hobjects, harray, hnone, hsome⟩ := jsNewShape2_spec h (by omega) hnew
      rw [hnew] at hr
      cases x with
      | none =>
        cases hr
        obtain ⟨hshape, hinv⟩ := hnone rfl
        have hobj : s'.object = s.object := by
          funext p
          rw [JSRuntime.object, hobjects, JSRuntime.object]
        refine ⟨hinv, funext fun p => ?_, fun q x hx _ => kept_of_shape hshape q x hx, harray,
          fun q _ => kept_of_shape hshape q⟩
        exact view_of_kept h (by rw [hobj]) fun o _ => kept_of_shape hshape o.shape
      | some q =>
        obtain ⟨hfree, hinv, sh, hnil, rfl, hshape⟩ := hsome q rfl
        have hkept : ∀ q', Kept s t q' := fun q' x hx => by
          have hne : q' ≠ q := fun heq => by
            rw [heq, hfree] at hx
            cases hx
          exact ⟨x.refCount, by rw [hshape, if_neg hne, hx]⟩
        have hlen : ([] : List JSValue).length = sh.prop.length := congrArg List.length hnil.symm
        have hchange := newObject_spec h hinv hobjects harray hkept
          (by rw [hshape, if_pos rfl]) (fun hold => absurd hfree hold) hlen hr
        rwa [liveProps, List.zip_nil_right] at hchange

/-- `JS_NewArray`. -/
theorem jsNewArray_spec (h : Inv s s.hashOf []) (hq : s.arrayShape = some q)
    (hsh : s.shape q = some sh) (hr : jsNewArray s val mem = (ok, s', mem')) :
    Change s s' (if ok then Function.update s.view s.objects.length
      (some ⟨sh.proto, liveProps sh.keys [val], some []⟩) else s.view) := by
  obtain ⟨x, hx, hhashed, hone⟩ := h.array q hq
  cases hsh.symm.trans hx
  rw [jsNewArray, hq] at hr
  exact newObject_dup h hsh hhashed hone.symm hr

/-- The part of `free_object` that concerns shapes. -/
theorem freeObject_spec (h : Inv s s.hashOf []) (hp : s.objectShape p = some (o, sh)) :
    Change s (freeObject s p) (Function.update s.view p none) := by
  obtain ⟨hobj, hsh⟩ := objectShape_eq_some.mp hp
  have hforget := h.forget hobj
  generalize hs₁ : ({ s with objects := s.objects.set p none } : JSRuntime) = s₁ at hforget
  have hfree : freeObject s p = jsFreeShape s₁ o.shape := by
    rw [freeObject, hobj, ← hs₁]
  have hshape : s₁.shape = s.shape := by rw [← hs₁]
  have hhash : s₁.hashOf = s.hashOf := by rw [← hs₁]; rfl
  have hobject : ∀ p', s₁.object p' = if p' = p then none else s.object p' := fun p' => by
    rw [← hs₁]
    unfold JSRuntime.object
    split
    · rename_i heq
      rw [heq, List.getElem?_set]
      split <;> [split <;> rfl; contradiction]
    · rename_i hne
      rw [List.getElem?_set_ne (Ne.symm hne)]
  have hkept : ∀ q', (q' = o.shape → sh.refCount ≠ 1) → Kept s (freeObject s p) q' := by
    intro q' hmany x hx
    rw [hfree]
    exact kept_jsFreeShape (s := s₁) (hshape ▸ hsh) (h.positive _ _ hsh) hmany x (hshape ▸ hx)
  refine ⟨?_, funext fun p' => ?_, fun q x hx hmany => hkept q (fun heq => ?_) x hx, ?_,
    fun q hq => hkept q fun heq hone => ?_⟩
  · rw [hfree]
    exact Inv.free (hhash ▸ hforget)
  · rw [Function.update_apply]
    have hobj' : (freeObject s p).object p' = if p' = p then none else s.object p' := by
      rw [hfree, object_jsFreeShape, hobject]
    split
    · rename_i heq
      rw [if_pos heq] at hobj'
      rw [JSRuntime.view, JSRuntime.objectShape, hobj']
      rfl
    · rename_i hne
      rw [if_neg hne] at hobj'
      refine view_of_kept h hobj' fun o' ho' => hkept _ fun heq hone => ?_
      exact hne ((h.exclusive hobj hsh hone).1 p' o' ho' heq)
  · rw [heq, hsh] at hx
    exact Option.some.inj hx ▸ hmany
  · rw [hfree, arrayShape_jsFreeShape, ← hs₁]
  · exact (h.exclusive hobj hsh hone).2.1 (heq ▸ hq)

end QuickJs.Shape
