import QuickJs.ShapeProps

/-!
# Changing and deleting properties

A property is found through the hash table of the shape and changed in a shape that belongs
to the object alone. Deleted entries remain until there are many of them.
-/

namespace QuickJs.Shape

open JSShape

variable {s s' t : JSRuntime} {sh sh' : JSShape} {o o' : JSObject} {p p' q q' : Ptr} {h i : ℕ}
  {linked linked' : Ptr → Option ℕ} {mem mem' : Alloc} {ok : Bool} {atom a : JSAtom}
  {flags : BitVec 6} {val : JSValue} {keys : List (JSAtom × BitVec 6)} {values : List JSValue}

/-! ## The entry of a property -/

/-- The property of a view with a given atom. -/
def View.find (v : View) (atom : JSAtom) : Option Entry := v.props.find? (·.1.1 = atom)

theorem mem_liveProps {e : Entry} : e ∈ liveProps keys values ↔
    e.1.1 ≠ jsAtomNull ∧ ∃ k : ℕ, keys[k]? = some e.1 ∧ values[k]? = some e.2 := by
  rw [liveProps, List.mem_filter, List.mem_iff_getElem?, decide_eq_true_eq, and_comm]
  simp only [List.getElem?_zip_eq_some]

/-- The entry of a live property, and what becomes of the view when it changes. -/
theorem change_eq (hv : sh.Valid) (hfits : Fits o sh) (hlive : sh.LiveAt h atom) :
    ∃ flags val, sh.keys[h - 1]? = some (atom, flags) ∧ o.prop[h - 1]? = some val ∧
      (viewOf o sh).find atom = some ((atom, flags), val) ∧
      ∀ (f : Entry → Option Entry) (x : Entry),
        f ((atom, flags), val) = (if x.1.1 = jsAtomNull then none else some x) →
        liveProps (sh.keys.set (h - 1) x.1) (o.prop.set (h - 1) x.2) =
          (liveProps sh.keys o.prop).filterMap fun e => if e.1.1 = atom then f e else some e := by
  obtain ⟨hh, flags, hkey⟩ := hlive.key
  have hlen : o.prop.length = sh.keys.length := hfits.count.trans (length_keys sh).symm
  obtain ⟨hlt, _⟩ := List.getElem?_eq_some_iff.mp hkey
  obtain ⟨val, hval⟩ : ∃ val, o.prop[h - 1]? = some val :=
    ⟨_, List.getElem?_eq_getElem (hlen ▸ hlt)⟩
  have hunique : ∀ e ∈ liveProps sh.keys o.prop, e.1.1 = atom → e = ((atom, flags), val) := by
    rintro ⟨⟨a, flags'⟩, val'⟩ hmem rfl
    obtain ⟨hatom, k, hk, hk'⟩ := mem_liveProps.mp hmem
    have heq := hv.unique (liveAt_of_key hatom hk) hlive
    obtain rfl : h - 1 = k := by omega
    cases hkey.symm.trans hk
    cases hval.symm.trans hk'
    rfl
  have hmem : ((atom, flags), val) ∈ liveProps sh.keys o.prop :=
    mem_liveProps.mpr ⟨hlive.1, h - 1, hkey, hval⟩
  refine ⟨flags, val, hkey, hval, ?_, fun f x hfx => ?_⟩
  · rw [View.find, viewOf]
    cases hfind : (liveProps sh.keys o.prop).find? (·.1.1 = atom) with
    | none => exact absurd (decide_eq_true rfl) (List.find?_eq_none.mp hfind _ hmem)
    | some e =>
      rw [hunique e (List.mem_of_find?_eq_some hfind) (by simpa using List.find?_some hfind)]
  · have hzip : (sh.keys.zip o.prop)[h - 1]? = some ((atom, flags), val) :=
      List.getElem?_zip_eq_some.mpr ⟨hkey, hval⟩
    rw [liveProps_set hv.distinct hlen hzip hlive.1]
    refine List.filterMap_congr fun e he => ?_
    by_cases hatom : e.1.1 = atom
    · rw [if_pos hatom, if_pos hatom, hunique e he hatom, hfx]
    · rw [if_neg hatom, if_neg hatom]

theorem set_getElem?_self {α : Type} {l : List α} {x : α} (hx : l[i]? = some x) : l.set i x = l := by
  obtain ⟨hlt, rfl⟩ := List.getElem?_eq_some_iff.mp hx
  exact List.set_getElem_self hlt

/-- What `find_own_property` finds is live. -/
theorem liveAt_findOwnProperty (hv : sh.Valid) (hatom : atom ≠ jsAtomNull)
    (hfound : sh.findOwnProperty atom ≠ 0) : sh.LiveAt (sh.findOwnProperty atom) atom := by
  have hsome := mt (hv.findOwnProperty_eq_zero hatom).mpr hfound
  simp only [not_forall, not_not] at hsome
  obtain ⟨⟨a, flags⟩, hk, rfl⟩ := hsome
  obtain ⟨k, hk⟩ := List.mem_iff_getElem?.mp hk
  have hlive := liveAt_of_key hatom hk
  exact (hv.findOwnProperty hlive).symm ▸ hlive

/-- A view without the property. -/
theorem find_eq_none (hfresh : ∀ k ∈ sh.keys, k.1 ≠ atom) : (viewOf o sh).find atom = none := by
  refine List.find?_eq_none.mpr fun e he hatom => ?_
  obtain ⟨_, k, hk, _⟩ := mem_liveProps.mp he
  exact hfresh _ (List.mem_of_getElem? hk) (of_decide_eq_true hatom)

variable {f : View → View}

/-- A shape that belongs to `p` alone changes and may move. -/
theorem move_spec (o' : JSObject) (h : Inv s s.hashOf [])
    (hp : s.objectShape p = some (o, sh))
    (hone : sh.refCount = 1) (hun : sh.isHashed = false)
    (hfree : o'.shape = o.shape ∨ s.shape o'.shape = none) (hvalid : sh'.Valid)
    (hone' : sh'.refCount = 1) (hun' : sh'.isHashed = false) (hfits : Fits o' sh')
    (hview : viewOf o' sh' = f (viewOf o sh))
    (hs' : s' = ((s.setShape o.shape none).setShape o'.shape (some sh')).setObject p o') :
    Step s s' s'.hashOf p f ∧ s'.objectShape p = some (o', sh') := by
  obtain ⟨hobj, hsh⟩ := objectShape_eq_some.mp hp
  have hnone : s.hashOf o.shape = none := by
    rw [hashOf_of_shape hsh, JSShape.tableHash, hun]
    rfl
  have hnone' : s.hashOf o'.shape = none := by
    rcases hfree with hsame | hfree
    · rw [hsame, hnone]
    · exact (h.holders_free hfree).2.2
  have hhash : s'.hashOf = s.hashOf := by
    subst hs'
    have hfirst : (s.setShape o.shape none).hashOf = s.hashOf := hashOf_setShape_eq hnone.symm
    refine Eq.trans ?_ hfirst
    refine hashOf_setShape_eq ?_
    rw [hfirst, hnone', Option.bind_some, JSShape.tableHash, hun']
    rfl
  rw [hhash]
  exact replace_spec h hobj hsh hone hnone hfree hvalid hone' hfits hview hs'

/-- It changes where it is. -/
theorem own_spec (o' : JSObject) (h : Inv s s.hashOf [])
    (hp : s.objectShape p = some (o, sh)) (hone : sh.refCount = 1) (hun : sh.isHashed = false) (hsame : o'.shape = o.shape)
    (hvalid : sh'.Valid) (hone' : sh'.refCount = 1) (hun' : sh'.isHashed = false)
    (hfits : Fits o' sh') (hview : viewOf o' sh' = f (viewOf o sh))
    (hs' : s' = (s.setShape o.shape (some sh')).setObject p o') :
    Step s s' s'.hashOf p f ∧ s'.objectShape p = some (o', sh') :=
  move_spec o' h hp hone hun (.inl hsame) hvalid hone' hun' hfits hview
    (by rw [hs', hsame, setShape_setShape])

theorem ownShape_spec (h : Inv s s.hashOf []) (hp : s.objectShape p = some (o, sh))
    (hone : sh.refCount = 1) (hun : sh.isHashed = false) (hvalid : sh'.Valid)
    (hone' : sh'.refCount = 1) (hun' : sh'.isHashed = false) (hfits : Fits o sh')
    (hview : viewOf o sh' = f (viewOf o sh)) (hs' : s' = s.setShape o.shape (some sh')) :
    Step s s' s'.hashOf p f := by
  have hobj : s'.object p = some o := hs' ▸ (objectShape_eq_some.mp hp).1
  refine (own_spec o h hp hone hun rfl hvalid hone' hun' hfits hview ?_).1
  rw [← hs', setObject_self hobj]

/-! ## Values and flags -/

/-- The write to a property. -/
theorem setProperty_spec (h : Inv s s.hashOf []) (hp : s.objectShape p = some (o, sh))
    (hatom : atom ≠ jsAtomNull) (hr : setProperty s p atom val = (ok, s')) :
    Outcome s s' p ok (·.change atom fun e => some (e.1, val)) ∧
      (ok = true ↔ ((viewOf o sh).find atom).isSome) := by
  obtain ⟨hobj, hsh, hfits, hv⟩ := h.parts hp
  rw [setProperty, hp] at hr
  simp only at hr
  split at hr
  · rename_i hzero
    cases hr
    rw [find_eq_none ((hv.findOwnProperty_eq_zero hatom).mp hzero)]
    exact ⟨.refl h, by simp⟩
  · rename_i hfound
    cases hr
    have hlive := liveAt_findOwnProperty hv hatom hfound
    generalize sh.findOwnProperty atom = i at hlive
    obtain ⟨flags, old, hkey, hold, hfind, hchange⟩ := change_eq hv hfits hlive
    have hprops := hchange (fun e => some (e.1, val)) ((atom, flags), val) (if_neg hatom).symm
    rw [set_getElem?_self hkey] at hprops
    have hfits' : Fits { o with prop := o.prop.set (i - 1) val } sh :=
      ⟨List.length_set.trans hfits.count, hfits.alloc⟩
    have hsame : ({ o with prop := o.prop.set (i - 1) val } : JSObject).shape = o.shape := rfl
    rw [hfind]
    exact ⟨(values_spec h hobj hsh hsame hfits' (congrArg (View.mk _ · _) hprops)).1, by simp⟩

/-- A change of flags, in a shape of one's own. -/
theorem jsUpdatePropertyFlags_spec (h : Inv s s.hashOf []) (hp : s.objectShape p = some (o, sh))
    (hatom : atom ≠ jsAtomNull) (hfound : sh.findOwnProperty atom ≠ 0)
    (hr : jsUpdatePropertyFlags s p atom flags mem = (ok, s', mem')) :
    Outcome s s' p ok (·.change atom fun e => some ((atom, flags), e.2)) := by
  obtain ⟨hobj, hsh, hfits, hv⟩ := h.parts hp
  have hlive := liveAt_findOwnProperty hv hatom hfound
  rw [jsUpdatePropertyFlags, hp] at hr
  simp only at hr
  generalize sh.findOwnProperty atom = i at hr hlive
  obtain ⟨flags', val, hkey, hval, hfind, hchange⟩ := change_eq hv hfits hlive
  have hprops := hchange (fun e => some ((atom, flags), e.2)) ((atom, flags), val) (if_neg hatom).symm
  rw [set_getElem?_self hval] at hprops
  split at hr
  · -- nothing to do
    rename_i hsame
    cases hr
    obtain ⟨_, pr, hpr, rfl⟩ := hlive
    obtain ⟨k, rfl, hk⟩ := entry_eq_some.mp hpr
    rw [hpr, Option.any_some, decide_eq_true_eq] at hsame
    rw [set_getElem?_self (by simp [keys, hk, JSShapeProperty.key, hsame])] at hprops
    have hview : viewOf o sh = (viewOf o sh).change pr.atom fun e => some ((pr.atom, flags), e.2) :=
      congrArg (View.mk sh.proto · o.fastArray) hprops
    have hstep := (values_spec (f := (·.change pr.atom fun e => some ((pr.atom, flags), e.2)))
      h hobj hsh rfl hfits hview).1
    rwa [setObject_self hobj] at hstep
  · cases hprep : jsShapePrepareUpdate s p mem with
    | mk ok₁ r =>
      obtain ⟨hstep, hown⟩ := jsShapePrepareUpdate_spec h hp hprep
      rw [hprep] at hr
      cases ok₁ with
      | false =>
        cases hr
        exact hstep
      | true =>
        obtain ⟨q, hp₁⟩ := hown rfl
        simp only [hp₁] at hr
        cases hr
        have hvalid := (valid_copy hv 1 false).withFlags hlive flags
        have hkeys := keys_withFlags
          (show ({ sh with refCount := 1, isHashed := false } : JSShape).LiveAt i atom from hlive) flags
        have hfits' : Fits { o with shape := q }
            (({ sh with refCount := 1, isHashed := false } : JSShape).withFlags i flags) :=
          ⟨hfits.count.trans (List.length_modify ..).symm, hfits.alloc⟩
        have hview : viewOf { o with shape := q }
            (({ sh with refCount := 1, isHashed := false } : JSShape).withFlags i flags) =
            (viewOf o sh).change atom fun e => some ((atom, flags), e.2) := by
          rw [viewOf, hkeys]
          exact congrArg (View.mk sh.proto · o.fastArray) hprops
        exact hstep.trans (ownShape_spec (f := (·.change atom fun e => some ((atom, flags), e.2)))
          hstep.inv hp₁ rfl rfl hvalid rfl rfl hfits' hview rfl)

/-- A change of the prototype. -/
theorem jsSetPrototype_spec {proto : Option Ptr} (h : Inv s s.hashOf [])
    (hp : s.objectShape p = some (o, sh)) (hr : jsSetPrototype s p proto mem = (ok, s', mem')) :
    Outcome s s' p ok fun v => { v with proto := proto } := by
  obtain ⟨hobj, hsh, hfits, _⟩ := h.parts hp
  rw [jsSetPrototype] at hr
  cases hprep : jsShapePrepareUpdate s p mem with
  | mk ok₁ r =>
    obtain ⟨hstep, hown⟩ := jsShapePrepareUpdate_spec h hp hprep
    rw [hprep] at hr
    cases ok₁ with
    | false =>
      cases hr
      exact hstep
    | true =>
      obtain ⟨q, hp₁⟩ := hown rfl
      simp only [hp₁] at hr
      cases hr
      have hv := h.valid _ _ hsh
      have hvalid : ({ sh with refCount := 1, isHashed := false, proto := proto } : JSShape).Valid :=
        hv.congr (hv.chains.of_eq rfl rfl) rfl rfl rfl hv.fits
      exact hstep.trans (ownShape_spec (f := fun v => { v with proto := proto }) hstep.inv hp₁
        rfl rfl hvalid rfl rfl ⟨hfits.count, hfits.alloc⟩ rfl rfl)

/-! ## Deleting a property -/

theorem keys_eq_zip (hlen : o.prop.length = sh.prop.length) :
    sh.keys = (sh.prop.zip o.prop).map (·.1.key) := by
  have hfst : (sh.prop.zip o.prop).map Prod.fst = sh.prop := List.map_fst_zip hlen.ge
  exact (congrArg (List.map JSShapeProperty.key) hfst).symm.trans List.map_map

/-- The entries that remain. -/
theorem keys_filter_eq_zip (hlen : o.prop.length = sh.prop.length) : sh.keys.filter (·.1 ≠ jsAtomNull) =
      ((sh.prop.zip o.prop).filter (isLive ·.1)).map (·.1.key) := by
  rw [keys_eq_zip hlen, List.filter_map]
  rfl

/-- The values that remain belong to them. -/
theorem liveProps_compact (hlen : o.prop.length = sh.prop.length) :
    liveProps (sh.keys.filter (·.1 ≠ jsAtomNull))
      (((sh.prop.zip o.prop).filter (isLive ·.1)).map (·.2)) = liveProps sh.keys o.prop := by
  have hsnd : (sh.prop.zip o.prop).map Prod.snd = o.prop := List.map_snd_zip hlen.le
  have hlive : ((fun e : Entry => decide (e.1.1 ≠ jsAtomNull)) ∘
      fun x : JSShapeProperty × JSValue => (x.1.key, x.2)) = fun x => isLive x.1 := rfl
  calc liveProps (sh.keys.filter (·.1 ≠ jsAtomNull))
        (((sh.prop.zip o.prop).filter (isLive ·.1)).map (·.2))
      = ((sh.prop.zip o.prop).filter (isLive ·.1)).map fun x => (x.1.key, x.2) := by
        rw [keys_filter_eq_zip hlen, liveProps, List.zip_map', List.filter_map, hlive, List.filter_filter]
        simp only [Bool.and_self]
    _ = liveProps (sh.keys) ((sh.prop.zip o.prop).map Prod.snd) := by
        rw [keys_eq_zip hlen, liveProps, List.zip_map', List.filter_map, hlive]
    _ = liveProps sh.keys o.prop := by rw [hsnd]

/-- `compact_properties`. -/
theorem compactProperties_spec (h : Inv s s.hashOf []) (hp : s.objectShape p = some (o, sh))
    (hone : sh.refCount = 1) (hun : sh.isHashed = false) (htwo : 2 ≤ sh.prop.length)
    (hr : compactProperties s p mem = (s', mem')) : Step s s' s'.hashOf p id := by
  obtain ⟨hobj, hsh, hfits, hv⟩ := h.parts hp
  rw [compactProperties, hp] at hr
  cases hmalloc : s.malloc mem with
  | mk a mem₁ =>
    rw [hmalloc] at hr
    cases a with
    | none =>
      cases hr
      exact .refl h
    | some q =>
      simp only at hr
      generalize (JSRuntime.mallocOther mem₁).1 = shrunk at hr
      cases hr
      have hfree := malloc_eq_some hmalloc
      obtain ⟨hvalid, hkeys, prop, table, heq⟩ := compact_eq hv
      have hvalues : (((sh.prop.zip o.prop).filter (isLive ·.1)).map (·.2)).length =
          sh.compact.prop.length := by
        rw [← length_keys, hkeys, keys_filter_eq_zip hfits.count, List.length_map, List.length_map]
      have halloc : sh.compactSize ≤ if shrunk then sh.compactSize else o.propAlloc := by
        have := hfits.alloc
        have := hv.fits
        unfold JSShape.compactSize
        split <;> omega
      have hprops := liveProps_compact hfits.count
      rw [← hkeys] at hprops
      refine (move_spec ⟨q, _, _, o.fastArray⟩ h hp hone hun (.inr hfree) hvalid ?_ ?_ ?_ ?_ rfl).1
      · rw [heq, hone]
      · rw [heq, hun]
      · exact ⟨hvalues, halloc⟩
      · rw [heq] at hprops ⊢
        exact congrArg (View.mk sh.proto · o.fastArray) hprops

/-- The loop of `delete_property` finds nothing if there is nothing. -/
theorem findPrev_eq_none (hv : sh.Valid) (hatom : atom ≠ jsAtomNull) :
    sh.findPrev atom sh.prop.length 0 (sh.head (sh.bucket atom)) = none ↔ ∀ k ∈ sh.keys, k.1 ≠ atom := by
  obtain ⟨l, hl, hlen, hmem⟩ := hv.search atom
  constructor
  · rintro hnone ⟨a, flags⟩ hk rfl
    obtain ⟨k, hk⟩ := List.mem_iff_getElem?.mp hk
    have hlive := liveAt_of_key hatom hk
    rcases findPrev_eq hl.chain hlen with ⟨_, hall⟩ | ⟨_, _, _, _, _, heq⟩
    · exact hall _ (hmem _ hlive) ((isAt_iff hatom).mpr hlive)
    · rw [hnone] at heq
      cases heq
  · intro hall
    rcases findPrev_eq hl.chain hlen with ⟨hnone, _⟩ | ⟨_, h, _, _, hat, _⟩
    · exact hnone
    · obtain ⟨_, flags, hk⟩ := ((isAt_iff hatom).mp hat).key
      exact absurd rfl (hall _ (List.mem_of_getElem? hk))

theorem findPrev_congr (sh sh' : JSShape) (hprop : sh'.prop = sh.prop) (fuel lpr i : ℕ) :
    sh'.findPrev atom fuel lpr i = sh.findPrev atom fuel lpr i := by
  have hentry : sh'.entry = sh.entry := by
    funext i
    cases i with
    | zero => rfl
    | succ k => rw [entry, entry, hprop]
  induction fuel generalizing lpr i with
  | zero => rfl
  | succ fuel ih =>
    have hat : sh'.isAt atom i = sh.isAt atom i := by rw [isAt, isAt, hentry]
    have hnext : sh'.next i = sh.next i := by rw [next, next, hentry]
    rw [findPrev, findPrev, hat, hnext, ih]

theorem jsShapePrepareUpdate_unhashed (hp : s.objectShape p = some (o, sh))
    (hun : sh.isHashed = false) : jsShapePrepareUpdate s p mem = (true, s, mem) := by
  rw [jsShapePrepareUpdate, hp]
  simp only [hun, Bool.false_eq_true, if_false]

/-- There is something left when a shape is compacted. -/
theorem two_le_of_shouldCompact (hv : sh.Valid) (h : sh.shouldCompact) : 2 ≤ sh.prop.length := by
  rw [shouldCompact, Bool.and_eq_true, decide_eq_true_eq] at h
  have hle : sh.deletedPropCount ≤ sh.prop.length := by
    rw [hv.deleted, ← length_keys]
    exact List.countP_le_length
  omega

/-- The part of `delete_property` for a property of the shape. -/
theorem deleteEntry_spec {r : Result} (h : Inv s s.hashOf [])
    (hp : s.objectShape p = some (o, sh)) (hatom : atom ≠ jsAtomNull)
    (hr : deleteEntry s p atom mem = some (r, s', mem')) :
    ∃ e, (viewOf o sh).find atom = some e ∧ (r = .false ↔ configurable e.1.2 = false) ∧
      (sh.isHashed = false → r ≠ .exception) ∧
      Outcome s s' p (r = .true) (·.change atom fun _ => none) := by
  obtain ⟨hobj, hsh, hfits, hv⟩ := h.parts hp
  rw [deleteEntry, hp] at hr
  simp only at hr
  split at hr
  · cases hr
  · rename_i lpr i hfind
    obtain ⟨hlive, _⟩ := hv.chains_remove hatom hfind
    obtain ⟨flags, val, hkey, hval, hview, hchange⟩ := change_eq hv hfits hlive
    refine ⟨_, hview, ?_⟩
    have hconf : (sh.entry i).any (fun pr => configurable pr.flags) = configurable flags := by
      obtain ⟨_, pr, hpr, _⟩ := hlive
      obtain ⟨k, rfl, hk⟩ := entry_eq_some.mp hpr
      rw [keys, Nat.add_sub_cancel, List.getElem?_map, hk] at hkey
      rw [hpr]
      exact congrArg (configurable ·.2) (Option.some.inj hkey)
    rw [hconf] at hr
    split at hr
    · rename_i hfixed
      cases hr
      exact ⟨by simpa using hfixed, fun _ => by simp, .refl h⟩
    · rename_i hfixed
      have hfixed : configurable flags = true := by simpa using hfixed
      cases hprep : jsShapePrepareUpdate s p mem with
      | mk ok₁ x =>
        obtain ⟨hstep, hown⟩ := jsShapePrepareUpdate_spec h hp hprep
        rw [hprep] at hr
        cases ok₁ with
        | false =>
          cases hr
          refine ⟨by simp [hfixed], fun hun => ?_, hstep⟩
          rw [jsShapePrepareUpdate_unhashed hp hun] at hprep
          cases hprep
        | true =>
          obtain ⟨q, hp₁⟩ := hown rfl
          simp only [hp₁] at hr
          have hprops := hchange (fun _ => none) ((jsAtomNull, 0), jsUndefined) (if_pos rfl).symm
          have hfind' : ({ sh with refCount := 1, isHashed := false } : JSShape).findPrev atom
              sh.prop.length 0 (sh.head (sh.bucket atom)) = some (lpr, i) := by
            rw [← hfind]
            exact findPrev_congr sh { sh with refCount := 1, isHashed := false } rfl ..
          have hvalid := (valid_copy hv 1 false).remove hatom hfind'
          have hkeys := keys_remove ({ sh with refCount := 1, isHashed := false } : JSShape) lpr i atom
          obtain ⟨prop, table, heq⟩ :=
            remove_eq ({ sh with refCount := 1, isHashed := false } : JSShape) lpr i atom
          generalize ({ sh with refCount := 1, isHashed := false } : JSShape).remove lpr i atom = sh'
            at hr hvalid hkeys heq
          have hlen : sh'.prop.length = sh.prop.length := by
            rw [← length_keys, hkeys, List.length_set]
            exact length_keys sh
          have hone : sh'.refCount = 1 := by rw [heq]
          have hun : sh'.isHashed = false := by rw [heq]
          have hfits' : Fits { o with shape := q, prop := o.prop.set (i - 1) jsUndefined } sh' := by
            refine ⟨?_, ?_⟩
            · rw [hlen, List.length_set, hfits.count]
            · rw [heq]
              exact hfits.alloc
          have hview' : viewOf { o with shape := q, prop := o.prop.set (i - 1) jsUndefined } sh' =
              (viewOf o sh).change atom fun _ => none := by
            have hproto : sh'.proto = sh.proto := by rw [heq]
            rw [viewOf, hkeys]
            exact congrArg₂ (View.mk · · o.fastArray) hproto hprops
          obtain ⟨hremove, hp₂⟩ := own_spec (f := (·.change atom fun _ => none))
            { o with shape := q, prop := o.prop.set (i - 1) jsUndefined } hstep.inv hp₁ rfl rfl rfl
            hvalid hone hun hfits' hview' rfl
          have hresult : ∀ r : Result, r = .true → (r = .false ↔ configurable flags = false) ∧
              (sh.isHashed = false → r ≠ .exception) := by
            rintro _ rfl
            exact ⟨by simp [hfixed], fun _ => by simp⟩
          split at hr
          · rename_i hmany
            cases hr
            exact ⟨(hresult _ rfl).1, (hresult _ rfl).2, (hstep.trans hremove).trans
              (compactProperties_spec hremove.inv hp₂ hone hun
                (two_le_of_shouldCompact hvalid hmany) Prod.mk.eta.symm)⟩
          · cases hr
            exact ⟨(hresult _ rfl).1, (hresult _ rfl).2, hstep.trans hremove⟩

theorem deleteEntry_eq_none (h : Inv s s.hashOf []) (hp : s.objectShape p = some (o, sh))
    (hatom : atom ≠ jsAtomNull) (hr : deleteEntry s p atom mem = none) :
    ∀ k ∈ sh.keys, k.1 ≠ atom := by
  obtain ⟨hobj, hsh⟩ := objectShape_eq_some.mp hp
  have hv := h.valid _ _ hsh
  rw [deleteEntry, hp] at hr
  simp only at hr
  split at hr
  · rename_i hfind
    exact (findPrev_eq_none hv hatom).mp hfind
  · split at hr
    · cases hr
    · cases hprep : jsShapePrepareUpdate s p mem with
      | mk ok₁ x =>
        obtain ⟨_, hown⟩ := jsShapePrepareUpdate_spec h hp hprep
        rw [hprep] at hr
        cases ok₁ with
        | false => cases hr
        | true =>
          obtain ⟨q, hp₁⟩ := hown rfl
          simp only [hp₁] at hr
          split at hr <;> cases hr

end QuickJs.Shape
