import QuickJs.ShapeObjects
import QuickJs.Run

/-!
# Shapes over whole runs

A program makes and frees objects and adds, writes, changes and deletes their properties, in
any order. `World` keeps beside the runtime what the objects should be: lists of properties in
the order in which they were added. As long as no property gets a number that does not fit in
a link, the shapes are correct and the lists are what the objects hold, in every state reached.
-/

namespace QuickJs.Shape

open JSShape Run

variable {s s' t : JSRuntime} {sh sh' : JSShape} {o o' : JSObject} {p p' q q' : Ptr} {h i : ℕ}
  {mem mem' : Alloc} {ok : Bool} {atom a : JSAtom} {flags : BitVec 6} {val : JSValue}

/-! ## Operations -/

inductive Op
  | newObject (proto : Option Ptr)
  | newArray (length : JSValue)
  | free (p : Ptr)
  | add (p : Ptr) (atom : JSAtom) (flags : BitVec 6) (val : JSValue)
  | set (p : Ptr) (atom : JSAtom) (val : JSValue)
  | push (p : Ptr) (val : JSValue)
  | updateFlags (p : Ptr) (atom : JSAtom) (flags : BitVec 6)
  | setPrototype (p : Ptr) (proto : Option Ptr)
  | convert (p : Ptr)
  | delete (p : Ptr) (atom : JSAtom)

/-- A shape of the object has the property. -/
def JSRuntime.hasEntry (s : JSRuntime) (p : Ptr) (atom : JSAtom) : Bool :=
  (s.objectShape p).any fun x => x.2.findOwnProperty atom ≠ 0

/-- It is an element of the fast array. -/
def JSObject.hasElement (o : JSObject) (atom : JSAtom) : Bool :=
  jsAtomIsTaggedInt atom && atom - 2 ^ 31 < (o.fastArray.getD []).length

/-- What the callers of an operation see to: the object exists, a property that is added does
not exist, and one that is changed does. -/
def Op.allowed (s : JSRuntime) : Op → Bool
  | .newObject _ | .newArray _ => true
  | .free p | .setPrototype p _ | .convert p => (s.objectShape p).isSome
  | .set p atom _ | .delete p atom => (s.objectShape p).isSome && atom ≠ jsAtomNull
  | .add p atom _ _ => (s.object p).any (!·.hasElement atom) && atom ≠ jsAtomNull &&
      !s.hasEntry p atom
  | .updateFlags p atom _ => atom ≠ jsAtomNull && s.hasEntry p atom
  | .push p _ => (s.object p).any fun o => o.fastArray.any fun tab =>
      !s.hasEntry p (jsAtomFromUInt32 tab.length)

def ofBool (ok : Bool) : Result := if ok then .true else .exception

def Op.perform (s : JSRuntime) (mem : Alloc) : Op → Result × JSRuntime
  | .newObject proto =>
    let (ok, s, _) := jsNewObjectProtoClass s proto mem
    (ofBool ok, s)
  | .newArray length =>
    let (ok, s, _) := jsNewArray s length mem
    (ofBool ok, s)
  | .free p => (.true, freeObject s p)
  | .add p atom flags val =>
    let (ok, s, _) := addProperty s p atom flags val mem
    (ofBool ok, s)
  | .set p atom val =>
    let (found, s) := setProperty s p atom val
    (if found then .true else .false, s)
  | .push p val =>
    let (ok, s, _) := addFastArrayElement s p val mem
    (ofBool ok, s)
  | .updateFlags p atom flags =>
    let (ok, s, _) := jsUpdatePropertyFlags s p atom flags mem
    (ofBool ok, s)
  | .setPrototype p proto =>
    let (ok, s, _) := jsSetPrototype s p proto mem
    (ofBool ok, s)
  | .convert p =>
    let (ok, s, _) := convertFastArrayToArray s p mem
    (ofBool ok, s)
  | .delete p atom =>
    let (r, s, _) := deleteProperty s p atom mem
    (r, s)

/-- What an operation does to one object. -/
def Op.onView (v : View) : Op → Result × View
  | .add _ atom flags val => (.true, v.add atom flags val)
  | .set _ atom val =>
    if (v.find atom).isSome then (.true, v.change atom fun e => some (e.1, val)) else (.false, v)
  | .push _ val => (.true, v.push val)
  | .updateFlags _ atom flags => (.true, v.change atom fun e => some ((atom, flags), e.2))
  | .setPrototype _ proto => (.true, { v with proto := proto })
  | .convert _ => (.true, v.convert)
  | .delete _ atom =>
    match v.delete atom with
    | some v => (.true, v)
    | none => (.false, v)
  | .newObject _ | .newArray _ | .free _ => (.true, v)

/-- The object that an operation changes. -/
def Op.object : Op → Option Ptr
  | .newObject _ | .newArray _ | .free _ => none
  | .add p .. | .set p .. | .push p _ | .updateFlags p .. | .setPrototype p _ | .convert p
  | .delete p _ => some p

/-- What an operation returns and does to the objects if there is enough memory. The next
object is number `new`, and a new array has the properties `arrayView`. -/
def Op.meaning (arrayView : JSValue → View) (new : Ptr) (views : Ptr → Option View) (o : Op) :
    Result × (Ptr → Option View) :=
  match o with
  | .newObject proto => (.true, Function.update views new (some ⟨proto, [], none⟩))
  | .newArray length => (.true, Function.update views new (some (arrayView length)))
  | .free p => (.true, Function.update views p none)
  | .add p .. | .set p .. | .push p _ | .updateFlags p .. | .setPrototype p _ | .convert p
  | .delete p _ =>
    match views p with
    | none => (.false, views)
    | some v => ((o.onView v).1, Function.update views p (some (o.onView v).2))

/-! ## Worlds -/

/-- The runtime, and what the objects should be. -/
structure World where
  rt : JSRuntime
  views : Ptr → Option View

/-- `JS_ATOM_length`. -/
def jsAtomLength : JSAtom := 50

/-- `JS_PROP_WRITABLE | JS_PROP_LENGTH`. -/
def arrayLengthFlags : BitVec 6 := 10

/-- A new array whose `length` is `length`. -/
def arrayView (proto : Option Ptr) (length : JSValue) : View :=
  ⟨proto, [((jsAtomLength, arrayLengthFlags), length)], some []⟩

/-- The hash of the shape of arrays. -/
def arrayShapeHash (proto : Option Ptr) : ℕ :=
  shapeHash (shapeHash (shapeInitialHash proto) jsAtomLength) arrayLengthFlags.toNat

/-- `ctx->array_shape` as the context makes it. -/
def arrayShape (proto : Option Ptr) : JSShape :=
  { (⟨1, true, false, shapeInitialHash proto, .replicate 4 0, 1, [], 0, proto⟩ : JSShape).add
      jsAtomLength arrayLengthFlags with
    hash := arrayShapeHash proto }

/-- The runtime with the shape of arrays, at the address `q`. -/
def initial (proto : Option Ptr) (q : Ptr) : World :=
  { rt := jsShapeHashLink
      { shape := fun q' => if q' = q then some (arrayShape proto) else none
        objects := []
        shapeHashBits := 4
        shapeHash := .replicate (2 ^ 4) []
        shapeHashCount := 0
        arrayShape := some q } q (arrayShapeHash proto)
    views := fun _ => none }

/-- An operation, with the answers to its allocations. -/
def World.step (proto : Option Ptr) (w : World) (o : Op × Alloc) : Option World :=
  if o.1.allowed w.rt then
    let (r, rt) := o.1.perform w.rt o.2
    some ⟨rt, if r = .exception then w.views
      else (o.1.meaning (arrayView proto) w.rt.objects.length w.views).2⟩
  else none

/-- The numbers of the new properties fit in 26 bits. -/
def Op.Fits26 (s : JSRuntime) : Op → Prop
  | .add p .. => ∀ o sh, s.objectShape p = some (o, sh) → sh.prop.length < 2 ^ 26
  | .convert p => ∀ o sh, s.objectShape p = some (o, sh) →
      sh.prop.length + (o.fastArray.getD []).length ≤ 2 ^ 26
  -- an element that is not the last one is deleted after a conversion
  | .delete p atom => ∀ o sh, s.objectShape p = some (o, sh) → sh.findOwnProperty atom = 0 →
      o.hasElement atom → atom - 2 ^ 31 ≠ (o.fastArray.getD []).length - 1 →
      sh.prop.length + (o.fastArray.getD []).length ≤ 2 ^ 26
  | _ => True

/-! ## One operation -/

/-- No property has the index of an element. -/
def View.NoClash (v : View) : Prop :=
  ∀ e ∈ v.props, ∀ i < (v.fastArray.getD []).length, e.1.1 ≠ jsAtomFromUInt32 i

/-- What holds in every state: the representation invariant, and that the objects are what they
should be. -/
structure Good (proto : Option Ptr) (w : World) : Prop where
  inv : Inv w.rt w.rt.hashOf []
  view : w.rt.view = w.views
  clash : ∀ p v, w.views p = some v → v.NoClash
  array : ∃ q sh, w.rt.arrayShape = some q ∧ w.rt.shape q = some sh ∧ sh.proto = proto ∧
    sh.keys = [(jsAtomLength, arrayLengthFlags)]

/-- An operation fails for want of memory and changes nothing, or does what it should. -/
def Performs (s s' : JSRuntime) (r : Result) (m : Result × (Ptr → Option View)) : Prop :=
  r = .exception ∧ Change s s' s.view ∨ r = m.1 ∧ Change s s' m.2

theorem Outcome.performs {f : View → View} (h : Outcome s s' p ok f) (hs : Inv s s.hashOf [])
    (hp : s.objectShape p = some (o, sh)) :
    Performs s s' (ofBool ok) (.true, Function.update s.view p (some (f (viewOf o sh)))) := by
  have hchange := Step.change h hs
  rw [view_of hp] at hchange
  cases ok with
  | false =>
    refine .inl ⟨rfl, ?_⟩
    have hself : Function.update s.view p (some (viewOf o sh)) = s.view := by
      rw [← view_of hp, Function.update_eq_self]
    exact hself ▸ hchange
  | true => exact .inr ⟨rfl, hchange⟩

/-- A deletion. -/
theorem delete_performs {r : Result} (hout : Outcome s s' p (r = .true) fun v => (v.delete atom).getD v)
    (hanswer : r ≠ .exception → (r = .true ↔ ((viewOf o sh).delete atom).isSome))
    (hs : Inv s s.hashOf []) (hp : s.objectShape p = some (o, sh)) :
    Performs s s' r (((Op.delete p atom).onView (viewOf o sh)).1,
      Function.update s.view p (some ((Op.delete p atom).onView (viewOf o sh)).2)) := by
  have hchange := Step.change hout hs
  rw [view_of hp, Option.map_some] at hchange
  cases r with
  | exception =>
    refine .inl ⟨rfl, ?_⟩
    have hself : Function.update s.view p (some (viewOf o sh)) = s.view := by
      rw [← view_of hp, Function.update_eq_self]
    exact hself ▸ hchange
  | false =>
    have hnone : (viewOf o sh).delete atom = none := by
      simpa using mt (hanswer nofun).mpr nofun
    refine .inr ⟨?_, ?_⟩
    · rw [Op.onView, hnone]
    · rw [Op.onView, hnone]
      exact hchange
  | true =>
    obtain ⟨v, hv⟩ := Option.isSome_iff_exists.mp ((hanswer nofun).mp rfl)
    refine .inr ⟨?_, ?_⟩
    · rw [Op.onView, hv]
    · simp only [decide_true, if_true, hv] at hchange
      rw [Op.onView, hv]
      exact hchange

/-- A write. -/
theorem set_performs (hout : Outcome s s' p ok (·.change atom fun e => some (e.1, val)))
    (hfound : ok = true ↔ ((viewOf o sh).find atom).isSome) (hs : Inv s s.hashOf [])
    (hp : s.objectShape p = some (o, sh)) :
    Performs s s' (if ok then .true else .false) (((Op.set p atom val).onView (viewOf o sh)).1,
      Function.update s.view p (some ((Op.set p atom val).onView (viewOf o sh)).2)) := by
  have hchange := Step.change hout hs
  rw [view_of hp] at hchange
  cases ok with
  | false =>
    have hnone : ¬((viewOf o sh).find atom).isSome := fun h => nomatch hfound.mpr h
    refine .inr ⟨?_, ?_⟩
    · rw [Op.onView, if_neg hnone]
      rfl
    · rw [Op.onView, if_neg hnone]
      exact hchange
  | true =>
    refine .inr ⟨?_, ?_⟩
    · rw [Op.onView, if_pos (hfound.mp rfl)]
      rfl
    · rw [Op.onView, if_pos (hfound.mp rfl)]
      exact hchange

variable {views : Ptr → Option View} {op : Op} {v : View} {proto : Option Ptr} {w w' : World}

theorem new_performs (h : Change s s' (if ok then views else s.view)) :
    Performs s s' (ofBool ok) (.true, views) := by
  cases ok with
  | false => exact .inl ⟨rfl, h⟩
  | true => exact .inr ⟨rfl, h⟩

/-- A key of the shape is a property of the view. -/
theorem mem_props (hfits : Fits o sh) {k : JSAtom × BitVec 6} (hk : k ∈ sh.keys)
    (hatom : k.1 ≠ jsAtomNull) : ∃ e ∈ (viewOf o sh).props, e.1 = k := by
  obtain ⟨n, hn⟩ := List.mem_iff_getElem?.mp hk
  have hlen : o.prop.length = sh.keys.length := hfits.count.trans (length_keys sh).symm
  obtain ⟨val, hval⟩ : ∃ val, o.prop[n]? = some val :=
    ⟨_, List.getElem?_eq_getElem (hlen ▸ (List.getElem?_eq_some_iff.mp hn).1)⟩
  exact ⟨(k, val), mem_liveProps.mpr ⟨hatom, n, hn, hval⟩, rfl⟩

theorem View.NoClash.keys (h : (viewOf o sh).NoClash) (hfits : Fits o sh) :
    ∀ i < (o.fastArray.getD []).length, ∀ k ∈ sh.keys, k.1 ≠ jsAtomFromUInt32 i := by
  intro i hi k hk heq
  have hatom : k.1 ≠ jsAtomNull := by
    rw [heq]
    simp [jsAtomFromUInt32, jsAtomNull]
  obtain ⟨e, he, rfl⟩ := mem_props hfits hk hatom
  exact h e he i hi heq

theorem hasEntry_eq (hp : s.objectShape p = some (o, sh)) :
    s.hasEntry p atom = decide (sh.findOwnProperty atom ≠ 0) := by
  rw [JSRuntime.hasEntry, hp, Option.any_some]

/-- An operation on an object does what it should to its view. -/
theorem meaning_eq {f : JSValue → View} {n : Ptr} (hop : op.object = some p) (hp : views p = some v) :
    op.meaning f n views = ((op.onView v).1, Function.update views p (some (op.onView v).2)) := by
  cases op <;> cases hop <;> simp only [Op.meaning, hp]

theorem objectShape_of_object (h : Inv s s.hashOf []) (hobj : s.object p = some o) :
    ∃ sh, s.objectShape p = some (o, sh) := by
  obtain ⟨sh, hsh, _⟩ := h.object p o hobj
  exact ⟨sh, objectShape_eq_some.mpr ⟨hobj, hsh⟩⟩

/-- The property is not there. -/
theorem fresh_of_hasEntry (h : Inv s s.hashOf []) (hp : s.objectShape p = some (o, sh))
    (hatom : atom ≠ jsAtomNull) (hno : s.hasEntry p atom = false) : ∀ k ∈ sh.keys, k.1 ≠ atom := by
  rw [hasEntry_eq hp, decide_eq_false_iff_not, not_not] at hno
  exact ((h.valid _ _ (objectShape_eq_some.mp hp).2).findOwnProperty_eq_zero hatom).mp hno

theorem Op.perform_spec (hg : Good proto w) (op : Op)
    (mem : Alloc) (hallowed : op.allowed w.rt) (hsmall : op.Fits26 w.rt) :
    Performs w.rt (op.perform w.rt mem).2 (op.perform w.rt mem).1
      (op.meaning (arrayView proto) w.rt.objects.length w.rt.view) := by
  have h := hg.inv
  cases op with
  | newObject proto => exact new_performs (jsNewObjectProtoClass_spec h (Prod.mk.eta).symm)
  | newArray length =>
    obtain ⟨q, sh, hq, hsh, rfl, hkeys⟩ := hg.array
    cases hr : jsNewArray w.rt length mem with
    | mk ok x =>
      have hchange := jsNewArray_spec h hq hsh hr
      rw [hkeys] at hchange
      simp only [Op.perform, hr]
      exact new_performs hchange
  | free p =>
    obtain ⟨⟨o, sh⟩, hp⟩ := Option.isSome_iff_exists.mp hallowed
    exact .inr ⟨rfl, freeObject_spec h hp⟩
  | setPrototype p proto =>
    obtain ⟨⟨o, sh⟩, hp⟩ := Option.isSome_iff_exists.mp hallowed
    rw [meaning_eq rfl (view_of hp)]
    exact (jsSetPrototype_spec h hp Prod.mk.eta.symm).performs h hp
  | convert p =>
    obtain ⟨⟨o, sh⟩, hp⟩ := Option.isSome_iff_exists.mp hallowed
    have hclash := hg.clash p _ (hg.view ▸ view_of hp)
    rw [meaning_eq rfl (view_of hp)]
    exact (convertFastArrayToArray_spec h hp (hclash.keys (h.parts hp).2.2.1)
      (hsmall o sh hp) Prod.mk.eta.symm).1.performs h hp
  | set p atom val =>
    obtain ⟨hsome, hatom⟩ := (Bool.and_eq_true _ _).mp hallowed
    obtain ⟨⟨o, sh⟩, hp⟩ := Option.isSome_iff_exists.mp hsome
    rw [meaning_eq rfl (view_of hp)]
    cases hr : setProperty w.rt p atom val with
    | mk ok s' =>
      obtain ⟨hout, hfound⟩ := setProperty_spec h hp (of_decide_eq_true hatom) hr
      simp only [Op.perform, hr]
      exact set_performs hout hfound h hp
  | delete p atom =>
    obtain ⟨hsome, hatom⟩ := (Bool.and_eq_true _ _).mp hallowed
    obtain ⟨⟨o, sh⟩, hp⟩ := Option.isSome_iff_exists.mp hsome
    have hclash := hg.clash p _ (hg.view ▸ view_of hp)
    rw [meaning_eq rfl (view_of hp)]
    cases hr : deleteProperty w.rt p atom mem with
    | mk r x =>
      obtain ⟨hout, hanswer⟩ := deleteProperty_spec h hp (of_decide_eq_true hatom)
        (hclash.keys (h.parts hp).2.2.1) (fun hzero htagged hlt => hsmall o sh hp hzero
          ((Bool.and_eq_true _ _).mpr ⟨htagged, decide_eq_true hlt⟩)) hr
      simp only [Op.perform, hr]
      exact delete_performs hout hanswer h hp
  | add p atom flags val =>
    obtain ⟨hallowed, hno⟩ := (Bool.and_eq_true _ _).mp hallowed
    obtain ⟨hobj, hatom⟩ := (Bool.and_eq_true _ _).mp hallowed
    obtain ⟨o, hobj, _⟩ := (Option.any_eq_true _ _).mp hobj
    obtain ⟨sh, hp⟩ := objectShape_of_object h hobj
    rw [meaning_eq rfl (view_of hp)]
    exact (addProperty_spec h hp (of_decide_eq_true hatom)
      (fresh_of_hasEntry h hp (of_decide_eq_true hatom) (by simpa using hno)) (hsmall o sh hp)
      Prod.mk.eta.symm).performs h hp
  | updateFlags p atom flags =>
    obtain ⟨hatom, hhas⟩ := (Bool.and_eq_true _ _).mp hallowed
    cases hp : w.rt.objectShape p with
    | none =>
      rw [JSRuntime.hasEntry, hp] at hhas
      cases hhas
    | some x =>
      rw [hasEntry_eq hp] at hhas
      rw [meaning_eq rfl (view_of hp)]
      exact (jsUpdatePropertyFlags_spec h hp (of_decide_eq_true hatom) (of_decide_eq_true hhas)
        Prod.mk.eta.symm).performs h hp
  | push p val =>
    obtain ⟨o, hobj, _⟩ := (Option.any_eq_true _ _).mp hallowed
    obtain ⟨sh, hp⟩ := objectShape_of_object h hobj
    rw [meaning_eq rfl (view_of hp)]
    exact (addFastArrayElement_spec h hp Prod.mk.eta.symm).performs h hp

/-! ## Elements and properties do not meet -/

theorem View.NoClash.change {f : Entry → Option Entry} (hv : v.NoClash)
    (hf : ∀ e x, f e = some x → x.1.1 = atom ∨ x.1.1 = e.1.1) : (v.change atom f).NoClash := by
  intro x hx i hi
  obtain ⟨e, he, hex⟩ := List.mem_filterMap.mp hx
  split at hex
  · rename_i hatom
    rcases hf e x hex with heq | heq
    · rw [heq, ← hatom]
      exact hv e he i hi
    · rw [heq]
      exact hv e he i hi
  · obtain rfl := Option.some.inj hex
    exact hv e he i hi

theorem noClash_none (proto : Option Ptr) (props : List Entry) : (View.mk proto props none).NoClash :=
  fun _ _ _ hi => absurd hi (Nat.not_lt_zero _)

theorem View.NoClash.delete {v' : View} (hv : v.NoClash) (h : v.delete atom = some v') : v'.NoClash := by
  have hnone : ∀ (e x : Entry), (fun _ : Entry => (none : Option Entry)) e = some x →
      x.1.1 = atom ∨ x.1.1 = e.1.1 := fun _ _ h => nomatch h
  cases hfind : v.find atom with
  | some e =>
    rw [View.delete, hfind] at h
    simp only at h
    split at h
    · cases h
      exact hv.change hnone
    · cases h
  | none =>
    rw [delete_of_none hfind] at h
    split at h
    · split at h
      · cases h
        intro e he i hi
        refine hv e he i (Nat.lt_of_lt_of_le hi ?_)
        rw [Option.getD_some]
        exact List.length_take_le' ..
      · cases h
        exact (noClash_none _ _).change hnone
    · cases h
      exact hv

/-- An operation on an object keeps them apart. -/
theorem noClash_onView (h : Inv s s.hashOf []) (hp : s.objectShape p = some (o, sh))
    (hv : (viewOf o sh).NoClash) (hop : op.object = some p) (hallowed : op.allowed s) :
    ((op.onView (viewOf o sh)).2).NoClash := by
  obtain ⟨hobj, hsh⟩ := objectShape_eq_some.mp hp
  cases op with
  | newObject _ | newArray _ | free _ => exact hv
  | setPrototype p' proto => exact hv
  | convert p' => exact noClash_none _ _
  | set p' atom val =>
    rw [Op.onView]
    split
    · exact hv.change fun e x hx => by cases hx; exact .inr rfl
    · exact hv
  | updateFlags p' atom flags => exact hv.change fun e x hx => by cases hx; exact .inl rfl
  | delete p' atom =>
    cases hd : (viewOf o sh).delete atom with
    | none =>
      rw [Op.onView, hd]
      exact hv
    | some v =>
      rw [Op.onView, hd]
      exact hv.delete hd
  | add p' atom flags val =>
    cases hop
    obtain ⟨hobj', _⟩ := (Bool.and_eq_true _ _).mp hallowed
    rw [hobj, Option.any_some, JSObject.hasElement] at hobj'
    intro e he i hi heq
    rcases List.mem_append.mp he with he | he
    · exact hv e he i hi heq
    · obtain rfl := List.mem_singleton.mp he
      obtain rfl : atom = i + 2 ^ 31 := heq
      have hi : i < (o.fastArray.getD []).length := hi
      have htagged : jsAtomIsTaggedInt (i + 2 ^ 31) := decide_eq_true (Nat.le_add_left ..)
      rw [htagged, Nat.add_sub_cancel, decide_eq_true hi] at hobj'
      cases hobj'
  | push p' val =>
    cases hop
    obtain ⟨o', hobj', hpush⟩ := (Option.any_eq_true _ _).mp hallowed
    cases hobj.symm.trans hobj'
    obtain ⟨tab, htab, hno⟩ := (Option.any_eq_true _ _).mp hpush
    have hatom : jsAtomFromUInt32 tab.length ≠ jsAtomNull := by
      simp [jsAtomFromUInt32, jsAtomNull]
    have hfresh := fresh_of_hasEntry h hp hatom (by simpa using hno)
    have hfast : ((Op.push p val).onView (viewOf o sh)).2.fastArray = some (tab ++ [val]) :=
      congrArg (Option.map (· ++ [val])) htab
    intro e he i hi heq
    rw [hfast, Option.getD_some, List.length_append] at hi
    rcases Nat.lt_succ_iff_lt_or_eq.mp hi with hi | rfl
    · refine hv e he i ?_ heq
      have hfast' : (viewOf o sh).fastArray = some tab := htab
      rwa [hfast', Option.getD_some]
    · obtain ⟨_, k, hk, _⟩ := mem_liveProps.mp he
      exact hfresh _ (List.mem_of_getElem? hk) heq

/-! ## Runs -/

/-- An allowed operation, and what it does to the world. -/
theorem step_eq_some : w.step proto (op, mem) = some w' ↔ op.allowed w.rt ∧ w' = ⟨(op.perform w.rt mem).2,
      if (op.perform w.rt mem).1 = .exception then w.views
      else (op.meaning (arrayView proto) w.rt.objects.length w.views).2⟩ := by
  rw [World.step]
  split
  · rename_i hallowed
    exact ⟨fun h => ⟨hallowed, (Option.some.inj h).symm⟩, fun h => congrArg some h.2.symm⟩
  · rename_i hallowed
    exact ⟨nofun, fun h => absurd h.1 hallowed⟩

theorem meaning_ne_exception {f : JSValue → View} {n : Ptr} (op : Op) :
    (op.meaning f n views).1 ≠ .exception := by
  have hview : ∀ v : View, (op.onView v).1 ≠ .exception := fun v => by
    cases op with
    | set p atom val =>
      rw [Op.onView]
      split <;> nofun
    | delete p atom =>
      rw [Op.onView]
      split <;> nofun
    | _ => nofun
  cases hop : op.object with
  | none =>
    cases op with
    | newObject _ | newArray _ | free _ => nofun
    | _ => cases hop
  | some p =>
    cases hp : views p with
    | none =>
      cases op <;> cases hop <;> simp only [Op.meaning, hp] <;> nofun
    | some v =>
      rw [meaning_eq hop hp]
      exact hview v

theorem Good.change (hg : Good proto w) (hsmall : op.Fits26 w.rt) (hstep : w.step proto (op, mem) = some w') :
    Change w.rt w'.rt w'.views := by
  obtain ⟨hallowed, rfl⟩ := step_eq_some.mp hstep
  have hmeans := Op.perform_spec hg op mem hallowed hsmall
  rw [hg.view] at hmeans
  rcases hmeans with ⟨hr, hchange⟩ | ⟨hr, hchange⟩
  · simp only [hr]
    exact hg.view ▸ hchange
  · simp only [hr, if_neg (meaning_ne_exception op)]
    exact hchange

theorem arrayView_noClash (proto : Option Ptr) (length : JSValue) :
    (arrayView proto length).NoClash := fun _ _ _ hi => absurd hi (Nat.not_lt_zero _)

theorem Good.noClash_meaning (hg : Good proto w) (hallowed : op.allowed w.rt) (n : Ptr) : ∀ p v,
      (op.meaning (arrayView proto) n w.views).2 p = some v → v.NoClash := by
  have hupdate : ∀ (p' : Ptr) (x : Option View), (∀ v, x = some v → v.NoClash) →
      ∀ p v, Function.update w.views p' x p = some v → v.NoClash := by
    intro p' x hx p v hp
    rw [Function.update_apply] at hp
    split at hp
    · exact hx v hp
    · exact hg.clash p v hp
  cases hop : op.object with
  | none =>
    cases op with
    | newObject proto => exact hupdate n _ fun v hv => by cases hv; exact noClash_none _ _
    | newArray length => exact hupdate n _ fun v hv => by cases hv; exact arrayView_noClash _ _
    | free p => exact hupdate p _ nofun
    | _ => cases hop
  | some p =>
    cases hp : w.views p with
    | none =>
      have hsame : (op.meaning (arrayView proto) n w.views).2 = w.views := by
        cases op <;> cases hop <;> simp only [Op.meaning, hp]
      rw [hsame]
      exact hg.clash
    | some v =>
      rw [meaning_eq hop hp]
      refine hupdate p _ fun v' hv' => ?_
      cases hv'
      have hview : w.rt.view p = some v := hg.view ▸ hp
      obtain ⟨⟨o, sh⟩, hobj, rfl⟩ := Option.map_eq_some_iff.mp hview
      exact noClash_onView hg.inv hobj (hg.clash p _ hp) hop hallowed

theorem Good.step (hg : Good proto w)
    (hsmall : op.Fits26 w.rt) (hstep : w.step proto (op, mem) = some w') : Good proto w' := by
  have hchange := hg.change hsmall hstep
  refine ⟨hchange.inv, hchange.view, ?_, ?_⟩
  · obtain ⟨hallowed, rfl⟩ := step_eq_some.mp hstep
    split
    · exact hg.clash
    · exact hg.noClash_meaning hallowed _
  · obtain ⟨q, sh, hq, hsh, hproto, hkeys⟩ := hg.array
    obtain ⟨r, hsh'⟩ := hchange.arrayKept q hq sh hsh
    exact ⟨q, _, hchange.array.trans hq, hsh', hproto, hkeys⟩

/-! ## The first state -/

theorem valid_arrayShape {n m : ℕ} :
    ({ (⟨1, true, false, n, .replicate 4 0, 1, [], 0, proto⟩ : JSShape).add jsAtomLength
      arrayLengthFlags with hash := m } : JSShape).Valid := by
  have hnew : (⟨1, true, false, n, .replicate 4 0, 1, [], 0, proto⟩ : JSShape).Valid :=
    valid_new (by omega)
  have hatom : jsAtomLength ≠ jsAtomNull := by decide
  have hadd := hnew.add arrayLengthFlags hatom nofun (Nat.two_pow_pos 26) Nat.one_pos
  exact hadd.congr (hadd.chains.of_eq rfl rfl) rfl rfl rfl hadd.fits

/-- The first state, with any hash. -/
theorem inv_initial {sh : JSShape} (hvalid : sh.Valid) (hone : sh.refCount = 1)
    (hhashed : sh.isHashed) (hlen : sh.prop.length = 1) (hlt : sh.hash < 2 ^ 32) :
    Inv (jsShapeHashLink ⟨fun q' => if q' = q then some sh else none, [], 4,
      .replicate (2 ^ 4) [], 0, some q⟩ q sh.hash) (Function.update (fun _ => none) q (some sh.hash))
      [] := by
  have hshape : ∀ q' x, (if q' = q then some sh else none) = some x → q' = q ∧ x = sh :=
    fun q' x hx => by
      split at hx
      · rename_i heq
        exact ⟨heq, (Option.some.inj hx).symm⟩
      · cases hx
  have hbase : Inv ⟨fun q' => if q' = q then some sh else none, [], 4, .replicate (2 ^ 4) [], 0,
      some q⟩ (fun _ => none) [] := by
    refine ⟨?_, ?_, ?_, ?_, nofun, nofun, ?_, Table.empty 4, nofun⟩
    · intro q' x hx
      obtain ⟨rfl, rfl⟩ := hshape q' x hx
      exact hvalid
    · intro q' x hx
      obtain ⟨rfl, rfl⟩ := hshape q' x hx
      simp [hone, JSRuntime.holders]
    · intro q' x hx
      obtain ⟨rfl, rfl⟩ := hshape q' x hx
      omega
    · intro q' x hx _
      obtain ⟨rfl, rfl⟩ := hshape q' x hx
      exact hone
    · intro q' hq'
      cases hq'
      exact ⟨sh, if_pos rfl, hhashed, hlen⟩
  exact hbase.link (if_pos rfl) hhashed rfl hlt

theorem arrayShapeHash_lt (proto : Option Ptr) : arrayShapeHash proto < 2 ^ 32 := by
  exact shapeHash_lt _ _

theorem good_initial (proto : Option Ptr) (q : Ptr) : Good proto (initial proto q) := by
  have hlt := arrayShapeHash_lt proto
  rw [initial, arrayShape]
  generalize arrayShapeHash proto = m at hlt
  generalize shapeInitialHash proto = n
  have hvalid : ({ (⟨1, true, false, n, .replicate 4 0, 1, [], 0, proto⟩ : JSShape).add
    jsAtomLength arrayLengthFlags with hash := m } : JSShape).Valid := valid_arrayShape
  have hlen : ({ (⟨1, true, false, n, .replicate 4 0, 1, [], 0, proto⟩ : JSShape).add
    jsAtomLength arrayLengthFlags with hash := m } : JSShape).prop.length = 1 := length_prop_link
  have hkeys : ({ (⟨1, true, false, n, .replicate 4 0, 1, [], 0, proto⟩ : JSShape).add
    jsAtomLength arrayLengthFlags with hash := m } : JSShape).keys = [(jsAtomLength, arrayLengthFlags)] := by
    rfl
  have hfields : ∃ sh : JSShape, { (⟨1, true, false, n, .replicate 4 0, 1, [], 0, proto⟩ :
      JSShape).add jsAtomLength arrayLengthFlags with hash := m } = sh ∧ sh.refCount = 1 ∧
      sh.isHashed = true ∧ sh.proto = proto ∧ sh.hash = m :=
    ⟨_, rfl, refCount_add, isHashed_add, proto_add, rfl⟩
  obtain ⟨sh, hsh, hone, hhashed, hproto, rfl⟩ := hfields
  rw [hsh] at hvalid hlen hkeys ⊢
  have hinv := inv_initial (q := q) hvalid hone hhashed hlen hlt
  obtain ⟨hobject, harray⟩ := object_jsShapeHashLink ⟨fun q' => if q' = q then some sh else none, [], 4,
    .replicate (2 ^ 4) [], 0, some q⟩ q sh.hash
  have hshape := shape_jsShapeHashLink ⟨fun q' => if q' = q then some sh else none, [], 4,
    .replicate (2 ^ 4) [], 0, some q⟩ q sh.hash
  generalize jsShapeHashLink ⟨fun q' => if q' = q then some sh else none, [], 4,
    .replicate (2 ^ 4) [], 0, some q⟩ q sh.hash = rt at hinv hobject harray hshape
  have hq : rt.shape q = some sh := by
    rw [hshape]
    exact if_pos rfl
  refine ⟨?_, ?_, nofun, q, sh, harray, hq, hproto, hkeys⟩
  · have hhash : rt.hashOf = Function.update (fun _ => none) q (some sh.hash) := by
      funext q'
      rw [JSRuntime.hashOf, hshape, Function.update_apply]
      split
      · rename_i heq
        simp only [if_pos heq, Option.bind_some, if_pos hhashed]
      · rename_i hne
        simp only [if_neg hne, Option.bind_none]
    rw [hhash]
    exact hinv
  · funext p
    rw [JSRuntime.view, JSRuntime.objectShape, hobject]
    rfl

/-! ## What holds in every state -/

/-- A shape is a list of properties with a correct hash table. -/
structure JSShape.Correct (sh : JSShape) : Prop where
  /-- a live atom occurs in one entry -/
  unique : ∀ i j a, sh.LiveAt i a → sh.LiveAt j a → i = j
  /-- which is the one that is found -/
  found : ∀ i a, sh.LiveAt i a → sh.findOwnProperty a = i
  /-- each bucket is a chain of the live entries that belong to it -/
  chains : ∀ b < sh.propHash.length, ∃ l, sh.Bucket b l
  deleted : sh.deletedPropCount = sh.keys.countP (·.1 = jsAtomNull)

/-- What a state should satisfy. -/
structure Correct (w : World) : Prop where
  shape : ∀ q sh, w.rt.shape q = some sh → sh.Correct
  /-- an object has a value for each entry of its shape -/
  aligned : ∀ p o, w.rt.object p = some o →
    ∃ sh, w.rt.shape o.shape = some sh ∧ o.prop.length = sh.prop.length
  /-- the properties are in the order in which they were added -/
  order : w.rt.view = w.views
  refs : ∀ q sh, w.rt.shape q = some sh → sh.refCount = w.rt.holders q
  /-- only shapes of the table are shared -/
  unhashed : ∀ q sh, w.rt.shape q = some sh → sh.isHashed = false → sh.refCount = 1
  /-- the table holds the hashed shapes -/
  table : ∀ (b : ℕ) (q : Ptr), q ∈ w.rt.shapeHash[b]?.getD [] ↔ ∃ sh, w.rt.shape q = some sh ∧
    sh.isHashed ∧ getShapeHash sh.hash w.rt.shapeHashBits = b

theorem JSShape.Valid.correct (h : sh.Valid) : sh.Correct :=
  ⟨fun _ _ _ hi hj => h.unique hi hj, fun _ _ hi => h.findOwnProperty hi, h.chains.bucket, h.deleted⟩

theorem Good.correct (hg : Good proto w) : Correct w := by
  have h := hg.inv
  refine ⟨fun q sh hsh => (h.valid q sh hsh).correct, fun p o hp => ?_, hg.view,
    fun q sh hsh => h.refs q sh hsh, h.unhashed, fun b q => ?_⟩
  · obtain ⟨sh, hsh, hfits⟩ := h.object p o hp
    exact ⟨sh, hsh, hfits.count⟩
  · rw [h.table.mem]
    constructor
    · rintro ⟨hash, hhash, hb⟩
      obtain ⟨sh, hsh, hsome⟩ := Option.bind_eq_some_iff.mp hhash
      split at hsome
      · rename_i hhashed
        cases hsome
        exact ⟨sh, hsh, hhashed, hb⟩
      · cases hsome
    · rintro ⟨sh, hsh, hhashed, hb⟩
      exact ⟨sh.hash, by rw [hashOf_of_shape hsh, JSShape.tableHash, if_pos hhashed], hb⟩

/-- The runs whose new properties get numbers that fit. -/
abbrev SmallRun (proto : Option Ptr) (q : Ptr) (w : World) : Prop :=
  Reachable (· = initial proto q) (World.step proto) (fun w o => o.1.Fits26 w.rt) w

theorem SmallRun.good (h : SmallRun proto q w) : Good proto w :=
  Reachable.invariant (fun _ hw => hw ▸ good_initial proto q)
    (fun _ _ _ hg hsmall hstep => hg.step hsmall hstep) h

/-- **The shapes are correct** in every state of a run whose properties have numbers that fit
in a link, and the next operation does what it should and leaves shared shapes alone. -/
theorem shapes_correct (proto : Option Ptr) (q : Ptr) (w : World) (h : SmallRun proto q w) :
    Correct w ∧ ∀ op mem w', op.Fits26 w.rt → w.step proto (op, mem) = some w' → SharedKept w.rt w'.rt ∧
      ((op.perform w.rt mem).1 = .exception ∧ w'.views = w.views ∨ ((op.perform w.rt mem).1, w'.views) =
          op.meaning (arrayView proto) w.rt.objects.length w.views) := by
  have hg := h.good
  refine ⟨hg.correct, fun op mem w' hsmall hstep => ⟨(hg.change hsmall hstep).shared, ?_⟩⟩
  obtain ⟨hallowed, rfl⟩ := step_eq_some.mp hstep
  rcases hg.view ▸ Op.perform_spec hg op mem hallowed hsmall with ⟨hr, _⟩ | ⟨hr, _⟩
  · exact .inl ⟨hr, if_pos hr⟩
  · refine .inr (Prod.ext hr ?_)
    exact if_neg (hr ▸ meaning_ne_exception op)

/-- An array is made. -/
theorem shapes_correct_example : ∃ w, SmallRun none 0 w ∧ Correct w ∧
    w.views 0 = some (arrayView none 7) := by
  obtain ⟨w, hstep, hview⟩ : ∃ w, (initial none 0).step none (.newArray 7, [some 0, some 0]) = some w ∧
      w.views 0 = some (arrayView none 7) := ⟨_, step_eq_some.mpr ⟨rfl, rfl⟩, rfl⟩
  have hsmall : (Op.newArray 7).Fits26 (initial none 0).rt := trivial
  have hrun : SmallRun none 0 w := .step (.init rfl) hsmall hstep
  exact ⟨w, hrun, (shapes_correct none 0 w hrun).1, hview⟩

end QuickJs.Shape
