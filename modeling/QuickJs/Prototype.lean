import QuickJs.Links
import QuickJs.ShapeRun

/-!
# Prototype chains

The prototype of an object is in its shape. Objects are created with a prototype that exists,
and `JS_SetPrototypeInternal` gives an object another one; before it does it follows the links
from the new prototype and refuses if they lead to the object. Every lookup of a property
follows these links and comes to an end because there is no cycle.
-/

namespace QuickJs.Prototype

open Shape Run Links

/-- A value as far as `JS_SetPrototypeInternal` looks at it. -/
inductive Value
  | null
  | undefined
  | other
  | object (p : Ptr)

/-- The runtime, and what the objects have besides their shapes. -/
structure Heap where
  rt : JSRuntime
  extensible : Ptr → Bool
  isProxy : Ptr → Bool

/-- What a call returns: TRUE, FALSE, or -1 with a pending exception. -/
inductive Answer
  | true
  | false
  | typeError (message : String)
  | outOfMemory
  deriving DecidableEq

/-- `p->shape->proto`. -/
def Heap.proto (s : Heap) (p : Ptr) : Option Ptr := (s.rt.objectShape p).bind (·.2.proto)

/-- An object is there. -/
def Heap.exists (s : Heap) (p : Ptr) : Bool := (s.rt.objectShape p).isSome

/-- A call is refused. -/
def refuse (throwFlag : Bool) (message : String) : Answer :=
  if throwFlag then .typeError message else .false

/-- `JS_SetPrototypeInternal` of an object that is no proxy. There is no answer if the loop
looks at more nodes than there are objects. -/
def setPrototypeObject (s : Heap) (p : Ptr) (proto : Option Ptr) (throwFlag : Bool) (mem : Alloc) :
    Option (Answer × Heap) :=
  if s.proto p = proto then some (.true, s)
  else if !s.extensible p then some (refuse throwFlag "object is not extensible", s)
  else
    -- for a proxy the link is null
    match proto.elim (some false) (meets s.proto p s.rt.objects.length) with
    | none => none
    | some true => some (refuse throwFlag "circular prototype chain", s)
    | some false =>
      let (ok, rt, _) := jsSetPrototype s.rt p proto mem
      some (if ok then .true else .outOfMemory, { s with rt := rt })

/-- `JS_SetPrototypeInternal`. -/
def jsSetPrototypeInternal (s : Heap) (obj protoVal : Value) (throwFlag : Bool) (mem : Alloc) :
    Option (Answer × Heap) :=
  let notObj := some (Answer.typeError "not an object", s)
  match throwFlag, obj, protoVal with
  | true, .null, _ | true, .undefined, _ => notObj
  | false, .null, _ | false, .undefined, _ | false, .other, _ => notObj
  | _, _, .undefined | _, _, .other => notObj
  | true, .other, _ => some (.true, s)
  | _, .object p, .null => setPrototypeObject s p none throwFlag mem
  | _, .object p, .object proto => setPrototypeObject s p (some proto) throwFlag mem

/-- `JS_NewObjectProtoClass`. -/
def jsNewObject (s : Heap) (proto : Option Ptr) (isProxy : Bool) (mem : Alloc) : Heap :=
  let (ok, rt, _) := jsNewObjectProtoClass s.rt proto mem
  if ok then
    { rt := rt
      extensible := Function.update s.extensible s.rt.objects.length true
      isProxy := Function.update s.isProxy s.rt.objects.length isProxy }
  else { s with rt := rt }

/-! ## Runs -/

inductive Op
  | newObject (proto : Option Ptr)
  | newProxy
  | preventExtensions (p : Ptr)
  | setPrototype (obj protoVal : Value) (throwFlag : Bool)

/-- An object that is there. -/
def Value.known (s : Heap) : Value → Bool
  | .object p => s.exists p
  | _ => true

/-- A proxy. -/
def Value.isProxy (s : Heap) : Value → Bool
  | .object p => s.isProxy p
  | _ => false

/-- The objects exist, and the object whose prototype is set is no proxy. -/
def Op.allowed (s : Heap) : Op → Bool
  | .newObject proto => proto.all s.exists
  | .newProxy => true
  | .preventExtensions p => s.exists p
  | .setPrototype obj protoVal _ => obj.known s && protoVal.known s && !obj.isProxy s

/-- One operation, with the answers to its allocations. -/
def Heap.step (s : Heap) (o : Op × Alloc) : Option Heap :=
  if o.1.allowed s then
    match o.1 with
    | .newObject proto => some (jsNewObject s proto false o.2)
    | .newProxy => some (jsNewObject s none true o.2)
    | .preventExtensions p => some { s with extensible := Function.update s.extensible p false }
    | .setPrototype obj protoVal throwFlag =>
      (jsSetPrototypeInternal s obj protoVal throwFlag o.2).map Prod.snd
  else none

/-- No objects, and the shape of arrays at the address `q`. -/
def Heap.initial (q : Ptr) : Heap := ⟨(World.rt (Shape.initial none q)), fun _ => true, fun _ => false⟩

/-! ## The invariant -/

/-- The shapes are correct, a link leads to an object, and all chains come to an end. -/
structure Sound (s : Heap) : Prop where
  inv : Inv s.rt s.rt.hashOf []
  closed : ∀ p q, s.proto p = some q → s.exists q
  ends : ∀ p, ∃ l, Chain s.proto (some p) l

variable {s s' : Heap} {p q : Ptr} {proto : Option Ptr} {mem : Alloc} {l : List Ptr}

theorem proto_eq_view (s : Heap) (p : Ptr) : s.proto p = (s.rt.view p).bind View.proto := by
  rw [Heap.proto, JSRuntime.view]
  cases s.rt.objectShape p <;> rfl

theorem exists_eq_view (s : Heap) (p : Ptr) : s.exists p = (s.rt.view p).isSome := by
  rw [Heap.exists, JSRuntime.view, Option.isSome_map]

/-- An object that is there has a number below the number of objects. -/
theorem lt_of_exists (h : s.exists p) : p < s.rt.objects.length := by
  obtain ⟨⟨o, sh⟩, hp⟩ := Option.isSome_iff_exists.mp h
  obtain ⟨hobj, _⟩ := objectShape_eq_some.mp hp
  exact (List.getElem?_eq_some_iff.mp (Option.join_eq_some_iff.mp hobj)).1

/-- The chain of an object that is there, and its length. -/
theorem Sound.chain (h : Sound s) (hp : s.exists p) :
    ∃ l, Chain s.proto (some p) l ∧ l.length ≤ s.rt.objects.length := by
  obtain ⟨l, hl⟩ := h.ends p
  have hall : ∀ a ∈ l, a < s.rt.objects.length :=
    hl.all (P := (· < s.rt.objects.length)) (fun a ha => Option.some.inj ha ▸ lt_of_exists hp)
      fun a b hab => lt_of_exists (h.closed a b hab)
  exact ⟨l, hl, hl.length_le hall⟩

/-- The chain of a prototype that may be null, and what the loop finds out about it. -/
theorem Sound.search (h : Sound s) (hproto : proto.all s.exists) : ∃ l, Chain s.proto proto l ∧
    proto.elim (some false) (meets s.proto p s.rt.objects.length) = some (decide (p ∈ l)) := by
  cases proto with
  | none => exact ⟨[], .nil, rfl⟩
  | some q =>
    obtain ⟨l, hl, hlen⟩ := h.chain hproto
    exact ⟨l, hl, hl.meets hlen⟩

/-- One link changes, to a chain that does not lead back. -/
theorem Sound.update {views : Ptr → Option View} {v : View} (h : Sound s)
    (hchange : Change s.rt s'.rt views) (hviews : views = Function.update s.rt.view p (some v))
    (hproto : v.proto = proto) (hknown : proto.all s.exists)
    (hl : Chain s.proto proto l) (hp : p ∉ l) : Sound s' := by
  have hview : s'.rt.view = Function.update s.rt.view p (some v) := hchange.view.trans hviews
  have hlink : s'.proto = Function.update s.proto p proto := by
    funext p'
    rw [proto_eq_view, hview, Function.update_apply, Function.update_apply, proto_eq_view]
    split
    · exact hproto
    · rfl
  have hexists : ∀ p', s.exists p' → s'.exists p' := fun p' h' => by
    rw [exists_eq_view] at h' ⊢
    rw [hview, Function.update_apply]
    split
    · rfl
    · exact h'
  refine ⟨hchange.inv, fun p' q hq => ?_, fun p' => ?_⟩
  · rw [hlink, Function.update_apply] at hq
    split at hq
    · rw [hq] at hknown
      exact hexists q hknown
    · exact hexists q (h.closed p' q hq)
  · obtain ⟨l', hl'⟩ := h.ends p'
    rw [hlink]
    exact hl'.update hl hp

/-- Nothing of what the objects are changes. -/
theorem Sound.of_view (h : Sound s) (hchange : Change s.rt s'.rt s.rt.view) : Sound s' := by
  have hlink : s'.proto = s.proto := funext fun p => by
    rw [proto_eq_view, hchange.view, proto_eq_view]
  refine ⟨hchange.inv, fun p q hq => ?_, fun p => hlink ▸ h.ends p⟩
  rw [exists_eq_view, hchange.view, ← exists_eq_view]
  exact h.closed p q (hlink ▸ hq)

/-! ## Operations -/

/-- The last part of `JS_SetPrototypeInternal`. -/
theorem Sound.setPrototype {ok : Bool} {rt : JSRuntime} {mem' : Alloc} (h : Sound s)
    (hp : s.exists p) (hr : jsSetPrototype s.rt p proto mem = (ok, rt, mem'))
    (hknown : proto.all s.exists) (hl : Chain s.proto proto l) (hnot : p ∉ l) :
    Sound { s with rt := rt } := by
  obtain ⟨⟨o, sh⟩, hp⟩ := Option.isSome_iff_exists.mp hp
  have hchange := Step.change (jsSetPrototype_spec h.inv hp hr) h.inv
  rw [view_of hp] at hchange
  cases ok with
  | false =>
    have hself : Function.update s.rt.view p (some (viewOf o sh)) = s.rt.view := by
      rw [← view_of hp, Function.update_eq_self]
    exact h.of_view (hself ▸ hchange)
  | true =>
    exact h.update hchange rfl rfl hknown hl hnot

/-- **One call**: it comes to an answer, and refuses to close a cycle. -/
theorem setPrototypeObject_spec {throwFlag : Bool} {l : List Ptr} (h : Sound s) (hp : s.exists p)
    (hknown : proto.all s.exists) (hl : Chain s.proto proto l) :
    ∃ a s', setPrototypeObject s p proto throwFlag mem = some (a, s') ∧ Sound s' ∧
      (p ∈ l → s' = s ∧ (a = .false ∨ ∃ message, a = .typeError message)) := by
  rw [setPrototypeObject]
  split
  · -- a link that is there does not close a cycle
    rename_i hsame
    have hnot : p ∉ l := (hsame ▸ hl : Chain s.proto (s.proto p) l).notMem
    exact ⟨_, _, rfl, h, fun hmem => absurd hmem hnot⟩
  split
  · refine ⟨_, _, rfl, h, fun _ => ⟨rfl, ?_⟩⟩
    cases throwFlag
    · exact .inl rfl
    · exact .inr ⟨_, rfl⟩
  obtain ⟨l', hl', hsearch⟩ := h.search (p := p) hknown
  cases hl.unique hl'
  rw [hsearch]
  cases hmem : decide (p ∈ l) with
  | true =>
    refine ⟨_, _, rfl, h, fun _ => ⟨rfl, ?_⟩⟩
    cases throwFlag
    · exact .inl rfl
    · exact .inr ⟨_, rfl⟩
  | false =>
    have hnot : p ∉ l := of_decide_eq_false hmem
    exact ⟨_, _, rfl, h.setPrototype hp Prod.mk.eta.symm hknown hl hnot, fun hmem => absurd hmem hnot⟩

theorem Sound.jsNewObject {isProxy : Bool} (h : Sound s) (hknown : proto.all s.exists) :
    Sound (jsNewObject s proto isProxy mem) := by
  obtain ⟨l, hl, _⟩ := h.search (p := 0) hknown
  -- the new object is on no chain
  have hnew : s.rt.objects.length ∉ l := fun hmem =>
    Nat.lt_irrefl _ (hl.all (P := (· < s.rt.objects.length))
      (fun a ha => lt_of_exists (by rw [ha] at hknown; exact hknown))
      (fun a b hab => lt_of_exists (h.closed a b hab)) _ hmem)
  rw [Prototype.jsNewObject]
  cases hr : jsNewObjectProtoClass s.rt proto mem with
  | mk ok x =>
    have hchange := jsNewObjectProtoClass_spec h.inv hr
    cases ok with
    | false => exact h.of_view hchange
    | true => exact h.update hchange rfl rfl hknown hl hnew

theorem jsSetPrototypeInternal_null (throwFlag : Bool) :
    jsSetPrototypeInternal s (.object p) .null throwFlag mem = setPrototypeObject s p none throwFlag mem := by
  cases throwFlag <;> rfl

theorem jsSetPrototypeInternal_object (throwFlag : Bool) :
    jsSetPrototypeInternal s (.object p) (.object q) throwFlag mem =
      setPrototypeObject s p (some q) throwFlag mem := by
  cases throwFlag <;> rfl

theorem jsSetPrototypeInternal_spec {obj protoVal : Value} (throwFlag : Bool) (mem : Alloc)
    (h : Sound s) (hobj : obj.known s) (hproto : protoVal.known s) :
    ∃ a s', jsSetPrototypeInternal s obj protoVal throwFlag mem = some (a, s') ∧ Sound s' := by
  cases obj with
  | object p =>
    cases protoVal with
    | null =>
      obtain ⟨a, s', hr, hs', _⟩ := setPrototypeObject_spec h hobj rfl .nil
      exact ⟨a, s', (jsSetPrototypeInternal_null _).trans hr, hs'⟩
    | object q =>
      obtain ⟨l, hl⟩ := h.ends q
      have hknown : (some q).all s.exists := hproto
      obtain ⟨a, s', hr, hs', _⟩ := setPrototypeObject_spec h hobj hknown hl
      exact ⟨a, s', (jsSetPrototypeInternal_object _).trans hr, hs'⟩
    | undefined | other => cases throwFlag <;> exact ⟨_, _, rfl, h⟩
  | null | undefined | other => cases throwFlag <;> cases protoVal <;> exact ⟨_, _, rfl, h⟩

theorem Sound.step {o : Op × Alloc} (h : Sound s) (hs : s.step o = some s') : Sound s' := by
  obtain ⟨op, mem⟩ := o
  rw [Heap.step] at hs
  split at hs
  · rename_i hallowed
    cases op with
    | newObject proto =>
      cases hs
      exact h.jsNewObject hallowed
    | newProxy =>
      cases hs
      exact h.jsNewObject rfl
    | preventExtensions p =>
      cases hs
      exact ⟨h.inv, h.closed, h.ends⟩
    | setPrototype obj protoVal throwFlag =>
      obtain ⟨hknown, _⟩ := (Bool.and_eq_true _ _).mp hallowed
      obtain ⟨hobj, hproto⟩ := (Bool.and_eq_true _ _).mp hknown
      obtain ⟨a, s'', hr, hs''⟩ := jsSetPrototypeInternal_spec throwFlag mem h hobj hproto
      simp only [hr, Option.map_some, Option.some.injEq] at hs
      exact hs ▸ hs''
  · cases hs

theorem sound_initial (q : Ptr) : Sound (Heap.initial q) := by
  have hgood := good_initial none q
  refine ⟨hgood.inv, fun p q hq => ?_, fun p => ⟨[p], .cons ?_⟩⟩
  · cases hq
  · exact .nil

/-- The states of the runs of object creations and calls. -/
abbrev Run (q : Ptr) : Heap → Prop := Reachable (· = Heap.initial q) Heap.step fun _ _ => True

/-- **Prototype chains are acyclic**: in every state the links from an object end at null. A
call comes to an answer; if it would close a cycle it is refused and changes nothing. -/
theorem prototypes_acyclic (q : Ptr) (s : Heap) (h : Run q s) : (∀ p, ∃ l, Chain s.proto (some p) l) ∧
    ∀ (p proto : Ptr) (throwFlag : Bool) (mem : Alloc), s.exists p → s.exists proto →
      s.isProxy p = false → ∃ a s',
        jsSetPrototypeInternal s (.object p) (.object proto) throwFlag mem = some (a, s') ∧
        ((∃ l, Chain s.proto (some proto) l ∧ p ∈ l) →
          s' = s ∧ (a = .false ∨ ∃ message, a = .typeError message)) := by
  have hs : Sound s := Reachable.invariant (fun _ hinit => hinit ▸ sound_initial q)
    (fun _ _ _ hsound _ hstep => hsound.step hstep) h
  refine ⟨hs.ends, fun p proto throwFlag mem hp hproto _ => ?_⟩
  obtain ⟨l, hl⟩ := hs.ends proto
  have hknown : (some proto).all s.exists := hproto
  obtain ⟨a, s', hr, _, hrefuse⟩ := setPrototypeObject_spec hs hp hknown hl
  refine ⟨a, s', (jsSetPrototypeInternal_object _).trans hr, ?_⟩
  rintro ⟨l', hl', hmem⟩
  exact hrefuse (hl'.unique hl ▸ hmem)

/-- Two objects are made, the second with the first as its prototype; the first may not get the
second as its own. -/
theorem prototypes_acyclic_example : ∃ s, Run 0 s ∧ s.proto 1 = some 0 ∧
    (∀ p, ∃ l, Chain s.proto (some p) l) ∧
    ∃ a, jsSetPrototypeInternal s (.object 0) (.object 1) true [] = some (a, s) := by
  obtain ⟨s, hexec, hlink, hexists, hproxy⟩ : ∃ s, exec Heap.step (Heap.initial 0)
      [(.newObject none, [some 1, some 0, some 0]), (.newObject (some 0), [some 2, some 0, some 0])] =
        some s ∧ (s.proto 1 = some 0 ∧ s.proto 0 = none) ∧ (s.exists 0 ∧ s.exists 1) ∧
        s.isProxy 0 = false := ⟨_, rfl, by decide +kernel, by decide +kernel, rfl⟩
  have hrun : Run 0 s := .exec (fun _ _ => trivial) (.init rfl) hexec
  obtain ⟨hends, hcall⟩ := prototypes_acyclic 0 s hrun
  obtain ⟨a, s', hr, hcycle⟩ := hcall 0 1 true [] hexists.1 hexists.2 hproxy
  have hchain : Chain s.proto (some 1) [1, 0] :=
    .cons (hlink.1 ▸ .cons (hlink.2 ▸ .nil))
  obtain ⟨rfl, _⟩ := hcycle ⟨_, hchain, by decide⟩
  exact ⟨s', hrun, hlink.1, hends, a, hr⟩

end QuickJs.Prototype
