import QuickJs.Property

/-!
# Setting a property

The two implementations of `[[Set]]` with the object itself as receiver.
`jsSetPropertyInternal` is the optimised one, `jsSetPropertyGeneric` the one
behind `Reflect.set`. Both walk the prototype chain; they agree exactly when the
first object that owns the key settles the outcome.
-/

namespace QuickJs.Property

/-! ## The optimised setter -/

/-- The prototype loop of `JS_SetPropertyInternal`: the outcome if a property of
the chain settles it, the heap otherwise. A writable data property does not end
the loop. -/
def prototypeLookup (strict : Bool) (thisObj : Ptr) (prop : JSAtom) (val : JSValue)
    (flags : SetFlags) : ℕ → Heap → Option Ptr → Outcome ⊕ Heap
  | _, h, none => .inr h
  | 0, h, some _ => .inr h
  | n + 1, h, some p1 =>
    match findInstantiated h p1 prop with
    | (h, .failed) => .inl (.exception .initializer h)
    | (h, .present _ _ (.getset _ setter)) =>
      .inl (callSetter strict h setter (.object thisObj) val flags)
    | (h, .present _ _ (.value _ false)) => .inl (throwOrFalse strict flags (readOnly prop) h)
    | (h, _) => prototypeLookup strict thisObj prop val flags n h (h.obj p1).proto

/-- The end of `JS_SetPropertyInternal`: add the property to the receiver. -/
def addToReceiver (strict : Bool) (h : Heap) (p : Ptr) (prop : JSAtom) (val : JSValue)
    (flags : SetFlags) : Outcome :=
  if flags.noAdd then .exception (.notDefined prop) h
  else if !(h.obj p).extensible then throwOrFalse strict flags notExtensible h
  else .returned true (h.setProp p prop ⟨true, true, .slot (.value val true)⟩)

/-- `JS_SetPropertyInternal` on an object. -/
def jsSetPropertyInternal (strict : Bool) (h : Heap) (p : Ptr) (prop : JSAtom) (val : JSValue)
    (flags : SetFlags) : Outcome :=
  match findInstantiated h p prop with
  | (h, .failed) => .exception .initializer h
  | (h, .present c e (.value _ true)) =>
    .returned true (h.setProp p prop ⟨c, e, .slot (.value val true)⟩)
  | (h, .present _ _ (.getset _ setter)) => callSetter strict h setter (.object p) val flags
  | (h, .present _ _ (.varRef cell)) => .returned true (h.setVarRef cell val)
  | (h, .present _ _ (.value _ false)) => throwOrFalse strict flags (readOnly prop) h
  | (h, .absent) =>
    match prototypeLookup strict p prop val flags (h.height p) h (h.obj p).proto with
    | .inl o => o
    | .inr h => addToReceiver strict h p prop val flags

/-! ## The generic setter -/

/-- The loop of `JS_SetPropertyGeneric`, which the first owner of the key ends. -/
def genericLookup (strict : Bool) (prop : JSAtom) (val thisObj : JSValue) (flags : SetFlags) :
    ℕ → Heap → Option Ptr → Outcome ⊕ Heap
  | _, h, none => .inr h
  | 0, h, some _ => .inr h
  | n + 1, h, some p =>
    match jsGetOwnPropertyInternal h p prop with
    | (h, .error e) => .inl (.exception e h)
    | (h, .ok (some desc)) =>
      if desc.getset then .inl (callSetter strict h desc.setter thisObj val flags)
      else if !desc.writable then .inl (throwOrFalse strict flags (readOnly prop) h)
      else .inr h
    | (h, .ok none) => genericLookup strict prop val thisObj flags n h (h.obj p).proto

/-- The second half of `JS_SetPropertyGeneric`: write or create the property in
the receiver. -/
def setInReceiver (strict : Bool) (h : Heap) (prop : JSAtom) (val thisObj : JSValue)
    (flags : SetFlags) : Outcome :=
  match thisObj with
  | .object p =>
    match jsGetOwnPropertyInternal h p prop with
    | (h, .error e) => .exception e h
    | (h, .ok (some desc)) =>
      if desc.getset then throwOrFalse strict flags (.typeError "setter is forbidden") h
      else if !desc.writable then throwOrFalse strict flags (readOnly prop) h
      else jsDefineProperty strict h p prop val none none { hasValue := true }
    | (h, .ok none) => jsCreateProperty strict h p prop val none none
        { toSetFlags := flags
          hasValue := true, hasEnumerable := true, hasWritable := true, hasConfigurable := true
          configurable := true, writable := true, enumerable := true }
  | _ => throwOrFalse strict flags (.typeError "receiver is not an object") h

/-- `JS_SetPropertyGeneric`. -/
def jsSetPropertyGeneric (strict : Bool) (h : Heap) (obj : Ptr) (prop : JSAtom)
    (val thisObj : JSValue) (flags : SetFlags) : Outcome :=
  match genericLookup strict prop val thisObj flags (h.height obj + 1) h (some obj) with
  | .inl o => o
  | .inr h => setInReceiver strict h prop val thisObj flags

end QuickJs.Property

/-!
## When the two setters agree

`jsSetPropertyGeneric` lets the first owner of the key decide.
`jsSetPropertyInternal` lets the first *obstacle* decide: a setter, a read-only
property or an initializer that throws, with any number of writable data
properties before it. Outcomes are compared up to the instantiation of lazily
initialised properties, which the program cannot observe.
-/

namespace QuickJs.Property

/-! ## Instantiating everything -/

/-- The kind of a property once it is instantiated. -/
def PropKind.instantiate : PropKind → PropKind
  | .slot s => .slot s
  | .autoinit init w => .slot (.value (init.getD .undefined) w)

/-- A property once it is instantiated. -/
def JSProperty.instantiate (pr : JSProperty) : JSProperty := { pr with kind := pr.kind.instantiate }

/-- The heap with every property instantiated. -/
def Heap.instantiate (h : Heap) : Heap where
  obj p := { h.obj p with prop := fun a => ((h.obj p).prop a).map JSProperty.instantiate }
  varRef := h.varRef
  height := h.height
  height_proto := h.height_proto

/-- An outcome, up to the instantiation of properties. -/
def Outcome.instantiate : Outcome → Outcome
  | .returned b h => .returned b h.instantiate
  | .exception e h => .exception e h.instantiate
  | .call setter thisObj val h => .call setter thisObj val h.instantiate

theorem Heap.ext_of {h h' : Heap} (hobj : h.obj = h'.obj) (hvar : h.varRef = h'.varRef)
    (hheight : h.height = h'.height) : h = h' := by
  cases h'
  subst hobj hvar hheight
  rfl

theorem instantiate_setProp (h : Heap) (p : Ptr) (prop : JSAtom) (pr : JSProperty) :
    (h.setProp p prop pr).instantiate = h.instantiate.setProp p prop pr.instantiate := by
  refine Heap.ext_of ?_ rfl rfl
  funext q
  by_cases hq : q = p
  · subst hq
    simp only [Heap.instantiate, Heap.setProp, Function.update_self, JSObject.mk.injEq, true_and]
    funext a
    by_cases ha : a = prop <;> simp [ha]
  · simp [Heap.instantiate, Heap.setProp, hq]

theorem Heap.setProp_self {h : Heap} {p : Ptr} {prop : JSAtom} {pr : JSProperty}
    (hpr : h.findOwnProperty p prop = some pr) : h.setProp p prop pr = h := by
  have hprop : Function.update (h.obj p).prop prop (some pr) = (h.obj p).prop :=
    Function.update_eq_self_iff.mpr hpr.symm
  simp [setProp, hprop]

/-- `h'` is `h` after some properties, none of whose initializers throws, were
instantiated. -/
structure SameView (h h' : Heap) : Prop where
  heap : h'.instantiate = h.instantiate
  found : ∀ q a, (findInstantiated h' q a).2 = (findInstantiated h q a).2

theorem SameView.refl (h : Heap) : SameView h h := ⟨rfl, fun _ _ => rfl⟩

theorem SameView.trans {h h' h'' : Heap} (h₁ : SameView h h') (h₂ : SameView h' h'') : SameView h h'' :=
  ⟨h₂.heap.trans h₁.heap, fun q a => (h₂.found q a).trans (h₁.found q a)⟩

theorem SameView.proto {h h' : Heap} (hv : SameView h h') (q : Ptr) : (h'.obj q).proto = (h.obj q).proto := by
  change (h'.instantiate.obj q).proto = (h.instantiate.obj q).proto
  rw [hv.heap]

/-- A lookup instantiates at most the property it looks for. -/
theorem findInstantiated_instantiate (h : Heap) (p : Ptr) (prop : JSAtom) :
    (findInstantiated h p prop).1.instantiate = h.instantiate := by
  have hset : ∀ pr pr', h.findOwnProperty p prop = some pr → pr'.instantiate = pr.instantiate →
      (h.setProp p prop pr').instantiate = h.instantiate := by
    intro pr pr' hpr heq
    rw [instantiate_setProp, heq]
    refine Heap.setProp_self ?_
    change ((h.obj p).prop prop).map _ = _
    rw [show (h.obj p).prop prop = some pr from hpr]
    rfl
  unfold findInstantiated
  split
  · rfl
  · rfl
  · rename_i hfind
    exact hset _ _ hfind rfl
  · rename_i hfind
    exact hset _ _ hfind rfl

theorem findInstantiated_sameView (h : Heap) (p : Ptr) (prop : JSAtom)
    (hok : (findInstantiated h p prop).2 ≠ .failed) :
    SameView h (findInstantiated h p prop).1 := by
  refine ⟨findInstantiated_instantiate h p prop, fun q a => ?_⟩
  revert hok
  rw [findInstantiated.eq_def h p prop]
  split <;> intro hok
  · rfl
  · rfl
  · exact absurd rfl hok
  · -- the property just stored reads as it was found
    rename_i c e v w hfind
    simp only [findInstantiated, Heap.findOwnProperty_setProp]
    by_cases hqa : q = p ∧ a = prop
    · obtain ⟨rfl, rfl⟩ := hqa
      simp [hfind]
    · simp [hqa]
      split <;> simp_all

/-! ## Walking the chain -/

/-- The prototype chain that starts at `q`, as far as the budget goes. -/
def Heap.protosFrom (h : Heap) : ℕ → Option Ptr → List Ptr
  | _, none => []
  | 0, some _ => []
  | n + 1, some q => q :: h.protosFrom n (h.obj q).proto

/-- The prototypes of `p`. -/
def Heap.protos (h : Heap) (p : Ptr) : List Ptr := h.protosFrom (h.height p) (h.obj p).proto

theorem SameView.protosFrom {h h' : Heap} (hv : SameView h h') : h'.protosFrom = h.protosFrom := by
  funext n
  induction n with
  | zero => funext q; cases q <;> rfl
  | succ n ih =>
    funext q
    cases q with
    | none => rfl
    | some p => rw [Heap.protosFrom, Heap.protosFrom, ih, hv.proto]

/-- Does the object own the property? -/
def owns (h : Heap) (prop : JSAtom) (q : Ptr) : Bool :=
  (findInstantiated h q prop).2 ≠ .absent

/-- The properties that may keep a setter from writing to the receiver: an
accessor, a read-only property, or an initializer that throws. -/
def Found.isObstacle : Found → Bool
  | .failed | .present _ _ (.getset _ _) | .present _ _ (.value _ false) => true
  | _ => false

/-- Is there an obstacle at `q`? -/
def obstacle (h : Heap) (prop : JSAtom) (q : Ptr) : Bool :=
  (findInstantiated h q prop).2.isObstacle

theorem SameView.owns {h h' : Heap} (hv : SameView h h') (prop : JSAtom) : owns h' prop = owns h prop := by
  funext q
  simp only [Property.owns, hv.found]

theorem SameView.obstacle {h h' : Heap} (hv : SameView h h') (prop : JSAtom) :
    obstacle h' prop = obstacle h prop := by
  funext q
  simp only [Property.obstacle, hv.found]

theorem owns_of_obstacle {h : Heap} {prop : JSAtom} {q : Ptr} (hq : obstacle h prop q) : owns h prop q := by
  rw [owns, decide_eq_true_iff]
  intro hf
  rw [obstacle, hf] at hq
  cases hq

section

variable (strict : Bool) (thisObj : Ptr) (prop : JSAtom) (val : JSValue) (flags : SetFlags)

/-- The outcome at an obstacle, given what was found there. -/
def obstacleOutcome (h : Heap) : Found → Outcome
  | .failed => .exception .initializer h
  | .present _ _ (.getset _ setter) => callSetter strict h setter (.object thisObj) val flags
  | _ => throwOrFalse strict flags (readOnly prop) h

/-- The outcome at the obstacle `q`. -/
def outcomeAt (h : Heap) (q : Ptr) : Outcome :=
  obstacleOutcome strict thisObj prop val flags h.instantiate (findInstantiated h q prop).2

theorem instantiate_throwOrFalse (e : JSError) (h : Heap) :
    (throwOrFalse strict flags e h).instantiate = throwOrFalse strict flags e h.instantiate := by
  unfold throwOrFalse
  split <;> rfl

theorem instantiate_obstacleOutcome (h : Heap) (f : Found) :
    (obstacleOutcome strict thisObj prop val flags h f).instantiate =
      obstacleOutcome strict thisObj prop val flags h.instantiate f := by
  unfold obstacleOutcome
  split
  · rfl
  · unfold callSetter
    split
    · rfl
    · exact instantiate_throwOrFalse ..
  · exact instantiate_throwOrFalse ..

theorem SameView.outcomeAt {h h' : Heap} (hv : SameView h h') (q : Ptr) :
    outcomeAt strict thisObj prop val flags h' q = outcomeAt strict thisObj prop val flags h q := by
  rw [Property.outcomeAt, Property.outcomeAt, hv.heap, hv.found]

/-- A walk from `h` ends with the outcome at the deciding object, or without one,
having instantiated some properties. -/
def Settles (h : Heap) : Option Ptr → Outcome ⊕ Heap → Prop
  | none, .inr h' => SameView h h'
  | some q, .inl o => o.instantiate = outcomeAt strict thisObj prop val flags h q
  | _, _ => False

variable {strict thisObj prop val flags}

theorem Settles.of_sameView {h h' : Heap} (hv : SameView h h') {d : Option Ptr}
    {r : Outcome ⊕ Heap} (hr : Settles strict thisObj prop val flags h' d r) :
    Settles strict thisObj prop val flags h d r := by
  cases d with
  | none => cases r with
    | inl o => exact hr
    | inr h'' => exact hv.trans hr
  | some q => cases r with
    | inl o => exact Eq.trans hr (hv.outcomeAt ..)
    | inr h'' => exact hr

/-- An obstacle ends a walk with its outcome. -/
theorem settles_obstacle {h h₁ : Heap} {q : Ptr} {f : Found} (hfind : findInstantiated h q prop = (h₁, f)) :
    Settles strict thisObj prop val flags h (some q)
      (.inl (obstacleOutcome strict thisObj prop val flags h₁ f)) := by
  have hinst := findInstantiated_instantiate h q prop
  rw [hfind] at hinst
  change Outcome.instantiate _ = _
  rw [instantiate_obstacleOutcome, hinst, outcomeAt, hfind]

/-- The prototype loop of the optimised setter stops at the first obstacle. -/
theorem prototypeLookup_settles : ∀ (n : ℕ) (h : Heap) (q : Option Ptr),
    Settles strict thisObj prop val flags h ((h.protosFrom n q).find? (obstacle h prop))
      (prototypeLookup strict thisObj prop val flags n h q) := by
  intro n
  induction n with
  | zero =>
    intro h q
    cases q <;> exact SameView.refl h
  | succ n ih =>
    intro h q
    cases q with
    | none => exact SameView.refl h
    | some p =>
      obtain ⟨h₁, f, hfind⟩ : ∃ h₁ f, findInstantiated h p prop = (h₁, f) := ⟨_, _, rfl⟩
      have hstop : obstacle h prop p = true →
          ((h.protosFrom (n + 1) (some p)).find? (obstacle h prop)) = some p := fun hp =>
        List.find?_cons_of_pos hp
      -- past a property that is no obstacle, the walk goes on from the instantiated heap
      have hgo : f ≠ .failed → obstacle h prop p = false → Settles strict thisObj prop val flags h
            ((h.protosFrom (n + 1) (some p)).find? (obstacle h prop))
            (prototypeLookup strict thisObj prop val flags n h₁ (h₁.obj p).proto) := by
        intro hf hp
        have hv : SameView h h₁ := by
          have hv := findInstantiated_sameView h p prop (by rwa [hfind])
          rwa [hfind] at hv
        rw [Heap.protosFrom, List.find?_cons_of_neg (by simp [hp]), ← hv.protosFrom, ← hv.proto,
          ← hv.obstacle]
        exact (ih h₁ _).of_sameView hv
      have hobs : obstacle h prop p = f.isObstacle := by rw [obstacle, hfind]
      rw [prototypeLookup, hfind]
      match f, hfind, hgo, hobs with
      | .failed, hfind, _, hobs
      | .present _ _ (.getset _ _), hfind, _, hobs
      | .present _ _ (.value _ false), hfind, _, hobs =>
        rw [hstop hobs]
        exact settles_obstacle hfind
      | .absent, _, hgo, hobs
      | .present _ _ (.varRef _), _, hgo, hobs
      | .present _ _ (.value _ true), _, hgo, hobs => exact hgo (by simp) hobs

/-- The loop of the generic setter stops at the first owner. -/
theorem genericLookup_settles : ∀ (n : ℕ) (h : Heap) (q : Option Ptr),
    Settles strict thisObj prop val flags h
      (((h.protosFrom n q).find? (owns h prop)).filter (obstacle h prop))
      (genericLookup strict prop val (.object thisObj) flags n h q) := by
  intro n
  induction n with
  | zero =>
    intro h q
    cases q <;> exact SameView.refl h
  | succ n ih =>
    intro h q
    cases q with
    | none => exact SameView.refl h
    | some p =>
      obtain ⟨h₁, f, hfind⟩ : ∃ h₁ f, findInstantiated h p prop = (h₁, f) := ⟨_, _, rfl⟩
      have hv : f ≠ .failed → SameView h h₁ := by
        intro hf
        have hv := findInstantiated_sameView h p prop (by rwa [hfind])
        rwa [hfind] at hv
      have howns : owns h prop p = decide (f ≠ .absent) := by rw [owns, hfind]
      have hobs : obstacle h prop p = f.isObstacle := by rw [obstacle, hfind]
      have hfirst : f ≠ .absent → (h.protosFrom (n + 1) (some p)).find? (owns h prop) = some p :=
        fun hf => List.find?_cons_of_pos (by simp [howns, hf])
      rw [genericLookup, jsGetOwnPropertyInternal, hfind]
      match f, hfind, hv, howns, hobs, hfirst with
      | .failed, hfind, _, _, hobs, hfirst
      | .present _ _ (.getset _ _), hfind, _, _, hobs, hfirst
      | .present _ _ (.value _ false), hfind, _, _, hobs, hfirst =>
        rw [hfirst (by simp), Option.filter_some_pos hobs]
        exact settles_obstacle hfind
      | .present _ _ (.varRef _), _, hv, _, hobs, hfirst
      | .present _ _ (.value _ true), _, hv, _, hobs, hfirst =>
        rw [hfirst (by simp), Option.filter_some_neg hobs]
        exact hv (by simp)
      | .absent, _, hv, howns, _, _ =>
        have hv := hv (by simp)
        rw [Heap.protosFrom, List.find?_cons_of_neg (by simp [howns]), ← hv.protosFrom, ← hv.proto,
          ← hv.obstacle, ← hv.owns]
        exact (ih h₁ _).of_sameView hv

end

/-! ## The receiver's own property -/

section

variable {strict : Bool} {h h₁ : Heap} {p : Ptr} {prop : JSAtom} {val : JSValue} {flags : SetFlags}

theorem findOwnProperty_of_present {c e : Bool} {s : Slot}
    (hfind : findInstantiated h p prop = (h₁, .present c e s)) :
    h₁.findOwnProperty p prop = some ⟨c, e, .slot s⟩ := by
  unfold findInstantiated at hfind
  split at hfind
  · cases hfind
  · rename_i hown
    cases hfind
    exact hown
  · cases hfind
  · cases hfind
    simp [Heap.findOwnProperty_setProp]

theorem findInstantiated_of_slot {c e : Bool} {s : Slot}
    (hown : h.findOwnProperty p prop = some ⟨c, e, .slot s⟩) :
    findInstantiated h p prop = (h, .present c e s) := by
  simp only [findInstantiated, hown]

theorem eq_of_absent (hfind : findInstantiated h p prop = (h₁, .absent)) : h₁ = h := by
  unfold findInstantiated at hfind
  split at hfind <;> cases hfind
  rfl

/-- Writing to a property that `JS_DefineProperty` may change. -/
theorem jsDefineProperty_value {c e : Bool} {v : JSValue}
    (hown : h.findOwnProperty p prop = some ⟨c, e, .slot (.value v true)⟩) :
    jsDefineProperty strict h p prop val none none { hasValue := true } =
      .returned true (h.setProp p prop ⟨c, e, .slot (.value val true)⟩) := by
  simp [jsDefineProperty, hown, findInstantiated_of_slot hown, checkDefinePropFlags,
    PropKind.isGetset, updateSlot]

/-- Writing through a variable reference. -/
theorem jsDefineProperty_varRef {c e : Bool} {cell : ℕ}
    (hown : h.findOwnProperty p prop = some ⟨c, e, .slot (.varRef cell)⟩) :
    jsDefineProperty strict h p prop val none none { hasValue := true } =
      .returned true (h.setVarRef cell val) := by
  have hown' : (h.setVarRef cell val).findOwnProperty p prop = some ⟨c, e, .slot (.varRef cell)⟩ := hown
  simp [jsDefineProperty, hown, findInstantiated_of_slot hown, checkDefinePropFlags,
    PropKind.isGetset, updateSlot, Heap.setProp_self hown']

/-- The setters agree when the receiver owns the key. -/
theorem set_eq_of_own (howns : owns h prop p) : jsSetPropertyInternal strict h p prop val flags =
      jsSetPropertyGeneric strict h p prop val (.object p) flags := by
  obtain ⟨h₁, f, hfind⟩ : ∃ h₁ f, findInstantiated h p prop = (h₁, f) := ⟨_, _, rfl⟩
  rw [owns, hfind] at howns
  simp only [jsSetPropertyInternal, jsSetPropertyGeneric, genericLookup, jsGetOwnPropertyInternal, hfind]
  match f, hfind, howns with
  | .failed, _, _ => rfl
  | .present _ _ (.getset _ _), _, _ => rfl
  | .present _ _ (.value _ false), _, _ => rfl
  | .present _ _ (.value _ true), hfind, _ =>
    have hown := findOwnProperty_of_present hfind
    simp [descriptor, setInReceiver, jsGetOwnPropertyInternal, findInstantiated_of_slot hown,
      jsDefineProperty_value hown]
  | .present _ _ (.varRef _), hfind, _ =>
    have hown := findOwnProperty_of_present hfind
    simp [descriptor, setInReceiver, jsGetOwnPropertyInternal, findInstantiated_of_slot hown,
      jsDefineProperty_varRef hown]

end

/-! ## Adding to the receiver -/

section

variable (strict : Bool) (h : Heap) (p : Ptr) (prop : JSAtom) (val : JSValue) (flags : SetFlags)

/-- What both setters do when nothing on the chain forbids the new property. -/
def createOwn : Outcome :=
  if !(h.obj p).extensible then throwOrFalse strict flags notExtensible h
  else .returned true (h.setProp p prop ⟨true, true, .slot (.value val true)⟩)

theorem addToReceiver_eq : addToReceiver strict h p prop val flags =
    if flags.noAdd then .exception (.notDefined prop) h
    else createOwn strict h p prop val flags := rfl

theorem instantiate_createOwn : (createOwn strict h p prop val flags).instantiate =
    createOwn strict h.instantiate p prop val flags := by
  unfold createOwn
  split
  · rw [instantiate_throwOrFalse, if_pos]
    assumption
  · rw [if_neg]
    · change Outcome.returned true (Heap.instantiate _) = _
      rw [instantiate_setProp]
      rfl
    · assumption

variable {strict h p prop val flags}

theorem setInReceiver_of_absent (hp : (findInstantiated h p prop).2 = .absent) :
    setInReceiver strict h prop val (.object p) flags = createOwn strict h p prop val flags := by
  obtain ⟨h₁, f, hfind⟩ : ∃ h₁ f, findInstantiated h p prop = (h₁, f) := ⟨_, _, rfl⟩
  rw [hfind] at hp
  obtain rfl : f = .absent := hp
  obtain rfl := eq_of_absent hfind
  simp [setInReceiver, jsGetOwnPropertyInternal, hfind, jsCreateProperty, createOwn]

/-- The optimised setter on a key the receiver does not own. -/
theorem internal_of_absent (hp : owns h prop p = false) :
    (jsSetPropertyInternal strict h p prop val flags).instantiate =
      match (h.protos p).find? (obstacle h prop) with
      | some r => outcomeAt strict p prop val flags h r
      | none => (addToReceiver strict h p prop val flags).instantiate := by
  have hf : (findInstantiated h p prop).2 = .absent := by simpa [owns] using hp
  obtain ⟨h₁, f, hfind⟩ : ∃ h₁ f, findInstantiated h p prop = (h₁, f) := ⟨_, _, rfl⟩
  rw [hfind] at hf
  obtain rfl : f = .absent := hf
  obtain rfl := eq_of_absent hfind
  have hsettles : Settles strict p prop val flags h₁ ((h₁.protos p).find? (obstacle h₁ prop)) _ :=
    prototypeLookup_settles (h₁.height p) h₁ (h₁.obj p).proto
  simp only [jsSetPropertyInternal, hfind]
  match (h₁.protos p).find? (obstacle h₁ prop),
    prototypeLookup strict p prop val flags (h₁.height p) h₁ (h₁.obj p).proto, hsettles with
  | some _, .inl _, hsettles => exact hsettles
  | none, .inr _, hsettles =>
    have hv : SameView h₁ _ := hsettles
    simp only [addToReceiver_eq]
    split
    · exact congrArg (Outcome.exception _) hv.heap
    · rw [instantiate_createOwn, instantiate_createOwn, hv.heap]

/-- The generic setter on a key the receiver does not own. -/
theorem generic_of_absent (hp : owns h prop p = false) :
    (jsSetPropertyGeneric strict h p prop val (.object p) flags).instantiate =
      match ((h.protos p).find? (owns h prop)).filter (obstacle h prop) with
      | some r => outcomeAt strict p prop val flags h r
      | none => (createOwn strict h p prop val flags).instantiate := by
  have hf : (findInstantiated h p prop).2 = .absent := by simpa [owns] using hp
  have hchain : h.protosFrom (h.height p + 1) (some p) = p :: h.protos p := rfl
  have hsettles : Settles strict p prop val flags h _ _ :=
    genericLookup_settles (h.height p + 1) h (some p)
  rw [hchain, List.find?_cons_of_neg (by simp [hp])] at hsettles
  unfold jsSetPropertyGeneric
  match ((h.protos p).find? (owns h prop)).filter (obstacle h prop),
    genericLookup strict prop val (.object p) flags (h.height p + 1) h (some p), hsettles with
  | some _, .inl _, hsettles => exact hsettles
  | none, .inr h', hsettles =>
    have hv : SameView h h' := hsettles
    simp only
    rw [setInReceiver_of_absent ((hv.found p prop).trans hf), instantiate_createOwn,
      instantiate_createOwn, hv.heap]

end

/-! ## Agreement -/

/-- An obstacle that refuses the assignment without running any code. -/
def Found.refuses : Found → Bool
  | .present _ _ (.getset _ none) | .present _ _ (.value _ false) => true
  | _ => false

/-- The first object of the chain that owns the key decides, for the optimised
setter as well: the receiver owns the key, or the first prototype that owns it is
an obstacle, or there is no obstacle on the chain at all. The last case is two
different refusals that both answer `FALSE`. -/
def FirstOwnerDecides (strict : Bool) (h : Heap) (p : Ptr) (prop : JSAtom) (flags : SetFlags) :
    Prop :=
  owns h prop p ∨
  (∃ r, (h.protos p).find? (owns h prop) = some r ∧ obstacle h prop r) ∨
  ((h.protos p).find? (obstacle h prop) = none ∧ flags.noAdd = false) ∨
  ∃ r, (h.protos p).find? (obstacle h prop) = some r ∧ (findInstantiated h r prop).2.refuses ∧
    (h.obj p).extensible = false ∧ flags.throws strict = false

/-- An obstacle gives the outcome of a successful walk only when both refuse in
silence. -/
theorem outcomeAt_eq_createOwn {strict : Bool} {h : Heap} {p : Ptr} {prop : JSAtom} {val : JSValue}
    {flags : SetFlags} {r : Ptr} (hr : obstacle h prop r) :
    outcomeAt strict p prop val flags h r = (createOwn strict h p prop val flags).instantiate ↔
      (findInstantiated h r prop).2.refuses ∧ (h.obj p).extensible = false ∧ flags.throws strict = false := by
  have hext : (h.instantiate.obj p).extensible = (h.obj p).extensible := rfl
  rw [instantiate_createOwn, outcomeAt, createOwn, hext]
  rw [obstacle] at hr
  match (findInstantiated h r prop).2, hr with
  | .failed, _ | .present _ _ (.getset _ (some _)), _ | .present _ _ (.getset _ none), _
  | .present _ _ (.value _ false), _ =>
    by_cases hx : (h.obj p).extensible <;> by_cases ht : flags.throws strict <;>
      simp [obstacleOutcome, Found.refuses, throwOrFalse, callSetter, hx, ht, notExtensible, readOnly]

/-- The first owner, when it is an obstacle, is the first obstacle. -/
theorem find?_obstacle_of_owns {h : Heap} {prop : JSAtom} {r : Ptr} {l : List Ptr}
    (hfirst : l.find? (owns h prop) = some r) (hr : obstacle h prop r) :
    l.find? (obstacle h prop) = some r := by
  rw [List.find?_eq_some_iff_append] at hfirst ⊢
  obtain ⟨-, as, bs, rfl, hno⟩ := hfirst
  refine ⟨hr, as, bs, rfl, fun a ha => ?_⟩
  have hna := hno a ha
  cases hobs : obstacle h prop a with
  | false => rfl
  | true => simp [owns_of_obstacle hobs] at hna

/-- **The two setters agree exactly when the first owner decides.** -/
theorem set_agree_iff (strict : Bool) (h : Heap) (p : Ptr) (prop : JSAtom) (val : JSValue)
    (flags : SetFlags) :
    (jsSetPropertyInternal strict h p prop val flags).instantiate =
        (jsSetPropertyGeneric strict h p prop val (.object p) flags).instantiate ↔
      FirstOwnerDecides strict h p prop flags := by
  by_cases hown : owns h prop p = true
  · rw [set_eq_of_own hown]
    exact ⟨fun _ => .inl hown, fun _ => rfl⟩
  have hown : owns h prop p = false := by simpa using hown
  rw [internal_of_absent hown, generic_of_absent hown, FirstOwnerDecides]
  simp only [hown, Bool.false_eq_true, false_or]
  cases hobs : (h.protos p).find? (obstacle h prop) with
  | none =>
    -- nothing stops either walk
    have hno : ∀ r, (h.protos p).find? (owns h prop) = some r → obstacle h prop r = false :=
      fun r hr => by simpa using List.find?_eq_none.mp hobs r (List.mem_of_find?_eq_some hr)
    have hgen : ((h.protos p).find? (owns h prop)).filter (obstacle h prop) = none := by
      rw [Option.filter_eq_none_iff]
      exact fun r hr => by simp [hno r hr]
    have hfirst : ¬∃ r, (h.protos p).find? (owns h prop) = some r ∧ obstacle h prop r := by
      rintro ⟨r, hr, hobs⟩
      simp [hno r hr] at hobs
    rw [hgen, addToReceiver_eq]
    simp only [hfirst]
    cases hadd : flags.noAdd with
    | false => simp
    | true =>
      rw [if_pos rfl, createOwn, throwOrFalse]
      split <;> (try split) <;> simp [Outcome.instantiate, notExtensible]
  | some r =>
    have hr : obstacle h prop r := List.find?_some hobs
    cases hgen : ((h.protos p).find? (owns h prop)).filter (obstacle h prop) with
    | some r' =>
      -- the first owner is an obstacle, where both walks end
      obtain ⟨hfirst, hr'⟩ := Option.filter_eq_some_iff.mp hgen
      obtain rfl : r = r' := by
        have heq := hobs.symm.trans (find?_obstacle_of_owns hfirst hr')
        exact Option.some.inj heq
      exact ⟨fun _ => .inl ⟨r, hfirst, hr'⟩, fun _ => rfl⟩
    | none =>
      -- only the optimised walk meets `r`
      have hfirst : ¬∃ r, (h.protos p).find? (owns h prop) = some r ∧ obstacle h prop r := by
        rintro ⟨r', hr', hobs'⟩
        rw [Option.filter_eq_none_iff] at hgen
        exact hgen r' hr' hobs'
      simp only [hfirst]
      rw [outcomeAt_eq_createOwn hr]
      simp

/-! ## A setter behind a data property -/

/-- Object `0` inherits from `1`, where the key `0` is a writable data property,
and `1` from `2`, where it is an accessor with the setter `9`. -/
def shadowedSetter : Heap where
  obj p := match p with
    | 0 => ⟨some 1, true, fun _ => none⟩
    | 1 => ⟨some 2, true, fun a => if a = 0 then some ⟨true, true, .slot (.value .undefined true)⟩
        else none⟩
    | 2 => ⟨none, true, fun a => if a = 0 then some ⟨true, true, .slot (.getset none (some 9))⟩
        else none⟩
    | _ => ⟨none, true, fun _ => none⟩
  varRef := fun _ => .undefined
  height p := 2 - p
  height_proto := by
    intro p q hq
    match p with
    | 0 | 1 => cases hq; decide
    | 2 => cases hq
    | n + 3 => cases hq

/-- `Reflect.set` creates the property on object `0`; the optimised setter calls
the shadowed setter instead. -/
theorem set_shadowedSetter_disagree : ¬ ∀ strict h p prop val flags,
      (jsSetPropertyInternal strict h p prop val flags).instantiate =
        (jsSetPropertyGeneric strict h p prop val (.object p) flags).instantiate := by
  intro hagree
  have h := hagree false shadowedSetter 0 0 (.primitive 7) {}
  cases h

end QuickJs.Property
