import Mathlib.Logic.Function.Basic
import Mathlib.Data.Nat.Notation

/-!
# Properties of ordinary objects

The property operations of `quickjs.c` on objects that are not exotic: lookup of
an own property, lazy initialisation, `JS_GetOwnPropertyInternal`,
`JS_CreateProperty` and `JS_DefineProperty`.

An object is its prototype, its extensible bit and the map `find_own_property`
computes from its shape and property table. The value of a property is one of
the kinds of `JS_PROP_TMASK`. Variable references are always writable, so they
carry no writable bit.
-/

namespace QuickJs.Property

/-- A property key. -/
abbrev JSAtom : Type := ℕ

/-- The address of an object. -/
abbrev Ptr : Type := ℕ

/-- A JS value. Primitive values other than `undefined` are numbered, equal
numbers for values that `js_same_value` identifies. -/
inductive JSValue where
  /-- `JS_UNDEFINED` -/
  | undefined
  /-- an object -/
  | object (p : Ptr)
  /-- any other value -/
  | primitive (n : ℕ)
  deriving DecidableEq

/-- What an initialised property holds. -/
inductive Slot where
  /-- a value and its writable bit -/
  | value (v : JSValue) (writable : Bool)
  /-- `JS_PROP_GETSET` -/
  | getset (getter setter : Option Ptr)
  /-- `JS_PROP_VARREF` -/
  | varRef (cell : ℕ)
  deriving DecidableEq

/-- The kind of a property. -/
inductive PropKind where
  /-- an initialised property -/
  | slot (s : Slot)
  /-- `JS_PROP_AUTOINIT`: what the initializer yields (nothing when it throws)
  and the writable bit -/
  | autoinit (init : Option JSValue) (writable : Bool)
  deriving DecidableEq

/-- `JSShapeProperty` and `JSProperty`. -/
structure JSProperty where
  /-- `JS_PROP_CONFIGURABLE` -/
  configurable : Bool
  /-- `JS_PROP_ENUMERABLE` -/
  enumerable : Bool
  /-- the kind and the value -/
  kind : PropKind
  deriving DecidableEq

/-- `JSObject`. -/
structure JSObject where
  /-- `shape->proto` -/
  proto : Option Ptr
  /-- `extensible` -/
  extensible : Bool
  /-- the own properties -/
  prop : JSAtom → Option JSProperty

/-- The objects and the cells of the variable references. Prototype chains are
finite: `height` decreases along them. -/
structure Heap where
  /-- the objects -/
  obj : Ptr → JSObject
  /-- the variables behind the variable references -/
  varRef : ℕ → JSValue
  /-- a bound on the length of the prototype chain of an object -/
  height : Ptr → ℕ
  /-- no prototype chain is circular -/
  height_proto : ∀ p q, (obj p).proto = some q → height q < height p

/-- The flags `JS_SetPropertyInternal` takes. -/
structure SetFlags where
  /-- `JS_PROP_THROW` -/
  throw : Bool := false
  /-- `JS_PROP_THROW_STRICT` -/
  throwStrict : Bool := false
  /-- `JS_PROP_NO_ADD` -/
  noAdd : Bool := false

/-- The flags `JS_DefineProperty` takes: each `has` flag tells whether the
attribute of that name is given. -/
structure PropFlags extends SetFlags where
  hasGet : Bool := false
  hasSet : Bool := false
  hasValue : Bool := false
  hasWritable : Bool := false
  hasEnumerable : Bool := false
  hasConfigurable : Bool := false
  writable : Bool := false
  enumerable : Bool := false
  configurable : Bool := false

/-- The exceptions the property functions raise themselves, and the one an
initializer leaves behind. -/
inductive JSError where
  /-- `JS_ThrowTypeError` -/
  | typeError (msg : String)
  /-- `JS_ThrowTypeErrorAtom` -/
  | typeErrorAtom (fmt : String) (prop : JSAtom)
  /-- `JS_ThrowReferenceErrorNotDefined` -/
  | notDefined (prop : JSAtom)
  /-- whatever the initializer of a property raised -/
  | initializer
  deriving DecidableEq

/-- How a property function ends. -/
inductive Outcome where
  /-- `TRUE` or `FALSE` -/
  | returned (b : Bool) (h : Heap)
  /-- `-1` with a pending exception -/
  | exception (e : JSError) (h : Heap)
  /-- the result is that of calling a setter -/
  | call (setter : Ptr) (thisObj val : JSValue) (h : Heap)

namespace Heap

/-- Write an own property of `p`. -/
def setProp (h : Heap) (p : Ptr) (prop : JSAtom) (pr : JSProperty) : Heap where
  obj := Function.update h.obj p
    { h.obj p with prop := Function.update (h.obj p).prop prop (some pr) }
  varRef := h.varRef
  height := h.height
  height_proto := by
    intro q r hq
    refine h.height_proto q r ?_
    by_cases hqp : q = p
    · subst hqp
      simpa using hq
    · simpa [hqp] using hq

/-- Write the variable behind a reference. -/
def setVarRef (h : Heap) (cell : ℕ) (v : JSValue) : Heap :=
  { h with varRef := Function.update h.varRef cell v }

/-- `find_own_property`. -/
def findOwnProperty (h : Heap) (p : Ptr) (prop : JSAtom) : Option JSProperty := (h.obj p).prop prop

theorem findOwnProperty_setProp (h : Heap) (p : Ptr) (prop : JSAtom) (pr : JSProperty) (q : Ptr)
    (a : JSAtom) : (h.setProp p prop pr).findOwnProperty q a =
      if q = p ∧ a = prop then some pr else h.findOwnProperty q a := by
  by_cases hq : q = p <;> by_cases ha : a = prop <;>
    simp [findOwnProperty, setProp, hq, ha]

end Heap

/-! ## Refusals -/

/-- Does a refusal raise an exception? `strict` is `is_strict_mode`. -/
def SetFlags.throws (flags : SetFlags) (strict : Bool) : Bool :=
  flags.throw || flags.throwStrict && strict

/-- `JS_ThrowTypeErrorOrFalse`, and `JS_ThrowTypeErrorReadOnly` with the
exception it raises. -/
def throwOrFalse (strict : Bool) (flags : SetFlags) (e : JSError) (h : Heap) : Outcome :=
  if flags.throws strict then .exception e h else .returned false h

/-- The exception of `JS_ThrowTypeErrorReadOnly`. -/
def readOnly (prop : JSAtom) : JSError := .typeErrorAtom "'%s' is read-only" prop

/-- The exception for an object that takes no new property. -/
def notExtensible : JSError := .typeError "object is not extensible"

/-- The exception of `JS_DefineProperty` for a property it must not change. -/
def notConfigurable : JSError := .typeError "property is not configurable"

/-- `call_setter`. -/
def callSetter (strict : Bool) (h : Heap) (setter : Option Ptr) (thisObj val : JSValue)
    (flags : SetFlags) : Outcome :=
  match setter with
  | some setter => .call setter thisObj val h
  | none => throwOrFalse strict flags (.typeError "no setter for property") h

/-! ## Looking a property up -/

/-- What the lookup of an own property finds once lazily initialised properties
are instantiated. -/
inductive Found where
  /-- no such property -/
  | absent
  /-- the property and its configurable and enumerable bits -/
  | present (configurable enumerable : Bool) (s : Slot)
  /-- the initializer threw -/
  | failed
  deriving DecidableEq

/-- `find_own_property` with `JS_AutoInitProperty` and the retry that follows it,
which finds the data property just stored. A failed initializer leaves
`undefined` behind. -/
def findInstantiated (h : Heap) (p : Ptr) (prop : JSAtom) : Heap × Found :=
  match h.findOwnProperty p prop with
  | none => (h, .absent)
  | some ⟨c, e, .slot s⟩ => (h, .present c e s)
  | some ⟨c, e, .autoinit none w⟩ =>
    (h.setProp p prop ⟨c, e, .slot (.value .undefined w)⟩, .failed)
  | some ⟨c, e, .autoinit (some v) w⟩ =>
    (h.setProp p prop ⟨c, e, .slot (.value v w)⟩, .present c e (.value v w))

/-- `JSPropertyDescriptor`. -/
structure JSPropertyDescriptor where
  configurable : Bool
  enumerable : Bool
  writable : Bool
  /-- `JS_PROP_GETSET` -/
  getset : Bool
  value : JSValue
  getter : Option Ptr
  setter : Option Ptr

/-- The descriptor of an initialised property. -/
def descriptor (h : Heap) (c e : Bool) : Slot → JSPropertyDescriptor
  | .value v w => ⟨c, e, w, false, v, none, none⟩
  | .getset g s => ⟨c, e, false, true, .undefined, g, s⟩
  | .varRef cell => ⟨c, e, true, false, h.varRef cell, none, none⟩

/-- `JS_GetOwnPropertyInternal`. -/
def jsGetOwnPropertyInternal (h : Heap) (p : Ptr) (prop : JSAtom) :
    Heap × Except JSError (Option JSPropertyDescriptor) :=
  match findInstantiated h p prop with
  | (h, .absent) => (h, .ok none)
  | (h, .present c e s) => (h, .ok (some (descriptor h c e s)))
  | (h, .failed) => (h, .error .initializer)

/-! ## Defining a property -/

/-- `JS_CreateProperty`: add the property `prop`, which `p` does not have. -/
def jsCreateProperty (strict : Bool) (h : Heap) (p : Ptr) (prop : JSAtom) (val : JSValue)
    (getter setter : Option Ptr) (flags : PropFlags) : Outcome :=
  if !(h.obj p).extensible then
    throwOrFalse strict flags.toSetFlags notExtensible h
  else if flags.hasGet || flags.hasSet then
    .returned true <| h.setProp p prop ⟨flags.configurable, flags.enumerable,
      .slot (.getset (if flags.hasGet then getter else none)
        (if flags.hasSet then setter else none))⟩
  else
    .returned true <| h.setProp p prop ⟨flags.configurable, flags.enumerable,
      .slot (.value (if flags.hasValue then val else .undefined) flags.writable)⟩

/-- Is the property an accessor? -/
def PropKind.isGetset : PropKind → Bool
  | .slot (.getset _ _) => true
  | _ => false

/-- The writable bit of a property. -/
def PropKind.writable : PropKind → Bool
  | .slot (.value _ w) | .autoinit _ w => w
  | .slot (.getset _ _) => false
  | .slot (.varRef _) => true

/-- `check_define_prop_flags`. -/
def checkDefinePropFlags (pr : JSProperty) (flags : PropFlags) : Bool :=
  let hasAccessor := flags.hasGet || flags.hasSet
  if !pr.configurable && flags.hasConfigurable && flags.configurable then false
  else if !pr.configurable && flags.hasEnumerable && flags.enumerable != pr.enumerable then false
  else if (flags.hasValue || flags.hasWritable || hasAccessor) && !pr.configurable then
    if hasAccessor != pr.kind.isGetset then false
    else if !hasAccessor && !pr.kind.isGetset && !pr.kind.writable then
      !(flags.hasWritable && flags.writable)
    else true
  else true

/-- The change `JS_DefineProperty` makes to the value of an existing property:
the new heap and value, or nothing for a change that is not allowed. -/
def updateSlot (h : Heap) (c : Bool) (s : Slot) (val : JSValue) (getter setter : Option Ptr)
    (flags : PropFlags) : Option (Heap × Slot) :=
  if flags.hasGet || flags.hasSet then
    match s with
    | .getset g st =>
      if !c && (flags.hasGet && getter != g || flags.hasSet && setter != st) then none
      else some (h, .getset (if flags.hasGet then getter else g)
        (if flags.hasSet then setter else st))
    | _ => some (h, .getset (if flags.hasGet then getter else none)
        (if flags.hasSet then setter else none))
  else if flags.hasValue || flags.hasWritable then
    match s with
    | .getset _ _ => some (h, .value (if flags.hasValue then val else .undefined)
        (flags.hasWritable && flags.writable))
    | .varRef cell =>
      let h := if flags.hasValue then h.setVarRef cell val else h
      -- a read-only property is no longer a reference
      if flags.hasWritable && !flags.writable then some (h, .value (h.varRef cell) false)
      else some (h, .varRef cell)
    | .value v w =>
      if !c && !w && flags.hasValue && val != v then none
      else some (h, .value (if flags.hasValue then val else v)
        (if flags.hasWritable then flags.writable else w))
  else some (h, s)

/-- `JS_DefineProperty`. The flags are checked before a lazily initialised
property is instantiated, and again, with the same result, on the retry. -/
def jsDefineProperty (strict : Bool) (h : Heap) (p : Ptr) (prop : JSAtom) (val : JSValue)
    (getter setter : Option Ptr) (flags : PropFlags) : Outcome :=
  match h.findOwnProperty p prop with
  | none => jsCreateProperty strict h p prop val getter setter flags
  | some pr =>
    if !checkDefinePropFlags pr flags then throwOrFalse strict flags.toSetFlags notConfigurable h
    else match findInstantiated h p prop with
    | (h, .present c e s) =>
      match updateSlot h c s val getter setter flags with
      | none => throwOrFalse strict flags.toSetFlags notConfigurable h
      | some (h, s) =>
        .returned true <| h.setProp p prop
          ⟨if flags.hasConfigurable then flags.configurable else c,
           if flags.hasEnumerable then flags.enumerable else e, .slot s⟩
    | (h, _) => .exception .initializer h

end QuickJs.Property
