import QuickJs.Property
import Mathlib.Data.List.Basic

/-!
# Proxies

The internal methods of a proxy. A handler has a trap for each of them, and a target its own
methods; both run code of the program, so they are actions on a state that is not looked into. As
the methods of a proxy are methods again, a target can be a proxy itself. An action that throws has
no result.
-/

namespace QuickJs.Proxy

open Property

variable {σ α β : Type}

abbrev Act (σ α : Type) := σ → Option (α × σ)

/-- The arguments of `JS_DefineProperty`. -/
structure DefineArgs where
  val : JSValue
  getter : Option Ptr
  setter : Option Ptr
  flags : PropFlags

/-- The internal methods of an object, and its field `extensible`. -/
structure Methods (σ : Type) where
  extensible : σ → Bool
  getPrototypeOf : Act σ (Option Ptr)
  setPrototypeOf : Option Ptr → Bool → Act σ Bool
  isExtensible : Act σ Bool
  preventExtensions : Act σ Bool
  getOwnProperty : JSAtom → Act σ (Option JSPropertyDescriptor)
  defineOwnProperty : JSAtom → DefineArgs → Act σ Bool
  hasProperty : JSAtom → Act σ Bool
  get : JSAtom → JSValue → Act σ JSValue
  set : JSAtom → JSValue → JSValue → Bool → Act σ Bool
  delete : JSAtom → Act σ Bool
  ownKeys : Act σ (List JSAtom)

/-- The fields of an object that describes a property. -/
structure DescObject where
  configurable : Option Bool
  writable : Option Bool
  enumerable : Option Bool
  value : Option JSValue
  getter : Option (Option Ptr)
  setter : Option (Option Ptr)

/-- What the trap `getOwnPropertyDescriptor` returns. The fields of an object are read later. -/
inductive TrapDesc (σ : Type)
  | undefined
  | object (fields : Act σ DescObject)
  | other

/-- The lookup of a trap, which can be undefined, and then its call. -/
abbrev Trap (σ α : Type) := Act σ (Option (Act σ α))

structure Handler (σ : Type) where
  isRevoked : σ → Bool
  /-- an object or null, or another value -/
  getPrototypeOf : Trap σ (Option (Option Ptr))
  setPrototypeOf : Option Ptr → Trap σ Bool
  isExtensible : Trap σ Bool
  preventExtensions : Trap σ Bool
  getOwnPropertyDescriptor : JSAtom → Trap σ (TrapDesc σ)
  defineProperty : JSAtom → DefineArgs → Trap σ Bool
  has : JSAtom → Trap σ Bool
  get : JSAtom → JSValue → Trap σ JSValue
  set : JSAtom → JSValue → JSValue → Trap σ Bool
  deleteProperty : JSAtom → Trap σ Bool
  /-- the list of the keys, if all are strings or symbols -/
  ownKeys : Trap σ (List JSAtom)

/-- Call a trap and check what it returns, or call the method of the target. -/
def withTrap (trap : Trap σ α) (forward : Act σ β) (check : α → Act σ β) : Act σ β := fun s =>
  match trap s with
  | none => none
  | some (none, s) => forward s
  | some (some method, s) =>
    match method s with
    | none => none
    | some (ret, s) => check ret s

/-- `js_obj_to_desc` after it has read the fields. -/
def jsObjToDesc (d : DescObject) : Option DefineArgs :=
  if (d.getter.isSome || d.setter.isSome) && (d.value.isSome || d.writable.isSome) then none else
    some {
      val := d.value.getD .undefined
      getter := d.getter.getD none
      setter := d.setter.getD none
      flags := {
        hasConfigurable := d.configurable.isSome, configurable := d.configurable.getD false
        hasWritable := d.writable.isSome, writable := d.writable.getD false
        hasEnumerable := d.enumerable.isSome, enumerable := d.enumerable.getD false
        hasValue := d.value.isSome, hasGet := d.getter.isSome, hasSet := d.setter.isSome } }

/-- The descriptor that `js_obj_to_desc` leaves behind: its flags are never `JS_PROP_GETSET`. -/
def DefineArgs.desc (a : DefineArgs) : JSPropertyDescriptor :=
  ⟨a.flags.configurable, a.flags.enumerable, a.flags.writable, false, a.val, a.getter, a.setter⟩

/-- `check_define_prop_flags`. -/
def checkDefinePropFlags (prop : JSPropertyDescriptor) (flags : PropFlags) : Bool :=
  let hasAccessor := flags.hasGet || flags.hasSet
  if !prop.configurable && flags.hasConfigurable && flags.configurable then false
  else if !prop.configurable && flags.hasEnumerable && flags.enumerable != prop.enumerable then false
  else if (flags.hasValue || flags.hasWritable || hasAccessor) && !prop.configurable then
    if hasAccessor != prop.getset then false
    else if !hasAccessor && !prop.getset && !prop.writable then !(flags.hasWritable && flags.writable)
    else true
  else true

/-! ## The methods -/

variable (h : Handler σ) (target : Methods σ)

/-- `js_proxy_getPrototypeOf`. -/
def jsProxyGetPrototypeOf : Act σ (Option Ptr) :=
  withTrap h.getPrototypeOf target.getPrototypeOf fun ret s =>
    match ret with
    | none => none
    | some ret =>
      match target.isExtensible s with
      | none => none
      | some (true, s) => some (ret, s)
      | some (false, s) =>
        match target.getPrototypeOf s with
        | none => none
        | some (proto1, s) => if proto1 ≠ ret then none else some (ret, s)

/-- `js_proxy_setPrototypeOf`. -/
def jsProxySetPrototypeOf (proto : Option Ptr) (throwFlag : Bool) : Act σ Bool :=
  withTrap (h.setPrototypeOf proto) (target.setPrototypeOf proto throwFlag) fun res s =>
    if !res then if throwFlag then none else some (false, s)
    else
      match target.isExtensible s with
      | none => none
      | some (true, s) => some (true, s)
      | some (false, s) =>
        match target.getPrototypeOf s with
        | none => none
        | some (proto1, s) => if proto ≠ proto1 then none else some (true, s)

/-- `js_proxy_isExtensible`. -/
def jsProxyIsExtensible : Act σ Bool :=
  withTrap h.isExtensible target.isExtensible fun res s =>
    match target.isExtensible s with
    | none => none
    | some (res2, s) => if res ≠ res2 then none else some (res, s)

/-- `js_proxy_preventExtensions`. -/
def jsProxyPreventExtensions : Act σ Bool :=
  withTrap h.preventExtensions target.preventExtensions fun res s =>
    if res then
      match target.isExtensible s with
      | none => none
      | some (res2, s) => if res2 then none else some (res, s)
    else some (res, s)

/-- `js_proxy_has`. -/
def jsProxyHas (atom : JSAtom) : Act σ Bool :=
  withTrap (h.has atom) (target.hasProperty atom) fun ret s =>
    if !ret then
      match target.getOwnProperty atom s with
      | none => none
      | some (none, s) => some (ret, s)
      | some (some desc, s) =>
        if !desc.configurable || !target.extensible s then none else some (ret, s)
    else some (ret, s)

/-- `js_proxy_get`. -/
def jsProxyGet (atom : JSAtom) (receiver : JSValue) : Act σ JSValue :=
  withTrap (h.get atom receiver) (target.get atom receiver) fun ret s =>
    match target.getOwnProperty atom s with
    | none => none
    | some (none, s) => some (ret, s)
    | some (some desc, s) =>
      if !desc.getset && !desc.configurable && !desc.writable then
        if desc.value ≠ ret then none else some (ret, s)
      else if desc.getset && !desc.configurable then
        if desc.getter = none ∧ ret ≠ .undefined then none else some (ret, s)
      else some (ret, s)

/-- `js_proxy_set`. -/
def jsProxySet (atom : JSAtom) (value receiver : JSValue) (throws : Bool) : Act σ Bool :=
  withTrap (h.set atom value receiver) (target.set atom value receiver throws) fun ret s =>
    if ret then
      match target.getOwnProperty atom s with
      | none => none
      | some (none, s) => some (ret, s)
      | some (some desc, s) =>
        if !desc.getset && !desc.configurable && !desc.writable then
          if desc.value ≠ value then none else some (ret, s)
        else if desc.getset && !desc.configurable && desc.setter.isNone then none
        else some (ret, s)
    else if throws then none else some (ret, s)

/-- The flags of a reported descriptor as those of a definition. As they are never `JS_PROP_GETSET`,
a value is always added to them. -/
def reportedFlags (flags : PropFlags) : PropFlags :=
  { flags with hasConfigurable := true, hasEnumerable := true, hasValue := true, hasWritable := true }

/-- `js_proxy_get_own_property` after it has read the reported descriptor. -/
def checkReported (targetDesc : Option JSPropertyDescriptor) (extensibleTarget : Bool)
    (result : DefineArgs) : Bool :=
  (match targetDesc with
    | some targetDesc => checkDefinePropFlags targetDesc (reportedFlags result.flags)
    | none => extensibleTarget) &&
  (result.flags.configurable ||
    match targetDesc with
    | some targetDesc => !targetDesc.configurable && !(!result.flags.writable && targetDesc.writable)
    | none => false)

/-- `js_proxy_get_own_property`. -/
def jsProxyGetOwnProperty (prop : JSAtom) : Act σ (Option JSPropertyDescriptor) :=
  withTrap (h.getOwnPropertyDescriptor prop) (target.getOwnProperty prop) fun ret s =>
    match ret with
    | .other => none
    | .undefined =>
      match target.getOwnProperty prop s with
      | none => none
      | some (none, s) => some (none, s)
      | some (some targetDesc, s) =>
        if !targetDesc.configurable || !target.extensible s then none else some (none, s)
    | .object fields =>
      match target.getOwnProperty prop s with
      | none => none
      | some (targetDesc, s) =>
        match target.isExtensible s with
        | none => none
        | some (extensibleTarget, s) =>
          match fields s with
          | none => none
          | some (d, s) =>
            match jsObjToDesc d with
            | none => none
            | some result =>
              if checkReported targetDesc extensibleTarget result then some (some result.desc, s)
              else none

/-- `js_proxy_define_own_property` after the property of the target has been found. -/
def checkDefined (desc : JSPropertyDescriptor) (a : DefineArgs) : Bool :=
  let settingNotConfigurable := a.flags.hasConfigurable && !a.flags.configurable
  checkDefinePropFlags desc a.flags && !(desc.configurable && settingNotConfigurable) &&
  (if a.flags.hasGet || a.flags.hasSet then
    !(desc.getset && !desc.configurable) ||
      !(a.flags.hasGet && a.getter != desc.getter) && !(a.flags.hasSet && a.setter != desc.setter)
  else if a.flags.hasValue then
    !(!desc.configurable && desc.writable && !a.flags.writable) &&
      !(!desc.configurable && !desc.writable && a.val != desc.value)
  else true) &&
  !(a.flags.hasWritable && !desc.getset && !desc.configurable && desc.writable)

/-- `js_proxy_define_own_property`. -/
def jsProxyDefineOwnProperty (prop : JSAtom) (a : DefineArgs) : Act σ Bool :=
  withTrap (h.defineProperty prop a) (target.defineOwnProperty prop a) fun ret s =>
    if !ret then if a.flags.throw then none else some (false, s)
    else
      match target.getOwnProperty prop s with
      | none => none
      | some (none, s) =>
        if !target.extensible s || (a.flags.hasConfigurable && !a.flags.configurable) then none
        else some (true, s)
      | some (some desc, s) => if checkDefined desc a then some (true, s) else none

/-- `js_proxy_delete_property`. -/
def jsProxyDelete (atom : JSAtom) : Act σ Bool :=
  withTrap (h.deleteProperty atom) (target.delete atom) fun res s =>
    if res then
      match target.getOwnProperty atom s with
      | none => none
      | some (none, s) => some (res, s)
      | some (some desc, s) =>
        if !desc.configurable then none
        else
          match target.isExtensible s with
          | none => none
          | some (isExtensible, s) => if !isExtensible then none else some (res, s)
    else some (res, s)

/-- Throw if the proxy has been revoked. -/
def unlessRevoked (x : Act σ α) : Act σ α := fun s => if h.isRevoked s then none else x s

/-- The loop of `js_proxy_get_own_property_names` over the keys of the target. The keys that it
marks come with the result. -/
def checkKeys (tab : List JSAtom) (isExtensible : Bool) : List JSAtom → Act σ (List JSAtom)
  | [], s => some ([], s)
  | atom :: tab2, s =>
    match unlessRevoked h (target.getOwnProperty atom) s with
    | none => none
    | some (none, s) => checkKeys tab isExtensible tab2 s
    | some (some desc, s) =>
      if (!desc.configurable || !isExtensible) && !tab.contains atom then none
      else
        match checkKeys tab isExtensible tab2 s with
        | none => none
        | some (marked, s) =>
          some (if !isExtensible then atom :: marked else marked, s)

/-- `js_proxy_get_own_property_names`. -/
def jsProxyOwnKeys : Act σ (List JSAtom) :=
  withTrap h.ownKeys target.ownKeys fun tab s =>
    if !tab.Nodup then none
    else
      match target.isExtensible s with
      | none => none
      | some (isExtensible, s) =>
        match unlessRevoked h target.ownKeys s with
        | none => none
        | some (tab2, s) =>
          match checkKeys h target tab isExtensible tab2 s with
          | none => none
          | some (marked, s) =>
            if !isExtensible && !tab.all marked.contains then none else some (tab, s)

/-- The methods of a proxy. Its own field `extensible` is never cleared. -/
def methods : Methods σ where
  extensible _ := true
  getPrototypeOf := jsProxyGetPrototypeOf h target
  setPrototypeOf := jsProxySetPrototypeOf h target
  isExtensible := jsProxyIsExtensible h target
  preventExtensions := jsProxyPreventExtensions h target
  getOwnProperty := jsProxyGetOwnProperty h target
  defineOwnProperty := jsProxyDefineOwnProperty h target
  hasProperty := jsProxyHas h target
  get := jsProxyGet h target
  set := jsProxySet h target
  delete := jsProxyDelete h target
  ownKeys := jsProxyOwnKeys h target

/-! ## The invariants -/

/-- The operations on a proxy. -/
inductive Op
  | getPrototypeOf
  | setPrototypeOf (proto : Option Ptr) (throwFlag : Bool)
  | isExtensible
  | preventExtensions
  | has (atom : JSAtom)
  | get (atom : JSAtom) (receiver : JSValue)
  | set (atom : JSAtom) (value receiver : JSValue) (throws : Bool)
  | getOwnProperty (prop : JSAtom)
  | defineOwnProperty (prop : JSAtom) (a : DefineArgs)
  | delete (atom : JSAtom)
  | ownKeys

/-- The trap is there, and has returned something in a state, which is the one of the checks. -/
def Returned (trap : Trap σ α) (s : σ) (ret : α) (t : σ) : Prop :=
  ∃ method s1, trap s = some (some method, s1) ∧ method s1 = some (ret, t)

/-- A property that is reported absent is configurable, and the target is extensible. -/
def AbsentRight (prop : JSAtom) (t : σ) : Prop :=
  ∀ d t1, target.getOwnProperty prop t = some (some d, t1) →
    d.configurable = true ∧ ∀ ext t2, target.isExtensible t1 = some (ext, t2) → ext = true

/-- A property is reported configurable if and only if the one of the target is, and otherwise
with its getter, setter or read-only value. -/
def PresentRight (d r : JSPropertyDescriptor) : Prop :=
  r.configurable = d.configurable ∧ (d.configurable = false → r.getset = d.getset ∧
    (d.getset = true → r.getter = d.getter ∧ r.setter = d.setter) ∧
    (d.getset = false → d.writable = false → r.writable = false ∧ r.value = d.value))

/-- What has been defined agrees with the property of the target. -/
def DefinedRight (d : JSPropertyDescriptor) (a : DefineArgs) : Prop :=
  (a.flags.hasConfigurable = true → a.flags.configurable = false → d.configurable = false) ∧
  (d.configurable = false → (a.flags.hasConfigurable = true → a.flags.configurable = false) ∧
    (a.flags.hasGet = true → d.getset = true ∧ a.getter = d.getter) ∧
    (a.flags.hasSet = true → d.getset = true ∧ a.setter = d.setter) ∧
    (a.flags.hasGet = false → a.flags.hasSet = false → a.flags.hasValue = true →
      d.getset = false ∧ (d.writable = false → a.val = d.value)))

/-- The properties of some keys, as long as the proxy has not been revoked. -/
def descs : List JSAtom → Act σ (List (JSAtom × Option JSPropertyDescriptor))
  | [], s => some ([], s)
  | atom :: tab2, s =>
    match unlessRevoked h (target.getOwnProperty atom) s with
    | none => none
    | some (d, s) =>
      match descs tab2 s with
      | none => none
      | some (ds, s) => some ((atom, d) :: ds, s)

/-- After a trap, a result of an operation does not contradict the target. -/
def Consistent (s : σ) : Op → Prop
  | .getPrototypeOf => ∀ ret t r s', Returned h.getPrototypeOf s ret t →
    jsProxyGetPrototypeOf h target s = some (r, s') → ∀ p t1 t2,
    target.isExtensible t = some (false, t1) → target.getPrototypeOf t1 = some (p, t2) → r = p
  | .setPrototypeOf proto throwFlag => ∀ ret t s', Returned (h.setPrototypeOf proto) s ret t →
    jsProxySetPrototypeOf h target proto throwFlag s = some (true, s') → ∀ p t1 t2,
    target.isExtensible t = some (false, t1) → target.getPrototypeOf t1 = some (p, t2) → proto = p
  | .isExtensible => ∀ ret t r s', Returned h.isExtensible s ret t →
    jsProxyIsExtensible h target s = some (r, s') → ∀ ext t1, target.isExtensible t = some (ext, t1) →
    r = ext
  | .preventExtensions => ∀ ret t s', Returned h.preventExtensions s ret t →
    jsProxyPreventExtensions h target s = some (true, s') → ∀ ext t1,
    target.isExtensible t = some (ext, t1) → ext = false
  | .has atom => ∀ ret t s', Returned (h.has atom) s ret t →
    jsProxyHas h target atom s = some (false, s') → AbsentRight target atom t
  | .get atom receiver => ∀ ret t r s', Returned (h.get atom receiver) s ret t →
    jsProxyGet h target atom receiver s = some (r, s') → ∀ d t1,
    target.getOwnProperty atom t = some (some d, t1) → d.configurable = false →
    (d.getset = true → d.getter = none → r = .undefined) ∧
      (d.getset = false → d.writable = false → r = d.value)
  | .set atom value receiver throws => ∀ ret t s', Returned (h.set atom value receiver) s ret t →
    jsProxySet h target atom value receiver throws s = some (true, s') → ∀ d t1,
    target.getOwnProperty atom t = some (some d, t1) → d.configurable = false →
    (d.getset = true → d.setter ≠ none) ∧ (d.getset = false → d.writable = false → value = d.value)
  | .getOwnProperty prop => ∀ ret t r s', Returned (h.getOwnPropertyDescriptor prop) s ret t →
    jsProxyGetOwnProperty h target prop s = some (r, s') →
    match r with
    | none => AbsentRight target prop t
    | some r => ∀ d t1, target.getOwnProperty prop t = some (d, t1) → match d with
      | some d => PresentRight d r
      | none => r.configurable = true ∧ ∀ ext t2, target.isExtensible t1 = some (ext, t2) → ext = true
  | .defineOwnProperty prop a => ∀ ret t s', Returned (h.defineProperty prop a) s ret t →
    jsProxyDefineOwnProperty h target prop a s = some (true, s') → ∀ d t1,
    target.getOwnProperty prop t = some (d, t1) →
    match d with
    | some d => DefinedRight d a
    | none => (a.flags.hasConfigurable = true → a.flags.configurable = true) ∧
      ∀ ext t2, target.isExtensible t1 = some (ext, t2) → ext = true
  | .delete atom => ∀ ret t s', Returned (h.deleteProperty atom) s ret t →
    jsProxyDelete h target atom s = some (true, s') → AbsentRight target atom t
  | .ownKeys => ∀ ret t r s', Returned h.ownKeys s ret t → jsProxyOwnKeys h target s = some (r, s') →
    ∀ ext t1 tab2 t2 ds t3, target.isExtensible t = some (ext, t1) →
    unlessRevoked h target.ownKeys t1 = some (tab2, t2) → descs h target tab2 t2 = some (ds, t3) →
    (∀ atom d, (atom, some d) ∈ ds → d.configurable = false → atom ∈ r) ∧
      (ext = false → ∀ atom, atom ∈ r ↔ atom ∈ tab2)

/-- A target that has a configurable property is extensible if its own field says so. -/
def FieldTells (prop : JSAtom) (t : σ) : Prop :=
  ∀ d t1 t2, target.getOwnProperty prop t = some (some d, t1) → d.configurable = true →
    target.extensible t1 = true → target.isExtensible t1 ≠ some (false, t2)

/-- What the checks leave out: an object that describes a property which is not configurable does not
describe an accessor, and has the read-only value; the field `extensible` of the target tells
whether it is extensible, where the code looks at the field; and a target that is not extensible has
the keys that it lists. -/
def When (s : σ) : Op → Prop
  | .has atom => ∀ t, Returned (h.has atom) s false t → FieldTells target atom t
  | .getOwnProperty prop =>
    (∀ t, Returned (h.getOwnPropertyDescriptor prop) s .undefined t → FieldTells target prop t) ∧
    ∀ fields t d t1 ext t2 o t3 result,
      Returned (h.getOwnPropertyDescriptor prop) s (.object fields) t →
      target.getOwnProperty prop t = some (some d, t1) → target.isExtensible t1 = some (ext, t2) →
      fields t2 = some (o, t3) → jsObjToDesc o = some result →
      checkReported (some d) ext result = true → d.configurable = false →
      d.getset = false ∧ (d.writable = false → result.val = d.value)
  | .defineOwnProperty prop a => ∀ t t1 t2, Returned (h.defineProperty prop a) s true t →
    target.getOwnProperty prop t = some (none, t1) →
    (a.flags.hasConfigurable = true → a.flags.configurable = true) →
    target.extensible t1 = true → target.isExtensible t1 ≠ some (false, t2)
  | .ownKeys => ∀ tab t t1 tab2 t2 ds t3, Returned h.ownKeys s tab t → tab.Nodup →
    target.isExtensible t = some (false, t1) → unlessRevoked h target.ownKeys t1 = some (tab2, t2) →
    descs h target tab2 t2 = some (ds, t3) → (∀ atom, atom ∈ tab ↔ ∃ d, (atom, some d) ∈ ds) →
    ∀ atom ∈ tab2, ∃ d, (atom, some d) ∈ ds
  | _ => True

/-! ## The checks -/

variable {h target} {s t t1 : σ} {ret : α} {trap : Trap σ α} {forward : Act σ β} {check : α → Act σ β}
  {d r : JSPropertyDescriptor} {a : DefineArgs} {prop : JSAtom}

theorem withTrap_of_returned (hr : Returned trap s ret t) : withTrap trap forward check s = check ret t := by
  obtain ⟨method, s1, htrap, hmethod⟩ := hr
  rw [withTrap, htrap]
  simp only [hmethod]

/-- A field that tells the truth is enough for a check of an absent property. -/
theorem absentRight_iff (hd : ∀ d t1, target.getOwnProperty prop t = some (some d, t1) →
    d.configurable = true ∧ target.extensible t1 = true) :
    AbsentRight target prop t ↔ FieldTells target prop t := by
  constructor
  · intro h d t1 t2 hget _ _ hext
    cases (h d t1 hget).2 false t2 hext
  · intro h d t1 hget
    obtain ⟨hconf, hfield⟩ := hd d t1 hget
    refine ⟨hconf, fun ext t2 hext => ?_⟩
    cases ext with
    | false => exact absurd hext (h d t1 t2 hget hconf hfield)
    | true => rfl

theorem consistent_getPrototypeOf : Consistent h target s .getPrototypeOf := by
  intro ret t r s' hr he p t1 t2 hext hproto
  rw [jsProxyGetPrototypeOf, withTrap_of_returned hr] at he
  cases ret with
  | none => cases he
  | some ret =>
    simp only [hext, hproto] at he
    split at he
    · cases he
    · rename_i hne
      cases he
      exact (not_not.mp hne).symm

theorem consistent_setPrototypeOf {proto : Option Ptr} {throwFlag : Bool} :
    Consistent h target s (.setPrototypeOf proto throwFlag) := by
  intro ret t s' hr he p t1 t2 hext hproto
  rw [jsProxySetPrototypeOf, withTrap_of_returned hr] at he
  cases ret with
  | false => cases throwFlag <;> cases he
  | true =>
    simp only [Bool.not_true, Bool.false_eq_true, if_false, hext, hproto] at he
    split at he
    · cases he
    · rename_i hne
      exact not_not.mp hne

theorem consistent_isExtensible : Consistent h target s .isExtensible := by
  intro ret t r s' hr he ext t1 hext
  rw [jsProxyIsExtensible, withTrap_of_returned hr] at he
  simp only [hext] at he
  split at he
  · cases he
  · rename_i hne
    cases he
    exact not_not.mp hne

theorem consistent_preventExtensions : Consistent h target s .preventExtensions := by
  intro ret t s' hr he ext t1 hext
  rw [jsProxyPreventExtensions, withTrap_of_returned hr] at he
  cases ret with
  | false => cases he
  | true =>
    simp only [hext] at he
    cases ext with
    | false => rfl
    | true => cases he

theorem consistent_get {receiver : JSValue} : Consistent h target s (.get prop receiver) := by
  intro ret t r s' hr he d t1 hget hconf
  rw [jsProxyGet, withTrap_of_returned hr] at he
  simp only [hget, hconf] at he
  cases hset : d.getset with
  | true =>
    refine ⟨fun _ hgetter => ?_, nofun⟩
    simp only [hset, hgetter, Bool.not_true, Bool.false_and, Bool.false_eq_true, if_false,
      Bool.not_false, Bool.and_true, if_true, true_and] at he
    split at he
    · cases he
    · rename_i hne
      cases he
      exact not_not.mp hne
  | false =>
    refine ⟨nofun, fun _ hwritable => ?_⟩
    simp only [hset, hwritable, Bool.not_false, Bool.and_true, if_true] at he
    split at he
    · cases he
    · rename_i hne
      cases he
      exact (not_not.mp hne).symm

theorem consistent_set {value receiver : JSValue} {throws : Bool} :
    Consistent h target s (.set prop value receiver throws) := by
  intro ret t s' hr he d t1 hget hconf
  rw [jsProxySet, withTrap_of_returned hr] at he
  cases ret with
  | false => cases throws <;> cases he
  | true =>
    simp only [hget, hconf] at he
    cases hset : d.getset with
    | true =>
      refine ⟨fun _ hsetter => ?_, nofun⟩
      simp [hset, hsetter] at he
    | false =>
      refine ⟨nofun, fun _ hwritable => ?_⟩
      simp only [hset, hwritable, Bool.not_false, Bool.and_true, if_true] at he
      split at he
      · cases he
      · rename_i hne
        exact (not_not.mp hne).symm

theorem consistent_delete : Consistent h target s (.delete prop) := by
  intro ret t s' hr he d t1 hget
  rw [jsProxyDelete, withTrap_of_returned hr] at he
  cases ret with
  | false => cases he
  | true =>
    simp only [hget] at he
    cases hconf : d.configurable with
    | false =>
      rw [hconf] at he
      cases he
    | true =>
      refine ⟨rfl, fun ext t2 hext => ?_⟩
      simp only [hconf, hext] at he
      cases ext with
      | false => cases he
      | true => rfl

theorem consistent_has_iff : Consistent h target s (.has prop) ↔ When h target s (.has prop) := by
  have hcheck (t : σ) (hr : Returned (h.has prop) s false t) : jsProxyHas h target prop s =
      match target.getOwnProperty prop t with
      | none => none
      | some (none, t1) => some (false, t1)
      | some (some desc, t1) =>
        if !desc.configurable || !target.extensible t1 then none else some (false, t1) :=
    withTrap_of_returned hr
  constructor
  · intro hcons t hr d t1 t2 hget hconf hfield hext
    have he := hcheck t hr
    simp only [hget, hconf, hfield] at he
    cases (hcons false t t1 hr he d t1 hget).2 false t2 hext
  · intro hwhen ret t s' hr he
    cases ret with
    | true =>
      rw [jsProxyHas, withTrap_of_returned hr] at he
      cases he
    | false =>
      refine (absentRight_iff fun d t1 hget => ?_).mpr (hwhen t hr)
      rw [hcheck t hr] at he
      simp only [hget] at he
      split at he
      · cases he
      · rename_i hno
        simpa using hno

/-- What the checks of `check_define_prop_flags` mean for a property that is not configurable. -/
theorem checkDefinePropFlags_iff {flags : PropFlags} (hconf : d.configurable = false) :
    checkDefinePropFlags d flags = true ↔ (flags.hasConfigurable = true → flags.configurable = false) ∧
      (flags.hasEnumerable = true → flags.enumerable = d.enumerable) ∧
      (flags.hasValue = true ∨ flags.hasWritable = true ∨ flags.hasGet = true ∨ flags.hasSet = true →
        (flags.hasGet || flags.hasSet) = d.getset ∧
        (d.getset = false → d.writable = false → flags.hasWritable = true → flags.writable = false)) := by
  simp only [checkDefinePropFlags]
  grind

variable {ext : Bool} {ds : List (JSAtom × Option JSPropertyDescriptor)} {atom : JSAtom}
  {tab2 tab : List JSAtom} {t3 : σ}

theorem checkReported_configurable (hc : checkReported (some d) ext a = true) :
    a.flags.configurable = d.configurable := by
  simp only [checkReported, Bool.and_eq_true] at hc
  cases hconf : d.configurable with
  | true => simpa [hconf] using hc.2
  | false => exact ((checkDefinePropFlags_iff hconf).mp hc.1).1 rfl

/-- The checks for a reported property leave out accessors and values. -/
theorem presentRight_iff (hc : checkReported (some d) ext a = true) :
    PresentRight d a.desc ↔ (d.configurable = false →
      d.getset = false ∧ (d.writable = false → a.val = d.value)) := by
  rw [PresentRight, and_iff_right (show a.desc.configurable = _ from checkReported_configurable hc)]
  refine forall_congr' fun hconf => ?_
  simp only [checkReported, Bool.and_eq_true] at hc
  obtain ⟨-, -, haccess⟩ := (checkDefinePropFlags_iff hconf).mp hc.1
  obtain ⟨-, hwritable⟩ := haccess (.inl rfl)
  constructor
  · rintro ⟨hset, -, hval⟩
    exact ⟨hset.symm, fun hw => (hval hset.symm hw).2⟩
  · rintro ⟨hset, hval⟩
    refine ⟨hset.symm, fun hset' => ?_, fun _ hw => ⟨hwritable hset hw rfl, hval hw⟩⟩
    rw [hset] at hset'
    cases hset'

theorem consistent_getOwnProperty_iff :
    Consistent h target s (.getOwnProperty prop) ↔ When h target s (.getOwnProperty prop) := by
  constructor
  · intro hcons
    constructor
    · intro t hr d t1 t2 hget hconf hfield hext
      have he : jsProxyGetOwnProperty h target prop s = some (none, t1) := by
        rw [jsProxyGetOwnProperty, withTrap_of_returned hr]
        simp [hget, hconf, hfield]
      cases (hcons _ t none t1 hr he d t1 hget).2 false t2 hext
    · intro fields t d t1 ext t2 o t3 result hr hget hext hfields hdesc hc hconf
      have he : jsProxyGetOwnProperty h target prop s = some (some result.desc, t3) := by
        rw [jsProxyGetOwnProperty, withTrap_of_returned hr]
        simp only [hget, hext, hfields, hdesc, hc, if_true]
      exact (presentRight_iff hc).mp (hcons _ t (some _) t3 hr he (some d) t1 hget) hconf
  · rintro ⟨habsent, hpresent⟩ ret t r s' hr he
    rw [jsProxyGetOwnProperty, withTrap_of_returned hr] at he
    cases ret with
    | other => cases he
    | undefined =>
      simp only at he
      split at he
      · cases he
      · rename_i t1 hget
        cases he
        rintro d t2 hget'
        cases hget.symm.trans hget'
      · rename_i d t1 hget
        split at he
        · cases he
        rename_i hno
        cases he
        refine (absentRight_iff fun d' t1' hget' => ?_).mpr (habsent t hr)
        cases hget.symm.trans hget'
        simpa using hno
    | object fields =>
      simp only at he
      split at he
      · cases he
      rename_i d t1 hget
      split at he
      · cases he
      rename_i ext t2 hext
      split at he
      · cases he
      rename_i o t3 hfields
      split at he
      · cases he
      rename_i result hdesc
      split at he
      · rename_i hc
        cases he
        intro d' t1' hget'
        cases hget.symm.trans hget'
        cases d with
        | some d =>
          exact (presentRight_iff hc).mpr (hpresent fields t d t1 ext t2 o _ result hr hget hext hfields hdesc hc)
        | none =>
          simp only [checkReported, Bool.and_eq_true, Bool.or_false] at hc
          refine ⟨hc.2, fun ext' t2' hext' => ?_⟩
          cases hext.symm.trans hext'
          exact hc.1
      · cases he

theorem definedRight_of_checkDefined (hc : checkDefined d a = true) : DefinedRight d a := by
  simp only [checkDefined, Bool.and_eq_true] at hc
  obtain ⟨⟨⟨hflags, hsetting⟩, haccess⟩, -⟩ := hc
  constructor
  · intro hhas hconf
    simpa [hhas, hconf] using hsetting
  · intro hconf
    obtain ⟨hc, -, hkind⟩ := (checkDefinePropFlags_iff hconf).mp hflags
    refine ⟨hc, fun hget => ?_, fun hset => ?_, fun hget hset hval => ?_⟩
    · have hgetset : d.getset = true := by simpa [hget] using (hkind (.inr (.inr (.inl hget)))).1
      simp [hget, hgetset, hconf] at haccess
      exact ⟨hgetset, haccess.1⟩
    · have hgetset : d.getset = true := by simpa [hset] using (hkind (.inr (.inr (.inr hset)))).1
      simp [hset, hgetset, hconf] at haccess
      exact ⟨hgetset, haccess.2⟩
    · have hgetset : d.getset = false := by simpa [hget, hset] using (hkind (.inl hval)).1
      refine ⟨hgetset, fun hwritable => ?_⟩
      simpa [hget, hset, hval, hconf, hwritable] using haccess

theorem consistent_defineOwnProperty_iff : Consistent h target s (.defineOwnProperty prop a) ↔
      When h target s (.defineOwnProperty prop a) := by
  constructor
  · intro hcons t t1 t2 hr hget hflags hfield hext
    have he : jsProxyDefineOwnProperty h target prop a s = some (true, t1) := by
      rw [jsProxyDefineOwnProperty, withTrap_of_returned hr]
      simp only [hget, hfield]
      simpa using hflags
    cases (hcons true t t1 hr he none t1 hget).2 false t2 hext
  · intro hwhen ret t s' hr he d t1 hget
    rw [jsProxyDefineOwnProperty, withTrap_of_returned hr] at he
    cases ret with
    | false => cases hthrow : a.flags.throw <;> simp at he
    | true =>
      simp only [Bool.not_true, Bool.false_eq_true, if_false, hget] at he
      cases d with
      | some d =>
        simp only at he
        split at he
        · rename_i hc
          exact definedRight_of_checkDefined hc
        · cases he
      | none =>
        simp only at he
        split at he
        · cases he
        · rename_i hno
          rw [Bool.or_eq_true, not_or] at hno
          have hflags : a.flags.hasConfigurable = true → a.flags.configurable = true := by
            simpa using hno.2
          refine ⟨hflags, fun ext t2 hext => ?_⟩
          cases ext with
          | false => exact absurd hext (hwhen t t1 t2 hr hget hflags (by simpa using hno.1))
          | true => rfl

/-- The keys that a target has. -/
def foundKeys (ds : List (JSAtom × Option JSPropertyDescriptor)) : List JSAtom :=
  ds.filterMap fun p => p.2.map fun _ => p.1

theorem mem_foundKeys_iff : atom ∈ foundKeys ds ↔ ∃ d, (atom, some d) ∈ ds := by
  rw [foundKeys, List.mem_filterMap]
  constructor
  · rintro ⟨⟨k, d⟩, hmem, hk⟩
    cases d with
    | none => cases hk
    | some d =>
      cases hk
      exact ⟨d, hmem⟩
  · rintro ⟨d, hmem⟩
    exact ⟨_, hmem, rfl⟩

theorem descs_cons (hds : descs h target (atom :: tab2) t = some (ds, t3)) :
    ∃ d t1 ds2, unlessRevoked h (target.getOwnProperty atom) t = some (d, t1) ∧
      descs h target tab2 t1 = some (ds2, t3) ∧ ds = (atom, d) :: ds2 := by
  rw [descs] at hds
  split at hds
  · cases hds
  rename_i d t1 hget
  split at hds
  · cases hds
  rename_i ds2 t2 hrest
  cases hds
  exact ⟨d, t1, ds2, hget, hrest, rfl⟩

theorem mem_of_descs {p : JSAtom × Option JSPropertyDescriptor} (hds : descs h target tab2 t = some (ds, t3))
    (hp : p ∈ ds) : p.1 ∈ tab2 := by
  induction tab2 generalizing t ds with
  | nil =>
    cases hds
    cases hp
  | cons atom tab2 ih =>
    obtain ⟨d, t1, ds2, -, hrest, rfl⟩ := descs_cons hds
    rcases List.mem_cons.mp hp with rfl | hp
    · exact List.mem_cons_self
    · exact List.mem_cons_of_mem _ (ih hrest hp)

/-- The keys of the target that have to be reported are. -/
def Covers (tab : List JSAtom) (ext : Bool) (ds : List (JSAtom × Option JSPropertyDescriptor)) : Prop :=
  ∀ atom d, (atom, some d) ∈ ds → (d.configurable = false ∨ ext = false) → atom ∈ tab

theorem covers_cons_none
    :
    Covers tab ext ((atom, none) :: ds) ↔ Covers tab ext ds := by
  refine forall₂_congr fun k d => ?_
  rw [List.mem_cons, or_iff_right nofun]

theorem covers_cons_some
    :
    Covers tab ext ((atom, some d) :: ds) ↔
      ((d.configurable = false ∨ ext = false) → atom ∈ tab) ∧ Covers tab ext ds := by
  constructor
  · intro hc
    exact ⟨hc atom d List.mem_cons_self, fun k d' hmem => hc k d' (List.mem_cons_of_mem _ hmem)⟩
  · rintro ⟨hhead, htail⟩ k d' hmem
    rcases List.mem_cons.mp hmem with heq | hmem
    · cases heq
      exact hhead
    · exact htail k d' hmem

/-- The loop over the keys comes to its end if all keys are there that have to be, and marks the keys
of a target that is not extensible. -/
theorem checkKeys_of_descs (hds : descs h target tab2 t = some (ds, t3)) (hc : Covers tab ext ds) :
    checkKeys h target tab ext tab2 t = some (if ext then [] else foundKeys ds, t3) := by
  induction tab2 generalizing t ds with
  | nil =>
    cases hds
    cases ext <;> rfl
  | cons atom tab2 ih =>
    obtain ⟨d, t1, ds2, hget, hrest, rfl⟩ := descs_cons hds
    rw [checkKeys, hget]
    cases d with
    | none =>
      have hmarks := ih hrest (covers_cons_none.mp hc)
      exact hmarks
    | some d =>
      obtain ⟨hhead, htail⟩ := covers_cons_some.mp hc
      have hmem : ((!d.configurable || !ext) && !tab.contains atom) = false := by
        rw [Bool.and_eq_false_iff, Bool.not_eq_false', List.contains_iff_mem]
        by_cases hneed : d.configurable = false ∨ ext = false
        · exact .inr (hhead hneed)
        · rw [not_or] at hneed
          exact .inl (by simp [hneed])
      simp only [hmem, ih hrest htail]
      cases ext <;> rfl

theorem descs_of_checkKeys {marked : List JSAtom}
    (hk : checkKeys h target tab ext tab2 t = some (marked, t3)) :
    ∃ ds, descs h target tab2 t = some (ds, t3) ∧ Covers tab ext ds := by
  induction tab2 generalizing t marked with
  | nil =>
    cases hk
    exact ⟨[], rfl, nofun⟩
  | cons atom tab2 ih =>
    rw [checkKeys] at hk
    rw [descs]
    split at hk
    · cases hk
    · rename_i t1 hget
      obtain ⟨ds, hds, hc⟩ := ih hk
      simp only [hget, hds]
      exact ⟨_, rfl, covers_cons_none.mpr hc⟩
    · rename_i d t1 hget
      split at hk
      · cases hk
      rename_i hmem
      split at hk
      · cases hk
      rename_i marked' t2 hrest
      cases hk
      obtain ⟨ds, hds, hc⟩ := ih hrest
      simp only [hget, hds]
      refine ⟨_, rfl, covers_cons_some.mpr ⟨fun hneed => ?_, hc⟩⟩
      by_contra hno
      refine hmem ?_
      simp [hneed, hno]

/-- The keys of a target that is not extensible are all marked, or the result is refused. -/
theorem consistent_ownKeys_iff : Consistent h target s .ownKeys ↔ When h target s .ownKeys := by
  constructor
  · intro hcons tab t t1 tab2 t2 ds t3 hr hnodup hext hkeys hds hiff atom hatom
    have hc : Covers tab false ds := fun k d hmem _ => (hiff k).mpr ⟨d, hmem⟩
    have he : jsProxyOwnKeys h target s = some (tab, t3) := by
      rw [jsProxyOwnKeys, withTrap_of_returned hr]
      have hall : tab.all (foundKeys ds).contains = true := by
        rw [List.all_eq_true]
        intro k hk
        rw [List.contains_iff_mem, mem_foundKeys_iff]
        exact (hiff k).mp hk
      simp [hnodup, hext, hkeys, checkKeys_of_descs hds hc, hall]
    exact (hiff atom).mp (((hcons tab t tab t3 hr he false t1 tab2 t2 ds t3 hext hkeys hds).2 rfl
      atom).mpr hatom)
  · intro hwhen tab t r s' hr he ext t1 tab2 t2 ds t3 hext hkeys hds
    rw [jsProxyOwnKeys, withTrap_of_returned hr] at he
    simp only [hext, hkeys] at he
    split at he
    · cases he
    rename_i hnodup
    rw [Bool.not_eq_true', decide_eq_false_iff_not, not_not] at hnodup
    split at he
    · cases he
    rename_i marked t4 hmarks
    split at he
    · cases he
    rename_i hall
    cases he
    obtain ⟨ds', hds', hc⟩ := descs_of_checkKeys hmarks
    cases hds.symm.trans hds'
    refine ⟨fun k d hmem hconf => hc k d hmem (.inl hconf), ?_⟩
    rintro rfl
    cases hmarks.symm.trans (checkKeys_of_descs hds hc)
    have hiff (k : JSAtom) : k ∈ tab ↔ ∃ d, (k, some d) ∈ ds := by
      refine ⟨fun hk => ?_, fun ⟨d, hmem⟩ => hc k d hmem (.inr rfl)⟩
      have hfound : ∀ x ∈ tab, x ∈ foundKeys ds := by simpa using hall
      exact mem_foundKeys_iff.mp (hfound k hk)
    intro k
    refine ⟨fun hk => ?_, fun hk => (hiff k).mpr ?_⟩
    · obtain ⟨d, hmem⟩ := (hiff k).mp hk
      exact mem_of_descs hds hmem
    · exact hwhen tab t t1 tab2 t2 ds _ hr hnodup hext hkeys hds hiff k hk

/-! ## Which results do not contradict the target -/

/-- The checks of a proxy are those of its invariants, up to what they leave out. -/
theorem consistent_iff (h : Handler σ) (target : Methods σ) (s : σ) (op : Op) :
    Consistent h target s op ↔ When h target s op := by
  cases op with
  | getPrototypeOf => exact iff_of_true consistent_getPrototypeOf trivial
  | setPrototypeOf proto throwFlag => exact iff_of_true consistent_setPrototypeOf trivial
  | isExtensible => exact iff_of_true consistent_isExtensible trivial
  | preventExtensions => exact iff_of_true consistent_preventExtensions trivial
  | has atom => exact consistent_has_iff
  | get atom receiver => exact iff_of_true consistent_get trivial
  | set atom value receiver throws => exact iff_of_true consistent_set trivial
  | getOwnProperty prop => exact consistent_getOwnProperty_iff
  | defineOwnProperty prop a => exact consistent_defineOwnProperty_iff
  | delete atom => exact iff_of_true consistent_delete trivial
  | ownKeys => exact consistent_ownKeys_iff

/-- An object with one property, which is neither configurable nor writable and has the value 1. -/
def frozen : Methods Unit where
  extensible _ := false
  getPrototypeOf _ := some (none, ())
  setPrototypeOf _ _ _ := some (false, ())
  isExtensible _ := some (false, ())
  preventExtensions _ := some (true, ())
  getOwnProperty prop _ :=
    some (if prop = 0 then some ⟨false, true, false, false, .primitive 1, none, none⟩ else none, ())
  defineOwnProperty _ _ _ := some (false, ())
  hasProperty prop _ := some (prop = 0, ())
  get prop _ _ := some (if prop = 0 then .primitive 1 else .undefined, ())
  set _ _ _ _ _ := some (false, ())
  delete prop _ := some (prop ≠ 0, ())
  ownKeys _ := some ([0], ())

/-- A handler without traps but one, which always returns the same descriptor. -/
def reporting (o : DescObject) : Handler Unit where
  isRevoked _ := false
  getPrototypeOf _ := some (none, ())
  setPrototypeOf _ _ := some (none, ())
  isExtensible _ := some (none, ())
  preventExtensions _ := some (none, ())
  getOwnPropertyDescriptor _ _ :=
    some (some fun _ => some (.object fun _ => some (o, ()), ()), ())
  defineProperty _ _ _ := some (none, ())
  has _ _ := some (none, ())
  get _ _ _ := some (none, ())
  set _ _ _ _ := some (none, ())
  deleteProperty _ _ := some (none, ())
  ownKeys _ := some (none, ())

/-- The read-only value of the target is 1, and the proxy says that it is 2. -/
theorem reporting_not_consistent :
    let h := reporting ⟨some false, some false, some true, some (.primitive 2), none, none⟩
    jsProxyGetOwnProperty h frozen 0 () =
      some (some ⟨false, true, false, false, .primitive 2, none, none⟩, ()) ∧
    ¬ Consistent h frozen () (.getOwnProperty 0) := by
  refine ⟨rfl, fun hcons => ?_⟩
  have hr := hcons _ () (some _) () ⟨_, (), rfl, rfl⟩ rfl _ () rfl
  cases ((hr.2 rfl).2.2 rfl rfl).2

-- The field of a proxy does not tell whether it is extensible: its target is not.
example : let h := reporting ⟨none, none, none, none, none, none⟩
    (methods h frozen).extensible () = true ∧ (methods h frozen).isExtensible () = some (false, ()) :=
  ⟨rfl, rfl⟩

end QuickJs.Proxy
