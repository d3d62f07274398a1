import QuickJs.FastArray
import QuickJs.Property

/-!
# Defining an element

`JS_DefineProperty`, `JS_CreateProperty` and `add_fast_array_element` on an array and an index. Every allocation can fail.
The length is set before it is known whether there will be an element, and the value of an element before its
flags: a call that fails may have changed the array.
-/

namespace QuickJs.ArrayDefine

open ArrayElement
open Property (PropFlags)

/-- The value `undefined`. -/
def jsUndefined : JSValue := 0

/-- The arguments of `JS_DefineProperty`; a getter or setter that is no function is none. -/
structure DefineArgs where
  val : JSValue
  getter : Option Ptr
  setter : Option Ptr
  flags : PropFlags
  /-- `is_strict_mode` -/
  strict : Bool := false

/-- Does a refusal raise an exception? -/
def DefineArgs.throws (args : DefineArgs) : Bool := args.flags.throws args.strict

/-- The allocations that fail, if the call comes to them. -/
structure Memory where
  /-- `expand_fast_array`, if it is called -/
  expand : Bool
  /-- in `convert_fast_array_to_array` -/
  convert : Bool
  /-- `add_property` -/
  add : Bool
  /-- `js_shape_prepare_update`, until it has been called -/
  update : Bool

inductive DefineError
  | js (e : JSError)
  | outOfMemory
  deriving DecidableEq

/-- How a call ends. -/
inductive Defined
  | returned (x : Bool) (a : JSArray)
  | exception (e : DefineError) (a : JSArray)

/-- The result is -1 or FALSE. -/
def Defined.failed : Defined → Bool
  | returned x _ => !x
  | exception _ _ => true

/-- The array afterwards. -/
def Defined.array : Defined → JSArray
  | returned _ a | exception _ a => a

/-- `JS_ThrowTypeErrorOrFalse`, and `JS_ThrowTypeErrorReadOnly`. -/
def throwOrFalse (throws : Bool) (e : JSError) (a : JSArray) : Defined :=
  if throws then .exception (.js e) a else .returned false a

/-- "property is not configurable". -/
def notConfigurable (args : DefineArgs) (a : JSArray) : Defined :=
  throwOrFalse args.throws (.typeError "property is not configurable") a

def notExtensible (args : DefineArgs) (a : JSArray) : Defined :=
  throwOrFalse args.throws (.typeError "object is not extensible") a

/-! ## Flags -/

def hasAccessor (flags : PropFlags) : Bool := flags.hasGet || flags.hasSet

/-- One flag of `get_prop_flags`. -/
def getPropFlag (has flag dflt : Bool) : Bool := if has then flag else dflt

/-- Is `get_prop_flags` equal to `JS_PROP_C_W_E`? -/
def allPropFlags (flags : PropFlags) (dflt : Bool) : Bool :=
  getPropFlag flags.hasConfigurable flags.configurable dflt &&
    getPropFlag flags.hasWritable flags.writable dflt && getPropFlag flags.hasEnumerable flags.enumerable dflt

def isGetset : Element → Bool
  | .data _ _ _ _ => false
  | .getset _ _ _ _ => true

def isWritable : Element → Bool
  | .data _ writable _ _ => writable
  | .getset _ _ _ _ => false

def isEnumerable : Element → Bool
  | .data _ _ enumerable _ | .getset _ _ enumerable _ => enumerable

def isConfigurable : Element → Bool
  | .data _ _ _ configurable | .getset _ _ _ configurable => configurable

/-- `check_define_prop_flags`. -/
def checkDefinePropFlags (e : Element) (flags : PropFlags) : Bool :=
  if !isConfigurable e && flags.hasConfigurable && flags.configurable then false
  else if !isConfigurable e && flags.hasEnumerable && flags.enumerable != isEnumerable e then false
  else if (flags.hasValue || flags.hasWritable || hasAccessor flags) && !isConfigurable e then
    if hasAccessor flags != isGetset e then false
    else if !hasAccessor flags && !isGetset e && !isWritable e then !(flags.hasWritable && flags.writable)
    else true
  else true

/-! ## New elements -/

/-- `add_fast_array_element`. -/
def addFastArrayElement (mem : Memory) (a : JSArray) (values : List JSValue) (val : JSValue) (throws : Bool) :
    Defined :=
  let newLen := (values.length + 1) % 2 ^ 32
  let expand (a : JSArray) : Defined :=
    if mem.expand then .exception .outOfMemory a
    else .returned true { a with elements := .fast (values ++ [val]) }
  match a.length with
  | .int v =>
    if (JSLength.int v).toUint32 < newLen then
      if a.lengthWritable then expand { a with length := jsNewInt32 newLen }
      else throwOrFalse throws (.readOnly .length) a
    else expand a
  | .float64 _ => expand a

/-- The property that `JS_CreateProperty` adds. -/
def newElement (args : DefineArgs) : Element :=
  if hasAccessor args.flags then
    .getset (if args.flags.hasGet then args.getter else none) (if args.flags.hasSet then args.setter else none)
      args.flags.enumerable args.flags.configurable
  else
    .data (if args.flags.hasValue then args.val else jsUndefined) args.flags.writable args.flags.enumerable
      args.flags.configurable

/-- The end of `JS_CreateProperty`. -/
def addProperty (mem : Memory) (a : JSArray) (idx : ℕ) (args : DefineArgs) : Defined :=
  if !a.extensible then notExtensible args a
  else if mem.add then .exception .outOfMemory a
  else .returned true
    { a with elements := .slow (Function.update a.elements.convert idx (some (newElement args))) }

/-- `JS_CreateProperty` from `generic_array` on, for an array that is slow. -/
def genericArray (mem : Memory) (a : JSArray) (idx : ℕ) (args : DefineArgs) : Defined :=
  if a.length.toUint32 < idx + 1 then
    if a.lengthWritable then addProperty mem { a with length := jsNewUint32 (idx + 1) } idx args
    else throwOrFalse args.throws (.readOnly .length) a
  else addProperty mem a idx args

/-- `JS_CreateProperty` from `convert_to_array` on. -/
def convertToArray (mem : Memory) (a : JSArray) (idx : ℕ) (args : DefineArgs) : Defined :=
  if mem.convert then .exception .outOfMemory a else genericArray mem a.toSlow idx args

/-- `JS_CreateProperty` on an array. -/
def jsCreateProperty (mem : Memory) (a : JSArray) (idx : ℕ) (args : DefineArgs) : Defined :=
  match a.elements with
  | .fast values =>
    if idx < 2 ^ 31 ∧ idx = values.length then
      if !a.extensible then notExtensible args a
      else if hasAccessor args.flags then convertToArray mem a idx args
      else if !allPropFlags args.flags false then convertToArray mem a idx args
      else addFastArrayElement mem a values args.val args.throws
    else convertToArray mem a idx args
  | .slow _ => genericArray mem a idx args

/-! ## Elements that are there -/

/-- The last flags of `JS_DefineProperty`, after those that are written with a value. -/
def finalFlags (e : Element) (flags : PropFlags) : Element :=
  let enumerable := if flags.hasEnumerable then flags.enumerable else isEnumerable e
  let configurable := if flags.hasConfigurable then flags.configurable else isConfigurable e
  match e with
  | .data v writable _ _ => .data v writable enumerable configurable
  | .getset g s _ _ => .getset g s enumerable configurable

def sameFlags (e e' : Element) : Bool :=
  isWritable e == isWritable e' && isEnumerable e == isEnumerable e' && isConfigurable e == isConfigurable e'

/-- `js_update_property_flags`: the element has got its value. None if there is no memory; `owned` is
whether `js_shape_prepare_update` has been called before. -/
def updatePropertyFlags (mem : Memory) (owned : Bool) (e e' : Element) : Option Bool :=
  if sameFlags e e' then some owned else if !owned && mem.update then none else some true

/-- The array with another element. -/
def withElement (a : JSArray) (idx : ℕ) (e : Element) : JSArray :=
  { a with elements := .slow (Function.update a.elements.convert idx (some e)) }

/-- The end of `JS_DefineProperty` for an element that is there. -/
def finish (mem : Memory) (owned : Bool) (a : JSArray) (idx : ℕ) (e : Element) (args : DefineArgs) : Defined :=
  match updatePropertyFlags mem owned e (finalFlags e args.flags) with
  | none => .exception .outOfMemory (withElement a idx e)
  | some _ => .returned true (withElement a idx (finalFlags e args.flags))

/-- `JS_PROP_HAS_VALUE` and `JS_PROP_HAS_WRITABLE` on a value. -/
def defineValue (mem : Memory) (owned : Bool) (a : JSArray) (idx : ℕ) (v : JSValue)
    (writable enumerable configurable : Bool) (args : DefineArgs) : Defined :=
  let v := if args.flags.hasValue then args.val else v
  let e : Element := .data v writable enumerable configurable
  if args.flags.hasWritable then
    let e' : Element := .data v args.flags.writable enumerable configurable
    match updatePropertyFlags mem owned e e' with
    | none => .exception .outOfMemory (withElement a idx e)
    | some owned => finish mem owned a idx e' args
  else finish mem owned a idx e args

/-- `JS_PROP_HAS_GET` and `JS_PROP_HAS_SET`. -/
def defineAccessor (mem : Memory) (owned : Bool) (a : JSArray) (idx : ℕ) (getter setter : Option Ptr)
    (enumerable configurable : Bool) (args : DefineArgs) : Defined :=
  finish mem owned a idx
    (.getset (if args.flags.hasGet then args.getter else getter) (if args.flags.hasSet then args.setter else setter)
      enumerable configurable) args

/-- `JS_DefineProperty` for an element that is there; `owned` as before. -/
def defineExisting (mem : Memory) (owned : Bool) (a : JSArray) (idx : ℕ) (e : Element) (args : DefineArgs) :
    Defined :=
  if !checkDefinePropFlags e args.flags then notConfigurable args a
  else if hasAccessor args.flags then
    match e with
    | .data _ _ enumerable configurable =>
      if !owned && mem.update then .exception .outOfMemory a
      else defineAccessor mem true a idx none none enumerable configurable args
    | .getset getter setter enumerable configurable =>
      if !configurable && args.flags.hasGet && args.getter != getter then notConfigurable args a
      else if !configurable && args.flags.hasSet && args.setter != setter then notConfigurable args a
      else defineAccessor mem owned a idx getter setter enumerable configurable args
  else if args.flags.hasValue || args.flags.hasWritable then
    match e with
    | .getset _ _ enumerable configurable =>
      if !owned && mem.update then .exception .outOfMemory a
      else defineValue mem true a idx jsUndefined false enumerable configurable args
    | .data v writable enumerable configurable =>
      if !configurable && !writable && args.flags.hasValue then
        if args.val ≠ v then notConfigurable args a else .returned true a
      else defineValue mem owned a idx v writable enumerable configurable args
  else finish mem owned a idx e args

/-- `JS_DefineProperty` on an array and an index. -/
def jsDefineProperty (mem : Memory) (a : JSArray) (idx : ℕ) (args : DefineArgs) : Defined :=
  match a.elements with
  | .slow prop =>
    match prop idx with
    | some e => defineExisting mem false a idx e args
    | none => jsCreateProperty mem a idx args
  | .fast values =>
    match if idx < 2 ^ 31 then values[idx]? else none with
    | some v =>
      if !allPropFlags args.flags true || hasAccessor args.flags then
        if mem.convert then .exception .outOfMemory a
        else defineExisting mem true a.toSlow idx (.plain v) args
      else .returned true (if args.flags.hasValue then { a with elements := .fast (values.set idx args.val) } else a)
    | none => jsCreateProperty mem a idx args

/-! ## What fails -/

/-- A call that fails leaves everything that is observed as it was. -/
def Kept (r : Defined) (a : JSArray) : Prop := r.failed = true → r.array.view = a.view

/-- The length is the number that it should be, above all elements; the elements of a fast array have small
indices. -/
structure Valid (a : JSArray) : Prop where
  proper : ∃ n < 2 ^ 32, a.length = jsNewUint32 n ∧ ∀ i, a.elements.convert i ≠ none → i < n
  small : ∀ values, a.elements = .fast values → values.length ≤ 2 ^ 31

def isFast (a : JSArray) : Bool :=
  match a.elements with
  | .fast _ => true
  | .slow _ => false

/-- The index is that of the next element of a fast array. -/
def appends (a : JSArray) (idx : ℕ) : Bool :=
  match a.elements with
  | .fast values => idx < 2 ^ 31 ∧ idx = values.length
  | .slow _ => false

/-- The length is set if an element with this index is added. -/
def MovesLength (a : JSArray) (idx : ℕ) : Prop := a.length.toUint32 ≤ idx ∧ a.lengthWritable = true

/-- The length is set, and then there is no element: the array is not extensible, or there is no memory. -/
def CreateSpoils (mem : Memory) (a : JSArray) (idx : ℕ) (args : DefineArgs) : Prop :=
  MovesLength a idx ∧ if appends a idx then
      a.extensible = true ∧
        if hasAccessor args.flags = false ∧ allPropFlags args.flags false = true then mem.expand = true
        else mem.convert = false ∧ mem.add = true
    else (isFast a = true → mem.convert = false) ∧ (a.extensible = false ∨ mem.add = true)

/-- The flags that an element should get. -/
def wantedFlags (e : Element) (flags : PropFlags) : Element :=
  match e with
  | .data v writable enumerable configurable =>
    finalFlags (.data v (if flags.hasWritable then flags.writable else writable) enumerable configurable) flags
  | .getset _ _ _ _ => finalFlags e flags

/-- The element gets another value, and then there is no memory to change its flags. -/
def UpdateSpoils (mem : Memory) (e : Element) (args : DefineArgs) : Prop :=
  mem.update = true ∧ checkDefinePropFlags e args.flags = true ∧ sameFlags e (wantedFlags e args.flags) = false ∧
    match e with
    | .data v writable _ configurable =>
      hasAccessor args.flags = false ∧ args.flags.hasValue = true ∧ args.val ≠ v ∧
        (configurable = true ∨ writable = true)
    | .getset getter setter _ configurable =>
      configurable = true ∧
        (args.flags.hasGet = true ∧ args.getter ≠ getter ∨ args.flags.hasSet = true ∧ args.setter ≠ setter)

/-- What makes `JS_DefineProperty` fail with another array than before. -/
def DefineSpoils (mem : Memory) (a : JSArray) (idx : ℕ) (args : DefineArgs) : Prop :=
  match a.elements with
  | .slow prop =>
    match prop idx with
    | some e => UpdateSpoils mem e args
    | none => CreateSpoils mem a idx args
  | .fast values => values.length ≤ idx ∧ CreateSpoils mem a idx args

variable {mem : Memory} {a : JSArray} {idx n : ℕ} {args : DefineArgs} {values : List JSValue} {val : JSValue}
  {throws owned : Bool} {e e' : Element}

variable {b : JSArray} {r : Defined} {getter setter : Option Ptr}

/-! ## New elements -/

theorem kept_throwOrFalse {err : JSError} : Kept (throwOrFalse throws err b) a ↔ b.view = a.view := by
  cases throws <;> exact ⟨fun h => h rfl, fun h _ => h⟩

theorem kept_outOfMemory : Kept (.exception .outOfMemory b) a ↔ b.view = a.view :=
  ⟨fun h => h rfl, fun h _ => h⟩

theorem view_length (a : JSArray) : a.view.length = a.length.number := rfl

theorem Valid.number_eq (hv : Valid a) : a.length.number = a.length.toUint32 := by
  obtain ⟨n, hn, hlen, _⟩ := hv.proper
  rw [hlen, number_jsNewUint32, toUint32_jsNewUint32 hn]

theorem addFastArrayElement_kept (hv : Valid a) (ha : a.elements = .fast values) :
    Kept (addFastArrayElement mem a values val throws) a ↔
      ¬(values.length < 2 ^ 31 ∧ MovesLength a values.length ∧ mem.expand = true) := by
  obtain ⟨n, hn, hlen, habove⟩ := hv.proper
  have hsmall := hv.small values ha
  have hle : values.length ≤ n := by
    rcases Nat.eq_zero_or_pos values.length with h0 | hpos
    · omega
    · have := habove (values.length - 1) (by
        rw [ha, Elements.convert, List.getElem?_eq_getElem (by omega)]
        exact Option.some_ne_none _)
      omega
  have huint : a.length.toUint32 = n := hlen ▸ toUint32_jsNewUint32 hn
  have hmod : (values.length + 1) % 2 ^ 32 = values.length + 1 := Nat.mod_eq_of_lt (by omega)
  unfold MovesLength
  rw [huint]
  -- without another length nothing has changed
  have hsame : Kept (if mem.expand then .exception .outOfMemory a
      else .returned true { a with elements := .fast (values ++ [val]) }) a := by
    cases mem.expand
    · rintro ⟨⟩
    · exact fun _ => rfl
  by_cases hint : n < 2 ^ 31
  · have hl : a.length = .int n := by rw [hlen, jsNewUint32, if_pos hint]
    rw [addFastArrayElement, hl]
    dsimp only
    rw [← hl, huint, hmod]
    by_cases hlt : n < values.length + 1
    · rw [if_pos hlt]
      cases hw : a.lengthWritable with
      | false =>
        rw [if_neg Bool.false_ne_true, kept_throwOrFalse]
        exact iff_of_true rfl fun h => Bool.false_ne_true h.2.1.2
      | true =>
        rw [if_pos rfl]
        cases mem.expand with
        | false => exact iff_of_true (by rintro ⟨⟩) fun h => Bool.false_ne_true h.2.2
        | true =>
          refine iff_of_false (fun h => ?_) fun h => h ⟨by omega, ⟨by omega, rfl⟩, rfl⟩
          rw [if_pos rfl, kept_outOfMemory] at h
          have hnum := congrArg View.length h
          rw [view_length, view_length] at hnum
          rw [hl, jsNewInt32, JSLength.number, JSLength.number, Int.bmod_def] at hnum
          split at hnum <;> omega
    · rw [if_neg hlt]
      exact iff_of_true hsame fun h => by omega
  · have hl : a.length = .float64 n := by rw [hlen, jsNewUint32, if_neg hint]
    rw [addFastArrayElement, hl]
    exact iff_of_true hsame fun h => by omega

theorem addProperty_kept : Kept (addProperty mem a idx args) a := by
  unfold addProperty
  split
  · exact kept_throwOrFalse.mpr rfl
  split
  · exact fun _ => rfl
  · exact fun h => nomatch h

/-- When the length is too small it is set first. -/
theorem genericArray_kept (hv : Valid a) : Kept (genericArray mem a idx args) a ↔
      ¬(MovesLength a idx ∧ (a.extensible = false ∨ mem.add = true)) := by
  unfold genericArray MovesLength
  by_cases hlt : a.length.toUint32 < idx + 1
  · rw [if_pos hlt]
    cases hw : a.lengthWritable with
    | false =>
      rw [if_neg Bool.false_ne_true, kept_throwOrFalse]
      exact iff_of_true rfl fun h => Bool.false_ne_true h.1.2
    | true =>
      have hnum : ∀ b : JSArray, b.length = jsNewUint32 (idx + 1) → b.view ≠ a.view := by
        intro b hb hview
        have hnum := congrArg View.length hview
        rw [view_length, view_length, hb, number_jsNewUint32, hv.number_eq] at hnum
        omega
      unfold addProperty
      cases a.extensible with
      | false =>
        refine iff_of_false (fun h => ?_) fun h => h ⟨⟨by omega, rfl⟩, .inl rfl⟩
        exact hnum _ rfl (kept_throwOrFalse.mp h)
      | true =>
        cases mem.add with
        | false => exact iff_of_true (fun h => nomatch h) fun h => h.2.elim Bool.noConfusion Bool.noConfusion
        | true =>
          refine iff_of_false (fun h => ?_) fun h => h ⟨⟨by omega, rfl⟩, .inr rfl⟩
          exact hnum _ rfl (h rfl)
  · rw [if_neg hlt]
    exact iff_of_true addProperty_kept fun h => hlt (Nat.lt_succ_of_le h.1.1)

theorem Valid.toSlow (hv : Valid a) : Valid a.toSlow := ⟨hv.proper, fun _ h => nomatch h⟩

theorem kept_toSlow : Kept r a.toSlow ↔ Kept r a := Iff.rfl

theorem convertToArray_kept (hv : Valid a) : Kept (convertToArray mem a idx args) a ↔
      ¬(MovesLength a idx ∧ mem.convert = false ∧ (a.extensible = false ∨ mem.add = true)) := by
  unfold convertToArray
  cases mem.convert with
  | true => exact iff_of_true (fun _ => rfl) fun h => Bool.noConfusion h.2.1
  | false =>
    rw [if_neg Bool.false_ne_true, ← kept_toSlow, genericArray_kept hv.toSlow]
    exact not_congr (and_congr_right fun _ => (and_iff_right rfl).symm)

theorem jsCreateProperty_kept (hv : Valid a) :
    Kept (jsCreateProperty mem a idx args) a ↔ ¬CreateSpoils mem a idx args := by
  unfold jsCreateProperty CreateSpoils
  cases ha : a.elements with
  | slow prop =>
    have happ : appends a idx = false := by rw [appends, ha]
    have hfast : isFast a = false := by rw [isFast, ha]
    rw [genericArray_kept hv, happ, hfast]
    exact not_congr (and_congr_right fun _ => (and_iff_right fun h => nomatch h).symm)
  | fast values =>
    have hfast : isFast a = true := by rw [isFast, ha]
    dsimp only
    by_cases hnext : idx < 2 ^ 31 ∧ idx = values.length
    · have happ : appends a idx = true := by
        rw [appends, ha]
        exact decide_eq_true hnext
      rw [if_pos hnext, happ, if_pos rfl]
      cases hext : a.extensible with
      | false => exact iff_of_true (kept_throwOrFalse.mpr rfl) fun h => Bool.false_ne_true h.2.1
      | true =>
        have hconvert : Kept (convertToArray mem a idx args) a ↔
            ¬(MovesLength a idx ∧ true = true ∧ mem.convert = false ∧ mem.add = true) := by
          rw [convertToArray_kept hv, hext]
          refine not_congr (and_congr_right fun _ => ?_)
          rw [and_iff_right rfl]
          exact and_congr_right fun _ => or_iff_right Bool.noConfusion
        rw [Bool.not_true, if_neg Bool.false_ne_true]
        cases hacc : hasAccessor args.flags with
        | true => rwa [if_pos rfl, if_neg fun h => Bool.noConfusion h.1]
        | false =>
          rw [if_neg Bool.false_ne_true]
          cases hall : allPropFlags args.flags false with
          | false => rwa [Bool.not_false, if_pos rfl, if_neg fun h => Bool.noConfusion h.2]
          | true =>
            rw [Bool.not_true, if_neg Bool.false_ne_true, addFastArrayElement_kept hv ha, hnext.2]
            refine not_congr ?_
            rw [and_iff_right (hnext.2 ▸ hnext.1)]
            exact and_congr_right fun _ => (and_iff_right rfl).symm
    · have happ : appends a idx = false := by
        rw [appends, ha]
        exact decide_eq_false hnext
      rw [if_neg hnext, convertToArray_kept hv, happ, hfast]
      exact not_congr (and_congr_right fun _ => and_congr_left fun _ => ⟨fun h _ => h, fun h => h rfl⟩)

/-! ## Elements that are there -/

theorem withElement_view (he : a.elements.convert idx = some e) :
    (withElement a idx e').view = a.view ↔ e' = e := by
  constructor
  · intro h
    have hidx := congrFun (congrArg View.element h) idx
    refine Option.some.inj (Eq.trans ?_ (hidx.trans he))
    exact (Function.update_self idx (some e') a.elements.convert).symm
  · rintro rfl
    have hsame : Function.update a.elements.convert idx (some e') = a.elements.convert :=
      he ▸ Function.update_eq_self idx a.elements.convert
    exact congrArg (fun f => (⟨f, a.length.number, a.lengthWritable, a.extensible⟩ : View)) hsame

theorem updatePropertyFlags_none :
    updatePropertyFlags mem owned e e' = none ↔ sameFlags e e' = false ∧ owned = false ∧ mem.update = true := by
  unfold updatePropertyFlags
  cases sameFlags e e' <;> cases owned <;> cases mem.update <;> decide

theorem updatePropertyFlags_unowned (h : updatePropertyFlags mem owned e e' = some false) : sameFlags e e' = true := by
  revert h
  unfold updatePropertyFlags
  cases sameFlags e e' <;> cases owned <;> cases mem.update <;> decide

/-- Afterwards there is an element; if this fails it has its value and its old flags. -/
theorem finish_kept : Kept (finish mem owned b idx e args) a ↔
      (sameFlags e (finalFlags e args.flags) = false → owned = false → mem.update = true →
        (withElement b idx e).view = a.view) := by
  unfold finish
  cases hup : updatePropertyFlags mem owned e (finalFlags e args.flags) with
  | none =>
    obtain ⟨hflags, hown, hmem⟩ := updatePropertyFlags_none.mp hup
    exact kept_outOfMemory.trans ⟨fun h _ _ _ => h, fun h => h hflags hown hmem⟩
  | some o =>
    refine iff_of_true (fun h => nomatch h) fun hflags hown hmem => ?_
    exact nomatch hup.symm.trans (updatePropertyFlags_none.mpr ⟨hflags, hown, hmem⟩)

variable {v : JSValue} {writable enumerable configurable : Bool}

theorem updatePropertyFlags_same (h : sameFlags e e' = true) : updatePropertyFlags mem owned e e' = some owned := by
  exact if_pos h

theorem wantedFlags_writable (hw : args.flags.hasWritable = true) :
    wantedFlags (.data v writable enumerable configurable) args.flags =
      finalFlags (.data v args.flags.writable enumerable configurable) args.flags := by
  rw [wantedFlags, if_pos hw]

theorem sameFlags_ne (hw : writable ≠ args.flags.writable) :
    sameFlags (.data v writable enumerable configurable)
      (finalFlags (.data v args.flags.writable enumerable configurable) args.flags) = false := by
  have hne : (writable == args.flags.writable) = false := beq_eq_false_iff_ne.mpr hw
  unfold sameFlags finalFlags isWritable
  rw [hne, Bool.false_and, Bool.false_and]

/-- The value is written before both groups of flags; after one update there is memory for the other. -/
theorem defineValue_kept : Kept (defineValue mem owned a idx v writable enumerable configurable args) a ↔
      (sameFlags (.data v writable enumerable configurable)
          (wantedFlags (.data v writable enumerable configurable) args.flags) = false →
        owned = false → mem.update = true →
        (withElement a idx (.data (if args.flags.hasValue then args.val else v) writable enumerable
          configurable)).view = a.view) := by
  unfold defineValue
  dsimp only
  cases hw : args.flags.hasWritable with
  | false =>
    rw [if_neg Bool.false_ne_true, finish_kept]
    have hwanted : wantedFlags (.data v writable enumerable configurable) args.flags =
        finalFlags (.data v writable enumerable configurable) args.flags := by
      rw [wantedFlags, hw, if_neg Bool.false_ne_true]
    rw [hwanted]
    rfl
  | true =>
    rw [wantedFlags_writable hw]
    by_cases hsame : writable = args.flags.writable
    · rw [← hsame, updatePropertyFlags_same (by simp [sameFlags])]
      exact finish_kept
    · have hne : ∀ v, sameFlags (.data v writable enumerable configurable)
          (finalFlags (.data v args.flags.writable enumerable configurable) args.flags) = false :=
        fun _ => sameFlags_ne hsame
      cases hup : updatePropertyFlags mem owned _ _ with
      | none =>
        obtain ⟨_, hown, hmem⟩ := updatePropertyFlags_none.mp hup
        exact kept_outOfMemory.trans ⟨fun h _ _ _ => h, fun h => h (hne _) hown hmem⟩
      | some o =>
        -- the shape has been copied, or there is memory
        have hmem : ¬(owned = false ∧ mem.update = true) := by
          rintro ⟨hown, hmem⟩
          refine nomatch hup.symm.trans (updatePropertyFlags_none.mpr ⟨?_, hown, hmem⟩)
          have hbeq : (writable == args.flags.writable) = false := beq_eq_false_iff_ne.mpr hsame
          simp [sameFlags, isWritable, hbeq]
        refine iff_of_true (finish_kept.mpr fun _ ho hm => ?_) fun _ ho hm => absurd ⟨ho, hm⟩ hmem
        have hflags := updatePropertyFlags_unowned (hup.trans (congrArg some ho))
        simp [sameFlags, isWritable, hsame] at hflags

theorem kept_notConfigurable : Kept (notConfigurable args a) a := kept_throwOrFalse.mpr rfl

theorem kept_ite {c : Bool} {r' : Defined} (h : c = true → Kept r a) (h' : c = false → Kept r' a) :
    Kept (if c then r else r') a := by
  cases c
  · exact h' rfl
  · exact h rfl

/-- Once the shape has been copied nothing fails after a change. -/
theorem defineExisting_owned : Kept (defineExisting mem true a idx e args) a := by
  refine kept_ite (fun _ => kept_notConfigurable) fun _ => ?_
  refine kept_ite (fun _ => ?_) fun _ => ?_
  · cases e with
    | data v writable enumerable configurable =>
      exact kept_ite (fun h => Bool.noConfusion h) fun _ => finish_kept.mpr fun _ h => Bool.noConfusion h
    | getset getter setter enumerable configurable =>
      refine kept_ite (fun _ => kept_notConfigurable) fun _ => ?_
      refine kept_ite (fun _ => kept_notConfigurable) fun _ => ?_
      exact finish_kept.mpr fun _ h => Bool.noConfusion h
  refine kept_ite (fun _ => ?_) fun _ => finish_kept.mpr fun _ h => Bool.noConfusion h
  cases e with
  | data v writable enumerable configurable =>
    refine kept_ite (fun _ => ?_) fun _ => defineValue_kept.mpr fun _ h => Bool.noConfusion h
    by_cases hv : args.val ≠ v
    · exact (if_pos hv).symm ▸ kept_notConfigurable
    · exact (if_neg hv).symm ▸ fun _ => rfl
  | getset getter setter enumerable configurable =>
    exact kept_ite (fun h => Bool.noConfusion h) fun _ => defineValue_kept.mpr fun _ h => Bool.noConfusion h

/-- An accessor that is replaced is one that may be configured. -/
theorem defineAccessor_kept (hcheck : checkDefinePropFlags e args.flags = true)
    (he : a.elements.convert idx = some e) (hg : e = .getset getter setter enumerable configurable)
    (hget : ¬(configurable = false ∧ args.flags.hasGet = true ∧ args.getter ≠ getter))
    (hset : ¬(configurable = false ∧ args.flags.hasSet = true ∧ args.setter ≠ setter)) :
    Kept (defineAccessor mem false a idx getter setter enumerable configurable args) a ↔
      ¬UpdateSpoils mem e args := by
  unfold defineAccessor
  rw [finish_kept, withElement_view he]
  subst hg
  rw [Element.getset.injEq]
  constructor
  · rintro h ⟨hmem, _, hsame, _, hdiff⟩
    obtain ⟨hg, hs, _⟩ := h hsame rfl hmem
    rcases hdiff with ⟨hhas, hne⟩ | ⟨hhas, hne⟩
    · exact hne (by rwa [if_pos hhas] at hg)
    · exact hne (by rwa [if_pos hhas] at hs)
  · intro h hsame _ hmem
    by_contra hdiff
    refine h ⟨hmem, hcheck, hsame, ?_⟩
    by_cases hgd : args.flags.hasGet = true ∧ args.getter ≠ getter
    · exact ⟨eq_true_of_ne_false fun hc => hget ⟨hc, hgd⟩, .inl hgd⟩
    by_cases hsd : args.flags.hasSet = true ∧ args.setter ≠ setter
    · exact ⟨eq_true_of_ne_false fun hc => hset ⟨hc, hsd⟩, .inr hsd⟩
    refine absurd ⟨?_, ?_, rfl, rfl⟩ hdiff
    · exact ite_eq_right_iff.mpr fun hhas => by_contra fun hne => hgd ⟨hhas, hne⟩
    · exact ite_eq_right_iff.mpr fun hhas => by_contra fun hne => hsd ⟨hhas, hne⟩

/-- Without a value nothing is written before the flags. -/
theorem updateSpoils_data : UpdateSpoils mem (.data v writable enumerable configurable) args →
    hasAccessor args.flags = false ∧ args.flags.hasValue = true ∧ args.val ≠ v ∧
      (configurable = true ∨ writable = true) := fun h => h.2.2.2

theorem updateSpoils_getset :
    UpdateSpoils mem (.getset getter setter enumerable configurable) args → hasAccessor args.flags = true := by
  rintro ⟨_, _, _, _, ⟨h, _⟩ | ⟨h, _⟩⟩
  · exact Bool.or_eq_true_iff.mpr (.inl h)
  · exact Bool.or_eq_true_iff.mpr (.inr h)

theorem defineData_kept (hcheck : checkDefinePropFlags (.data v writable enumerable configurable) args.flags = true)
    (hacc : hasAccessor args.flags = false)
    (he : a.elements.convert idx = some (.data v writable enumerable configurable)) :
    Kept (if !configurable && !writable && args.flags.hasValue then
        if args.val ≠ v then notConfigurable args a else .returned true a
      else defineValue mem false a idx v writable enumerable configurable args) a ↔
      ¬UpdateSpoils mem (.data v writable enumerable configurable) args := by
  by_cases hlocked : configurable = false ∧ writable = false ∧ args.flags.hasValue = true
  · obtain ⟨rfl, rfl, hvalue⟩ := hlocked
    refine iff_of_true ?_ fun h => (updateSpoils_data h).2.2.2.elim Bool.noConfusion Bool.noConfusion
    refine kept_ite (fun _ => ?_) fun h => by rw [hvalue] at h; exact Bool.noConfusion h
    by_cases hv : args.val ≠ v
    · exact (if_pos hv).symm ▸ kept_notConfigurable
    · exact (if_neg hv).symm ▸ fun _ => rfl
  rw [if_neg (by simpa using hlocked), defineValue_kept, withElement_view he, Element.data.injEq]
  constructor
  · rintro h ⟨hmem, _, hsame, _, hvalue, hne, _⟩
    obtain ⟨hv, _⟩ := h hsame rfl hmem
    exact hne (by rwa [if_pos hvalue] at hv)
  · intro h hsame _ hmem
    refine ⟨ite_eq_right_iff.mpr fun hvalue => by_contra fun hne => ?_, rfl, rfl, rfl⟩
    refine h ⟨hmem, hcheck, hsame, hacc, hvalue, hne, ?_⟩
    cases configurable
    · cases writable
      · exact absurd ⟨rfl, rfl, hvalue⟩ hlocked
      · exact .inr rfl
    · exact .inl rfl

theorem defineExisting_kept (he : a.elements.convert idx = some e) :
    Kept (defineExisting mem false a idx e args) a ↔ ¬UpdateSpoils mem e args := by
  unfold defineExisting
  cases hcheck : checkDefinePropFlags e args.flags with
  | false => exact iff_of_true kept_notConfigurable fun h => Bool.noConfusion (hcheck.symm.trans h.2.1)
  | true =>
    rw [Bool.not_true, if_neg Bool.false_ne_true]
    cases hacc : hasAccessor args.flags with
    | true =>
      rw [if_pos rfl]
      cases e with
      | data v writable enumerable configurable =>
        refine iff_of_true ?_ fun h => Bool.noConfusion (hacc.symm.trans (updateSpoils_data h).1)
        exact kept_ite (fun _ _ => rfl) fun _ => finish_kept.mpr fun _ h => Bool.noConfusion h
      | getset getter setter enumerable configurable =>
        dsimp only
        by_cases hget : configurable = false ∧ args.flags.hasGet = true ∧ args.getter ≠ getter
        · obtain ⟨rfl, hhas, hne⟩ := hget
          rw [hhas, if_pos (by simpa using hne)]
          exact iff_of_true kept_notConfigurable fun h => Bool.noConfusion h.2.2.2.1
        rw [if_neg (by simpa using hget)]
        by_cases hset : configurable = false ∧ args.flags.hasSet = true ∧ args.setter ≠ setter
        · obtain ⟨rfl, hhas, hne⟩ := hset
          rw [hhas, if_pos (by simpa using hne)]
          exact iff_of_true kept_notConfigurable fun h => Bool.noConfusion h.2.2.2.1
        rw [if_neg (by simpa using hset)]
        exact defineAccessor_kept hcheck he rfl hget hset
    | false =>
      rw [if_neg Bool.false_ne_true]
      cases hwrites : args.flags.hasValue || args.flags.hasWritable with
      | false =>
        have hvalue : args.flags.hasValue = false := (Bool.or_eq_false_iff.mp hwrites).1
        rw [if_neg Bool.false_ne_true, finish_kept, withElement_view he]
        refine iff_of_true (fun _ _ _ => rfl) fun h => ?_
        cases e with
        | data => exact Bool.noConfusion (hvalue.symm.trans (updateSpoils_data h).2.1)
        | getset => exact Bool.noConfusion (hacc.symm.trans (updateSpoils_getset h))
      | true =>
        rw [if_pos rfl]
        cases e with
        | getset getter setter enumerable configurable =>
          refine iff_of_true ?_ fun h => Bool.noConfusion (hacc.symm.trans (updateSpoils_getset h))
          exact kept_ite (fun _ _ => rfl) fun _ => defineValue_kept.mpr fun _ h => Bool.noConfusion h
        | data v writable enumerable configurable =>
          exact defineData_kept hcheck hacc he

theorem jsDefineProperty_kept (hv : Valid a) :
    Kept (jsDefineProperty mem a idx args) a ↔ ¬DefineSpoils mem a idx args := by
  unfold jsDefineProperty DefineSpoils
  cases ha : a.elements with
  | slow prop =>
    dsimp only
    cases he : prop idx with
    | none => exact jsCreateProperty_kept hv
    | some e => exact defineExisting_kept (ha ▸ he)
  | fast values =>
    have hsmall := hv.small values ha
    dsimp only
    by_cases hlt : idx < values.length
    · rw [if_pos (by omega), List.getElem?_eq_getElem hlt]
      refine iff_of_true ?_ fun h => Nat.not_le.mpr hlt h.1
      refine kept_ite (fun _ => ?_) fun _ h => nomatch h
      exact kept_ite (fun _ _ => rfl) fun _ => kept_toSlow.mp defineExisting_owned
    · rw [List.getElem?_eq_none (Nat.not_lt.mp hlt), ite_self]
      exact (jsCreateProperty_kept hv).trans (not_congr (and_iff_right (Nat.not_lt.mp hlt)).symm)

/-- What the three functions leave of an array when they fail, for every array and index, and whatever
allocations fail. -/
theorem define_kept_iff (mem : Memory) (a : JSArray) (hv : Valid a) (idx : ℕ) (args : DefineArgs) :
    (Kept (jsDefineProperty mem a idx args) a ↔ ¬DefineSpoils mem a idx args) ∧
      (Kept (jsCreateProperty mem a idx args) a ↔ ¬CreateSpoils mem a idx args) ∧
      ∀ values val throws, a.elements = .fast values → (Kept (addFastArrayElement mem a values val throws) a ↔
          ¬(values.length < 2 ^ 31 ∧ MovesLength a values.length ∧ mem.expand = true)) :=
  ⟨jsDefineProperty_kept hv, jsCreateProperty_kept hv, fun _ _ _ ha => addFastArrayElement_kept hv ha⟩

/-- `Object.preventExtensions([1])`. -/
def notExtensibleArray : JSArray :=
  { elements := .fast [1], length := .int 1, lengthWritable := true, extensible := false }

/-- No allocation fails. -/
def Memory.enough : Memory := ⟨false, false, false, false⟩

/-- `{ value: 2 }` for `Reflect.defineProperty`. -/
def valueArgs : DefineArgs := { val := 2, getter := none, setter := none, flags := { hasValue := true } }

theorem notExtensibleArray_valid : Valid notExtensibleArray := by
  refine ⟨⟨1, by decide, rfl, fun i hi => ?_⟩, fun values h => ?_⟩
  · by_contra hlt
    exact hi (convert_of_le (Nat.not_lt.mp hlt))
  · cases h
    decide

theorem notExtensibleArray_kept_iff :
    Kept (jsDefineProperty .enough notExtensibleArray 0 valueArgs) notExtensibleArray ↔
      ¬DefineSpoils .enough notExtensibleArray 0 valueArgs :=
  (define_kept_iff .enough notExtensibleArray notExtensibleArray_valid 0 valueArgs).1

/-- The index 5 gives FALSE, and the length is 6. -/
theorem notExtensibleArray_spoiled :
    Valid notExtensibleArray ∧ (jsDefineProperty .enough notExtensibleArray 5 valueArgs).failed = true ∧
      (jsDefineProperty .enough notExtensibleArray 5 valueArgs).array.view.length = 6 ∧
      ¬Kept (jsDefineProperty .enough notExtensibleArray 5 valueArgs) notExtensibleArray := by
  refine ⟨notExtensibleArray_valid, by decide, by decide, fun h => ?_⟩
  have hlength := congrArg View.length (h (by decide))
  revert hlength
  decide

end QuickJs.ArrayDefine
