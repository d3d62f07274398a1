import Mathlib.Algebra.Order.Ring.Int

/-!
# Fast arrays

A fast array has its elements side by side; any other array has them as properties. `JS_SetPropertyValue`
writes to a fast array by itself, or appends to it if nothing in the prototype chain can have the
index. It does what `JS_SetPropertyInternal` does with the same array after its conversion, but for
the element after which the length no longer fits an `int`.
-/

namespace QuickJs.ArrayElement

/-! ## Arrays -/

/-- Values are numbered. -/
abbrev JSValue : Type := ℕ

/-- The address of an object. -/
abbrev Ptr : Type := ℕ

/-- What an own property with an index for its key is. -/
inductive Element
  | data (v : JSValue) (writable enumerable configurable : Bool)
  | getset (getter setter : Option Ptr) (enumerable configurable : Bool)
  deriving DecidableEq

/-- `JS_PROP_C_W_E`. -/
def Element.plain (v : JSValue) : Element := .data v true true true

/-- The value of `length`, an `int32_t` if it fits. -/
inductive JSLength
  | int (v : ℤ)
  | float64 (n : ℕ)
  deriving DecidableEq

/-- `JS_NewInt32`, from a `uint32_t`. -/
def jsNewInt32 (n : ℕ) : JSLength := .int (Int.bmod n (2 ^ 32))

/-- `JS_NewUint32`. -/
def jsNewUint32 (n : ℕ) : JSLength := if n < 2 ^ 31 then .int n else .float64 n

/-- `JS_ToUint32`. -/
def JSLength.toUint32 : JSLength → ℕ
  | int v => (v % 2 ^ 32).toNat
  | float64 n => n

/-- The number that a script sees. -/
def JSLength.number : JSLength → ℤ
  | int v => v
  | float64 n => n

inductive Elements
  /-- a fast array: `u.array` -/
  | fast (values : List JSValue)
  /-- the properties of the shape with an index for their key -/
  | slow (prop : ℕ → Option Element)

structure JSArray where
  elements : Elements
  length : JSLength
  lengthWritable : Bool
  extensible : Bool

/-- `convert_fast_array_to_array`: the properties that the elements become. -/
def Elements.convert : Elements → ℕ → Option Element
  | fast values, i => values[i]?.map .plain
  | slow prop, i => prop i

/-- The same array in its slow representation. -/
def JSArray.toSlow (a : JSArray) : JSArray := { a with elements := .slow a.elements.convert }

/-! ## Prototype chains -/

inductive ClassId
  | array
  | object
  /-- from `JS_CLASS_UINT8C_ARRAY` to `JS_CLASS_FLOAT64_ARRAY` -/
  | typedArray
  | other
  deriving DecidableEq

/-- The exotic part of an object. -/
inductive Exotic
  | none
  /-- `fast_array`, with its elements -/
  | fast (values : List JSValue)
  /-- `set_property` and `has_property` of a proxy -/
  | trap (p : Ptr)
  /-- `get_own_property` of another class -/
  | own (get : ℕ → Option Element)

structure ProtoObject where
  classId : ClassId
  hasSmallArrayIndex : Bool
  /-- `find_own_property` with an index -/
  prop : ℕ → Option Element
  exotic : Exotic

/-- A fast array as a prototype. -/
def ProtoObject.isFastArray (o : ProtoObject) : Bool :=
  match o.exotic with
  | .fast _ => true
  | _ => false

/-- The shape knows whether there are small indices, and that of a fast array has none. -/
structure ProtoObject.Valid (o : ProtoObject) : Prop where
  small : o.hasSmallArrayIndex = false → ∀ i < 2 ^ 31, o.prop i = none
  fast : o.classId = .array → o.isFastArray → ∀ i < 2 ^ 31, o.prop i = none
  ordinary : o.classId = .object → o.exotic = .none

/-- Prototype chains, from the prototype of an array on. -/
abbrev Chain : Type := List {o : ProtoObject // o.Valid}

/-- A call of code that is not the engine's, or may be. -/
inductive Call
  | setter (f : Ptr) (v : JSValue)
  | getter (f : Ptr)
  /-- a trap of a proxy -/
  | trap (p : Ptr) (idx : ℕ)
  /-- `JS_ToNumber` before an index that a typed array does not have is refused -/
  | toNumber (v : JSValue)
  deriving DecidableEq

/-- What a prototype chain makes of a new element. -/
inductive Settled
  | add
  | readOnly
  | noSetter
  | call (c : Call)
  deriving DecidableEq

/-- A property of the chain decides, unless it is a writable value. -/
def Element.settles (v : JSValue) : Element → Option Settled
  | getset _ (some f) _ _ => some (.call (.setter f v))
  | getset _ none _ _ => some .noSetter
  | data _ writable _ _ => if writable then none else some .readOnly

/-- The prototype loop of `JS_SetPropertyInternal`. Where it finds an exotic element it stops. -/
def protoLookup (idx : ℕ) (v : JSValue) : Chain → Settled
  | [] => .add
  | ⟨o, _⟩ :: chain =>
    match (o.prop idx).bind (Element.settles v) with
    | some s => s
    | none =>
      match o.exotic with
      | .none => protoLookup idx v chain
      | .fast values =>
        if o.classId = .typedArray then
          if idx < 2 ^ 31 ∧ idx < values.length then .add else .call (.toNumber v)
        else if idx < 2 ^ 31 ∧ idx < values.length then .add
        else protoLookup idx v chain
      | .trap p => .call (.trap p idx)
      | .own get =>
        match get idx with
        | some e => (e.settles v).getD .add
        | none => protoLookup idx v chain

/-! ## Setting an element -/

inductive PropName
  | length
  | index (idx : ℕ)
  deriving DecidableEq

inductive JSError
  /-- `JS_ThrowTypeErrorReadOnly` -/
  | readOnly (prop : PropName)
  | typeError (msg : String)
  | rangeError (msg : String)
  deriving DecidableEq

/-- How a run ends. It is not followed into a call of other code: what comes after is up to that. -/
inductive Outcome (α : Type)
  | returned (x : α) (a : JSArray)
  | exception (e : JSError) (a : JSArray)
  | call (c : Call) (a : JSArray)

/-- `JS_ThrowTypeErrorOrFalse`, and `JS_ThrowTypeErrorReadOnly`. -/
def throwOrFalse (throws : Bool) (e : JSError) (a : JSArray) : Outcome Bool :=
  if throws then .exception e a else .returned false a

/-- `add_fast_array_element`. -/
def addFastArrayElement (a : JSArray) (values : List JSValue) (val : JSValue) (throws : Bool) :
    Outcome Bool :=
  let newLen := (values.length + 1) % 2 ^ 32
  let added := { a with elements := .fast (values ++ [val]) }
  match a.length with
  | .int v =>
    if (JSLength.int v).toUint32 < newLen then
      if a.lengthWritable then .returned true { added with length := jsNewInt32 newLen }
      else throwOrFalse throws (.readOnly .length) a
    else .returned true added
  | .float64 _ => .returned true added

/-- `JS_CreateProperty` with a value, from where the array has been converted. -/
def createElement (a : JSArray) (idx : ℕ) (val : JSValue) (throws : Bool) : Outcome Bool :=
  let prop := a.elements.convert
  if a.length.toUint32 < idx + 1 then
    if a.lengthWritable then
      .returned true { a with
        elements := .slow (Function.update prop idx (some (.plain val)))
        length := jsNewUint32 (idx + 1) }
    else throwOrFalse throws (.readOnly .length) a.toSlow
  else .returned true { a with elements := .slow (Function.update prop idx (some (.plain val))) }

/-- The end of `JS_SetPropertyInternal`, for an element that the array does not have. -/
def addElement (chain : Chain) (a : JSArray) (idx : ℕ) (val : JSValue) (throws : Bool) : Outcome Bool :=
  match protoLookup idx val chain with
  | .readOnly => throwOrFalse throws (.readOnly (.index idx)) a
  | .noSetter => throwOrFalse throws (.typeError "no setter for property") a
  | .call c => .call c a
  | .add =>
    if a.extensible then
      match a.elements with
      | .fast values =>
        if idx < 2 ^ 31 ∧ idx = values.length then addFastArrayElement a values val throws
        else createElement a idx val throws
      | .slow _ => createElement a idx val throws
    else throwOrFalse throws (.typeError "object is not extensible") a

/-- `JS_SetPropertyInternal` on an array. -/
def jsSetPropertyInternal (chain : Chain) (a : JSArray) (idx : ℕ) (val : JSValue) (throws : Bool) :
    Outcome Bool :=
  match a.elements with
  | .fast values =>
    if idx < 2 ^ 31 ∧ idx < values.length then
      .returned true { a with elements := .fast (values.set idx val) }
    else addElement chain a idx val throws
  | .slow prop =>
    match prop idx with
    | some (.data _ true enumerable configurable) =>
      .returned true { a with
        elements := .slow (Function.update prop idx (some (.data val true enumerable configurable))) }
    | some (.data _ false _ _) => throwOrFalse throws (.readOnly (.index idx)) a
    | some (.getset _ (some f) _ _) => .call (.setter f val) a
    | some (.getset _ none _ _) => throwOrFalse throws (.typeError "no setter for property") a
    | none => addElement chain a idx val throws

/-- The loop of `JS_SetPropertyValue`: no object of the chain can have a small index. -/
def noSmallIndex (chain : Chain) : Bool :=
  chain.all fun o => match o.1.classId with
    | .array => o.1.isFastArray
    | .object => !o.1.hasSmallArrayIndex
    | _ => false

/-- `JS_SetPropertyValue` on an array; `tagInt` is whether the index has the tag `JS_TAG_INT`. -/
def jsSetPropertyValue (chain : Chain) (a : JSArray) (idx : ℕ) (tagInt : Bool) (val : JSValue)
    (throws : Bool) : Outcome Bool :=
  match a.elements with
  | .fast values =>
    if tagInt then
      if idx < values.length then .returned true { a with elements := .fast (values.set idx val) }
      else if idx = values.length && a.extensible && noSmallIndex chain then
        addFastArrayElement a values val throws
      else jsSetPropertyInternal chain a idx val throws
    else jsSetPropertyInternal chain a idx val throws
  | .slow _ => jsSetPropertyInternal chain a idx val throws

/-! ## What is observed -/

/-- An array as a script sees it. -/
structure View where
  element : ℕ → Option Element
  length : ℤ
  lengthWritable : Bool
  extensible : Bool

def JSArray.view (a : JSArray) : View := ⟨a.elements.convert, a.length.number, a.lengthWritable, a.extensible⟩

/-- How a run ends as a script sees it: the elements and the length, the error, the call. -/
inductive Observed (α : Type)
  | returned (x : α) (v : View)
  | exception (e : JSError) (v : View)
  | call (c : Call) (v : View)

def Outcome.observed {α : Type} : Outcome α → Observed α
  | returned x a => .returned x a.view
  | exception e a => .exception e a.view
  | call c a => .call c a.view

/-- An array in its fast representation. -/
structure FastArray where
  values : List JSValue
  length : JSLength
  lengthWritable : Bool
  extensible : Bool
  /-- the elements have small indices -/
  small : values.length ≤ 2 ^ 31
  /-- the length is the number that it should be, and no element is above it -/
  proper : ∃ n < 2 ^ 32, values.length ≤ n ∧ length = jsNewUint32 n

def FastArray.toJSArray (a : FastArray) : JSArray :=
  ⟨.fast a.values, a.length, a.lengthWritable, a.extensible⟩

/-- Some element is the one after which the length does not fit an `int32_t`. -/
def FastArray.Overflows (a : FastArray) (idx : ℕ) : Prop :=
  idx = a.values.length ∧ a.values.length + 1 = 2 ^ 31 ∧ a.length.number + 1 = 2 ^ 31 ∧
    a.lengthWritable ∧ a.extensible

/-- An index as a value: with the tag `JS_TAG_INT`, or any other. -/
inductive Index
  | int (i : Fin (2 ^ 31))
  | other (i : Fin (2 ^ 32 - 1))

def Index.toNat : Index → ℕ
  | int i => i
  | other i => i

def Index.tagInt : Index → Bool
  | int _ => true
  | other _ => false

theorem Index.lt_of_tagInt {i : Index} (h : i.tagInt) : i.toNat < 2 ^ 31 := by
  cases i with
  | int i => exact i.isLt
  | other i => cases h

variable {chain : Chain} {idx n : ℕ} {val : JSValue} {throws : Bool} {values : List JSValue}

/-! ## The prototype chain -/

/-- Where no object can have a small index, none of them decides. -/
theorem protoLookup_of_noSmallIndex (h : noSmallIndex chain) (hidx : idx < 2 ^ 31) :
    protoLookup idx val chain = .add := by
  induction chain with
  | nil => rfl
  | cons o chain ih =>
    obtain ⟨o, hvalid⟩ := o
    obtain ⟨ho, hchain⟩ := Bool.and_eq_true_iff.mp h
    replace ih := ih hchain
    rw [protoLookup]
    dsimp only at ho
    split at ho
    · rename_i hclass
      rw [hvalid.fast hclass ho idx hidx, Option.bind_none]
      rw [ProtoObject.isFastArray] at ho
      split at ho
      · rename_i values hexotic
        rw [hexotic, hclass]
        dsimp only
        rw [if_neg nofun]
        split
        · rfl
        · exact ih
      · cases ho
    · rename_i hclass
      rw [hvalid.small (Bool.not_eq_true' _ |>.mp ho) idx hidx, hvalid.ordinary hclass]
      exact ih
    · cases ho

variable {a b : JSArray}

/-- `JS_SetPropertyValue` only shortens the way. -/
theorem jsSetPropertyValue_eq (ha : a.elements = .fast values) (i : Index) :
    jsSetPropertyValue chain a i.toNat i.tagInt val throws =
      jsSetPropertyInternal chain a i.toNat val throws := by
  rw [jsSetPropertyValue, jsSetPropertyInternal, ha]
  dsimp only
  cases htag : i.tagInt with
  | false => rw [if_neg Bool.false_ne_true]
  | true =>
    have hidx := Index.lt_of_tagInt htag
    rw [if_pos rfl]
    by_cases hlt : i.toNat < values.length
    · rw [if_pos hlt, if_pos ⟨hidx, hlt⟩]
    · have hnot : ¬(i.toNat < 2 ^ 31 ∧ i.toNat < values.length) := fun h => hlt h.2
      rw [if_neg hlt]
      split
      · rename_i hfast
        simp only [Bool.and_eq_true, decide_eq_true_eq] at hfast
        obtain ⟨⟨heq, hext⟩, hchain⟩ := hfast
        rw [addElement, protoLookup_of_noSmallIndex hchain hidx]
        rw [if_pos hext, ha]
        dsimp only
        rw [if_pos ⟨hidx, heq⟩]
      · rfl

/-! ## The two representations -/

theorem convert_append : (Elements.fast (values ++ [val])).convert =
    Function.update (Elements.fast values).convert values.length (some (.plain val)) := by
  funext i
  rcases Nat.lt_trichotomy i values.length with hlt | rfl | hgt
  · rw [Function.update_of_ne (Nat.ne_of_lt hlt), Elements.convert, Elements.convert,
      List.getElem?_append_left hlt]
  · rw [Function.update_self, Elements.convert, List.getElem?_concat_length, Option.map_some]
  · rw [Function.update_of_ne (Nat.ne_of_gt hgt), Elements.convert, Elements.convert,
      List.getElem?_eq_none, List.getElem?_eq_none (Nat.le_of_lt hgt)]
    rw [List.length_append]
    exact hgt

theorem convert_set (h : idx < values.length) : (Elements.fast (values.set idx val)).convert =
    Function.update (Elements.fast values).convert idx (some (.plain val)) := by
  funext i
  by_cases heq : i = idx
  · subst heq
    rw [Function.update_self, Elements.convert, List.getElem?_set_self h, Option.map_some]
  · rw [Function.update_of_ne heq, Elements.convert, Elements.convert, List.getElem?_set_ne (Ne.symm heq)]

theorem convert_of_le (h : values.length ≤ idx) : (Elements.fast values).convert idx = none := by
  rw [Elements.convert, List.getElem?_eq_none h, Option.map_none]

theorem view_toSlow (a : JSArray) : a.toSlow.view = a.view := rfl

theorem toUint32_jsNewUint32 (h : n < 2 ^ 32) : (jsNewUint32 n).toUint32 = n := by
  rw [jsNewUint32]
  split
  · rw [JSLength.toUint32]
    omega
  · rfl

theorem number_jsNewUint32 (n : ℕ) : (jsNewUint32 n).number = n := by
  rw [jsNewUint32]
  split <;> rfl

theorem number_jsNewInt32 (hn : n ≤ 2 ^ 31) : (jsNewInt32 n).number = n ↔ n ≠ 2 ^ 31 := by
  rw [jsNewInt32, JSLength.number, Int.bmod_def]
  split <;> omega

theorem observed_throwOrFalse (h : a.view = b.view) (e : JSError) :
    (throwOrFalse throws e a).observed = (throwOrFalse throws e b).observed := by
  cases throws
  · exact congrArg (Observed.returned false) h
  · exact congrArg (Observed.exception e) h

theorem observed_returned {α : Type} {x : α} :
    (Outcome.returned x a).observed = (Outcome.returned x b).observed ↔ a.view = b.view :=
  ⟨fun h => (Observed.returned.inj h).2, congrArg _⟩

theorem view_eq_iff {e e' : Elements} (l l' : JSLength) (h : e.convert = e'.convert) :
    ({ a with elements := e, length := l } : JSArray).view =
      ({ a with elements := e', length := l' } : JSArray).view ↔ l.number = l'.number := by
  rw [JSArray.view, View.mk.injEq, h]
  exact ⟨fun h => h.2.1, fun h => ⟨rfl, h, rfl, rfl⟩⟩

/-- An element is added to a fast array as to any other, up to the length. -/
theorem addFastArrayElement_iff (ha : a.elements = .fast values)
    (hlength : a.length = jsNewUint32 n) (hn : n < 2 ^ 32) (hle : values.length ≤ n)
    (hsmall : values.length < 2 ^ 31) :
    (addFastArrayElement a values val throws).observed = (createElement a values.length val throws).observed ↔
    ¬(a.lengthWritable ∧ values.length + 1 = 2 ^ 31 ∧ n + 1 = 2 ^ 31) := by
  have hlen : (values.length + 1) % 2 ^ 32 = values.length + 1 := Nat.mod_eq_of_lt (by omega)
  have huint : a.length.toUint32 = n := hlength ▸ toUint32_jsNewUint32 hn
  rw [createElement, huint, ha, ← convert_append]
  by_cases hlt : n < values.length + 1
  · have hint : a.length = .int n := by rw [hlength, jsNewUint32, if_pos (by omega)]
    rw [addFastArrayElement, hint]
    dsimp only
    rw [← hint, huint, hlen, if_pos hlt, if_pos hlt]
    cases hwritable : a.lengthWritable with
    | false =>
      exact iff_of_true (observed_throwOrFalse (view_toSlow a).symm _) fun h => Bool.false_ne_true h.1
    | true =>
      rw [if_pos rfl, if_pos rfl]
      have hnumber : (jsNewInt32 (values.length + 1)).number = (jsNewUint32 (values.length + 1)).number ↔
          values.length + 1 ≠ 2 ^ 31 := by
        rw [number_jsNewUint32]
        exact number_jsNewInt32 hsmall
      have hconvert : (Elements.fast (values ++ [val])).convert =
          (Elements.slow (Elements.fast (values ++ [val])).convert).convert := rfl
      have hview := view_eq_iff (a := { a with lengthWritable := true })
        (jsNewInt32 (values.length + 1)) (jsNewUint32 (values.length + 1)) hconvert
      rw [observed_returned]
      refine (hview.trans hnumber).trans ?_
      constructor
      · exact fun hne h => hne h.2.1
      · exact fun h heq => h ⟨rfl, heq, by omega⟩
  · have hadd : addFastArrayElement a values val throws =
        .returned true { a with elements := .fast (values ++ [val]) } := by
      rw [addFastArrayElement]
      split
      · rename_i v hv
        rw [← hv, huint, hlen, if_neg hlt]
      · rfl
    rw [hadd, if_neg hlt]
    exact iff_of_true rfl fun h => by omega

theorem addElement_toSlow (h : ¬(idx < 2 ^ 31 ∧ idx = values.length))
    (ha : a.elements = .fast values) :
    (addElement chain a idx val throws).observed = (addElement chain a.toSlow idx val throws).observed := by
  rw [addElement, addElement]
  cases protoLookup idx val chain with
  | readOnly => exact observed_throwOrFalse (view_toSlow a).symm _
  | noSetter => exact observed_throwOrFalse (view_toSlow a).symm _
  | call c => exact congrArg (Observed.call c) (view_toSlow a).symm
  | add =>
    have hext : a.toSlow.extensible = a.extensible := rfl
    rw [hext, ha]
    dsimp only
    split
    · rfl
    · exact observed_throwOrFalse (view_toSlow a).symm _

/-- `JS_SetPropertyInternal` on a fast array, and on the same array after its conversion. -/
theorem jsSetPropertyInternal_iff (chain : Chain) (a : FastArray) (idx : ℕ) (val : JSValue) (throws : Bool) :
    (jsSetPropertyInternal chain a.toJSArray idx val throws).observed =
      (jsSetPropertyInternal chain a.toJSArray.toSlow idx val throws).observed ↔
    ¬(a.Overflows idx ∧ protoLookup idx val chain = .add) := by
  obtain ⟨n, hn, hle, hlength⟩ := a.proper
  have ha : a.toJSArray.elements = .fast a.values := rfl
  have hslow : a.toJSArray.toSlow.elements = .slow (Elements.fast a.values).convert := rfl
  rw [jsSetPropertyInternal, jsSetPropertyInternal, ha, hslow]
  dsimp only
  by_cases hlt : idx < a.values.length
  · have hidx : idx < 2 ^ 31 := Nat.lt_of_lt_of_le hlt a.small
    have hprop : (Elements.fast a.values).convert idx = some (.plain a.values[idx]) := by
      rw [Elements.convert, List.getElem?_eq_getElem hlt, Option.map_some]
    rw [if_pos ⟨hidx, hlt⟩, hprop]
    refine iff_of_true (observed_returned.mpr ((view_eq_iff _ _ ?_).mpr rfl)) fun h => Nat.ne_of_lt hlt h.1.1
    exact convert_set hlt
  · have hnot : ¬(idx < 2 ^ 31 ∧ idx < a.values.length) := fun h => hlt h.2
    rw [if_neg hnot, convert_of_le (Nat.not_lt.mp hlt)]
    by_cases hnext : idx < 2 ^ 31 ∧ idx = a.values.length
    · obtain ⟨hidx, rfl⟩ := hnext
      by_cases hadd : protoLookup a.values.length val chain = .add ∧ a.toJSArray.extensible = true
      · obtain ⟨hadd, hext⟩ := hadd
        have hfast : addElement chain a.toJSArray a.values.length val throws =
            addFastArrayElement a.toJSArray a.values val throws := by
          rw [addElement, hadd]
          rw [if_pos hext, ha]
          dsimp only
          rw [if_pos ⟨hidx, rfl⟩]
        have hslow : addElement chain a.toJSArray.toSlow a.values.length val throws =
            createElement a.toJSArray a.values.length val throws := by
          rw [addElement, hadd]
          exact if_pos hext
        have hnumber : a.length.number = n := hlength ▸ number_jsNewUint32 n
        rw [hfast, hslow, addFastArrayElement_iff ha hlength hn hle hidx]
        refine not_congr ?_
        constructor
        · rintro ⟨hwritable, hlast, hn⟩
          exact ⟨⟨rfl, hlast, by omega, hwritable, hext⟩, hadd⟩
        · rintro ⟨⟨-, hlast, hn, hwritable, -⟩, -⟩
          exact ⟨hwritable, hlast, by omega⟩
      · refine iff_of_true ?_ fun h => hadd ⟨h.2, h.1.2.2.2.2⟩
        rw [addElement, addElement]
        cases hsettled : protoLookup a.values.length val chain with
        | readOnly => exact observed_throwOrFalse (view_toSlow _).symm _
        | noSetter => exact observed_throwOrFalse (view_toSlow _).symm _
        | call c => exact congrArg (Observed.call c) (view_toSlow _).symm
        | add =>
          have hext : ¬a.toJSArray.extensible = true := fun h => hadd ⟨hsettled, h⟩
          rw [if_neg hext]
          refine (observed_throwOrFalse (view_toSlow _).symm _).trans ?_
          exact congrArg Outcome.observed (if_neg hext).symm
    · refine iff_of_true (addElement_toSlow hnext ha) fun h => hnext ⟨?_, h.1.1⟩
      have hlast := h.1.2.1
      have hidx := h.1.1
      omega

end QuickJs.ArrayElement
