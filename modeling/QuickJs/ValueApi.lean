import QuickJs.Run
import QuickJs.Ledger

/-!
# The references of the C++ values

A `Value` owns one reference to a value of the engine. Its methods call functions that borrow
their arguments, take them over or return new references. The counts of the engine are compared
with the holders of references: the properties and everything else outside the API, the `Value`
objects, and the calls that have not returned.
-/

namespace QuickJs.ValueApi

open Run Ledger

/-- The address of an object or a string. -/
abbrev Ref : Type := BitVec 64

inductive JSValue
  | undefined
  | exception
  /-- any other value without a reference count -/
  | plain (n : ℤ)
  | ref (r : Ref)
  deriving DecidableEq

/-- The reference of a value. -/
def JSValue.header : JSValue → Option Ref
  | .ref r => some r
  | _ => none

/-- The name of a property: an atom that was made of a string, or other bits taken for an atom. -/
inductive Key
  | name (s : String)
  | bits (b : BitVec 32)
  deriving DecidableEq

/-- A reference held outside the API: by a property of an object, or by anything else. -/
structure Slot where
  holder : Option (Ref × Key)
  value : JSValue
  deriving DecidableEq

/-- A `Value`, and whether it has a context; a value without one has nothing. -/
structure Value where
  value : JSValue
  context : Bool
  deriving DecidableEq

/-- A call that has not returned: the method it owns and the converted arguments. -/
structure Frame where
  method : JSValue
  argv : List JSValue

/-- The `Value` objects are numbered; `written` has what the API has last stored under a name and
nobody has changed since. -/
structure State where
  refCount : Ref → ℤ
  slots : List Slot
  values : List (Option Value)
  frames : List Frame
  written : Ref → String → Option JSValue

def State.initial : State := ⟨fun _ => 0, [], [], [], fun _ _ => none⟩

/-! ## The engine -/

/-- `JS_DupValue`, and every new reference. -/
def State.dup (s : State) (v : JSValue) : State :=
  { s with refCount := fun r => s.refCount r + owes JSValue.header v r }

/-- `JS_FreeValue`. -/
def State.free (s : State) (v : JSValue) : State :=
  { s with refCount := fun r => s.refCount r - owes JSValue.header v r }

def State.slot (s : State) (holder : Option (Ref × Key)) : Option Slot :=
  s.slots.find? fun x => x.holder = holder

/-- The property of an object. -/
def State.prop (s : State) (r : Ref) (k : Key) : Option JSValue :=
  (s.slot (some (r, k))).map Slot.value

/-- A reference to the value is held outside the API. -/
def State.hold (s : State) (v : JSValue) : State := { s with slots := ⟨none, v⟩ :: s.slots }

/-- And no more. -/
def State.drop (s : State) (v : JSValue) : State :=
  { s with slots := s.slots.eraseP (· = ⟨none, v⟩) }

/-- A property of the object. -/
def Slot.isOf (x : Slot) (r : Ref) : Bool := x.holder.any fun h => h.1 = r

/-- `free_zero_refcount_obj`: the properties of the object are freed. -/
def State.reclaim (s : State) (r : Ref) : State :=
  { s with
    slots := s.slots.filter (!·.isOf r)
    refCount := fun q =>
      s.refCount q - held (fun x : Slot => x.value.header) (s.slots.filter (·.isOf r)) q
    written := Function.update s.written r fun _ => none }

/-- A name does not have any more what the API has stored there. -/
def State.forget (s : State) (r : Ref) : Key → State
  | .name n => { s with
    written := Function.update s.written r (Function.update (s.written r) n none) }
  | .bits _ => s

/-- `delete_property`. -/
def State.delete (s : State) (r : Ref) (k : Key) : State :=
  match s.slot (some (r, k)) with
  | none => s
  | some x =>
    (({ s with slots := s.slots.eraseP fun x => x.holder = some (r, k) } : State).free
      x.value).forget r k

/-- A property takes over the reference of a value. -/
def State.store (s : State) (r : Ref) (k : Key) (v : JSValue) : State :=
  let s := (s.delete r k).forget r k
  { s with slots := ⟨some (r, k), v⟩ :: s.slots }

/-- `JS_SetProperty` takes over `value`; it is freed if it cannot be stored as a property of the
object. -/
def setProperty (s : State) (obj : JSValue) (k : Key) (value : JSValue) (stored : Bool) : State :=
  match obj, stored with
  | .ref r, true => s.store r k value
  | _, _ => s.free value

/-- The API has stored a value under a name. -/
def State.record (s : State) (obj : JSValue) (name : String) (value : JSValue) (stored : Bool) :
    State :=
  match obj, stored with
  | .ref r, true => { s with
    written := Function.update s.written r (Function.update (s.written r) name (some value)) }
  | _, _ => s

/-- `JS_GetPropertyStr`: a property of the object, or `other`, from a prototype or a getter. -/
def getPropertyStr (s : State) (obj : JSValue) (name : String) (other : JSValue) :
    State × JSValue :=
  let result := match obj with
    | .ref r => (s.prop r (.name name)).getD other
    | _ => other
  (s.dup result, result)

/-! ## The API -/

/-- A new `Value` object. -/
def State.newValue (s : State) (x : Value) : State := { s with values := s.values ++ [some x] }

def State.setValue (s : State) (i : ℕ) (x : Option Value) : State :=
  { s with values := s.values.set i x }

/-- What a destructor frees. -/
def Value.owned (x : Value) : JSValue := if x.context then x.value else .undefined

/-- A `Value` object that has not been destroyed. -/
def State.value (s : State) (i : ℕ) : Option Value := s.values[i]?.join

/-- A method is called on a value that has a context. -/
def State.self (s : State) (i : ℕ) : Option JSValue :=
  (s.value i).bind fun x => if x.context then some x.value else none

/-- `Unwrap`. -/
def State.unwrap (s : State) (i : ℕ) : State := match s.value i with
  | none => s
  | some x => s.setValue i (some { x with value := .undefined })

/-- An argument of a call: a number or a truth value, or a string that gets a new header. -/
inductive Arg
  | plain (n : ℤ)
  | string (r : Ref)

def Arg.isString : Arg → Bool
  | .plain _ => false
  | .string _ => true

/-- `ConvertToJsType<T>::Convert` of the arguments in order. -/
def convertArgs : List Arg → State → Option (State × List JSValue)
  | [], s => some (s, [])
  | .plain n :: args, s => (convertArgs args s).map fun (s, argv) => (s, .plain n :: argv)
  | .string r :: args, s =>
    if s.refCount r = 0 then
      (convertArgs args (s.dup (.ref r))).map fun (s, argv) => (s, .ref r :: argv)
    else none

/-- `Call` and `CallWithThis`, up to the call. -/
def beginCall (s : State) (args : List Arg) : Option State :=
  (convertArgs args s).map fun (s, argv) => { s with frames := ⟨.undefined, argv⟩ :: s.frames }

/-- `CallMethod`, up to the call. -/
def beginCallMethod (s : State) (obj : JSValue) (name : String) (args : List Arg)
    (other : JSValue) : Option State :=
  let (s, method) := getPropertyStr s obj name other
  if method = .exception then some ((s.free method).newValue ⟨.undefined, true⟩)
  else (convertArgs args s).map fun (s, argv) => { s with frames := ⟨method, argv⟩ :: s.frames }

/-- The last call returns, with a new reference to the result. -/
def endCall (s : State) (result : JSValue) : Option State :=
  match s.frames with
  | [] => none
  | f :: frames =>
    some ((({ s with frames := frames } : State).dup result).free f.method |>.newValue
      ⟨result, true⟩)

/-- `IsRegisteredClass`. -/
def isRegisteredClass (s : State) (val : JSValue) (other : JSValue) : State :=
  let (s, index) := getPropertyStr s val "__c_class_index" other
  if index = .undefined then s.free index else s.free val

/-! ## Runs -/

inductive Op
  /-- the engine or the program gets a new reference, perhaps to a new object -/
  | acquire (v : JSValue)
  /-- and gives one up -/
  | release (v : JSValue)
  /-- a script sets a property -/
  | define (r : Ref) (k : Key) (v : JSValue)
  /-- a script deletes a property -/
  | delete (r : Ref) (k : Key)
  /-- an object without references is freed with its properties -/
  | reclaim (r : Ref)
  /-- `Value(value, context)` takes over a reference -/
  | construct (v : JSValue)
  | moveConstruct (i : ℕ)
  /-- the value `j` is moved to `i` -/
  | moveAssign (i j : ℕ)
  | destroy (i : ℕ)
  | unwrap (i : ℕ)
  | setPropertyStr (i : ℕ) (name : String) (j : ℕ) (stored : Bool)
  /-- the string of the name is made at `string`; its address is taken for an atom, which may be
  the atom of `atom` -/
  | setProperty (i : ℕ) (name : String) (j : ℕ) (string : Ref) (atom : Option String)
    (stored : Bool)
  | getProperty (i : ℕ) (name : String) (other : JSValue)
  | call (i : ℕ) (args : List Arg)
  | callWithThis (i this : ℕ) (args : List Arg)
  | callMethod (i : ℕ) (name : String) (args : List Arg) (other : JSValue)
  | endCall (result : JSValue)
  | isRegisteredClass (val : JSValue) (other : JSValue)

/-- One step; only values that have not been destroyed can be used, and only with a context can
their methods be called. -/
def State.step (s : State) : Op → Option State
  | .acquire v => some ((s.dup v).hold v)
  | .release v => if ⟨none, v⟩ ∈ s.slots then some ((s.drop v).free v) else none
  | .define r k v => some ((s.dup v).store r k v)
  | .delete r k => some ((s.delete r k).forget r k)
  | .reclaim r => if s.refCount r = 0 then some (s.reclaim r) else none
  | .construct v =>
    if ⟨none, v⟩ ∈ s.slots then some ((s.drop v).newValue ⟨v, true⟩) else none
  | .moveConstruct i => (s.value i).map fun x =>
    (s.setValue i (some ⟨.undefined, false⟩)).newValue x
  | .moveAssign i j =>
    match s.value i, s.value j with
    | some x, some y =>
      if i = j then some s
      else some (((s.free x.owned).setValue i (some y)).setValue j (some ⟨.undefined, false⟩))
    | _, _ => none
  | .destroy i => (s.value i).map fun x => (s.free x.owned).setValue i none
  | .unwrap i => (s.value i).map fun x => (s.unwrap i).hold x.value
  | .setPropertyStr i name j stored =>
    match s.self i, s.value j with
    | some obj, some y =>
      some ((setProperty (s.unwrap j) obj (.name name) y.value stored).record obj name y.value
        stored)
    | _, _ => none
  | .setProperty i name j string atom stored =>
    match s.self i, s.value j with
    | some obj, some y =>
      if s.refCount string = 0 then
        let s := s.dup (.ref string)
        let k := match atom with
          | some name => .name name
          | none => .bits (string.setWidth 32)
        some ((setProperty (s.unwrap j) obj k y.value stored).record obj name y.value stored)
      else none
    | _, _ => none
  | .getProperty i name other => (s.self i).map fun obj =>
    let (s, prop) := getPropertyStr s obj name other
    if prop = .exception then (s.free prop).newValue ⟨.undefined, true⟩
    else s.newValue ⟨prop, true⟩
  | .call i args => (s.self i).bind fun _ => beginCall s args
  | .callWithThis i this args => (s.self i).bind fun _ => (s.value this).bind fun _ =>
    beginCall s args
  | .callMethod i name args other => (s.self i).bind fun obj =>
    beginCallMethod s obj name args other
  | .endCall result => endCall s result
  | .isRegisteredClass val other => some (isRegisteredClass s val other)

/-- When all `Value` objects are destroyed and all calls have returned, every object has the
references that are held outside the API; and what was written under a name can be read. -/
structure Accounted (s : State) : Prop where
  released : (∀ x ∈ s.values, x = none) → s.frames = [] →
    ∀ r, s.refCount r = held (fun x : Slot => x.value.header) s.slots r
  readBack : ∀ r name v, s.written r name = some v → ∀ other, (getPropertyStr s (.ref r) name other).2 = v

/-- A call that releases all it creates: no string is an argument, the name of a property is not
given to `SetProperty`, and a class check finds no class or has nothing with a count. -/
def Op.Proper (s : State) : Op → Prop
  | .setProperty .. => False
  | .call _ args | .callWithThis _ _ args => ∀ arg ∈ args, ¬arg.isString
  | .callMethod i name args other => (∀ arg ∈ args, ¬arg.isString) ∨
    ∀ obj ∈ s.self i, (getPropertyStr s obj name other).2 = .exception
  | .isRegisteredClass val other =>
    (getPropertyStr s val "__c_class_index" other).2 = .undefined ∨ val.header = none ∧
      (getPropertyStr s val "__c_class_index" other).2.header = none
  | _ => True

instance (s : State) : DecidablePred fun op : Op => op.Proper s
  | .setProperty .. => inferInstanceAs (Decidable False)
  | .call _ args | .callWithThis _ _ args =>
    inferInstanceAs (Decidable (∀ arg ∈ args, ¬arg.isString))
  | .callMethod i name args other =>
    inferInstanceAs (Decidable ((∀ arg ∈ args, ¬arg.isString) ∨
      ∀ obj ∈ s.self i, (getPropertyStr s obj name other).2 = .exception))
  | .isRegisteredClass val other =>
    inferInstanceAs (Decidable ((getPropertyStr s val "__c_class_index" other).2 = .undefined ∨
      val.header = none ∧ (getPropertyStr s val "__c_class_index" other).2.header = none))
  | .acquire _ | .release _ | .define .. | .delete .. | .reclaim _ | .construct _
  | .moveConstruct _ | .moveAssign .. | .destroy _ | .unwrap _ | .setPropertyStr ..
  | .getProperty .. | .endCall _ => inferInstanceAs (Decidable True)

/-! ## The ledger -/

variable {s s' : State} {op : Op} {r : Ref} {k : Key} {v : JSValue} {i : ℕ} {x : Value}
  {o : Option Value}

/-- The reference of a `Value` object. -/
def valueHeader (x : Option Value) : Option Ref := x.bind fun x => x.owned.header

/-- The references that are held of an object. -/
def State.holders (s : State) (r : Ref) : ℤ :=
  held (fun x : Slot => x.value.header) s.slots r + held valueHeader s.values r +
    held (fun f : Frame => f.method.header) s.frames r

/-- The references that have been lost, less those that have been released too often. -/
def State.lost (s : State) (r : Ref) : ℤ := s.refCount r - s.holders r

@[simp] theorem lost_dup : (s.dup v).lost r = s.lost r + owes JSValue.header v r := by
  simp only [State.lost, State.dup, State.holders]
  omega

@[simp] theorem lost_free : (s.free v).lost r = s.lost r - owes JSValue.header v r := by
  simp only [State.lost, State.free, State.holders]
  omega

@[simp] theorem lost_forget : (s.forget r k).lost = s.lost := by
  cases k <;> rfl

@[simp] theorem lost_newValue : (s.newValue x).lost r = s.lost r - owes JSValue.header x.owned r := by
  simp only [State.lost, State.newValue, State.holders, held_append, held_cons, held_nil]
  have : owes valueHeader (some x) r = owes JSValue.header x.owned r := rfl
  omega

/-- The references of a destroyed value, or of one that has been moved from, are none. -/
theorem lost_setValue (h : s.value i = some x) : (s.setValue i o).lost r =
    s.lost r + owes JSValue.header x.owned r - owes valueHeader o r := by
  simp only [State.lost, State.setValue, State.holders,
    held_set valueHeader o r (Option.join_eq_some_iff.mp h)]
  have : owes valueHeader (some x) r = owes JSValue.header x.owned r := rfl
  omega

variable {z : Slot} {l : List Slot} {j : ℕ} {args : List Arg}

theorem owes_slot :
    owes (fun z : Slot => z.value.header) z r = owes JSValue.header z.value r := rfl

@[simp] theorem lost_hold : (s.hold v).lost r = s.lost r - owes JSValue.header v r := by
  simp only [State.lost, State.hold, State.holders, held_cons, owes_slot]
  omega

variable {p : Slot → Bool} {q : Ref} {obj other : JSValue} {stored : Bool} {name : String}

theorem lost_eraseP_slot (h : s.slots.find? p = some z) :
    State.lost { s with slots := s.slots.eraseP p } r = s.lost r + owes JSValue.header z.value r := by
  simp only [State.lost, State.holders, held_eraseP h, owes_slot]
  omega

theorem lost_drop (h : ⟨none, v⟩ ∈ s.slots) : (s.drop v).lost r = s.lost r + owes JSValue.header v r := by
  have hfind : s.slots.find? (· = ⟨none, v⟩) = some ⟨none, v⟩ := by
    obtain ⟨z, hz⟩ : ∃ z, s.slots.find? (· = ⟨none, v⟩) = some z :=
      Option.isSome_iff_exists.mp (List.find?_isSome.mpr ⟨_, h, by simp⟩)
    have heq := List.find?_some hz
    rw [hz, of_decide_eq_true heq]
  exact lost_eraseP_slot hfind

@[simp] theorem lost_reclaim : (s.reclaim q).lost r = s.lost r := by
  have hsplit := held_filter_add_held_filter_not (fun x : Slot => x.value.header) (fun x => x.isOf q)
    s.slots r
  simp only [State.lost, State.reclaim, State.holders]
  omega

@[simp] theorem lost_delete : (s.delete q k).lost r = s.lost r := by
  unfold State.delete
  split
  · rfl
  · rename_i z hz
    rw [lost_forget, lost_free, lost_eraseP_slot hz]
    omega

@[simp] theorem lost_store : (s.store q k v).lost r = s.lost r - owes JSValue.header v r := by
  have hcons : (s.store q k v).lost r = (((s.delete q k).forget q k).hold v).lost r := by
    simp only [State.lost, State.holders, State.store, State.hold, held_cons, owes_slot]
  rw [hcons, lost_hold, lost_forget, lost_delete]

@[simp] theorem lost_setProperty :
    (setProperty s obj k v stored).lost r = s.lost r - owes JSValue.header v r := by
  unfold setProperty
  split
  · exact lost_store
  · exact lost_free

@[simp] theorem lost_record : (s.record obj name v stored).lost = s.lost := by
  unfold State.record
  split <;> rfl

theorem lost_getPropertyStr : (getPropertyStr s obj name other).1.lost r =
      s.lost r + owes JSValue.header (getPropertyStr s obj name other).2 r :=
  lost_dup

/-- The reference that `Unwrap` gives away. -/
theorem lost_unwrap (h : s.value i = some x) :
    (s.unwrap i).lost r = s.lost r + owes JSValue.header x.owned r := by
  rw [State.unwrap, h]
  have hnone : owes valueHeader (some { x with value := .undefined }) r = 0 :=
    owes_eq_zero (by cases x with | mk v c => cases c <;> rfl)
  simp only [lost_setValue h]
  omega

/-- A value without a context is undefined. -/
def State.Plain (s : State) : Prop := ∀ x, some x ∈ s.values → x.context = false → x.value = .undefined

theorem State.Plain.owned (h : s.Plain) (hx : s.value i = some x) : x.owned = x.value := by
  cases hc : x.context with
  | true => rw [Value.owned, if_pos hc]
  | false =>
    rw [Value.owned, hc, h x (List.mem_of_getElem? (Option.join_eq_some_iff.mp hx)) hc]
    rfl

/-- Arguments that are no strings are not counted. -/
theorem convertArgs_eq : ∀ {args : List Arg} {s s' : State} {argv : List JSValue},
    (∀ arg ∈ args, ¬arg.isString) → convertArgs args s = some (s', argv) → s' = s
  | [], _, _, _, _, hs => by
    cases hs
    rfl
  | .plain _ :: args, s, s', _, h, hs => by
    obtain ⟨⟨t, argv⟩, ht, heq⟩ := Option.map_eq_some_iff.mp hs
    cases heq
    exact convertArgs_eq (fun arg harg => h arg (.tail _ harg)) ht
  | .string _ :: _, _, _, _, h, _ => absurd rfl (h _ (.head _))

@[simp] theorem lost_cons_frame {f : Frame} : State.lost { s with frames := f :: s.frames } r =
      s.lost r - owes JSValue.header f.method r := by
  have hf : owes (fun f : Frame => f.method.header) f r = owes JSValue.header f.method r := rfl
  simp only [State.lost, State.holders, held_cons]
  omega

/-! ## What can be read -/

/-- What was written under a name is there. -/
def State.Kept (s : State) : Prop :=
  ∀ r name v, s.written r name = some v → s.prop r (.name name) = some v

theorem State.Kept.of_eq (h : s.Kept) (hslots : s'.slots = s.slots)
    (hwritten : s'.written = s.written) : s'.Kept := by
  intro r name v hv
  rw [hwritten] at hv
  rw [State.prop, State.slot, hslots]
  exact h r name v hv

/-- Holders with another key do not change what is found. -/
theorem find?_eraseP_of_ne {q : Slot → Bool} (h : ∀ x, q x → p x = false) :
    (l.eraseP p).find? q = l.find? q := by
  induction l with
  | nil => rfl
  | cons x l ih =>
    rw [List.eraseP_cons, List.find?_cons]
    cases hp : p x with
    | false =>
      rw [cond_false, List.find?_cons, ih]
    | true =>
      cases hq : q x with
      | false => rfl
      | true => exact absurd hp (by rw [h x hq]; nofun)

theorem written_forget (h : (s.forget q k).written r name = some v) :
    s.written r name = some v ∧ (q, k) ≠ (r, .name name) := by
  cases k with
  | bits b => exact ⟨h, nofun⟩
  | name n =>
    simp only [State.forget, Function.update_apply] at h
    by_cases hr : r = q
    · subst hr
      rw [if_pos rfl, Function.update_apply] at h
      by_cases hn : name = n
      · rw [if_pos hn] at h
        cases h
      · rw [if_neg hn] at h
        refine ⟨h, fun heq => hn ?_⟩
        cases heq
        rfl
    · rw [if_neg hr] at h
      refine ⟨h, fun heq => hr ?_⟩
      cases heq
      rfl

@[simp] theorem slots_forget : (s.forget q k).slots = s.slots := by
  cases k <;> rfl

theorem State.Kept.forget (h : s.Kept) : (s.forget q k).Kept := by
  intro r name v hv
  rw [State.prop, State.slot, slots_forget]
  exact h r name v (written_forget hv).1

/-- A holder that leaves has another key than what is found. -/
theorem find?_eraseP_holder {holder : Option (Ref × Key)} (h : ∀ x, p x → x.holder ≠ holder) :
    ((l.eraseP p).find? fun x => x.holder = holder) = l.find? fun x => x.holder = holder :=
  find?_eraseP_of_ne fun x hx => Bool.eq_false_iff.mpr fun hp => h x hp (of_decide_eq_true hx)

theorem State.Kept.delete (h : s.Kept) : (s.delete q k).Kept := by
  unfold State.delete
  split
  · exact h
  · intro r name v hv
    obtain ⟨hold, hne⟩ := written_forget hv
    rw [State.prop, State.slot, slots_forget]
    refine (congrArg (Option.map Slot.value) (find?_eraseP_holder fun x hx heq => ?_)).trans
      (h r name v hold)
    exact hne (Option.some.inj ((of_decide_eq_true hx).symm.trans heq))

/-- A reference that is not a property. -/
theorem State.Kept.hold (h : s.Kept) : (s.hold v).Kept := h

theorem State.Kept.drop (h : s.Kept) : (s.drop v).Kept := by
  intro r name w hw
  refine (congrArg (Option.map Slot.value) (find?_eraseP_holder fun x hx heq => ?_)).trans
    (h r name w hw)
  rw [of_decide_eq_true hx] at heq
  cases heq

theorem State.Kept.reclaim (h : s.Kept) : (s.reclaim q).Kept := by
  intro r name w hw
  simp only [State.reclaim, Function.update_apply] at hw
  split at hw
  · cases hw
  · rename_i hne
    have hfind : (s.slots.filter (!·.isOf q)).find? (fun x => x.holder = some (r, .name name)) =
        s.slots.find? fun x => x.holder = some (r, .name name) := by
      rw [List.find?_filter]
      congr 1
      funext x
      by_cases hx : x.holder = some (r, .name name)
      · have hother : x.isOf q = false := by
          rw [Slot.isOf, hx]
          exact decide_eq_false hne
        simp [hother]
      · simp [hx]
    exact (congrArg (Option.map Slot.value) hfind).trans (h r name w hw)

theorem State.Kept.store (h : s.Kept) : (s.store q k v).Kept := by
  intro r name w hw
  obtain ⟨hold, hne⟩ := written_forget hw
  rw [State.prop, State.slot, State.store, List.find?_cons_of_neg, slots_forget]
  · exact h.delete r name w hold
  · simpa using hne

theorem State.Kept.setProperty (h : s.Kept) : (setProperty s obj k v stored).Kept := by
  unfold ValueApi.setProperty
  split
  · exact h.store
  · exact h.of_eq rfl rfl

/-- What is written now is there, too. -/
theorem State.Kept.record (h : s.Kept) (hprop : ∀ q, obj = .ref q → stored → s.prop q (.name name) = some v) :
    (s.record obj name v stored).Kept := by
  unfold State.record
  split
  · rename_i q
    intro r n w hw
    simp only [Function.update_apply] at hw
    by_cases hr : r = q
    · subst hr
      rw [if_pos rfl, Function.update_apply] at hw
      by_cases hn : n = name
      · rw [if_pos hn] at hw
        cases hw
        cases hn
        exact hprop _ rfl rfl
      · rw [if_neg hn] at hw
        exact h r n w hw
    · rw [if_neg hr] at hw
      exact h r n w hw
  · exact h

theorem prop_setProperty (hstored : stored) : (setProperty s (.ref q) k v stored).prop q k = some v := by
  subst hstored
  rw [setProperty, State.prop, State.slot, State.store, List.find?_cons_of_pos]
  · rfl
  · exact decide_eq_true rfl

/-! ## The runs -/

/-- Nothing is lost or released too often, and what was written is there. -/
structure Sound (s : State) : Prop where
  lost : ∀ r, s.lost r = 0
  plain : s.Plain
  kept : s.Kept

theorem sound_initial : Sound State.initial := ⟨fun _ => rfl, nofun, nofun⟩

theorem State.Plain.of_eq (h : s.Plain) (hvalues : s'.values = s.values) : s'.Plain := by
  rw [State.Plain, hvalues]
  exact h

theorem State.Plain.newValue (h : s.Plain) (hx : x.context = false → x.value = .undefined) :
    (s.newValue x).Plain := by
  intro y hy hcontext
  obtain hy | hy := List.mem_append.mp hy
  · exact h y hy hcontext
  · cases List.mem_singleton.mp hy
    exact hx hcontext

theorem State.Plain.setValue (h : s.Plain)
    (hx : ∀ y ∈ o, y.context = false → y.value = .undefined) : (s.setValue i o).Plain := by
  intro y hy hcontext
  obtain hy | hy := List.mem_or_eq_of_mem_set hy
  · exact h y hy hcontext
  · exact hx y hy.symm hcontext

theorem State.Plain.unwrap (h : s.Plain) : (s.unwrap i).Plain := by
  unfold State.unwrap
  split
  · exact h
  · refine h.setValue fun y hy _ => ?_
    cases hy
    rfl

/-- What a value that has been moved from contains. -/
theorem State.Plain.value (h : s.Plain) (hx : s.value i = some x) :
    x.context = false → x.value = .undefined :=
  h x (List.mem_of_getElem? (Option.join_eq_some_iff.mp hx))

@[simp] theorem values_delete : (s.delete q k).values = s.values := by
  unfold State.delete
  split
  · rfl
  · cases k <;> rfl

@[simp] theorem values_forget : (s.forget q k).values = s.values := by
  cases k <;> rfl

@[simp] theorem values_setProperty : (ValueApi.setProperty s obj k v stored).values = s.values := by
  unfold ValueApi.setProperty
  split
  · exact values_forget.trans values_delete
  · rfl

@[simp] theorem values_record : (s.record obj name v stored).values = s.values := by
  unfold State.record
  split <;> rfl

section

variable (h : Sound s)

include h

theorem Sound.moveAssign (hs : s.step (.moveAssign i j) = some s') : Sound s' := by
  unfold State.step at hs
  simp only at hs
  split at hs
  · rename_i x y hx hy
    split at hs <;> cases hs
    · exact h
    · rename_i hne
      have hj : State.value ((s.free x.owned).setValue i (some y)) j = some y :=
        (congrArg Option.join (List.getElem?_set_ne hne)).trans hy
      refine ⟨fun r => ?_, (State.Plain.setValue (h.plain.of_eq rfl) ?_).setValue ?_, h.kept.of_eq rfl rfl⟩
      · rw [lost_setValue hj, lost_setValue (s := s.free x.owned) hx, lost_free, h.lost]
        have hempty : owes valueHeader (some ⟨.undefined, false⟩) r = 0 := owes_eq_zero rfl
        have hmoved : owes valueHeader (some y) r = owes JSValue.header y.owned r := rfl
        omega
      · exact fun z hz => Option.some.inj hz ▸ h.plain.value hy
      · exact fun z hz _ => Option.some.inj hz ▸ rfl
  · cases hs

theorem Sound.setPropertyStr
    (hs : s.step (.setPropertyStr i name j stored) = some s') : Sound s' := by
  unfold State.step at hs
  simp only at hs
  split at hs
  · rename_i obj y hobj hy
    cases hs
    refine ⟨fun r => ?_, ?_, State.Kept.record ?_ fun q hq hstored => ?_⟩
    · rw [lost_record, lost_setProperty, lost_unwrap hy, h.lost, h.plain.owned hy]
      omega
    · exact State.Plain.of_eq h.plain.unwrap (values_record.trans values_setProperty)
    · refine State.Kept.setProperty (h.kept.of_eq ?_ ?_) <;> rw [State.unwrap, hy] <;> rfl
    · subst hq
      exact prop_setProperty hstored
  · cases hs

/-- What has been read is a new reference. -/
theorem Sound.getPropertyStr (obj : JSValue) (name : String) (other : JSValue) :
    let t := (ValueApi.getPropertyStr s obj name other).1
    (∀ r, t.lost r = owes JSValue.header (ValueApi.getPropertyStr s obj name other).2 r) ∧
      t.Plain ∧ t.Kept := by
  refine ⟨fun r => ?_, h.plain.of_eq rfl, h.kept.of_eq rfl rfl⟩
  rw [lost_getPropertyStr, h.lost, zero_add]

/-- A `Value` without a count, or the reference that has been read, is made a value. -/
theorem Sound.getProperty (hs : s.step (.getProperty i name other) = some s') : Sound s' := by
  obtain ⟨obj, -, rfl⟩ := Option.map_eq_some_iff.mp hs
  obtain ⟨hlost, hplain, hkept⟩ := h.getPropertyStr obj name other
  simp only
  split
  · refine ⟨fun r => ?_, State.Plain.newValue (hplain.of_eq rfl) nofun, hkept.of_eq rfl rfl⟩
    have hempty : owes JSValue.header (Value.mk .undefined true).owned r = 0 := owes_eq_zero rfl
    rw [lost_newValue, lost_free, hlost]
    omega
  · refine ⟨fun r => ?_, hplain.newValue nofun, hkept.of_eq rfl rfl⟩
    rw [lost_newValue, hlost]
    exact sub_self _

theorem Sound.beginCall (hargs : ∀ arg ∈ args, ¬arg.isString)
    (hs : beginCall s args = some s') : Sound s' := by
  obtain ⟨⟨t, argv⟩, ht, rfl⟩ := Option.map_eq_some_iff.mp hs
  cases convertArgs_eq hargs ht
  refine ⟨fun r => ?_, h.plain.of_eq rfl, h.kept.of_eq rfl rfl⟩
  rw [lost_cons_frame, h.lost, owes_eq_zero rfl]
  omega

theorem Sound.beginCallMethod (hargs : (∀ arg ∈ args, ¬arg.isString) ∨
      (ValueApi.getPropertyStr s obj name other).2 = .exception)
    (hs : beginCallMethod s obj name args other = some s') : Sound s' := by
  obtain ⟨hlost, hplain, hkept⟩ := h.getPropertyStr obj name other
  unfold ValueApi.beginCallMethod at hs
  simp only at hs
  split at hs
  · cases hs
    refine ⟨fun r => ?_, State.Plain.newValue (hplain.of_eq rfl) nofun, hkept.of_eq rfl rfl⟩
    have hempty : owes JSValue.header (Value.mk .undefined true).owned r = 0 := owes_eq_zero rfl
    rw [lost_newValue, lost_free, hlost]
    omega
  · rename_i hexc
    obtain ⟨⟨t, argv⟩, ht, rfl⟩ := Option.map_eq_some_iff.mp hs
    cases convertArgs_eq (hargs.resolve_right hexc) ht
    refine ⟨fun r => ?_, hplain.of_eq rfl, hkept.of_eq rfl rfl⟩
    rw [lost_cons_frame, hlost]
    exact sub_self _

theorem Sound.endCall {result : JSValue} (hs : endCall s result = some s') : Sound s' := by
  unfold ValueApi.endCall at hs
  split at hs
  · cases hs
  · rename_i f frames hframes
    cases hs
    refine ⟨fun r => ?_, State.Plain.newValue (h.plain.of_eq rfl) nofun, h.kept.of_eq rfl rfl⟩
    have hcons : s.lost r = State.lost { s with frames := frames } r - owes JSValue.header f.method r := by
      rw [← lost_cons_frame, ← hframes]
    have hresult : owes JSValue.header (Value.mk result true).owned r = owes JSValue.header result r := rfl
    rw [h.lost] at hcons
    rw [lost_newValue, lost_free, lost_dup]
    omega

theorem Sound.isRegisteredClass {val : JSValue}
    (hop : (Op.isRegisteredClass val other).Proper s) :
    Sound (isRegisteredClass s val other) := by
  obtain ⟨hlost, hplain, hkept⟩ := h.getPropertyStr val "__c_class_index" other
  unfold ValueApi.isRegisteredClass
  simp only
  split
  · refine ⟨fun r => ?_, hplain.of_eq rfl, hkept.of_eq rfl rfl⟩
    rw [lost_free, hlost, sub_self]
  · rename_i hdefined
    obtain ⟨hval, hindex⟩ := hop.resolve_left hdefined
    refine ⟨fun r => ?_, hplain.of_eq rfl, hkept.of_eq rfl rfl⟩
    rw [lost_free, hlost, owes_eq_zero hval, owes_eq_zero hindex]
    rfl

theorem Sound.step (hop : op.Proper s) (hs : s.step op = some s') : Sound s' := by
  cases op with
  | acquire v =>
    cases hs
    refine ⟨fun r => ?_, h.plain.of_eq rfl, State.Kept.hold (h.kept.of_eq rfl rfl)⟩
    rw [lost_hold, lost_dup, h.lost]
    omega
  | release v =>
    obtain ⟨hmem, hs⟩ := Option.ite_none_right_eq_some.mp hs
    cases hs
    refine ⟨fun r => ?_, h.plain.of_eq rfl, State.Kept.of_eq h.kept.drop rfl rfl⟩
    rw [lost_free, lost_drop hmem, h.lost]
    omega
  | define r k v =>
    cases hs
    refine ⟨fun q => ?_, h.plain.of_eq (values_forget.trans values_delete),
      State.Kept.store (h.kept.of_eq rfl rfl)⟩
    rw [lost_store, lost_dup, h.lost]
    omega
  | delete r k =>
    cases hs
    refine ⟨fun q => ?_, h.plain.of_eq (values_forget.trans values_delete), h.kept.delete.forget⟩
    rw [lost_forget, lost_delete, h.lost]
  | reclaim r =>
    obtain ⟨-, hs⟩ := Option.ite_none_right_eq_some.mp hs
    cases hs
    exact ⟨fun q => lost_reclaim.trans (h.lost q), h.plain.of_eq rfl, h.kept.reclaim⟩
  | construct v =>
    obtain ⟨hmem, hs⟩ := Option.ite_none_right_eq_some.mp hs
    cases hs
    refine ⟨fun r => ?_, State.Plain.newValue (h.plain.of_eq rfl) nofun, State.Kept.of_eq h.kept.drop rfl rfl⟩
    rw [lost_newValue, lost_drop hmem, h.lost]
    exact sub_eq_zero.mpr (zero_add _)
  | moveConstruct i =>
    obtain ⟨x, hx, rfl⟩ := Option.map_eq_some_iff.mp hs
    refine ⟨fun r => ?_, (h.plain.setValue fun y hy _ => Option.some.inj hy ▸ rfl).newValue
      (h.plain.value hx), h.kept.of_eq rfl rfl⟩
    rw [lost_newValue, lost_setValue hx, h.lost]
    have hempty : owes valueHeader (some ⟨.undefined, false⟩) r = 0 := owes_eq_zero rfl
    omega
  | moveAssign i j => exact h.moveAssign hs
  | destroy i =>
    obtain ⟨x, hx, rfl⟩ := Option.map_eq_some_iff.mp hs
    refine ⟨fun r => ?_, State.Plain.setValue (h.plain.of_eq rfl) nofun, h.kept.of_eq rfl rfl⟩
    rw [lost_setValue (s := s.free x.owned) hx, lost_free, h.lost]
    have hempty : owes valueHeader none r = 0 := owes_eq_zero rfl
    omega
  | unwrap i =>
    obtain ⟨x, hx, rfl⟩ := Option.map_eq_some_iff.mp hs
    refine ⟨fun r => ?_, h.plain.unwrap.of_eq rfl, State.Kept.hold (h.kept.of_eq ?_ ?_)⟩
    · rw [lost_hold, lost_unwrap hx, h.lost, h.plain.owned hx]
      omega
    all_goals
      rw [State.unwrap, hx]
      rfl
  | setPropertyStr i name j stored => exact h.setPropertyStr hs
  | setProperty i name j string atom stored => exact hop.elim
  | getProperty i name other => exact h.getProperty hs
  | call i args =>
    obtain ⟨obj, -, hs⟩ := Option.bind_eq_some_iff.mp hs
    exact h.beginCall hop hs
  | callWithThis i this args =>
    obtain ⟨obj, -, hs⟩ := Option.bind_eq_some_iff.mp hs
    obtain ⟨x, -, hs⟩ := Option.bind_eq_some_iff.mp hs
    exact h.beginCall hop hs
  | callMethod i name args other =>
    obtain ⟨obj, hobj, hs⟩ := Option.bind_eq_some_iff.mp hs
    exact h.beginCallMethod (hop.imp id fun hexc => hexc obj hobj) hs
  | endCall result => exact h.endCall hs
  | isRegisteredClass val other =>
    cases hs
    exact h.isRegisteredClass hop

theorem Sound.accounted : Accounted s := by
  refine ⟨fun hvalues hframes r => ?_, fun r name v hv other => ?_⟩
  · have hlost := h.lost r
    have hnone : held valueHeader s.values r = 0 :=
      held_eq_zero fun x hx => by rw [hvalues x hx]; rfl
    simp only [State.lost, State.holders, hframes, held_nil] at hlost
    omega
  · rw [ValueApi.getPropertyStr]
    simp only [h.kept r name v hv, Option.getD_some]

end

/-- **The references are balanced**: if no string is an argument of a call, `SetProperty` is not
used and no class check is made of an object of a class, every reference that the API has made is
released once and no other, and what is stored under a name can be read. -/
theorem references_accounted (s : State)
    (h : Reachable (· = State.initial) State.step (fun s op => op.Proper s) s) : Accounted s :=
  Sound.accounted (Reachable.invariant (fun _ hinit => hinit ▸ sound_initial)
    (fun _ _ _ h hop hs => h.step hop hs) h)

/-- A string is stored as a property and read back, a method is called with a number, and all
values are destroyed: the object keeps the reference to the string, and the program its own. -/
theorem references_accounted_example : ∃ s, Accounted s ∧ s.values = [none, none, none, none] ∧
    s.refCount 16 = 0 ∧ s.refCount 32 = 1 := by
  have hrun : (execIf (fun s op => decide (Op.Proper s op)) State.step State.initial
      [.acquire (.ref 16), .construct (.ref 16), .acquire (.ref 32), .construct (.ref 32),
        .setPropertyStr 0 "x" 1 true, .getProperty 0 "x" .undefined,
        .callMethod 0 "f" [.plain 7] (.ref 48), .endCall .undefined,
        .destroy 3, .destroy 2, .destroy 1, .destroy 0]).any
      (fun s => s.values = [none, none, none, none] ∧ s.refCount 16 = 0 ∧ s.refCount 32 = 1) := by
    decide +kernel
  obtain ⟨s, hs, hcheck⟩ := (Option.any_eq_true ..).mp hrun
  have hreach : Reachable (· = State.initial) State.step (fun s op => op.Proper s) s :=
    .execIf (fun _ _ htest => of_decide_eq_true htest) (.init rfl) hs
  exact ⟨s, references_accounted s hreach, of_decide_eq_true hcheck⟩

/-- `SetProperty` leaves the string of the name behind, and stores the value under another
name. -/
theorem references_not_accounted :
    ¬∀ s, Reachable (· = State.initial) State.step (fun _ _ => True) s → Accounted s := by
  intro hall
  have hrun : (exec State.step State.initial
      [.acquire (.ref 16), .construct (.ref 16), .acquire (.plain 7), .construct (.plain 7),
        .setProperty 0 "x" 1 32 none true, .destroy 1, .destroy 0]).any
      (fun s => s.values = [none, none] ∧ s.frames.isEmpty ∧ s.refCount 32 = 1 ∧
        held (fun x : Slot => x.value.header) s.slots 32 = 0 ∧
        s.written 16 "x" = some (.plain 7) ∧ s.prop 16 (.name "x") = none) := by
    decide +kernel
  obtain ⟨s, hs, hcheck⟩ := (Option.any_eq_true ..).mp hrun
  obtain ⟨hvalues, hframes, hcount, hheld, -⟩ := of_decide_eq_true hcheck
  have hreleased := (hall s (.exec (fun _ _ => trivial) (.init rfl) hs)).released
    (by rw [hvalues]; decide) (List.isEmpty_iff.mp hframes) 32
  rw [hcount, hheld] at hreleased
  cases hreleased

end QuickJs.ValueApi
