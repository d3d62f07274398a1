import QuickJs.Run
import Mathlib.Algebra.Order.Ring.Int

/-!
# Typed arrays

Array buffers, the typed arrays and data views on them, and the calls that make them. Wherever a
call runs code of the program (a conversion of an argument, the lookup of a prototype or of a
species) it stays on the stack of the calls, and the program goes on with any operations. The bytes
of a buffer are not modelled; an access is written down with the buffer as it was.
-/

namespace QuickJs.TypedArray

open Run

/-- The classes from `JS_CLASS_UINT8C_ARRAY` to `JS_CLASS_FLOAT64_ARRAY`. -/
inductive JSClass
  | uint8CArray | int8Array | uint8Array | int16Array | uint16Array | int32Array | uint32Array
  | bigInt64Array | bigUint64Array | float32Array | float64Array
  deriving DecidableEq

/-- `typed_array_size_log2`. -/
def JSClass.sizeLog2 : JSClass → ℕ
  | uint8CArray | int8Array | uint8Array => 0
  | int16Array | uint16Array => 1
  | int32Array | uint32Array | float32Array => 2
  | bigInt64Array | bigUint64Array | float64Array => 3

def int32Max : ℕ := 2 ^ 31 - 1

def maxSafeInteger : ℕ := 2 ^ 53 - 1

structure JSArrayBuffer where
  byteLength : ℕ
  detached : Bool
  shared : Bool
  deriving DecidableEq

/-- `u.array.u.ptr`, from the data of the buffer or from the null pointer. -/
inductive Pointer
  | null (offset : ℕ)
  | data (offset : ℕ)
  deriving DecidableEq

/-- `JSTypedArray` with the fields of its object. -/
structure JSTypedArray where
  /-- there is none for `JS_CLASS_DATAVIEW` -/
  classId : Option JSClass
  buffer : ℕ
  offset : ℕ
  length : ℕ
  count : ℕ
  ptr : Pointer
  deriving DecidableEq

/-- An access to the bytes of a buffer that is alive or not. -/
structure Access where
  live : Bool
  byteLength : ℕ
  pos : ℕ
  size : ℕ
  deriving DecidableEq

/-- A call that runs code of the program. -/
inductive Call
  /-- `js_typed_array_constructor` at the conversion of the offset -/
  | offset (classId : JSClass) (buffer : ℕ) (hasLength : Bool)
  /-- at the conversion of the length -/
  | length (classId : JSClass) (buffer offset : ℕ)
  /-- at `js_create_from_ctor` -/
  | create (classId : JSClass) (buffer offset len : ℕ)
  /-- `js_typed_array_constructor_ta` at the lookup of the constructor for the buffer -/
  | copy (classId : JSClass) (src : JSClass) (buffer offset len : ℕ)
  /-- `js_dataview_constructor` at the conversion of the offset -/
  | byteOffset (buffer : ℕ) (hasLength : Bool)
  /-- at the conversion of the length -/
  | byteLength (buffer offset len : ℕ)
  /-- at `js_create_from_ctor` -/
  | createDataView (buffer offset len : ℕ)
  /-- `js_typed_array_subarray` at the conversions of the arguments -/
  | subarray (classId : JSClass) (buffer offset len : ℕ)
  /-- at the lookup of the species -/
  | species (classId : JSClass) (buffer offset count : ℕ)
  /-- `js_atomics_get_ptr` at the conversion of the index -/
  | atomicsIndex (view : ℕ)
  /-- `js_atomics_op` or `js_atomics_store` at the conversion of the value -/
  | atomics (buffer : ℕ) (ptr : Pointer) (pos size : ℕ)
  deriving DecidableEq

structure State where
  buffers : ℕ → JSArrayBuffer
  /-- the number of the buffers -/
  made : ℕ
  views : List JSTypedArray
  calls : List Call
  accesses : List Access

def State.initial : State := ⟨fun _ => ⟨0, true, false⟩, 0, [], [], []⟩

def State.push (s : State) (call : Call) : State := { s with calls := call :: s.calls }

/-- `js_array_buffer_constructor3` after its checks. -/
def State.addBuffer (s : State) (len : ℕ) (shared : Bool) : State :=
  { s with buffers := Function.update s.buffers s.made ⟨len, false, shared⟩, made := s.made + 1 }

/-- `JS_DetachArrayBuffer`. -/
def State.detach (s : State) (b : ℕ) : State :=
  if (s.buffers b).shared || (s.buffers b).detached then s else
    { s with
      buffers := Function.update s.buffers b ⟨0, true, false⟩
      views := s.views.map fun ta =>
        if ta.buffer = b ∧ ta.classId ≠ none then { ta with count := 0, ptr := .null 0 } else ta }

/-- `abuf->data + offset` -/
def JSArrayBuffer.dataAt (abuf : JSArrayBuffer) (offset : ℕ) : Pointer :=
  if abuf.detached then .null offset else .data offset

/-- `typed_array_init`. -/
def State.typedArrayInit (s : State) (classId : JSClass) (buffer offset len : ℕ) : State :=
  { s with views := s.views ++
    [⟨some classId, buffer, offset, len <<< classId.sizeLog2, len, (s.buffers buffer).dataAt offset⟩] }

/-- Read or write some bytes at a pointer. -/
def State.touch (s : State) (b : ℕ) (ptr : Pointer) (pos size : ℕ) : State :=
  match ptr with
  | .null offset => { s with accesses := ⟨false, (s.buffers b).byteLength, offset + pos, size⟩ :: s.accesses }
  | .data offset => { s with accesses :=
      ⟨!(s.buffers b).detached, (s.buffers b).byteLength, offset + pos, size⟩ :: s.accesses }

/-- `JS_GetPropertyValue`, or `JS_SetPropertyValue` after the conversion of the value. -/
def State.element (s : State) (ta : JSTypedArray) (idx : ℕ) : State :=
  match ta.classId with
  | some classId =>
    if idx < ta.count then
      s.touch ta.buffer ta.ptr (idx <<< classId.sizeLog2) (1 <<< classId.sizeLog2)
    else s
  | none => s

/-- `js_dataview_getValue` and `js_dataview_setValue` after the conversions. -/
def State.dataViewElement (s : State) (ta : JSTypedArray) (classId : JSClass) (pos : ℕ) : State :=
  if ta.classId ≠ none ∨ pos > maxSafeInteger ∨ (s.buffers ta.buffer).detached ∨
      pos + 1 <<< classId.sizeLog2 > ta.length then s
  else s.touch ta.buffer ((s.buffers ta.buffer).dataAt ta.offset) pos (1 <<< classId.sizeLog2)

/-- The checks of `js_typed_array_constructor` for the offset. -/
def JSArrayBuffer.offsetOk (abuf : JSArrayBuffer) (classId : JSClass) (offset : ℕ) : Bool :=
  offset ≤ maxSafeInteger && !abuf.detached && offset % 2 ^ classId.sizeLog2 == 0 &&
    offset ≤ abuf.byteLength

/-- The checks for the length. -/
def JSArrayBuffer.lengthOk (abuf : JSArrayBuffer) (classId : JSClass) (offset len : ℕ) : Bool :=
  len ≤ maxSafeInteger && !abuf.detached && offset + len <<< classId.sizeLog2 ≤ abuf.byteLength

inductive Op
  /-- `js_array_buffer_constructor`, `JS_NewArrayBuffer` -/
  | newBuffer (len : ℕ) (shared : Bool)
  | detach (b : ℕ)
  /-- `js_typed_array_constructor` of a length, or of an object with it -/
  | constructLength (classId : JSClass) (len : ℕ)
  /-- of a buffer -/
  | construct (classId : JSClass) (b : ℕ) (hasLength : Bool)
  /-- of a typed array -/
  | constructCopy (classId : JSClass) (v : ℕ)
  | dataView (b : ℕ) (hasLength : Bool)
  | subarray (v : ℕ)
  | atomics (v : ℕ)
  /-- a conversion to an index ends -/
  | index (i : ℕ)
  /-- the conversions of the arguments of `subarray` end -/
  | range (start final : ℕ)
  /-- other code of the program ends -/
  | done
  /-- the code throws -/
  | throw
  | element (v idx : ℕ)
  | dataViewElement (v : ℕ) (classId : JSClass) (pos : ℕ)
  deriving DecidableEq

/-- A call goes on with the index that it has waited for. -/
def State.index (s : State) (i : ℕ) : Call → Option State
  | .offset classId b hasLength =>
    let abuf := s.buffers b
    some <| if !abuf.offsetOk classId i then s
      else if hasLength then s.push (.length classId b i)
      else if abuf.byteLength % 2 ^ classId.sizeLog2 ≠ 0 then s
      else s.push (.create classId b i ((abuf.byteLength - i) >>> classId.sizeLog2))
  | .length classId b offset =>
    some (if !(s.buffers b).lengthOk classId offset i then s else s.push (.create classId b offset i))
  | .byteOffset b hasLength =>
    let abuf := s.buffers b
    some <| if i > maxSafeInteger ∨ abuf.detached ∨ i > abuf.byteLength then s
      else if hasLength then s.push (.byteLength b i (abuf.byteLength - i))
      else s.push (.createDataView b i (abuf.byteLength - i))
  | .byteLength b offset len =>
    some (if i > maxSafeInteger ∨ i > len then s else s.push (.createDataView b offset i))
  | .atomicsIndex v =>
    match s.views[v]? with
    | some ta =>
      match ta.classId with
      | some classId =>
        some <| if i ≥ ta.count then s
          else s.push (.atomics ta.buffer ta.ptr (i <<< classId.sizeLog2) (1 <<< classId.sizeLog2))
      | none => none
    | none => none
  | _ => none

/-- A call goes on after other code. -/
def State.done (s : State) : Call → Option State
  | .create classId b offset len => some (s.typedArrayInit classId b offset len)
  | .createDataView b offset len =>
    some <| if (s.buffers b).detached then s
      else { s with views := s.views ++ [⟨none, b, offset, len, 0, .null 0⟩] }
  | .copy classId src b offset len =>
    some <| if len <<< classId.sizeLog2 > int32Max ∨ (s.buffers b).detached then s
      else
        let s' := (s.addBuffer (len <<< classId.sizeLog2) false).typedArrayInit classId s.made 0 len
        if src = classId then
          (s'.touch s.made (.data 0) 0 (len <<< classId.sizeLog2)).touch b (.data offset) 0
            (len <<< classId.sizeLog2)
        else s'
  | .species classId b offset count =>
    some <| if !(s.buffers b).offsetOk classId offset ∨ !(s.buffers b).lengthOk classId offset count then s
      else s.push (.create classId b offset count)
  | .atomics b ptr pos size => some (if (s.buffers b).detached then s else s.touch b ptr pos size)
  | _ => none

/-- A call goes on after the conversions of its arguments, which are clamped to the length. -/
def State.range (s : State) (start final : ℕ) : Call → Option State
  | .subarray classId b offset len =>
    if start ≤ len ∧ final ≤ len then
      let byteOffset := if (s.buffers b).detached then 0 else offset
      some (s.push (.species classId b (byteOffset + start <<< classId.sizeLog2) (final - start)))
    else none
  | _ => none

/-- The topmost call goes on. -/
def State.resume (s : State) (f : State → Call → Option State) : Option State :=
  match s.calls with
  | call :: calls => f { s with calls } call
  | [] => none

def State.step (s : State) : Op → Option State
  | .newBuffer len shared => some (if len > int32Max then s else s.addBuffer len shared)
  | .detach b => if b < s.made then some (s.detach b) else none
  | .constructLength classId len =>
    some <| if len <<< classId.sizeLog2 > int32Max then s
      else (s.addBuffer (len <<< classId.sizeLog2) false).typedArrayInit classId s.made 0 len
  | .construct classId b hasLength =>
    if b < s.made then some (s.push (.offset classId b hasLength)) else none
  | .constructCopy classId v =>
    match s.views[v]? with
    | some ⟨some src, b, offset, _, count, _⟩ =>
      some (if (s.buffers b).detached then s else s.push (.copy classId src b offset count))
    | _ => none
  | .dataView b hasLength => if b < s.made then some (s.push (.byteOffset b hasLength)) else none
  | .subarray v =>
    match s.views[v]? with
    | some ⟨some classId, b, offset, _, count, _⟩ => some (s.push (.subarray classId b offset count))
    | _ => none
  | .atomics v =>
    match s.views[v]? with
    | some ta => some (if (s.buffers ta.buffer).detached then s else s.push (.atomicsIndex v))
    | none => none
  | .index i => s.resume fun s call => s.index i call
  | .range start final => s.resume fun s call => s.range start final call
  | .done => s.resume State.done
  | .throw => s.resume fun s _ => some s
  | .element v idx => (s.views[v]?).map fun ta => s.element ta idx
  | .dataViewElement v classId pos => (s.views[v]?).map fun ta => s.dataViewElement ta classId pos

/-! ## The bounds -/

/-- A view on a live buffer lies in it, one on a detached buffer has no elements, and the accesses
have been to bytes of live buffers. -/
def InBounds (s : State) : Prop :=
  (∀ ta ∈ s.views, ((s.buffers ta.buffer).detached = false →
      ta.offset + ta.length ≤ (s.buffers ta.buffer).byteLength) ∧
    ((s.buffers ta.buffer).detached = true → ta.count = 0)) ∧
  ∀ a ∈ s.accesses, a.live = true ∧ a.pos + a.size ≤ a.byteLength

/-- The buffer of a new typed array is not detached by the lookup of the prototype, or the array
has no elements. -/
def NotDetached (s : State) (op : Op) : Prop :=
  match op, s.calls with
  | .done, .create _ b _ len :: _ => (s.buffers b).detached = false ∨ len = 0
  | _, _ => True

/-! ## The invariant -/

variable {s s' : State} {b len offset pos size : ℕ} {ta : JSTypedArray} {call : Call} {ptr : Pointer}
  {q : Prop}

/-- A buffer has been made, and is detached or has room for some bytes. -/
def Fits (s : State) (b len : ℕ) : Prop :=
  b < s.made ∧ ((s.buffers b).detached = false → len ≤ (s.buffers b).byteLength)

def CallOk (s : State) : Call → Prop
  | .offset _ b _ | .length _ b _ | .byteOffset b _ | .subarray _ b _ _ | .species _ b _ _ => b < s.made
  | .create classId b offset len => Fits s b (offset + len <<< classId.sizeLog2)
  | .copy _ src b offset len => Fits s b (offset + len <<< src.sizeLog2)
  | .byteLength b offset len | .createDataView b offset len => Fits s b (offset + len)
  | .atomicsIndex _ => True
  | .atomics b ptr pos size =>
    b < s.made ∧ ((s.buffers b).detached = false →
      ∃ offset, ptr = .data offset ∧ offset + pos + size ≤ (s.buffers b).byteLength)

structure ViewOk (s : State) (ta : JSTypedArray) : Prop where
  fits : Fits s ta.buffer (ta.offset + ta.length)
  array : (s.buffers ta.buffer).detached = false → ∀ classId, ta.classId = some classId →
    ta.length = ta.count <<< classId.sizeLog2 ∧ ta.ptr = .data ta.offset
  dataView : ta.classId = none → ta.count = 0

structure State.Invariant (s : State) : Prop where
  views : ∀ ta ∈ s.views, ViewOk s ta
  calls : ∀ call ∈ s.calls, CallOk s call

/-- The buffers go on as they are, or are detached. -/
def Later (s s' : State) : Prop :=
  s.made ≤ s'.made ∧ ∀ b < s.made, (s'.buffers b).detached = false → s'.buffers b = s.buffers b

theorem Fits.later (h : Fits s b len) (hl : Later s s') : Fits s' b len := by
  refine ⟨Nat.lt_of_lt_of_le h.1 hl.1, fun hd => ?_⟩
  have heq := hl.2 b h.1 hd
  rw [heq] at hd ⊢
  exact h.2 hd

theorem ViewOk.later (h : ViewOk s ta) (hl : Later s s') : ViewOk s' ta where
  fits := h.fits.later hl
  array hd := by
    rw [hl.2 _ h.fits.1 hd] at hd
    exact h.array hd
  dataView := h.dataView

theorem CallOk.later (h : CallOk s call) (hl : Later s s') : CallOk s' call := by
  cases call with
  | offset | length | byteOffset | subarray | species => exact Nat.lt_of_lt_of_le h hl.1
  | create | copy | byteLength | createDataView => exact Fits.later h hl
  | atomicsIndex => trivial
  | atomics b ptr pos size =>
    refine ⟨Nat.lt_of_lt_of_le h.1 hl.1, fun hd => ?_⟩
    have heq := hl.2 b h.1 hd
    rw [heq] at hd ⊢
    exact h.2 hd

/-- A part of a step keeps the invariant, and stays in the bounds under a condition. -/
structure Keeps (s s' : State) (q : Prop) : Prop where
  invariant : s'.Invariant
  inBounds : InBounds s' ↔ InBounds s ∧ q

theorem Keeps.refl (hI : s.Invariant) : Keeps s s True := ⟨hI, (and_iff_left trivial).symm⟩

theorem Keeps.trans {t : State} (h : Keeps s t True) (h' : Keeps t s' q) : Keeps s s' q :=
  ⟨h'.invariant, by rw [h'.inBounds, h.inBounds, and_iff_left trivial]⟩

theorem State.Invariant.later (hI : s.Invariant) (hl : Later s s')
    (hv : ∀ ta ∈ s'.views, ta ∈ s.views ∨ ViewOk s' ta)
    (hc : ∀ call ∈ s'.calls, call ∈ s.calls ∨ CallOk s' call) : s'.Invariant where
  views ta hta := (hv ta hta).elim (fun h => (hI.views ta h).later hl) id
  calls call hcall := (hc call hcall).elim (fun h => (hI.calls call h).later hl) id

theorem Later.of_eq (hm : s'.made = s.made) (hb : s'.buffers = s.buffers) : Later s s' :=
  ⟨Nat.le_of_eq hm.symm, fun _ _ _ => by rw [hb]⟩

theorem keeps_push (hI : s.Invariant) (h : CallOk s call) : Keeps s (s.push call) True := by
  have hl : Later s (s.push call) := .of_eq rfl rfl
  refine ⟨hI.later hl (fun ta hta => .inl hta) fun c hc => ?_, (and_iff_left trivial).symm⟩
  rcases List.mem_cons.mp hc with rfl | hc
  · exact .inr (h.later hl)
  · exact .inl hc

theorem keeps_addBuffer (hI : s.Invariant) (len : ℕ) (shared : Bool) :
    Keeps s (s.addBuffer len shared) True := by
  have hsame (b : ℕ) (hb : b < s.made) : (s.addBuffer len shared).buffers b = s.buffers b :=
    Function.update_of_ne (Nat.ne_of_lt hb) ..
  refine ⟨hI.later ⟨Nat.le_succ _, fun b hb _ => hsame b hb⟩ (fun ta => .inl) fun c => .inl, ?_⟩
  rw [and_iff_left trivial]
  refine and_congr_left' (forall₂_congr fun ta hta => ?_)
  rw [hsame _ (hI.views ta hta).fits.1]

theorem keeps_detach (hI : s.Invariant) (b : ℕ) : Keeps s (s.detach b) True := by
  rw [State.detach]
  split
  · exact .refl hI
  rename_i hb
  rw [Bool.or_eq_true, not_or, Bool.not_eq_true, Bool.not_eq_true] at hb
  generalize hs' : ({ s with buffers := _, views := _ } : State) = s'
  have hviews : s'.views = s.views.map fun ta =>
      if ta.buffer = b ∧ ta.classId ≠ none then { ta with count := 0, ptr := .null 0 } else ta := by
    rw [← hs']
  have hself : s'.buffers b = ⟨0, true, false⟩ := by
    rw [← hs']
    exact Function.update_self ..
  have hother (b' : ℕ) (hne : b' ≠ b) : s'.buffers b' = s.buffers b' := by
    rw [← hs']
    exact Function.update_of_ne hne ..
  have hl : Later s s' := by
    refine ⟨by subst hs'; exact Nat.le_refl _, fun b' _ hd => hother b' ?_⟩
    rintro rfl
    rw [hself] at hd
    cases hd
  constructor
  · refine hI.later hl (fun ta hta => ?_) fun c hc => .inl (by rwa [← hs'] at hc)
    rw [hviews] at hta
    obtain ⟨ta, hmem, rfl⟩ := List.mem_map.mp hta
    split
    · rename_i hta
      have hfits := ((hI.views ta hmem).later hl).fits
      refine .inr ⟨hfits, fun hd => ?_, fun _ => rfl⟩
      simp only [hta.1, hself] at hd
      cases hd
    · exact .inl hmem
  · rw [and_iff_left trivial]
    refine and_congr ?_ (by rw [← hs'])
    rw [hviews, List.forall_mem_map]
    refine forall₂_congr fun ta hta => ?_
    have hta := hI.views ta hta
    by_cases hbuf : ta.buffer = b
    · -- the view has been in the bounds, and has no elements any more
      refine iff_of_true ⟨fun hd => ?_, fun _ => ?_⟩ ⟨hta.fits.2, fun hd => ?_⟩
      · split at hd <;> simp only [hbuf, hself] at hd <;> cases hd
      · split
        · rfl
        · rename_i hn
          exact hta.dataView (not_not.mp fun hne => hn ⟨hbuf, hne⟩)
      · rw [hbuf, hb.2] at hd
        cases hd
    · rw [if_neg fun h => hbuf h.1, hother _ hbuf]

theorem keeps_touch (hI : s.Invariant) (h : InBounds s → (s.buffers b).detached = false ∧
    ∃ offset, ptr = .data offset ∧ offset + pos + size ≤ (s.buffers b).byteLength) :
    Keeps s (s.touch b ptr pos size) True := by
  cases ptr with
  | null offset =>
    refine ⟨hI.later (.of_eq rfl rfl) (fun ta => .inl) fun c => .inl, ?_⟩
    rw [and_iff_left trivial]
    refine ⟨fun hin => ⟨hin.1, fun a ha => hin.2 a (List.mem_cons_of_mem _ ha)⟩, fun hin => ?_⟩
    obtain ⟨-, offset', hptr, -⟩ := h hin
    cases hptr
  | data offset =>
    refine ⟨hI.later (.of_eq rfl rfl) (fun ta => .inl) fun c => .inl, ?_⟩
    rw [and_iff_left trivial]
    refine ⟨fun hin => ⟨hin.1, fun a ha => hin.2 a (List.mem_cons_of_mem _ ha)⟩, fun hin => ?_⟩
    obtain ⟨hd, offset', hptr, hle⟩ := h hin
    cases hptr
    refine ⟨hin.1, List.forall_mem_cons.mpr ⟨⟨?_, hle⟩, hin.2⟩⟩
    simp [hd]

variable {classId : JSClass} {idx : ℕ}

theorem keeps_typedArrayInit (hI : s.Invariant) (h : Fits s b (offset + len <<< classId.sizeLog2)) :
    Keeps s (s.typedArrayInit classId b offset len) ((s.buffers b).detached = false ∨ len = 0) := by
  have hl : Later s (s.typedArrayInit classId b offset len) := .of_eq rfl rfl
  constructor
  · refine hI.later hl (fun ta hta => ?_) fun c => .inl
    refine (List.mem_append.mp hta).imp_right fun hta => ?_
    cases List.mem_singleton.mp hta
    refine ⟨h.later hl, fun hd c hc => ?_, nofun⟩
    cases hc
    refine ⟨rfl, ?_⟩
    rw [JSArrayBuffer.dataAt, if_neg]
    exact Bool.eq_false_iff.mp hd
  · change ((∀ ta ∈ s.views ++ _, _) ∧ _) ↔ _
    simp only [List.forall_mem_append]
    rw [and_right_comm]
    refine and_congr_right fun _ => ?_
    cases hd : (s.buffers b).detached with
    | false => simpa [State.typedArrayInit, hd] using h.2 hd
    | true => simp [State.typedArrayInit, hd]

/-! ## The steps -/

/-- The bytes of an element are bytes of the array. -/
theorem element_le {count k : ℕ} (h : idx < count) : idx <<< k + 1 <<< k ≤ count <<< k := by
  rw [Nat.shiftLeft_eq, Nat.shiftLeft_eq, Nat.shiftLeft_eq, ← Nat.add_mul]
  exact Nat.mul_le_mul_right _ h

/-- In the bounds, the elements of a view are in its live buffer. -/
theorem ViewOk.element (h : ViewOk s ta) (hc : ta.classId = some classId)
    (hi : idx < ta.count) (hd : (s.buffers ta.buffer).detached = false) :
    ∃ offset, ta.ptr = .data offset ∧
      offset + idx <<< classId.sizeLog2 + 1 <<< classId.sizeLog2 ≤ (s.buffers ta.buffer).byteLength := by
  obtain ⟨hlen, hptr⟩ := h.array hd classId hc
  refine ⟨ta.offset, hptr, ?_⟩
  have hfits := h.fits.2 hd
  have hle := element_le (k := classId.sizeLog2) hi
  omega

theorem keeps_element (hI : s.Invariant) (hta : ta ∈ s.views) : Keeps s (s.element ta idx) True := by
  rw [State.element]
  cases hc : ta.classId with
  | none => exact .refl hI
  | some classId =>
    simp only
    split
    · rename_i hi
      refine keeps_touch hI fun hin => ?_
      have hd : (s.buffers ta.buffer).detached = false := by
        by_contra hd
        rw [(hin.1 ta hta).2 (Bool.not_eq_false _ ▸ hd)] at hi
        exact absurd hi (Nat.not_lt_zero _)
      exact ⟨hd, (hI.views ta hta).element hc hi hd⟩
    · exact .refl hI

theorem keeps_dataViewElement (hI : s.Invariant) (hta : ta ∈ s.views) :
    Keeps s (s.dataViewElement ta classId pos) True := by
  rw [State.dataViewElement]
  split
  · exact .refl hI
  · rename_i h
    simp only [not_or, Bool.not_eq_true] at h
    obtain ⟨-, -, hd, hpos⟩ := h
    refine keeps_touch hI fun _ => ⟨hd, ta.offset, ?_, ?_⟩
    · rw [JSArrayBuffer.dataAt, if_neg]
      exact Bool.eq_false_iff.mp hd
    · have hfits := (hI.views ta hta).fits.2 hd
      omega

/-- The checks for the length leave room for the array. -/
theorem fits_of_lengthOk (hb : b < s.made) (h : (s.buffers b).lengthOk classId offset len = true) :
    Fits s b (offset + len <<< classId.sizeLog2) := by
  refine ⟨hb, fun _ => ?_⟩
  simp only [JSArrayBuffer.lengthOk, Bool.and_eq_true, decide_eq_true_eq] at h
  exact h.2

theorem keeps_index {i : ℕ} (hI : s.Invariant) (hc : CallOk s call) (hs : s.index i call = some s') :
    Keeps s s' True := by
  cases call with
  | offset classId b hasLength =>
    cases hs
    split
    · exact .refl hI
    rename_i hoff
    split
    · exact keeps_push hI hc
    split
    · exact .refl hI
    · refine keeps_push hI ⟨hc, fun _ => ?_⟩
      simp only [JSArrayBuffer.offsetOk, Bool.not_eq_true', Bool.and_eq_true, decide_eq_true_eq,
        Bool.not_eq_false] at hoff
      have hle := Nat.div_mul_le_self ((s.buffers b).byteLength - i) (2 ^ classId.sizeLog2)
      rw [Nat.shiftRight_eq_div_pow]
      omega
  | length classId b offset =>
    cases hs
    split
    · exact .refl hI
    · rename_i hlen
      exact keeps_push hI (fits_of_lengthOk hc (by simpa using hlen))
  | byteOffset b hasLength =>
    cases hs
    split
    · exact .refl hI
    have hfits : Fits s b (i + ((s.buffers b).byteLength - i)) := ⟨hc, fun _ => by omega⟩
    split
    · exact keeps_push hI hfits
    · exact keeps_push hI hfits
  | byteLength b offset len =>
    cases hs
    split
    · exact .refl hI
    · exact keeps_push hI ⟨hc.1, fun hd => Nat.le_trans (by omega) (hc.2 hd)⟩
  | atomicsIndex v =>
    simp only [State.index] at hs
    cases hv : s.views[v]? with
    | none =>
      rw [hv] at hs
      cases hs
    | some ta =>
      simp only [hv] at hs
      have hta := hI.views ta (List.mem_of_getElem? hv)
      split at hs
      · rename_i classId hclass
        cases hs
        split
        · exact .refl hI
        · rename_i hi
          exact keeps_push hI ⟨hta.fits.1, hta.element hclass (Nat.not_le.mp hi)⟩
      · cases hs
  | create | copy | createDataView | subarray | species | atomics => cases hs

/-- A typed array gets a buffer of its own. -/
theorem keeps_newArray (hI : s.Invariant) (classId : JSClass) (len : ℕ) :
    Keeps s ((s.addBuffer (len <<< classId.sizeLog2) false).typedArrayInit classId s.made 0 len)
      True := by
  have hadd := keeps_addBuffer hI (len <<< classId.sizeLog2) false
  have hnew : (s.addBuffer (len <<< classId.sizeLog2) false).buffers s.made =
      ⟨len <<< classId.sizeLog2, false, false⟩ := Function.update_self ..
  have hinit : Keeps (s.addBuffer (len <<< classId.sizeLog2) false)
      ((s.addBuffer (len <<< classId.sizeLog2) false).typedArrayInit classId s.made 0 len) _ :=
    keeps_typedArrayInit hadd.invariant ⟨Nat.lt_succ_self _, fun _ => by simp [hnew]⟩
  exact hadd.trans ⟨hinit.invariant, by simp [hinit.inBounds, hnew]⟩

theorem keeps_done (hI : s.Invariant) (hc : CallOk s call) (hs : s.done call = some s') :
    Keeps s s' (match call with
      | .create _ b _ len => (s.buffers b).detached = false ∨ len = 0
      | _ => True) := by
  cases call with
  | create classId b offset len =>
    cases hs
    exact keeps_typedArrayInit hI hc
  | createDataView b offset len =>
    cases hs
    split
    · exact .refl hI
    · have hl : Later s { s with views := s.views ++ [⟨none, b, offset, len, 0, .null 0⟩] } :=
        .of_eq rfl rfl
      refine ⟨hI.later hl (fun ta hta => ?_) fun c => .inl, ?_⟩
      · refine (List.mem_append.mp hta).imp_right fun hta => ?_
        cases List.mem_singleton.mp hta
        exact ⟨Fits.later hc hl, fun _ _ => nofun, fun _ => rfl⟩
      · rw [and_iff_left trivial]
        refine and_congr_left' ?_
        rw [List.forall_mem_append, List.forall_mem_singleton]
        exact and_iff_left ⟨hc.2, fun _ => rfl⟩
  | copy classId src b offset len =>
    cases hs
    split
    · exact .refl hI
    · rename_i h
      simp only [not_or, Bool.not_eq_true] at h
      split
      · rename_i hsrc
        subst hsrc
        have hnew : (s.addBuffer (len <<< src.sizeLog2) false).buffers s.made =
            ⟨len <<< src.sizeLog2, false, false⟩ := Function.update_self ..
        have hsame : (s.addBuffer (len <<< src.sizeLog2) false).buffers b = s.buffers b :=
          Function.update_of_ne (Nat.ne_of_lt hc.1) ..
        have harray := keeps_newArray hI src len
        have hwrite : Keeps _ (State.touch _ s.made (.data 0) 0 (len <<< src.sizeLog2)) True :=
          keeps_touch harray.invariant fun _ => by
            refine ⟨congrArg JSArrayBuffer.detached hnew, 0, rfl, ?_⟩
            rw [Nat.zero_add]
            exact Nat.le_of_eq (congrArg JSArrayBuffer.byteLength hnew).symm
        refine (harray.trans hwrite).trans (keeps_touch hwrite.invariant fun _ => ?_)
        refine ⟨(congrArg JSArrayBuffer.detached hsame).trans h.2, offset, rfl, ?_⟩
        exact Nat.le_trans (hc.2 h.2) (Nat.le_of_eq (congrArg JSArrayBuffer.byteLength hsame).symm)
      · exact keeps_newArray hI classId len
  | species classId b offset count =>
    cases hs
    split
    · exact .refl hI
    · rename_i h
      simp only [not_or, Bool.not_eq_true', Bool.not_eq_false] at h
      exact keeps_push hI (fits_of_lengthOk hc h.2)
  | atomics b ptr pos size =>
    cases hs
    split
    · exact .refl hI
    · rename_i hd
      rw [Bool.not_eq_true] at hd
      exact keeps_touch hI fun _ => ⟨hd, hc.2 hd⟩
  | offset | length | byteOffset | byteLength | subarray | atomicsIndex => cases hs

theorem keeps_range {start final : ℕ} (hI : s.Invariant) (hc : CallOk s call)
    (hs : s.range start final call = some s') : Keeps s s' True := by
  cases call with
  | subarray classId b offset len =>
    rw [State.range] at hs
    split at hs
    · cases hs
      exact keeps_push hI hc
    · cases hs
  | offset | length | create | copy | byteOffset | byteLength | createDataView | species
  | atomicsIndex | atomics => cases hs

theorem State.Invariant.pop {calls : List Call} (hI : s.Invariant) (hs : s.calls = call :: calls) :
    Keeps s { s with calls } True ∧ CallOk { s with calls } call := by
  have hl : Later s { s with calls } := .of_eq rfl rfl
  refine ⟨⟨hI.later hl (fun ta => .inl) fun c hc => .inl ?_, (and_iff_left trivial).symm⟩, ?_⟩
  · rw [hs]
    exact List.mem_cons_of_mem _ hc
  · refine (hI.calls call ?_).later hl
    rw [hs]
    exact List.mem_cons_self

theorem exists_of_resume {f : State → Call → Option State} (hs : s.resume f = some s') :
    ∃ call calls, s.calls = call :: calls ∧ f { s with calls } call = some s' := by
  rw [State.resume] at hs
  split at hs
  · exact ⟨_, _, ‹_›, hs⟩
  · cases hs

/-- A step stays in the bounds, but for a new typed array on a buffer that has been detached. -/
theorem keeps_step {op : Op} (hI : s.Invariant) (hs : s.step op = some s') :
    Keeps s s' (NotDetached s op) := by
  cases op with
  | newBuffer len shared =>
    cases hs
    split
    · exact .refl hI
    · exact keeps_addBuffer hI len shared
  | detach b =>
    obtain ⟨-, ⟨⟩⟩ := Option.ite_none_right_eq_some.mp hs
    exact keeps_detach hI b
  | constructLength classId len =>
    cases hs
    split
    · exact .refl hI
    · exact keeps_newArray hI classId len
  | construct classId b hasLength =>
    obtain ⟨hb, ⟨⟩⟩ := Option.ite_none_right_eq_some.mp hs
    exact keeps_push hI hb
  | constructCopy classId v =>
    rw [State.step] at hs
    split at hs
    · rename_i src b offset length count ptr hv
      have hta := hI.views _ (List.mem_of_getElem? hv)
      cases hs
      split
      · exact .refl hI
      · refine keeps_push hI ⟨hta.fits.1, fun hd => ?_⟩
        have hfits := hta.fits.2 hd
        rw [(hta.array hd src rfl).1] at hfits
        exact hfits
    · cases hs
  | dataView b hasLength =>
    obtain ⟨hb, ⟨⟩⟩ := Option.ite_none_right_eq_some.mp hs
    exact keeps_push hI hb
  | subarray v =>
    rw [State.step] at hs
    split at hs
    · rename_i hv
      cases hs
      exact keeps_push hI (hI.views _ (List.mem_of_getElem? hv)).fits.1
    · cases hs
  | atomics v =>
    rw [State.step] at hs
    split at hs
    · cases hs
      split
      · exact .refl hI
      · exact keeps_push hI trivial
    · cases hs
  | element v idx =>
    obtain ⟨ta, hv, rfl⟩ := Option.map_eq_some_iff.mp hs
    exact keeps_element hI (List.mem_of_getElem? hv)
  | dataViewElement v classId pos =>
    obtain ⟨ta, hv, rfl⟩ := Option.map_eq_some_iff.mp hs
    exact keeps_dataViewElement hI (List.mem_of_getElem? hv)
  | index i =>
    rw [State.step] at hs
    obtain ⟨call, calls, hcalls, hs⟩ := exists_of_resume hs
    obtain ⟨hpop, hc⟩ := hI.pop hcalls
    exact hpop.trans (keeps_index hpop.invariant hc hs)
  | range start final =>
    rw [State.step] at hs
    obtain ⟨call, calls, hcalls, hs⟩ := exists_of_resume hs
    obtain ⟨hpop, hc⟩ := hI.pop hcalls
    exact hpop.trans (keeps_range hpop.invariant hc hs)
  | done =>
    obtain ⟨call, calls, hcalls, hs⟩ := exists_of_resume hs
    obtain ⟨hpop, hc⟩ := hI.pop hcalls
    have hdone := hpop.trans (keeps_done hpop.invariant hc hs)
    unfold NotDetached
    rw [hcalls]
    cases call <;> exact hdone
  | throw =>
    rw [State.step] at hs
    obtain ⟨call, calls, hcalls, hs⟩ := exists_of_resume hs
    cases hs
    exact (hI.pop hcalls).1

/-- In a run from the start, the views and the accesses are in the bounds if and only if no buffer
is detached while a typed array with elements is created on it. -/
theorem inBounds_iff {ops : List Op} (hs : exec State.step .initial ops = some s') :
    InBounds s' ↔ Along State.step NotDetached .initial ops := by
  have hI : State.initial.Invariant := ⟨by rintro _ ⟨⟩, by rintro _ ⟨⟩⟩
  have h0 : InBounds .initial := ⟨by rintro _ ⟨⟩, by rintro _ ⟨⟩⟩
  obtain ⟨-, hiff⟩ := exec_iff_along (I := State.Invariant) (P := InBounds)
    (fun s op s' hI hs => ⟨(keeps_step hI hs).invariant, (keeps_step hI hs).inBounds⟩) hI hs
  rw [hiff, and_iff_right h0]

/-- An array of four elements in a buffer of eight bytes, and an access to the last one. -/
theorem inBounds_example : ∃ s, exec State.step .initial [.newBuffer 8 false,
    .construct .uint16Array 0 false, .index 0, .done, .element 0 3] = some s ∧ InBounds s := by
  have hruns : ∃ s, exec State.step .initial [.newBuffer 8 false,
    .construct .uint16Array 0 false, .index 0, .done, .element 0 3] = some s := ⟨_, rfl⟩
  obtain ⟨s, hs⟩ := hruns
  refine ⟨s, hs, (inBounds_iff hs).mpr ?_⟩
  refine ⟨trivial, fun _ h => ?_⟩
  cases h
  refine ⟨trivial, fun _ h => ?_⟩
  cases h
  refine ⟨trivial, fun _ h => ?_⟩
  cases h
  refine ⟨.inl rfl, fun _ h => ?_⟩
  exact ⟨trivial, fun _ _ => trivial⟩

/-- The lookup of the prototype detaches the buffer: the array has elements, and one of them is
read from the null pointer. -/
theorem detached_not_inBounds : ∃ s, exec State.step .initial [.newBuffer 8 false,
    .construct .uint8Array 0 false, .index 0, .detach 0, .done, .element 0 5] = some s ∧
    s.views = [⟨some .uint8Array, 0, 0, 8, 8, .null 0⟩] ∧ s.accesses = [⟨false, 0, 5, 1⟩] ∧
    ¬ InBounds s := by
  refine ⟨_, rfl, rfl, rfl, fun h => ?_⟩
  cases (h.2 _ (List.mem_singleton.mpr rfl)).1

/-- In a run from the start every view lies in its buffer, if that has not been detached, and a
typed array there points at its own bytes. -/
theorem viewOk_of_exec {ops : List Op} (hs : exec State.step .initial ops = some s') :
    ∀ ta ∈ s'.views, ViewOk s' ta :=
  (exec_iff_along (I := State.Invariant) (P := InBounds)
    (fun _ _ _ hI hs => ⟨(keeps_step hI hs).invariant, (keeps_step hI hs).inBounds⟩)
    ⟨by rintro _ ⟨⟩, by rintro _ ⟨⟩⟩ hs).1.views

/-- An array of four elements from the second byte on, of which a subarray is made. -/
theorem viewOk_example : ∃ s, exec State.step .initial [.newBuffer 10 false,
    .construct .uint16Array 0 true, .index 2, .index 4, .done, .subarray 0, .range 1 3, .done, .done] =
      some s ∧ ∀ ta ∈ s.views, ViewOk s ta := by
  have hruns : ∃ s, exec State.step .initial [.newBuffer 10 false,
    .construct .uint16Array 0 true, .index 2, .index 4, .done, .subarray 0, .range 1 3, .done, .done] =
      some s := ⟨_, rfl⟩
  obtain ⟨s, hs⟩ := hruns
  exact ⟨s, hs, viewOk_of_exec hs⟩

end QuickJs.TypedArray
