import Mathlib.Data.List.Sort
import QuickJs.RqsortSorted

/-!
# `Array.prototype.sort`

`js_array_sort` reads the elements into slots, sorts the slots, and writes them back. It does not
write an element that it found in its place already, although the comparison function may have
changed the array there since it was read.
-/

namespace QuickJs.ArraySort

open Exchange Rqsort

/-- A value, which `js_array_sort` tells from `undefined` only. -/
inductive Value (α : Type) where
  | undefined
  | defined (v : α)
  deriving DecidableEq

/-- The elements of the object, and what else there is for a comparison function. An index without
an element is a hole. -/
structure World (α σ : Type) where
  elements : ℕ → Option (Value α)
  rest : σ

/-- What the sort calls. Without a result there is an exception. -/
structure Sorter (α σ : Type) where
  /-- the comparison function, if there is one, and the conversion of its result to a number: only
  the sign of it matters, and that of a NaN is zero -/
  method : Option (α → α → World α σ → Option ℤ × World α σ)
  /-- `JS_ToString` -/
  toString : α → World α σ → Option (List ℕ) × World α σ

/-- `ValueSlot`. -/
structure ValueSlot (α : Type) where
  val : α
  pos : ℕ
  deriving DecidableEq

/-- `struct array_sort_context`, with the `str` field of each slot at its `pos`. -/
structure Context (α σ : Type) where
  exception : Bool
  str : ℕ → Option (List ℕ)
  world : World α σ

variable {α σ : Type}

/-! ## The comparison -/

/-- `js_string_compare`. -/
def jsStringCompare : List ℕ → List ℕ → ℤ
  | [], [] => 0
  | [], _ :: _ => -1
  | _ :: _, [] => 1
  | c :: p1, d :: p2 => if c = d then jsStringCompare p1 p2 else (c : ℤ) - d

/-- `cmp_same`: compare the places of the elements. -/
def cmpSame (ap bp : ValueSlot α) : ℤ :=
  (if bp.pos < ap.pos then 1 else 0) - (if ap.pos < bp.pos then 1 else 0)

/-- The result of a comparison, unless it is zero. -/
def cmpResult (cmp : ℤ) (ap bp : ValueSlot α) : ℤ := if cmp ≠ 0 then cmp else cmpSame ap bp

/-- `JS_ToString` for a slot that has no string yet. -/
def slotString (so : Sorter α σ) (p : ValueSlot α) (psc : Context α σ) :
    Option (List ℕ) × Context α σ :=
  match psc.str p.pos with
  | some str => (some str, psc)
  | none =>
    let r := so.toString p.val psc.world
    (r.1, { psc with str := Function.update psc.str p.pos r.1, world := r.2 })

/-- `js_array_cmp_generic`. -/
def jsArrayCmpGeneric [DecidableEq α] (so : Sorter α σ) (ap bp : ValueSlot α)
    (psc : Context α σ) : ℤ × Context α σ :=
  if psc.exception then (0, psc)
  else match so.method with
    | some call =>
      if ap.val = bp.val then (cmpSame ap bp, psc)
      else match call ap.val bp.val psc.world with
        | (none, w) => (0, { psc with exception := true, world := w })
        | (some val, w) => (cmpResult val.sign ap bp, { psc with world := w })
    | none =>
      match slotString so ap psc with
      | (none, psc) => (0, { psc with exception := true })
      | (some a, psc) =>
        match slotString so bp psc with
        | (none, psc) => (0, { psc with exception := true })
        | (some b, psc) => (cmpResult (jsStringCompare a b) ap bp, psc)

/-! ## The sort -/

/-- The slot of a defined element. -/
def slotAt (elements : ℕ → Option (Value α)) (i : ℕ) : Option (ValueSlot α) :=
  match elements i with
  | some (.defined v) => some ⟨v, i⟩
  | _ => none

/-- The first loop of `js_array_sort`. -/
def gather (elements : ℕ → Option (Value α)) (len : ℕ) : List (ValueSlot α) :=
  (List.range len).filterMap (slotAt elements)

/-- The `undefined_count` of the first loop. -/
def undefinedCount [DecidableEq α] (elements : ℕ → Option (Value α)) (len : ℕ) : ℕ :=
  (List.range len).countP fun i => elements i = some .undefined

/-- The slots after `rqsort`, and its context. -/
def sortSlots [DecidableEq α] (so : Sorter α σ) (array : List (ValueSlot α)) (psc : Context α σ) :
    List (ValueSlot α) × Context α σ :=
  match array with
  | [] => ([], psc)
  | slot :: _ =>
    let s := rqsort (jsArrayCmpGeneric so) array.length ⟨fun i => array.getD i slot, psc⟩
    ((List.range array.length).map s.elem, s.world)

/-- Write the slots from index `n` on, but for those that are in place. -/
def writeSlots : ℕ → List (ValueSlot α) → (ℕ → Option (Value α)) → ℕ → Option (Value α)
  | _, [], elements => elements
  | n, slot :: array, elements =>
    writeSlots (n + 1) array
      (if slot.pos = n then elements else Function.update elements n (some (.defined slot.val)))

/-- `JS_SetPropertyInt64` and `JS_DeletePropertyInt64` for `count` indices from `i` on. -/
def writeAll (v : Option (Value α)) : ℕ → ℕ → (ℕ → Option (Value α)) → ℕ → Option (Value α)
  | _, 0, elements => elements
  | i, count + 1, elements => writeAll v (i + 1) count (Function.update elements i v)

/-- What `js_array_sort` does after the sort. -/
def writeBack (array : List (ValueSlot α)) (undefinedCount len : ℕ)
    (elements : ℕ → Option (Value α)) : ℕ → Option (Value α) :=
  let n := array.length
  writeAll none (n + undefinedCount) (len - (n + undefinedCount))
    (writeAll (some .undefined) n undefinedCount (writeSlots 0 array elements))

/-- The sort of the slots that `js_array_sort` has read. -/
def sortRead [DecidableEq α] (so : Sorter α σ) (len : ℕ) (w : World α σ) :
    List (ValueSlot α) × Context α σ :=
  sortSlots so (gather w.elements len) ⟨false, fun _ => none, w⟩

/-- `js_array_sort` on an object with a length. The first result tells that there was no
exception. -/
def jsArraySort [DecidableEq α] (so : Sorter α σ) (len : ℕ) (w : World α σ) :
    Bool × World α σ :=
  let r := sortRead so len w
  if r.2.exception then (false, r.2.world)
  else (true, { r.2.world with
    elements := writeBack r.1 (undefinedCount w.elements len) len r.2.world.elements })

/-! ## What a stable sort is -/

/-- `le` is a total preorder of the values. -/
structure TotalPreorder (le : α → α → Prop) (values : List α) : Prop where
  trans : ∀ x ∈ values, ∀ y ∈ values, ∀ z ∈ values, le x y → le y z → le x z
  total : ∀ x ∈ values, ∀ y ∈ values, le x y ∨ le y x

/-- The comparison decides `le`, in whatever state it is called. -/
def Sorter.Decides (so : Sorter α σ) (le : α → α → Prop) (values : List α) : Prop :=
  match so.method with
  | some call => ∀ x ∈ values, ∀ y ∈ values, ∀ w, ∃ val, (call x y w).1 = some val ∧
      (val ≤ 0 ↔ le x y) ∧ (0 ≤ val ↔ le y x)
  | none => ∃ text : α → List ℕ, (∀ x ∈ values, ∀ w, (so.toString x w).1 = some (text x)) ∧
      ∀ x ∈ values, ∀ y ∈ values, (jsStringCompare (text x) (text y) ≤ 0 ↔ le x y) ∧
        (0 ≤ jsStringCompare (text x) (text y) ↔ le y x)

/-- The comparison is a consistent total preorder of the values. -/
structure Sorter.Consistent (so : Sorter α σ) (le : α → α → Prop) (values : List α) : Prop where
  preorder : TotalPreorder le values
  decides : so.Decides le values

/-- `a` may stand before `b`: it is not greater, and if they are equal it came first. -/
def Before (le : α → α → Prop) (a b : ValueSlot α) : Prop :=
  le a.val b.val ∧ (le b.val a.val → a.pos ≤ b.pos)

/-- The slots, followed by the undefined elements and the holes. -/
structure Laid (array : List (ValueSlot α)) (undefinedCount len : ℕ)
    (elements : ℕ → Option (Value α)) : Prop where
  defined : ∀ i (h : i < array.length), elements i = some (.defined (array[i]).val)
  undefined : ∀ i, array.length ≤ i → i < array.length + undefinedCount → elements i = some .undefined
  holes : ∀ i, array.length + undefinedCount ≤ i → i < len → elements i = none

/-- The elements that were read are there again, in the order of the comparison if that is an order,
and in their own order where it makes no difference. -/
def StableSort [DecidableEq α] (so : Sorter α σ) (len : ℕ) (before after : ℕ → Option (Value α)) : Prop :=
  ∃ array : List (ValueSlot α), array.Perm (gather before len) ∧
    Laid array (undefinedCount before len) len after ∧
      ∀ le, so.Consistent le ((gather before len).map ValueSlot.val) → array.Pairwise (Before le)

/-- No call throws. -/
def Sorter.NoThrow (so : Sorter α σ) : Prop :=
  match so.method with
  | some call => ∀ x y w, (call x y w).1 ≠ none
  | none => ∀ x w, (so.toString x w).1 ≠ none

end QuickJs.ArraySort
