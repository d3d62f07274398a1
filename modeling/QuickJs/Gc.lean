import QuickJs.LinkedList
import QuickJs.RefGraph

/-!
# The cycle collector

`JS_RunGC` frees the objects that only references from other garbage keep
alive. It works in three passes over the list of all GC objects:

* `gcDecref` subtracts every internal reference (trial deletion) and sets aside
  the objects whose count drops to zero;
* `gcScan` puts back everything that the remaining objects reach, then restores
  the counts of the objects that stay aside;
* `gcFreeCycles` frees the objects set aside.

An object is seen through the references it holds: `fields` are the shape and
the properties (or, for the other kinds of GC object, everything `mark_children`
visits) and `payload` are the references of the class-specific `gc_mark`. The
values of a `WeakMap` are held per record, because freeing the *key* of a record
releases its value as well.
-/

namespace QuickJs.Gc

open LinkedList

/-- The address of a GC object. -/
abbrev Ptr : Type := ℕ

/-- `JSGCObjectTypeEnum`. -/
inductive GcObjType where
  /-- `JS_GC_OBJ_TYPE_JS_OBJECT` -/
  | jsObject
  /-- `JS_GC_OBJ_TYPE_FUNCTION_BYTECODE` -/
  | functionBytecode
  /-- `JS_GC_OBJ_TYPE_SHAPE` -/
  | shape
  /-- `JS_GC_OBJ_TYPE_VAR_REF` -/
  | varRef
  /-- `JS_GC_OBJ_TYPE_ASYNC_FUNCTION` -/
  | asyncFunction
  /-- `JS_GC_OBJ_TYPE_JS_CONTEXT` -/
  | jsContext
  deriving DecidableEq, Repr

/-- The GC objects that a `JSValue` can designate. -/
def GcObjType.isValue : GcObjType → Bool
  | .jsObject | .functionBytecode => true
  | _ => false

/-- Objects of a positive rank are freed as soon as their count is zero, and
only reference objects of a smaller rank: a context references shapes and
variable references, these reference values. -/
def GcObjType.rank : GcObjType → ℕ
  | .jsObject | .functionBytecode => 0
  | .shape | .varRef | .asyncFunction => 1
  | .jsContext => 2

/-- `JSGCObjectHeader` and the references of the object behind it. -/
structure GcObject where
  /-- the reference count -/
  refCount : ℤ
  /-- the mark of the collector -/
  mark : ℕ
  /-- the kind of object -/
  gcObjType : GcObjType
  /-- the shape and the properties -/
  fields : List Ptr
  /-- what the class of the object references -/
  payload : List Ptr

/-- A `JSMapRecord` of a `WeakMap`, when its value is a GC object. -/
structure WeakRecord where
  /-- the key, which the record does not keep alive -/
  key : Ptr
  /-- the `WeakMap` the record belongs to -/
  map : Ptr
  /-- the value -/
  value : Ptr
  deriving DecidableEq

/-- The part of `JSRuntime` the collector works on. -/
structure JSRuntime where
  /-- the memory of the GC objects -/
  obj : Ptr → GcObject
  /-- the list of allocated GC objects -/
  gcObjList : List Ptr
  /-- objects whose memory is kept until the end of the collection -/
  gcZeroRefCountList : List Ptr
  /-- the objects set aside by `gcDecref` -/
  tmpObjList : List Ptr
  /-- the records of all live weak maps -/
  weak : List WeakRecord
  /-- the objects whose memory was given back -/
  freed : List Ptr

namespace JSRuntime

/-- Write the reference count of `p`. -/
def setRefCount (s : JSRuntime) (p : Ptr) (n : ℤ) : JSRuntime :=
  { s with obj := Function.update s.obj p { s.obj p with refCount := n } }

/-- Write the mark of `p`. -/
def setMark (s : JSRuntime) (p : Ptr) (m : ℕ) : JSRuntime :=
  { s with obj := Function.update s.obj p { s.obj p with mark := m } }

/-- `list_del(&p->link)`, whichever list `p` is linked in. -/
def listDel (s : JSRuntime) (p : Ptr) : JSRuntime :=
  { s with
    gcObjList := s.gcObjList.erase p
    gcZeroRefCountList := s.gcZeroRefCountList.erase p
    tmpObjList := s.tmpObjList.erase p }

/-- Move `p` to the tail of `tmp_obj_list`. -/
def moveToTmp (s : JSRuntime) (p : Ptr) : JSRuntime :=
  { s.listDel p with tmpObjList := (s.listDel p).tmpObjList ++ [p] }

/-- Move `p` to the tail of `gc_obj_list`. -/
def moveToGc (s : JSRuntime) (p : Ptr) : JSRuntime :=
  { s.listDel p with gcObjList := (s.listDel p).gcObjList ++ [p] }

/-- `js_free_rt`. -/
def jsFree (s : JSRuntime) (p : Ptr) : JSRuntime := { s with freed := s.freed ++ [p] }

/-- The values of the records that satisfy `f`. -/
def weakValues (s : JSRuntime) (f : WeakRecord → Bool) : List Ptr :=
  (s.weak.filter f).map WeakRecord.value

/-- The objects `mark_children` visits. -/
def children (s : JSRuntime) (p : Ptr) : List Ptr :=
  (s.obj p).fields ++ ((s.obj p).payload ++ s.weakValues fun r => r.map = p)

end JSRuntime

open JSRuntime

/-- `mark_children`. -/
def markChildren (s : JSRuntime) (gp : Ptr) (markFunc : JSRuntime → Ptr → JSRuntime) : JSRuntime :=
  (s.children gp).foldl markFunc s

/-! ## Trial deletion -/

/-- `gc_decref_child`. -/
def gcDecrefChild (s : JSRuntime) (p : Ptr) : JSRuntime :=
  let s := s.setRefCount p ((s.obj p).refCount - 1)
  if (s.obj p).refCount = 0 ∧ (s.obj p).mark = 1 then s.moveToTmp p else s

/-- The body of the loop of `gc_decref`. -/
def gcDecrefBody (s : JSRuntime) (p : Ptr) : JSRuntime :=
  let s := (markChildren s p gcDecrefChild).setMark p 1
  if (s.obj p).refCount = 0 then s.moveToTmp p else s

/-- `gc_decref`. -/
def gcDecref (s : JSRuntime) : JSRuntime :=
  let s := { s with tmpObjList := [] }
  forEachSafe gcObjList gcDecrefBody s.gcObjList.length s.gcObjList.head? s

/-! ## Restoring what is reachable -/

/-- `gc_scan_incref_child`. -/
def gcScanIncrefChild (s : JSRuntime) (p : Ptr) : JSRuntime :=
  let s := s.setRefCount p ((s.obj p).refCount + 1)
  if (s.obj p).refCount = 1 then (s.moveToGc p).setMark p 0 else s

/-- `gc_scan_incref_child2`. -/
def gcScanIncrefChild2 (s : JSRuntime) (p : Ptr) : JSRuntime :=
  s.setRefCount p ((s.obj p).refCount + 1)

/-- The body of the first loop of `gc_scan`. -/
def gcScanBody (s : JSRuntime) (p : Ptr) : JSRuntime :=
  markChildren (s.setMark p 0) p gcScanIncrefChild

/-- The body of the second loop of `gc_scan`. -/
def gcScanBody2 (s : JSRuntime) (p : Ptr) : JSRuntime := markChildren s p gcScanIncrefChild2

/-- `gc_scan`. -/
def gcScan (s : JSRuntime) : JSRuntime :=
  let s := forEach gcObjList gcScanBody (s.gcObjList.length + s.tmpObjList.length)
    s.gcObjList.head? s
  forEach tmpObjList gcScanBody2 s.tmpObjList.length s.tmpObjList.head? s

/-! ## Freeing the cycles

Everything below runs in phase `JS_GC_PHASE_REMOVE_CYCLES`, where releasing the
last reference to a value does nothing: the values to free are all in
`tmp_obj_list` already. Other objects are freed on the spot. -/

/-- Does the free function of the kind free an object with this count?
`free_var_ref` and `js_async_function_free` test for zero, `js_free_shape` and
`JS_FreeContext` for a count that is not positive. -/
def hitsZero : GcObjType → ℤ → Bool
  | .varRef, n | .asyncFunction, n => n = 0
  | .shape, n | .jsContext, n => n ≤ 0
  | _, _ => false

/-- Release one reference: `JS_FreeValueRT`, `free_var_ref`, `js_free_shape`,
`js_async_function_free` and `JS_FreeContext`. The first argument bounds the
nesting of these calls, which the rank of the objects bounds by three. -/
def freeRef : ℕ → JSRuntime → Ptr → JSRuntime
  | 0, s, p => s.setRefCount p ((s.obj p).refCount - 1)
  | d + 1, s, p =>
    let s := s.setRefCount p ((s.obj p).refCount - 1)
    if hitsZero (s.obj p).gcObjType (s.obj p).refCount then
      (((s.children p).foldl (freeRef d) s).listDel p).jsFree p
    else s

end QuickJs.Gc
