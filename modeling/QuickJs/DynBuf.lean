import QuickJs.Run
import Mathlib.Data.Nat.Notation

/-!
# Growing buffers of bytes

The `DynBuf` of `cutils.c`. Where memory is refused it keeps its bytes and is marked; bytes that have room are taken
even then, so a marked buffer may lack some of those before them.
-/

namespace QuickJs.Cutils

open Run

structure DynBuf where
  /-- the bytes in use -/
  buf : List UInt8
  allocatedSize : ℕ
  error : Bool

namespace DynBuf

/-- `dbuf_realloc`: whether it returns 0, and what it leaves. -/
def dbufRealloc (s : DynBuf) (newSize : ℕ) (granted : Bool) : Bool × DynBuf :=
  if newSize > s.allocatedSize then
    if s.error then (false, s)
    else if granted then (true, { s with allocatedSize := max newSize (s.allocatedSize * 3 / 2) })
    else (false, { s with error := true })
  else (true, s)

def dbufPut (s : DynBuf) (data : List UInt8) (granted : Bool) : Bool × DynBuf :=
  let size := s.buf.length + data.length
  match if size > s.allocatedSize then dbufRealloc s size granted else (true, s) with
  | (false, s) => (false, s)
  | (true, s) => (true, { s with buf := s.buf ++ data })

/-- `dbuf_put_self`, of bytes that are in use. -/
def dbufPutSelf (s : DynBuf) (offset len : ℕ) : Bool → Bool × DynBuf :=
  dbufPut s ((s.buf.drop offset).take len)

inductive Op
  | realloc (newSize : ℕ)
  | put (data : List UInt8)
  | putSelf (offset len : ℕ)
  | setError

/-- A call, and whether memory is granted to it. -/
def step (s : DynBuf) : Op × Bool → Option DynBuf
  | (.realloc newSize, granted) => some (dbufRealloc s newSize granted).2
  | (.put data, granted) => some (dbufPut s data granted).2
  | (.putSelf offset len, granted) =>
    if offset + len ≤ s.buf.length then some (dbufPutSelf s offset len granted).2 else none
  | (.setError, _) => some { s with error := true }

/-- The bytes with those that a call is to add. -/
def written (bytes : List UInt8) : Op × Bool → List UInt8
  | (.put data, _) => bytes ++ data
  | (.putSelf offset len, _) => bytes ++ (bytes.drop offset).take len
  | _ => bytes

/-- The bytes have room, and none are missing unless the buffer is marked. -/
structure Holds (s : DynBuf) (bytes : List UInt8) : Prop where
  room : s.buf.length ≤ s.allocatedSize
  buf : s.error = false → s.buf = bytes

variable {s s' : DynBuf} {bytes data data' : List UInt8} {o : Op × Bool} {ops : List (Op × Bool)}

/-- The buffer is marked, or has the room that was asked for. -/
theorem dbufRealloc_cases (s : DynBuf) (newSize : ℕ) (granted : Bool) :
    dbufRealloc s newSize granted = (false, { s with error := true }) ∨ ∃ size, newSize ≤ size ∧
      s.allocatedSize ≤ size ∧ dbufRealloc s newSize granted = (true, { s with allocatedSize := size }) := by
  unfold dbufRealloc
  split
  · split
    · rename_i herror
      exact .inl (by rw [← herror])
    · split
      · exact .inr ⟨_, Nat.le_max_left .., by omega, rfl⟩
      · exact .inl rfl
  · exact .inr ⟨s.allocatedSize, by omega, Nat.le_refl _, rfl⟩

theorem Holds.put (h : Holds s bytes) (hdata : s.error = false → data = data') (granted : Bool) :
    Holds (dbufPut s data granted).2 (bytes ++ data') := by
  have hreq : (if s.buf.length + data.length > s.allocatedSize then
      dbufRealloc s (s.buf.length + data.length) granted else (true, s)) =
        dbufRealloc s (s.buf.length + data.length) granted := by
    unfold dbufRealloc
    split <;> rfl
  rw [dbufPut, hreq]
  obtain hreq | ⟨size, hsize, -, hreq⟩ := dbufRealloc_cases s (s.buf.length + data.length) granted
  · rw [hreq]
    exact ⟨h.room, fun herror => by cases herror⟩
  · rw [hreq]
    refine ⟨by rwa [List.length_append], fun herror => ?_⟩
    rw [h.buf herror, hdata herror]

theorem Holds.step (h : Holds s bytes) (hs : s.step o = some s') : Holds s' (written bytes o) := by
  obtain ⟨op, granted⟩ := o
  cases op with
  | realloc newSize =>
    cases hs
    obtain hreq | ⟨size, -, hle, hreq⟩ := dbufRealloc_cases s newSize granted
    · rw [hreq]
      exact ⟨h.room, fun herror => by cases herror⟩
    · rw [hreq]
      exact ⟨Nat.le_trans h.room hle, h.buf⟩
  | put data =>
    cases hs
    exact h.put (fun _ => rfl) granted
  | putSelf offset len =>
    obtain ⟨-, ⟨⟩⟩ := Option.ite_none_right_eq_some.mp hs
    exact h.put (fun herror => by rw [h.buf herror]) granted
  | setError =>
    cases hs
    exact ⟨h.room, fun herror => by cases herror⟩

/-- In every run the bytes have room, and are what was written, unless the buffer is marked. -/
theorem holds_of_exec (h : Holds s bytes) (hs : exec step s ops = some s') :
    Holds s' (ops.foldl written bytes) := by
  induction ops generalizing s bytes with
  | nil =>
    cases hs
    exact h
  | cons o ops ih =>
    obtain ⟨t, ht, hs⟩ := Option.bind_eq_some_iff.mp hs
    exact ih (h.step ht) hs

/-- A new buffer takes bytes, and copies the last two of them. -/
theorem holds_of_exec_putSelf : Holds ⟨[1, 2, 3, 2, 3], 5, false⟩ [1, 2, 3, 2, 3] := by
  have hnew : Holds ⟨[], 0, false⟩ [] := ⟨Nat.le_refl _, fun _ => rfl⟩
  have hs : exec step ⟨[], 0, false⟩ [(.put [1, 2, 3], true), (.putSelf 1 2, true)] =
    some ⟨[1, 2, 3, 2, 3], 5, false⟩ := rfl
  exact holds_of_exec hnew hs

end DynBuf

end QuickJs.Cutils
