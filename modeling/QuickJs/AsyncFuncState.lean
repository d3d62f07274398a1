import Mathlib.Data.Nat.Notation

/-!
# The frame of a function that can be suspended

Generators, async functions and async generators keep their frame in a `JSAsyncFunctionState`. While the frame runs its
stack pointer is `NULL`; where it leaves, the place and the stack pointer are written back.
-/

namespace QuickJs

/-- `JSAsyncFunctionState`: where the frame goes on, the values up to `cur_sp` with the last one first (`none` is
`NULL`), and how often the memory of the frame was freed. -/
structure FuncState (V : Type) where
  curPc : ℕ
  curSp : Option (List V)
  throwFlag : Bool
  freed : ℕ
  deriving DecidableEq

/-- `JS_CallInternal` goes on with a frame: where, with which values, and with which exception instead. -/
structure Entry (V : Type) where
  pc : ℕ
  stack : List V
  thrown : Option V
  deriving DecidableEq

variable {V : Type}

/-- `async_func_free`: the frame must not run. -/
def asyncFuncFree (s : FuncState V) : Option (FuncState V) :=
  match s.curSp with
  | none => none
  | some _ => some { s with freed := s.freed + 1 }

/-- The start of `JS_CallInternal` for a frame that was suspended. -/
def enter (s : FuncState V) (exception : Option V) : Option (FuncState V × Entry V) :=
  s.curSp.map fun sp => ({ s with curSp := none }, ⟨s.curPc, sp, if s.throwFlag then exception else none⟩)

/-- The end of it: `cur_pc` and `cur_sp` are set again. -/
def FuncState.exit (s : FuncState V) (pc : ℕ) (sp : List V) : FuncState V := { s with curPc := pc, curSp := some sp }

end QuickJs
