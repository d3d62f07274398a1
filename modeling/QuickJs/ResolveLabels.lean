import QuickJs.Opcode
import QuickJs.ByteBuffer

/-!
# Jumps and labels in the last pass

`resolve_labels`: what it puts into the final bytecode, with the addresses of labels and the operands of jumps, then
the jumps that become shorter. The peephole rules only show in what is put: a `Layout` lists it, and how many bytes
of the old code were read for each part.
-/

namespace QuickJs.ResolveLabels

open Bytecode ByteBuffer

structure RelocEntry where
  addr : ℕ
  size : ℕ

/-- Without the reference count and the address of the first phase. -/
structure LabelSlot where
  /-- phase 2 address -/
  pos2 : ℤ
  /-- phase 3 address, -1 means not resolved yet -/
  addr : ℤ
  firstReloc : List RelocEntry

structure JumpSlot where
  op : OPCodeEnum
  size : ℕ
  pos : ℕ
  label : ℕ
  deriving DecidableEq

structure LineNumberSlot where
  pc : ℕ
  lineNum : ℕ

/-! ## What is put -/

/-- The opcodes that come to `has_label`. -/
def labelJumps : List OPCodeEnum := [.ifFalse, .ifTrue, .goto, .catch_, .gosub]

def withJumps : List OPCodeEnum :=
  [.withGetVar, .withPutVar, .withDeleteVar, .withMakeRef, .withGetRef, .withGetRefUndef]

/-- The opcodes with an operand of 8 bits. -/
def shortJumps : List OPCodeEnum := [.ifFalse, .ifTrue, .goto]

/-- `OP_if_false8 + (op - OP_if_false)`. -/
def shortJump : OPCodeEnum → OPCodeEnum
  | .ifFalse => .ifFalse8
  | .ifTrue => .ifTrue8
  | .goto => .goto8
  | op => op

inductive Item
  /-- instructions without a label -/
  | code (bytes : List UInt8)
  /-- `add_pc2line_info` -/
  | line (lineNum : ℕ)
  /-- `OP_label` -/
  | label (l : ℕ)
  /-- an instruction that comes to `has_label` -/
  | jump (op : OPCodeEnum) (l : ℕ)
  /-- `OP_with_get_var` and its like -/
  | withVar (op : OPCodeEnum) (atom : List UInt8) (l : ℕ) (isWith : UInt8)

/-- The item can come from so many bytes: no rule puts more bytes than it reads. -/
def Item.Reads : Item → ℕ → Prop
  | code bytes, n => bytes.length ≤ n
  | line _, n => n = 0
  | label _, n => n = 5
  | jump op _, n => op ∈ labelJumps ∧ 5 ≤ n
  | withVar op atom _ _, n => op ∈ withJumps ∧ atom.length = 4 ∧ n = 10

structure Source where
  item : Item
  read : ℕ
  reads : item.Reads read

/-- How many bytes have been read. -/
def readBytes (srcs : List Source) : ℕ := (srcs.map Source.read).sum

/-- What the pass is given and what its rules select. -/
structure Layout where
  /-- what is put before the first instruction is read -/
  prologue : List UInt8
  sources : List Source
  /-- the line of the function -/
  lineNum : ℕ
  /-- 0 if there is no line table -/
  lineNumberSize : ℕ
  /-- the phase 2 addresses of the labels -/
  pos2 : List ℤ
  /-- the phase 2 address of a label is the one after `OP_label` -/
  designates : ∀ pre src post l, sources = pre ++ src :: post → src.item = .label l →
    pos2[l]? = some ((readBytes pre : ℤ) + src.read)
  /-- positions are of type `int` -/
  small : prologue.length + readBytes sources < 2 ^ 31

/-! ## The first pass -/

structure State where
  out : List UInt8
  labels : List LabelSlot
  jumps : List JumpSlot
  lines : List LineNumberSlot
  lineNumberLast : ℕ
  lineNumberLastPc : ℕ

/-- The byte of an opcode. -/
def opByte (op : OPCodeEnum) : UInt8 := UInt8.ofNat (opcodeInfo.findIdx fun oi => oi.op == op)

/-- `add_pc2line_info`. -/
def addPc2lineInfo (lineNumberSize : ℕ) (s : State) (lineNum : ℕ) : State :=
  if s.lines.length < lineNumberSize ∧ s.lineNumberLastPc ≤ s.out.length ∧ lineNum ≠ s.lineNumberLast then
    { s with
      lines := s.lines ++ [⟨s.out.length, lineNum⟩]
      lineNumberLast := lineNum
      lineNumberLastPc := s.out.length }
  else s

/-- A relocation entry of a label that is at `addr`. Only the operand of 32 bits has no assertion. -/
def resolveReloc (addr : ℕ) (out : List UInt8) (re : RelocEntry) : Option (List UInt8) :=
  let diff : ℤ := addr - re.addr
  if re.size ≠ 4 ∧ ¬Fits re.size diff then none else some (put out re.addr (ofInt re.size diff))

/-- `OP_label`. -/
def placeLabel (s : State) (l : ℕ) : Option State :=
  match s.labels[l]? with
  | none => none
  | some ls =>
    if ls.addr ≠ -1 then none
    else
      (ls.firstReloc.foldlM (resolveReloc s.out.length) s.out).map fun out =>
        { s with out := out, labels := s.labels.set l { ls with addr := s.out.length, firstReloc := [] } }

/-- The opcode, the size of the operand and the operand at `has_label`, for the instruction at `pos`. -/
def jumpForm (pos size : ℕ) (ls : LabelSlot) (op : OPCodeEnum) : OPCodeEnum × ℕ × ℤ :=
  if ls.addr = -1 then
    let diff := ls.pos2 - pos - 1
    if diff < 128 ∧ op ∈ shortJumps then (shortJump op, 1, 0)
    else if diff < 32768 ∧ op = .goto then (.goto16, 2, 0)
    else (op, 4, ls.addr - (size + 1))
  else
    let diff := ls.addr - size - 1
    if Fits 1 diff ∧ op ∈ shortJumps then (shortJump op, 1, diff)
    else if Fits 2 diff ∧ op = .goto then (.goto16, 2, diff)
    else (op, 4, ls.addr - (size + 1))

/-- A jump with its slot, and a relocation entry if its label has no address yet. -/
def emitJump (s : State) (l : ℕ) (ls : LabelSlot) (op : OPCodeEnum) (atom : List UInt8) (size : ℕ) (diff : ℤ)
    (tail : List UInt8) : State :=
  let pos := s.out.length + 1 + atom.length
  { s with
    out := s.out ++ (opByte op :: atom ++ ofInt size diff ++ tail)
    jumps := s.jumps ++ [⟨op, size, pos, l⟩]
    labels :=
      if ls.addr = -1 then s.labels.set l { ls with firstReloc := ⟨pos, size⟩ :: ls.firstReloc } else s.labels }

/-- One step; `pos` is where the instructions are that are read for it. -/
def putItem (lineNumberSize pos : ℕ) (s : State) : Item → Option State
  | .code bytes => some { s with out := s.out ++ bytes }
  | .line lineNum => some (addPc2lineInfo lineNumberSize s lineNum)
  | .label l => placeLabel s l
  | .jump op l =>
    s.labels[l]?.map fun ls =>
      let (op', size, diff) := jumpForm pos s.out.length ls op
      emitJump s l ls op' [] size diff []
  | .withVar op atom l isWith =>
    s.labels[l]?.map fun ls => emitJump s l ls op atom 4 (ls.addr - (s.out.length + 1 + atom.length)) [isWith]

def putItems (lineNumberSize : ℕ) : ℕ → State → List Source → Option State
  | _, s, [] => some s
  | pos, s, src :: srcs =>
    (putItem lineNumberSize pos s src.item).bind fun s => putItems lineNumberSize (pos + src.read) s srcs

def Layout.init (L : Layout) : State where
  out := L.prologue
  labels := L.pos2.map fun pos2 => { pos2 := pos2, addr := -1, firstReloc := [] }
  jumps := []
  lines := []
  lineNumberLast := L.lineNum
  lineNumberLastPc := 0

/-! ## More jump optimizations -/

structure Relaxing where
  out : List UInt8
  labels : List LabelSlot
  jumps : List JumpSlot
  lines : List LineNumberSlot
  patchOffsets : ℕ

/-- The new opcode and size of a jump, and `delta`. -/
def shrinkForm (op : OPCodeEnum) (diff : ℤ) : Option (OPCodeEnum × ℕ × ℕ) :=
  if op = .goto16 then if -128 ≤ diff ∧ diff ≤ 127 + 1 then some (.goto8, 1, 1) else none
  else if op ∈ shortJumps then
    if -128 ≤ diff ∧ diff ≤ 127 + 3 then some (shortJump op, 1, 3)
    else if Fits 2 diff ∧ op = .goto then some (.goto16, 2, 2)
    else none
  else none

/-- `shrink`: everything after the operand at `pos` moves by `delta`. -/
def shrinkTo (r : Relaxing) (i : ℕ) (jp : JumpSlot) (op : OPCodeEnum) (size delta : ℕ) : Relaxing where
  out := cut (put r.out (jp.pos - 1) [opByte op]) (jp.pos + size) delta
  labels := r.labels.map fun ls => if (jp.pos : ℤ) < ls.addr then { ls with addr := ls.addr - delta } else ls
  jumps := r.jumps.mapIdx fun j jp1 =>
    if j = i then { jp with op := op, size := size }
    else if i < j ∧ jp.pos < jp1.pos then { jp1 with pos := jp1.pos - delta }
    else jp1
  lines := r.lines.map fun ln => if jp.pos < ln.pc then { ln with pc := ln.pc - delta } else ln
  patchOffsets := r.patchOffsets + 1

/-- The body of the loop. -/
def shrinkAt (r : Relaxing) (i : ℕ) : Relaxing :=
  match r.jumps[i]? with
  | none => r
  | some jp =>
    match r.labels[jp.label]? with
    | none => r
    | some ls =>
      match shrinkForm jp.op (ls.addr - jp.pos) with
      | none => r
      | some (op, size, delta) => shrinkTo r i jp op size delta

def State.shrink (s : State) : Relaxing :=
  (List.range s.jumps.length).foldl shrinkAt
    { out := s.out, labels := s.labels, jumps := s.jumps, lines := s.lines, patchOffsets := 0 }

/-- One of the last operands. -/
def patchJump (labels : List LabelSlot) (out : List UInt8) (jp : JumpSlot) : List UInt8 :=
  match labels[jp.label]? with
  | none => out
  | some ls => put out jp.pos (ofInt jp.size (ls.addr - jp.pos))

def Relaxing.patch (r : Relaxing) : List UInt8 :=
  if r.patchOffsets ≠ 0 then r.jumps.foldl (patchJump r.labels) r.out else r.out

/-- The new bytecode and its line table. -/
structure Resolved where
  code : List UInt8
  lines : List LineNumberSlot

/-- `resolve_labels`; none if an assertion fails. -/
def Layout.resolveLabels (L : Layout) : Option Resolved :=
  (putItems L.lineNumberSize 0 L.init L.sources).bind fun s =>
    -- there were no missing labels
    if s.labels.all fun ls => ls.firstReloc.isEmpty then some ⟨s.shrink.patch, s.shrink.lines⟩ else none

end QuickJs.ResolveLabels
