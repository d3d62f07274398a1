import QuickJs.CharRange
import QuickJs.IntervalSearch

/-!
# The opcodes of a set of characters

`re_emit_range`, and what `lre_exec_backtrack` does with the bytecode. The intervals of the bytecode have their last
character as bound. In the form with 16 bits the bound 0xffff stands for infinity. How `lre_case_conv` converts
a character is left open.
-/

namespace QuickJs.Regexp

/-! ## Bytecode -/

def putU16 (v : ℕ) : List UInt8 := [.ofNat v, .ofNat (v / 2 ^ 8)]

def putU32 (v : ℕ) : List UInt8 := [.ofNat v, .ofNat (v / 2 ^ 8), .ofNat (v / 2 ^ 16), .ofNat (v / 2 ^ 24)]

/-- `get_u16`; none outside of the bytecode. -/
def getU16 (bc : List UInt8) (pos : ℕ) : Option ℕ := do
  let b0 ← bc[pos]?
  let b1 ← bc[pos + 1]?
  some (b0.toNat + 2 ^ 8 * b1.toNat)

/-- `get_u32`. -/
def getU32 (bc : List UInt8) (pos : ℕ) : Option ℕ := do
  let low ← getU16 bc pos
  let high ← getU16 bc (pos + 2)
  some (low + 2 ^ 16 * high)

/-- `REOPCodeEnum`. -/
inductive REOP
  | invalid
  | char
  | char32
  | dot
  | any
  | lineStart
  | lineEnd
  | goto
  | splitGotoFirst
  | splitNextFirst
  | match
  | saveStart
  | saveEnd
  | saveReset
  | loop
  | pushI32
  | drop
  | wordBoundary
  | notWordBoundary
  | backReference
  | backwardBackReference
  | range
  | range32
  | lookahead
  | negativeLookahead
  | pushCharPos
  | bneCharPos
  | prev
  | simpleGreedyQuant
  deriving DecidableEq

def REOP.code (op : REOP) : UInt8 := .ofNat op.ctorIdx

/-! ## Emission -/

/-- The intervals of `REOP_range`. -/
def emitRange16 : List ℕ → List UInt8
  | low :: high :: points =>
    let high := (high + uint32Max) % 2 ^ 32
    putU16 low ++ putU16 (if high = uint32Max - 1 then 0xffff else high) ++ emitRange16 points
  | _ => []

/-- The intervals of `REOP_range32`. -/
def emitRange32 : List ℕ → List UInt8
  | low :: high :: points => putU32 low ++ putU32 ((high + uint32Max) % 2 ^ 32) ++ emitRange32 points
  | _ => []

/-- `re_emit_range`; none is the error "too many ranges". -/
def reEmitRange (points : List ℕ) : Option (List UInt8) :=
  let len := points.length / 2
  if 65535 ≤ len then none
  else if len = 0 then some (REOP.char32.code :: putU32 uint32Max)
  else
    let high := points.getD (points.length - 1) 0
    let high := if high = uint32Max then points.getD (points.length - 2) 0 else high
    if high ≤ 0xffff then some (REOP.range.code :: putU16 len ++ emitRange16 points)
    else some (REOP.range32.code :: putU16 len ++ emitRange32 points)

/-! ## Execution -/

/-- What is known of the flags, with `lre_case_conv` as its first character and the others. -/
structure REExecContext where
  ignoreCase : Bool
  isUtf16 : Bool
  caseConv : ℕ → ℕ → ℕ × List ℕ

/-- `lre_canonicalize`. -/
def REExecContext.canonicalize (s : REExecContext) (c : ℕ) : ℕ :=
  if s.isUtf16 then
    if c < 128 then if 65 ≤ c ∧ c ≤ 90 then c - 65 + 97 else c
    else (s.caseConv c 2).1
  else
    if c < 128 then if 97 ≤ c ∧ c ≤ 122 then c - 97 + 65 else c
    else
      let res := s.caseConv c 0
      if res.2 = [] ∧ 128 ≤ res.1 then res.1 else c

/-- The character that is compared. -/
def REExecContext.subject (s : REExecContext) (c : ℕ) : ℕ := if s.ignoreCase then s.canonicalize c else c

/-- Where `lre_exec_backtrack` goes on, with the input that is left. -/
inductive Outcome
  | next (pc : ℕ) (input : List ℕ)
  | noMatch
  deriving DecidableEq

/-- The end of a search. -/
def Outcome.ofSearch (pc : ℕ) (input : List ℕ) : Bool → Outcome
  | true => .next pc input
  | false => .noMatch

/-- `REOP_range`, from its operand on. -/
def execRange16 (bc : List UInt8) (pc c : ℕ) (input : List ℕ) : Option Outcome := do
  let n ← getU16 bc pc
  let pc := pc + 2
  let low ← getU16 bc pc
  if c < low then return .noMatch
  let idxMax := (n + (2 ^ 32 - 1)) % 2 ^ 32
  let high ← getU16 bc (pc + idxMax * 4 + 2)
  -- 0xffff as the last value means infinity
  if 0xffff ≤ c ∧ high = 0xffff then return .next (pc + 4 * n) input
  if high < c then return .noMatch
  let found ← intervalSearch
    (fun idx => do return (← getU16 bc (pc + idx * 4), ← getU16 bc (pc + idx * 4 + 2))) c (n + 1) 0 idxMax
  return .ofSearch (pc + 4 * n) input found

/-- `REOP_range32`, from its operand on. -/
def execRange32 (bc : List UInt8) (pc c : ℕ) (input : List ℕ) : Option Outcome := do
  let n ← getU16 bc pc
  let pc := pc + 2
  let low ← getU32 bc pc
  if c < low then return .noMatch
  let idxMax := (n + (2 ^ 32 - 1)) % 2 ^ 32
  let high ← getU32 bc (pc + idxMax * 8 + 4)
  if high < c then return .noMatch
  let found ← intervalSearch
    (fun idx => do return (← getU32 bc (pc + idx * 8), ← getU32 bc (pc + idx * 8 + 4))) c (n + 1) 0 idxMax
  return .ofSearch (pc + 8 * n) input found

/-- `REOP_char` and `REOP_char32`, when the operand has been read. -/
def testChar (pc c val : ℕ) (input : List ℕ) : Outcome := if val = c then .next pc input else .noMatch

/-- An opcode that tests a character; none if the bytecode is not right. The input is a list of code points. -/
def execTest (s : REExecContext) (bc : List UInt8) (pc : ℕ) (input : List ℕ) : Option Outcome := do
  let opcode ← bc[pc]?
  if opcode = REOP.char.code then
    let val ← getU16 bc (pc + 1)
    match input with
    | [] => return .noMatch
    | c :: input => return testChar (pc + 3) (s.subject c) val input
  else if opcode = REOP.char32.code then
    let val ← getU32 bc (pc + 1)
    match input with
    | [] => return .noMatch
    | c :: input => return testChar (pc + 5) (s.subject c) val input
  else if opcode = REOP.range.code then
    match input with
    | [] => return .noMatch
    | c :: input => execRange16 bc (pc + 1) (s.subject c) input
  else if opcode = REOP.range32.code then
    match input with
    | [] => return .noMatch
    | c :: input => execRange32 bc (pc + 1) (s.subject c) input
  else none

end QuickJs.Regexp
