import QuickJs.Leb128
import Mathlib.Data.List.Basic

/-!
# The line number table

`compute_pc2line_info` packs the line numbers of the bytecode, `find_line_num` looks one up. A step of at most 50
bytes and few lines takes one byte, any other step a zero byte and the two differences.
-/

namespace QuickJs.LineTable

open Leb128

/-- `LineNumberSlot`. -/
structure LineNumberSlot where
  pc : UInt32
  lineNum : Int32
  deriving DecidableEq

variable {pcValue lastPc pc : UInt32} {first lastLine diffPc diffLine : Int32} {slot : LineNumberSlot}
  {slots : List LineNumberSlot} {p : List UInt8}

end QuickJs.LineTable
