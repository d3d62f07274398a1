import QuickJs.CharRangeBuffer

/-!
# Scripts

`unicode_script` reads two tables of runs: which script the characters of a run have, and in which other scripts they
are used. The intervals that are wanted are added to blocks of memory, and each request for memory may be refused. The
code at the label `fail` frees the temporary blocks and goes to `fail`.
-/

namespace QuickJs.UnicodeScript

open Regexp CharRangeBuffer

/-! ## Names -/

/-- One string of the table: names with commas between them. -/
def hasName (name p : List Char) : Bool := (p.splitOn ',').contains name

/-- `unicode_find_name` -/
def unicodeFindName (table : List (List Char)) (name : List Char) : Option ℕ := table.findIdx? (hasName name)

/-! ## Tables -/

/-- The number of characters in a run, less one: in the first byte if it is short, else in one or two more. -/
def runLength (short long base n : ℕ) (p : List ℕ) : Option (ℕ × List ℕ) :=
  if n < short then some (n, p)
  else if n < long then
    match p with
    | b1 :: p => some (((n - short) <<< 8 ||| b1) + short, p)
    | [] => none
  else
    match p with
    | b1 :: b2 :: p => some (((n - long) <<< 16 ||| b1 <<< 8 ||| b2) + base, p)
    | _ => none

/-- A run of `unicode_script_table`, and its script. -/
def scriptRun : List ℕ → Option ((ℕ × ℕ) × List ℕ)
  | [] => none
  | b :: p =>
    (runLength 96 112 (96 + 1 <<< 12) (b &&& 0x7f) p).bind fun r =>
      if b >>> 7 = 0 then some ((r.1, 0), r.2)
      else
        match r.2 with
        | v :: p => some ((r.1, v), p)
        | [] => none

/-- A run of `unicode_script_ext_table`, and its scripts. -/
def extRun : List ℕ → Option ((ℕ × List ℕ) × List ℕ)
  | [] => none
  | b :: p =>
    (runLength 128 (128 + 64) (128 + 1 <<< 14) b p).bind fun r =>
      match r.2 with
      | vLen :: p => if vLen ≤ p.length then some ((r.1, p.take vLen), p.drop vLen) else none
      | [] => none

section Tables

variable {α : Type}

/-- All runs of a table that has at most so many bytes. -/
def decode (run : List ℕ → Option ((ℕ × α) × List ℕ)) : ℕ → List ℕ → Option (List (ℕ × α))
  | _, [] => some []
  | 0, _ :: _ => none
  | fuel + 1, b :: p => (run (b :: p)).bind fun r => (decode run fuel r.2).map (r.1 :: ·)

/-- The end of the last run. -/
def total (runs : List (ℕ × α)) : ℕ := (runs.map fun r => r.1 + 1).sum

end Tables

/-- The tables of `unicode_script`: they end with a whole run, and no run is beyond the greatest point. -/
structure Tables where
  names : List (List Char)
  script : List ℕ
  ext : List ℕ
  scriptRuns : List (ℕ × ℕ)
  extRuns : List (ℕ × List ℕ)
  script_eq : decode scriptRun script.length script = some scriptRuns
  ext_eq : decode extRun ext.length ext = some extRuns
  script_le : total scriptRuns ≤ uint32Max
  ext_le : total extRuns ≤ uint32Max
  /-- `UNICODE_SCRIPT_Common` -/
  common : ℕ
  /-- `UNICODE_SCRIPT_Inherited` -/
  inherited : ℕ

/-! ## The function -/

section Granted

-- the pattern of the allocator: is a request granted?
variable (grants : ℕ → Bool)

/-- A loop over a table from the character `c` on: the wanted intervals are added. Nothing comes of a read past the
end of the table. -/
def tableLoop {α : Type} (run : List ℕ → Option ((ℕ × α) × List ℕ)) (wanted : α → Bool) :
    ℕ → List ℕ → ℕ → Cr → Heap → Option Res
  | _, [], _, cr, heap => some ⟨true, cr, heap⟩
  | 0, _ :: _, _, _, _ => none
  | fuel + 1, b :: p, c, cr, heap =>
    (run (b :: p)).bind fun r =>
      let c1 := c + r.1.1 + 1
      if wanted r.1.2 then
        let added := crAddInterval grants c c1 cr heap
        if added.ok then tableLoop run wanted fuel r.2 c1 added.cr added.heap else some added
      else tableLoop run wanted fuel r.2 c1 cr heap

/-- What `unicode_script` returns and leaves. -/
structure Ret where
  ret : ℤ
  cr : Cr
  heap : Heap

/-- The code at the label `fail`, which ends with `goto fail`: nothing comes of it in any number of rounds. -/
def fail (isExt : Bool) (cr1 cr2 : Cr) : ℕ → Heap → Option Ret
  | 0, _ => none
  | rounds + 1, heap => fail isExt cr1 cr2 rounds (if isExt then crFree cr2 (crFree cr1 heap) else heap)

/-- The scripts for which `unicode_script` takes away the characters with extensions. -/
def Tables.isCommon (T : Tables) (scriptIdx : ℕ) : Bool := scriptIdx = T.common || scriptIdx = T.inherited

/-- The part of `unicode_script` that adds the extensions to `cr1`. -/
def addExtensions (T : Tables) (scriptIdx rounds : ℕ) (cr1 : Cr) (heap : Heap) : Option Ret :=
  let isCommon := T.isCommon scriptIdx
  (tableLoop grants extRun (fun vs => if isCommon then vs.length ≠ 0 else scriptIdx ∈ vs) T.ext.length T.ext 0 crInit
    heap).bind fun r2 =>
      if !r2.ok then fail true cr1 r2.cr rounds r2.heap
      else
        let r3 := if isCommon then crInvert grants r2.cr r2.heap else r2
        if !r3.ok then fail true cr1 r3.cr rounds r3.heap
        else
          let r := crOp grants (if isCommon then .inter else .union) cr1.used r3.cr.used crInit r3.heap
          if !r.ok then fail true cr1 r3.cr rounds r.heap
          else some ⟨0, r.cr, crFree r3.cr (crFree cr1 r.heap)⟩

/-- `unicode_script`, for a `cr` that is empty. A script has the number of its name behind `UNICODE_SCRIPT_Unknown`,
which is 0. -/
def unicodeScript (T : Tables) (scriptName : List Char) (isExt : Bool) (rounds : ℕ) (heap : Heap) : Option Ret :=
  match unicodeFindName T.names scriptName with
  | none => some ⟨-2, crInit, heap⟩
  | some pos =>
    let scriptIdx := pos + 1
    -- the intervals go to `cr1`, which is `cr` without extensions
    (tableLoop grants scriptRun (· = scriptIdx) T.script.length T.script 0 crInit heap).bind fun r1 =>
      if !r1.ok then fail isExt r1.cr crInit rounds r1.heap
      else if isExt then addExtensions grants T scriptIdx rounds r1.cr r1.heap
      else some ⟨0, r1.cr, r1.heap⟩

end Granted

/-! ## The characters of a script -/

section Spans

variable {α : Type}

/-- The runs with their first character and the one behind the last. -/
def spans : ℕ → List (ℕ × α) → List (ℕ × ℕ × α)
  | _, [] => []
  | c, (n, v) :: runs => (c, c + n + 1, v) :: spans (c + n + 1) runs

/-- The character is in a run that is wanted. -/
def Covered (wanted : α → Bool) (runs : List (ℕ × α)) (c : ℕ) : Prop :=
  ∃ span ∈ spans 0 runs, wanted span.2.2 = true ∧ span.1 ≤ c ∧ c < span.2.1

end Spans

/-- The characters of a script, by the tables. -/
def Tables.InScript (T : Tables) (scriptIdx : ℕ) (isExt : Bool) (c : ℕ) : Prop :=
  if isExt then
    if T.isCommon scriptIdx then
      -- a character that is used in some scripts is common no more
      Covered (· = scriptIdx) T.scriptRuns c ∧ ¬Covered (fun vs => vs.length ≠ 0) T.extRuns c
    else Covered (· = scriptIdx) T.scriptRuns c ∨ Covered (fun vs => scriptIdx ∈ vs) T.extRuns c
  else Covered (· = scriptIdx) T.scriptRuns c

end QuickJs.UnicodeScript
