import Mathlib.Data.List.Forall2
import QuickJs.ResolveLabels

/-!
# The code of a layout in pieces

The bytes that the pass puts, part by part: a label and a line are parts without bytes. What the buffer, the jump
slots, the label addresses and the line table should be can be read off the pieces.
-/

namespace QuickJs.ResolveLabels

open Bytecode ByteBuffer

inductive Piece
  | code (bytes : List UInt8)
  /-- the line that is entered into the table, if it is -/
  | line (lineNum : Option ℕ)
  | label (l : ℕ)
  | jump (op : OPCodeEnum) (atom : List UInt8) (l : ℕ) (operand : List UInt8) (tail : List UInt8)

def Piece.bytes : Piece → List UInt8
  | code bytes => bytes
  | line _ | label _ => []
  | jump op atom _ operand tail => opByte op :: atom ++ operand ++ tail

def flatten (ps : List Piece) : List UInt8 := ps.flatMap Piece.bytes

/-- What an item leaves; a jump to be shortened may have one of the short forms. -/
def Item.Emits : Item → Piece → Prop
  | code bytes, p => p = .code bytes
  | line lineNum, p => p = .line none ∨ p = .line (some lineNum)
  | label l, p => p = .label l
  | jump op l, p => ∃ op' operand, p = .jump op' [] l operand [] ∧
      (op ∈ labelJumps ∧ op' = op ∧ operand.length = 4 ∨
        op ∈ shortJumps ∧ op' = shortJump op ∧ operand.length = 1 ∨
        op = .goto ∧ op' = .goto16 ∧ operand.length = 2)
  | withVar op atom l isWith, p => op ∈ withJumps ∧ ∃ operand, p = .jump op atom l operand [isWith] ∧ operand.length = 4

/-! ## Positions -/

variable {β γ : Type}

/-- What `f` makes of each piece and its address. -/
def marks (f : ℕ → Piece → List β) : ℕ → List Piece → List β
  | _, [] => []
  | a, p :: ps => f a p ++ marks f (a + p.bytes.length) ps

def operandOf (a : ℕ) : Piece → List (JumpSlot × List UInt8)
  | .jump op atom l operand _ => [(⟨op, operand.length, a + 1 + atom.length, l⟩, operand)]
  | _ => []

def labelOf (a : ℕ) : Piece → List (ℕ × ℕ)
  | .label l => [(l, a)]
  | _ => []

def lineOf (a : ℕ) : Piece → List LineNumberSlot
  | .line (some lineNum) => [⟨a, lineNum⟩]
  | _ => []

/-- The jumps with their operands. -/
def operands : ℕ → List Piece → List (JumpSlot × List UInt8) := marks operandOf

def jumpSlots (a : ℕ) (ps : List Piece) : List JumpSlot := (operands a ps).map Prod.fst

/-- The labels with their addresses. -/
def labelAddrs : ℕ → List Piece → List (ℕ × ℕ) := marks labelOf

def lineSlots : ℕ → List Piece → List LineNumberSlot := marks lineOf

variable {f : ℕ → Piece → List β} {a b d i l : ℕ} {p : Piece} {ps qs : List Piece} {jp : JumpSlot}
  {operand : List UInt8}

@[simp]
theorem flatten_nil : flatten [] = [] := rfl

@[simp]
theorem flatten_cons : flatten (p :: ps) = p.bytes ++ flatten ps := List.flatMap_cons

@[simp]
theorem flatten_append : flatten (ps ++ qs) = flatten ps ++ flatten qs := List.flatMap_append

@[simp]
theorem marks_append : marks f a (ps ++ qs) = marks f a ps ++ marks f (a + (flatten ps).length) qs := by
  induction ps generalizing a with
  | nil => rfl
  | cons p ps ih =>
    rw [List.cons_append, marks, marks, ih, flatten_cons, List.length_append, Nat.add_assoc, List.append_assoc]

theorem marks_cons : marks f a (p :: ps) = f a p ++ marks f (a + p.bytes.length) ps := rfl

theorem marks_singleton : marks f a [p] = f a p := List.append_nil _

/-- Pieces that are put further on. -/
theorem marks_shift {g : β → β} (hf : ∀ a p, f (a + d) p = (f a p).map g) (a : ℕ) (ps : List Piece) :
    marks f (a + d) ps = (marks f a ps).map g := by
  induction ps generalizing a with
  | nil => rfl
  | cons p ps ih => rw [marks, marks, List.map_append, hf, ← ih, Nat.add_right_comm]

/-- Every mark is that of one piece. -/
theorem mem_marks {x : β} : x ∈ marks f a ps ↔
    ∃ pre p post, ps = pre ++ p :: post ∧ x ∈ f (a + (flatten pre).length) p := by
  constructor
  · intro h
    induction ps generalizing a with
    | nil => exact absurd h List.not_mem_nil
    | cons p ps ih =>
      rcases List.mem_append.mp h with h | h
      · exact ⟨[], p, ps, rfl, h⟩
      · obtain ⟨pre, q, post, rfl, hx⟩ := ih h
        refine ⟨p :: pre, q, post, rfl, ?_⟩
        rwa [flatten_cons, List.length_append, ← Nat.add_assoc]
  · rintro ⟨pre, p, post, rfl, hx⟩
    rw [marks_append]
    exact List.mem_append_right _ (List.mem_append_left _ hx)

theorem mem_labelAddrs {x : ℕ × ℕ} : x ∈ labelAddrs a ps ↔
    ∃ pre post, ps = pre ++ .label x.1 :: post ∧ x.2 = a + (flatten pre).length := by
  refine mem_marks.trans ⟨?_, ?_⟩
  · rintro ⟨pre, p, post, rfl, hx⟩
    cases p with
    | label l =>
      obtain rfl := List.mem_singleton.mp hx
      exact ⟨pre, post, rfl, rfl⟩
    | code | line | jump => exact absurd hx List.not_mem_nil
  · rintro ⟨pre, post, rfl, hx⟩
    exact ⟨pre, _, post, rfl, List.mem_singleton.mpr (Prod.ext rfl hx)⟩

theorem mem_operands : (jp, operand) ∈ operands a ps ↔
    ∃ pre op atom l tail post, ps = pre ++ .jump op atom l operand tail :: post ∧
      jp = ⟨op, operand.length, a + (flatten pre).length + 1 + atom.length, l⟩ := by
  refine mem_marks.trans ⟨?_, ?_⟩
  · rintro ⟨pre, p, post, rfl, hx⟩
    cases p with
    | jump op atom l operand tail =>
      obtain ⟨rfl, rfl⟩ := Prod.mk.inj (List.mem_singleton.mp hx)
      exact ⟨pre, op, atom, l, tail, post, rfl, rfl⟩
    | code | line | label => exact absurd hx List.not_mem_nil
  · rintro ⟨pre, op, atom, l, tail, post, rfl, rfl⟩
    exact ⟨pre, _, post, rfl, List.mem_singleton.mpr rfl⟩

theorem mem_jumpSlots : jp ∈ jumpSlots a ps ↔ ∃ operand, (jp, operand) ∈ operands a ps := by
  unfold jumpSlots
  rw [List.mem_map]
  exact ⟨fun ⟨⟨_, o⟩, h, hj⟩ => ⟨o, hj ▸ h⟩, fun ⟨o, h⟩ => ⟨_, h, rfl⟩⟩

theorem length_operand (h : (jp, operand) ∈ operands a ps) : operand.length = jp.size := by
  obtain ⟨_, _, _, _, _, _, _, rfl⟩ := mem_operands.mp h
  rfl

/-! ## Where the positions are -/

theorem labelAddrs_bounds {x : ℕ × ℕ} (h : x ∈ labelAddrs a ps) : a ≤ x.2 ∧ x.2 ≤ a + (flatten ps).length := by
  obtain ⟨pre, post, rfl, hx⟩ := mem_labelAddrs.mp h
  rw [flatten_append, List.length_append]
  omega

theorem operands_bounds (h : (jp, operand) ∈ operands a ps) :
    a < jp.pos ∧ jp.pos + jp.size ≤ a + (flatten ps).length := by
  obtain ⟨pre, op, atom, l, tail, post, rfl, rfl⟩ := mem_operands.mp h
  simp only [flatten_append, flatten_cons, Piece.bytes, List.length_append, List.length_cons]
  omega

theorem jumpSlots_bounds (h : jp ∈ jumpSlots a ps) : a < jp.pos ∧ jp.pos + jp.size ≤ a + (flatten ps).length := by
  obtain ⟨_, h⟩ := mem_jumpSlots.mp h
  exact operands_bounds h

theorem lineSlots_bounds {x : LineNumberSlot} (h : x ∈ lineSlots a ps) :
    a ≤ x.pc ∧ x.pc ≤ a + (flatten ps).length := by
  obtain ⟨pre, p, post, rfl, hx⟩ := mem_marks.mp h
  rw [flatten_append, List.length_append]
  cases p with
  | line lineNum =>
    cases lineNum with
    | none => exact absurd hx List.not_mem_nil
    | some n =>
      obtain rfl := List.mem_singleton.mp hx
      dsimp only
      omega
  | code | label | jump => exact absurd hx List.not_mem_nil

@[simp]
theorem jumpSlots_append : jumpSlots a (ps ++ qs) = jumpSlots a ps ++ jumpSlots (a + (flatten ps).length) qs := by
  unfold jumpSlots operands
  rw [marks_append, List.map_append]

theorem jumpSlots_jump {op : OPCodeEnum} {atom tail : List UInt8} :
    jumpSlots a (.jump op atom l operand tail :: ps) = ⟨op, operand.length, a + 1 + atom.length, l⟩ ::
        jumpSlots (a + (1 + atom.length + operand.length + tail.length)) ps := by
  have hlen : (Piece.jump op atom l operand tail).bytes.length = 1 + atom.length + operand.length + tail.length := by
    simp only [Piece.bytes, List.length_cons, List.length_append]
    omega
  unfold jumpSlots operands
  rw [marks_cons, hlen]
  rfl

/-! ## Writing operands -/

def Piece.setOperand (g : JumpSlot → List UInt8 → List UInt8) (a : ℕ) : Piece → Piece
  | jump op atom l operand tail => jump op atom l (g ⟨op, operand.length, a + 1 + atom.length, l⟩ operand) tail
  | p => p

/-- The same pieces with other operands. -/
def mapOperands (g : JumpSlot → List UInt8 → List UInt8) : ℕ → List Piece → List Piece
  | _, [] => []
  | a, p :: ps => p.setOperand g a :: mapOperands g (a + p.bytes.length) ps

def KeepsSize (g : JumpSlot → List UInt8 → List UInt8) : Prop :=
  ∀ jp operand, operand.length = jp.size → (g jp operand).length = jp.size

variable {g h : JumpSlot → List UInt8 → List UInt8}

theorem length_setOperand (hg : KeepsSize g) (a : ℕ) (p : Piece) :
    (p.setOperand g a).bytes.length = p.bytes.length := by
  cases p with
  | jump op atom l operand tail =>
    have hlen : (g ⟨op, operand.length, a + 1 + atom.length, l⟩ operand).length = operand.length := hg _ _ rfl
    simp only [Piece.setOperand, Piece.bytes, List.length_append, hlen]
  | code | line | label => rfl

theorem length_flatten_mapOperands (hg : KeepsSize g) (a : ℕ) (ps : List Piece) :
    (flatten (mapOperands g a ps)).length = (flatten ps).length := by
  induction ps generalizing a with
  | nil => rfl
  | cons p ps ih =>
    rw [mapOperands, flatten_cons, flatten_cons, List.length_append, List.length_append, length_setOperand hg, ih]

theorem mapOperands_append : mapOperands g a (ps ++ qs) =
    mapOperands g a ps ++ mapOperands g (a + (flatten ps).length) qs := by
  induction ps generalizing a with
  | nil => rfl
  | cons p ps ih =>
    rw [List.cons_append, mapOperands, mapOperands, ih, flatten_cons, List.length_append, Nat.add_assoc,
      List.cons_append]

theorem marks_mapOperands (hg : KeepsSize g) {k : β → β} (hf : ∀ a p, f a (p.setOperand g a) = (f a p).map k)
    (a : ℕ) (ps : List Piece) : marks f a (mapOperands g a ps) = (marks f a ps).map k := by
  induction ps generalizing a with
  | nil => rfl
  | cons p ps ih => rw [mapOperands, marks, marks, length_setOperand hg, ih, hf, List.map_append]

theorem operands_mapOperands (hg : KeepsSize g) (a : ℕ) (ps : List Piece) :
    operands a (mapOperands g a ps) = (operands a ps).map fun x => (x.1, g x.1 x.2) := by
  refine marks_mapOperands hg (fun a p => ?_) a ps
  cases p with
  | jump op atom l operand tail =>
    have hlen : (g ⟨op, operand.length, a + 1 + atom.length, l⟩ operand).length = operand.length := hg _ _ rfl
    simp only [Piece.setOperand, operandOf, hlen, List.map_cons, List.map_nil]
  | code | line | label => rfl

theorem jumpSlots_mapOperands (hg : KeepsSize g) (a : ℕ) (ps : List Piece) :
    jumpSlots a (mapOperands g a ps) = jumpSlots a ps := by
  unfold jumpSlots
  rw [operands_mapOperands hg, List.map_map]
  rfl

theorem labelAddrs_mapOperands (hg : KeepsSize g) (a : ℕ) (ps : List Piece) :
    labelAddrs a (mapOperands g a ps) = labelAddrs a ps := by
  refine (marks_mapOperands hg (k := id) (fun a p => ?_) a ps).trans (List.map_id _)
  cases p <;> exact (List.map_id _).symm

theorem lineSlots_mapOperands (hg : KeepsSize g) (a : ℕ) (ps : List Piece) :
    lineSlots a (mapOperands g a ps) = lineSlots a ps := by
  refine (marks_mapOperands hg (k := id) (fun a p => ?_) a ps).trans (List.map_id _)
  cases p <;> exact (List.map_id _).symm

theorem Item.Emits.setOperand {item : Item} (hp : item.Emits p) (hg : KeepsSize g) (a : ℕ) :
    item.Emits (p.setOperand g a) := by
  cases item with
  | code bytes => rw [hp]; rfl
  | line lineNum => rcases hp with rfl | rfl <;> [exact .inl rfl; exact .inr rfl]
  | label l => rw [hp]; rfl
  | jump op l =>
    obtain ⟨op', operand, rfl, hform⟩ := hp
    refine ⟨op', _, rfl, ?_⟩
    rwa [hg _ operand rfl]
  | withVar op atom l isWith =>
    obtain ⟨hop, operand, rfl, hlen⟩ := hp
    exact ⟨hop, _, rfl, (hg _ operand rfl).trans hlen⟩

theorem emits_mapOperands {items : List Item} (hp : List.Forall₂ Item.Emits items ps) (hg : KeepsSize g) (a : ℕ) :
    List.Forall₂ Item.Emits items (mapOperands g a ps) := by
  induction hp generalizing a with
  | nil => exact .nil
  | cons hp _ ih => exact .cons (hp.setOperand hg a) (ih _)

theorem mapOperands_congr (hgh : ∀ jp operand, (jp, operand) ∈ operands a ps → g jp operand = h jp operand) :
    mapOperands g a ps = mapOperands h a ps := by
  induction ps generalizing a with
  | nil => rfl
  | cons p ps ih =>
    rw [mapOperands, mapOperands, ih fun jp operand hj => hgh jp operand (List.mem_append_right _ hj)]
    cases p with
    | jump op atom l operand tail =>
      rw [Piece.setOperand, Piece.setOperand, hgh _ _ (List.mem_append_left _ (List.mem_singleton.mpr rfl))]
    | code | line | label => rfl

theorem mapOperands_id (a : ℕ) (ps : List Piece) : mapOperands (fun _ operand => operand) a ps = ps := by
  induction ps generalizing a with
  | nil => rfl
  | cons p ps ih =>
    rw [mapOperands, ih]
    cases p <;> rfl

theorem mapOperands_mapOperands (hg : KeepsSize g) (a : ℕ) (ps : List Piece) :
    mapOperands h a (mapOperands g a ps) = mapOperands (fun jp operand => h jp (g jp operand)) a ps := by
  induction ps generalizing a with
  | nil => rfl
  | cons p ps ih =>
    rw [mapOperands, mapOperands, mapOperands, length_setOperand hg, ih]
    cases p with
    | jump op atom l operand tail =>
      have hlen : (g ⟨op, operand.length, a + 1 + atom.length, l⟩ operand).length = operand.length := hg _ _ rfl
      simp only [Piece.setOperand, hlen]
    | code | line | label => rfl

/-- The operand of one jump. -/
def writeAt (jp : JumpSlot) (v : JumpSlot → List UInt8) (jp' : JumpSlot) (operand : List UInt8) : List UInt8 :=
  if jp' = jp then v jp' else operand

/-- The operands of some jumps. -/
def writeAll (jps : List JumpSlot) (v : JumpSlot → List UInt8) (jp : JumpSlot) (operand : List UInt8) : List UInt8 :=
  if jp ∈ jps then v jp else operand

variable {v : JumpSlot → List UInt8} {jps : List JumpSlot} {xs : List UInt8}

theorem keepsSize_writeAt (hv : ∀ jp, (v jp).length = jp.size) : KeepsSize (writeAt jp v) := by
  intro jp' operand h
  unfold writeAt
  split
  · exact hv jp'
  · exact h

theorem keepsSize_writeAll (hv : ∀ jp, (v jp).length = jp.size) : KeepsSize (writeAll jps v) := by
  intro jp' operand h
  unfold writeAll
  split
  · exact hv jp'
  · exact h

theorem put_writeAt (hv : ∀ jp, (v jp).length = jp.size) (hj : jp ∈ jumpSlots xs.length ps) :
    put (xs ++ flatten ps) jp.pos (v jp) = xs ++ flatten (mapOperands (writeAt jp v) xs.length ps) := by
  obtain ⟨operand, hj⟩ := mem_jumpSlots.mp hj
  obtain ⟨pre, op, atom, l, tail, post, rfl, hjp⟩ := mem_operands.mp hj
  have hpos : jp.pos = xs.length + (flatten pre).length + 1 + atom.length := hjp ▸ rfl
  have hlen : operand.length = jp.size := length_operand hj
  -- the other jumps are before it or after it
  have hpre : mapOperands (writeAt jp v) xs.length pre = pre := by
    refine Eq.trans (mapOperands_congr fun jp' o hj' => ?_) (mapOperands_id xs.length pre)
    refine if_neg ?_
    rintro rfl
    have := operands_bounds hj'
    omega
  have hpost : mapOperands (writeAt jp v)
      (xs.length + (flatten pre).length + (Piece.jump op atom l operand tail).bytes.length) post = post := by
    refine Eq.trans (mapOperands_congr fun jp' o hj' => ?_) (mapOperands_id _ post)
    refine if_neg ?_
    rintro rfl
    have := operands_bounds hj'
    simp only [Piece.bytes, List.length_cons, List.length_append] at this
    omega
  have hset : (Piece.jump op atom l operand tail).setOperand (writeAt jp v) (xs.length + (flatten pre).length) =
      .jump op atom l (v jp) tail := by
    rw [Piece.setOperand, ← hjp, writeAt, if_pos rfl]
  rw [mapOperands_append, hpre, mapOperands, hpost, hset]
  have hput := put_append (xs ++ flatten pre ++ opByte op :: atom) (tail ++ flatten post)
    (hlen.trans (hv jp).symm)
  have hlength : (xs ++ flatten pre ++ opByte op :: atom).length = jp.pos := by
    simp only [List.length_append, List.length_cons]
    omega
  rw [hlength] at hput
  simpa only [flatten_append, flatten_cons, Piece.bytes, List.append_assoc] using hput

/-- Writes at the positions of jumps. -/
theorem foldl_put (hv : ∀ jp, (v jp).length = jp.size) (hjps : ∀ jp ∈ jps, jp ∈ jumpSlots xs.length ps) :
    jps.foldl (fun out jp => put out jp.pos (v jp)) (xs ++ flatten ps) =
      xs ++ flatten (mapOperands (writeAll jps v) xs.length ps) := by
  induction jps generalizing ps with
  | nil =>
    refine congrArg (xs ++ flatten ·) ((mapOperands_id xs.length ps).symm.trans (mapOperands_congr fun jp' o _ => ?_))
    exact (if_neg List.not_mem_nil).symm
  | cons jp jps ih =>
    rw [List.foldl_cons, put_writeAt hv (hjps jp List.mem_cons_self), ih, mapOperands_mapOperands (keepsSize_writeAt hv)]
    · refine congrArg (xs ++ flatten ·) (mapOperands_congr fun jp' o _ => ?_)
      unfold writeAll writeAt
      by_cases hmem : jp' ∈ jps
      · rw [if_pos hmem, if_pos (List.mem_cons_of_mem _ hmem)]
      · rw [if_neg hmem]
        exact if_congr ⟨fun h => List.mem_cons.mpr (.inl h),
          fun h => (List.mem_cons.mp h).resolve_right hmem⟩ rfl rfl
    · intro jp' hj'
      rw [jumpSlots_mapOperands (keepsSize_writeAt hv)]
      exact hjps jp' (List.mem_cons_of_mem _ hj')

end QuickJs.ResolveLabels
