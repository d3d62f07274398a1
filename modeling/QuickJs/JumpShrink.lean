import QuickJs.JumpEmit

/-!
# Shorter jumps

The loop after the first pass, and the last patch. When a jump gets a shorter operand everything after it comes
nearer, so that no other jump gets out of reach.
-/

namespace QuickJs.ResolveLabels

open Bytecode ByteBuffer

/-- What holds in the loop. -/
structure Shrunk (L : Layout) (r : Relaxing) (ps : List Piece) : Prop where
  out : r.out = L.prologue ++ flatten ps
  emits : List.Forall₂ Item.Emits (L.sources.map Source.item) ps
  jumps : r.jumps = jumpSlots L.prologue.length ps
  lines : r.lines = lineSlots L.prologue.length ps
  /-- every jump has a label, which it reaches -/
  target : ∀ jp ∈ r.jumps, ∃ (ls : LabelSlot) (a : ℕ), r.labels[jp.label]? = some ls ∧ ls.addr = a ∧
    (∀ a', (jp.label, a') ∈ labelAddrs L.prologue.length ps ↔ a' = a) ∧ Fits jp.size (a - jp.pos)
  exact : r.patchOffsets = 0 → Exact L.prologue.length ps

variable {L : Layout} {r : Relaxing} {ps pre post : List Piece} {jp : JumpSlot} {op op' : OPCodeEnum} {i a b l : ℕ}
  {atom operand tail : List UInt8} {size delta : ℕ} {diff : ℤ}

/-- The piece of a slot. -/
theorem split_jumpSlots (h : (jumpSlots a ps)[i]? = some jp) :
    ∃ pre op atom l operand tail post, ps = pre ++ .jump op atom l operand tail :: post ∧
      (jumpSlots a pre).length = i ∧ jp = ⟨op, operand.length, a + (flatten pre).length + 1 + atom.length, l⟩ := by
  induction ps generalizing a i with
  | nil => exact nomatch h
  | cons p ps ih =>
    have hsplit : jumpSlots a ([p] ++ ps) = jumpSlots a [p] ++ jumpSlots (a + (flatten [p]).length) ps :=
      jumpSlots_append
    rw [List.singleton_append] at hsplit
    rw [hsplit] at h
    by_cases hi : i < (jumpSlots a [p]).length
    · cases p with
      | jump op atom l operand tail =>
        obtain rfl : i = 0 := Nat.lt_one_iff.mp hi
        exact ⟨[], op, atom, l, operand, tail, ps, rfl, rfl, (Option.some.inj h).symm⟩
      | code | line | label => exact absurd hi (Nat.not_lt_zero i)
    · rw [List.getElem?_append_right (Nat.not_lt.mp hi)] at h
      obtain ⟨pre, op, atom, l, operand, tail, post, rfl, hlen, rfl⟩ := ih h
      refine ⟨p :: pre, op, atom, l, operand, tail, post, rfl, ?_, ?_⟩
      · have hpre : jumpSlots a ([p] ++ pre) = jumpSlots a [p] ++ jumpSlots (a + (flatten [p]).length) pre :=
          jumpSlots_append
        rw [List.singleton_append] at hpre
        rw [hpre, List.length_append]
        omega
      · rw [flatten_cons, flatten_cons, flatten_nil, List.append_nil, List.length_append, ← Nat.add_assoc]

theorem forall₂_replace {α β : Type} {R : α → β → Prop} {xs : List α} {ys zs : List β} {y y' : β}
    (h : List.Forall₂ R xs (ys ++ y :: zs)) (hy : ∀ x, R x y → R x y') : List.Forall₂ R xs (ys ++ y' :: zs) := by
  induction ys generalizing xs with
  | nil =>
    cases h with
    | cons hxy h => exact .cons (hy _ hxy) h
  | cons z ys ih =>
    cases h with
    | cons hxy h => exact .cons hxy (ih h)

theorem shrinkForm_none (h : op ≠ .goto16) (h' : op ∉ shortJumps) : shrinkForm op diff = none := by
  rw [shrinkForm, if_neg h, if_neg h']

theorem shrinkForm_pos (h : shrinkForm op diff = some (op', size, delta)) : 0 < size := by
  unfold shrinkForm at h
  split at h <;> split at h
  · obtain ⟨_, rfl, _⟩ : OPCodeEnum.goto8 = op' ∧ 1 = size ∧ 1 = delta := by simpa using h
    decide
  · exact nomatch h
  · split at h
    · obtain ⟨_, rfl, _⟩ : shortJump op = op' ∧ 1 = size ∧ 3 = delta := by simpa using h
      decide
    split at h
    · obtain ⟨_, rfl, _⟩ : OPCodeEnum.goto16 = op' ∧ 2 = size ∧ 2 = delta := by simpa using h
      decide
    · exact nomatch h
  · exact nomatch h

/-- Only plain jumps become shorter, and they have one of the other forms then. -/
theorem emits_shrink {item : Item} (h : item.Emits (.jump op atom l operand tail))
    (hform : shrinkForm op diff = some (op', size, delta)) :
    atom = [] ∧ tail = [] ∧ operand.length = size + delta ∧ item.Emits (.jump op' [] l (operand.take size) []) := by
  cases item with
  | code => exact nomatch h
  | line => exact h.elim nofun nofun
  | label => exact nomatch h
  | withVar op₀ _ _ _ =>
    obtain ⟨hop, _, hp, _⟩ := h
    obtain ⟨rfl, _⟩ := Piece.jump.inj hp
    have hother : ∀ op ∈ withJumps, op ≠ .goto16 ∧ op ∉ shortJumps := by simp [withJumps, shortJumps]
    exact nomatch hform.symm.trans (shrinkForm_none (hother _ hop).1 (hother _ hop).2)
  | jump op₀ l₀ =>
    obtain ⟨_, _, hp, hcases⟩ := h
    obtain ⟨rfl, rfl, rfl, rfl, rfl⟩ := Piece.jump.inj hp
    refine ⟨rfl, rfl, ?_⟩
    rcases hcases with ⟨hop, rfl, hlen⟩ | ⟨hop, rfl, hlen⟩ | ⟨rfl, rfl, hlen⟩
    · have hne : op ≠ .goto16 := by
        rintro rfl
        revert hop
        decide
      rw [shrinkForm, if_neg hne] at hform
      split at hform
      · next hshort =>
        split at hform
        · obtain ⟨rfl, rfl, rfl⟩ : shortJump op = op' ∧ 1 = size ∧ 3 = delta := by simpa using hform
          refine ⟨hlen, _, _, rfl, .inr (.inl ⟨hshort, rfl, ?_⟩)⟩
          rw [List.length_take, hlen]
          rfl
        split at hform
        · next hgoto =>
          obtain ⟨rfl, rfl, rfl⟩ : OPCodeEnum.goto16 = op' ∧ 2 = size ∧ 2 = delta := by simpa using hform
          refine ⟨hlen, _, _, rfl, .inr (.inr ⟨hgoto.2, rfl, ?_⟩)⟩
          rw [List.length_take, hlen]
          rfl
        · exact nomatch hform
      · exact nomatch hform
    · -- a jump of 8 bits stays as it is
      have hother : ∀ op ∈ shortJumps, shortJump op ≠ .goto16 ∧ shortJump op ∉ shortJumps := by
        simp [shortJumps, shortJump]
      exact nomatch hform.symm.trans (shrinkForm_none (hother _ hop).1 (hother _ hop).2)
    · rw [shrinkForm, if_pos rfl] at hform
      split at hform
      · obtain ⟨rfl, rfl, rfl⟩ : OPCodeEnum.goto8 = op' ∧ 1 = size ∧ 1 = delta := by simpa using hform
        refine ⟨hlen, _, _, rfl, .inr (.inl ⟨by decide, rfl, ?_⟩)⟩
        rw [List.length_take, hlen]
        rfl
      · exact nomatch hform

/-! ## What moves -/

/-- Positions after `q` come nearer. -/
def moved (q delta x : ℕ) : ℕ := if q < x then x - delta else x

theorem moved_of_le {q x : ℕ} (h : x ≤ q) : moved q delta x = x := if_neg (Nat.not_lt.mpr h)

theorem moved_add {q x : ℕ} (h : q < x + delta) : moved q delta (x + delta) = x := by
  rw [moved, if_pos h, Nat.add_sub_cancel]

/-- A jump that does not become shorter itself still reaches its label. -/
theorem fits_moved {n q x y : ℕ} (h : Fits n ((x : ℤ) - y)) (hx : x ≤ q ∨ q + delta ≤ x) (hy : y ≤ q ∨ q + delta ≤ y) :
    Fits n ((moved q delta x : ℤ) - moved q delta y) := by
  refine h.of_between ?_
  unfold moved
  split <;> split <;> omega

/-- The jump that becomes shorter does too. -/
theorem fits_shrunk {q x : ℕ} (h : shrinkForm op ((x : ℤ) - q) = some (op', size, delta))
    (hx : x ≤ q ∨ q + size + delta ≤ x) : Fits size ((moved q delta x : ℤ) - q) := by
  have hsmall : ∀ d : ℤ, -128 ≤ d → d ≤ 127 → Fits 1 d := fun d h1 h2 => ⟨by omega, by omega⟩
  unfold shrinkForm at h
  unfold moved
  split at h
  · split at h
    · obtain ⟨rfl, rfl, rfl⟩ : OPCodeEnum.goto8 = op' ∧ 1 = size ∧ 1 = delta := by simpa using h
      refine hsmall _ ?_ ?_ <;> split <;> omega
    · exact nomatch h
  split at h
  · split at h
    · obtain ⟨rfl, rfl, rfl⟩ : shortJump op = op' ∧ 1 = size ∧ 3 = delta := by simpa using h
      refine hsmall _ ?_ ?_ <;> split <;> omega
    split at h
    · next hfits =>
      obtain ⟨rfl, rfl, rfl⟩ : OPCodeEnum.goto16 = op' ∧ 2 = size ∧ 2 = delta := by simpa using h
      refine hfits.1.of_between ?_
      split <;> omega
    · exact nomatch h
  · exact nomatch h

variable {β : Type} {f : ℕ → Piece → List β} {g k : β → β} {p p' : Piece}

theorem map_marks (hshift : ∀ a p, f (a + delta) p = (f a p).map g) (hlen : p.bytes.length = p'.bytes.length + delta)
    (hpre : ∀ x ∈ marks f a pre, k x = x)
    (hpost : ∀ x ∈ marks f (a + (flatten pre).length + p'.bytes.length) post, k (g x) = x) :
    (marks f a (pre ++ p :: post)).map k = marks f a pre ++ (f (a + (flatten pre).length) p).map k ++
        marks f (a + (flatten pre).length + p'.bytes.length) post := by
  have hfirst : (marks f a pre).map k = marks f a pre := (List.map_congr_left hpre).trans (List.map_id _)
  have hlast : (marks f (a + (flatten pre).length + p.bytes.length) post).map k =
      marks f (a + (flatten pre).length + p'.bytes.length) post := by
    rw [hlen, ← Nat.add_assoc, marks_shift hshift, List.map_map]
    exact (List.map_congr_left hpost).trans (List.map_id _)
  rw [marks_append, marks_cons, List.map_append, List.map_append, hfirst, hlast, List.append_assoc]

/-- A jump before and after. -/
structure Shorter (p p' : Piece) (op op' : OPCodeEnum) (l : ℕ) (operand : List UInt8) (size delta : ℕ) : Prop where
  old : p = .jump op [] l operand []
  new : p' = .jump op' [] l (operand.take size) []
  length : operand.length = size + delta
  pos : 0 < size

section

variable (h : Shorter p p' op op' l operand size delta)

include h

theorem Shorter.old_bytes : p.bytes.length = 1 + size + delta := by
  rw [h.old]
  simp only [Piece.bytes, List.append_nil, List.cons_append, List.length_cons, h.length, List.nil_append]
  omega

theorem Shorter.new_bytes : p'.bytes.length = 1 + size := by
  have hmin : min size operand.length = size := Nat.min_eq_left (h.length ▸ Nat.le_add_right _ _)
  rw [h.new]
  simp only [Piece.bytes, List.append_nil, List.cons_append, List.length_cons, List.length_take, List.nil_append]
  omega

theorem Shorter.bytes :
    p.bytes.length = p'.bytes.length + delta := by rw [h.old_bytes, h.new_bytes]

theorem Shorter.labelAddrs :
    ResolveLabels.labelAddrs a (pre ++ p' :: post) = (ResolveLabels.labelAddrs a (pre ++ p :: post)).map
      fun x => (x.1, moved (a + (flatten pre).length + 1) delta x.2) := by
  have hshift : ∀ (a : ℕ) (p : Piece), labelOf (a + delta) p = (labelOf a p).map fun x => (x.1, x.2 + delta) := by
    intro a p
    cases p <;> rfl
  unfold ResolveLabels.labelAddrs
  rw [map_marks hshift h.bytes, marks_append, marks_cons, h.old, h.new]
  · simp only [labelOf, List.map_nil, List.append_nil, List.nil_append]
  · intro x hx
    have := labelAddrs_bounds hx
    exact Prod.ext rfl (moved_of_le (by omega))
  · intro x hx
    have := labelAddrs_bounds hx
    rw [h.new_bytes] at this
    have := h.pos
    exact Prod.ext rfl (moved_add (by omega))

theorem Shorter.lineSlots :
    ResolveLabels.lineSlots a (pre ++ p' :: post) = (ResolveLabels.lineSlots a (pre ++ p :: post)).map
      fun ln => if a + (flatten pre).length + 1 < ln.pc then { ln with pc := ln.pc - delta } else ln := by
  have hshift : ∀ (a : ℕ) (p : Piece),
      lineOf (a + delta) p = (lineOf a p).map fun ln => { ln with pc := ln.pc + delta } := by
    intro a p
    cases p with
    | line lineNum => cases lineNum <;> rfl
    | code | label | jump => rfl
  unfold ResolveLabels.lineSlots
  rw [map_marks hshift h.bytes, marks_append, marks_cons, h.old, h.new]
  · simp only [lineOf, List.map_nil, List.append_nil, List.nil_append]
  · intro x hx
    have := lineSlots_bounds hx
    exact if_neg (by omega)
  · intro x hx
    have := lineSlots_bounds hx
    rw [h.new_bytes] at this
    have := h.pos
    dsimp only
    rw [if_pos (by omega), Nat.add_sub_cancel]

end

theorem jumpSlots_shift (a : ℕ) (ps : List Piece) :
    jumpSlots (a + delta) ps = (jumpSlots a ps).map fun jp => { jp with pos := jp.pos + delta } := by
  have hshift : ∀ (a : ℕ) (p : Piece), operandOf (a + delta) p =
      (operandOf a p).map fun x => ({ x.1 with pos := x.1.pos + delta }, x.2) := by
    intro a p
    cases p with
    | jump op atom l operand tail =>
      simp only [operandOf, List.map_cons, List.map_nil]
      rw [Nat.add_right_comm a delta, Nat.add_right_comm (a + 1) delta]
    | code | line | label => rfl
  unfold jumpSlots operands
  rw [marks_shift hshift, List.map_map, List.map_map]
  rfl

section

variable (h : Shorter p p' op op' l operand size delta)

include h

/-- The slots before the jump, its own, and those after it. -/
theorem Shorter.old_slots :
    jumpSlots a (pre ++ p :: post) = jumpSlots a pre ++ ⟨op, size + delta, a + (flatten pre).length + 1, l⟩ ::
      (jumpSlots (a + (flatten pre).length + p'.bytes.length) post).map fun jp => { jp with pos := jp.pos + delta } := by
  have hlen : 1 + ([] : List UInt8).length + operand.length + ([] : List UInt8).length = p'.bytes.length + delta := by
    rw [h.new_bytes, h.length]
    simp only [List.length_nil]
    omega
  rw [jumpSlots_append, h.old, jumpSlots_jump, hlen, ← Nat.add_assoc, jumpSlots_shift, h.length]
  rfl

theorem Shorter.new_slots :
    jumpSlots a (pre ++ p' :: post) = jumpSlots a pre ++ ⟨op', size, a + (flatten pre).length + 1, l⟩ ::
      jumpSlots (a + (flatten pre).length + p'.bytes.length) post := by
  have hmin : (operand.take size).length = size := by
    rw [List.length_take, h.length]
    omega
  have hlen : 1 + ([] : List UInt8).length + (operand.take size).length + ([] : List UInt8).length =
      p'.bytes.length := by
    rw [h.new_bytes]
    simp only [List.length_nil]
    omega
  rw [jumpSlots_append]
  conv_lhs => rw [h.new, jumpSlots_jump, hlen, hmin]
  rfl

theorem Shorter.jumpSlots (i : ℕ)
    (hi : i = (ResolveLabels.jumpSlots a pre).length) (hjp : jp = ⟨op, size + delta, a + (flatten pre).length + 1, l⟩) :
    ResolveLabels.jumpSlots a (pre ++ p' :: post) = (ResolveLabels.jumpSlots a (pre ++ p :: post)).mapIdx fun j jp1 =>
      if j = i then { jp with op := op', size := size }
      else if i < j ∧ jp.pos < jp1.pos then { jp1 with pos := jp1.pos - delta }
      else jp1 := by
  rw [h.new_slots, h.old_slots, List.mapIdx_append, List.mapIdx_cons, ← hi]
  congr 1
  · refine (List.ext_getElem (List.length_mapIdx ..) fun j h1 h2 => ?_).symm
    rw [List.getElem_mapIdx, if_neg (by omega), if_neg (by omega)]
  · rw [Nat.zero_add, if_pos rfl, hjp]
    congr 1
    refine (List.ext_getElem ((List.length_mapIdx ..).trans (List.length_map _)) fun j h1 h2 => ?_).symm
    have hmem := jumpSlots_bounds (List.getElem_mem h2)
    have hlen := h.new_bytes
    rw [List.getElem_mapIdx, if_neg (by omega), List.getElem_map, if_pos]
    · rw [Nat.add_sub_cancel]
    · dsimp only
      omega

/-- The buffer without the bytes that the operand has lost. -/
theorem Shorter.out (xs : List UInt8) :
    cut (put (xs ++ flatten (pre ++ p :: post)) (xs.length + (flatten pre).length + 1 - 1) [opByte op'])
      (xs.length + (flatten pre).length + 1 + size) delta = xs ++ flatten (pre ++ p' :: post) := by
  have hput : put (xs ++ flatten pre ++ [opByte op] ++ (operand ++ flatten post)) (xs ++ flatten pre).length
      [opByte op'] = xs ++ flatten pre ++ [opByte op'] ++ (operand ++ flatten post) :=
    put_append _ _ (List.length_singleton.trans List.length_singleton.symm)
  have htake : (operand.take size).length = size := by
    rw [List.length_take, h.length]
    omega
  have hdrop : (operand.drop size).length = delta := by
    rw [List.length_drop, h.length]
    omega
  have hcut := cut_append (xs ++ flatten pre ++ [opByte op'] ++ operand.take size) (operand.drop size) (flatten post)
  rw [hdrop] at hcut
  have hlen : (xs ++ flatten pre ++ [opByte op'] ++ operand.take size).length =
      xs.length + (flatten pre).length + 1 + size := by
    simp only [List.length_append, List.length_singleton, htake]
  rw [hlen, List.append_assoc _ (operand.take size), List.take_append_drop] at hcut
  have hold : xs ++ flatten (pre ++ p :: post) = xs ++ flatten pre ++ [opByte op] ++ (operand ++ flatten post) := by
    rw [h.old]
    simp only [flatten_append, flatten_cons, Piece.bytes, List.append_assoc, List.nil_append]
  rw [Nat.add_sub_cancel, ← List.length_append, hold, hput, List.length_append, ← List.append_assoc, hcut, h.new]
  simp only [flatten_append, flatten_cons, Piece.bytes, List.append_assoc, List.nil_append]

/-- Every other jump is the one before, moved. -/
theorem Shorter.slot_cases {jp' : JumpSlot}
    (hj : jp' ∈ ResolveLabels.jumpSlots a (pre ++ p' :: post)) :
    jp' = ⟨op', size, a + (flatten pre).length + 1, l⟩ ∨
      ∃ jp ∈ ResolveLabels.jumpSlots a (pre ++ p :: post), jp'.label = jp.label ∧ jp'.size = jp.size ∧
        jp'.pos = moved (a + (flatten pre).length + 1) delta jp.pos ∧
        (jp.pos ≤ a + (flatten pre).length + 1 ∨ a + (flatten pre).length + 1 + delta ≤ jp.pos) := by
  have hlen := h.new_bytes
  rw [h.new_slots] at hj
  rw [h.old_slots]
  rcases List.mem_append.mp hj with hj | hj
  · have hbounds := jumpSlots_bounds hj
    exact .inr ⟨jp', List.mem_append_left _ hj, rfl, rfl, (moved_of_le (by omega)).symm, .inl (by omega)⟩
  · rcases List.mem_cons.mp hj with hj | hj
    · exact .inl hj
    · have hbounds := jumpSlots_bounds hj
      refine .inr ⟨_, List.mem_append_right _ (List.mem_cons_of_mem _ (List.mem_map_of_mem hj)), rfl, rfl, ?_, ?_⟩
      · exact (moved_add (by omega)).symm
      · dsimp only
        omega

/-- No label is in the operand. -/
theorem Shorter.label_outside {x : ℕ × ℕ}
    (hx : x ∈ ResolveLabels.labelAddrs a (pre ++ p :: post)) :
    x.2 ≤ a + (flatten pre).length + 1 ∨ a + (flatten pre).length + 1 + size + delta ≤ x.2 := by
  have hlen := h.old_bytes
  unfold ResolveLabels.labelAddrs at hx
  rw [marks_append, h.old] at hx
  rcases List.mem_append.mp hx with hx | hx
  · have := labelAddrs_bounds hx
    omega
  · have hpost : x ∈ ResolveLabels.labelAddrs (a + (flatten pre).length +
        (Piece.jump op [] l operand []).bytes.length) post := hx
    have := labelAddrs_bounds hpost
    rw [← h.old] at this
    omega

end

/-! ## The loop -/

/-- A jump that becomes shorter. -/
theorem Shrunk.shrinkTo (hr : Shrunk L r (pre ++ p :: post)) (h : Shorter p p' op op' l operand size delta)
    (hemits : ∀ item : Item, item.Emits p → item.Emits p')
    (hjp : jp = ⟨op, size + delta, L.prologue.length + (flatten pre).length + 1, l⟩) {ls : LabelSlot}
    (hls : r.labels[l]? = some ls) (hform : shrinkForm op (ls.addr - jp.pos) = some (op', size, delta)) :
    Shrunk L (ResolveLabels.shrinkTo r (jumpSlots L.prologue.length pre).length jp op' size delta)
      (pre ++ p' :: post) where
  out := by
    rw [← h.out, ← hr.out, ResolveLabels.shrinkTo, hjp]
  emits := forall₂_replace hr.emits hemits
  jumps := by
    rw [h.jumpSlots _ rfl hjp, ← hr.jumps]
    rfl
  lines := by
    rw [h.lineSlots, ← hr.lines, ResolveLabels.shrinkTo, hjp]
  target := by
    intro jp' hj
    have hj' : jp' ∈ jumpSlots L.prologue.length (pre ++ p' :: post) := by
      rw [h.jumpSlots _ rfl hjp, ← hr.jumps]
      exact hj
    -- the label of any jump has moved
    have hmoved : ∀ jp₀ ∈ r.jumps, ∃ (ls₀ : LabelSlot) (a₀ : ℕ), r.labels[jp₀.label]? = some ls₀ ∧ ls₀.addr = a₀ ∧
        (ResolveLabels.shrinkTo r (jumpSlots L.prologue.length pre).length jp op' size delta).labels[jp₀.label]? =
          some { ls₀ with addr := moved jp.pos delta a₀ } ∧
        (∀ a', (jp₀.label, a') ∈ labelAddrs L.prologue.length (pre ++ p' :: post) ↔ a' = moved jp.pos delta a₀) ∧
        (a₀ ≤ jp.pos ∨ jp.pos + size + delta ≤ a₀) ∧ Fits jp₀.size (a₀ - jp₀.pos) := by
      intro jp₀ hj₀
      obtain ⟨ls₀, a₀, hls₀, haddr, honly, hfits⟩ := hr.target jp₀ hj₀
      have hout := h.label_outside ((honly a₀).mpr rfl)
      have hpos : jp.pos = L.prologue.length + (flatten pre).length + 1 := hjp ▸ rfl
      rw [← hpos] at hout
      refine ⟨ls₀, a₀, hls₀, haddr, ?_, fun a' => ?_, hout, hfits⟩
      · rw [ResolveLabels.shrinkTo, List.getElem?_map, hls₀, Option.map_some, haddr]
        unfold moved
        split
        · rw [if_pos (by omega), Nat.cast_sub (by omega)]
        · rw [if_neg (by omega), ← haddr]
      · rw [h.labelAddrs, ← hpos, List.mem_map]
        constructor
        · rintro ⟨⟨l', x⟩, hx, heq⟩
          obtain ⟨rfl, rfl⟩ := Prod.mk.inj heq
          rw [(honly x).mp hx]
        · rintro rfl
          exact ⟨_, (honly a₀).mpr rfl, rfl⟩
    rcases h.slot_cases hj' with rfl | ⟨jp₀, hj₀, hlabel, hsize, hpos', hside⟩
    · have hself : jp ∈ r.jumps := by
        rw [hr.jumps, h.old_slots, hjp]
        exact List.mem_append_right _ List.mem_cons_self
      obtain ⟨ls₀, a₀, hls₀, haddr, hget, honly, hout, _⟩ := hmoved jp hself
      have hl : jp.label = l := hjp ▸ rfl
      have hpos : jp.pos = L.prologue.length + (flatten pre).length + 1 := hjp ▸ rfl
      rw [hl] at hls₀ hget honly
      obtain rfl := Option.some.inj (hls.symm.trans hls₀)
      refine ⟨_, _, hget, rfl, honly, ?_⟩
      rw [haddr] at hform
      rw [← hpos]
      exact fits_shrunk hform hout
    · rw [← hr.jumps] at hj₀
      obtain ⟨ls₀, a₀, _, _, hget, honly, hout, hfits⟩ := hmoved jp₀ hj₀
      have hpos : jp.pos = L.prologue.length + (flatten pre).length + 1 := hjp ▸ rfl
      rw [← hpos] at hpos' hside
      rw [hlabel, hsize, hpos']
      exact ⟨_, _, hget, rfl, honly, fits_moved hfits (by omega) hside⟩
  exact := fun h => absurd h (Nat.succ_ne_zero _)

theorem Shrunk.shrinkAt (hr : Shrunk L r ps) (i : ℕ) : ∃ ps', Shrunk L (ResolveLabels.shrinkAt r i) ps' := by
  unfold ResolveLabels.shrinkAt
  cases hjp : r.jumps[i]? with
  | none => exact ⟨ps, hr⟩
  | some jp =>
    dsimp only
    cases hls : r.labels[jp.label]? with
    | none => exact ⟨ps, hr⟩
    | some ls =>
      dsimp only
      cases hform : shrinkForm jp.op (ls.addr - jp.pos) with
      | none => exact ⟨ps, hr⟩
      | some x =>
        obtain ⟨op', size, delta⟩ := x
        rw [hr.jumps] at hjp
        obtain ⟨pre, op, atom, l, operand, tail, post, rfl, rfl, rfl⟩ := split_jumpSlots hjp
        have hall : ∀ item : Item, item.Emits (.jump op atom l operand tail) →
            atom = [] ∧ tail = [] ∧ operand.length = size + delta ∧
              item.Emits (.jump op' [] l (operand.take size) []) := fun item h => emits_shrink h hform
        obtain ⟨item, _, hitem⟩ := exists_of_forall₂ hr.emits (List.mem_append_right _ List.mem_cons_self)
        obtain ⟨rfl, rfl, hlen, _⟩ := hall item hitem
        have hshort : Shorter (.jump op [] l operand []) (.jump op' [] l (operand.take size) []) op op' l operand
            size delta := ⟨rfl, rfl, hlen, shrinkForm_pos hform⟩
        exact ⟨_, hr.shrinkTo hshort (fun item h => (hall item h).2.2.2) (by rw [hlen]; rfl) hls hform⟩

theorem Shrunk.foldl (hr : Shrunk L r ps) (is : List ℕ) : ∃ ps', Shrunk L (is.foldl ResolveLabels.shrinkAt r) ps' := by
  induction is generalizing r ps with
  | nil => exact ⟨ps, hr⟩
  | cons i is ih =>
    obtain ⟨ps', hr'⟩ := hr.shrinkAt i
    exact ih hr'

end QuickJs.ResolveLabels
