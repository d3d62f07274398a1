import QuickJs.JumpPieces

/-!
# The first pass over a layout

Up to where it has come: the buffer is that of some pieces, the operand of every jump to a label before is right, and
a label that is still to come has an entry for each jump to it. A short operand will do for these jumps: the code that
is put is never longer than the code that is read.
-/

namespace QuickJs.ResolveLabels

open Bytecode ByteBuffer

/-- The entries of a label that has no address. -/
def relocs (l : ℕ) (jps : List JumpSlot) : List RelocEntry :=
  ((jps.filter fun jp => jp.label = l).reverse).map fun jp => ⟨jp.pos, jp.size⟩

/-- The operand of a jump to `a`. -/
def operandTo (a : ℤ) (jp : JumpSlot) : List UInt8 := ofInt jp.size (a - jp.pos)

/-- A jump to a label in the code that is still to be read; `out` bytes have been put, `read` bytes read. -/
def Reaches (out read : ℕ) (pos2 : ℤ) (jp : JumpSlot) : Prop :=
  jp.size ≠ 4 → (out - jp.pos + (pos2 - read)) * 2 < (256 ^ jp.size : ℕ)

/-- A label without an address. -/
structure Open (L : Layout) (done : List Source) (s : State) (ps : List Piece) (l : ℕ) (ls : LabelSlot) : Prop where
  addr : ls.addr = -1
  absent : ∀ a, (l, a) ∉ labelAddrs L.prologue.length ps
  entries : ls.firstReloc = relocs l s.jumps
  reaches : ∀ jp ∈ s.jumps, jp.label = l → Reaches s.out.length (readBytes done) ls.pos2 jp

/-- A label with an address. -/
structure Placed (L : Layout) (ps : List Piece) (l : ℕ) (ls : LabelSlot) (a : ℕ) : Prop where
  addr : ls.addr = a
  only : ∀ a', (l, a') ∈ labelAddrs L.prologue.length ps ↔ a' = a
  entries : ls.firstReloc = []

/-- Every operand of a jump to a label that is there is right. -/
def Exact (base : ℕ) (ps : List Piece) : Prop :=
  ∀ jp operand a, (jp, operand) ∈ operands base ps → (jp.label, a) ∈ labelAddrs base ps →
    Fits jp.size (a - jp.pos) ∧ operand = operandTo a jp

/-- What holds when the sources `done` have been put. -/
structure Putting (L : Layout) (done : List Source) (s : State) (ps : List Piece) : Prop where
  out : s.out = L.prologue ++ flatten ps
  emits : List.Forall₂ Item.Emits (done.map Source.item) ps
  reads : (flatten ps).length ≤ readBytes done
  jumps : s.jumps = jumpSlots L.prologue.length ps
  lines : s.lines = lineSlots L.prologue.length ps
  count : s.labels.length = L.pos2.length
  range : ∀ jp ∈ s.jumps, jp.label < L.pos2.length
  pos2 : ∀ (l : ℕ) (ls : LabelSlot), s.labels[l]? = some ls → L.pos2[l]? = some ls.pos2
  label : ∀ (l : ℕ) (ls : LabelSlot), s.labels[l]? = some ls → Open L done s ps l ls ∨ ∃ a, Placed L ps l ls a
  exact : Exact L.prologue.length ps

variable {L : Layout} {done rest : List Source} {src : Source} {s : State} {ps : List Piece} {l a size : ℕ}
  {ls : LabelSlot} {jp : JumpSlot} {p : Piece}

theorem readBytes_append (xs ys : List Source) : readBytes (xs ++ ys) = readBytes xs + readBytes ys := by
  unfold readBytes
  rw [List.map_append, List.sum_append]

theorem readBytes_snoc (xs : List Source) (src : Source) : readBytes (xs ++ [src]) = readBytes xs + src.read :=
  readBytes_append xs [src]

theorem Putting.length_out (h : Putting L done s ps) : s.out.length = L.prologue.length + (flatten ps).length := by
  rw [h.out, List.length_append]

theorem Layout.init_putting (L : Layout) : Putting L [] L.init [] where
  out := (List.append_nil _).symm
  emits := .nil
  reads := Nat.le_refl 0
  jumps := rfl
  lines := rfl
  count := List.length_map _
  range := fun _ h => absurd h List.not_mem_nil
  pos2 := fun l ls h => by
    obtain ⟨pos2, hpos2, rfl⟩ := Option.map_eq_some_iff.mp (List.getElem?_map .. ▸ h)
    exact hpos2
  label := fun l ls h => by
    obtain ⟨pos2, hpos2, rfl⟩ := Option.map_eq_some_iff.mp (List.getElem?_map .. ▸ h)
    exact .inl ⟨rfl, fun _ => List.not_mem_nil, rfl, fun _ h => absurd h List.not_mem_nil⟩
  exact := fun _ _ _ h => absurd h List.not_mem_nil

variable {out b pos : ℕ} {s' : State}

/-- More code does not bring the label nearer than the code that is read for it. -/
theorem Reaches.step {out' read read' : ℕ} {pos2 : ℤ} (h : Reaches out read pos2 jp) (hle : out' - out ≤ read' - read)
    (hout : out ≤ out') (hread : read ≤ read') : Reaches out' read' pos2 jp := by
  intro hsize
  have := h hsize
  omega

theorem labelAddrs_snoc : labelAddrs b (ps ++ [p]) = labelAddrs b ps ++ labelOf (b + (flatten ps).length) p := by
  unfold labelAddrs
  rw [marks_append, marks_singleton]

theorem lineSlots_snoc : lineSlots b (ps ++ [p]) = lineSlots b ps ++ lineOf (b + (flatten ps).length) p := by
  unfold lineSlots
  rw [marks_append, marks_singleton]

theorem operands_snoc : operands b (ps ++ [p]) = operands b ps ++ operandOf (b + (flatten ps).length) p := by
  unfold operands
  rw [marks_append, marks_singleton]

theorem jumpSlots_snoc :
    jumpSlots b (ps ++ [p]) = jumpSlots b ps ++ (operandOf (b + (flatten ps).length) p).map Prod.fst := by
  unfold jumpSlots
  rw [operands_snoc, List.map_append]

theorem flatten_snoc : flatten (ps ++ [p]) = flatten ps ++ p.bytes := by
  rw [flatten_append, flatten_cons, flatten_nil, List.append_nil]

theorem emits_snoc {items : List Item} {item : Item} (h : List.Forall₂ Item.Emits items ps) (hp : item.Emits p) :
    List.Forall₂ Item.Emits (items ++ [item]) (ps ++ [p]) := by
  induction h with
  | nil => exact .cons hp .nil
  | cons h _ ih => exact .cons h ih

/-- A piece without labels and jumps. -/
theorem Putting.plain (h : Putting L done s ps) (hp : src.item.Emits p) (hread : p.bytes.length ≤ src.read)
    (hlabel : ∀ a, labelOf a p = []) (hjump : ∀ a, operandOf a p = []) (hout : s'.out = s.out ++ p.bytes)
    (hlabels : s'.labels = s.labels) (hjumps : s'.jumps = s.jumps)
    (hlines : s'.lines = s.lines ++ lineOf s.out.length p) : Putting L (done ++ [src]) s' (ps ++ [p]) where
  out := by rw [hout, h.out, flatten_snoc, List.append_assoc]
  emits := by
    rw [List.map_append]
    exact emits_snoc h.emits hp
  reads := by
    rw [flatten_snoc, List.length_append, readBytes_snoc]
    exact Nat.add_le_add h.reads hread
  jumps := by rw [hjumps, h.jumps, jumpSlots_snoc, hjump, List.map_nil, List.append_nil]
  lines := by rw [hlines, h.lines, lineSlots_snoc, ← h.length_out]
  count := hlabels ▸ h.count
  range := hjumps ▸ h.range
  pos2 := hlabels ▸ h.pos2
  label := fun l ls hls => by
    have haddrs : labelAddrs L.prologue.length (ps ++ [p]) = labelAddrs L.prologue.length ps := by
      rw [labelAddrs_snoc, hlabel, List.append_nil]
    rcases h.label l ls (hlabels ▸ hls) with ho | ⟨a, hpl⟩
    · refine .inl ⟨ho.addr, haddrs ▸ ho.absent, hjumps ▸ ho.entries, fun jp hj hl => ?_⟩
      refine (ho.reaches jp (hjumps ▸ hj) hl).step ?_ ?_ ?_
      · rw [hout, List.length_append, readBytes_snoc]
        omega
      · rw [hout, List.length_append]
        omega
      · rw [readBytes_snoc]
        omega
    · exact .inr ⟨a, hpl.addr, haddrs ▸ hpl.only, hpl.entries⟩
  exact := by
    intro jp operand a hj ha
    rw [operands_snoc, hjump, List.append_nil] at hj
    rw [labelAddrs_snoc, hlabel, List.append_nil] at ha
    exact h.exact jp operand a hj ha

/-! ## Labels -/

theorem resolve_entries (a : ℕ) {jps : List JumpSlot} (h : ∀ jp ∈ jps, Fits jp.size (a - jp.pos)) (out : List UInt8) :
    (jps.map fun jp => (⟨jp.pos, jp.size⟩ : RelocEntry)).foldlM (resolveReloc a) out =
      some (jps.foldl (fun out jp => put out jp.pos (operandTo a jp)) out) := by
  induction jps generalizing out with
  | nil => rfl
  | cons jp jps ih =>
    have hfits : ¬(jp.size ≠ 4 ∧ ¬Fits jp.size (a - jp.pos)) := fun hn => hn.2 (h jp List.mem_cons_self)
    rw [List.map_cons, List.foldlM_cons, resolveReloc, if_neg hfits, Option.bind_eq_bind, Option.bind_some,
      ih fun jp hj => h jp (List.mem_cons_of_mem _ hj)]
    rfl

/-- The jumps that wait for a label, the last one first. -/
def waiting (s : State) (l : ℕ) : List JumpSlot := (s.jumps.filter fun jp => jp.label = l).reverse

theorem mem_waiting : jp ∈ waiting s l ↔ jp ∈ s.jumps ∧ jp.label = l := by
  unfold waiting
  rw [List.mem_reverse, List.mem_filter, decide_eq_true_iff]

/-- A jump that waits comes to its label. -/
theorem Putting.fits (h : Putting L done s ps) (ho : Open L done s ps l ls)
    (hpos2 : ls.pos2 = (readBytes done : ℤ) + src.read) (hsmall : L.prologue.length + readBytes done < 2 ^ 31)
    (hj : jp ∈ waiting s l) : Fits jp.size ((s.out.length : ℤ) - jp.pos) := by
  obtain ⟨hj, hl⟩ := mem_waiting.mp hj
  have hbounds := jumpSlots_bounds (h.jumps ▸ hj)
  have hlen := h.length_out
  have hreads := h.reads
  have hpow : (0 : ℤ) < (256 ^ jp.size : ℕ) := Int.natCast_pos.mpr (Nat.pow_pos (by decide))
  refine ⟨by omega, ?_⟩
  by_cases hsize : jp.size = 4
  · rw [hsize]
    omega
  · have := ho.reaches jp hj hl hsize
    omega

theorem length_operandTo (a : ℤ) (jp : JumpSlot) : (operandTo a jp).length = jp.size := length_ofInt _ _

/-- The pieces when a label comes. -/
def withLabel (L : Layout) (s : State) (ps : List Piece) (l : ℕ) : List Piece :=
  mapOperands (writeAll (waiting s l) (operandTo s.out.length)) L.prologue.length ps ++ [.label l]

theorem keepsSize_waiting : KeepsSize (writeAll (waiting s l) (operandTo s.out.length)) :=
  keepsSize_writeAll (length_operandTo _)

theorem Putting.labelAddrs_withLabel (h : Putting L done s ps) (l : ℕ) :
    labelAddrs L.prologue.length (withLabel L s ps l) = labelAddrs L.prologue.length ps ++ [(l, s.out.length)] := by
  unfold withLabel
  rw [labelAddrs_snoc, labelAddrs_mapOperands keepsSize_waiting, length_flatten_mapOperands keepsSize_waiting,
    ← h.length_out]
  rfl

theorem Putting.exact_withLabel (h : Putting L done s ps) (ho : Open L done s ps l ls)
    (hpos2 : ls.pos2 = (readBytes done : ℤ) + src.read) (hsmall : L.prologue.length + readBytes done < 2 ^ 31) :
    Exact L.prologue.length (withLabel L s ps l) := by
  intro jp operand a hj ha
  rw [h.labelAddrs_withLabel] at ha
  unfold withLabel at hj
  rw [operands_snoc, operands_mapOperands keepsSize_waiting] at hj
  obtain ⟨⟨jp', operand'⟩, hj', heq⟩ := List.mem_map.mp (List.append_nil _ ▸ hj)
  obtain ⟨rfl, rfl⟩ := Prod.mk.inj heq
  have hslot : jp' ∈ s.jumps := h.jumps ▸ mem_jumpSlots.mpr ⟨operand', hj'⟩
  unfold writeAll
  rcases List.mem_append.mp ha with ha | ha
  · -- the label was there before
    have hne : jp'.label ≠ l := fun hl => ho.absent a (hl ▸ ha)
    rw [if_neg fun hmem => hne (mem_waiting.mp hmem).2]
    exact h.exact jp' operand' a hj' ha
  · obtain ⟨hl, rfl⟩ := Prod.mk.inj (List.mem_singleton.mp ha)
    have hmem : jp' ∈ waiting s l := mem_waiting.mpr ⟨hslot, hl⟩
    rw [if_pos hmem]
    exact ⟨h.fits ho hpos2 hsmall hmem, rfl⟩

theorem Putting.labelled (h : Putting L done s ps) (hitem : src.item = .label l) (hls : s.labels[l]? = some ls)
    (ho : Open L done s ps l ls) (hpos2 : ls.pos2 = (readBytes done : ℤ) + src.read)
    (hsmall : L.prologue.length + readBytes done < 2 ^ 31) :
    Putting L (done ++ [src])
      { s with
        out := L.prologue ++ flatten (withLabel L s ps l)
        labels := s.labels.set l { ls with addr := s.out.length, firstReloc := [] } }
      (withLabel L s ps l) := by
  have haddrs := h.labelAddrs_withLabel l
  have hlen : (flatten (withLabel L s ps l)).length = (flatten ps).length := by
    unfold withLabel
    rw [flatten_snoc, List.length_append, length_flatten_mapOperands keepsSize_waiting]
    rfl
  have hlt : l < s.labels.length := (List.getElem?_eq_some_iff.mp hls).1
  -- one entry of the new table
  have hcases : ∀ (l' : ℕ) (ls' : LabelSlot),
      (s.labels.set l { ls with addr := s.out.length, firstReloc := [] })[l']? = some ls' →
      l' = l ∧ ls' = { ls with addr := s.out.length, firstReloc := [] } ∨ l' ≠ l ∧ s.labels[l']? = some ls' := by
    intro l' ls' hls'
    by_cases heq : l' = l
    · subst heq
      rw [List.getElem?_set_self hlt] at hls'
      exact .inl ⟨rfl, (Option.some.inj hls').symm⟩
    · rw [List.getElem?_set_ne (Ne.symm heq)] at hls'
      exact .inr ⟨heq, hls'⟩
  refine ⟨rfl, ?_, ?_, ?_, ?_, ?_, h.range, ?_, ?_, h.exact_withLabel ho hpos2 hsmall⟩
  · rw [List.map_append]
    have hemits : src.item.Emits (.label l) := by
      rw [hitem]
      rfl
    exact emits_snoc (emits_mapOperands h.emits keepsSize_waiting _) hemits
  · rw [hlen, readBytes_snoc]
    exact Nat.le_add_right_of_le h.reads
  · unfold withLabel
    rw [jumpSlots_snoc, jumpSlots_mapOperands keepsSize_waiting]
    exact h.jumps.trans (List.append_nil _).symm
  · unfold withLabel
    rw [lineSlots_snoc, lineSlots_mapOperands keepsSize_waiting]
    exact h.lines.trans (List.append_nil _).symm
  · exact List.length_set.trans h.count
  · intro l' ls' hls'
    rcases hcases l' ls' hls' with ⟨rfl, rfl⟩ | ⟨_, hls'⟩
    · exact h.pos2 l' ls hls
    · exact h.pos2 l' ls' hls'
  · intro l' ls' hls'
    rcases hcases l' ls' hls' with ⟨rfl, rfl⟩ | ⟨hne, hls'⟩
    · refine .inr ⟨s.out.length, rfl, fun a' => ?_, rfl⟩
      rw [haddrs, List.mem_append, or_iff_right (ho.absent a'), List.mem_singleton, Prod.mk.injEq, and_iff_right rfl]
    · have hold : ∀ a, (l', a) ∈ labelAddrs L.prologue.length (withLabel L s ps l) ↔
          (l', a) ∈ labelAddrs L.prologue.length ps := by
        intro a
        rw [haddrs, List.mem_append, List.mem_singleton, Prod.mk.injEq]
        exact or_iff_left fun heq => hne heq.1
      rcases h.label l' ls' hls' with ho' | ⟨a, hpl⟩
      · refine .inl ⟨ho'.addr, fun a ha => ho'.absent a ((hold a).mp ha), ho'.entries, fun jp hj hl => ?_⟩
        refine (ho'.reaches jp hj hl).step ?_ ?_ ?_
        · rw [List.length_append, hlen, h.length_out, Nat.sub_self]
          exact Nat.zero_le _
        · rw [List.length_append, hlen, h.length_out]
        · rw [readBytes_snoc]
          exact Nat.le_add_right _ _
      · exact .inr ⟨a, hpl.addr, fun a' => (hold a').trans (hpl.only a'), hpl.entries⟩

theorem Putting.putLabel (h : Putting L done s ps) (hitem : src.item = .label l)
    (hpos2 : L.pos2[l]? = some ((readBytes done : ℤ) + src.read))
    (habsent : ∀ a, (l, a) ∉ labelAddrs L.prologue.length ps) (hsmall : L.prologue.length + readBytes done < 2 ^ 31) :
    ∃ s', placeLabel s l = some s' ∧ Putting L (done ++ [src]) s' (withLabel L s ps l) := by
  obtain ⟨hlt, _⟩ := List.getElem?_eq_some_iff.mp hpos2
  obtain ⟨ls, hls⟩ : ∃ ls, s.labels[l]? = some ls := ⟨_, List.getElem?_eq_getElem (h.count ▸ hlt)⟩
  have hpos : ls.pos2 = (readBytes done : ℤ) + src.read := Option.some.inj ((h.pos2 l ls hls).symm.trans hpos2)
  have ho : Open L done s ps l ls := (h.label l ls hls).resolve_right fun ⟨a, hpl⟩ => habsent a ((hpl.only a).mpr rfl)
  have hput : (waiting s l).foldl (fun out jp => put out jp.pos (operandTo s.out.length jp)) (L.prologue ++ flatten ps) =
      L.prologue ++ flatten (mapOperands (writeAll (waiting s l) (operandTo s.out.length)) L.prologue.length ps) :=
    foldl_put (length_operandTo _) fun jp hj => h.jumps ▸ (mem_waiting.mp hj).1
  have hflat : flatten (withLabel L s ps l) =
      flatten (mapOperands (writeAll (waiting s l) (operandTo s.out.length)) L.prologue.length ps) :=
    flatten_snoc.trans (List.append_nil _)
  have hresolve : ls.firstReloc.foldlM (resolveReloc s.out.length) s.out =
      some (L.prologue ++ flatten (withLabel L s ps l)) := by
    rw [ho.entries, hflat, ← hput, ← h.out]
    exact resolve_entries _ (fun jp hj => h.fits ho hpos hsmall hj) _
  refine ⟨_, ?_, h.labelled hitem hls ho hpos hsmall⟩
  rw [placeLabel, hls]
  dsimp only
  rw [if_neg (not_not_intro ho.addr), hresolve, Option.map_some]

/-! ## Jumps -/

theorem relocs_snoc (l : ℕ) (jps : List JumpSlot) (jp : JumpSlot) :
    relocs l (jps ++ [jp]) = if jp.label = l then ⟨jp.pos, jp.size⟩ :: relocs l jps else relocs l jps := by
  unfold relocs
  rw [List.filter_append, List.reverse_append]
  by_cases hl : jp.label = l
  · rw [if_pos hl, List.filter_singleton, decide_eq_true hl]
    rfl
  · rw [if_neg hl, List.filter_singleton, decide_eq_false hl]
    rfl

variable {op : OPCodeEnum} {atom tail : List UInt8} {diff : ℤ}

/-- A jump that is put, with the operand `diff`. -/
theorem Putting.emitJump (h : Putting L done s ps) (hls : s.labels[l]? = some ls)
    (hp : src.item.Emits (.jump op atom l (ofInt size diff) tail))
    (hread : 1 + atom.length + size + tail.length ≤ src.read)
    (hto : ∀ a : ℕ, ls.addr = a → Fits size (a - (s.out.length + 1 + atom.length : ℕ)) ∧
      diff = a - (s.out.length + 1 + atom.length : ℕ))
    (hreach : ls.addr = -1 → size ≠ 4 →
      (size + tail.length + (ls.pos2 - (readBytes done + src.read))) * 2 < (256 ^ size : ℕ)) :
    Putting L (done ++ [src]) (ResolveLabels.emitJump s l ls op atom size diff tail)
      (ps ++ [.jump op atom l (ofInt size diff) tail]) := by
  have hlt : l < s.labels.length := (List.getElem?_eq_some_iff.mp hls).1
  have hbytes : (Piece.jump op atom l (ofInt size diff) tail).bytes.length = 1 + atom.length + size + tail.length := by
    simp only [Piece.bytes, List.length_cons, List.length_append, length_ofInt]
    omega
  have haddrs : labelAddrs L.prologue.length (ps ++ [.jump op atom l (ofInt size diff) tail]) =
      labelAddrs L.prologue.length ps := by
    rw [labelAddrs_snoc]
    exact List.append_nil _
  have hslots : jumpSlots L.prologue.length (ps ++ [.jump op atom l (ofInt size diff) tail]) =
      s.jumps ++ [⟨op, size, s.out.length + 1 + atom.length, l⟩] := by
    rw [jumpSlots_snoc, h.jumps, ← h.length_out, operandOf, length_ofInt]
    rfl
  have hout : (ResolveLabels.emitJump s l ls op atom size diff tail).out.length =
      s.out.length + (1 + atom.length + size + tail.length) := by
    rw [← hbytes]
    exact List.length_append
  -- the table has another entry for `l` at most
  have hcases : ∀ (l' : ℕ) (ls' : LabelSlot),
      (ResolveLabels.emitJump s l ls op atom size diff tail).labels[l']? = some ls' →
      s.labels[l']? = some ls' ∧ (l' = l → ls'.addr ≠ -1) ∨ l' = l ∧ ls.addr = -1 ∧
          ls' = { ls with firstReloc := ⟨s.out.length + 1 + atom.length, size⟩ :: ls.firstReloc } := by
    intro l' ls' hls'
    unfold ResolveLabels.emitJump at hls'
    dsimp only at hls'
    by_cases hopen : ls.addr = -1
    · rw [if_pos hopen] at hls'
      by_cases heq : l' = l
      · rw [heq, List.getElem?_set_self hlt] at hls'
        exact .inr ⟨heq, hopen, (Option.some.inj hls').symm⟩
      · rw [List.getElem?_set_ne (Ne.symm heq)] at hls'
        exact .inl ⟨hls', fun h => absurd h heq⟩
    · rw [if_neg hopen] at hls'
      refine .inl ⟨hls', ?_⟩
      rintro rfl
      rwa [Option.some.inj (hls'.symm.trans hls)]
  have hstep : ∀ {pos2 jp}, Reaches s.out.length (readBytes done) pos2 jp →
      Reaches (s.out.length + (1 + atom.length + size + tail.length)) (readBytes (done ++ [src])) pos2 jp := by
    intro pos2 jp hr
    refine hr.step ?_ (Nat.le_add_right _ _) ?_
    · rw [readBytes_snoc]
      omega
    · rw [readBytes_snoc]
      exact Nat.le_add_right _ _
  refine ⟨?_, ?_, ?_, hslots.symm, ?_, ?_, ?_, ?_, ?_, ?_⟩
  · rw [flatten_snoc, ← List.append_assoc, ← h.out]
    rfl
  · rw [List.map_append]
    exact emits_snoc h.emits hp
  · rw [flatten_snoc, List.length_append, hbytes, readBytes_snoc]
    exact Nat.add_le_add h.reads hread
  · rw [lineSlots_snoc]
    exact h.lines.trans (List.append_nil _).symm
  · unfold ResolveLabels.emitJump
    split
    · exact List.length_set.trans h.count
    · exact h.count
  · intro jp hj
    rcases List.mem_append.mp hj with hj | hj
    · exact h.range jp hj
    · rw [List.mem_singleton.mp hj]
      exact h.count ▸ hlt
  · intro l' ls' hls'
    rcases hcases l' ls' hls' with ⟨hls', _⟩ | ⟨rfl, _, rfl⟩
    · exact h.pos2 l' ls' hls'
    · exact h.pos2 l' ls hls
  · intro l' ls' hls'
    rcases hcases l' ls' hls' with ⟨hls', hne⟩ | ⟨rfl, hopen, rfl⟩
    · rcases h.label l' ls' hls' with ho | ⟨a, hpl⟩
      · have hll : l ≠ l' := fun heq => hne heq.symm ho.addr
        refine .inl ⟨ho.addr, haddrs ▸ ho.absent, ?_, fun jp hj hl => ?_⟩
        · refine ho.entries.trans (Eq.trans ?_ (relocs_snoc l' s.jumps _).symm)
          exact (if_neg hll).symm
        · rcases List.mem_append.mp hj with hj | hj
          · exact hout ▸ hstep (ho.reaches jp hj hl)
          · rw [List.mem_singleton.mp hj] at hl
            exact absurd hl hll
      · exact .inr ⟨a, hpl.addr, haddrs ▸ hpl.only, hpl.entries⟩
    · have ho := (h.label l' ls hls).resolve_right fun hplaced => by
        obtain ⟨a, hpl⟩ := hplaced
        have := hpl.addr
        omega
      refine .inl ⟨hopen, haddrs ▸ ho.absent, ?_, fun jp hj hl => ?_⟩
      · refine Eq.trans ?_ (relocs_snoc l' s.jumps _).symm
        rw [if_pos rfl, ← ho.entries]
      · rcases List.mem_append.mp hj with hj | hj
        · exact hout ▸ hstep (ho.reaches jp hj hl)
        · rw [List.mem_singleton.mp hj]
          intro hsize
          have := hreach hopen hsize
          rw [readBytes_snoc]
          dsimp only
          omega
  · intro jp operand a hj ha
    rw [haddrs] at ha
    rw [operands_snoc] at hj
    rcases List.mem_append.mp hj with hj | hj
    · exact h.exact jp operand a hj ha
    · rw [← h.length_out, operandOf, length_ofInt] at hj
      obtain ⟨rfl, rfl⟩ := Prod.mk.inj (List.mem_singleton.mp hj)
      obtain ⟨a', hpl⟩ := (h.label l ls hls).resolve_left fun ho => ho.absent a ha
      obtain rfl := (hpl.only a).mp ha
      obtain ⟨hfits, hdiff⟩ := hto a hpl.addr
      exact ⟨hfits, congrArg (ofInt size) hdiff⟩

/-- The form of a jump is one of those that the layout allows. -/
theorem jumpForm_emits (hop : op ∈ labelJumps) (ls : LabelSlot) (l : ℕ) :
    (Item.jump op l).Emits (.jump (jumpForm pos out ls op).1 [] l
      (ofInt (jumpForm pos out ls op).2.1 (jumpForm pos out ls op).2.2) []) := by
  refine ⟨_, _, rfl, ?_⟩
  unfold jumpForm
  dsimp only
  split <;> split
  · next h => exact .inr (.inl ⟨h.2, rfl, rfl⟩)
  · split
    · next h => exact .inr (.inr ⟨h.2, rfl, rfl⟩)
    · exact .inl ⟨hop, rfl, rfl⟩
  · next h => exact .inr (.inl ⟨h.2, rfl, rfl⟩)
  · split
    · next h => exact .inr (.inr ⟨h.2, rfl, rfl⟩)
    · exact .inl ⟨hop, rfl, rfl⟩

theorem jumpForm_size (ls : LabelSlot) (op : OPCodeEnum) : (jumpForm pos out ls op).2.1 ≤ 4 := by
  unfold jumpForm
  dsimp only
  repeat' split
  all_goals
    dsimp only
    omega

/-- An operand of 32 bits is enough. -/
theorem fits_four {x y : ℕ} (hx : x < 2 ^ 31) (hy : y < 2 ^ 31) : Fits 4 ((x : ℤ) - y) := by
  unfold Fits
  omega

theorem jumpForm_to (op : OPCodeEnum) (haddr : ls.addr = a) (ha : a < 2 ^ 31) (hout : out + 1 < 2 ^ 31) :
    Fits (jumpForm pos out ls op).2.1 (a - (out + 1 : ℕ)) ∧ (jumpForm pos out ls op).2.2 = a - (out + 1 : ℕ) := by
  have hdiff : ls.addr - out - 1 = (a : ℤ) - (out + 1 : ℕ) := by omega
  have hdiff' : ls.addr - (out + 1) = (a : ℤ) - (out + 1 : ℕ) := by omega
  unfold jumpForm
  dsimp only
  rw [if_neg (by omega), hdiff, hdiff']
  split
  · next h => exact ⟨h.1, rfl⟩
  split
  · next h => exact ⟨h.1, rfl⟩
  · exact ⟨fits_four ha hout, rfl⟩

/-- A short operand is chosen if the label is near in the code that is read. -/
theorem jumpForm_reach {read : ℕ} (op : OPCodeEnum) (haddr : ls.addr = -1) (hread : 5 ≤ read)
    (hsize : (jumpForm pos out ls op).2.1 ≠ 4) :
    ((jumpForm pos out ls op).2.1 + (ls.pos2 - (pos + read))) * 2 < (256 ^ (jumpForm pos out ls op).2.1 : ℕ) := by
  revert hsize
  unfold jumpForm
  dsimp only
  rw [if_pos haddr]
  split
  · dsimp only
    omega
  split
  · dsimp only
    omega
  · exact fun h => absurd rfl h

/-! ## One step, and the whole pass -/

/-- The label of a jump. -/
def Item.target : Item → Option ℕ
  | code _ | line _ | label _ => none
  | jump _ l | withVar _ _ l _ => some l

theorem emits_label {item : Item} (h : item.Emits (.label l)) : item = .label l := by
  cases item with
  | label l' => exact congrArg Item.label (Piece.label.inj h).symm
  | code => exact nomatch h
  | line => exact h.elim nofun nofun
  | jump => exact nomatch h.choose_spec.choose_spec.1
  | withVar => exact nomatch h.2.choose_spec.1

theorem exists_of_forall₂ {α β : Type} {R : α → β → Prop} {xs : List α} {ys : List β} (h : List.Forall₂ R xs ys)
    {y : β} (hy : y ∈ ys) : ∃ x ∈ xs, R x y := by
  induction h with
  | nil => exact absurd hy List.not_mem_nil
  | cons hxy _ ih =>
    rcases List.mem_cons.mp hy with rfl | hy
    · exact ⟨_, List.mem_cons_self, hxy⟩
    · obtain ⟨x, hx, hr⟩ := ih hy
      exact ⟨x, List.mem_cons_of_mem _ hx, hr⟩

/-- A label that is there has been put by a source. -/
theorem Putting.source_label (h : Putting L done s ps) (ha : (l, a) ∈ labelAddrs L.prologue.length ps) :
    ∃ src ∈ done, src.item = .label l := by
  obtain ⟨pre, post, rfl, _⟩ := mem_labelAddrs.mp ha
  obtain ⟨item, hitem, hemits⟩ := exists_of_forall₂ h.emits (List.mem_append_right _ List.mem_cons_self)
  obtain ⟨src, hsrc, rfl⟩ := List.mem_map.mp hitem
  exact ⟨src, hsrc, emits_label hemits⟩

/-- No label is put twice. -/
theorem Putting.absent (h : Putting L done s ps) (hsrc : L.sources = done ++ src :: rest) (hitem : src.item = .label l)
    (a : ℕ) : (l, a) ∉ labelAddrs L.prologue.length ps := by
  intro ha
  obtain ⟨src', hmem, hitem'⟩ := h.source_label ha
  obtain ⟨pre, post, rfl⟩ := List.append_of_mem hmem
  have hpos := L.designates _ src rest l hsrc hitem
  have hpos' := L.designates pre src' (post ++ src :: rest) l (by rw [hsrc, List.append_assoc]; rfl) hitem'
  have hreads : src.read = 5 := by
    have := src.reads
    rwa [hitem] at this
  have heq := Option.some.inj (hpos.symm.trans hpos')
  rw [readBytes_append, readBytes, readBytes, List.map_cons, List.sum_cons] at heq
  omega

theorem Layout.small_done (L : Layout) (hsrc : L.sources = done ++ src :: rest) :
    L.prologue.length + readBytes done + src.read < 2 ^ 31 := by
  have := L.small
  rw [hsrc, readBytes_append, readBytes, readBytes, List.map_cons, List.sum_cons] at this
  unfold readBytes
  omega

theorem Putting.step (h : Putting L done s ps) (hsrc : L.sources = done ++ src :: rest)
    (hrange : ∀ l, src.item.target = some l → l < L.pos2.length) :
    ∃ s' ps', putItem L.lineNumberSize (readBytes done) s src.item = some s' ∧ Putting L (done ++ [src]) s' ps' := by
  have hsmall := L.small_done hsrc
  have hreads := src.reads
  have hlen := h.length_out
  have hbytes := h.reads
  have haddr : ∀ {l : ℕ} {ls : LabelSlot} {a : ℕ}, s.labels[l]? = some ls → ls.addr = a → a < 2 ^ 31 := by
    intro l ls a hls ha
    rcases h.label l ls hls with ho | ⟨a', hpl⟩
    · have := ho.addr
      omega
    · have := labelAddrs_bounds ((hpl.only a').mpr rfl)
      have := hpl.addr
      omega
  cases hitem : src.item with
  | code bytes =>
    rw [hitem] at hreads
    exact ⟨_, _, rfl, h.plain (p := .code bytes) (hitem ▸ rfl) hreads (fun _ => rfl) (fun _ => rfl) rfl rfl rfl
      (List.append_nil _).symm⟩
  | line lineNum =>
    rw [putItem, addPc2lineInfo]
    split
    · exact ⟨_, _, rfl, h.plain (p := .line (some lineNum)) (hitem ▸ .inr rfl) (Nat.zero_le _) (fun _ => rfl)
        (fun _ => rfl) (List.append_nil _).symm rfl rfl rfl⟩
    · exact ⟨_, _, rfl, h.plain (p := .line none) (hitem ▸ .inl rfl) (Nat.zero_le _) (fun _ => rfl)
        (fun _ => rfl) (List.append_nil _).symm rfl rfl (List.append_nil _).symm⟩
  | label l =>
    obtain ⟨s', hs', hput⟩ := h.putLabel hitem (L.designates _ src rest l hsrc hitem) (h.absent hsrc hitem) (by omega)
    exact ⟨s', _, hs', hput⟩
  | jump op l =>
    rw [hitem] at hreads hrange
    obtain ⟨hop, hread⟩ := hreads
    obtain ⟨ls, hls⟩ : ∃ ls, s.labels[l]? = some ls :=
      ⟨_, List.getElem?_eq_getElem (h.count ▸ hrange l rfl)⟩
    have hsize : (jumpForm (readBytes done) s.out.length ls op).2.1 ≤ 4 := jumpForm_size ls op
    rw [putItem, hls]
    refine ⟨ResolveLabels.emitJump s l ls (jumpForm (readBytes done) s.out.length ls op).1 []
      (jumpForm (readBytes done) s.out.length ls op).2.1 (jumpForm (readBytes done) s.out.length ls op).2.2 [], _, rfl,
      h.emitJump hls (hitem ▸ jumpForm_emits hop ls l) ?_ ?_ ?_⟩
    · simp only [List.length_nil]
      omega
    · intro a ha
      exact jumpForm_to op ha (haddr hls ha) (by omega)
    · intro hopen hne
      have hnear := jumpForm_reach op hopen hread hne
      simpa only [List.length_nil, Nat.cast_zero, add_zero] using hnear
  | withVar op atom l isWith =>
    rw [hitem] at hreads hrange
    obtain ⟨hop, hatom, hread⟩ := hreads
    obtain ⟨ls, hls⟩ : ∃ ls, s.labels[l]? = some ls :=
      ⟨_, List.getElem?_eq_getElem (h.count ▸ hrange l rfl)⟩
    rw [putItem, hls]
    refine ⟨_, _, rfl, h.emitJump hls (hitem ▸ ⟨hop, _, rfl, length_ofInt _ _⟩) ?_ ?_ ?_⟩
    · simp only [List.length_singleton]
      omega
    · intro a ha
      refine ⟨fits_four (haddr hls ha) (by omega), ?_⟩
      rw [ha]
      rfl
    · exact fun _ hne => absurd rfl hne

/-- Only a label that is not in the table is an error on the way. -/
theorem putItem_range {size : ℕ} (h : putItem size pos s src.item = some s') (l : ℕ)
    (hl : src.item.target = some l) : l < s.labels.length := by
  by_contra hlt
  have hls : s.labels[l]? = none := List.getElem?_eq_none (Nat.not_lt.mp hlt)
  cases hitem : src.item with
  | code | line | label =>
    rw [hitem] at hl
    exact nomatch hl
  | jump op l' | withVar op atom l' isWith =>
    rw [hitem] at hl h
    obtain rfl := Option.some.inj hl
    rw [putItem, hls] at h
    exact nomatch h

/-- The labels of all jumps are in the table. -/
def InRange (L : Layout) (srcs : List Source) : Prop :=
  ∀ src ∈ srcs, ∀ l, src.item.target = some l → l < L.pos2.length

theorem Putting.run (h : Putting L done s ps) (hsrc : L.sources = done ++ rest) (hrange : InRange L rest) :
    ∃ s' ps', putItems L.lineNumberSize (readBytes done) s rest = some s' ∧ Putting L L.sources s' ps' := by
  induction rest generalizing done s ps with
  | nil => exact ⟨s, ps, rfl, hsrc ▸ (List.append_nil done).symm ▸ h⟩
  | cons src rest ih =>
    obtain ⟨s', ps', hput, h'⟩ := h.step hsrc (hrange src List.mem_cons_self)
    have hsrc' : L.sources = (done ++ [src]) ++ rest := by rw [hsrc, List.append_assoc, List.singleton_append]
    obtain ⟨s'', ps'', hrun, hfinal⟩ := ih h' hsrc' fun x hx => hrange x (List.mem_cons_of_mem _ hx)
    refine ⟨s'', ps'', ?_, hfinal⟩
    rw [putItems, hput, ← readBytes_snoc]
    exact hrun

theorem Putting.inRange (h : Putting L done s ps) (hsrc : L.sources = done ++ rest)
    (hput : putItems L.lineNumberSize (readBytes done) s rest = some s') : InRange L rest := by
  induction rest generalizing done s ps with
  | nil => exact fun _ h => absurd h List.not_mem_nil
  | cons src rest ih =>
    obtain ⟨s₁, hs₁, hrest⟩ := Option.bind_eq_some_iff.mp hput
    have hl : ∀ l, src.item.target = some l → l < L.pos2.length := fun l hl => h.count ▸ putItem_range hs₁ l hl
    obtain ⟨s₂, ps', hs₂, h'⟩ := h.step hsrc hl
    obtain rfl := Option.some.inj (hs₁.symm.trans hs₂)
    have hsrc' : L.sources = (done ++ [src]) ++ rest := by rw [hsrc, List.append_assoc, List.singleton_append]
    intro x hx
    rcases List.mem_cons.mp hx with rfl | hx
    · exact hl
    · exact ih h' hsrc' (by rwa [readBytes_snoc]) x hx

end QuickJs.ResolveLabels
