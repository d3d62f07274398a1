import QuickJs.JumpShrink

/-!
# Jumps land on their labels

`resolve_labels` fails an assertion exactly if a label is missing. Otherwise the code is that of the layout, each jump in
one of its forms, and each operand is the distance to the label.
-/

namespace QuickJs.ResolveLabels

open Bytecode ByteBuffer

/-- The label of every jump is in the code. -/
def Layout.AllPlaced (L : Layout) : Prop :=
  ∀ src ∈ L.sources, ∀ l, src.item.target = some l → ∃ src' ∈ L.sources, src'.item = .label l

/-- The code consists of what the items leave, and every jump leads to where its label is; so do the lines of the
line table. -/
def Layout.Lands (L : Layout) (r : Resolved) : Prop :=
  ∃ ps, List.Forall₂ Item.Emits (L.sources.map Source.item) ps ∧ r.code = L.prologue ++ flatten ps ∧
    r.lines = lineSlots L.prologue.length ps ∧
    ∀ before op atom l operand tail after, ps = before ++ .jump op atom l operand tail :: after →
      ∃ before' after', ps = before' ++ .label l :: after' ∧
        (L.prologue ++ flatten before ++ opByte op :: atom).length + toInt operand =
          (L.prologue ++ flatten before').length

variable {L : Layout} {s : State} {ps : List Piece} {jp : JumpSlot} {l : ℕ} {r : Relaxing}

/-! ## Missing labels -/

theorem relocs_ne_nil {jps : List JumpSlot} (h : jp ∈ jps) : relocs jp.label jps ≠ [] := by
  have hmem : jp ∈ (jps.filter fun j => j.label = jp.label).reverse :=
    List.mem_reverse.mpr (List.mem_filter.mpr ⟨h, decide_eq_true rfl⟩)
  exact List.ne_nil_of_mem (List.mem_map_of_mem hmem)

theorem exists_jump {jps : List JumpSlot} (h : relocs l jps ≠ []) : ∃ jp ∈ jps, jp.label = l := by
  obtain ⟨re, hre⟩ := List.exists_mem_of_ne_nil _ h
  obtain ⟨jp, hj, _⟩ := List.mem_map.mp hre
  obtain ⟨hj, hl⟩ := List.mem_filter.mp (List.mem_reverse.mp hj)
  exact ⟨jp, hj, of_decide_eq_true hl⟩

theorem emits_target {item : Item} {op : OPCodeEnum} {atom operand tail : List UInt8}
    (h : item.Emits (.jump op atom l operand tail)) : item.target = some l := by
  cases item with
  | code => exact nomatch h
  | line => exact h.elim nofun nofun
  | label => exact nomatch h
  | jump op₀ l₀ =>
    obtain ⟨_, _, hp, _⟩ := h
    exact congrArg some (Piece.jump.inj hp).2.2.1.symm
  | withVar op₀ atom₀ l₀ isWith =>
    obtain ⟨_, _, hp, _⟩ := h
    exact congrArg some (Piece.jump.inj hp).2.2.1.symm

theorem target_emits {item : Item} {p : Piece} (h : item.Emits p) (hl : item.target = some l) :
    ∃ op atom operand tail, p = .jump op atom l operand tail := by
  cases item with
  | code | line | label => exact nomatch hl
  | jump op₀ l₀ =>
    obtain ⟨_, _, hp, _⟩ := h
    exact ⟨_, _, _, _, Option.some.inj hl ▸ hp⟩
  | withVar op₀ atom₀ l₀ isWith =>
    obtain ⟨_, _, hp, _⟩ := h
    exact ⟨_, _, _, _, Option.some.inj hl ▸ hp⟩

/-- The slots are those of the jumps of the layout. -/
theorem exists_slot_iff (h : List.Forall₂ Item.Emits (L.sources.map Source.item) ps) (a l : ℕ) :
    (∃ jp ∈ jumpSlots a ps, jp.label = l) ↔ ∃ src ∈ L.sources, src.item.target = some l := by
  constructor
  · rintro ⟨jp, hj, rfl⟩
    obtain ⟨operand, hj⟩ := mem_jumpSlots.mp hj
    obtain ⟨pre, op, atom, l, tail, post, rfl, rfl⟩ := mem_operands.mp hj
    obtain ⟨item, hitem, hemits⟩ := exists_of_forall₂ h (List.mem_append_right _ List.mem_cons_self)
    obtain ⟨src, hsrc, rfl⟩ := List.mem_map.mp hitem
    exact ⟨src, hsrc, emits_target hemits⟩
  · rintro ⟨src, hsrc, hl⟩
    obtain ⟨p, hp, hemits⟩ := exists_of_forall₂ h.flip (List.mem_map_of_mem hsrc)
    obtain ⟨op, atom, operand, tail, rfl⟩ := target_emits hemits hl
    obtain ⟨pre, post, rfl⟩ := List.append_of_mem hp
    exact ⟨_, mem_jumpSlots.mpr ⟨operand, mem_operands.mpr ⟨pre, op, atom, l, tail, post, rfl, rfl⟩⟩, rfl⟩

theorem exists_addr (h : Putting L L.sources s ps) (hsrc : ∃ src ∈ L.sources, src.item = .label l) :
    ∃ a, (l, a) ∈ labelAddrs L.prologue.length ps := by
  obtain ⟨src, hsrc, hl⟩ := hsrc
  obtain ⟨p, hp, hemits⟩ := exists_of_forall₂ h.emits.flip (List.mem_map_of_mem hsrc)
  rw [hl] at hemits
  obtain ⟨pre, post, rfl⟩ := List.append_of_mem hp
  exact ⟨_, mem_labelAddrs.mpr ⟨pre, post, hemits ▸ rfl, rfl⟩⟩

/-- The assertion that there are no missing labels. -/
theorem Putting.missing_iff (h : Putting L L.sources s ps) :
    (s.labels.all fun ls => ls.firstReloc.isEmpty) = true ↔ L.AllPlaced := by
  rw [List.all_eq_true]
  constructor
  · intro hall src hsrc l hl
    obtain ⟨jp, hj, rfl⟩ := (exists_slot_iff h.emits L.prologue.length l).mpr ⟨src, hsrc, hl⟩
    have hlt : jp.label < s.labels.length := h.count ▸ h.range jp (h.jumps ▸ hj)
    have hls := List.getElem?_eq_getElem hlt
    rcases h.label _ _ hls with ho | ⟨a, hpl⟩
    · have hempty := List.isEmpty_iff.mp (hall _ (List.getElem_mem hlt))
      exact absurd (ho.entries.symm.trans hempty) (relocs_ne_nil (h.jumps ▸ hj))
    · exact h.source_label ((hpl.only a).mpr rfl)
  · intro hall ls hmem
    obtain ⟨l, hls⟩ := List.mem_iff_getElem?.mp hmem
    rw [List.isEmpty_iff]
    rcases h.label l ls hls with ho | ⟨a, hpl⟩
    · rw [ho.entries]
      by_contra hne
      obtain ⟨jp, hj, hl⟩ := exists_jump hne
      obtain ⟨src, hsrc, htarget⟩ := (exists_slot_iff h.emits _ l).mp ⟨jp, h.jumps ▸ hj, hl⟩
      obtain ⟨a, ha⟩ := exists_addr h (hall src hsrc l htarget)
      exact ho.absent a ha
    · exact hpl.entries

/-! ## The whole pass -/

theorem Putting.shrunk (h : Putting L L.sources s ps) (hall : L.AllPlaced) :
    Shrunk L { out := s.out, labels := s.labels, jumps := s.jumps, lines := s.lines, patchOffsets := 0 } ps where
  out := h.out
  emits := h.emits
  jumps := h.jumps
  lines := h.lines
  target := by
    intro jp hj
    have hlt : jp.label < s.labels.length := h.count ▸ h.range jp hj
    have hls := List.getElem?_eq_getElem hlt
    rcases h.label _ _ hls with ho | ⟨a, hpl⟩
    · have hempty := List.isEmpty_iff.mp (List.all_eq_true.mp (h.missing_iff.mpr hall) _ (List.getElem_mem hlt))
      exact absurd (ho.entries.symm.trans hempty) (relocs_ne_nil hj)
    · obtain ⟨operand, hop⟩ := mem_jumpSlots.mp (h.jumps ▸ hj)
      exact ⟨_, a, hls, hpl.addr, hpl.only, (h.exact jp operand a hop ((hpl.only a).mpr rfl)).1⟩
  exact := fun _ => h.exact

/-- Where a slot leads to. -/
def Relaxing.target (r : Relaxing) (jp : JumpSlot) : ℤ := (r.labels[jp.label]?.map LabelSlot.addr).getD 0

theorem Shrunk.patch (h : Shrunk L r ps) :
    ∃ ps', r.patch = L.prologue ++ flatten ps' ∧ List.Forall₂ Item.Emits (L.sources.map Source.item) ps' ∧
      r.lines = lineSlots L.prologue.length ps' ∧ Exact L.prologue.length ps' ∧
      labelAddrs L.prologue.length ps' = labelAddrs L.prologue.length ps ∧
      jumpSlots L.prologue.length ps' = jumpSlots L.prologue.length ps := by
  unfold Relaxing.patch
  by_cases hpatch : r.patchOffsets = 0
  · rw [if_neg (not_not_intro hpatch)]
    exact ⟨ps, h.out, h.emits, h.lines, h.exact hpatch, rfl, rfl⟩
  · rw [if_pos hpatch]
    have hv : ∀ jp, (operandTo (r.target jp) jp).length = jp.size := fun jp => length_operandTo _ jp
    have hkeeps : KeepsSize (writeAll r.jumps fun jp => operandTo (r.target jp) jp) := keepsSize_writeAll hv
    have hfold : r.jumps.foldl (patchJump r.labels) r.out =
        r.jumps.foldl (fun out jp => put out jp.pos (operandTo (r.target jp) jp)) r.out := by
      refine List.foldl_ext _ _ _ fun out jp hj => ?_
      obtain ⟨ls, a, hls, _⟩ := h.target jp hj
      unfold patchJump Relaxing.target
      rw [hls]
      rfl
    have hput : r.jumps.foldl (fun out jp => put out jp.pos (operandTo (r.target jp) jp)) (L.prologue ++ flatten ps) =
        L.prologue ++ flatten (mapOperands (writeAll r.jumps fun jp => operandTo (r.target jp) jp)
          L.prologue.length ps) := foldl_put hv fun jp hj => h.jumps ▸ hj
    refine ⟨_, by rw [hfold, h.out, hput], emits_mapOperands h.emits hkeeps _, ?_, ?_,
      labelAddrs_mapOperands hkeeps _ _, jumpSlots_mapOperands hkeeps _ _⟩
    · rw [h.lines, lineSlots_mapOperands hkeeps]
    · intro jp operand a hj ha
      rw [labelAddrs_mapOperands hkeeps] at ha
      rw [operands_mapOperands hkeeps] at hj
      obtain ⟨⟨jp', operand'⟩, hj', heq⟩ := List.mem_map.mp hj
      obtain ⟨rfl, rfl⟩ := Prod.mk.inj heq
      have hmem : jp' ∈ r.jumps := h.jumps ▸ mem_jumpSlots.mpr ⟨operand', hj'⟩
      obtain ⟨ls, a', hls, haddr, honly, hfits⟩ := h.target jp' hmem
      obtain rfl := (honly a).mp ha
      refine ⟨hfits, ?_⟩
      rw [writeAll, if_pos hmem, Relaxing.target, hls, Option.map_some, Option.getD_some, haddr]

theorem Shrunk.lands (h : Shrunk L r ps) : L.Lands ⟨r.patch, r.lines⟩ := by
  obtain ⟨ps', hcode, hemits, hlines, hexact, haddrs, hslots⟩ := h.patch
  refine ⟨ps', hemits, hcode, hlines, fun before op atom l operand tail after hsplit => ?_⟩
  have hj : (⟨op, operand.length, L.prologue.length + (flatten before).length + 1 + atom.length, l⟩, operand) ∈
      operands L.prologue.length ps' := mem_operands.mpr ⟨before, op, atom, l, tail, after, hsplit, rfl⟩
  obtain ⟨ls, a, _, _, honly, _⟩ := h.target _ (h.jumps ▸ hslots ▸ mem_jumpSlots.mpr ⟨operand, hj⟩)
  have ha := haddrs ▸ (honly a).mpr rfl
  obtain ⟨before', after', hlabel, ha'⟩ := mem_labelAddrs.mp ha
  obtain ⟨hfits, hop⟩ := hexact _ operand a hj ha
  refine ⟨before', after', hlabel, ?_⟩
  have hvalue := toInt_ofInt hfits
  rw [hop, operandTo, hvalue]
  simp only [List.length_append, List.length_cons]
  omega

/-- An assertion fails if and only if a label is missing; if none does, every jump leads to where its label is. -/
theorem resolveLabels_lands (L : Layout) :
    ((∃ r, L.resolveLabels = some r) ↔ L.AllPlaced) ∧ ∀ r, L.resolveLabels = some r → L.Lands r := by
  have hsome : ∀ r, L.resolveLabels = some r → L.AllPlaced ∧ L.Lands r := by
    intro r hr
    obtain ⟨s, hs, hif⟩ := Option.bind_eq_some_iff.mp hr
    have hrange := L.init_putting.inRange (List.nil_append _).symm hs
    obtain ⟨s', ps, hs', hput⟩ := L.init_putting.run (List.nil_append _).symm hrange
    obtain rfl := Option.some.inj (hs.symm.trans hs')
    split at hif
    · next hempty =>
      have hall := hput.missing_iff.mp hempty
      obtain ⟨ps', hshrunk⟩ := (hput.shrunk hall).foldl (List.range s.jumps.length)
      exact ⟨hall, Option.some.inj hif ▸ hshrunk.lands⟩
    · exact nomatch hif
  refine ⟨⟨fun ⟨r, hr⟩ => (hsome r hr).1, fun hall => ?_⟩, fun r hr => (hsome r hr).2⟩
  have hrange : InRange L L.sources := by
    intro src hsrc l hl
    obtain ⟨src', hsrc', hitem⟩ := hall src hsrc l hl
    obtain ⟨pre, post, hsplit⟩ := List.append_of_mem hsrc'
    exact (List.getElem?_eq_some_iff.mp (L.designates pre src' post l hsplit hitem)).1
  obtain ⟨s, ps, hs, hput⟩ := L.init_putting.run (List.nil_append _).symm hrange
  refine ⟨⟨s.shrink.patch, s.shrink.lines⟩, Option.bind_eq_some_iff.mpr ⟨s, hs, ?_⟩⟩
  exact if_pos (hput.missing_iff.mpr hall)

/-- `for (;;) ;` -/
def emptyLoop : Layout where
  prologue := []
  sources := [⟨.label 0, 5, rfl⟩, ⟨.jump .goto 0, 5, by decide, Nat.le_refl 5⟩]
  lineNum := 1
  lineNumberSize := 0
  pos2 := [5]
  designates := by
    rintro (_ | ⟨s, pre⟩) src post l h hl
    · obtain ⟨rfl, _⟩ := List.cons.inj h
      obtain rfl := Item.label.inj hl
      rfl
    · obtain ⟨_, h⟩ := List.cons.inj h
      rcases pre with _ | ⟨s', pre⟩
      · obtain ⟨rfl, _⟩ := List.cons.inj h
        exact nomatch hl
      · exact absurd (List.cons.inj h).2 (List.append_ne_nil_of_right_ne_nil pre (List.cons_ne_nil src post)).symm
  small := by decide

theorem emptyLoop_allPlaced : emptyLoop.AllPlaced := by
  intro src hsrc l hl
  refine ⟨_, List.mem_cons_self, ?_⟩
  rcases List.mem_cons.mp hsrc with rfl | hsrc
  · exact nomatch hl
  · rw [List.mem_singleton.mp hsrc] at hl
    exact congrArg Item.label (Option.some.inj hl)

theorem emptyLoop_lands : ∃ r, emptyLoop.resolveLabels = some r ∧ emptyLoop.Lands r := by
  obtain ⟨r, hr⟩ := (resolveLabels_lands emptyLoop).1.mpr emptyLoop_allPlaced
  exact ⟨r, hr, (resolveLabels_lands emptyLoop).2 r hr⟩

example : emptyLoop.resolveLabels.map Resolved.code = some [opByte .goto8, 255] := by decide +kernel

end QuickJs.ResolveLabels
