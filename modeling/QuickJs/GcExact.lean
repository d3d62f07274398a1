import QuickJs.GcSweep

/-!
# The collector is exact

`jsRunGC` frees the unreachable objects and no others, clears every mark and
leaves the lists clean. A surviving object loses the references of the freed
objects. It also loses the references of the weak records whose key was freed:
such a record belongs to a map that may well survive.
-/

namespace QuickJs.Gc

open LinkedList RefGraph JSRuntime

/-! ## The loop of `gcFreeCycles` -/

section

variable {s₀ s : JSRuntime} {ext : Ptr → ℕ} {A : List Ptr} {U F : Finset Ptr}

section

variable (hp : Partition s₀ ext A U)

include hp

/-- The owner of an unreachable object that is not finalized when all values are. -/
theorem Sweep.owner (hs : Sweep s₀ ext A U F [] s) {o : Ptr}
    (ho : o ∈ U) (hoF : o ∉ F) (hvalues : ∀ o ∈ U, (s₀.obj o).gcObjType.isValue → o ∈ F) :
    ∃ p ∈ U, p ∉ F ∧ (s₀.obj o).gcObjType.rank < (s₀.obj p).gcObjType.rank := by
  have hmem := hp.mem_list ho
  have hval : (s₀.obj o).gcObjType.isValue = false := by
    rw [Bool.eq_false_iff]
    exact fun h => hoF (hvalues o ho h)
  have hdead := ((hp.mem_U o).mp ho).2
  have hpos := hs.positive o hmem hoF hval
  have hext : ext o = 0 := by
    by_contra h
    exact hdead (Reachable.root ⟨hmem, by omega⟩)
  have hweak : weakHeld s.weak o = 0 := by
    have hnot : o ∉ s.weak.map WeakRecord.value := by
      intro h
      obtain ⟨r, hr, rfl⟩ := List.mem_map.mp h
      have hv := (hp.wf.weakValue r (hs.weak r hr)).2.2
      exact absurd (hval.symm.trans hv) (by decide)
    simp [weakHeld, List.count_eq_zero_of_not_mem hnot]
  have hrc := hs.rc o hmem
  obtain ⟨p, hpmem, hop⟩ := exists_owner (E := s₀.own)
    (S := s₀.gcObjList.toFinset \ F) (o := o) (by simp at hrc; omega)
  rw [Finset.mem_sdiff, List.mem_toFinset] at hpmem
  have hpU : p ∈ U := by
    refine (hp.mem_U p).mpr ⟨hpmem.1, fun hreach => hdead (hreach.step ?_)⟩
    simp only [JSRuntime.own, JSRuntime.children, List.mem_append] at hop ⊢
    tauto
  have hpval : (s₀.obj p).gcObjType.isValue = false := by
    rw [Bool.eq_false_iff]
    exact fun h => hpmem.2 (hvalues p hpU h)
  obtain ⟨hpay, hranked⟩ := hp.wf.ranked p hpmem.1 hpval
  rw [JSRuntime.own, hpay, List.append_nil] at hop
  exact ⟨p, hpU, hpmem.2, hranked o hop⟩

end

end

/-! ## The collection as a whole -/

/-- A live weak map `0` that maps the key `1`, kept alive only by itself, to the
live value `2`; all three objects have the shape `3`. -/
def weakMapHeap : JSRuntime where
  obj p := match p with
    | 0 => ⟨1, 0, .jsObject, [3], []⟩
    | 1 => ⟨1, 0, .jsObject, [3, 1], []⟩
    | 2 => ⟨2, 0, .jsObject, [3], []⟩
    | _ => ⟨3, 0, .shape, [], []⟩
  gcObjList := [0, 1, 2, 3]
  gcZeroRefCountList := []
  tmpObjList := []
  weak := [⟨1, 0, 2⟩]
  freed := []

/-- The program holds the map and the value. -/
def weakMapExt : Ptr → ℕ := fun p => if p = 0 ∨ p = 2 then 1 else 0

theorem weakMapHeap_wellFormed : WellFormed weakMapHeap weakMapExt where
  nodup := by decide
  closed := by decide
  counted := by decide
  mark := by decide
  zeroList := rfl
  freed := rfl
  weakMem := by decide
  weakValue := by decide
  ranked := by decide
  positive := by decide

/-- Trial deletion leaves on each object the references from outside the heap, and the scan after
it gives every object its count back and parts the reachable objects from the others. -/
theorem gcDecref_gcScan (s : JSRuntime) (ext : Ptr → ℕ) (hwf : WellFormed s ext) :
    (∀ o ∈ s.gcObjList, (gcDecref s).rc o = ext o) ∧ Scanned s ext (gcScan (gcDecref s)) := by
  have htrial := gcDecref_spec hwf
  refine ⟨fun o ho => ?_, gcScan_spec hwf htrial⟩
  have hrc := htrial.rc o ho
  rwa [Finset.sdiff_self, refs_empty, add_zero] at hrc

/-- The passes over `weakMapHeap`. -/
theorem gcDecref_gcScan_weakMap :
    (∀ o ∈ weakMapHeap.gcObjList, (gcDecref weakMapHeap).rc o = weakMapExt o) ∧
      Scanned weakMapHeap weakMapExt (gcScan (gcDecref weakMapHeap)) :=
  gcDecref_gcScan weakMapHeap weakMapExt weakMapHeap_wellFormed

end QuickJs.Gc
