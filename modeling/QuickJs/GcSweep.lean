import QuickJs.GcScan

/-!
# Freeing the cycles

The last pass of `jsRunGC`. Freeing an object releases its references one by
one; a reference that is still to be released is *pending*. The invariant
`Sweep` balances every count: external references, references of the objects
that are not finalized yet, weak records, pending references. An object that is
not a value is finalized at the moment its count becomes zero, which by the
balance cannot happen to a reachable object.
-/

namespace QuickJs.Gc

open LinkedList RefGraph JSRuntime

/-- The references of `p` apart from its weak records. -/
def JSRuntime.own (s : JSRuntime) (p : Ptr) : List Ptr := (s.obj p).fields ++ (s.obj p).payload

/-- The number of weak records whose value is `o`. -/
def weakHeld (W : List WeakRecord) (o : Ptr) : ℤ := (W.map WeakRecord.value).count o

/-- The invariant of the pass. `A` is the list of reachable objects, `U` the set
of the others, `F ⊆ U` the objects whose references are released and `pend` the
references about to be released. -/
structure Sweep (s₀ : JSRuntime) (ext : Ptr → ℕ) (A : List Ptr) (U F : Finset Ptr)
    (pend : List Ptr) (s : JSRuntime) : Prop where
  frame : Frame { s₀ with weak := s.weak } s
  rc : ∀ o ∈ s₀.gcObjList, s.rc o =
    ext o + refs s₀.own (s₀.gcObjList.toFinset \ F) o + weakHeld s.weak o + pend.count o
  mark : ∀ o ∈ A, (s.obj o).mark = 0
  weak : ∀ r ∈ s.weak, r ∈ s₀.weak
  sub : F ⊆ U
  finalized : ∀ o ∈ F, (s₀.obj o).gcObjType.isValue = false → s.rc o = 0
  positive : ∀ o ∈ s₀.gcObjList, o ∉ F → (s₀.obj o).gcObjType.isValue = false → 0 < s.rc o
  gcList : s.gcObjList = A
  cover : ∀ o ∈ U, o ∈ s.tmpObjList ∨ o ∈ s.gcZeroRefCountList ∨ o ∈ s.freed
  dead : ∀ o, o ∈ s.tmpObjList ∨ o ∈ s.gcZeroRefCountList ∨ o ∈ s.freed → o ∈ U

/-- What releasing references may change: objects that are not values get
finalized and leave `tmpObjList`. -/
structure Progress (s₀ : JSRuntime) (F F' : Finset Ptr) (s s' : JSRuntime) : Prop where
  sub : F ⊆ F'
  value : ∀ o ∈ F', (s₀.obj o).gcObjType.isValue → o ∈ F
  tmp : s'.tmpObjList.Sublist s.tmpObjList
  tmpValue : ∀ o ∈ s.tmpObjList, (s₀.obj o).gcObjType.isValue → o ∈ s'.tmpObjList
  weak : s'.weak = s.weak

theorem Progress.refl (s₀ : JSRuntime) (F : Finset Ptr) (s : JSRuntime) : Progress s₀ F F s s :=
  ⟨fun _ h => h, fun _ h _ => h, List.Sublist.refl _, fun _ h _ => h, rfl⟩

theorem Progress.trans {s₀ : JSRuntime} {F F' F'' : Finset Ptr} {s s' s'' : JSRuntime}
    (h : Progress s₀ F F' s s') (h' : Progress s₀ F' F'' s' s'') : Progress s₀ F F'' s s'' :=
  ⟨fun _ ho => h'.sub (h.sub ho), fun o ho hv => h.value o (h'.value o ho hv) hv,
   h'.tmp.trans h.tmp, fun o ho hv => h'.tmpValue o (h.tmpValue o ho hv) hv,
   h'.weak.trans h.weak⟩

section

variable {s₀ s : JSRuntime} {ext : Ptr → ℕ} {A : List Ptr} {U F : Finset Ptr} {pend : List Ptr}
  {c p : Ptr}

/-- The partition of the heap the scan hands over. -/
structure Partition (s₀ : JSRuntime) (ext : Ptr → ℕ) (A : List Ptr) (U : Finset Ptr) : Prop where
  wf : WellFormed s₀ ext
  mem_A : ∀ o, o ∈ A ↔ Reachable s₀.children (Root s₀ ext) o
  mem_U : ∀ o, o ∈ U ↔ o ∈ s₀.gcObjList ∧ ¬Reachable s₀.children (Root s₀ ext) o

theorem Partition.not_mem_A (h : Partition s₀ ext A U) (hc : c ∈ U) : c ∉ A := fun hA =>
  ((h.mem_U c).mp hc).2 ((h.mem_A c).mp hA)

theorem Partition.mem_list (h : Partition s₀ ext A U) (hc : c ∈ U) : c ∈ s₀.gcObjList :=
  ((h.mem_U c).mp hc).1

/-- Writing off one pending reference. -/
theorem Sweep.rc_release (hs : Sweep s₀ ext A U F (c :: pend) s) (o : Ptr) (ho : o ∈ s₀.gcObjList) :
    (s.setRefCount c ((s.obj c).refCount - 1)).rc o =
      ext o + refs s₀.own (s₀.gcObjList.toFinset \ F) o + weakHeld s.weak o + pend.count o := by
  have h := hs.rc o ho
  rw [count_cons_int c o pend, List.count_singleton] at h
  rw [rc_setRefCount]
  by_cases hoc : o = c
  · subst hoc
    simp only [beq_self_eq_true, if_true] at h ⊢
    change s.rc o - 1 = _
    omega
  · simp only [beq_iff_eq, Ne.symm hoc, if_false] at h
    rw [if_neg hoc]
    omega

/-- Releasing a reference that is not the last one. -/
theorem Sweep.release (hs : Sweep s₀ ext A U F (c :: pend) s) (hpos : (s₀.obj c).gcObjType.isValue = false →
      c ∉ F ∧ 0 < (s.setRefCount c ((s.obj c).refCount - 1)).rc c) :
    Sweep s₀ ext A U F pend (s.setRefCount c ((s.obj c).refCount - 1)) := by
  refine ⟨hs.frame.trans (frame_setRefCount s c _), fun o ho => hs.rc_release o ho,
    fun o ho => (mark_setRefCount s c o _).trans (hs.mark o ho), hs.weak, hs.sub,
    fun o ho hv => ?_, fun o ho hoF hv => ?_, hs.gcList, hs.cover, hs.dead⟩
  · by_cases hoc : o = c
    · subst hoc
      exact absurd ho (hpos hv).1
    · rw [rc_setRefCount, if_neg hoc]
      exact hs.finalized o ho hv
  · by_cases hoc : o = c
    · subst hoc
      exact (hpos hv).2
    · rw [rc_setRefCount, if_neg hoc]
      exact hs.positive o ho hoF hv

theorem refs_sdiff_insert {o : Ptr} (hc : c ∈ s₀.gcObjList.toFinset \ F) :
    refs s₀.own (s₀.gcObjList.toFinset \ insert c F) o =
      refs s₀.own (s₀.gcObjList.toFinset \ F) o - (s₀.own c).count o := by
  rw [← refs_erase hc]
  congr 1
  ext y
  simp only [Finset.mem_sdiff, Finset.mem_insert, Finset.mem_erase]
  tauto

section

variable (hp : Partition s₀ ext A U) (hs : Sweep s₀ ext A U F pend s) (hcU : c ∈ U)

include hp hs hcU

/-- Starting to finalize `c`: its own references become pending. -/
theorem Sweep.begin
    (hcF : c ∉ F) (hzero : (s₀.obj c).gcObjType.isValue = false → s.rc c = 0) :
    Sweep s₀ ext A U (insert c F) (s₀.own c ++ pend) s := by
  have hcmem : c ∈ s₀.gcObjList.toFinset \ F := by simp [hp.mem_list hcU, hcF]
  refine ⟨hs.frame, fun o ho => ?_, hs.mark, hs.weak, ?_, fun o ho hv => ?_,
    fun o ho hoF hv => hs.positive o ho (fun h => hoF (Finset.mem_insert_of_mem h)) hv,
    hs.gcList, hs.cover, hs.dead⟩
  · rw [refs_sdiff_insert hcmem, hs.rc o ho, List.count_append]
    omega
  · exact Finset.insert_subset hcU hs.sub
  · rcases Finset.mem_insert.mp ho with rfl | ho
    · exact hzero hv
    · exact hs.finalized o ho hv

/-- Unlinking an unreachable object and giving its memory back. -/
theorem Sweep.unlink :
    Sweep s₀ ext A U F pend ((s.listDel c).jsFree c) := by
  refine ⟨⟨hs.frame.fields, hs.frame.payload, hs.frame.gcObjType, rfl⟩, hs.rc, hs.mark, hs.weak,
    hs.sub, hs.finalized, hs.positive, ?_, fun o ho => ?_, fun o ho => ?_⟩
  · have h : ((s.listDel c).jsFree c).gcObjList = s.gcObjList.erase c := rfl
    rw [h, hs.gcList, List.erase_of_not_mem (hp.not_mem_A hcU)]
  · by_cases hoc : o = c
    · subst hoc
      exact .inr (.inr (by simp [jsFree]))
    · rcases hs.cover o ho with h | h | h
      · exact .inl ((List.mem_erase_of_ne hoc).mpr h)
      · exact .inr (.inl ((List.mem_erase_of_ne hoc).mpr h))
      · exact .inr (.inr (List.mem_append_left _ h))
  · rcases ho with h | h | h
    · exact hs.dead o (.inl (List.mem_of_mem_erase h))
    · exact hs.dead o (.inr (.inl (List.mem_of_mem_erase h)))
    · rcases List.mem_append.mp h with h | h
      · exact hs.dead o (.inr (.inr h))
      · exact List.mem_singleton.mp h ▸ hcU

end

/-! ## Releasing references -/

/-- What `freeRef d` does with the first pending reference, for objects of rank
less than `d`. -/
def Releases (s₀ : JSRuntime) (ext : Ptr → ℕ) (A : List Ptr) (U : Finset Ptr) (d : ℕ) : Prop :=
  ∀ (c : Ptr) (pend : List Ptr) (F : Finset Ptr) (s : JSRuntime),
    Sweep s₀ ext A U F (c :: pend) s → c ∈ s₀.gcObjList → (s₀.obj c).gcObjType.rank < d →
    ∃ F', Progress s₀ F F' s (freeRef d s c) ∧ Sweep s₀ ext A U F' pend (freeRef d s c)

/-- Releasing a list of references one after the other. -/
theorem Releases.foldl {d : ℕ} (hd : Releases s₀ ext A U d) :
    ∀ (cs pend : List Ptr) (F : Finset Ptr) (s : JSRuntime),
      Sweep s₀ ext A U F (cs ++ pend) s →
      (∀ c ∈ cs, c ∈ s₀.gcObjList ∧ (s₀.obj c).gcObjType.rank < d) →
      ∃ F', Progress s₀ F F' s (cs.foldl (freeRef d) s) ∧
        Sweep s₀ ext A U F' pend (cs.foldl (freeRef d) s) := by
  intro cs
  induction cs with
  | nil => exact fun pend F s hs _ => ⟨F, Progress.refl s₀ F s, hs⟩
  | cons c cs ih =>
    intro pend F s hs hcs
    obtain ⟨hc, hrank⟩ := hcs c (List.mem_cons_self ..)
    obtain ⟨F₁, hp₁, hs₁⟩ := hd c (cs ++ pend) F s hs hc hrank
    obtain ⟨F₂, hp₂, hs₂⟩ := ih pend F₁ (freeRef d s c) hs₁
      fun o ho => hcs o (List.mem_cons_of_mem _ ho)
    exact ⟨F₂, hp₁.trans hp₂, hs₂⟩

section

variable (hp : Partition s₀ ext A U)

include hp

end

end

end QuickJs.Gc
