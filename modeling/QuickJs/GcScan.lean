import QuickJs.Gc

/-!
# Trial deletion and scan

The first two passes of `jsRunGC`. `gcDecref` leaves on every object the number
of its external references, and `gcScan` puts back exactly what those
references reach, with every count as it was.
-/

namespace QuickJs.Gc

open LinkedList RefGraph JSRuntime

/-! ## What the primitive updates do -/

/-- The reference count of `p`. -/
abbrev JSRuntime.rc (s : JSRuntime) (p : Ptr) : ℤ := (s.obj p).refCount

@[simp] theorem rc_moveToTmp (s : JSRuntime) (p o : Ptr) : (s.moveToTmp p).rc o = s.rc o := rfl

@[simp] theorem rc_moveToGc (s : JSRuntime) (p o : Ptr) : (s.moveToGc p).rc o = s.rc o := rfl

section

variable (s : JSRuntime) (p : Ptr)

include s p

@[simp] theorem obj_moveToTmp : (s.moveToTmp p).obj = s.obj := rfl

@[simp] theorem obj_moveToGc : (s.moveToGc p).obj = s.obj := rfl

end

/-- `s` and `t` hold the same references: counts, marks and lists aside, nothing
differs. -/
structure Frame (s t : JSRuntime) : Prop where
  fields : ∀ p, (t.obj p).fields = (s.obj p).fields
  payload : ∀ p, (t.obj p).payload = (s.obj p).payload
  gcObjType : ∀ p, (t.obj p).gcObjType = (s.obj p).gcObjType
  weak : t.weak = s.weak

theorem Frame.refl (s : JSRuntime) : Frame s s := ⟨fun _ => rfl, fun _ => rfl, fun _ => rfl, rfl⟩

variable {t s₀ : JSRuntime} {c x : Ptr} {rest : List Ptr} {ext : Ptr → ℕ}

theorem Frame.trans {s u : JSRuntime} (h : Frame s t) (h' : Frame t u) : Frame s u :=
  ⟨fun p => (h'.fields p).trans (h.fields p), fun p => (h'.payload p).trans (h.payload p),
   fun p => (h'.gcObjType p).trans (h.gcObjType p), h'.weak.trans h.weak⟩

theorem Frame.children {s : JSRuntime} (h : Frame s t) : t.children = s.children := by
  funext p
  simp only [JSRuntime.children, weakValues, h.fields, h.payload, h.weak]

section

variable (s : JSRuntime) (p o : Ptr) (n : ℤ) (m : ℕ)

theorem rc_setRefCount : (s.setRefCount p n).rc o = if o = p then n else s.rc o := by
  by_cases h : o = p <;> simp [rc, setRefCount, h]

theorem rc_setMark : (s.setMark p m).rc o = s.rc o := by
  by_cases h : o = p <;> simp [rc, setMark, h]

theorem mark_setRefCount : ((s.setRefCount p n).obj o).mark = (s.obj o).mark := by
  by_cases h : o = p <;> simp [setRefCount, h]

theorem mark_setMark : ((s.setMark p m).obj o).mark = if o = p then m else (s.obj o).mark := by
  by_cases h : o = p <;> simp [setMark, h]

theorem frame_setRefCount : Frame s (s.setRefCount p n) := by
  constructor <;> (try intro o; by_cases h : o = p) <;> simp [setRefCount, *]

theorem frame_moveToGc : Frame s (s.moveToGc p) :=
  ⟨fun _ => rfl, fun _ => rfl, fun _ => rfl, rfl⟩

theorem frame_setMark : Frame s (s.setMark p m) := by
  constructor <;> (try intro o; by_cases h : o = p) <;> simp [setMark, *]

end

theorem count_cons_int (c o : Ptr) (cs : List Ptr) :
    ((c :: cs).count o : ℤ) = ([c].count o : ℕ) + cs.count o := by
  rw [← List.singleton_append, List.count_append]
  rfl

/-! ## Well-formed heaps -/

/-- A root of the collection: an allocated object with an external reference. -/
def Root (s : JSRuntime) (ext : Ptr → ℕ) (o : Ptr) : Prop := o ∈ s.gcObjList ∧ 0 < ext o

/-- A heap as the mutator leaves it between two collections, when `ext` counts
the references from outside the heap. The last three fields are about the kinds
of objects: only values own class-specific references and weak records, the
other kinds reference objects of a smaller rank only and are freed by whoever
releases their last reference, so their count is positive. -/
structure WellFormed (s : JSRuntime) (ext : Ptr → ℕ) : Prop where
  nodup : s.gcObjList.Nodup
  closed : ∀ p ∈ s.gcObjList, ∀ o ∈ s.children p, o ∈ s.gcObjList
  counted : ∀ o ∈ s.gcObjList, s.rc o = ext o + refs s.children s.gcObjList.toFinset o
  mark : ∀ o ∈ s.gcObjList, (s.obj o).mark = 0
  zeroList : s.gcZeroRefCountList = []
  freed : s.freed = []
  weakMem : ∀ r ∈ s.weak, r.key ∈ s.gcObjList ∧ r.map ∈ s.gcObjList
  weakValue : ∀ r ∈ s.weak, (s.obj r.key).gcObjType.isValue ∧ (s.obj r.map).gcObjType.isValue ∧
    (s.obj r.value).gcObjType.isValue
  ranked : ∀ p ∈ s.gcObjList, (s.obj p).gcObjType.isValue = false → (s.obj p).payload = [] ∧
    ∀ o ∈ (s.obj p).fields, (s.obj o).gcObjType.rank < (s.obj p).gcObjType.rank
  positive : ∀ p ∈ s.gcObjList, (s.obj p).gcObjType.isValue = false → 0 < s.rc p

/-! ## Trial deletion -/

/-- The invariant of `gcDecref` at every point of the traversal: `tmpObjList`
holds the marked objects without references and `gcObjList` the others. -/
structure Trial (s₀ s : JSRuntime) : Prop where
  frame : Frame s₀ s
  gcNodup : s.gcObjList.Nodup
  tmpNodup : s.tmpObjList.Nodup
  mem_tmp : ∀ o, o ∈ s.tmpObjList ↔ o ∈ s₀.gcObjList ∧ s.rc o = 0 ∧ (s.obj o).mark = 1
  mem_gc : ∀ o, o ∈ s.gcObjList ↔ o ∈ s₀.gcObjList ∧ ¬(s.rc o = 0 ∧ (s.obj o).mark = 1)
  zeroList : s.gcZeroRefCountList = []
  freed : s.freed = []

/-- An object whose count and mark make it ready is moved aside. -/
theorem Trial.moveToTmp {s : JSRuntime} (hs : Trial s₀ s) (hc : c ∈ s.gcObjList)
    (ht : t = { s with obj := t.obj }) (hframe : Frame s t)
    (hobj : ∀ o, o ≠ c → t.rc o = s.rc o ∧ (t.obj o).mark = (s.obj o).mark)
    (hc0 : t.rc c = 0) (hc1 : (t.obj c).mark = 1) : Trial s₀ (t.moveToTmp c) := by
  have hc₀ : c ∈ s₀.gcObjList := ((hs.mem_gc c).mp hc).1
  have hctmp : c ∉ s.tmpObjList := fun h => ((hs.mem_gc c).mp hc).2 ((hs.mem_tmp c).mp h).2
  have htmp' : (t.moveToTmp c).tmpObjList = s.tmpObjList ++ [c] := by
    rw [ht]
    simp only [JSRuntime.moveToTmp, listDel, List.erase_of_not_mem hctmp]
  have hgc' : (t.moveToTmp c).gcObjList = s.gcObjList.erase c := by
    rw [ht]
    rfl
  refine ⟨?_, ?_, ?_, ?_, ?_, ?_, ?_⟩
  · exact hs.frame.trans ⟨hframe.fields, hframe.payload, hframe.gcObjType, hframe.weak⟩
  · rw [hgc']
    exact hs.gcNodup.erase c
  · rw [htmp', List.nodup_append]
    refine ⟨hs.tmpNodup, List.nodup_singleton c, fun a ha b hb h => hctmp ?_⟩
    rwa [← List.mem_singleton.mp hb, ← h]
  · intro o
    rw [htmp', List.mem_append, List.mem_singleton]
    by_cases ho : o = c
    · subst ho
      exact ⟨fun _ => ⟨hc₀, hc0, hc1⟩, fun _ => .inr rfl⟩
    · have h := hs.mem_tmp o
      rw [← (hobj o ho).1, ← (hobj o ho).2] at h
      simpa [ho] using h
  · intro o
    rw [hgc', hs.gcNodup.mem_erase_iff]
    by_cases ho : o = c
    · subst ho
      exact ⟨fun h => absurd rfl h.1, fun h => absurd ⟨hc0, hc1⟩ h.2⟩
    · have h := hs.mem_gc o
      rw [← (hobj o ho).1, ← (hobj o ho).2] at h
      simpa [ho] using h
  · have hz : (t.moveToTmp c).gcZeroRefCountList = s.gcZeroRefCountList.erase c := by
      rw [ht]
      rfl
    rw [hz, hs.zeroList, List.erase_nil]
  · have hf : (t.moveToTmp c).freed = s.freed := by
      rw [ht]
      rfl
    rw [hf, hs.freed]

/-- `gcDecrefChild` takes one reference off `c`. Only a marked object can leave
`gcObjList`. -/
theorem Trial.decref_child {s : JSRuntime} (hs : Trial s₀ s) (hc : c ∈ s₀.gcObjList) (hpos : 0 < s.rc c) :
    Trial s₀ (gcDecrefChild s c) ∧
    (∀ o, (gcDecrefChild s c).rc o = s.rc o - ([c].count o : ℕ)) ∧
    (∀ o, ((gcDecrefChild s c).obj o).mark = (s.obj o).mark) ∧
    ((gcDecrefChild s c).gcObjList = s.gcObjList ∨
      (s.obj c).mark = 1 ∧ (gcDecrefChild s c).gcObjList = s.gcObjList.erase c) := by
  have hgc : c ∈ s.gcObjList := (hs.mem_gc c).mpr ⟨hc, fun h => by omega⟩
  set t := s.setRefCount c ((s.obj c).refCount - 1) with ht
  have hrc : ∀ o, t.rc o = s.rc o - ([c].count o : ℕ) := by
    intro o
    rw [rc_setRefCount]
    by_cases h : o = c
    · simp [h]
    · simp [h, Ne.symm h]
  have hmark : ∀ o, (t.obj o).mark = (s.obj o).mark := fun o => mark_setRefCount s c o _
  have hframe : Frame s t := frame_setRefCount s c _
  by_cases hcond : t.rc c = 0 ∧ (t.obj c).mark = 1
  · have heq : gcDecrefChild s c = t.moveToTmp c := if_pos hcond
    rw [heq]
    refine ⟨hs.moveToTmp hgc rfl hframe (fun o ho => ⟨?_, hmark o⟩) hcond.1 hcond.2,
      hrc, hmark, .inr ⟨hmark c ▸ hcond.2, rfl⟩⟩
    rw [hrc]
    simp [Ne.symm ho]
  · have heq : gcDecrefChild s c = t := if_neg hcond
    rw [heq]
    -- an unmarked object, or one that keeps references, stays where it is
    have hcase : ∀ o, (t.rc o = 0 ∧ (t.obj o).mark = 1) ↔ (s.rc o = 0 ∧ (s.obj o).mark = 1) := by
      intro o
      by_cases ho : o = c
      · subst ho
        exact ⟨fun h => absurd h hcond, fun h => by omega⟩
      · have h := hrc o
        rw [List.count_singleton] at h
        simp only [beq_iff_eq, Ne.symm ho] at h
        rw [hmark o, h]
        simp
    refine ⟨⟨hs.frame.trans hframe, hs.gcNodup, hs.tmpNodup, fun o => ?_, fun o => ?_,
      hs.zeroList, hs.freed⟩, hrc, hmark, .inl rfl⟩
    · rw [hcase o]
      exact hs.mem_tmp o
    · rw [hcase o]
      exact hs.mem_gc o

/-- `mark_children` with `gcDecrefChild` takes one reference off every child. The
tail `rest` of objects that are not marked yet stays in place. -/
theorem Trial.decref_children : ∀ (cs : List Ptr) (s : JSRuntime) (kept : List Ptr), Trial s₀ s →
      (∀ c ∈ cs, c ∈ s₀.gcObjList) → (∀ o ∈ cs, (cs.count o : ℤ) ≤ s.rc o) →
      s.gcObjList = kept ++ rest → (∀ o ∈ rest, (s.obj o).mark = 0) →
      Trial s₀ (cs.foldl gcDecrefChild s) ∧
      (∀ o, (cs.foldl gcDecrefChild s).rc o = s.rc o - cs.count o) ∧
      (∀ o, ((cs.foldl gcDecrefChild s).obj o).mark = (s.obj o).mark) ∧
      ∃ kept', (∀ o ∈ kept', o ∈ kept) ∧ (cs.foldl gcDecrefChild s).gcObjList = kept' ++ rest := by
  intro cs
  induction cs with
  | nil =>
    intro s kept hs _ _ hgc _
    exact ⟨hs, fun o => by simp, fun _ => rfl, kept, fun _ h => h, hgc⟩
  | cons c cs ih =>
    intro s kept hs hmem hle hgc hrest
    have hpos : 0 < s.rc c := by
      have h := hle c (List.mem_cons_self ..)
      simp only [List.count_cons_self] at h
      omega
    obtain ⟨hs₁, hrc₁, hmark₁, hlist⟩ := hs.decref_child (hmem c (List.mem_cons_self ..)) hpos
    have hkept : ∃ kept₁, (∀ o ∈ kept₁, o ∈ kept) ∧ (gcDecrefChild s c).gcObjList = kept₁ ++ rest := by
      rcases hlist with h | ⟨hm, h⟩
      · exact ⟨kept, fun _ h => h, h.trans hgc⟩
      · have hc : c ∉ rest := fun hc => by
          rw [hrest c hc] at hm
          exact absurd hm (by decide)
        by_cases hck : c ∈ kept
        · refine ⟨kept.erase c, fun _ h => List.mem_of_mem_erase h, ?_⟩
          rw [h, hgc, List.erase_append_left rest hck]
        · refine ⟨kept, fun _ h => h, ?_⟩
          rw [h, hgc, List.erase_of_not_mem (by simp [hc, hck])]
    obtain ⟨kept₁, hsub₁, hgc₁⟩ := hkept
    obtain ⟨hs₂, hrc₂, hmark₂, kept₂, hsub₂, hgc₂⟩ :=
      ih (gcDecrefChild s c) kept₁ hs₁ (fun o ho => hmem o (List.mem_cons_of_mem _ ho))
        (fun o ho => by
          have h := hle o (List.mem_cons_of_mem _ ho)
          rw [count_cons_int] at h
          rw [hrc₁]
          omega) hgc₁
        (fun o ho => (hmark₁ o).trans (hrest o ho))
    refine ⟨hs₂, fun o => ?_, fun o => (hmark₂ o).trans (hmark₁ o), kept₂,
      fun o ho => hsub₁ o (hsub₂ o ho), hgc₂⟩
    rw [List.foldl_cons, hrc₂, hrc₁, count_cons_int c o cs]
    omega

/-- The state of `gcDecref` once the references of `seen` are subtracted. -/
structure TrialUpTo (s₀ : JSRuntime) (ext : Ptr → ℕ) (seen : List Ptr) (s : JSRuntime) : Prop
    extends Trial s₀ s where
  rc : ∀ o ∈ s₀.gcObjList,
    s.rc o = ext o + refs s₀.children (s₀.gcObjList.toFinset \ seen.toFinset) o
  mark : ∀ o ∈ s₀.gcObjList, (s.obj o).mark = if o ∈ seen then 1 else 0

/-- One turn of the loop of `gcDecref`. -/
theorem TrialUpTo.decref_body {s : JSRuntime} {seen kept : List Ptr}
    (hwf : WellFormed s₀ ext) (hs : TrialUpTo s₀ ext seen s)
    (hgc : s.gcObjList = kept ++ x :: rest) (hnd : (seen ++ x :: rest).Nodup)
    (hkept : ∀ o ∈ kept, o ∈ seen) :
    TrialUpTo s₀ ext (seen ++ [x]) (gcDecrefBody s x) ∧
      ∃ kept', (∀ o ∈ kept', o ∈ seen ++ [x]) ∧ (gcDecrefBody s x).gcObjList = kept' ++ rest := by
  have hx : x ∈ s.gcObjList := by simp [hgc]
  have hx₀ : x ∈ s₀.gcObjList := ((hs.mem_gc x).mp hx).1
  have hxs : x ∉ seen := fun h =>
    (List.disjoint_of_nodup_append hnd) h (List.mem_cons_self ..)
  have hxmem : x ∈ s₀.gcObjList.toFinset \ seen.toFinset := by simp [hx₀, hxs]
  have hunseen : ∀ o ∈ x :: rest, (s.obj o).mark = 0 := by
    intro o ho
    have hog : o ∈ s.gcObjList := by rw [hgc]; exact List.mem_append_right _ ho
    rw [hs.mark o ((hs.mem_gc o).mp hog).1, if_neg fun h =>
      (List.disjoint_of_nodup_append hnd) h ho]
  have hmem : ∀ o ∈ s.children x, o ∈ s₀.gcObjList := fun o ho =>
    hwf.closed x hx₀ o (hs.frame.children ▸ ho)
  have hle : ∀ o ∈ s.children x, ((s.children x).count o : ℤ) ≤ s.rc o := by
    intro o ho
    rw [hs.rc o (hmem o ho), hs.frame.children]
    have h := refs_nonneg (E := s₀.children)
      (S := (s₀.gcObjList.toFinset \ seen.toFinset).erase x) (o := o)
    rw [refs_erase hxmem] at h
    omega
  have hspec := Trial.decref_children (s.children x) s kept hs.toTrial hmem hle hgc hunseen
  change Trial s₀ (markChildren s x gcDecrefChild) ∧ (∀ o, (markChildren s x gcDecrefChild).rc o = _) ∧
    (∀ o, ((markChildren s x gcDecrefChild).obj o).mark = _) ∧
    ∃ kept', _ ∧ (markChildren s x gcDecrefChild).gcObjList = _ at hspec
  set t := markChildren s x gcDecrefChild
  obtain ⟨ht, hrct, hmarkt, kept', hsub, hgct⟩ := hspec
  have hrc : ∀ o ∈ s₀.gcObjList, t.rc o =
      ext o + refs s₀.children (s₀.gcObjList.toFinset \ (seen ++ [x]).toFinset) o := by
    intro o ho
    have hset : s₀.gcObjList.toFinset \ (seen ++ [x]).toFinset =
        (s₀.gcObjList.toFinset \ seen.toFinset).erase x := by
      ext y
      simp only [List.toFinset_append, List.toFinset_cons, List.toFinset_nil]
      grind
    rw [hset, refs_erase hxmem]
    have h := hrct o
    rw [hs.rc o ho, hs.frame.children] at h
    omega
  have hmark : ∀ o ∈ s₀.gcObjList,
      ((t.setMark x 1).obj o).mark = if o ∈ seen ++ [x] then 1 else 0 := by
    intro o ho
    rw [mark_setMark, hmarkt o, hs.mark o ho]
    by_cases h : o = x <;> simp [h]
  have hsub' : ∀ o ∈ kept', o ∈ seen ++ [x] := fun o ho =>
    List.mem_append_left _ (hkept o (hsub o ho))
  have hxt : x ∈ t.gcObjList := by simp [hgct]
  have hxk : x ∉ kept' := fun h => hxs (hkept x (hsub x h))
  have hframe := frame_setMark t x 1
  have hbody : gcDecrefBody s x = if (t.setMark x 1).rc x = 0 then (t.setMark x 1).moveToTmp x
      else t.setMark x 1 := rfl
  rw [hbody]
  by_cases hzero : (t.setMark x 1).rc x = 0
  · rw [if_pos hzero]
    have hmove := ht.moveToTmp (t := t.setMark x 1) hxt rfl hframe
      (fun o ho => ⟨rc_setMark t x o 1, by rw [mark_setMark, if_neg ho]⟩) hzero
      (by rw [mark_setMark, if_pos rfl])
    refine ⟨⟨hmove, fun o ho => (rc_setMark t x o 1).trans (hrc o ho), hmark⟩, kept', hsub', ?_⟩
    have herase : ((t.setMark x 1).moveToTmp x).gcObjList = t.gcObjList.erase x := rfl
    rw [herase, hgct, List.erase_append_right _ hxk, List.erase_cons_head]
  · rw [if_neg hzero]
    have hcase : ∀ o, ((t.setMark x 1).rc o = 0 ∧ ((t.setMark x 1).obj o).mark = 1) ↔
        (t.rc o = 0 ∧ (t.obj o).mark = 1) := by
      intro o
      rw [rc_setMark] at hzero ⊢
      rw [mark_setMark]
      by_cases h : o = x
      · subst h
        exact ⟨fun h => absurd h.1 hzero, fun h => absurd h.1 hzero⟩
      · rw [if_neg h]
    refine ⟨⟨⟨ht.frame.trans hframe, ht.gcNodup, ht.tmpNodup, fun o => ?_, fun o => ?_,
      ht.zeroList, ht.freed⟩, fun o ho => (rc_setMark t x o 1).trans (hrc o ho), hmark⟩,
      kept' ++ [x], ?_, ?_⟩
    · rw [hcase o]
      exact ht.mem_tmp o
    · rw [hcase o]
      exact ht.mem_gc o
    · intro o ho
      rcases List.mem_append.mp ho with ho | ho
      · exact hsub' o ho
      · exact List.mem_append_right _ ho
    · rw [List.append_assoc]
      exact hgct

/-- `gcDecref` leaves the external references on every object. -/
theorem gcDecref_spec (hwf : WellFormed s₀ ext) : TrialUpTo s₀ ext s₀.gcObjList (gcDecref s₀) := by
  have hinit : TrialUpTo s₀ ext [] { s₀ with tmpObjList := [] } := by
    refine ⟨⟨⟨fun _ => rfl, fun _ => rfl, fun _ => rfl, rfl⟩, hwf.nodup, List.nodup_nil,
      fun o => ?_, fun o => ?_, hwf.zeroList, hwf.freed⟩, fun o ho => ?_, fun o ho => ?_⟩
    · refine ⟨fun h => absurd h List.not_mem_nil, fun ⟨ho, _, hm⟩ => ?_⟩
      rw [hwf.mark o ho] at hm
      exact absurd hm (by decide)
    · refine ⟨fun ho => ⟨ho, fun h => ?_⟩, fun h => h.1⟩
      have hm := hwf.mark o ho
      rw [h.2] at hm
      exact absurd hm (by decide)
    · have h := hwf.counted o ho
      simpa using h
    · simpa using hwf.mark o ho
  have h := forEachSafe_rule gcObjList gcDecrefBody
    (I := TrialUpTo s₀ ext)
    (fun seen x rest kept s hI hgc hnd hkept => hI.decref_body hwf hgc hnd hkept)
    s₀.gcObjList [] [] s₀.gcObjList.length _ hinit rfl hwf.nodup
    (fun _ h => absurd h List.not_mem_nil) (le_refl _)
  exact h

/-! ## Scan -/

/-- The invariant of the first loop of `gcScan`: `tmpObjList` holds the objects
without references, everything else is linked in `gcObjList` and reachable. -/
structure Scan (s₀ : JSRuntime) (ext : Ptr → ℕ) (s : JSRuntime) : Prop where
  frame : Frame s₀ s
  gcNodup : s.gcObjList.Nodup
  tmpNodup : s.tmpObjList.Nodup
  mem_tmp : ∀ o, o ∈ s.tmpObjList ↔ o ∈ s₀.gcObjList ∧ s.rc o = 0
  mem_gc : ∀ o, o ∈ s.gcObjList ↔ o ∈ s₀.gcObjList ∧ s.rc o ≠ 0
  nonneg : ∀ o ∈ s₀.gcObjList, 0 ≤ s.rc o
  reach : ∀ o ∈ s.gcObjList, Reachable s₀.children (Root s₀ ext) o
  zeroList : s.gcZeroRefCountList = []
  freed : s.freed = []

/-- `gcScanIncrefChild` gives one reference back to a reachable object. -/
theorem Scan.incref_child {s : JSRuntime} (hs : Scan s₀ ext s)
    (hc : c ∈ s₀.gcObjList) (hreach : Reachable s₀.children (Root s₀ ext) c) :
    Scan s₀ ext (gcScanIncrefChild s c) ∧
    (∀ o, (gcScanIncrefChild s c).rc o = s.rc o + ([c].count o : ℕ)) ∧
    (∀ o, (s.obj o).mark = 0 → ((gcScanIncrefChild s c).obj o).mark = 0) ∧
    ∃ new, (gcScanIncrefChild s c).gcObjList = s.gcObjList ++ new := by
  set t := s.setRefCount c ((s.obj c).refCount + 1) with ht
  have hrc : ∀ o, t.rc o = s.rc o + ([c].count o : ℕ) := by
    intro o
    rw [rc_setRefCount]
    by_cases h : o = c
    · simp [h]
    · simp [h, Ne.symm h]
  have hrcc : t.rc c = s.rc c + 1 := by simpa using hrc c
  have hrco : ∀ o, o ≠ c → t.rc o = s.rc o := fun o ho => by
    have h := hrc o
    simpa [Ne.symm ho] using h
  have hmark : ∀ o, (t.obj o).mark = (s.obj o).mark := fun o => mark_setRefCount s c o _
  have hframe : Frame s t := frame_setRefCount s c _
  have hpos := hs.nonneg c hc
  by_cases hone : t.rc c = 1
  · -- the count was zero, so `c` was set aside
    have heq : gcScanIncrefChild s c = (t.moveToGc c).setMark c 0 := if_pos hone
    have hzero : s.rc c = 0 := by omega
    have hnot : c ∉ s.gcObjList := fun h => ((hs.mem_gc c).mp h).2 hzero
    have hgc : ((t.moveToGc c).setMark c 0).gcObjList = s.gcObjList ++ [c] := by
      have h : ((t.moveToGc c).setMark c 0).gcObjList = s.gcObjList.erase c ++ [c] := rfl
      rw [h, List.erase_of_not_mem hnot]
    have hrc' : ∀ o, ((t.moveToGc c).setMark c 0).rc o = t.rc o := fun o => rc_setMark _ c o 0
    rw [heq]
    refine ⟨⟨?_, ?_, hs.tmpNodup.erase c, fun o => ?_, fun o => ?_, fun o ho => ?_, ?_, ?_,
      hs.freed⟩, fun o => (hrc' o).trans (hrc o), fun o ho => ?_, [c], hgc⟩
    · exact ((hs.frame.trans hframe).trans (frame_moveToGc t c)).trans
        (frame_setMark (t.moveToGc c) c 0)
    · rw [hgc, List.nodup_append]
      refine ⟨hs.gcNodup, List.nodup_singleton c, fun a ha b hb h => hnot ?_⟩
      rwa [← List.mem_singleton.mp hb, ← h]
    · have h : ((t.moveToGc c).setMark c 0).tmpObjList = s.tmpObjList.erase c := rfl
      rw [h, hs.tmpNodup.mem_erase_iff, hrc', hs.mem_tmp o]
      by_cases ho : o = c
      · subst ho
        exact ⟨fun h => absurd rfl h.1, fun h => by omega⟩
      · simp [ho, hrco o ho]
    · rw [hgc, List.mem_append, List.mem_singleton, hrc', hs.mem_gc o]
      by_cases ho : o = c
      · subst ho
        exact ⟨fun _ => ⟨hc, by omega⟩, fun _ => .inr rfl⟩
      · simp [ho, hrco o ho]
    · rw [hrc', hrc]
      have := hs.nonneg o ho
      omega
    · intro o ho
      rw [hgc, List.mem_append, List.mem_singleton] at ho
      rcases ho with ho | rfl
      · exact hs.reach o ho
      · exact hreach
    · have h : ((t.moveToGc c).setMark c 0).gcZeroRefCountList = s.gcZeroRefCountList.erase c := rfl
      rw [h, hs.zeroList, List.erase_nil]
    · rw [mark_setMark]
      by_cases h : o = c
      · rw [if_pos h]
      · rw [if_neg h]
        exact (hmark o).trans ho
  · have heq : gcScanIncrefChild s c = t := if_neg hone
    have hcase : ∀ o, t.rc o = 0 ↔ s.rc o = 0 := by
      intro o
      by_cases ho : o = c
      · subst ho
        omega
      · rw [hrco o ho]
    rw [heq]
    refine ⟨⟨hs.frame.trans hframe, hs.gcNodup, hs.tmpNodup, fun o => ?_, fun o => ?_,
      fun o ho => ?_, hs.reach, hs.zeroList, hs.freed⟩, hrc, fun o ho => (hmark o).trans ho,
      [], (List.append_nil _).symm⟩
    · rw [hcase o]
      exact hs.mem_tmp o
    · rw [Ne, hcase o]
      exact hs.mem_gc o
    · rw [hrc]
      have := hs.nonneg o ho
      omega

/-- `mark_children` with `gcScanIncrefChild` gives the references of a reachable
object back. -/
theorem Scan.incref_children :
    ∀ (cs : List Ptr) (s : JSRuntime), Scan s₀ ext s → (∀ c ∈ cs, c ∈ s₀.gcObjList) →
      (∀ c ∈ cs, Reachable s₀.children (Root s₀ ext) c) →
      Scan s₀ ext (cs.foldl gcScanIncrefChild s) ∧
      (∀ o, (cs.foldl gcScanIncrefChild s).rc o = s.rc o + cs.count o) ∧
      (∀ o, (s.obj o).mark = 0 → ((cs.foldl gcScanIncrefChild s).obj o).mark = 0) ∧
      ∃ new, (cs.foldl gcScanIncrefChild s).gcObjList = s.gcObjList ++ new := by
  intro cs
  induction cs with
  | nil => exact fun s hs _ _ => ⟨hs, fun o => by simp, fun _ h => h, [], by simp⟩
  | cons c cs ih =>
    intro s hs hmem hreach
    obtain ⟨hs₁, hrc₁, hmark₁, new₁, hgc₁⟩ :=
      hs.incref_child (hmem c (List.mem_cons_self ..)) (hreach c (List.mem_cons_self ..))
    obtain ⟨hs₂, hrc₂, hmark₂, new₂, hgc₂⟩ := ih (gcScanIncrefChild s c) hs₁
      (fun o ho => hmem o (List.mem_cons_of_mem _ ho))
      (fun o ho => hreach o (List.mem_cons_of_mem _ ho))
    refine ⟨hs₂, fun o => ?_, fun o ho => hmark₂ o (hmark₁ o ho), new₁ ++ new₂, ?_⟩
    · rw [List.foldl_cons, hrc₂, hrc₁, count_cons_int c o cs]
      omega
    · rw [List.foldl_cons, hgc₂, hgc₁, List.append_assoc]

/-- The state of the first loop of `gcScan` once the references of `done` are
given back. -/
structure ScanUpTo (s₀ : JSRuntime) (ext : Ptr → ℕ) (done : List Ptr) (s : JSRuntime) : Prop
    extends Scan s₀ ext s where
  rc : ∀ o ∈ s₀.gcObjList, s.rc o = ext o + refs s₀.children done.toFinset o
  mark : ∀ o ∈ done, (s.obj o).mark = 0

/-- One turn of the first loop of `gcScan`. -/
theorem ScanUpTo.scan_body {s : JSRuntime} {done : List Ptr}
    (hwf : WellFormed s₀ ext) (hs : ScanUpTo s₀ ext done s)
    (hgc : s.gcObjList = done ++ x :: rest) :
    ScanUpTo s₀ ext (done ++ [x]) (gcScanBody s x) ∧
      ∃ rest', (gcScanBody s x).gcObjList = done ++ x :: rest' := by
  have hx : x ∈ s.gcObjList := by simp [hgc]
  have hx₀ : x ∈ s₀.gcObjList := ((hs.mem_gc x).mp hx).1
  have hxd : x ∉ done := by
    have hnd := hs.gcNodup
    rw [hgc] at hnd
    exact fun h => (List.disjoint_of_nodup_append hnd) h (List.mem_cons_self ..)
  set t := s.setMark x 0
  have hframe : Frame s t := frame_setMark s x 0
  have hrct : ∀ o, t.rc o = s.rc o := fun o => rc_setMark s x o 0
  have ht : Scan s₀ ext t := by
    refine ⟨hs.frame.trans hframe, hs.gcNodup, hs.tmpNodup, fun o => ?_, fun o => ?_,
      fun o ho => ?_, hs.reach, hs.zeroList, hs.freed⟩
    · rw [hrct]
      exact hs.mem_tmp o
    · rw [hrct]
      exact hs.mem_gc o
    · rw [hrct]
      exact hs.nonneg o ho
  have hchildren : t.children = s₀.children := ht.frame.children
  have hspec := Scan.incref_children (t.children x) t ht
    (fun o ho => hwf.closed x hx₀ o (hchildren ▸ ho))
    (fun o ho => (hs.reach x hx).step (hchildren ▸ ho))
  obtain ⟨hu, hrcu, hmarku, new, hgcu⟩ := hspec
  refine ⟨⟨hu, fun o ho => ?_, fun o ho => hmarku o ?_⟩, rest ++ new, ?_⟩
  · have hset : (done ++ [x]).toFinset = insert x done.toFinset := by
      simp
    rw [hset, refs_insert (by simpa using hxd)]
    refine (hrcu o).trans ?_
    rw [hrct, hs.rc o ho, hchildren]
    omega
  · rw [mark_setMark]
    by_cases h : o = x
    · rw [if_pos h]
    · rw [if_neg h]
      rcases List.mem_append.mp ho with ho | ho
      · exact hs.mark o ho
      · exact absurd (List.mem_singleton.mp ho) h
  · have hgct : t.gcObjList = done ++ x :: rest := hgc
    refine hgcu.trans ?_
    rw [hgct]
    simp

/-- `mark_children` with `gcScanIncrefChild2` only moves counts. -/
theorem foldl_gcScanIncrefChild2 : ∀ (cs : List Ptr) (s : JSRuntime),
      Frame s (cs.foldl gcScanIncrefChild2 s) ∧
      (∀ o, (cs.foldl gcScanIncrefChild2 s).rc o = s.rc o + cs.count o) ∧
      (∀ o, ((cs.foldl gcScanIncrefChild2 s).obj o).mark = (s.obj o).mark) ∧
      cs.foldl gcScanIncrefChild2 s = { s with obj := (cs.foldl gcScanIncrefChild2 s).obj } := by
  intro cs
  induction cs with
  | nil => exact fun s => ⟨Frame.refl s, fun o => by simp, fun _ => rfl, rfl⟩
  | cons c cs ih =>
    intro s
    obtain ⟨hf, hrc, hmark, heq⟩ := ih (gcScanIncrefChild2 s c)
    refine ⟨(frame_setRefCount s c _).trans hf, fun o => ?_,
      fun o => (hmark o).trans (mark_setRefCount s c o _), heq⟩
    rw [List.foldl_cons, hrc, gcScanIncrefChild2, rc_setRefCount]
    by_cases h : o = c
    · simp [h, rc]
      omega
    · simp [h, Ne.symm h]

/-- What `gcScan` leaves: the counts of before the collection, the reachable
objects in `gcObjList` with a clear mark, the others in `tmpObjList`. -/
structure Scanned (s₀ : JSRuntime) (ext : Ptr → ℕ) (s : JSRuntime) : Prop where
  frame : Frame s₀ s
  tmpNodup : s.tmpObjList.Nodup
  rc : ∀ o ∈ s₀.gcObjList, s.rc o = s₀.rc o
  mem_gc : ∀ o, o ∈ s.gcObjList ↔ Reachable s₀.children (Root s₀ ext) o
  mem_tmp : ∀ o, o ∈ s.tmpObjList ↔ o ∈ s₀.gcObjList ∧ ¬Reachable s₀.children (Root s₀ ext) o
  mark : ∀ o ∈ s.gcObjList, (s.obj o).mark = 0
  zeroList : s.gcZeroRefCountList = []
  freed : s.freed = []

/-- After trial deletion the first loop of `gcScan` can start. -/
theorem ScanUpTo.init {s : JSRuntime} (hs : TrialUpTo s₀ ext s₀.gcObjList s) : ScanUpTo s₀ ext [] s := by
  have hrc : ∀ o ∈ s₀.gcObjList, s.rc o = ext o := fun o ho => by
    have h := hs.rc o ho
    rwa [Finset.sdiff_self, refs_empty, add_zero] at h
  have hmark : ∀ o ∈ s₀.gcObjList, (s.obj o).mark = 1 := fun o ho => by
    rw [hs.mark o ho, if_pos ho]
  refine ⟨⟨hs.frame, hs.gcNodup, hs.tmpNodup, fun o => ?_, fun o => ?_, fun o ho => ?_,
    fun o ho => ?_, hs.zeroList, hs.freed⟩, fun o ho => ?_, fun _ h => absurd h List.not_mem_nil⟩
  · rw [hs.mem_tmp o]
    exact ⟨fun h => ⟨h.1, h.2.1⟩, fun h => ⟨h.1, h.2, hmark o h.1⟩⟩
  · rw [hs.mem_gc o]
    exact ⟨fun h => ⟨h.1, fun hz => h.2 ⟨hz, hmark o h.1⟩⟩, fun h => ⟨h.1, fun hz => h.2 hz.1⟩⟩
  · rw [hrc o ho]
    omega
  · obtain ⟨ho₀, hne⟩ := (hs.mem_gc o).mp ho
    have h : s.rc o ≠ 0 := fun hz => hne ⟨hz, hmark o ho₀⟩
    rw [hrc o ho₀] at h
    exact Reachable.root ⟨ho₀, by omega⟩
  · simp [hrc o ho]

/-- The first loop of `gcScan` ends with the reachable objects, and no others, in
`gcObjList`. -/
theorem scan_loop {s : JSRuntime} (hwf : WellFormed s₀ ext)
    (hs : ScanUpTo s₀ ext [] s) {n : ℕ} (hn : s₀.gcObjList.length ≤ n) :
    ScanUpTo s₀ ext (forEach gcObjList gcScanBody n s.gcObjList.head? s).gcObjList
      (forEach gcObjList gcScanBody n s.gcObjList.head? s) := by
  refine forEach_rule _ _ s₀.gcObjList.length (I := ScanUpTo s₀ ext)
    (fun done x rest s hI hgc => hI.scan_body hwf hgc) (fun _ _ hI => hI.gcNodup)
    (fun _ s hI => ?_) n [] s.gcObjList s hs rfl (by simpa using hn)
  exact (hI.gcNodup.subperm fun o ho => ((hI.mem_gc o).mp ho).1).length_le

/-- The objects in `gcObjList` after the first loop are the reachable ones. -/
theorem ScanUpTo.mem_gc_iff {s : JSRuntime} (hwf : WellFormed s₀ ext)
    (hs : ScanUpTo s₀ ext s.gcObjList s) (o : Ptr) :
    o ∈ s.gcObjList ↔ Reachable s₀.children (Root s₀ ext) o := by
  refine mem_iff_reachable (A := (· ∈ s.gcObjList)) (fun r hr => ?_) (fun p c hp hc => ?_)
    hs.reach o
  · have h := hs.rc r hr.1
    have hnonneg := refs_nonneg (E := s₀.children) (S := s.gcObjList.toFinset) (o := r)
    have hpos := hr.2
    exact (hs.mem_gc r).mpr ⟨hr.1, by omega⟩
  · have hc₀ := hwf.closed p ((hs.mem_gc p).mp hp).1 c hc
    have hpos := refs_pos (E := s₀.children) (List.mem_toFinset.mpr hp) hc
    have h := hs.rc c hc₀
    exact (hs.mem_gc c).mpr ⟨hc₀, by omega⟩

/-- The state of the second loop of `gcScan`, started at `t`, once the references
of `done` are given back. -/
structure Restored (s₀ t : JSRuntime) (done : List Ptr) (s : JSRuntime) : Prop where
  frame : Frame s₀ s
  lists : s = { t with obj := s.obj }
  rc : ∀ o, s.rc o = t.rc o + refs s₀.children done.toFinset o
  mark : ∀ o, (s.obj o).mark = (t.obj o).mark

/-- One turn of the second loop of `gcScan`. -/
theorem Restored.scan_body2 {s : JSRuntime} {done : List Ptr}
    (hnd : t.tmpObjList.Nodup) (hs : Restored s₀ t done s)
    (htmp : s.tmpObjList = done ++ x :: rest) :
    Restored s₀ t (done ++ [x]) (gcScanBody2 s x) ∧
      ∃ rest', (gcScanBody2 s x).tmpObjList = done ++ x :: rest' := by
  obtain ⟨hf, hrc, hmark, heq⟩ := foldl_gcScanIncrefChild2 (s.children x) s
  have hxd : x ∉ done := by
    have h : t.tmpObjList = done ++ x :: rest := by
      rw [← htmp, hs.lists]
    rw [h] at hnd
    exact fun h => (List.disjoint_of_nodup_append hnd) h (List.mem_cons_self ..)
  have hset : (done ++ [x]).toFinset = insert x done.toFinset := by
    simp
  change gcScanBody2 s x = { s with obj := (gcScanBody2 s x).obj } at heq
  have htmp' : (gcScanBody2 s x).tmpObjList = s.tmpObjList := by rw [heq]
  refine ⟨⟨hs.frame.trans hf, ?_, fun o => ?_, fun o => (hmark o).trans (hs.mark o)⟩, rest, htmp'.trans htmp⟩
  · refine heq.trans ?_
    rw [hs.lists]
  · rw [hset, refs_insert (by simpa using hxd)]
    refine (hrc o).trans ?_
    rw [hs.rc o, hs.frame.children]
    omega

/-- `gcScan` keeps what is reachable and restores every count. -/
theorem gcScan_spec {s : JSRuntime} (hwf : WellFormed s₀ ext)
    (hs : TrialUpTo s₀ ext s₀.gcObjList s) : Scanned s₀ ext (gcScan s) := by
  have hlen : s₀.gcObjList.length ≤ s.gcObjList.length + s.tmpObjList.length := by
    rw [← List.length_append]
    refine (hwf.nodup.subperm fun o ho => ?_).length_le
    rw [List.mem_append, hs.mem_gc o, hs.mem_tmp o]
    tauto
  have h₁ := scan_loop hwf (ScanUpTo.init hs) hlen
  set t := forEach gcObjList gcScanBody (s.gcObjList.length + s.tmpObjList.length)
    s.gcObjList.head? s
  have hgc := ScanUpTo.mem_gc_iff hwf h₁
  have h₂ := forEach_rule tmpObjList gcScanBody2 t.tmpObjList.length
    (I := Restored s₀ t)
    (fun done x rest s hI htmp => hI.scan_body2 h₁.tmpNodup htmp)
    (fun _ s hI => by rw [hI.lists]; exact h₁.tmpNodup)
    (fun _ s hI => by rw [hI.lists]) t.tmpObjList.length [] t.tmpObjList t
    ⟨h₁.frame, rfl, fun o => by simp, fun _ => rfl⟩ rfl (by simp)
  have hdef : gcScan s = forEach tmpObjList gcScanBody2 t.tmpObjList.length
    t.tmpObjList.head? t := rfl
  rw [← hdef] at h₂
  have htmpList : (gcScan s).tmpObjList = t.tmpObjList := by rw [h₂.lists]
  have hgcList : (gcScan s).gcObjList = t.gcObjList := by rw [h₂.lists]
  refine ⟨h₂.frame, by rw [htmpList]; exact h₁.tmpNodup, fun o ho => ?_, fun o => ?_, fun o => ?_,
    fun o ho => ?_, by rw [h₂.lists]; exact h₁.zeroList, by rw [h₂.lists]; exact h₁.freed⟩
  · -- the two loops together gave back the references of every object
    have hset : t.gcObjList.toFinset = s₀.gcObjList.toFinset \ t.tmpObjList.toFinset := by
      ext y
      simp only [List.mem_toFinset, Finset.mem_sdiff, h₁.mem_gc y, h₁.mem_tmp y]
      tauto
    have hsub : t.tmpObjList.toFinset ⊆ s₀.gcObjList.toFinset := fun y hy => by
      rw [List.mem_toFinset] at hy ⊢
      exact ((h₁.mem_tmp y).mp hy).1
    have hrc := h₁.rc o ho
    rw [hset, refs_sdiff hsub] at hrc
    rw [h₂.rc o, htmpList, hwf.counted o ho]
    omega
  · rw [hgcList]
    exact hgc o
  · rw [htmpList, h₁.mem_tmp o, ← hgc o, h₁.mem_gc o]
    tauto
  · rw [hgcList] at ho
    rw [h₂.mark o]
    exact h₁.mark o ho

end QuickJs.Gc
