import QuickJs.WeakCollection

/-!
# Releasing references

The count of an object is the number of references to it, and a record holds its value once, whatever
is released. Apart from the counts, a release changes at most which objects are to be freed.
-/

namespace QuickJs.Weak

variable {s t u : State} {e : Holder × ℕ} {es : List (Holder × ℕ)} {h : Holder} {o p q r : ℕ}
  {v : Option ℕ} {rs rs' : List ℕ}

/-! ## The counts -/

/-- The objects to free are those that nothing refers to. -/
structure State.ZeroList (s : State) : Prop where
  nodup : s.phase ≠ .removeCycles → s.gcZeroRefCountList.Nodup
  mem : s.phase ≠ .removeCycles → ∀ o, o ∈ s.gcZeroRefCountList ↔ (s.object o).isSome ∧ s.refCount o = 0
  idle : s.phase = .none → s.gcZeroRefCountList = []

/-- The counts are right. -/
structure State.Counted (s : State) : Prop where
  count : ∀ o, s.refCount o = s.count o
  target : ∀ h o, (h, o) ∈ s.refs → (s.object o).isSome
  zero : s.ZeroList

/-- A record holds its value, and a record that has been freed holds none. -/
def State.Values (s : State) : Prop :=
  ∀ r o, s.refs.count (.record r, o) = if s.value r = some o then 1 else 0

/-- What a release leaves alone, apart from the objects and the records. -/
structure Released (s t : State) : Prop where
  nextObject : t.nextObject = s.nextObject
  nextRecord : t.nextRecord = s.nextRecord
  tmpObjList : t.tmpObjList = s.tmpObjList
  pending : t.pending = s.pending
  refs : t.refs.Sublist s.refs
  removeCycles : t.phase = .removeCycles ↔ s.phase = .removeCycles
  idle : t.phase = .none → s.phase = .none
  gcZeroRefCountList : s.phase = .removeCycles → t.gcZeroRefCountList = s.gcZeroRefCountList

@[refl]
theorem Released.refl (s : State) : Released s s :=
  ⟨rfl, rfl, rfl, rfl, .refl _, .rfl, id, fun _ => rfl⟩

theorem Released.trans (h : Released s t) (h' : Released t u) : Released s u where
  nextObject := h'.nextObject.trans h.nextObject
  nextRecord := h'.nextRecord.trans h.nextRecord
  tmpObjList := h'.tmpObjList.trans h.tmpObjList
  pending := h'.pending.trans h.pending
  refs := h'.refs.trans h.refs
  removeCycles := h'.removeCycles.trans h.removeCycles
  idle hu := h.idle (h'.idle hu)
  gcZeroRefCountList hs :=
    (h'.gcZeroRefCountList (h.removeCycles.mpr hs)).trans (h.gcZeroRefCountList hs)

theorem Released.count_le (h : Released s t) : t.count o ≤ s.count o := h.refs.countP_le

/-! ## One release -/

@[simp]
theorem release_object : (s.release e).object = s.object := by
  unfold State.release
  dsimp only
  split <;> rfl

@[simp]
theorem release_record : (s.release e).record = s.record := by
  unfold State.release
  dsimp only
  split <;> rfl

@[simp]
theorem release_refs : (s.release e).refs = s.refs.erase e := by
  unfold State.release
  dsimp only
  split <;> rfl

@[simp]
theorem release_refCount : (s.release e).refCount = (s.addCount e.2 (-1)).refCount := by
  unfold State.release
  dsimp only
  split <;> rfl

theorem released_release : Released s (s.release e) := by
  unfold State.release
  dsimp only
  split
  · rename_i hzero
    refine ⟨rfl, rfl, rfl, rfl, List.erase_sublist, ?_, nofun, fun hs => absurd hs hzero.2⟩
    exact iff_of_false nofun hzero.2
  · exact ⟨rfl, rfl, rfl, rfl, List.erase_sublist, .rfl, id, fun _ => rfl⟩

theorem count_release (he : e ∈ s.refs) :
    ((s.release e).count o : ℤ) = if o = e.2 then (s.count o : ℤ) - 1 else s.count o := by
  rw [State.count, release_refs, List.countP_erase, State.count]
  by_cases ho : o = e.2
  · have hpos : 0 < s.refs.countP (·.2 = o) :=
      List.countP_pos_iff.mpr ⟨e, he, decide_eq_true ho.symm⟩
    rw [if_pos ⟨he, decide_eq_true ho.symm⟩]
    omega
  · rw [if_neg fun hin => ho (of_decide_eq_true hin.2).symm, if_neg ho, Nat.sub_zero]

/-- The object whose count reaches zero has not been in the list of those to free. -/
theorem State.ZeroList.release (hs : s.ZeroList) (htarget : (s.object e.2).isSome)
    (hpos : 0 < s.refCount e.2) : (s.release e).ZeroList := by
  have hlist (hphase : s.phase ≠ .removeCycles) : e.2 ∉ s.gcZeroRefCountList := by
    rw [hs.mem hphase]
    exact fun hin => hpos.ne' hin.2
  unfold State.release
  dsimp only
  split
  · rename_i hzero
    refine ⟨fun _ => List.nodup_cons.mpr ⟨hlist hzero.2, hs.nodup hzero.2⟩, fun _ o => ?_, nofun⟩
    refine (List.mem_cons.trans (or_congr_right (hs.mem hzero.2 o))).trans ?_
    by_cases ho : o = e.2
    · subst ho
      exact iff_of_true (.inl rfl) ⟨htarget, hzero.1⟩
    · dsimp only [State.addCount]
      rw [if_neg ho, or_iff_right ho]
  · rename_i hzero
    refine ⟨hs.nodup, fun hphase o => ?_, hs.idle⟩
    refine (hs.mem hphase o).trans (and_congr_right fun _ => ?_)
    by_cases ho : o = e.2
    · subst ho
      exact iff_of_false hpos.ne' fun h0 => hzero ⟨h0, hphase⟩
    · dsimp only [State.addCount]
      rw [if_neg ho]

section

variable (hs : s.Counted)

include hs

/-- The release of a reference keeps the counts right. -/
theorem State.Counted.release (he : e ∈ s.refs) : (s.release e).Counted := by
  have hpos : 0 < s.refCount e.2 := by
    rw [hs.count]
    exact Int.natCast_pos.mpr (List.countP_pos_iff.mpr ⟨e, he, decide_eq_true rfl⟩)
  refine ⟨fun o => ?_, fun h o ho => ?_, hs.zero.release (hs.target e.1 e.2 he) hpos⟩
  · rw [count_release he, release_refCount]
    dsimp only [State.addCount]
    rw [hs.count, Int.add_neg_one]
  · rw [release_object]
    rw [release_refs] at ho
    exact hs.target h o (List.mem_of_mem_erase ho)

/-! ## Properties -/

theorem foldl_release (hes : es.Subperm s.refs) :
    (es.foldl State.release s).Counted ∧ Released s (es.foldl State.release s) ∧
      (es.foldl State.release s).object = s.object ∧ (es.foldl State.release s).record = s.record ∧
      (es.foldl State.release s).refs = s.refs.diff es := by
  induction es generalizing s with
  | nil => exact ⟨hs, .refl s, rfl, rfl, rfl⟩
  | cons e es ih =>
    have he : e ∈ s.refs := hes.subset List.mem_cons_self
    have hes' : es.Subperm (s.release e).refs := by
      rw [release_refs]
      have herase := hes.erase e
      rwa [List.erase_cons_head] at herase
    obtain ⟨hcounted, hreleased, hobject, hrecord, hrefs⟩ := ih (hs.release he) hes'
    refine ⟨hcounted, released_release.trans hreleased, hobject.trans release_object,
      hrecord.trans release_record, ?_⟩
    rw [List.foldl_cons, hrefs, release_refs, List.diff_cons]

/-- The references that an object holds through its properties are released, and no others. -/
theorem count_freeProperties :
    (s.freeProperties p).refs.count e = if e.1 = .field p then 0 else s.refs.count e := by
  rw [State.freeProperties, (foldl_release hs List.filter_sublist.subperm).2.2.2.2, List.count_diff]
  split
  · rename_i he
    have hcount : (s.refs.filter (·.1 = Holder.field p)).count e = s.refs.count e :=
      List.count_filter (decide_eq_true he)
    rw [hcount, Nat.sub_self]
  · rename_i he
    have hnot : e ∉ s.refs.filter (·.1 = Holder.field p) := fun hin =>
      he (of_decide_eq_true (List.mem_filter.mp hin).2)
    rw [List.count_eq_zero.mpr hnot, Nat.sub_zero]

theorem State.Counted.freeProperties : (s.freeProperties p).Counted :=
  (foldl_release hs List.filter_sublist.subperm).1

theorem released_freeProperties : Released s (s.freeProperties p) :=
  (foldl_release hs List.filter_sublist.subperm).2.1

theorem freeProperties_object : (s.freeProperties p).object = s.object :=
  (foldl_release hs List.filter_sublist.subperm).2.2.1

theorem freeProperties_record : (s.freeProperties p).record = s.record :=
  (foldl_release hs List.filter_sublist.subperm).2.2.2.1

theorem State.Values.freeProperties (hv : s.Values) : (s.freeProperties p).Values := by
  intro r o
  rw [count_freeProperties hs, if_neg nofun, hv, State.value, State.value, freeProperties_record hs]

end

/-! ## Values of records -/

theorem value_setValue (v : Option ℕ) :
    (s.setValue r v).value q = if q = r then (s.record r).bind (fun _ => v) else s.value q := by
  unfold State.value State.setValue State.setRecord
  dsimp only
  split
  · rw [Option.bind_map]
    rfl
  · rfl

theorem value_setRecord_none : (s.setRecord r none).value q = if q = r then none else s.value q := by
  unfold State.value State.setRecord
  dsimp only
  split <;> rfl

theorem value_eq_some (hv : s.value r = some o) : ∃ mr, s.record r = some mr ∧ mr.value = some o :=
  Option.bind_eq_some_iff.mp hv

/-- The value of a record is released once. -/
theorem freeValue_spec (hs : s.Counted) (hv : s.Values) :
    (s.freeValue r).Counted ∧ (s.freeValue r).Values ∧ Released s (s.freeValue r) ∧
      (s.freeValue r).object = s.object ∧ (s.freeValue r).record = (s.setValue r none).record ∧
      ∀ e, (∀ q, e.1 ≠ .record q) → (s.freeValue r).refs.count e = s.refs.count e := by
  unfold State.freeValue
  split
  · rename_i hnone
    refine ⟨hs, hv, .refl s, rfl, funext fun q => ?_, fun _ _ => rfl⟩
    dsimp only [State.setValue, State.setRecord]
    split
    · rename_i hq
      subst hq
      rw [State.value] at hnone
      cases hr : s.record q with
      | none => rfl
      | some mr =>
        rw [hr] at hnone
        have hmr : mr.value = none := hnone
        rw [Option.map_some, ← hmr]
    · rfl
  · rename_i v hsome
    have he : (.record r, v) ∈ s.refs := by
      rw [← List.count_pos_iff, hv, if_pos hsome]
      exact Nat.one_pos
    have hset : (s.setValue r none).Counted := ⟨hs.count, hs.target, hs.zero.nodup, hs.zero.mem, hs.zero.idle⟩
    have hfrom : Released s (s.setValue r none) :=
      ⟨rfl, rfl, rfl, rfl, .refl _, .rfl, id, fun _ => rfl⟩
    refine ⟨hset.release he, fun q o => ?_, hfrom.trans released_release, release_object,
      release_record, fun e he => ?_⟩
    · have hvalue : ((s.setValue r none).release (.record r, v)).value q = (s.setValue r none).value q := by
        rw [State.value, release_record, State.value]
      rw [hvalue, value_setValue, release_refs, List.count_erase]
      change s.refs.count _ - _ = _
      rw [hv]
      by_cases hq : q = r
      · subst hq
        have hnone : (s.record q).bind (fun _ => none) ≠ some o := by
          rw [Option.bind_fun_none]
          nofun
        rw [hsome, if_pos rfl, if_neg hnone]
        by_cases ho : v = o
        · rw [ho, if_pos rfl, beq_self_eq_true, if_pos rfl]
        · rw [if_neg fun heq => ho (Option.some.inj heq), Nat.zero_sub]
      · have hne : ((.record r, v) == (Holder.record q, o)) = false :=
          beq_false_of_ne fun heq => hq (Holder.record.inj (Prod.mk.inj heq).1).symm
        rw [if_neg hq, hne, if_neg Bool.false_ne_true, Nat.sub_zero]
    · have hne : ((.record r, v) == e) = false :=
        beq_false_of_ne fun heq => he r (congrArg Prod.fst heq).symm
      rw [release_refs, List.count_erase, hne]
      rfl

/-! ## Records -/

/-- Some records have been freed and have released their values. -/
structure Freed (rs : List ℕ) (s t : State) : Prop where
  counted : t.Counted
  values : t.Values
  released : Released s t
  object : t.object = s.object
  record : ∀ r, t.record r = if r ∈ rs then none else s.record r
  /-- no other references have been released -/
  refs : ∀ e, (∀ r, e.1 ≠ .record r) → t.refs.count e = s.refs.count e

theorem freed_freeRecord (hs : s.Counted) (hv : s.Values) : Freed [r] s (s.freeRecord r) := by
  obtain ⟨hcounted, hvalues, hreleased, hobject, hrecord, hrefs⟩ := freeValue_spec (r := r) hs hv
  have hnone : (s.freeValue r).value r = none := by
    rw [State.value, hrecord, ← State.value, value_setValue, if_pos rfl, Option.bind_fun_none]
  refine ⟨⟨hcounted.count, hcounted.target, hcounted.zero.nodup, hcounted.zero.mem, hcounted.zero.idle⟩, ?_, ?_,
    hobject, ?_, hrefs⟩
  · intro q o
    have hvalue : (s.freeRecord r).value q = (s.freeValue r).value q := by
      rw [State.freeRecord, value_setRecord_none]
      split
      · rename_i hq
        rw [hq, hnone]
      · rfl
    rw [hvalue]
    exact hvalues q o
  · exact hreleased.trans ⟨rfl, rfl, rfl, rfl, .refl _, .rfl, id, fun _ => rfl⟩
  · intro q
    dsimp only [State.freeRecord, State.setRecord]
    rw [hrecord]
    dsimp only [State.setValue, State.setRecord]
    simp only [List.mem_singleton]
    split <;> rfl

theorem Freed.trans (h : Freed rs s t) (h' : Freed rs' t u) : Freed (rs ++ rs') s u where
  counted := h'.counted
  values := h'.values
  released := h.released.trans h'.released
  object := h'.object.trans h.object
  record r := by
    rw [h'.record, h.record]
    simp only [List.mem_append]
    by_cases hr : r ∈ rs
    · simp only [hr, if_true, true_or, ite_self]
    · simp only [hr, if_false, false_or]
  refs e he := (h'.refs e he).trans (h.refs e he)

/-- Records are freed one after the other. -/
theorem freed_freeRecords (hs : s.Counted) (hv : s.Values) : Freed rs s (rs.foldl State.freeRecord s) := by
  induction rs generalizing s with
  | nil => exact ⟨hs, hv, .refl s, rfl, fun r => (if_neg List.not_mem_nil).symm, fun _ _ => rfl⟩
  | cons r rs ih =>
    have hone := freed_freeRecord (r := r) hs hv
    exact hone.trans (ih hone.counted hone.values)

end QuickJs.Weak
