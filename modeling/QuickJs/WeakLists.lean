import QuickJs.WeakRelease

/-!
# The lists of records

The lists of a collection have the records of the collection, and the list of a key has the records
of the key. When an object is freed, its records as a key and as a collection leave all three lists.
-/

namespace QuickJs.Weak

variable {s t u : State} {m k o p q r : ℕ} {l rs rs' : List ℕ} {ob : JSObject} {P Q : ℕ → Prop}

/-! ## Lists -/

/-- The list has what satisfies a property, each once. -/
def Lists (l : List ℕ) (P : ℕ → Prop) : Prop := l.Nodup ∧ ∀ r, r ∈ l ↔ P r

theorem Lists.nil (h : ∀ r, ¬ P r) : Lists [] P := ⟨.nil, fun r => iff_of_false List.not_mem_nil (h r)⟩

section

variable (h : Lists l P)

include h

theorem Lists.congr (hPQ : ∀ r, P r ↔ Q r) : Lists l Q :=
  ⟨h.1, fun r => (h.2 r).trans (hPQ r)⟩

theorem Lists.filter : Lists (l.filter (· ∉ rs)) fun r => P r ∧ r ∉ rs :=
  ⟨h.1.filter _, fun r => by rw [List.mem_filter, h.2, decide_eq_true_iff]⟩

theorem Lists.filter_ne : Lists (l.filter (· ≠ r)) fun q => P q ∧ q ≠ r :=
  ⟨h.1.filter _, fun q => by rw [List.mem_filter, h.2, decide_eq_true_iff]⟩

theorem Lists.filter_eq_self (hP : ∀ r, P r → r ∉ rs) : l.filter (· ∉ rs) = l :=
  List.filter_eq_self.mpr fun r hr => decide_eq_true (hP r ((h.2 r).mp hr))

theorem Lists.filter_eq_nil (hP : ∀ r, P r → r ∈ rs) : l.filter (· ∉ rs) = [] :=
  List.filter_eq_nil_iff.mpr fun r hr hnot => of_decide_eq_true hnot (hP r ((h.2 r).mp hr))

theorem Lists.cons (hr : ¬ P r) : Lists (r :: l) fun q => q = r ∨ P q :=
  ⟨List.nodup_cons.mpr ⟨mt (h.2 r).mp hr, h.1⟩, fun q => by rw [List.mem_cons, h.2]⟩

theorem Lists.concat (hr : ¬ P r) : Lists (l ++ [r]) fun q => q = r ∨ P q := by
  refine ⟨List.nodup_append.mpr ⟨h.1, List.nodup_singleton r, fun a ha b hb heq => ?_⟩, fun q => ?_⟩
  · rw [heq, List.mem_singleton.mp hb] at ha
    exact hr ((h.2 r).mp ha)
  · rw [List.mem_append, List.mem_singleton, h.2, or_comm]

end

/-! ## The records of an object -/

def State.mapOf (s : State) (r : ℕ) : Option ℕ := (s.record r).map JSMapRecord.map

def State.keyOf (s : State) (r : ℕ) : Option ℕ := (s.record r).map JSMapRecord.key

/-- The lists are right. A record that is being deleted is only in the list of its collection. -/
structure State.Linked (s : State) : Prop where
  records : ∀ o ob, s.object o = some ob → Lists ob.records fun r => s.mapOf r = some o
  hashed : ∀ o ob, s.object o = some ob → Lists ob.hashed fun r => s.mapOf r = some o ∧ s.pending ≠ .unlink r
  firstWeakRef : ∀ o ob, s.object o = some ob →
    Lists ob.firstWeakRef fun r => s.keyOf r = some o ∧ s.pending ≠ .unlink r
  nextObject : ∀ o, (s.object o).isSome → o < s.nextObject
  nextRecord : ∀ r, (s.record r).isSome → r < s.nextRecord

variable {f : ℕ → Option JSObject} {x : Option JSObject}

theorem State.Linked.of_object (hs : s.Linked)
    (hf : ∀ q ob, f q = some ob → ∃ ob', s.object q = some ob' ∧ ob.records = ob'.records ∧
      ob.hashed = ob'.hashed ∧ ob.firstWeakRef = ob'.firstWeakRef) :
    ({ s with object := f } : State).Linked := by
  refine ⟨fun o ob ho => ?_, fun o ob ho => ?_, fun o ob ho => ?_, fun o ho => ?_, hs.nextRecord⟩
  · obtain ⟨ob', hob', heq, -, -⟩ := hf o ob ho
    exact heq ▸ hs.records o ob' hob'
  · obtain ⟨ob', hob', -, heq, -⟩ := hf o ob ho
    exact heq ▸ hs.hashed o ob' hob'
  · obtain ⟨ob', hob', -, -, heq⟩ := hf o ob ho
    exact heq ▸ hs.firstWeakRef o ob' hob'
  · obtain ⟨ob, ho⟩ := Option.isSome_iff_exists.mp ho
    obtain ⟨ob', hob', -⟩ := hf o ob ho
    exact hs.nextObject o (Option.isSome_of_eq_some hob')

/-- The values of the records do not matter. -/
theorem State.Linked.congr (hs : s.Linked) (hobject : t.object = s.object)
    (hmap : ∀ r, t.mapOf r = s.mapOf r) (hkey : ∀ r, t.keyOf r = s.keyOf r)
    (hpending : ∀ r, t.pending = .unlink r ↔ s.pending = .unlink r)
    (hnextObject : t.nextObject = s.nextObject) (hnextRecord : t.nextRecord = s.nextRecord) :
    t.Linked := by
  refine ⟨fun o ob ho => ?_, fun o ob ho => ?_, fun o ob ho => ?_, fun o ho => ?_, fun r hr => ?_⟩
  · rw [hobject] at ho
    exact (hs.records o ob ho).congr fun r => by rw [hmap]
  · rw [hobject] at ho
    exact (hs.hashed o ob ho).congr fun r => by rw [hmap, ne_eq, ne_eq, hpending]
  · rw [hobject] at ho
    exact (hs.firstWeakRef o ob ho).congr fun r => by rw [hkey, ne_eq, ne_eq, hpending]
  · rw [hobject] at ho
    exact hnextObject ▸ hs.nextObject o ho
  · have hsome : (s.record r).isSome := by
      have hmap' := congrArg Option.isSome (hmap r)
      rw [State.mapOf, State.mapOf, Option.isSome_map, Option.isSome_map] at hmap'
      exact hmap' ▸ hr
    exact hnextRecord ▸ hs.nextRecord r hsome

/-- Some records leave the lists that they are in. -/
def JSObject.without (ob : JSObject) (rs : List ℕ) : JSObject :=
  { ob with
    records := ob.records.filter (· ∉ rs)
    hashed := ob.hashed.filter (· ∉ rs)
    firstWeakRef := ob.firstWeakRef.filter (· ∉ rs) }

theorem JSObject.without_without : (ob.without rs).without rs' = ob.without (rs ++ rs') := by
  have hand (r : ℕ) : (decide (r ∉ rs') && decide (r ∉ rs)) = decide (r ∉ rs ++ rs') := by
    rw [← Bool.decide_and, decide_eq_decide, List.mem_append, not_or, and_comm]
  unfold JSObject.without
  simp only [List.filter_filter, hand]

/-- Some records have left their lists and have been freed. -/
structure Removed (rs : List ℕ) (s t : State) : Prop where
  counted : t.Counted
  values : t.Values
  released : Released s t
  object : ∀ q, t.object q = (s.object q).map (·.without rs)
  record : ∀ r, t.record r = if r ∈ rs then none else s.record r
  refs : ∀ e, (∀ r, e.1 ≠ .record r) → t.refs.count e = s.refs.count e

theorem Removed.mapOf (h : Removed rs s t) : t.mapOf r = if r ∈ rs then none else s.mapOf r := by
  rw [State.mapOf, h.record]
  split <;> rfl

theorem Removed.keyOf (h : Removed rs s t) : t.keyOf r = if r ∈ rs then none else s.keyOf r := by
  rw [State.keyOf, h.record]
  split <;> rfl

theorem Removed.trans (h : Removed rs s t) (h' : Removed rs' t u) : Removed (rs ++ rs') s u where
  counted := h'.counted
  values := h'.values
  released := h.released.trans h'.released
  object q := by
    rw [h'.object, h.object, Option.map_map]
    exact congrArg (Option.map · _) (funext fun ob => JSObject.without_without)
  record r := by
    rw [h'.record, h.record]
    simp only [List.mem_append]
    by_cases hr : r ∈ rs
    · simp only [hr, if_true, true_or, ite_self]
    · simp only [hr, if_false, false_or]
  refs e he := (h'.refs e he).trans (h.refs e he)

/-- The lists of what is left are right. -/
theorem State.Linked.remove (hs : s.Linked) (h : Removed rs s t) : t.Linked := by
  have hif (x : Option ℕ) (r o : ℕ) : x = some o ∧ r ∉ rs ↔ (if r ∈ rs then none else x) = some o := by
    split
    · rename_i hr
      exact iff_of_false (fun hand => hand.2 hr) nofun
    · rename_i hr
      exact and_iff_left hr
  have hob {o : ℕ} {ob : JSObject} (ho : t.object o = some ob) :
      ∃ ob', s.object o = some ob' ∧ ob'.without rs = ob := by
    rw [h.object] at ho
    exact Option.map_eq_some_iff.mp ho
  refine ⟨fun o ob ho => ?_, fun o ob ho => ?_, fun o ob ho => ?_, fun o ho => ?_, fun r hr => ?_⟩
  · obtain ⟨ob', hob', rfl⟩ := hob ho
    refine (hs.records o ob' hob').filter.congr fun r => ?_
    rw [h.mapOf]
    exact hif _ r o
  · obtain ⟨ob', hob', rfl⟩ := hob ho
    refine (hs.hashed o ob' hob').filter.congr fun r => ?_
    rw [h.mapOf, h.released.pending, and_right_comm, hif]
  · obtain ⟨ob', hob', rfl⟩ := hob ho
    refine (hs.firstWeakRef o ob' hob').filter.congr fun r => ?_
    rw [h.keyOf, h.released.pending, and_right_comm, hif]
  · rw [h.object, Option.isSome_map] at ho
    exact h.released.nextObject ▸ hs.nextObject o ho
  · rw [h.record] at hr
    split at hr
    · cases hr
    · exact h.released.nextRecord ▸ hs.nextRecord r hr

/-! ## Keys and collections that die -/

theorem State.Counted.of_isSome (hs : s.Counted)
    (hf : ∀ q, (f q).isSome = (s.object q).isSome) : ({ s with object := f } : State).Counted where
  count := hs.count
  target h o ho := (hf o).trans (hs.target h o ho)
  zero := ⟨hs.zero.nodup, fun hphase o => (hf o).symm ▸ hs.zero.mem hphase o, hs.zero.idle⟩

theorem isSome_ite_map {f : JSObject → JSObject} {c : Prop} [Decidable c] :
    (if c then x.map f else x).isSome = x.isSome := by
  split
  · exact Option.isSome_map
  · rfl

/-- Some records are freed, and before and after that the objects are changed. -/
theorem removed_of_freed (hs : s.Counted) (hv : s.Values) (f g : JSObject → JSObject)
    (hfg : ∀ q ob, s.object q = some ob → (if q = p then g (f ob) else f ob) = ob.without rs) :
    Removed rs s ((rs.foldl State.freeRecord (s.modifyAll f)).modify p g) := by
  have hf : (s.modifyAll f).Counted := hs.of_isSome fun q => Option.isSome_map
  have hfreed : Freed rs (s.modifyAll f) (rs.foldl State.freeRecord (s.modifyAll f)) :=
    freed_freeRecords hf hv
  have hbefore : Released s (s.modifyAll f) := ⟨rfl, rfl, rfl, rfl, .refl _, .rfl, id, fun _ => rfl⟩
  refine ⟨hfreed.counted.of_isSome fun q => isSome_ite_map, hfreed.values,
    hbefore.trans (hfreed.released.trans ⟨rfl, rfl, rfl, rfl, .refl _, .rfl, id, fun _ => rfl⟩),
    fun q => ?_, hfreed.record, hfreed.refs⟩
  dsimp only [State.modify]
  rw [hfreed.object]
  dsimp only [State.modifyAll]
  cases hq : s.object q with
  | none => exact ite_self _
  | some ob =>
    rw [Option.map_some, Option.map_some, Option.map_some, ← hfg q ob hq]
    split <;> rfl

/-- The records of a key that dies are removed. -/
theorem removed_resetWeakRef (hs : s.Counted) (hv : s.Values) (hl : s.Linked)
    (hp : s.object p = some ob) : Removed ob.firstWeakRef s (s.resetWeakRef p) := by
  rw [State.resetWeakRef, hp]
  refine removed_of_freed hs hv _ _ fun q ob' hq => ?_
  have hlist := hl.firstWeakRef q ob' hq
  have hp' := (hl.firstWeakRef p ob hp).2
  unfold JSObject.without
  split
  · rename_i heq
    subst heq
    rw [hlist.filter_eq_nil fun r hr => (hp' r).mpr hr]
    rfl
  · rename_i hne
    rw [hlist.filter_eq_self fun r hr hin => hne (Option.some.inj (hr.1.symm.trans ((hp' r).mp hin).1))]
    rfl

/-- The records of a collection that dies are removed. -/
theorem removed_mapFinalizer (hs : s.Counted) (hv : s.Values) (hl : s.Linked)
    (hp : s.object p = some ob) : Removed ob.records s (s.mapFinalizer p) := by
  rw [State.mapFinalizer, hp]
  refine removed_of_freed hs hv _ _ fun q ob' hq => ?_
  have hrecords := hl.records q ob' hq
  have hhashed := hl.hashed q ob' hq
  have hp' := (hl.records p ob hp).2
  unfold JSObject.without
  split
  · rename_i heq
    subst heq
    rw [hrecords.filter_eq_nil fun r hr => (hp' r).mpr hr, hhashed.filter_eq_nil fun r hr => (hp' r).mpr hr.1]
    rfl
  · rename_i hne
    have hother {r : ℕ} (hr : s.mapOf r = some q) : r ∉ ob.records := fun hin =>
      hne (Option.some.inj (hr.symm.trans ((hp' r).mp hin)))
    rw [hrecords.filter_eq_self fun r hr => hother hr, hhashed.filter_eq_self fun r hr => hother hr.1]
    rfl

/-! ## Objects that are freed -/

theorem freeMark_without :
    (x.map (·.without rs)).map JSObject.freeMark = x.map JSObject.freeMark := by
  cases x <;> rfl

theorem live_iff : s.Live q ↔ (s.object q).map JSObject.freeMark = some false :=
  Option.map_eq_some_iff.symm

/-- An object has been freed but for its memory, with its records as a key and as a collection. -/
structure Cleared (p : ℕ) (s t : State) : Prop where
  counted : t.Counted
  values : t.Values
  linked : t.Linked
  released : Released s t
  record : ∀ r, t.record r = if s.mapOf r = some p ∨ s.keyOf r = some p then none else s.record r
  /-- the references that it held have been released, and those of the records -/
  count : ∀ e, (∀ r, e.1 ≠ .record r) → t.refs.count e = if e.1 = .field p then 0 else s.refs.count e
  freeMark : ∀ q, (t.object q).map JSObject.freeMark =
    if q = p then some true else (s.object q).map JSObject.freeMark

theorem freeObject_cleared (hs : s.Counted) (hv : s.Values) (hl : s.Linked) (hp : (s.object p).isSome)
    (hpending : ∀ r, s.pending = .unlink r → s.keyOf r ≠ some p) :
    ∃ t, Cleared p s t ∧ s.freeObject p = t.freeMemory p := by
  obtain ⟨ob₀, hob₀⟩ := Option.isSome_iff_exists.mp hp
  -- the object is marked, and releases what its properties refer to
  let s₁ := s.modify p fun ob => { ob with freeMark := true }
  have hs₁ : s₁.Counted := hs.of_isSome fun q => isSome_ite_map
  have hl₁ : s₁.Linked := by
    refine hl.of_object fun q ob hq => ?_
    split at hq
    · obtain ⟨ob', hob', rfl⟩ := Option.map_eq_some_iff.mp hq
      exact ⟨ob', hob', rfl, rfl, rfl⟩
    · exact ⟨ob, hq, rfl, rfl, rfl⟩
  have hrel₁ : Released s s₁ := ⟨rfl, rfl, rfl, rfl, .refl _, .rfl, id, fun _ => rfl⟩
  have hrel₂ := released_freeProperties (p := p) hs₁
  have hobject₂ := freeProperties_object (p := p) hs₁
  have hrecord₂ := freeProperties_record (p := p) hs₁
  have hmapOf (r : ℕ) : (s₁.freeProperties p).mapOf r = s.mapOf r := by
    rw [State.mapOf, hrecord₂]
    rfl
  have hkeyOf (r : ℕ) : (s₁.freeProperties p).keyOf r = s.keyOf r := by
    rw [State.keyOf, hrecord₂]
    rfl
  have hl₂ := hl₁.congr hobject₂ hmapOf hkeyOf (fun r => by rw [hrel₂.pending]) hrel₂.nextObject
    hrel₂.nextRecord
  have hob₂ : (s₁.freeProperties p).object p = some { ob₀ with freeMark := true } := by
    rw [hobject₂]
    dsimp only [s₁, State.modify]
    rw [if_pos rfl, hob₀, Option.map_some]
  -- its records as a key and as a collection are removed
  have hkey := removed_resetWeakRef hs₁.freeProperties (State.Values.freeProperties hs₁ hv) hl₂ hob₂
  have hl₃ := hl₂.remove hkey
  have hob₃ := hkey.object p
  rw [hob₂] at hob₃
  have hboth := hkey.trans (removed_mapFinalizer hkey.counted hkey.values hl₃ hob₃)
  have hmem (r : ℕ) : r ∈ ob₀.firstWeakRef ++ ob₀.records.filter (· ∉ ob₀.firstWeakRef) ↔
      s.mapOf r = some p ∨ s.keyOf r = some p := by
    rw [List.mem_append, List.mem_filter, decide_eq_true_iff, (hl.firstWeakRef p ob₀ hob₀).2,
      (hl.records p ob₀ hob₀).2]
    tauto
  refine ⟨_, ⟨hboth.counted, hboth.values, hl₂.remove hboth,
    hrel₁.trans (hrel₂.trans hboth.released), fun r => ?_, fun e he => ?_, fun q => ?_⟩, rfl⟩
  · rw [hboth.record, hrecord₂]
    exact if_congr (hmem r) rfl rfl
  · rw [hboth.refs e he, count_freeProperties hs₁]
    rfl
  · rw [hboth.object, freeMark_without, hobject₂]
    dsimp only [s₁, State.modify]
    split
    · rename_i hq
      rw [hq, hob₀]
      rfl
    · rfl

/-- An object has been freed, and perhaps its memory has been given back. -/
structure FreedObject (p : ℕ) (s u : State) : Prop where
  counted : u.Counted
  values : u.Values
  linked : u.Linked
  refs : u.refs.Sublist s.refs
  tmpObjList : u.tmpObjList = s.tmpObjList.erase p
  pending : u.pending = s.pending
  removeCycles : u.phase = .removeCycles ↔ s.phase = .removeCycles
  idle : u.phase = .none → s.phase = .none
  record : ∀ r, u.record r = if s.mapOf r = some p ∨ s.keyOf r = some p then none else s.record r
  count : ∀ e, (∀ r, e.1 ≠ .record r) → u.refs.count e = if e.1 = .field p then 0 else s.refs.count e
  freeMark : ∀ q, q ≠ p → (u.object q).map JSObject.freeMark = (s.object q).map JSObject.freeMark
  memory : u.object p = none ∧
      (s.phase = .removeCycles → u.gcZeroRefCountList = s.gcZeroRefCountList.erase p) ∨
    s.phase = .removeCycles ∧ (u.object p).map JSObject.freeMark = some true ∧
      u.gcZeroRefCountList = s.gcZeroRefCountList.erase p ++ [p]

theorem freeObject_spec (hs : s.Counted) (hv : s.Values) (hl : s.Linked) (hp : (s.object p).isSome)
    (hcount : s.phase ≠ .removeCycles → s.count p = 0)
    (hpending : ∀ r, s.pending = .unlink r → s.keyOf r ≠ some p) :
    FreedObject p s (s.freeObject p) := by
  obtain ⟨t, ht, hfree⟩ := freeObject_cleared hs hv hl hp hpending
  rw [hfree]
  have hphase := ht.released.removeCycles
  unfold State.freeMemory
  dsimp only
  split
  · rename_i hkeep
    refine ⟨⟨ht.counted.count, ht.counted.target, ⟨fun h => absurd hkeep.1 h, fun h => absurd hkeep.1 h,
        fun h => nomatch hkeep.1.symm.trans h⟩⟩,
      ht.values, ?_, ht.released.refs, ?_, ht.released.pending, hphase, ht.released.idle, ht.record,
      ht.count, fun q hq => ?_, .inr ⟨?_, ?_, ?_⟩⟩
    · exact ⟨ht.linked.records, ht.linked.hashed, ht.linked.firstWeakRef, ht.linked.nextObject,
        ht.linked.nextRecord⟩
    · exact congrArg (·.erase p) ht.released.tmpObjList
    · exact (ht.freeMark q).trans (if_neg hq)
    · exact hphase.mp hkeep.1
    · exact (ht.freeMark p).trans (if_pos rfl)
    · exact congrArg (·.erase p ++ [p]) (ht.released.gcZeroRefCountList (hphase.mp hkeep.1))
  · rename_i hgive
    -- nothing refers to the object
    have hnone : t.refCount p = 0 := by
      by_cases hsweep : t.phase = .removeCycles
      · exact not_not.mp fun hne => hgive ⟨hsweep, hne⟩
      · have hle := ht.released.count_le (o := p)
        rw [hcount (mt hphase.mpr hsweep)] at hle
        rw [ht.counted.count, Nat.le_zero.mp hle]
        rfl
    have hlinked : ({ t with object := fun q => if q = p then none else t.object q } : State).Linked :=
      ht.linked.of_object fun q ob hq =>
        ⟨ob, (Option.ite_none_left_eq_some.mp hq).2, rfl, rfl, rfl⟩
    refine ⟨⟨ht.counted.count, fun h o ho => ?_, ⟨fun hne => ?_, fun hne o => ?_, fun hidle => ?_⟩⟩,
      ht.values, ⟨hlinked.records, hlinked.hashed, hlinked.firstWeakRef, hlinked.nextObject,
        hlinked.nextRecord⟩, ht.released.refs, ?_, ht.released.pending, hphase, ht.released.idle,
      ht.record, ht.count, fun q hq => ?_, .inl ⟨if_pos rfl, fun hsweep => ?_⟩⟩
    · have hne : o ≠ p := by
        rintro rfl
        rw [ht.counted.count, Int.natCast_eq_zero, State.count, List.countP_eq_zero] at hnone
        exact hnone _ ho (decide_eq_true rfl)
      dsimp only
      rw [if_neg hne]
      exact ht.counted.target h o ho
    · exact (ht.counted.zero.nodup hne).erase p
    · dsimp only
      rw [(ht.counted.zero.nodup hne).mem_erase_iff, ht.counted.zero.mem hne]
      split
      · rename_i ho
        exact iff_of_false (fun hand => hand.1 ho) (fun hand => Bool.noConfusion hand.1)
      · rename_i ho
        exact and_iff_right ho
    · rw [ht.counted.zero.idle hidle, List.erase_nil]
    · exact congrArg (·.erase p) ht.released.tmpObjList
    · dsimp only
      rw [if_neg hq]
      exact (ht.freeMark q).trans (if_neg hq)
    · exact congrArg (·.erase p) (ht.released.gcZeroRefCountList hsweep)

end QuickJs.Weak
