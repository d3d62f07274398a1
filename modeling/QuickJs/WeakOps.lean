import QuickJs.WeakInvariant

/-!
# Steps of scripts

What scripts do with objects and collections, and what an operation still does when the objects that
it has released are freed, keeps the invariant.
-/

namespace QuickJs.Weak

variable {s t : State} {e : Holder × ℕ} {h : Holder} {m k o p q r : ℕ} {v : Option ℕ}

/-! ## References -/

theorem count_dup : (s.dup h o).count q = s.count q + if o = q then 1 else 0 := by
  rw [State.count, State.dup, List.countP_cons, State.count]
  simp only [decide_eq_true_eq]

/-- One more reference, while nothing is to be freed; the object may be a new one. -/
theorem counted_dup (hcount : ∀ q, s.refCount q = s.count q)
    (htarget : ∀ h q, (h, q) ∈ s.refs → (s.object q).isSome) (hzero : s.gcZeroRefCountList = [])
    (ho : (s.object o).isSome) (hpos : ∀ q, q ≠ o → (s.object q).isSome → s.count q ≠ 0) :
    (s.dup h o).Counted := by
  have hcount' (q : ℕ) : (s.dup h o).refCount q = (s.dup h o).count q := by
    rw [count_dup]
    dsimp only [State.dup, State.addCount]
    rw [hcount, Nat.cast_add]
    by_cases hq : q = o
    · rw [if_pos hq, if_pos hq.symm, Nat.cast_one]
    · rw [if_neg hq, if_neg (Ne.symm hq), Nat.cast_zero, Int.add_zero]
  refine ⟨hcount', fun h' q hq => ?_, fun _ => ?_, fun _ q => ?_, fun _ => hzero⟩
  · rcases List.mem_cons.mp hq with heq | hq
    · cases heq
      exact ho
    · exact htarget h' q hq
  · exact hzero.symm ▸ .nil
  · refine iff_of_false (hzero.symm ▸ List.not_mem_nil) fun hand => ?_
    have hnone := hand.2
    rw [hcount', Int.natCast_eq_zero, count_dup] at hnone
    by_cases hq : q = o
    · rw [if_pos hq.symm] at hnone
      cases hnone
    · rw [if_neg (Ne.symm hq)] at hnone
      exact hpos q hq hand.1 hnone

/-- Nothing is being freed. -/
structure State.Calm (s : State) : Prop where
  inv : s.Inv
  phase : s.phase = .none
  pending : s.pending = .none

theorem State.Calm.ne (h : s.Calm) : s.phase ≠ .removeCycles := h.phase ▸ nofun

theorem State.Calm.zero (h : s.Calm) : s.gcZeroRefCountList = [] := h.inv.counted.zero.idle h.phase

theorem State.Calm.count_ne (h : s.Calm) (ho : (s.object o).isSome) : s.count o ≠ 0 := by
  intro hnone
  have hmem := (h.inv.counted.zero.mem h.ne o).mpr ⟨ho, by rw [h.inv.counted.count, hnone]; rfl⟩
  rw [h.zero] at hmem
  cases hmem

theorem State.Calm.left_ne (h : s.Calm) : s.pending.left ≠ some (r, v) := by
  rw [h.pending]
  nofun

theorem State.Calm.live (h : s.Calm) (ho : s.holds o) : s.Live o :=
  h.inv.unmarked h.ne o (h.inv.counted.target _ o ho)

/-- A script or an object gets a reference. -/
theorem State.Calm.dup (hs : s.Calm) (ho : (s.object o).isSome) (hh : ∀ r, h ≠ .record r)
    (hp : ∀ p, h = .field p → s.Live p) : (s.dup h o).Calm where
  inv := by
    have hi := hs.inv
    refine ⟨counted_dup hi.counted.count hi.counted.target hs.zero ho fun q _ => hs.count_ne,
      fun r q => ?_, ?_, hi.map, hi.key, fun p q hq => ?_, fun r v hr => absurd hr hs.left_ne, hi.tmpObjList,
      hi.unmarked, fun hsweep => absurd hsweep hs.ne⟩
    · have hne : ((h, o) == (Holder.record r, q)) = false :=
        beq_false_of_ne fun heq => hh r (congrArg Prod.fst heq)
      rw [State.dup, List.count_cons, hne]
      exact hi.values r q
    · exact ⟨hi.linked.records, hi.linked.hashed, hi.linked.firstWeakRef, hi.linked.nextObject,
        hi.linked.nextRecord⟩
    · rcases List.mem_cons.mp hq with heq | hq
      · exact hp p (congrArg Prod.fst heq).symm
      · exact hi.field p q hq
  phase := hs.phase
  pending := hs.pending

/-- A script or an object drops a reference. -/
theorem State.Calm.release (hs : s.Calm) (he : e ∈ s.refs) (hh : ∀ r, e.1 ≠ .record r) :
    (s.release e).Inv ∧ (s.release e).Idle := by
  have hi := hs.inv
  have hrel : Released s (s.release e) := released_release
  have hlive (q : ℕ) : (s.release e).Live q ↔ s.Live q := by rw [live_iff, release_object, live_iff]
  have hmapOf (r : ℕ) : (s.release e).mapOf r = s.mapOf r := by
    rw [State.mapOf, release_record, State.mapOf]
  have hkeyOf (r : ℕ) : (s.release e).keyOf r = s.keyOf r := by
    rw [State.keyOf, release_record, State.keyOf]
  refine ⟨⟨hi.counted.release he, fun r q => ?_, ?_, fun r m hr => ?_, fun r k hr => ?_, fun p q hq => ?_,
    fun r v hr => ?_, fun _ => ?_, fun _ q hq => ?_, fun hsweep => ?_⟩, fun _ => ?_⟩
  · have hne : (e == (Holder.record r, q)) = false :=
      beq_false_of_ne fun heq => hh r (congrArg Prod.fst heq)
    rw [release_refs, List.count_erase, hne, if_neg Bool.false_ne_true, Nat.sub_zero, hi.values,
      State.value, State.value, release_record]
  · exact hi.linked.congr release_object hmapOf hkeyOf (fun r => by rw [hrel.pending]) hrel.nextObject
      hrel.nextRecord
  · exact (hlive m).mpr (hi.map r m (hmapOf r ▸ hr))
  · exact (hlive k).mpr (hi.key r k (hkeyOf r ▸ hr))
  · exact (hlive p).mpr (hi.field p q (hrel.refs.subset hq))
  · rw [hrel.pending, hs.pending] at hr
    cases hr
  · exact hrel.tmpObjList.trans (hi.tmpObjList hs.ne)
  · rw [release_object] at hq
    exact (hlive q).mpr (hi.unmarked hs.ne q hq)
  · exact absurd (hrel.removeCycles.mp hsweep) hs.ne
  · exact hrel.pending.trans hs.pending

theorem State.Calm.newObject (hs : s.Calm) (isMap : Bool) : (s.newObject isMap).Calm := by
  have hi := hs.inv
  have hfresh : s.object s.nextObject = none := by
    rw [← Option.not_isSome_iff_eq_none]
    exact fun ho => Nat.lt_irrefl _ (hi.linked.nextObject _ ho)
  have hold {q : ℕ} (hq : (s.object q).isSome) : q ≠ s.nextObject := by
    rintro rfl
    rw [hfresh] at hq
    cases hq
  have hlive {q : ℕ} (hq : s.Live q) : (s.newObject isMap).Live q := by
    obtain ⟨ob, hob, hmark⟩ := hq
    exact ⟨ob, (if_neg (hold (Option.isSome_of_eq_some hob))).trans hob, hmark⟩
  have hnew {q : ℕ} {ob : JSObject} (hq : (s.newObject isMap).object q = some ob) :
      q = s.nextObject ∧ ob = ⟨isMap, [], [], [], false⟩ ∨ s.object q = some ob := by
    change (if q = s.nextObject then some _ else s.object q) = some ob at hq
    split at hq
    · rename_i heq
      cases hq
      exact .inl ⟨heq, rfl⟩
    · exact .inr hq
  have hunmapped (r : ℕ) : s.mapOf r ≠ some s.nextObject := fun hr => hold (hi.map r _ hr).isSome rfl
  have hunkeyed (r : ℕ) : s.keyOf r ≠ some s.nextObject := fun hr => hold (hi.key r _ hr).isSome rfl
  refine ⟨⟨counted_dup hi.counted.count (fun h q hq => ?_) hs.zero ?_ fun q hne hq => ?_,
    fun r q => ?_, ⟨fun q ob hq => ?_, fun q ob hq => ?_, fun q ob hq => ?_, fun q hq => ?_,
      hi.linked.nextRecord⟩, fun r m hr => hlive (hi.map r m hr), fun r k hr => hlive (hi.key r k hr),
    fun p q hq => ?_, fun r v hr => absurd hr hs.left_ne, hi.tmpObjList, fun _ q hq => ?_,
    fun hsweep => absurd hsweep hs.ne⟩, hs.phase, hs.pending⟩
  · exact (hlive (hi.unmarked hs.ne q (hi.counted.target h q hq))).isSome
  · exact Option.isSome_of_eq_some (if_pos rfl)
  · have hsome : (s.object q).isSome := by
      dsimp only at hq
      rwa [if_neg hne] at hq
    exact hs.count_ne hsome
  · exact hi.values r q
  · rcases hnew hq with ⟨rfl, rfl⟩ | hq
    · exact .nil hunmapped
    · exact hi.linked.records q ob hq
  · rcases hnew hq with ⟨rfl, rfl⟩ | hq
    · exact .nil fun r hand => hunmapped r hand.1
    · exact hi.linked.hashed q ob hq
  · rcases hnew hq with ⟨rfl, rfl⟩ | hq
    · exact .nil fun r hand => hunkeyed r hand.1
    · exact hi.linked.firstWeakRef q ob hq
  · obtain ⟨ob, hob⟩ := Option.isSome_iff_exists.mp hq
    rcases hnew hob with ⟨rfl, -⟩ | hob
    · exact Nat.lt_succ_self _
    · exact Nat.lt_succ_of_lt (hi.linked.nextObject q (Option.isSome_of_eq_some hob))
  · rcases List.mem_cons.mp hq with heq | hq
    · cases heq
    · exact hlive (hi.field p q hq)
  · obtain ⟨ob, hob⟩ := Option.isSome_iff_exists.mp hq
    rcases hnew hob with ⟨rfl, rfl⟩ | hob'
    · exact ⟨_, hob, rfl⟩
    · exact hlive (hi.unmarked hs.ne q (Option.isSome_of_eq_some hob'))

end QuickJs.Weak

/-!
## Steps of collections

`set` and `delete` change the lists first and then release the old value of the record, which may
free objects and, with them, other records. When they go on, the record is still there.
-/

namespace QuickJs.Weak

variable {s t : State} {m k o p q r : ℕ} {v : Option ℕ}

/-! ## What is left of an operation -/

theorem mapOf_setValue : (s.setValue r v).mapOf q = s.mapOf q := by
  unfold State.mapOf State.setValue State.setRecord
  dsimp only
  split
  · rename_i hq
    rw [hq, Option.map_map]
    rfl
  · rfl

theorem keyOf_setValue : (s.setValue r v).keyOf q = s.keyOf q := by
  unfold State.keyOf State.setValue State.setRecord
  dsimp only
  split
  · rename_i hq
    rw [hq, Option.map_map]
    rfl
  · rfl

/-- Nothing is left to be done, except for the value of a record perhaps. -/
theorem State.Inv.done (hi : s.Inv) (hphase : s.phase = .none) (hpending : ∀ r, s.pending ≠ .unlink r) :
    ({ s with pending := .none } : State).Calm := by
  have hne : s.phase ≠ .removeCycles := hphase ▸ nofun
  have hcounted : ({ s with pending := .none } : State).Counted :=
    ⟨hi.counted.count, hi.counted.target, ⟨hi.counted.zero.nodup, hi.counted.zero.mem, hi.counted.zero.idle⟩⟩
  have hlinked : ({ s with pending := .none } : State).Linked :=
    hi.linked.congr rfl (fun _ => rfl) (fun _ => rfl) (fun r => iff_of_false nofun (hpending r)) rfl rfl
  exact ⟨⟨hcounted, hi.values, hlinked, hi.map, hi.key, hi.field, nofun, hi.tmpObjList, hi.unmarked,
    fun hsweep => absurd hsweep hne⟩, hphase, rfl⟩

/-- The new value is stored in the record. -/
theorem State.Calm.store (hs : s.Calm) {o : ℕ} (hr : (s.mapOf r).isSome) (hnone : s.value r = none)
    (ho : s.holds o) : ((s.setValue r (some o)).dup (.record r) o).Calm := by
  have hi := hs.inv
  have hvalue (q : ℕ) : ((s.setValue r (some o)).dup (.record r) o).value q =
      if q = r then some o else s.value q := by
    obtain ⟨m, hm⟩ := Option.isSome_iff_exists.mp hr
    obtain ⟨mr, hmr, -⟩ := Option.map_eq_some_iff.mp hm
    refine (value_setValue (some o)).trans ?_
    rw [hmr, Option.bind_some]
  have hcount (q o' : ℕ) : ((s.setValue r (some o)).dup (.record r) o).refs.count (.record q, o') =
      s.refs.count (.record q, o') + if (Holder.record r, o) == (Holder.record q, o') then 1 else 0 :=
    List.count_cons
  refine ⟨⟨counted_dup hi.counted.count hi.counted.target hs.zero (hs.live ho).isSome
    fun q _ => hs.count_ne, fun q o' => ?_, ?_, fun q m hq => ?_, fun q k hq => ?_, fun p q hq => ?_,
    fun q v hq => absurd hq hs.left_ne, hi.tmpObjList, hi.unmarked, fun hsweep => absurd hsweep hs.ne⟩,
    hs.phase, hs.pending⟩
  · rw [hcount, hi.values, hvalue]
    by_cases hq : q = r
    · subst hq
      rw [hnone, if_neg nofun, if_pos rfl]
      by_cases ho' : o = o'
      · rw [ho', beq_self_eq_true, if_pos rfl, if_pos rfl]
      · have hne : ((Holder.record q, o) == (Holder.record q, o')) = false :=
          beq_false_of_ne fun heq => ho' (Prod.mk.inj heq).2
        rw [hne, if_neg Bool.false_ne_true, if_neg fun heq => ho' (Option.some.inj heq)]
    · have hne : ((Holder.record r, o) == (Holder.record q, o')) = false :=
        beq_false_of_ne fun heq => hq (Holder.record.inj (Prod.mk.inj heq).1).symm
      rw [if_neg hq, hne, if_neg Bool.false_ne_true, Nat.add_zero]
  · exact hi.linked.congr rfl (fun q => mapOf_setValue) (fun q => keyOf_setValue) (fun _ => .rfl) rfl rfl
  · exact hi.map q m (mapOf_setValue.symm.trans hq)
  · exact hi.key q k (keyOf_setValue.symm.trans hq)
  · rcases List.mem_cons.mp hq with heq | hq
    · cases heq
    · exact hi.field p q hq

/-- The record that is deleted leaves the list of its collection. -/
theorem State.Inv.unlink (hi : s.Inv) (hphase : s.phase = .none) (hr : s.pending = .unlink r) :
    ((({ s with pending := .none } : State).modifyAll fun ob =>
      { ob with records := ob.records.filter (· ≠ r) }).setRecord r none).Calm := by
  have hne : s.phase ≠ .removeCycles := by simp [hphase]
  have hvalue : s.value r = none := (hi.pending r none (by rw [hr]; rfl)).value
  generalize ht : (({ s with pending := .none } : State).modifyAll fun ob =>
    { ob with records := ob.records.filter (· ≠ r) }).setRecord r none = t
  have hobject (q : ℕ) : t.object q =
      (s.object q).map fun ob => { ob with records := ob.records.filter (· ≠ r) } := by rw [← ht]; rfl
  have hrecord (q : ℕ) : t.record q = if q = r then none else s.record q := by rw [← ht]; rfl
  have hisSome (q : ℕ) : (t.object q).isSome = (s.object q).isSome := by
    rw [hobject, Option.isSome_map]
  have hlive {q : ℕ} (hq : s.Live q) : t.Live q := by
    rw [live_iff, hobject, Option.map_map]
    exact live_iff.mp hq
  have hmapOf (q : ℕ) : t.mapOf q = if q = r then none else s.mapOf q := by
    rw [State.mapOf, hrecord]
    split <;> rfl
  have hkeyOf (q : ℕ) : t.keyOf q = if q = r then none else s.keyOf q := by
    rw [State.keyOf, hrecord]
    split <;> rfl
  have hvalues (q : ℕ) : t.value q = s.value q := by
    rw [State.value, hrecord]
    split
    · rename_i hq
      rw [hq, hvalue]
      rfl
    · rfl
  have hif (x : Option ℕ) (q o : ℕ) : x = some o ∧ q ≠ r ↔ (if q = r then none else x) = some o := by
    split
    · rename_i hq
      exact iff_of_false (fun hand => hand.2 hq) (by simp)
    · rename_i hq
      exact and_iff_left hq
  -- the record that is deleted is the one that has left the other lists
  have hleft (q : ℕ) : s.pending ≠ .unlink q ↔ q ≠ r := by
    rw [hr, ne_eq, Pending.unlink.injEq, eq_comm]
  have hpending : t.pending = .none := by rw [← ht]; rfl
  have hob {q : ℕ} {ob : JSObject} (hq : t.object q = some ob) : ∃ ob', s.object q = some ob' ∧
      { ob' with records := ob'.records.filter (· ≠ r) } = ob := by
    rw [hobject] at hq
    exact Option.map_eq_some_iff.mp hq
  have hlinked : t.Linked := by
    refine ⟨fun q ob hq => ?_, fun q ob hq => ?_, fun q ob hq => ?_, fun q hq => ?_, fun q hq => ?_⟩
    · obtain ⟨ob', hob', rfl⟩ := hob hq
      refine (hi.linked.records q ob' hob').filter_ne.congr fun q => ?_
      rw [hmapOf, hif]
    · obtain ⟨ob', hob', rfl⟩ := hob hq
      refine (hi.linked.hashed q ob' hob').congr fun q => ?_
      rw [hmapOf, hleft, hif, hpending]
      exact (and_iff_left (by simp)).symm
    · obtain ⟨ob', hob', rfl⟩ := hob hq
      refine (hi.linked.firstWeakRef q ob' hob').congr fun q => ?_
      rw [hkeyOf, hleft, hif, hpending]
      exact (and_iff_left (by simp)).symm
    · rw [hisSome] at hq
      rw [← ht]
      exact hi.linked.nextObject q hq
    · rw [hrecord] at hq
      split at hq
      · cases hq
      · rw [← ht]
        exact hi.linked.nextRecord q hq
  have hcounted : t.Counted := by
    subst ht
    exact ⟨hi.counted.count, fun h q hq => (hisSome q).trans (hi.counted.target h q hq),
      ⟨hi.counted.zero.nodup, fun hne q => by rw [hisSome]; exact hi.counted.zero.mem hne q,
        hi.counted.zero.idle⟩⟩
  have hrefs : t.refs = s.refs := by rw [← ht]; rfl
  have hphase' : t.phase = .none := by rw [← ht]; exact hphase
  refine ⟨⟨hcounted, fun q o => ?_, hlinked, fun q m hq => ?_, fun q k hq => ?_, fun p q hq => ?_,
    fun q v hq => ?_, fun _ => ?_, fun _ q hq => ?_, fun hsweep => ?_⟩, hphase', hpending⟩
  · rw [hrefs, hvalues]
    exact hi.values q o
  · exact hlive (hi.map q m ((hif _ q m).mpr ((hmapOf q).symm.trans hq)).1)
  · exact hlive (hi.key q k ((hif _ q k).mpr ((hkeyOf q).symm.trans hq)).1)
  · exact hlive (hi.field p q (hrefs ▸ hq))
  · rw [hpending] at hq
    cases hq
  · rw [← ht]
    exact hi.tmpObjList hne
  · exact hlive (hi.unmarked hne q (hisSome q ▸ hq))
  · rw [hphase'] at hsweep
    cases hsweep

/-- The operation is completed. -/
theorem State.Inv.resume (hi : s.Inv) (hphase : s.phase = .none) : s.resume.Calm := by
  unfold State.resume
  split
  · rename_i hp
    exact hi.done hphase fun r => by rw [hp]; nofun
  · rename_i r hp
    exact hi.done hphase fun r => by rw [hp]; nofun
  · rename_i r v hp
    have hrooted := hi.pending r (some v) (by rw [hp]; rfl)
    obtain ⟨m, hm, -⟩ := hrooted.map
    have hdone := hi.done hphase fun r => by rw [hp]; nofun
    exact hdone.store (Option.isSome_of_eq_some hm) hrooted.value (hrooted.held v rfl)
  · rename_i r hp
    exact hi.unlink hphase hp

theorem State.Calm.idle (hs : s.Calm) : s.Inv ∧ s.Idle := ⟨hs.inv, fun _ => hs.pending⟩

theorem State.Inv.settle (hi : s.Inv) : s.settle.Inv ∧ s.settle.Idle := by
  unfold State.settle
  split
  · rename_i hphase
    exact (hi.resume hphase).idle
  · rename_i hphase
    exact ⟨hi, fun hidle => absurd hidle hphase⟩

/-! ## Set and delete -/

/-- What a lookup finds is a record of the collection and of the key. -/
theorem findRecord_spec (hl : s.Linked) (hr : s.findRecord m k = some r) :
    s.mapOf r = some m ∧ s.keyOf r = some k ∧ ∃ ob, s.object m = some ob ∧ r ∈ ob.hashed := by
  have hmem := List.mem_of_find?_eq_some hr
  have hkey := List.find?_some hr
  cases hm : s.object m with
  | none =>
    rw [hm] at hmem
    cases hmem
  | some ob =>
    rw [hm] at hmem
    obtain ⟨mr, hmr, hk⟩ := (Option.any_eq_true _ _).mp hkey
    refine ⟨(((hl.hashed m ob hm).2 r).mp hmem).1, ?_, ob, rfl, hmem⟩
    rw [State.keyOf, hmr, Option.map_some, of_decide_eq_true hk]

/-- The value of a record is released, when the lists have been changed and before the operation
goes on. -/
theorem State.Calm.freeValue {f : JSObject → JSObject} {next : Pending} (hs : s.Calm)
    (hf : ∀ ob, (f ob).freeMark = ob.freeMark) (hm : s.mapOf r = some m) (hk : s.keyOf r = some k)
    (hroot : s.holds m ∧ s.holds k ∧ ∀ o ∈ v, s.holds o) (hnext : next.left = some (r, v))
    (hlinked : ({ s.modifyAll f with pending := next } : State).Linked) :
    ({ (s.modifyAll f).freeValue r with pending := next } : State).Inv := by
  have hi := hs.inv
  have hcounted : (s.modifyAll f).Counted := hi.counted.of_isSome fun q => Option.isSome_map
  obtain ⟨hcounted', hvalues, hrel, hobject, hrecord, hcount⟩ := freeValue_spec (r := r) hcounted hi.values
  generalize (s.modifyAll f).freeValue r = t at hcounted' hvalues hrel hobject hrecord hcount ⊢
  have hmapOf (q : ℕ) : t.mapOf q = s.mapOf q := by
    rw [State.mapOf, hrecord]
    exact mapOf_setValue
  have hkeyOf (q : ℕ) : t.keyOf q = s.keyOf q := by
    rw [State.keyOf, hrecord]
    exact keyOf_setValue
  have hlive {q : ℕ} (hq : s.Live q) : t.Live q := by
    obtain ⟨ob, hob, hmark⟩ := hq
    refine ⟨f ob, ?_, (hf ob).trans hmark⟩
    rw [hobject]
    exact congrArg (Option.map f) hob
  have hheld {q : ℕ} (hq : s.holds q) : (.root, q) ∈ t.refs := by
    rw [← List.count_pos_iff, hcount (.root, q) (by simp)]
    exact List.count_pos_iff.mpr hq
  refine ⟨⟨hcounted'.count, hcounted'.target, ⟨hcounted'.zero.nodup, hcounted'.zero.mem,
      hcounted'.zero.idle⟩⟩, hvalues, ?_, fun q m hq => ?_, fun q k hq => ?_, fun p q hq => ?_,
    fun q v' hq => ?_, fun _ => ?_, fun _ q hq => ?_, fun hsweep => ?_⟩
  · exact hlinked.congr hobject hmapOf hkeyOf (fun _ => .rfl) hrel.nextObject hrel.nextRecord
  · exact hlive (hi.map q m ((hmapOf q).symm.trans hq))
  · exact hlive (hi.key q k ((hkeyOf q).symm.trans hq))
  · exact hlive (hi.field p q (hrel.refs.subset hq))
  · cases hnext.symm.trans hq
    refine ⟨?_, ⟨m, (hmapOf r).trans hm, hheld hroot.1⟩, ⟨k, (hkeyOf r).trans hk, hheld hroot.2.1⟩,
      fun o ho => hheld (hroot.2.2 o ho)⟩
    rw [State.value, hrecord, ← State.value, value_setValue, if_pos rfl, Option.bind_fun_none]
  · exact hrel.tmpObjList.trans (hi.tmpObjList hs.ne)
  · have hsome : (s.object q).isSome := by
      rw [hobject] at hq
      exact Option.isSome_map.symm.trans hq
    exact hlive (hi.unmarked hs.ne q hsome)
  · exact absurd (hrel.removeCycles.mp hsweep) hs.ne

/-- A new record is linked in all three lists. -/
theorem State.Calm.addRecord (hs : s.Calm) (hroot : s.holds m ∧ s.holds k ∧ ∀ o ∈ v, s.holds o) :
    ({ s.addRecord m k with pending := .store s.nextRecord v } : State).Inv := by
  have hi := hs.inv
  have hfresh : s.record s.nextRecord = none := by
    rw [← Option.not_isSome_iff_eq_none]
    exact fun hr => Nat.lt_irrefl _ (hi.linked.nextRecord _ hr)
  generalize ht : ({ s.addRecord m k with pending := .store s.nextRecord v } : State) = t
  have hrecord (q : ℕ) : t.record q = if q = s.nextRecord then some ⟨m, k, none⟩ else s.record q := by
    rw [← ht]; rfl
  have hnone (q : ℕ) (hq : q = s.nextRecord) : s.mapOf q = none ∧ s.keyOf q = none ∧ s.value q = none := by
    subst hq
    rw [State.mapOf, State.keyOf, State.value, hfresh]
    exact ⟨rfl, rfl, rfl⟩
  have hmapOf (q o : ℕ) : t.mapOf q = some o ↔ q = s.nextRecord ∧ m = o ∨ s.mapOf q = some o := by
    rw [State.mapOf, hrecord]
    split
    · rename_i hq
      rw [(hnone q hq).1, Option.map_some, Option.some.injEq, and_iff_right hq, or_iff_left (by simp)]
    · rename_i hq
      rw [or_iff_right fun hand => hq hand.1, State.mapOf]
  have hkeyOf (q o : ℕ) : t.keyOf q = some o ↔ q = s.nextRecord ∧ k = o ∨ s.keyOf q = some o := by
    rw [State.keyOf, hrecord]
    split
    · rename_i hq
      rw [(hnone q hq).2.1, Option.map_some, Option.some.injEq, and_iff_right hq, or_iff_left (by simp)]
    · rename_i hq
      rw [or_iff_right fun hand => hq hand.1, State.keyOf]
  have hvalue (q : ℕ) : t.value q = s.value q := by
    rw [State.value, hrecord]
    split
    · rename_i hq
      rw [(hnone q hq).2.2]
      rfl
    · rfl
  have hpending (q : ℕ) : t.pending ≠ .unlink q := by rw [← ht]; simp
  have hpending' (q : ℕ) : s.pending ≠ .unlink q := by rw [hs.pending]; simp
  have hobject (q : ℕ) : t.object q = (s.object q).map fun ob => { ob with
      firstWeakRef := if q = k then s.nextRecord :: ob.firstWeakRef else ob.firstWeakRef
      hashed := if q = m then ob.hashed ++ [s.nextRecord] else ob.hashed
      records := if q = m then ob.records ++ [s.nextRecord] else ob.records } := by
    rw [← ht]
    dsimp only [State.addRecord, State.setRecord, State.modify]
    by_cases hqk : q = k <;> by_cases hqm : q = m
    · simp only [if_pos hqk, if_pos hqm, Option.map_map]
      rfl
    · simp only [if_pos hqk, if_neg hqm]
    · simp only [if_neg hqk, if_pos hqm]
    · simp only [if_neg hqk, if_neg hqm, Option.map_id']
  have hob {q : ℕ} {ob : JSObject} (hq : t.object q = some ob) := Option.map_eq_some_iff.mp
    ((hobject q).symm.trans hq)
  have hlive {q : ℕ} (hq : s.Live q) : t.Live q := by
    rw [live_iff, hobject, Option.map_map]
    exact live_iff.mp hq
  have hisSome (q : ℕ) : (t.object q).isSome = (s.object q).isSome := by rw [hobject, Option.isSome_map]
  have hlinked : t.Linked := by
    refine ⟨fun q ob hq => ?_, fun q ob hq => ?_, fun q ob hq => ?_, fun q hq => ?_, fun q hq => ?_⟩
    · obtain ⟨ob', hob', rfl⟩ := hob hq
      have hold := hi.linked.records q ob' hob'
      split
      · rename_i hqm
        refine (hold.concat ?_).congr fun r => ?_
        · rw [(hnone _ rfl).1]
          simp
        · rw [hmapOf, and_iff_left hqm.symm]
      · rename_i hqm
        refine hold.congr fun r => ?_
        rw [hmapOf, or_iff_right fun hand => hqm hand.2.symm]
    · obtain ⟨ob', hob', rfl⟩ := hob hq
      have hold := hi.linked.hashed q ob' hob'
      split
      · rename_i hqm
        refine (hold.concat ?_).congr fun r => ?_
        · rw [(hnone _ rfl).1]
          simp
        · rw [hmapOf, and_iff_left hqm.symm, and_iff_left (hpending r), and_iff_left (hpending' r)]
      · rename_i hqm
        refine hold.congr fun r => ?_
        rw [hmapOf, or_iff_right fun hand => hqm hand.2.symm, and_iff_left (hpending r),
          and_iff_left (hpending' r)]
    · obtain ⟨ob', hob', rfl⟩ := hob hq
      have hold := hi.linked.firstWeakRef q ob' hob'
      dsimp only
      split
      · rename_i hqk
        refine (hold.cons ?_).congr fun r => ?_
        · rw [(hnone _ rfl).2.1]
          simp
        · rw [hkeyOf, and_iff_left hqk.symm, and_iff_left (hpending r), and_iff_left (hpending' r)]
      · rename_i hqk
        refine hold.congr fun r => ?_
        rw [hkeyOf, or_iff_right fun hand => hqk hand.2.symm, and_iff_left (hpending r),
          and_iff_left (hpending' r)]
    · rw [hisSome] at hq
      rw [← ht]
      exact hi.linked.nextObject q hq
    · have hnext : t.nextRecord = s.nextRecord + 1 := by rw [← ht]; rfl
      rw [hnext]
      rw [hrecord] at hq
      split at hq
      · rename_i heq
        exact heq ▸ Nat.lt_succ_self _
      · exact Nat.lt_succ_of_lt (hi.linked.nextRecord q hq)
  have hrefs : t.refs = s.refs := by rw [← ht]; rfl
  have hphase : t.phase = .none := by rw [← ht]; exact hs.phase
  have hcounted : t.Counted := by
    subst ht
    exact ⟨hi.counted.count, fun h q hq => (hisSome q).trans (hi.counted.target h q hq),
      ⟨hi.counted.zero.nodup, fun hne q => by rw [hisSome]; exact hi.counted.zero.mem hne q,
        hi.counted.zero.idle⟩⟩
  refine ⟨hcounted, fun q o => ?_, hlinked, fun q o hq => ?_, fun q o hq => ?_, fun p q hq => ?_,
    fun q v' hq => ?_, fun _ => ?_, fun _ q hq => ?_, fun hsweep => ?_⟩
  · rw [hrefs, hvalue]
    exact hi.values q o
  · rcases (hmapOf q o).mp hq with ⟨-, rfl⟩ | hq
    · exact hlive (hs.live hroot.1)
    · exact hlive (hi.map q o hq)
  · rcases (hkeyOf q o).mp hq with ⟨-, rfl⟩ | hq
    · exact hlive (hs.live hroot.2.1)
    · exact hlive (hi.key q o hq)
  · exact hlive (hi.field p q (hrefs ▸ hq))
  · have hleft : t.pending.left = some (s.nextRecord, v) := by rw [← ht]; rfl
    cases hleft.symm.trans hq
    unfold State.holds at hroot
    rw [← hrefs] at hroot
    exact ⟨(hvalue _).trans (hnone _ rfl).2.2, ⟨m, (hmapOf _ m).mpr (.inl ⟨rfl, rfl⟩), hroot.1⟩,
      ⟨k, (hkeyOf _ k).mpr (.inl ⟨rfl, rfl⟩), hroot.2.1⟩, hroot.2.2⟩
  · rw [← ht]
    exact hi.tmpObjList hs.ne
  · exact hlive (hi.unmarked hs.ne q (hisSome q ▸ hq))
  · rw [hphase] at hsweep
    cases hsweep

theorem modifyAll_id : s.modifyAll id = s := by
  unfold State.modifyAll
  simp only [Option.map_id, id_eq]

theorem State.Calm.mapSet (hs : s.Calm) (hroot : s.holds m ∧ s.holds k ∧ ∀ o ∈ v, s.holds o) :
    (s.mapSet m k v).Inv ∧ (s.mapSet m k v).Idle := by
  unfold State.mapSet
  split
  · rename_i r hr
    obtain ⟨hm, hk, -⟩ := findRecord_spec hs.inv.linked hr
    have hlinked : ({ s.modifyAll id with pending := .store r v } : State).Linked := by
      rw [modifyAll_id]
      exact hs.inv.linked.congr rfl (fun _ => rfl) (fun _ => rfl)
        (fun r => iff_of_false nofun (by rw [hs.pending]; nofun)) rfl rfl
    have hinv := hs.freeValue (f := id) (fun _ => rfl) hm hk hroot rfl hlinked
    rw [modifyAll_id] at hinv
    exact hinv.settle
  · exact (hs.addRecord hroot).settle

theorem State.Calm.mapDelete (hs : s.Calm) (hroot : s.holds m ∧ s.holds k) :
    (s.mapDelete m k).Inv ∧ (s.mapDelete m k).Idle := by
  unfold State.mapDelete
  split
  · exact hs.idle
  · rename_i r hr
    obtain ⟨hm, hk, -⟩ := findRecord_spec hs.inv.linked hr
    have hl := hs.inv.linked
    have hnext : (Pending.unlink r).left = some (r, none) := rfl
    refine (hs.freeValue (f := fun ob => { ob with
        hashed := ob.hashed.filter (· ≠ r)
        firstWeakRef := ob.firstWeakRef.filter (· ≠ r) }) (v := none)
      (fun _ => rfl) hm hk ⟨hroot.1, hroot.2, nofun⟩ hnext ?_).settle
    -- the record has left the hash table and the list of its key
    have hleft (q : ℕ) : s.pending ≠ .unlink q ∧ q ≠ r ↔ Pending.unlink r ≠ .unlink q := by
      rw [hs.pending, and_iff_right nofun, ne_eq, ne_eq, Pending.unlink.injEq, eq_comm]
    refine ⟨fun q ob hq => ?_, fun q ob hq => ?_, fun q ob hq => ?_, fun q hq => ?_, hl.nextRecord⟩
    · obtain ⟨ob', hob', rfl⟩ := Option.map_eq_some_iff.mp hq
      exact hl.records q ob' hob'
    · obtain ⟨ob', hob', rfl⟩ := Option.map_eq_some_iff.mp hq
      refine (hl.hashed q ob' hob').filter_ne.congr fun q => ?_
      rw [and_assoc, hleft]
      exact Iff.rfl
    · obtain ⟨ob', hob', rfl⟩ := Option.map_eq_some_iff.mp hq
      refine (hl.firstWeakRef q ob' hob').filter_ne.congr fun q => ?_
      rw [and_assoc, hleft]
      exact Iff.rfl
    · exact hl.nextObject q (Option.isSome_map.symm.trans hq)

end QuickJs.Weak
