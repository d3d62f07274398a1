import QuickJs.WeakOps

/-!
# Weak collections never dangle

In every run the lists of keys and collections agree, the records that a lookup finds have keys that
are alive, and each value is counted as often as it is held, as long as the collector finds no object
alive through the record of a key alone that is to be freed. The value of such a record is kept after
the record has gone, although nothing holds it any more.
-/

namespace QuickJs.Weak

open RefGraph Run

variable {s s' : State} {m k o p r : ℕ} {v : Option ℕ} {op : Op} {ops : List Op} {order : List ℕ}
  {A B : ℕ → Prop}

/-! ## The collector -/

/-- What the collector finds alive. -/
def State.Alive (s : State) (o : ℕ) : Prop := Reachable s.edges (· ∈ s.external) o

theorem mem_external : o ∈ s.external ↔ s.holds o := by
  rw [State.external, List.mem_map]
  constructor
  · rintro ⟨⟨h, q⟩, hin, rfl⟩
    obtain ⟨hin, hroot⟩ := List.mem_filter.mp hin
    cases of_decide_eq_true hroot
    exact hin
  · intro ho
    exact ⟨_, List.mem_filter.mpr ⟨ho, decide_eq_true rfl⟩, rfl⟩

theorem mem_edges_field (ho : (.field p, o) ∈ s.refs) : o ∈ s.edges p :=
  List.mem_append_left _ (List.mem_map.mpr ⟨_, List.mem_filter.mpr ⟨ho, decide_eq_true rfl⟩, rfl⟩)

/-- What the collector visits has a reference from the object or from one of its records. -/
theorem State.Inv.mem_edges (hi : s.Inv) (ho : o ∈ s.edges p) : ∃ h, (h, o) ∈ s.refs := by
  rcases List.mem_append.mp ho with ho | ho
  · obtain ⟨e, he, rfl⟩ := List.mem_map.mp ho
    exact ⟨e.1, (List.mem_filter.mp he).1⟩
  · obtain ⟨r, -, hr⟩ := List.mem_filterMap.mp ho
    exact ⟨.record r, (mem_refs_record hi.values).mpr hr⟩

theorem State.Inv.mem_edges_record (hi : s.Inv) (hm : s.mapOf r = some m) (hv : s.value r = some o) :
    o ∈ s.edges m := by
  obtain ⟨ob, hob, -⟩ := hi.map r m hm
  refine List.mem_append_right _ (List.mem_filterMap.mpr ⟨r, ?_, hv⟩)
  rw [hob]
  exact ((hi.linked.records m ob hob).2 r).mpr hm

theorem State.Inv.mem_marked (hi : s.Inv) : o ∈ s.marked ↔ s.Alive o := by
  have hlt {h : Holder} {q : ℕ} (hq : (h, q) ∈ s.refs) : q ∈ Finset.range s.nextObject :=
    Finset.mem_range.mpr (hi.linked.nextObject q (hi.counted.target h q hq))
  have hiff := mem_marked_iff (S := s.external.toFinset) (U := Finset.range s.nextObject) (E := s.edges)
    (n := s.nextObject) (o := o)
    (fun q hq => hlt (mem_external.mp (List.mem_toFinset.mp hq)))
    (fun q _ q' hq' => hlt (hi.mem_edges hq').choose_spec) (Finset.card_range _).le
  rw [State.marked, hiff, State.Alive]
  simp only [List.mem_toFinset]

theorem State.Lasting.mono (h : s.Lasting A o) (hAB : ∀ p, A p → B p) : s.Lasting B o := by
  rcases h with hroot | ⟨p, hp, hfield⟩ | ⟨r, m, k, hm, hk, hrest⟩
  · exact .inl hroot
  · exact .inr (.inl ⟨p, hAB p hp, hfield⟩)
  · exact .inr (.inr ⟨r, m, k, hAB m hm, hAB k hk, hrest⟩)

/-- Everything that the collector finds alive has a reference from what it finds alive, and if that is
the reference of a record, it finds the key alive as well. -/
def Op.Safe (s : State) : Op → Prop
  | .runGC _ => ∀ o, s.Alive o → s.Lasting s.Alive o
  | _ => True

/-- `gc_decref` and `gc_scan`: what is set aside is what is not alive. -/
theorem State.Calm.runGC (hs : s.Calm) (horder : order.Perm s.unmarked) (hsafe : Op.Safe s (.runGC order)) :
    ({ s with tmpObjList := order, phase := .removeCycles } : State).Inv := by
  have hi := hs.inv
  have hmem (q : ℕ) : q ∈ order ↔ (s.object q).isSome ∧ ¬ s.Alive q := by
    rw [horder.mem_iff, State.unmarked, List.mem_filter, List.mem_range, decide_eq_true_iff, hi.mem_marked]
    exact and_iff_right_of_imp fun hand => hi.linked.nextObject q hand.1
  have hsweep : ({ s with tmpObjList := order, phase := .removeCycles } : State).Sweep := by
    refine ⟨hs.pending, ?_, fun q hq => ?_, fun q => ?_, fun h q hin hq => ?_, fun q hlive hq => ?_⟩
    · exact horder.nodup_iff.mpr (List.nodup_range.filter _)
    · exact hi.unmarked hs.ne q ((hmem q).mp hq).1
    · refine iff_of_false (hs.zero.symm ▸ List.not_mem_nil) fun hmark => ?_
      have hsome : (s.object q).isSome := by
        obtain ⟨ob, hob, -⟩ := Option.map_eq_some_iff.mp hmark
        exact Option.isSome_of_eq_some hob
      cases (live_iff.mp (hi.unmarked hs.ne q hsome)).symm.trans hmark
    · rw [hs.zero, or_iff_left List.not_mem_nil, hmem] at hq
      cases h with
      | root => exact hq.2 (.root (mem_external.mpr hin))
      | field p =>
        refine (hmem p).mpr ⟨(hi.field p q hin).isSome, fun halive => hq.2 ?_⟩
        exact halive.step (mem_edges_field hin)
      | record r =>
        have hv := (mem_refs_record hi.values).mp hin
        obtain ⟨mr, hmr, -⟩ := value_eq_some hv
        have hm : s.mapOf r = some mr.map := congrArg (Option.map JSMapRecord.map) hmr
        refine ⟨mr.map, (hmem _).mpr ⟨(hi.map r _ hm).isSome, fun halive => hq.2 ?_⟩, hm⟩
        exact halive.step (hi.mem_edges_record hm hv)
    · have halive : s.Alive q := not_not.mp fun hnot => hq ((hmem q).mpr ⟨hlive.isSome, hnot⟩)
      exact (hsafe q halive).mono fun p hp hin => ((hmem p).mp hin).2 hp
  refine ⟨⟨hi.counted.count, hi.counted.target, ⟨fun hne => absurd rfl hne, fun hne => absurd rfl hne,
      nofun⟩⟩, hi.values, ?_, hi.map, hi.key, hi.field, fun r v hr => absurd hr hs.left_ne,
    fun hne => absurd rfl hne, fun hne => absurd rfl hne, fun _ => hsweep⟩
  exact hi.linked.congr rfl (fun _ => rfl) (fun _ => rfl) (fun _ => .rfl) rfl rfl

/-- The end of `gc_free_cycles`: what is left has a reference. -/
theorem State.Inv.cyclesFreed (hi : s.Inv) (hphase : s.phase = .removeCycles) (htmp : s.tmpObjList = []) :
    ({ s with
      object := fun q => if q ∈ s.gcZeroRefCountList then none else s.object q
      gcZeroRefCountList := []
      phase := .none } : State).Calm := by
  have hsweep := hi.sweep hphase
  have hkeep {q : ℕ} (hq : s.Live q) : q ∉ s.gcZeroRefCountList := by
    rw [hsweep.zero, live_iff.mp hq]
    nofun
  have hlive {q : ℕ} (hq : (if q ∈ s.gcZeroRefCountList then none else s.object q).isSome) : s.Live q := by
    split at hq
    · cases hq
    · rename_i hnot
      rw [hsweep.zero] at hnot
      obtain ⟨ob, hob⟩ := Option.isSome_iff_exists.mp hq
      rw [hob, Option.map_some, Option.some.injEq, Bool.not_eq_true] at hnot
      exact ⟨ob, hob, hnot⟩
  have hlive' {q : ℕ} (hq : s.Live q) : ∃ ob,
      (if q ∈ s.gcZeroRefCountList then none else s.object q) = some ob ∧ ob.freeMark = false := by
    rw [if_neg (hkeep hq)]
    exact hq
  refine ⟨⟨⟨hi.counted.count, fun h q hq => ?_, ⟨fun _ => .nil, fun _ q => ?_, fun _ => rfl⟩⟩, hi.values, ?_,
    fun r m hr => hlive' (hi.map r m hr), fun r k hr => hlive' (hi.key r k hr),
    fun p q hq => hlive' (hi.field p q hq), fun r v hr => ?_, fun _ => htmp,
    fun _ q hq => hlive' (hlive hq), nofun⟩, rfl, hsweep.pending⟩
  · have hnot : q ∉ s.gcZeroRefCountList := fun hin => by
      have hheld := hsweep.closed h q hq (.inr hin)
      rw [htmp] at hheld
      cases h with
      | root => exact hheld
      | field p => cases hheld
      | record r =>
        obtain ⟨m, hm, -⟩ := hheld
        cases hm
    dsimp only
    rw [if_neg hnot]
    exact hi.counted.target h q hq
  · refine iff_of_false List.not_mem_nil fun hand => ?_
    obtain ⟨h, hin⟩ := (hsweep.lasting q (hlive hand.1) (htmp ▸ List.not_mem_nil)).exists_mem hi.values
    have hpos : 0 < s.count q := List.countP_pos_iff.mpr ⟨_, hin, decide_eq_true rfl⟩
    have hnone := hand.2
    rw [hi.counted.count] at hnone
    omega
  · have hl := hi.linked.of_object (f := fun q => if q ∈ s.gcZeroRefCountList then none else s.object q)
      fun q ob hq => ⟨ob, (Option.ite_none_left_eq_some.mp hq).2, rfl, rfl, rfl⟩
    exact hl.congr rfl (fun _ => rfl) (fun _ => rfl) (fun _ => .rfl) rfl rfl
  · have hnone : s.pending.left = some (r, v) := hr
    rw [hsweep.pending] at hnone
    cases hnone

/-! ## One step -/

theorem State.Calm.script (hs : s.Calm) (hsafe : Op.Safe s op) (hstep : s.script op = some s') :
    s'.Inv ∧ s'.Idle := by
  have hi := hs.inv
  cases op with
  | newObject isMap =>
    cases hstep
    exact (hs.newObject isMap).idle
  | getField p o =>
    obtain ⟨hin, hstep⟩ := Option.ite_none_right_eq_some.mp hstep
    cases hstep
    exact (hs.dup (h := .root) (hi.counted.target _ o hin.2) nofun nofun).idle
  | setField p o =>
    obtain ⟨hin, hstep⟩ := Option.ite_none_right_eq_some.mp hstep
    cases hstep
    refine (hs.dup (h := .field p) (hs.live hin.2).isSome nofun fun q hq => ?_).idle
    cases hq
    exact hs.live hin.1
  | dropField p o =>
    obtain ⟨hin, hstep⟩ := Option.ite_none_right_eq_some.mp hstep
    cases hstep
    exact hs.release hin.2 nofun
  | drop o =>
    obtain ⟨hin, hstep⟩ := Option.ite_none_right_eq_some.mp hstep
    cases hstep
    exact hs.release hin nofun
  | mapGet m k =>
    obtain ⟨hin, hstep⟩ := Option.ite_none_right_eq_some.mp hstep
    cases hstep
    cases hfind : (s.findRecord m k).bind s.value with
    | none => exact hs.idle
    | some v =>
      obtain ⟨r, -, hv⟩ := Option.bind_eq_some_iff.mp hfind
      have hin := (mem_refs_record hi.values).mpr hv
      exact (hs.dup (h := .root) (hi.counted.target _ v hin) nofun nofun).idle
  | mapSet m k v =>
    obtain ⟨⟨hm, -, hk, hv⟩, hstep⟩ := Option.ite_none_right_eq_some.mp hstep
    cases hstep
    exact hs.mapSet ⟨hm, hk, hv⟩
  | mapDelete m k =>
    obtain ⟨⟨hm, -, hk⟩, hstep⟩ := Option.ite_none_right_eq_some.mp hstep
    cases hstep
    exact hs.mapDelete ⟨hm, hk⟩
  | runGC order =>
    obtain ⟨horder, hstep⟩ := Option.ite_none_right_eq_some.mp hstep
    cases hstep
    exact ⟨hs.runGC horder hsafe, nofun⟩
  | freeZero => cases hstep
  | zeroFreed => cases hstep
  | freeCycle => cases hstep
  | cyclesFreed => cases hstep

/-- Every step keeps the invariant. -/
theorem State.Inv.step (hi : s.Inv ∧ s.Idle) (hsafe : Op.Safe s op) (hstep : s.step op = some s') :
    s'.Inv ∧ s'.Idle := by
  obtain ⟨hi, hidle⟩ := hi
  unfold State.step at hstep
  split at hstep
  · rename_i hphase
    exact State.Calm.script ⟨hi, hphase, hidle hphase⟩ hsafe hstep
  · rename_i hphase
    split at hstep
    · rename_i p ps hzero
      cases hstep
      exact hi.freeZero hphase (hzero ▸ List.mem_cons_self)
    · rename_i hzero
      cases hstep
      have hne : s.phase ≠ .removeCycles := hphase ▸ nofun
      have hi' : ({ s with phase := .none } : State).Inv := by
        refine ⟨⟨hi.counted.count, hi.counted.target, ⟨fun _ => hi.counted.zero.nodup hne,
            fun _ => hi.counted.zero.mem hne, fun _ => hzero⟩⟩, hi.values, ?_, hi.map, hi.key, hi.field,
          fun r v hr => ?_, fun _ => hi.tmpObjList hne, fun _ => hi.unmarked hne, nofun⟩
        · exact hi.linked.congr rfl (fun _ => rfl) (fun _ => rfl) (fun _ => .rfl) rfl rfl
        · obtain ⟨hvalue, hmap, hkey, hheld⟩ := hi.pending r v hr
          exact ⟨hvalue, hmap, hkey, hheld⟩
      exact (hi'.resume rfl).idle
    · cases hstep
  · rename_i hphase
    split at hstep
    · rename_i p ps htmp
      cases hstep
      exact hi.freeCycle hphase htmp
    · rename_i htmp
      cases hstep
      exact (hi.cyclesFreed hphase htmp).idle
    · cases hstep

theorem State.Inv.initial : State.initial.Inv ∧ State.initial.Idle := by
  refine ⟨⟨⟨fun _ => rfl, nofun, ⟨fun _ => .nil, fun _ _ => iff_of_false nofun nofun, fun _ => rfl⟩⟩,
    fun _ _ => rfl, ⟨nofun, nofun, nofun, nofun, nofun⟩, nofun, nofun, nofun, nofun, fun _ => rfl, nofun,
    nofun⟩, fun _ => rfl⟩

/-! ## Runs -/

structure State.Correct (s : State) : Prop where
  /-- the list of weak references of an object has its records in the weak collections that are alive -/
  chain : ∀ k ob, s.object k = some ob → ob.firstWeakRef.Nodup ∧ ∀ r, r ∈ ob.firstWeakRef ↔
    s.keyOf r = some k ∧ ∃ m mob, s.object m = some mob ∧ mob.freeMark = false ∧ r ∈ mob.hashed
  /-- a lookup finds a record of the key, which is alive -/
  lookup : ∀ m k r, s.findRecord m k = some r → s.keyOf r = some k ∧ s.Live k
  /-- a key that has been freed has no records -/
  dead : ∀ r k, s.keyOf r = some k → s.Live k
  /-- a record holds its value once, and what has been removed holds nothing -/
  values : ∀ r o, s.refs.count (.record r, o) = if s.value r = some o then 1 else 0
  /-- the counts are those of the references that are held -/
  count : ∀ o, s.refCount o = s.count o
  /-- what is kept is held -/
  kept : s.phase = .none → ∀ o, (s.object o).isSome → 0 < s.refCount o

theorem State.Inv.correct (hi : s.Inv) (hidle : s.Idle) : s.Correct where
  chain k ob hob := by
    refine ⟨(hi.linked.firstWeakRef k ob hob).1, fun r => ((hi.linked.firstWeakRef k ob hob).2 r).trans ?_⟩
    constructor
    · rintro ⟨hk, hpending⟩
      obtain ⟨mr, hmr, -⟩ := Option.map_eq_some_iff.mp hk
      have hm : s.mapOf r = some mr.map := congrArg (Option.map JSMapRecord.map) hmr
      obtain ⟨mob, hmob, hmark⟩ := hi.map r _ hm
      exact ⟨hk, _, mob, hmob, hmark, ((hi.linked.hashed _ mob hmob).2 r).mpr ⟨hm, hpending⟩⟩
    · rintro ⟨hk, m, mob, hmob, -, hin⟩
      exact ⟨hk, (((hi.linked.hashed m mob hmob).2 r).mp hin).2⟩
  lookup m k r hr := by
    have hk := (findRecord_spec hi.linked hr).2.1
    exact ⟨hk, hi.key r k hk⟩
  dead := hi.key
  values := hi.values
  count := hi.counted.count
  kept hphase o ho := by
    have hne := State.Calm.count_ne ⟨hi, hphase, hidle hphase⟩ ho
    rw [hi.counted.count]
    omega

/-- In the runs in which the collector finds no object alive through a record alone whose key it does
not find alive, every state is as it should be. -/
theorem correct_of_safe (hsafe : Along State.step Op.Safe .initial ops)
    (hs : exec State.step .initial ops = some s) : s.Correct := by
  have hi := hsafe.invariant (I := fun s => s.Inv ∧ s.Idle) (fun _ _ _ hi => State.Inv.step hi)
    State.Inv.initial hs
  exact hi.1.correct hi.2

/-- Has an object a reference from what is marked, and from a record only if its key is marked? -/
def State.lasts (s : State) (o : ℕ) : Bool :=
  s.refs.any fun e => e.2 = o && match e.1 with
    | .root => true
    | .field p => p ∈ s.marked
    | .record r => (s.record r).any fun mr => mr.map ∈ s.marked && mr.key ∈ s.marked

def Op.test (s : State) : Op → Bool
  | .runGC _ => decide (∀ o ∈ s.marked, s.lasts o)
  | _ => true

theorem State.Inv.lasting (hi : s.Inv) (ho : s.lasts o) : s.Lasting s.Alive o := by
  obtain ⟨⟨h, q⟩, hin, hand⟩ := List.any_eq_true.mp ho
  obtain ⟨heq, hholder⟩ := (Bool.and_eq_true _ _).mp hand
  cases of_decide_eq_true heq
  cases h with
  | root => exact .inl hin
  | field p => exact .inr (.inl ⟨p, hi.mem_marked.mp (of_decide_eq_true hholder), hin⟩)
  | record r =>
    obtain ⟨mr, hmr, hmarked⟩ := (Option.any_eq_true _ _).mp hholder
    obtain ⟨hm, hk⟩ := (Bool.and_eq_true _ _).mp hmarked
    refine .inr (.inr ⟨r, mr.map, mr.key, hi.mem_marked.mp (of_decide_eq_true hm),
      hi.mem_marked.mp (of_decide_eq_true hk), ?_, ?_, (mem_refs_record hi.values).mp hin⟩)
    · exact congrArg (Option.map JSMapRecord.map) hmr
    · exact congrArg (Option.map JSMapRecord.key) hmr

theorem State.Inv.safe_of_test (hi : s.Inv) (htest : op.test s) : op.Safe s := by
  cases op with
  | runGC order =>
    exact fun o ho => hi.lasting (of_decide_eq_true htest o (hi.mem_marked.mpr ho))
  | _ => trivial

/-- A value is kept while its key lives, is replaced, and dies with the key. -/
def keyDies : List Op :=
  [.newObject true, .newObject false, .newObject false, .mapSet 0 1 (some 2), .drop 2, .runGC [],
    .cyclesFreed, .mapGet 0 1, .newObject false, .mapSet 0 1 (some 3), .drop 3, .drop 2, .freeZero,
    .zeroFreed, .drop 1, .freeZero, .freeZero, .zeroFreed]

theorem keyDies_correct : ∃ s, exec State.step .initial keyDies = some s ∧ s.Correct := by
  have htest : (execIf (fun s op => op.test s) State.step .initial keyDies).isSome := by decide
  have hrun : (exec State.step .initial keyDies).isSome := by decide
  obtain ⟨s, hs⟩ := Option.isSome_iff_exists.mp hrun
  have hsafe : Along State.step Op.Safe .initial keyDies :=
    Along.of_execIf_invariant (I := fun s => s.Inv ∧ s.Idle) (fun _ _ _ hi => State.Inv.step hi)
      (fun _ _ hi => hi.1.safe_of_test) State.Inv.initial htest
  exact ⟨s, hs, correct_of_safe hsafe hs⟩

/-- The key refers to itself, and the script has dropped it and the value. -/
def cyclicKey : List Op :=
  [.newObject true, .newObject false, .setField 1 1, .newObject false, .mapSet 0 1 (some 2), .drop 1,
    .drop 2, .runGC [1], .freeCycle, .cyclesFreed]

/-- The value has been found alive through the record. The record is removed with the key, and the
value is kept. -/
theorem cyclicKey_not_correct : ¬ ∀ ops s, exec State.step .initial ops = some s → s.Correct := by
  intro h
  have hkept : (exec State.step .initial cyclicKey).any (fun s =>
      s.phase = .none ∧ (s.object 2).isSome ∧ s.refCount 2 = 0) := by decide
  obtain ⟨s, hs, hleak⟩ := (Option.any_eq_true _ _).mp hkept
  obtain ⟨hphase, hsome, hzero⟩ := of_decide_eq_true hleak
  have hpos := (h cyclicKey s hs).kept hphase 2 hsome
  rw [hzero] at hpos
  exact Int.lt_irrefl 0 hpos

end QuickJs.Weak
