import QuickJs.StorageIndex

/-!
# The object cache

As long as the keys that are left in dead stack frames do not read as the identifiers of other
objects, the cache finds an object by its identifier, and an object that is freed leaves the cache.
-/

namespace QuickJs.Storage

variable {s t : State} {mem : Memory} {mems : ℕ → Memory} {o oid : ℕ} {oids : List ℕ} {e : Entry}

/-- An entry that reads as an identifier is that of the object. -/
def State.Clear (s : State) (mem : Memory) (oid : ℕ) : Prop :=
  ∀ e ∈ s.oid2obj, s.hits mem oid e → s.oidOf e.obj = some oid

/-- That is so for each of some loads. -/
def State.LoadsClear (s : State) (mem : ℕ → Memory) : List ℕ → Prop
  | [] => True
  | oid :: oids => s.Clear (mem 0) oid ∧ (s.loadObject (mem 0) oid).1.LoadsClear (fun i => mem (i + 1)) oids

/-- What the cache has. -/
structure State.Inv (s : State) : Prop where
  /-- every persistent object has an entry of its own -/
  entry : ∀ o oid, (o, oid) ∈ s.persistent → ⟨calculateHashCode oid, false, o⟩ ∈ s.oid2obj
  /-- and only persistent objects have -/
  block : ∀ e ∈ s.oid2obj, e.stack = false →
    ∃ oid, (e.obj, oid) ∈ s.persistent ∧ e.hash = calculateHashCode oid
  /-- the entry with the dead key comes later -/
  order : s.oid2obj.Pairwise fun e e' => e.obj = e'.obj → e.stack = false ∧ e'.stack = true
  objects : (s.persistent.map Prod.fst).Nodup
  oids : (s.persistent.map Prod.snd).Nodup
  nextObject : ∀ o oid, (o, oid) ∈ s.persistent → o < s.nextObject
  entryNext : ∀ e ∈ s.oid2obj, e.obj < s.nextObject
  nextOid : ∀ o oid, (o, oid) ∈ s.persistent → oid < s.nextOid

/-- What loading and freeing objects leaves alone. -/
structure Kept (s t : State) : Prop where
  type : t.type = s.type
  index : t.index = s.index
  nextOid : t.nextOid = s.nextOid
  results : t.results = s.results

theorem Kept.refl (s : State) : Kept s s := ⟨rfl, rfl, rfl, rfl⟩

theorem Kept.trans {u : State} (h : Kept s t) (h' : Kept t u) : Kept s u :=
  ⟨h'.type.trans h.type, h'.index.trans h.index, h'.nextOid.trans h.nextOid, h'.results.trans h.results⟩

theorem mem_of_oidOf (h : s.oidOf o = some oid) : (o, oid) ∈ s.persistent := by
  obtain ⟨b, hb, rfl⟩ := Option.map_eq_some_iff.mp h
  have ho := List.find?_some hb
  cases of_decide_eq_true ho
  exact List.mem_of_find?_eq_some hb

theorem State.Inv.oidOf (hi : s.Inv) (h : (o, oid) ∈ s.persistent) : s.oidOf o = some oid := by
  cases hfind : s.persistent.find? (·.1 = o) with
  | none =>
    rw [List.find?_eq_none] at hfind
    exact absurd (decide_eq_true rfl) (hfind _ h)
  | some b =>
    have hb := List.mem_of_find?_eq_some hfind
    have ho := List.find?_some hfind
    have heq : b = (o, oid) := List.inj_on_of_nodup_map hi.objects hb h (of_decide_eq_true ho)
    rw [State.oidOf, hfind, heq]
    rfl

theorem holds_iff : s.holds oid ↔ ∃ o, (o, oid) ∈ s.persistent := by
  rw [State.holds, List.any_eq_true]
  constructor
  · rintro ⟨b, hb, hoid⟩
    exact ⟨b.1, of_decide_eq_true hoid ▸ hb⟩
  · rintro ⟨o, ho⟩
    exact ⟨_, ho, decide_eq_true rfl⟩

/-- The entry of an object reads as its identifier. -/
theorem State.Inv.hits (hi : s.Inv) (h : (o, oid) ∈ s.persistent) :
    s.hits mem oid ⟨calculateHashCode oid, false, o⟩ := by
  refine decide_eq_true ⟨rfl, ?_⟩
  rw [State.read, if_neg Bool.false_ne_true, hi.oidOf h, Option.getD_some]

/-- A new persistent object, with an entry of its own and perhaps one with a dead key. -/
theorem State.Inv.add (hi : s.Inv) {next : ℕ} {es : List Entry} (hoid : ∀ o, (o, oid) ∉ s.persistent)
    (hlt : oid < next) (hle : s.nextOid ≤ next)
    (hes : es = [] ∨ es = [⟨calculateHashCode oid, true, s.nextObject⟩]) :
    ({ s with
      nextOid := next
      persistent := (s.nextObject, oid) :: s.persistent
      nextObject := s.nextObject + 1
      oid2obj := ⟨calculateHashCode oid, false, s.nextObject⟩ :: (es ++ s.oid2obj) } : State).Inv := by
  have hes' (e : Entry) (he : e ∈ es) : e = ⟨calculateHashCode oid, true, s.nextObject⟩ := by
    rcases hes with rfl | rfl
    · cases he
    · exact List.mem_singleton.mp he
  have hold (e : Entry) (he : e ∈ s.oid2obj) : e.obj ≠ s.nextObject := (hi.entryNext e he).ne
  refine ⟨fun o' oid' ho => ?_, fun e he hstack => ?_, ?_, ?_, ?_, fun o' oid' ho => ?_, fun e he => ?_,
    fun o' oid' ho => ?_⟩
  · rcases List.mem_cons.mp ho with heq | ho
    · cases heq
      exact List.mem_cons_self
    · exact List.mem_cons_of_mem _ (List.mem_append_right _ (hi.entry o' oid' ho))
  · rcases List.mem_cons.mp he with rfl | he
    · exact ⟨oid, List.mem_cons_self, rfl⟩
    rcases List.mem_append.mp he with he | he
    · rw [hes' e he] at hstack
      cases hstack
    · obtain ⟨oid', ho, hhash⟩ := hi.block e he hstack
      exact ⟨oid', List.mem_cons_of_mem _ ho, hhash⟩
  · refine List.pairwise_cons.mpr ⟨fun e he heq => ?_, List.pairwise_append.mpr ⟨?_, hi.order, ?_⟩⟩
    · rcases List.mem_append.mp he with he | he
      · rw [hes' e he]
        exact ⟨rfl, rfl⟩
      · exact absurd heq.symm (hold e he)
    · rcases hes with rfl | rfl
      · exact .nil
      · exact List.pairwise_singleton _ _
    · intro e he e' he' heq
      rw [hes' e he] at heq
      exact absurd heq.symm (hold e' he')
  · refine List.nodup_cons.mpr ⟨fun hin => ?_, hi.objects⟩
    obtain ⟨⟨o', oid'⟩, hb, heq⟩ := List.mem_map.mp hin
    exact (hi.nextObject o' oid' hb).ne heq
  · refine List.nodup_cons.mpr ⟨fun hin => ?_, hi.oids⟩
    obtain ⟨⟨o', oid'⟩, hb, rfl⟩ := List.mem_map.mp hin
    exact hoid o' hb
  · rcases List.mem_cons.mp ho with heq | ho
    · cases heq
      exact Nat.lt_succ_self _
    · exact Nat.lt_succ_of_lt (hi.nextObject o' oid' ho)
  · rcases List.mem_cons.mp he with rfl | he
    · exact Nat.lt_succ_self _
    rcases List.mem_append.mp he with he | he
    · rw [hes' e he]
      exact Nat.lt_succ_self _
    · exact Nat.lt_succ_of_lt (hi.entryNext e he)
  · rcases List.mem_cons.mp ho with heq | ho
    · cases heq
      exact hlt
    · exact (hi.nextOid o' oid' ho).trans_le hle

/-- `db_load_object` finds the object with the identifier, or fetches it. -/
theorem State.Inv.loadObject (hi : s.Inv) (hclear : s.Clear mem oid) (hlt : oid < s.nextOid) :
    (s.loadObject mem oid).1.Inv ∧ Kept s (s.loadObject mem oid).1 ∧
      (s.loadObject mem oid).1.oidOf (s.loadObject mem oid).2 = some oid := by
  unfold State.loadObject
  split
  · rename_i o ho
    obtain ⟨e, he, rfl⟩ := Option.map_eq_some_iff.mp ho
    exact ⟨hi, .refl s, hclear e (List.mem_of_find?_eq_some he) (List.find?_some he)⟩
  · rename_i hnone
    rw [State.hashtableGet, Option.map_eq_none_iff, List.find?_eq_none] at hnone
    have hoid (o : ℕ) : (o, oid) ∉ s.persistent := fun ho => hnone _ (hi.entry o oid ho) (hi.hits ho)
    have hi' := hi.add hoid hlt le_rfl (.inr rfl)
    exact ⟨hi', ⟨rfl, rfl, rfl, rfl⟩, hi'.oidOf List.mem_cons_self⟩

theorem State.Inv.loadObjects (hi : s.Inv) (hclear : s.LoadsClear mems oids)
    (hlt : ∀ oid ∈ oids, oid < s.nextOid) :
    (s.loadObjects mems oids).1.Inv ∧ Kept s (s.loadObjects mems oids).1 ∧
      (s.loadObjects mems oids).2 = oids.map some := by
  induction oids generalizing s mems with
  | nil => exact ⟨hi, .refl s, rfl⟩
  | cons oid oids ih =>
    obtain ⟨hhead, htail⟩ := List.forall_mem_cons.mp hlt
    obtain ⟨hi', hkept, hoid⟩ := hi.loadObject hclear.1 hhead
    obtain ⟨hi'', hkept', hrest⟩ := ih hi' hclear.2 fun oid' h => hkept.nextOid ▸ htail oid' h
    refine ⟨hi'', hkept.trans hkept', ?_⟩
    rw [List.map_cons, ← hrest, ← hoid]
    rfl

/-- `js_free_persistent_object` removes the entry of the object. -/
theorem State.Inv.free (hi : s.Inv) (hclear : s.Clear mem oid) (hholds : s.holds oid) :
    (s.freePersistentObject mem oid).Inv := by
  obtain ⟨o, ho⟩ := holds_iff.mp hholds
  have hentry := hi.entry o oid ho
  have hhits : s.hits mem oid ⟨calculateHashCode oid, false, o⟩ := hi.hits ho
  obtain ⟨e, es₁, es₂, hmiss, hhit, hcache, herase⟩ :=
    List.exists_of_eraseP hentry hhits
  have heo : e.obj = o := by
    have hoid := mem_of_oidOf (hclear e (hcache ▸ List.mem_append_right _ List.mem_cons_self) hhit)
    exact congrArg Prod.fst (List.inj_on_of_nodup_map hi.oids hoid ho rfl)
  obtain ⟨horder₁, horder₂, hcross⟩ := List.pairwise_append.mp (hcache ▸ hi.order)
  obtain ⟨hlater, horder₂⟩ := List.pairwise_cons.mp horder₂
  -- the entry that is removed is that of the object, which comes before one with a dead key
  have hstack : e.stack = false := by
    rw [hcache] at hentry
    rcases List.mem_append.mp hentry with hin | hin
    · exact absurd (hi.hits ho) (hmiss _ hin)
    rcases List.mem_cons.mp hin with rfl | hin
    · rfl
    · exact (hlater _ hin heo).1
  have hother (e' : Entry) (he' : e' ∈ es₁ ++ es₂) (hstack' : e'.stack = false) : e'.obj ≠ o := by
    intro heq
    rcases List.mem_append.mp he' with he' | he'
    · have hfirst := (hcross e' he' e List.mem_cons_self (heq.trans heo.symm)).2
      rw [hstack] at hfirst
      cases hfirst
    · have hlast := (hlater e' he' (heo.trans heq.symm)).2
      rw [hstack'] at hlast
      cases hlast
  have hcache' : (s.freePersistentObject mem oid).oid2obj = es₁ ++ es₂ := herase
  have hsub : (es₁ ++ es₂).Sublist s.oid2obj := by
    rw [hcache]
    exact (List.Sublist.refl es₁).append (List.sublist_cons_self e es₂)
  have hkeep (b : ℕ × ℕ) : b ∈ (s.freePersistentObject mem oid).persistent ↔ b ∈ s.persistent ∧ b.2 ≠ oid :=
    List.mem_filter.trans (and_congr_right fun _ => decide_eq_true_iff)
  have hobject (o' oid' : ℕ) (ho' : (o', oid') ∈ s.persistent) : o' = o ↔ oid' = oid := by
    constructor
    · rintro rfl
      exact congrArg Prod.snd (List.inj_on_of_nodup_map hi.objects ho' ho rfl)
    · rintro rfl
      exact congrArg Prod.fst (List.inj_on_of_nodup_map hi.oids ho' ho rfl)
  refine ⟨fun o' oid' ho' => ?_, fun e' he' hstack' => ?_, ?_, ?_, ?_, fun o' oid' ho' => ?_,
    fun e' he' => ?_, fun o' oid' ho' => ?_⟩
  · obtain ⟨ho', hne⟩ := (hkeep _).mp ho'
    have hin := hi.entry o' oid' ho'
    rw [hcache] at hin
    rw [hcache']
    rcases List.mem_append.mp hin with hin | hin
    · exact List.mem_append_left _ hin
    rcases List.mem_cons.mp hin with rfl | hin
    · exact absurd ((hobject o' oid' ho').mp heo) hne
    · exact List.mem_append_right _ hin
  · rw [hcache'] at he'
    obtain ⟨oid', ho', hhash⟩ := hi.block e' (hsub.subset he') hstack'
    refine ⟨oid', (hkeep _).mpr ⟨ho', fun heq => ?_⟩, hhash⟩
    exact hother e' he' hstack' ((hobject _ _ ho').mpr heq)
  · rw [hcache']
    exact hi.order.sublist hsub
  · exact hi.objects.sublist (List.filter_sublist.map Prod.fst)
  · exact hi.oids.sublist (List.filter_sublist.map Prod.snd)
  · exact hi.nextObject o' oid' ((hkeep _).mp ho').1
  · exact hi.entryNext e' (hsub.subset (hcache' ▸ he'))
  · exact hi.nextOid o' oid' ((hkeep _).mp ho').1

end QuickJs.Storage
