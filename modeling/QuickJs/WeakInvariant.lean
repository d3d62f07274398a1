import QuickJs.WeakLists

/-!
# Freeing keeps the collections right

What every step keeps. While objects wait to be freed, the operation that goes on then still has the
references that it needs. While cycles are removed, only what is to be freed refers to what is to be
freed, and every other object has a reference that stays.
-/

namespace QuickJs.Weak

open RefGraph

variable {s t u : State} {h : Holder} {m k o p q r : ℕ} {v : Option ℕ} {A B : ℕ → Prop}

/-! ## The invariant -/

/-- The record that an operation goes on with, and its new value. -/
def Pending.left : Pending → Option (ℕ × Option ℕ)
  | .none => Option.none
  | .store r v => some (r, v)
  | .unlink r => some (r, Option.none)

/-- The operation has released the value of the record, and has what it needs. -/
structure State.Rooted (s : State) (r : ℕ) (v : Option ℕ) : Prop where
  value : s.value r = none
  map : ∃ m, s.mapOf r = some m ∧ s.holds m
  key : ∃ k, s.keyOf r = some k ∧ s.holds k
  held : ∀ o ∈ v, s.holds o

/-- An object has a reference that stays if the objects with a property stay: from a script, from one
of them, or from a record of a collection and of a key among them. -/
def State.Lasting (s : State) (A : ℕ → Prop) (o : ℕ) : Prop :=
  s.holds o ∨ (∃ p, A p ∧ (.field p, o) ∈ s.refs) ∨
    ∃ r m k, A m ∧ A k ∧ s.mapOf r = some m ∧ s.keyOf r = some k ∧ s.value r = some o

/-- The reference is from an object with a property, or from a record of one. -/
def State.HeldIn (s : State) (A : ℕ → Prop) : Holder → Prop
  | .root => False
  | .field p => A p
  | .record r => ∃ m, A m ∧ s.mapOf r = some m

/-- While cycles are removed. -/
structure State.Sweep (s : State) : Prop where
  pending : s.pending = .none
  nodup : s.tmpObjList.Nodup
  live : ∀ o ∈ s.tmpObjList, s.Live o
  zero : ∀ o, o ∈ s.gcZeroRefCountList ↔ (s.object o).map JSObject.freeMark = some true
  closed : ∀ h o, (h, o) ∈ s.refs → o ∈ s.tmpObjList ∨ o ∈ s.gcZeroRefCountList →
    s.HeldIn (· ∈ s.tmpObjList) h
  lasting : ∀ o, s.Live o → o ∉ s.tmpObjList → s.Lasting (· ∉ s.tmpObjList) o

structure State.Inv (s : State) : Prop where
  counted : s.Counted
  values : s.Values
  linked : s.Linked
  map : ∀ r m, s.mapOf r = some m → s.Live m
  key : ∀ r k, s.keyOf r = some k → s.Live k
  field : ∀ p o, (.field p, o) ∈ s.refs → s.Live p
  pending : ∀ r v, s.pending.left = some (r, v) → s.Rooted r v
  tmpObjList : s.phase ≠ .removeCycles → s.tmpObjList = []
  unmarked : s.phase ≠ .removeCycles → ∀ o, (s.object o).isSome → s.Live o
  sweep : s.phase = .removeCycles → s.Sweep

/-- Outside of the freeing loops no operation is left. -/
def State.Idle (s : State) : Prop := s.phase = .none → s.pending = .none

theorem mem_refs_record (hs : s.Values) : (.record r, o) ∈ s.refs ↔ s.value r = some o := by
  rw [← List.count_pos_iff, hs]
  split
  · rename_i hr
    exact iff_of_true Nat.one_pos hr
  · rename_i hr
    exact iff_of_false (Nat.lt_irrefl 0) hr

theorem State.Live.isSome (h : s.Live o) : (s.object o).isSome := by
  obtain ⟨ob, hob, -⟩ := h
  exact Option.isSome_of_eq_some hob

theorem State.holds.count_ne (h : s.holds o) : s.count o ≠ 0 :=
  (List.countP_pos_iff.mpr ⟨_, h, decide_eq_true rfl⟩).ne'

theorem State.Lasting.exists_mem (hv : s.Values) (h : s.Lasting A o) : ∃ h, (h, o) ∈ s.refs := by
  rcases h with hroot | ⟨p, -, hfield⟩ | ⟨r, -, -, -, -, -, -, hvalue⟩
  · exact ⟨_, hroot⟩
  · exact ⟨_, hfield⟩
  · exact ⟨_, (mem_refs_record hv).mpr hvalue⟩

/-- What waits to be freed is not what the operation goes on with. -/
theorem State.Rooted.ne (h : s.Rooted r v) (hp : s.count p = 0) :
    s.mapOf r ≠ some p ∧ s.keyOf r ≠ some p := by
  obtain ⟨m, hm, hroot⟩ := h.map
  obtain ⟨k, hk, hroot'⟩ := h.key
  refine ⟨fun heq => ?_, fun heq => ?_⟩
  · cases hm.symm.trans heq
    exact hroot.count_ne hp
  · cases hk.symm.trans heq
    exact hroot'.count_ne hp

/-! ## An object is freed -/

theorem FreedObject.mapOf (h : FreedObject p s u) (hr : u.mapOf r = some m) :
    s.mapOf r = some m ∧ s.mapOf r ≠ some p ∧ s.keyOf r ≠ some p := by
  rw [State.mapOf, h.record] at hr
  split at hr
  · cases hr
  · rename_i hnot
    exact ⟨hr, not_or.mp hnot⟩

theorem FreedObject.keyOf (h : FreedObject p s u) (hr : u.keyOf r = some k) :
    s.keyOf r = some k ∧ s.mapOf r ≠ some p ∧ s.keyOf r ≠ some p := by
  rw [State.keyOf, h.record] at hr
  split at hr
  · cases hr
  · rename_i hnot
    exact ⟨hr, not_or.mp hnot⟩

theorem FreedObject.record_eq (h : FreedObject p s u) (hm : s.mapOf r ≠ some p)
    (hk : s.keyOf r ≠ some p) : u.record r = s.record r := by
  rw [h.record, if_neg (not_or.mpr ⟨hm, hk⟩)]

theorem FreedObject.holds (h : FreedObject p s u) : u.holds o ↔ s.holds o := by
  rw [State.holds, ← List.count_pos_iff, h.count (.root, o) nofun, if_neg nofun, List.count_pos_iff]
  exact Iff.rfl

theorem FreedObject.field (h : FreedObject p s u) :
    (.field q, o) ∈ u.refs ↔ q ≠ p ∧ (.field q, o) ∈ s.refs := by
  rw [← List.count_pos_iff, h.count (.field q, o) nofun]
  split
  · rename_i hq
    cases hq
    exact iff_of_false (Nat.lt_irrefl 0) fun hand => hand.1 rfl
  · rename_i hq
    rw [List.count_pos_iff]
    exact (and_iff_right fun heq => hq (congrArg Holder.field heq)).symm

theorem FreedObject.live (h : FreedObject p s u) : u.Live q ↔ q ≠ p ∧ s.Live q := by
  by_cases hq : q = p
  · subst hq
    refine iff_of_false (fun hlive => ?_) fun hand => hand.1 rfl
    rw [live_iff] at hlive
    rcases h.memory with ⟨hnone, -⟩ | ⟨-, hmark, -⟩
    · rw [hnone] at hlive
      cases hlive
    · cases hmark.symm.trans hlive
  · rw [live_iff, h.freeMark q hq, ← live_iff, and_iff_right hq]

/-- What a freed object leaves of the parts of the invariant that do not depend on the phase. -/
theorem State.Inv.freed (hi : s.Inv) (hp : (s.object p).isSome)
    (hcount : s.phase ≠ .removeCycles → s.count p = 0)
    (hpending : ∀ r v, s.pending.left = some (r, v) → s.mapOf r ≠ some p ∧ s.keyOf r ≠ some p)
    (hquiet : (s.freeObject p).phase ≠ .removeCycles →
      (s.freeObject p).tmpObjList = [] ∧ ∀ o, ((s.freeObject p).object o).isSome → (s.freeObject p).Live o)
    (hsweep : FreedObject p s (s.freeObject p) → (s.freeObject p).phase = .removeCycles →
      (s.freeObject p).Sweep) :
    (s.freeObject p).Inv := by
  have hfreed := freeObject_spec hi.counted hi.values hi.linked hp hcount fun r hr =>
    (hpending r none (by rw [hr]; rfl)).2
  refine ⟨hfreed.counted, hfreed.values, hfreed.linked, fun r m hr => ?_, fun r k hr => ?_,
    fun q o hq => ?_, fun r v hr => ?_, fun hne => (hquiet hne).1, fun hne => (hquiet hne).2,
    hsweep hfreed⟩
  · obtain ⟨hr, hne, -⟩ := hfreed.mapOf hr
    exact hfreed.live.mpr ⟨fun heq => hne (heq ▸ hr), hi.map r m hr⟩
  · obtain ⟨hr, -, hne⟩ := hfreed.keyOf hr
    exact hfreed.live.mpr ⟨fun heq => hne (heq ▸ hr), hi.key r k hr⟩
  · obtain ⟨hne, hq⟩ := hfreed.field.mp hq
    exact hfreed.live.mpr ⟨hne, hi.field q o hq⟩
  · rw [hfreed.pending] at hr
    have hrecord := hfreed.record_eq (hpending r v hr).1 (hpending r v hr).2
    obtain ⟨hvalue, hmap, hkey, hheld⟩ := hi.pending r v hr
    refine ⟨?_, ?_, ?_, fun o ho => hfreed.holds.mpr (hheld o ho)⟩
    · rw [State.value, hrecord]
      exact hvalue
    · simp only [State.mapOf, hrecord, hfreed.holds]
      exact hmap
    · simp only [State.keyOf, hrecord, hfreed.holds]
      exact hkey

/-- A turn of the loop of `free_zero_refcount`. -/
theorem State.Inv.freeZero (hi : s.Inv) (hphase : s.phase = .decref) (hp : p ∈ s.gcZeroRefCountList) :
    (s.freeObject p).Inv ∧ (s.freeObject p).Idle := by
  have hne : s.phase ≠ .removeCycles := by
    rw [hphase]
    nofun
  obtain ⟨hsome, hzero⟩ := (hi.counted.zero.mem hne p).mp hp
  rw [hi.counted.count, Int.natCast_eq_zero] at hzero
  have hpending (r : ℕ) (v : Option ℕ) (hr : s.pending.left = some (r, v)) :=
    (hi.pending r v hr).ne hzero
  have hfreed := freeObject_spec hi.counted hi.values hi.linked hsome (fun _ => hzero) fun r hr =>
    (hpending r none (by rw [hr]; rfl)).2
  refine ⟨hi.freed hsome (fun _ => hzero) hpending (fun _ => ⟨?_, fun o ho => ?_⟩) fun h hsweep => ?_,
    fun hidle => ?_⟩
  · rw [hfreed.tmpObjList, hi.tmpObjList hne, List.erase_nil]
  · have hop : o ≠ p := by
      rintro rfl
      rcases hfreed.memory with ⟨hnone, -⟩ | ⟨hsweep, -⟩
      · rw [hnone] at ho
        cases ho
      · exact hne hsweep
    have hsome' : (s.object o).isSome := by
      have heq := congrArg Option.isSome (hfreed.freeMark o hop)
      rw [Option.isSome_map, Option.isSome_map] at heq
      exact heq ▸ ho
    exact hfreed.live.mpr ⟨hop, hi.unmarked hne o hsome'⟩
  · exact absurd (h.removeCycles.mp hsweep) hne
  · have hnone := hfreed.idle hidle
    rw [hphase] at hnone
    cases hnone

/-- A turn of the loop of `gc_free_cycles`. -/
theorem State.Inv.freeCycle (hi : s.Inv) (hphase : s.phase = .removeCycles)
    {ps : List ℕ} (hps : s.tmpObjList = p :: ps) : (s.freeObject p).Inv ∧ (s.freeObject p).Idle := by
  have hsweep := hi.sweep hphase
  obtain ⟨hnodup, hnodup'⟩ := List.nodup_cons.mp (hps ▸ hsweep.nodup)
  have hp : p ∈ s.tmpObjList := hps ▸ List.mem_cons_self
  have hlive := hsweep.live p hp
  have hpending (r : ℕ) (v : Option ℕ) (hr : s.pending.left = some (r, v)) :
      s.mapOf r ≠ some p ∧ s.keyOf r ≠ some p := by
    rw [hsweep.pending] at hr
    cases hr
  have hfreed := freeObject_spec hi.counted hi.values hi.linked hlive.isSome (absurd hphase) fun r hr =>
    (hpending r none (by rw [hr]; rfl)).2
  have htmp : (s.freeObject p).tmpObjList = ps := by
    rw [hfreed.tmpObjList, hps, List.erase_cons_head]
  have hmem {q : ℕ} : q ∈ ps ↔ q ≠ p ∧ q ∈ s.tmpObjList := by
    rw [hps, List.mem_cons]
    constructor
    · intro hq
      exact ⟨fun heq => hnodup (heq ▸ hq), .inr hq⟩
    · rintro ⟨hne, hq⟩
      exact hq.resolve_left hne
  -- the object goes from the list of those to free to that of those which have been freed
  have hzero' : (s.freeObject p).gcZeroRefCountList = s.gcZeroRefCountList ∧
      (s.freeObject p).object p = none ∨
      (s.freeObject p).gcZeroRefCountList = s.gcZeroRefCountList ++ [p] ∧
      ((s.freeObject p).object p).map JSObject.freeMark = some true := by
    have hnot : p ∉ s.gcZeroRefCountList := by
      rw [hsweep.zero, live_iff.mp hlive]
      nofun
    rcases hfreed.memory with ⟨hnone, hzero⟩ | ⟨-, hmark, hzero⟩
    · exact .inl ⟨(hzero hphase).trans (List.erase_of_not_mem hnot), hnone⟩
    · exact .inr ⟨hzero.trans (congrArg (· ++ [p]) (List.erase_of_not_mem hnot)), hmark⟩
  have hgone {q : ℕ} (hq : q ∈ ps ∨ q ∈ (s.freeObject p).gcZeroRefCountList) :
      q ∈ s.tmpObjList ∨ q ∈ s.gcZeroRefCountList := by
    rcases hq with hq | hq
    · exact .inl (hmem.mp hq).2
    · rcases hzero' with ⟨heq, -⟩ | ⟨heq, -⟩
      · exact .inr (heq ▸ hq)
      · rw [heq, List.mem_append, List.mem_singleton] at hq
        rcases hq with hq | rfl
        · exact .inr hq
        · exact .inl hp
  have hidle : (s.freeObject p).Idle := fun hidle => by
    cases hphase.symm.trans (hfreed.idle hidle)
  refine ⟨hi.freed hlive.isSome (absurd hphase) hpending
    (fun hne => absurd (hfreed.removeCycles.mpr hphase) hne) fun _ _ => ?_, hidle⟩
  refine ⟨hfreed.pending.trans hsweep.pending, htmp.symm ▸ hnodup', fun q hq => ?_, fun q => ?_,
    fun h q hin hq => ?_, fun q hlive' hq => ?_⟩
  · rw [htmp] at hq
    obtain ⟨hne, hq⟩ := hmem.mp hq
    exact hfreed.live.mpr ⟨hne, hsweep.live q hq⟩
  · by_cases hqp : q = p
    · subst hqp
      rcases hzero' with ⟨heq, hnone⟩ | ⟨heq, hmark⟩
      · rw [heq, hsweep.zero, live_iff.mp hlive, hnone]
        exact iff_of_false nofun nofun
      · rw [heq, hmark]
        exact iff_of_true (List.mem_append_right _ List.mem_cons_self) rfl
    · rw [hfreed.freeMark q hqp, ← hsweep.zero]
      rcases hzero' with ⟨heq, -⟩ | ⟨heq, -⟩
      · rw [heq]
      · rw [heq, List.mem_append, List.mem_singleton, or_iff_left hqp]
  · rw [htmp] at hq ⊢
    have hheld := hsweep.closed h q (hfreed.refs.subset hin) (hgone hq)
    cases h with
    | root => exact hheld
    | field p' => exact hmem.mpr ⟨(hfreed.field.mp hin).1, hheld⟩
    | record r =>
      obtain ⟨m, hm, hr⟩ := hheld
      obtain ⟨mr, hmr, -⟩ := value_eq_some ((mem_refs_record hfreed.values).mp hin)
      have hmr' : (s.freeObject p).mapOf r = some mr.map := congrArg (Option.map JSMapRecord.map) hmr
      obtain ⟨hr', hne, -⟩ := hfreed.mapOf hmr'
      cases hr.symm.trans hr'
      exact ⟨_, hmem.mpr ⟨fun heq => hne (heq ▸ hr), hm⟩, hmr'⟩
  · rw [htmp] at hq ⊢
    obtain ⟨hne, hlive'⟩ := hfreed.live.mp hlive'
    have hstay {q : ℕ} (hq : q ∉ s.tmpObjList) : q ∉ ps ∧ q ≠ p :=
      ⟨fun hin => hq (hmem.mp hin).2, fun heq => hq (heq ▸ hp)⟩
    rcases hsweep.lasting q hlive' fun hin => hq (hmem.mpr ⟨hne, hin⟩) with
      hroot | ⟨p', hp', hfield⟩ | ⟨r, m, k, hm, hk, hmap, hkey, hvalue⟩
    · exact .inl (hfreed.holds.mpr hroot)
    · exact .inr (.inl ⟨p', (hstay hp').1, hfreed.field.mpr ⟨(hstay hp').2, hfield⟩⟩)
    · have hrecord : (s.freeObject p).record r = s.record r := by
        refine hfreed.record_eq (fun heq => ?_) fun heq => ?_
        · exact (hstay hm).2 (Option.some.inj (hmap.symm.trans heq))
        · exact (hstay hk).2 (Option.some.inj (hkey.symm.trans heq))
      refine .inr (.inr ⟨r, m, k, (hstay hm).1, (hstay hk).1, ?_, ?_, ?_⟩)
      · rw [State.mapOf, hrecord]
        exact hmap
      · rw [State.keyOf, hrecord]
        exact hkey
      · rw [State.value, hrecord]
        exact hvalue

end QuickJs.Weak
