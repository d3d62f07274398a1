import QuickJs.Map
import QuickJs.Stamped

/-!
# Records and their locks

A record that is not deleted counts one reference of its own and one for every lock,
a deleted one only its locks. `Balanced locks` says so for a given number of locks
on every address. The operations on the locks leave the entries of the map alone.
-/

namespace QuickJs.Map

open JSMapState Stamped

/-- An entry of the map, with the address of its record. -/
structure Entry where
  addr : ℕ
  key : JSValue
  value : JSValue
  deriving DecidableEq

/-- The entry in a record. -/
def JSMapRecord.entry (r : JSMapRecord) : Entry := ⟨r.addr, r.key, r.value⟩

@[simp] theorem JSMapRecord.entry_addr (r : JSMapRecord) : r.entry.addr = r.addr := rfl

/-- The entries in insertion order. -/
def JSMapState.live (s : JSMapState) : List Entry :=
  (s.records.filter (!·.empty)).map (·.entry)

/-- Every record counts its references, `locks a` of which are locks. -/
structure Balanced (locks : ℕ → ℕ) (s : JSMapState) : Prop where
  increasing : Increasing JSMapRecord.addr s.records
  fresh : ∀ r ∈ s.records, r.addr < s.fresh
  refCount : ∀ r ∈ s.records, r.refCount = (if r.empty then 0 else 1) + locks r.addr
  pos : ∀ r ∈ s.records, 0 < r.refCount
  held : ∀ a, 0 < locks a → ∃ r ∈ s.records, r.addr = a

/-- The map is the same but for locks and deleted records. -/
structure SameMap (s s' : JSMapState) : Prop where
  isSet : s'.isSet = s.isSet
  live : s'.live = s.live
  recordCount : s'.recordCount = s.recordCount
  hashTable : s'.hashTable = s.hashTable
  hashSize : s'.hashSize = s.hashSize
  recordCountThreshold : s'.recordCountThreshold = s.recordCountThreshold
  fresh : s'.fresh = s.fresh

variable {s s' s'' : JSMapState} {locks : ℕ → ℕ} {r : JSMapRecord} {a k : ℕ} {el : Option ℕ}

theorem SameMap.refl (s : JSMapState) : SameMap s s := ⟨rfl, rfl, rfl, rfl, rfl, rfl, rfl⟩

theorem SameMap.trans (h : SameMap s s') (h' : SameMap s' s'') : SameMap s s'' where
  isSet := h'.isSet.trans h.isSet
  live := h'.live.trans h.live
  recordCount := h'.recordCount.trans h.recordCount
  hashTable := h'.hashTable.trans h.hashTable
  hashSize := h'.hashSize.trans h.hashSize
  recordCountThreshold := h'.recordCountThreshold.trans h.recordCountThreshold
  fresh := h'.fresh.trans h.fresh

theorem mem_live {e : Entry} : e ∈ s.live ↔ ∃ r ∈ s.records, r.empty = false ∧ r.entry = e := by
  simp only [JSMapState.live, List.mem_map, List.mem_filter, Bool.not_eq_true', and_assoc]

/-- A record that is not deleted stays. -/
theorem SameMap.mem_of_live (h : SameMap s s') (hr : r ∈ s.records) (he : r.empty = false) :
    ∃ r' ∈ s'.records, r'.empty = false ∧ r'.entry = r.entry :=
  mem_live.mp (h.live ▸ mem_live.mpr ⟨r, hr, he, rfl⟩)

/-! ## Reading records -/

theorem Balanced.record (h : Balanced locks s) (hr : r ∈ s.records) : s.record r.addr = .ok r := by
  rw [JSMapState.record, h.increasing.find?_stamp hr]

theorem Balanced.linked (h : Balanced locks s) (hr : r ∈ s.records) : s.linked (some r.addr) =
      .ok (r :: s.records.filter (fun b => decide (r.addr < b.addr))) := by
  simp only [JSMapState.linked, h.increasing.dropWhile_stamp hr]

/-- A link at which a walk goes on that has passed everything below `k`. -/
structure Stands (s : JSMapState) (k : ℕ) (el : Option ℕ) : Prop where
  mem : ∀ a, el = some a → ∃ r ∈ s.records, r.addr = a
  le : ∀ a, el = some a → k ≤ a
  first : ∀ e ∈ s.live, k ≤ e.addr → ∃ a, el = some a ∧ a ≤ e.addr

/-- The first record of a list that is increasing from `k` on. -/
theorem stands_head {l : List JSMapRecord} (hinc : Increasing JSMapRecord.addr l)
    (hsub : ∀ r ∈ l, r ∈ s.records ∧ k ≤ r.addr)
    (hall : ∀ r ∈ s.records, k ≤ r.addr → r ∈ l) : Stands s k (l.head?.map (·.addr)) := by
  cases l with
  | nil =>
    refine ⟨nofun, nofun, fun e he hk => ?_⟩
    obtain ⟨r, hr, -, rfl⟩ := mem_live.mp he
    exact absurd (hall r hr hk) List.not_mem_nil
  | cons b l =>
    obtain ⟨hb, hbk⟩ := hsub b (List.mem_cons_self ..)
    refine ⟨?_, ?_, fun e he hk => ⟨b.addr, rfl, ?_⟩⟩
    · rintro _ ⟨⟩
      exact ⟨b, hb, rfl⟩
    · rintro _ ⟨⟩
      exact hbk
    · obtain ⟨r, hr, -, rfl⟩ := mem_live.mp he
      rcases List.mem_cons.mp (hall r hr hk) with rfl | hr
      · exact Nat.le_refl _
      · exact Nat.le_of_lt ((List.pairwise_cons.mp hinc).1 r hr)

theorem Balanced.first (h : Balanced locks s) : Stands s 0 s.first :=
  stands_head h.increasing (fun _ hr => ⟨hr, Nat.zero_le _⟩) fun _ hr _ => hr

theorem Balanced.next (h : Balanced locks s) (hr : r ∈ s.records) :
    ∃ el, s.next r.addr = .ok el ∧ Stands s (r.addr + 1) el := by
  refine ⟨_, by simp only [JSMapState.next, h.linked hr]; rfl,
    stands_head (h.increasing.sublist List.filter_sublist) (fun b hb => ?_) fun b hb hk => ?_⟩
  · rw [List.mem_filter, decide_eq_true_eq] at hb
    exact ⟨hb.1, hb.2⟩
  · exact List.mem_filter.mpr ⟨hb, decide_eq_true hk⟩

/-- A walk can go on at its link as long as the record there is not freed. -/
theorem Stands.sameMap (h : Stands s k el) (hsame : SameMap s s')
    (hmem : ∀ a, el = some a → ∃ r ∈ s'.records, r.addr = a) : Stands s' k el :=
  ⟨hmem, h.le, hsame.live ▸ h.first⟩

variable {f : JSMapRecord → JSMapRecord}

/-! ## Writing records -/

theorem mem_modify : r ∈ (s.modify a f).records ↔ ∃ b ∈ s.records, (if b.addr = a then f b else b) = r :=
  List.mem_map

/-- Writing the reference count only. -/
theorem sameMap_modify (a : ℕ)
    (hf : ∀ r, (f r).empty = r.empty ∧ (f r).entry = r.entry) : SameMap s (s.modify a f) := by
  refine ⟨rfl, ?_, rfl, rfl, rfl, rfl, rfl⟩
  simp only [JSMapState.live, JSMapState.modify, List.filter_map, List.map_map]
  congr 1
  · funext r
    simp only [Function.comp_apply]
    split
    · exact (hf r).2
    · rfl
  · congr 1
    funext r
    simp only [Function.comp_apply]
    split
    · rw [(hf r).1]
    · rfl

/-- Freeing a deleted record. -/
theorem sameMap_free (h : ∀ r ∈ s.records, r.addr = a → r.empty = true) : SameMap s (s.free a) := by
  refine ⟨rfl, ?_, rfl, rfl, rfl, rfl, rfl⟩
  simp only [JSMapState.live, JSMapState.free, List.filter_filter]
  congr 1
  refine List.filter_congr fun r hr => ?_
  cases he : r.empty
  · have hne : r.addr ≠ a := fun heq => by
      rw [h r hr heq] at he
      cases he
    simp [hne]
  · rfl

/-- `locks` after the record `a` is locked. -/
def lockAt (locks : ℕ → ℕ) (a : ℕ) : ℕ → ℕ := fun b => locks b + if b = a then 1 else 0

/-- `locks` after the record `a` is unlocked. -/
def unlockAt (locks : ℕ → ℕ) (a : ℕ) : ℕ → ℕ := fun b => locks b - if b = a then 1 else 0

/-- Write the number of references of a record that keeps some. -/
theorem Balanced.setRefCount (h : Balanced locks s) {locks' : ℕ → ℕ} (hr : r ∈ s.records)
    (haddr : ∀ b, (f b).addr = b.addr)
    (hlocks : ∀ b, b ≠ r.addr → locks' b = locks b)
    (hcount : (f r).refCount = (if (f r).empty then 0 else 1) + locks' r.addr)
    (hpos : 0 < (f r).refCount) :
    Balanced locks' (s.modify r.addr f) := by
  have hf : ∀ b : JSMapRecord, (if b.addr = r.addr then f b else b).addr = b.addr := by
    intro b
    split
    · exact haddr b
    · rfl
  refine ⟨h.increasing.map hf, ?_, ?_, ?_, fun b hb => ?_⟩
  · rintro _ hmem
    obtain ⟨b, hb, rfl⟩ := mem_modify.mp hmem
    exact (hf b).symm ▸ h.fresh b hb
  · rintro _ hmem
    obtain ⟨b, hb, rfl⟩ := mem_modify.mp hmem
    split
    · rename_i heq
      obtain rfl := h.increasing.eq_of_stamp hb hr heq
      rw [haddr]
      exact hcount
    · rename_i hne
      rw [hlocks _ hne]
      exact h.refCount b hb
  · rintro _ hmem
    obtain ⟨b, hb, rfl⟩ := mem_modify.mp hmem
    split
    · rename_i heq
      obtain rfl := h.increasing.eq_of_stamp hb hr heq
      exact hpos
    · exact h.pos b hb
  · by_cases hbr : b = r.addr
    · exact ⟨_, mem_modify.mpr ⟨r, hr, rfl⟩, (hf r).trans hbr.symm⟩
    · obtain ⟨c, hc, rfl⟩ := h.held b (hlocks b hbr ▸ hb)
      exact ⟨_, mem_modify.mpr ⟨c, hc, rfl⟩, hf c⟩

/-- Free a record without locks. -/
theorem Balanced.free (h : Balanced locks s) {locks' : ℕ → ℕ}
    (hlocks : ∀ b, b ≠ a → locks' b = locks b) (hzero : locks' a = 0) :
    Balanced locks' (s.free a) := by
  have hmem : ∀ b, b ∈ (s.free a).records ↔ b ∈ s.records ∧ b.addr ≠ a := by
    intro b
    rw [JSMapState.free, List.mem_filter, bne_iff_ne]
  refine ⟨h.increasing.sublist List.filter_sublist, fun b hb => h.fresh b ((hmem b).mp hb).1,
    fun b hb => ?_, fun b hb => h.pos b ((hmem b).mp hb).1, fun b hb => ?_⟩
  · obtain ⟨hb, hne⟩ := (hmem b).mp hb
    rw [hlocks _ hne]
    exact h.refCount b hb
  · have hne : b ≠ a := fun heq => by
      rw [heq, hzero] at hb
      exact absurd hb (Nat.lt_irrefl 0)
    obtain ⟨c, hc, rfl⟩ := h.held b (hlocks b hne ▸ hb)
    exact ⟨c, (hmem c).mpr ⟨hc, hne⟩, rfl⟩

/-! ## Locking and unlocking -/

/-- Unlocking a locked record reads no freed record and fails no assertion. -/
theorem Balanced.mapDecrefRecord (h : Balanced locks s) (ha : 0 < locks a) :
    ∃ s', mapDecrefRecord s a = .ok s' ∧ Balanced (unlockAt locks a) s' ∧ SameMap s s' ∧
      s'.cursors = s.cursors := by
  obtain ⟨r, hr, rfl⟩ := h.held a ha
  have hcount := h.refCount r hr
  have hother : ∀ b, b ≠ r.addr → unlockAt locks r.addr b = locks b := by
    intro b hb
    rw [unlockAt, if_neg hb, Nat.sub_zero]
  have hself : unlockAt locks r.addr r.addr = locks r.addr - 1 := by rw [unlockAt, if_pos rfl]
  by_cases hlast : r.refCount - 1 = 0
  · -- only a deleted record has no reference but its locks
    have hempty : r.empty = true := by
      cases he : r.empty
      · rw [he] at hcount
        simp only [Bool.false_eq_true, if_false] at hcount
        omega
      · rfl
    refine ⟨s.free r.addr, ?_, h.free hother ?_, sameMap_free fun b hb heq => ?_, rfl⟩
    · simp only [Map.mapDecrefRecord, h.record hr, ok_bind, if_pos hlast, hempty, if_true, pure_eq_ok]
    · omega
    · obtain rfl := h.increasing.eq_of_stamp hb hr heq
      exact hempty
  · refine ⟨s.modify r.addr fun r => { r with refCount := r.refCount - 1 }, ?_,
      h.setRefCount hr (fun _ => rfl) hother ?_ (Nat.pos_of_ne_zero hlast),
      sameMap_modify _ fun _ => ⟨rfl, rfl⟩, rfl⟩
    · simp only [Map.mapDecrefRecord, h.record hr, ok_bind, if_neg hlast, pure_eq_ok]
    · show r.refCount - 1 = (if r.empty then 0 else 1) + _
      omega

/-- Looking for the next record that is not deleted reads no freed record. It locks the
first one, if there is one. -/
theorem Balanced.lockNext (h : Balanced locks s) (hel : Stands s k el) :
    (lockNext s el = .ok (s, none) ∧ ∀ e ∈ s.live, e.addr < k) ∨
    ∃ mr ∈ s.records, mr.empty = false ∧ k ≤ mr.addr ∧ (∀ e ∈ s.live, k ≤ e.addr → mr.addr ≤ e.addr) ∧
      lockNext s el = .ok (s.modify mr.addr fun mr => { mr with refCount := mr.refCount + 1 }, some mr) := by
  cases el with
  | none =>
    refine .inl ⟨rfl, fun e he => ?_⟩
    by_contra hk
    obtain ⟨_, h, -⟩ := hel.first e he (Nat.le_of_not_lt hk)
    cases h
  | some a =>
    obtain ⟨r, hr, rfl⟩ := hel.mem a rfl
    have hk := hel.le _ rfl
    have hlinked := h.linked hr
    have hmemLinked : ∀ b, b ∈ r :: s.records.filter (fun b => decide (r.addr < b.addr)) ↔
        b ∈ s.records ∧ r.addr ≤ b.addr := by
      intro b
      rw [List.mem_cons, List.mem_filter, decide_eq_true_eq]
      constructor
      · rintro (rfl | ⟨hb, hlt⟩)
        · exact ⟨hr, Nat.le_refl _⟩
        · exact ⟨hb, Nat.le_of_lt hlt⟩
      · rintro ⟨hb, hle⟩
        rcases Nat.eq_or_lt_of_le hle with heq | hlt
        · exact .inl (h.increasing.eq_of_stamp hb hr heq.symm)
        · exact .inr ⟨hb, hlt⟩
    have hinc : Increasing JSMapRecord.addr
        (r :: s.records.filter fun b => decide (r.addr < b.addr)) :=
      List.pairwise_cons.mpr ⟨fun b hb => by simpa using (List.mem_filter.mp hb).2,
        h.increasing.sublist List.filter_sublist⟩
    cases hfind : (r :: s.records.filter fun b => decide (r.addr < b.addr)).find? (!·.empty) with
    | none =>
      refine .inl ⟨by simp only [Map.lockNext, hlinked, ok_bind, hfind, pure_eq_ok], fun e he => ?_⟩
      by_contra hke
      obtain ⟨_, ⟨⟩, hle⟩ := hel.first e he (Nat.le_of_not_lt hke)
      obtain ⟨b, hb, hbe, rfl⟩ := mem_live.mp he
      have := List.find?_eq_none.mp hfind b ((hmemLinked b).mpr ⟨hb, hle⟩)
      simp [hbe] at this
    | some mr =>
      have hmem := (hmemLinked mr).mp (List.mem_of_find?_eq_some hfind)
      refine .inr ⟨mr, hmem.1, by simpa using List.find?_some hfind, Nat.le_trans hk hmem.2,
        fun e he hke => ?_, ?_⟩
      · obtain ⟨_, ⟨⟩, hle⟩ := hel.first e he hke
        obtain ⟨b, hb, hbe, rfl⟩ := mem_live.mp he
        exact hinc.find?_le hfind ((hmemLinked b).mpr ⟨hb, hle⟩) (by simp [hbe])
      · simp only [Map.lockNext, hlinked, ok_bind, hfind, pure_eq_ok]

/-- Locking a record. -/
theorem Balanced.lock (h : Balanced locks s) (hr : r ∈ s.records) : Balanced (lockAt locks r.addr)
      (s.modify r.addr fun mr => { mr with refCount := mr.refCount + 1 }) := by
  refine h.setRefCount hr (fun _ => rfl) (fun b hb => ?_) ?_ (Nat.succ_pos _)
  · rw [lockAt, if_neg hb, Nat.add_zero]
  · have hcount := h.refCount r hr
    rw [lockAt, if_pos rfl]
    show r.refCount + 1 = (if r.empty then 0 else 1) + _
    omega

end QuickJs.Map
