import QuickJs.MapCursors
import Mathlib.Data.List.Nodup

/-!
# The hash table

Every bucket holds the entries of its hash, in insertion order, for the current size of the
table. So a lookup finds the first entry of the bucket of the key which is
the same as the key.
-/

namespace QuickJs.Map

open JSMapState Stamped

/-- The hash table and the count describe the entries. -/
structure Hashed (s : JSMapState) : Prop where
  count : s.recordCount = s.live.length
  table : ∀ b, s.hashTable b = (s.live.filter fun e => s.bucket e.key == b).map (·.addr)
  normal : ∀ e ∈ s.live, Normal e.key

/-- The invariant of a map between two operations. -/
structure MapInv (s : JSMapState) : Prop where
  tidy : Tidy s
  hashed : Hashed s

variable {s s' : JSMapState} {locks : ℕ → ℕ} {key : JSValue} {a : ℕ} {destroyed : List ℕ}

theorem SameMap.bucket (h : SameMap s s') (key : JSValue) : s'.bucket key = s.bucket key := by
  rw [JSMapState.bucket, h.hashSize, JSMapState.bucket]

theorem SameMap.hashed (h : SameMap s s') (hhash : Hashed s) : Hashed s' where
  count := by rw [h.recordCount, h.live, hhash.count]
  table b := by simp only [h.hashTable, h.live, h.bucket, hhash.table]
  normal := h.live ▸ hhash.normal

theorem Balanced.live_increasing (h : Balanced locks s) : Increasing Entry.addr s.live :=
  List.pairwise_map.mpr (h.increasing.sublist List.filter_sublist)

variable {e : Entry} {r : JSMapRecord}

theorem Balanced.record_of_live (h : Balanced locks s) (he : e ∈ s.live) :
    ∃ r ∈ s.records, r.empty = false ∧ r.entry = e ∧ s.record e.addr = .ok r := by
  obtain ⟨r, hr, hre, rfl⟩ := mem_live.mp he
  exact ⟨r, hr, hre, rfl, h.record hr⟩

theorem mapInv_jsMapConstructor (isSet : Bool) : MapInv (jsMapConstructor isSet) where
  tidy := ⟨⟨.nil, fun _ h => absurd h List.not_mem_nil, fun _ h => absurd h List.not_mem_nil,
    fun _ h => absurd h List.not_mem_nil, fun _ h => absurd h (Nat.lt_irrefl 0)⟩,
    fun _ h => absurd h List.not_mem_nil⟩
  hashed := ⟨rfl, fun _ => rfl, fun _ h => absurd h List.not_mem_nil⟩

/-! ## Lookup -/

theorem Balanced.findInBucket (h : Balanced locks s) {es : List Entry} (hes : ∀ e ∈ es, e ∈ s.live) :
    findInBucket s key (es.map (·.addr)) =
      .ok ((es.find? fun e => jsSameValueZero e.key key).map (·.addr)) := by
  induction es with
  | nil => rfl
  | cons e es ih =>
    obtain ⟨r, -, -, rfl, hrec⟩ := h.record_of_live (hes e (List.mem_cons_self ..))
    have ih := ih fun b hb => hes b (List.mem_cons_of_mem _ hb)
    rw [List.map_cons, Map.findInBucket, hrec, ok_bind, ih]
    cases hsame : jsSameValueZero r.key key
    · rw [List.find?_cons_of_neg (by simpa [JSMapRecord.entry] using hsame)]
      rfl
    · rw [List.find?_cons_of_pos (by simpa [JSMapRecord.entry] using hsame)]
      rfl

/-- The entry a lookup finds. -/
def JSMapState.found (s : JSMapState) (key : JSValue) : Option Entry :=
  s.live.find? fun e => s.bucket e.key == s.bucket key && jsSameValueZero e.key key

/-- A lookup reads no freed record. -/
theorem MapInv.mapFindRecord (h : MapInv s) (key : JSValue) :
    mapFindRecord s key = .ok ((s.found key).map (·.addr)) := by
  rw [Map.mapFindRecord, h.hashed.table,
    h.tidy.balanced.findInBucket fun e he => List.mem_of_mem_filter he, List.find?_filter, found]
  simp only [Bool.decide_and, Bool.decide_eq_true]

theorem mem_of_found (h : s.found key = some e) :
    e ∈ s.live ∧ jsSameValueZero e.key key = true := by
  have hp := List.find?_some h
  rw [Bool.and_eq_true] at hp
  exact ⟨List.mem_of_find?_eq_some h, hp.2⟩

/-! ## Replacing a value -/

/-- The entry with another value. -/
def Entry.setValue (a : ℕ) (value : JSValue) (e : Entry) : Entry :=
  if e.addr = a then { e with value } else e

@[simp] theorem Entry.setValue_addr (a : ℕ) (value : JSValue) (e : Entry) :
    (e.setValue a value).addr = e.addr := by
  unfold Entry.setValue
  split <;> rfl

@[simp] theorem Entry.setValue_key (a : ℕ) (value : JSValue) (e : Entry) :
    (e.setValue a value).key = e.key := by
  unfold Entry.setValue
  split <;> rfl

theorem live_setValue (s : JSMapState) (a : ℕ) (value : JSValue) :
    (s.modify a fun mr => { mr with value }).live = s.live.map (Entry.setValue a value) := by
  simp only [JSMapState.live, JSMapState.modify, List.filter_map, List.map_map]
  congr 1
  · funext r
    simp only [Function.comp_apply, Entry.setValue, JSMapRecord.entry]
    split <;> rfl
  · congr 1
    funext r
    simp only [Function.comp_apply]
    split <;> rfl

theorem Tidy.setValue (h : Tidy s) (hr : r ∈ s.records) (value : JSValue) :
    Tidy (s.modify r.addr fun mr => { mr with value }) := by
  refine ⟨h.balanced.setRefCount hr (fun _ => rfl) (fun _ _ => rfl) (h.balanced.refCount r hr)
    (h.balanced.pos r hr), fun c hc => ?_⟩
  have hsound := h.sound c hc
  refine { hsound with complete := fun e he hlt => ?_ }
  rw [live_setValue] at he
  obtain ⟨b, hb, rfl⟩ := List.mem_map.mp he
  rw [Entry.setValue_addr] at hlt ⊢
  exact hsound.complete b hb hlt

theorem Hashed.setValue (h : Hashed s) (a : ℕ) (value : JSValue) :
    Hashed (s.modify a fun mr => { mr with value }) where
  count := by rw [live_setValue, List.length_map, ← h.count, JSMapState.modify]
  table b := by
    rw [live_setValue, List.filter_map, List.map_map]
    simp only [Function.comp_def, Entry.setValue_addr, Entry.setValue_key]
    exact h.table b
  normal := by
    rw [live_setValue]
    rintro _ he
    obtain ⟨b, hb, rfl⟩ := List.mem_map.mp he
    rw [Entry.setValue_key]
    exact h.normal b hb

/-! ## Adding -/

theorem live_linkRecord (s : JSMapState) (key : JSValue) :
    (linkRecord s key).live = s.live ++ [⟨s.fresh, key, .undefined⟩] := by
  simp [JSMapState.live, linkRecord, JSMapRecord.entry]

theorem Tidy.linkRecord (h : Tidy s) (key : JSValue) : Tidy (linkRecord s key) := by
  have hbal := h.balanced
  have hzero : s.locks s.fresh = 0 := by
    by_contra hne
    obtain ⟨r, hr, heq⟩ := hbal.held _ (Nat.pos_of_ne_zero hne)
    exact absurd (hbal.fresh r hr) (by omega)
  refine ⟨⟨hbal.increasing.concat hbal.fresh, fun r hr => ?_, fun r hr => ?_, fun r hr => ?_,
    fun a ha => ?_⟩, fun c hc => (h.sound c hc).mono (Nat.le_succ _) fun e he => ?_⟩
  · rcases List.mem_append.mp hr with hr | hr
    · exact Nat.lt_succ_of_lt (hbal.fresh r hr)
    · rw [List.mem_singleton.mp hr]
      exact Nat.lt_succ_self _
  · rcases List.mem_append.mp hr with hr | hr
    · exact hbal.refCount r hr
    · rw [List.mem_singleton.mp hr]
      show 1 = 1 + s.locks s.fresh
      rw [hzero]
  · rcases List.mem_append.mp hr with hr | hr
    · exact hbal.pos r hr
    · rw [List.mem_singleton.mp hr]
      exact Nat.one_pos
  · obtain ⟨r, hr, heq⟩ := hbal.held a ha
    exact ⟨r, List.mem_append_left _ hr, heq⟩
  · rw [live_linkRecord, List.mem_append, List.mem_singleton] at he
    rcases he with he | rfl
    · exact .inl he
    · exact .inr (Nat.le_refl _)

theorem Hashed.linkRecord (h : Hashed s) (hkey : Normal key) : Hashed (linkRecord s key) where
  count := by
    rw [live_linkRecord, List.length_append, ← h.count]
    rfl
  table b := by
    have hb := h.table b
    rw [live_linkRecord, List.filter_append, List.map_append]
    show addTail s.hashTable (s.bucket key) s.fresh b =
      (s.live.filter fun e : Entry => s.bucket e.key == b).map Entry.addr ++
        (([⟨s.fresh, key, .undefined⟩] : List Entry).filter fun e =>
          s.bucket e.key == b).map Entry.addr
    rw [addTail, hb]
    by_cases heq : b = s.bucket key
    · simp [heq]
    · simp [heq, Ne.symm heq]
  normal e he := by
    rw [live_linkRecord, List.mem_append, List.mem_singleton] at he
    rcases he with he | rfl
    · exact h.normal e he
    · exact hkey

/-- The loop of `map_hash_resize` fills every bucket in insertion order. -/
theorem foldl_addTail (hash : JSValue → ℕ) (rs : List JSMapRecord) (table : ℕ → List ℕ) (b : ℕ) :
    rs.foldl (fun table mr => if mr.empty then table else addTail table (hash mr.key) mr.addr)
      table b = table b ++ (((rs.filter (!·.empty)).map (·.entry)).filter
        fun e => hash e.key == b).map (·.addr) := by
  induction rs generalizing table with
  | nil => simp
  | cons r rs ih =>
    rw [List.foldl_cons, ih]
    cases he : r.empty
    · by_cases hb : b = hash r.key
      · simp [he, addTail, hb, JSMapRecord.entry]
      · simp [he, addTail, hb, Ne.symm hb, JSMapRecord.entry]
    · simp [he]

theorem live_mapHashResize (s : JSMapState) (memory : Option ℕ) : (mapHashResize s memory).live = s.live := by
  cases memory <;> rfl

theorem Tidy.mapHashResize (h : Tidy s) (memory : Option ℕ) : Tidy (mapHashResize s memory) := by
  cases memory with
  | none => exact h
  | some slack =>
    have hbal := h.balanced
    exact ⟨⟨hbal.increasing, hbal.fresh, hbal.refCount, hbal.pos, hbal.held⟩, fun c hc =>
      (h.sound c hc).mono (Nat.le_refl _) fun _ he => .inl he⟩

theorem Hashed.mapHashResize (h : Hashed s) (memory : Option ℕ) : Hashed (mapHashResize s memory) := by
  cases memory with
  | none => exact h
  | some slack =>
    refine ⟨h.count, fun b => ?_, h.normal⟩
    let size := (if s.hashSize = 1 then 4 else s.hashSize * 2) + slack
    exact foldl_addTail (fun k => (mapHashKey k).toNat &&& (size - 1)) s.records (fun _ => []) b

theorem live_mapAddRecord (s : JSMapState) (key : JSValue) (memory : Memory) :
    (mapAddRecord s key memory).live = s.live ++ [⟨s.fresh, key, .undefined⟩] := by
  rw [mapAddRecord, ← live_linkRecord]
  split
  · exact live_mapHashResize ..
  · rfl

theorem mapAddRecord_frame (s : JSMapState) (key : JSValue) (memory : Memory) :
    (mapAddRecord s key memory).isSet = s.isSet ∧ (mapAddRecord s key memory).fresh = s.fresh + 1 ∧
      (mapAddRecord s key memory).cursors = s.cursors := by
  rw [mapAddRecord]
  split
  · cases memory.table <;> exact ⟨rfl, rfl, rfl⟩
  · exact ⟨rfl, rfl, rfl⟩

theorem MapInv.mapAddRecord (h : MapInv s) (hkey : Normal key) (memory : Memory) :
    MapInv (mapAddRecord s key memory) := by
  rw [Map.mapAddRecord]
  split
  · exact ⟨(h.tidy.linkRecord key).mapHashResize _, (h.hashed.linkRecord hkey).mapHashResize _⟩
  · exact ⟨h.tidy.linkRecord key, h.hashed.linkRecord hkey⟩

/-! ## Deleting -/

/-- The entries without the one at an address. -/
def without (a : ℕ) (es : List Entry) : List Entry := es.filter (·.addr != a)

theorem live_free (s : JSMapState) (a : ℕ) : (s.free a).live = without a s.live := by
  simp only [JSMapState.live, JSMapState.free, without, List.filter_map, List.filter_filter]
  congr 1
  refine List.filter_congr fun r _ => ?_
  rw [Bool.and_comm]
  rfl

theorem live_empty (s : JSMapState) (a : ℕ) {f : JSMapRecord → JSMapRecord}
    (hf : ∀ r, (f r).empty = true) : (s.modify a f).live = without a s.live := by
  simp only [JSMapState.live, JSMapState.modify, without, List.filter_map, List.filter_filter, List.map_map]
  have hfilter : s.records.filter ((!·.empty) ∘ fun r => if r.addr = a then f r else r) =
      s.records.filter fun r => ((·.addr != a) ∘ JSMapRecord.entry) r && !r.empty := by
    refine List.filter_congr fun r _ => ?_
    by_cases hr : r.addr = a <;> simp [hr, hf]
  rw [hfilter]
  refine List.map_congr_left fun r hr => ?_
  have hne : r.addr ≠ a := by
    have := (List.mem_filter.mp hr).2
    simp only [Function.comp_apply, Bool.and_eq_true, bne_iff_ne] at this
    exact this.1
  simp only [Function.comp_apply, if_neg hne]

/-- Unlinking an entry from its bucket. -/
theorem Hashed.without (h : Hashed s) (hinc : Increasing Entry.addr s.live)
    (he : e ∈ s.live) (hlive : s'.live = without e.addr s.live)
    (hsize : s'.hashSize = s.hashSize) (hcount : s'.recordCount = s.recordCount - 1)
    (htable : s'.hashTable = fun b => (s.hashTable b).erase e.addr) : Hashed s' where
  count := by
    have hmap : (Map.without e.addr s.live).map (·.addr) = (s.live.map (·.addr)).erase e.addr := by
      rw [hinc.nodup.erase_eq_filter, List.filter_map]
      rfl
    have hlen := congrArg List.length hmap
    rw [List.length_map, List.length_erase_of_mem (List.mem_map_of_mem he), List.length_map] at hlen
    rw [hcount, hlive, h.count, hlen]
  table b := by
    have hnodup : ((s.live.filter fun e => s.bucket e.key == b).map (·.addr)).Nodup :=
      hinc.nodup.sublist (List.filter_sublist.map _)
    have hbucket : ∀ k, s'.bucket k = s.bucket k := fun k => by
      rw [JSMapState.bucket, hsize, JSMapState.bucket]
    rw [htable, hlive]
    dsimp only
    rw [h.table b, hnodup.erase_eq_filter, List.filter_map, Map.without]
    simp only [List.filter_filter, hbucket]
    congr 1
    refine List.filter_congr fun d _ => ?_
    exact Bool.and_comm ..
  normal := by
    rw [hlive]
    exact fun d hd => h.normal d (List.mem_of_mem_filter hd)

theorem Tidy.dropRecord (h : Tidy s) (hr : r ∈ s.records)
    (hre : r.empty = false) : ∃ s', dropRecord s r.addr = .ok s' ∧ Tidy s' ∧
      s'.live = without r.addr s.live ∧ s'.recordCount = s.recordCount - 1 ∧
      s'.isSet = s.isSet ∧ s'.fresh = s.fresh ∧ s'.hashSize = s.hashSize ∧
      s'.hashTable = s.hashTable ∧ s'.cursors = s.cursors := by
  have hcount := h.balanced.refCount r hr
  rw [hre, if_neg (by simp)] at hcount
  have hsound : ∀ s' : JSMapState, s'.live = without r.addr s.live → s'.fresh = s.fresh →
      ∀ c ∈ s.cursors, c.Sound s' := fun s' hlive hfresh c hc =>
    (h.sound c hc).mono (Nat.le_of_eq hfresh.symm) fun e he =>
      .inl (List.mem_of_mem_filter (hlive ▸ he))
  by_cases hlast : r.refCount - 1 = 0
  · have hbal : Balanced s.locks (s.free r.addr) :=
      h.balanced.free (fun _ _ => rfl) (by omega)
    have hlive := live_free s r.addr
    refine ⟨{ s.free r.addr with recordCount := s.recordCount - 1 }, ?_,
      ⟨⟨hbal.increasing, hbal.fresh, hbal.refCount, hbal.pos, hbal.held⟩, ?_⟩, hlive, rfl, rfl, rfl,
      rfl, rfl, rfl⟩
    · simp only [Map.dropRecord, h.balanced.record hr, ok_bind, if_pos hlast]
      rfl
    · exact hsound _ hlive rfl
  · let zombie : JSMapRecord → JSMapRecord := fun mr =>
      { mr with refCount := mr.refCount - 1, empty := true, key := .undefined, value := .undefined }
    have hbal : Balanced s.locks (s.modify r.addr zombie) :=
      h.balanced.setRefCount hr (fun _ => rfl) (fun _ _ => rfl)
        (show r.refCount - 1 = 0 + s.locks r.addr by omega) (Nat.pos_of_ne_zero hlast)
    have hlive := live_empty s r.addr (f := zombie) fun _ => rfl
    refine ⟨{ s.modify r.addr zombie with recordCount := s.recordCount - 1 }, ?_,
      ⟨⟨hbal.increasing, hbal.fresh, hbal.refCount, hbal.pos, hbal.held⟩, ?_⟩, hlive, rfl, rfl, rfl,
      rfl, rfl, rfl⟩
    · simp only [Map.dropRecord, h.balanced.record hr, ok_bind, if_neg hlast]
      rfl
    · exact hsound _ hlive rfl

/-- Deleting the record of an entry reads no freed record, whichever iterators the key and
the value destroy. -/
theorem MapInv.mapDeleteRecord (h : MapInv s) (he : e ∈ s.live) (destroyed : List ℕ) :
    (destroyed ≠ [] ∧ mapDeleteRecord s e.addr destroyed = .error .notEntitled) ∨
      ∃ s', mapDeleteRecord s e.addr destroyed = .ok s' ∧ MapInv s' ∧
        s'.live = without e.addr s.live ∧ s'.isSet = s.isSet ∧ s'.fresh = s.fresh ∧
        Freed destroyed s s' := by
  obtain ⟨r, hr, hre, rfl, hrec⟩ := h.tidy.balanced.record_of_live he
  have hbal := h.tidy.balanced
  -- the record is out of the table while its key and value are freed
  have h₀ : Tidy (unlinkHash s r.addr) :=
    ⟨⟨hbal.increasing, hbal.fresh, hbal.refCount, hbal.pos, hbal.held⟩,
      fun c hc => (h.tidy.sound c hc).mono (Nat.le_refl _) fun _ hd => .inl hd⟩
  have hunfold : Map.mapDeleteRecord s r.entry.addr destroyed =
      (freeValue (unlinkHash s r.addr) destroyed >>= fun s => dropRecord s r.addr) := by
    simp only [Map.mapDeleteRecord, hrec, ok_bind, hre]
    rfl
  rw [hunfold]
  rcases h₀.freeValue destroyed with ⟨hne, herr⟩ | ⟨s₁, hs₁, h₁, hsame, hfreed⟩
  · rw [herr]
    exact .inl ⟨hne, rfl⟩
  obtain ⟨r₁, hr₁, hre₁, heq⟩ := hsame.mem_of_live (r := r) hr hre
  have haddr : r₁.addr = r.addr := congrArg Entry.addr heq
  obtain ⟨s', hs', htidy, hlive, hcount, hset, hfresh, hsize, htable, hcur⟩ :=
    h₁.dropRecord hr₁ hre₁
  rw [haddr] at hs' hlive
  rw [hs₁, ok_bind, hs']
  have hlive' : s'.live = without r.addr s.live := hlive.trans (congrArg _ hsame.live)
  refine .inr ⟨s', rfl, ⟨htidy, h.hashed.without hbal.live_increasing he hlive' ?_ ?_ ?_⟩, hlive',
    hset.trans hsame.isSet, hfresh.trans hsame.fresh, ⟨fun j hj => ?_, fun j => ?_⟩⟩
  · exact hsize.trans hsame.hashSize
  · rw [hcount, hsame.recordCount]
    rfl
  · exact htable.trans hsame.hashTable
  · rw [hcur]
    exact hfreed.kept j hj
  · rw [hcur]
    exact hfreed.retired j

/-! ## Methods -/

/-- What `js_map_set` does: it replaces the value of the entry found, or appends an entry if
there is memory. -/
theorem MapInv.jsMapSet (h : MapInv s) (key value : JSValue) (memory : Memory) (destroyed : List ℕ) :
    (∃ e, s.found (mapNormalizeKey key) = some e ∧
      ((destroyed ≠ [] ∧ jsMapSet s key value memory destroyed = .error .notEntitled) ∨
        ∃ s', jsMapSet s key value memory destroyed = .ok (s', .this) ∧ MapInv s' ∧
          s'.live = s.live.map (Entry.setValue e.addr (if s.isSet then .undefined else value)) ∧
          s'.isSet = s.isSet ∧ s'.fresh = s.fresh ∧ Freed destroyed s s')) ∨
    (s.found (mapNormalizeKey key) = none ∧ memory.record = false ∧
      jsMapSet s key value memory destroyed = .ok (s, .exception)) ∨
    (s.found (mapNormalizeKey key) = none ∧ memory.record = true ∧
      ∃ s', jsMapSet s key value memory destroyed = .ok (s', .this) ∧ MapInv s' ∧ s'.live = s.live ++
          [⟨s.fresh, mapNormalizeKey key, if s.isSet then .undefined else value⟩] ∧
        s'.isSet = s.isSet ∧ s'.fresh = s.fresh + 1 ∧ s'.cursors = s.cursors) := by
  have hfind := h.mapFindRecord (mapNormalizeKey key)
  cases hfound : s.found (mapNormalizeKey key) with
  | some e =>
    refine .inl ⟨e, rfl, ?_⟩
    rw [hfound, Option.map_some] at hfind
    simp only [Map.jsMapSet, hfind]
    obtain ⟨he, -⟩ := mem_of_found hfound
    rcases h.tidy.freeValue destroyed with ⟨hne, herr⟩ | ⟨s₁, hs₁, h₁, hsame, hfreed⟩
    · rw [herr]
      exact .inl ⟨hne, rfl⟩
    · obtain ⟨r, hr, -, rfl, hrec⟩ := h₁.balanced.record_of_live (hsame.live ▸ he)
      simp only [hs₁, ok_bind, hrec]
      refine .inr ⟨_, rfl, ⟨h₁.setValue hr _, (hsame.hashed h.hashed).setValue _ _⟩, ?_, hsame.isSet,
        hsame.fresh, ⟨hfreed.kept, hfreed.retired⟩⟩
      rw [live_setValue, hsame.live]
  | none =>
    rw [hfound] at hfind
    simp only [Map.jsMapSet, hfind]
    cases hmem : memory.record
    · exact .inr (.inl ⟨trivial, rfl, rfl⟩)
    · refine .inr (.inr ⟨trivial, rfl, _, rfl, ?_⟩)
      have hinv := h.mapAddRecord (normal_mapNormalizeKey key) memory
      have hlive := live_mapAddRecord s (mapNormalizeKey key) memory
      have hnew : (⟨s.fresh, mapNormalizeKey key, .undefined⟩ : Entry) ∈
          (Map.mapAddRecord s (mapNormalizeKey key) memory).live := by
        rw [hlive]
        exact List.mem_append_right _ (List.mem_singleton_self _)
      obtain ⟨r, hr, -, hentry, -⟩ := hinv.tidy.balanced.record_of_live hnew
      have haddr : r.addr = s.fresh := congrArg Entry.addr hentry
      have htidy := hinv.tidy.setValue hr (if s.isSet then .undefined else value)
      rw [haddr] at htidy
      refine ⟨⟨htidy, hinv.hashed.setValue _ _⟩, ?_, ?_⟩
      · rw [live_setValue, hlive, List.map_append]
        refine congrArg₂ _ ?_ ?_
        · refine (List.map_congr_left fun d hd => ?_).trans (List.map_id _)
          obtain ⟨b, hb, -, rfl⟩ := mem_live.mp hd
          exact if_neg (Nat.ne_of_lt (h.tidy.balanced.fresh b hb))
        · simp [Entry.setValue]
      · exact mapAddRecord_frame s _ memory

/-- What `js_map_delete` does. -/
theorem MapInv.jsMapDelete (h : MapInv s) (key : JSValue) (destroyed : List ℕ) :
    (∃ e, s.found (mapNormalizeKey key) = some e ∧
      ((destroyed ≠ [] ∧ jsMapDelete s key destroyed = .error .notEntitled) ∨
        ∃ s', jsMapDelete s key destroyed = .ok (s', .value (.bool true)) ∧ MapInv s' ∧
          s'.live = without e.addr s.live ∧ s'.isSet = s.isSet ∧ s'.fresh = s.fresh ∧
          Freed destroyed s s')) ∨
    (s.found (mapNormalizeKey key) = none ∧ jsMapDelete s key destroyed = .ok (s, .value (.bool false))) := by
  have hfind := h.mapFindRecord (mapNormalizeKey key)
  cases hfound : s.found (mapNormalizeKey key) with
  | some e =>
    refine .inl ⟨e, rfl, ?_⟩
    rw [hfound, Option.map_some] at hfind
    simp only [Map.jsMapDelete, hfind, ok_bind]
    rcases h.mapDeleteRecord (mem_of_found hfound).1 destroyed with ⟨hne, herr⟩ | ⟨s', hs', hspec⟩
    · rw [herr]
      exact .inl ⟨hne, rfl⟩
    · exact .inr ⟨s', by rw [hs', ok_bind, pure_eq_ok], hspec⟩
  | none =>
    rw [hfound, Option.map_none] at hfind
    exact .inr ⟨rfl, by simp only [Map.jsMapDelete, hfind, ok_bind, pure_eq_ok]⟩

/-- What `js_map_get` returns. -/
theorem MapInv.jsMapGet (h : MapInv s) (key : JSValue) : jsMapGet s key =
      .ok (s, .value (((s.found (mapNormalizeKey key)).map (·.value)).getD .undefined)) := by
  have hfind := h.mapFindRecord (mapNormalizeKey key)
  cases hfound : s.found (mapNormalizeKey key) with
  | some e =>
    rw [hfound, Option.map_some] at hfind
    obtain ⟨r, -, -, rfl, hrec⟩ := h.tidy.balanced.record_of_live (mem_of_found hfound).1
    simp only [Map.jsMapGet, hfind, ok_bind, hrec]
    rfl
  | none =>
    rw [hfound] at hfind
    simp only [Map.jsMapGet, hfind]
    rfl

/-- What `js_map_has` returns. -/
theorem MapInv.jsMapHas (h : MapInv s) (key : JSValue) :
    jsMapHas s key = .ok (s, .value (.bool (s.found (mapNormalizeKey key)).isSome)) := by
  simp only [Map.jsMapHas, h.mapFindRecord, ok_bind, pure_eq_ok, Option.isSome_map]

end QuickJs.Map
