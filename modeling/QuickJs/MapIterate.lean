import QuickJs.MapTable
import QuickJs.Run

/-!
# Iteration under mutation

Iterators and `forEach` walk over a map while the program sets, deletes, clears and frees
values in any order. A locked record stays linked, so a walk can go on from it. But
`js_map_clear` and `js_map_forEach` also keep the link after the record at hand, which is not
locked, while they free values. As long as no such step frees the deleted record at that
link, nothing freed is ever looked at and every walk is complete.
-/

namespace QuickJs.Map

open JSMapState Stamped Run

variable {s s' t : JSMapState} {c c' : Cursor} {i j a k : ℕ} {el : Option ℕ} {destroyed : List ℕ}

/-! ## The progress of a walk -/

/-- The cursor number `i`; one that is not created yet has produced nothing. -/
def JSMapState.cursor (s : JSMapState) (i : ℕ) : Cursor := s.cursors[i]?.getD ⟨.gone, [], 0⟩

/-- What a walk does in a step from the map `s`: it goes forward and produces exactly the
entries it passes, none of which is deleted. It ends when it has passed everything. -/
structure Cursor.Advances (s : JSMapState) (c c' : Cursor) : Prop where
  passed_le : c.passed ≤ c'.passed
  live : ∃ new, c'.produced = c.produced ++ new ∧ ∀ a ∈ new, c.passed ≤ a ∧ ∃ e ∈ s.live, e.addr = a
  complete : ∀ e ∈ s.live, c.passed ≤ e.addr → e.addr < c'.passed → e.addr ∈ c'.produced
  ended : c.walker.ended = false → c'.walker.ended = true → c'.passed = s.fresh

/-- A walk that stands still. -/
theorem Cursor.Advances.still (hproduced : c'.produced = c.produced) (hpassed : c'.passed = c.passed)
    (hended : c.walker.ended = false → c'.walker.ended = false) : c.Advances s c' where
  passed_le := Nat.le_of_eq hpassed.symm
  live := ⟨[], by rw [hproduced, List.append_nil], nofun⟩
  complete e _ hle hlt := absurd hle (by omega)
  ended h h' := by
    rw [hended h] at h'
    cases h'

theorem Cursor.Advances.refl (s : JSMapState) (c : Cursor) : c.Advances s c := .still rfl rfl id

/-- Destroying iterators produces nothing. -/
theorem Freed.advances (h : Freed destroyed s s') (i : ℕ) : (s.cursor i).Advances s (s'.cursor i) := by
  rw [JSMapState.cursor, JSMapState.cursor]
  rcases h.retired i with h | h <;> rw [h]
  · exact .refl s _
  · cases s.cursors[i]? with
    | none => exact .refl s _
    | some c => exact .still rfl rfl fun _ => rfl

theorem cursor_setCursor_ne (h : j ≠ i) : (s.setCursor i c).cursor j = s.cursor j := by
  rw [JSMapState.cursor, setCursor, List.getElem?_set_ne (Ne.symm h), JSMapState.cursor]

theorem cursor_setCursor (hi : i < s.cursors.length) : (s.setCursor i c).cursor i = c := by
  rw [JSMapState.cursor, setCursor, List.getElem?_set_self hi, Option.getD_some]

/-- A step of the cursor `i` alone. -/
theorem advances_setCursor (hcur : ∀ j, j ≠ i → (s.cursor j).Advances s (s'.cursor j))
    (hi : i < s'.cursors.length) (hc : (s.cursor i).Advances s c) (j : ℕ) :
    (s.cursor j).Advances s ((s'.setCursor i c).cursor j) := by
  by_cases hj : j = i
  · subst hj
    rwa [cursor_setCursor hi]
  · rw [cursor_setCursor_ne hj]
    exact hcur j hj

/-! ## The end and the next record of a walk

The cursor `c` has given up its lock; `t` is the map in which its walk goes on. -/

theorem setCursor_setCursor (s : JSMapState) (i : ℕ) (c c' : Cursor) :
    (s.setCursor i c).setCursor i c' = s.setCursor i c' := by
  rw [setCursor, setCursor, setCursor, List.set_set]

variable {w : Walker} {r : JSMapRecord}

section Walk

variable (hu : Tidy (t.setCursor i c.retire)) (hi : i < t.cursors.length)
include hu hi

theorem Tidy.sound_retired : c.retire.Sound t :=
  (hu.sound _ (List.mem_of_getElem? (by rw [setCursor, List.getElem?_set_self hi]))).sameMap
    ⟨rfl, rfl, rfl, rfl, rfl, rfl, rfl⟩

/-- The walk ends. -/
theorem Tidy.endWalk (hall : ∀ e ∈ t.live, e.addr < c.passed) (hw : w.lock = none)
    (hend : w.ended = true) : Tidy (t.setCursor i ⟨w, c.produced, t.fresh⟩) := by
  have hsound := hu.sound_retired hi
  have hget : (t.setCursor i c.retire).cursors[i]? = some c.retire := by
    rw [setCursor, List.getElem?_set_self hi]
  rw [← setCursor_setCursor t i c.retire]
  refine ⟨?_, fun d hd => ?_⟩
  · rw [locks_unlocked hget rfl hw]
    exact hu.balanced.setCursor
  · rcases mem_setCursor hd with hd | rfl
    · exact (hu.sound d hd).sameMap sameMap_setCursor
    · refine ⟨fun a ha => ?_, ?_, ?_, hsound.increasing,
        fun a ha => Nat.lt_of_lt_of_le (hsound.below a ha) hsound.passed_le, Nat.le_refl _,
        fun e he _ => hsound.complete e he (hall e he)⟩
      · rw [hw] at ha
        cases ha
      · rintro kind rfl
        cases hend
      · rintro it rfl -
        exact hw

/-- The walk goes on with the next record. -/
theorem Tidy.moveWalk {mr : JSMapRecord} (hmr : mr ∈ t.records) (hk : c.passed ≤ mr.addr)
    (hfirst : ∀ e ∈ t.live, c.passed ≤ e.addr → mr.addr ≤ e.addr)
    (hw : w.lock = some mr.addr) (hend : w.ended = false) :
    Tidy ((t.modify mr.addr fun mr => { mr with refCount := mr.refCount + 1 }).setCursor i
      ⟨w, c.produced ++ [mr.addr], mr.addr + 1⟩) := by
  have hsound := hu.sound_retired hi
  have hget : (t.setCursor i c.retire).cursors[i]? = some c.retire := by
    rw [setCursor, List.getElem?_set_self hi]
  have hsame := sameMap_modify (s := t) mr.addr
    (f := fun mr => { mr with refCount := mr.refCount + 1 }) fun _ => ⟨rfl, rfl⟩
  have hbal := hu.balanced.lock (r := mr) hmr
  rw [← setCursor_setCursor _ i c.retire]
  refine ⟨?_, fun d hd => ?_⟩
  · rw [locks_lock (s := (t.modify mr.addr _).setCursor i c.retire) hget rfl hw]
    exact ⟨hbal.increasing, hbal.fresh, hbal.refCount, hbal.pos, hbal.held⟩
  · rcases mem_setCursor hd with hd | rfl
    · have hback : SameMap (t.setCursor i c.retire) t := ⟨rfl, rfl, rfl, rfl, rfl, rfl, rfl⟩
      exact (hu.sound d hd).sameMap (((hback.trans hsame).trans sameMap_setCursor).trans
        sameMap_setCursor)
    · refine ⟨fun a ha => ?_, ?_, ?_, ?_, ?_, ?_, ?_⟩
      · rw [hw] at ha
        obtain rfl := Option.some.inj ha
        rfl
      · rintro kind rfl
        cases hw
      · rintro it rfl hobj
        rw [Walker.ended, hobj] at hend
        cases hend
      · refine List.pairwise_append.mpr ⟨hsound.increasing, List.pairwise_singleton .., fun a ha b hb => ?_⟩
        rw [List.mem_singleton.mp hb]
        exact Nat.lt_of_lt_of_le (hsound.below a ha) hk
      · intro a ha
        rcases List.mem_append.mp ha with ha | ha
        · exact Nat.lt_succ_of_lt (Nat.lt_of_lt_of_le (hsound.below a ha) hk)
        · rw [List.mem_singleton.mp ha]
          exact Nat.lt_succ_self _
      · exact hu.balanced.fresh mr hmr
      · intro e he hlt
        have he : e ∈ t.live := hsame.live ▸ he
        by_cases hpassed : e.addr < c.passed
        · exact List.mem_append_left _ (hsound.complete e he hpassed)
        · have hle := hfirst e he (Nat.le_of_not_lt hpassed)
          have heq : e.addr = mr.addr := Nat.le_antisymm (Nat.le_of_lt_succ hlt) hle
          exact List.mem_append_right _ (List.mem_singleton.mpr heq)

end Walk

/-- The walk of `c` ends. -/
theorem Cursor.Advances.end (hle : c.passed ≤ s.fresh) (hall : ∀ e ∈ s.live, e.addr < c.passed)
    (w : Walker) : c.Advances s ⟨w, c.produced, s.fresh⟩ where
  passed_le := hle
  live := ⟨[], (List.append_nil _).symm, nofun⟩
  complete e he hle _ := absurd (hall e he) (Nat.not_lt.mpr hle)
  ended _ _ := rfl

/-- The walk of `c` goes on with the record `mr`. -/
theorem Cursor.Advances.move {e : Entry} (he : e ∈ s.live) (hk : c.passed ≤ e.addr)
    (hfirst : ∀ d ∈ s.live, c.passed ≤ d.addr → e.addr ≤ d.addr)
    (hw : w.ended = false) : c.Advances s ⟨w, c.produced ++ [e.addr], e.addr + 1⟩ where
  passed_le := Nat.le_succ_of_le hk
  live := ⟨[e.addr], rfl, fun a ha => by
    rw [List.mem_singleton.mp ha]
    exact ⟨hk, e, he, rfl⟩⟩
  complete d hd hle hlt := by
    have heq := Nat.le_antisymm (Nat.le_of_lt_succ hlt) (hfirst d hd hle)
    exact List.mem_append_right _ (List.mem_singleton.mpr heq)
  ended _ hend := by
    rw [hw] at hend
    cases hend

/-- What an operation of an entitled program does: it looks at no freed record, keeps the
invariant and lets the walks advance. -/
def Walks (s : JSMapState) (res : Except Fault (JSMapState × Outcome)) : Prop :=
  res = .error .notEntitled ∨
    ∃ s' out, res = .ok (s', out) ∧ MapInv s' ∧ ∀ j, (s.cursor j).Advances s (s'.cursor j)

/-- A walk goes on at a link, in a map `t` that differs from `s` in locks only. -/
theorem MapInv.walk (h : MapInv s) (hu : Tidy (t.setCursor i c.retire))
    (hi : i < t.cursors.length) (hsame : SameMap s t) (hc : s.cursor i = c)
    (hothers : ∀ j, j ≠ i → (s.cursor j).Advances s (t.cursor j)) (hel : Stands t c.passed el)
    (wEnd : Walker) (hwEnd : wEnd.lock = none ∧ wEnd.ended = true)
    (wAt : ℕ → Walker) (hwAt : ∀ a, (wAt a).lock = some a ∧ (wAt a).ended = false)
    (outEnd : Outcome) (outAt : Bool → JSMapRecord → Outcome) :
    Walks s (lockNext t el >>= fun p => match p with
      | (t, none) => .ok (t.setCursor i ⟨wEnd, c.produced, t.fresh⟩, outEnd)
      | (t, some mr) =>
        .ok (t.setCursor i ⟨wAt mr.addr, c.produced ++ [mr.addr], mr.addr + 1⟩, outAt t.isSet mr)) := by
  have hbal : Balanced (t.setCursor i c.retire).locks t :=
    ⟨hu.balanced.increasing, hu.balanced.fresh, hu.balanced.refCount, hu.balanced.pos, hu.balanced.held⟩
  rcases hbal.lockNext hel with ⟨hnext, hall⟩ | ⟨mr, hmr, hmre, hk, hfirst, hnext⟩
  · rw [hnext]
    refine .inr ⟨_, _, rfl, ⟨hu.endWalk hi hall hwEnd.1 hwEnd.2, ?_⟩, advances_setCursor hothers hi ?_⟩
    · exact (hsame.trans sameMap_setCursor).hashed h.hashed
    · rw [hc, hsame.fresh]
      exact .end (hsame.fresh ▸ (hu.sound_retired hi).passed_le) (hsame.live ▸ hall) wEnd
  · rw [hnext]
    have hlock := sameMap_modify (s := t) mr.addr
      (f := fun mr => { mr with refCount := mr.refCount + 1 }) fun _ => ⟨rfl, rfl⟩
    refine .inr ⟨_, _, rfl, ⟨hu.moveWalk hi hmr hk hfirst (hwAt _).1 (hwAt _).2, ?_⟩,
      advances_setCursor hothers hi ?_⟩
    · exact ((hsame.trans hlock).trans sameMap_setCursor).hashed h.hashed
    · rw [hc]
      exact .move (e := mr.entry) (hsame.live ▸ mem_live.mpr ⟨mr, hmr, hmre, rfl⟩) hk
        (hsame.live ▸ hfirst) (hwAt mr.addr).2

/-- The record at a link is still in memory if, when it is deleted, it keeps a lock. -/
theorem Stands.of_locks (h : Stands s k el) (locks : ℕ → ℕ) (hsame : SameMap s t) (hbal : Balanced locks t)
    (hkeep : ∀ r ∈ s.records, el = some r.addr → r.empty = true → 0 < locks r.addr) :
    Stands t k el := by
  refine h.sameMap hsame fun a ha => ?_
  obtain ⟨r, hr, rfl⟩ := h.mem a ha
  cases he : r.empty
  · obtain ⟨r', hr', -, heq⟩ := hsame.mem_of_live hr he
    exact ⟨r', hr', congrArg Entry.addr heq⟩
  · exact hbal.held _ (hkeep r hr ha he)

/-- A deleted record is locked. -/
theorem Tidy.locked_of_empty (h : Tidy s) (hr : r ∈ s.records)
    (he : r.empty = true) : 0 < s.locks r.addr := by
  have hcount := h.balanced.refCount r hr
  have hpos := h.balanced.pos r hr
  rw [he, if_pos rfl] at hcount
  omega

theorem cursor_eq (hi : s.cursors[i]? = some c) : s.cursor i = c := by
  rw [JSMapState.cursor, hi, Option.getD_some]

/-- Giving up the lock on the record `a` does not free the record at the link after it. -/
theorem Tidy.unlock_next (h : Tidy s) (hi : s.cursors[i]? = some c)
    (hlock : c.walker.lock = some a) : ∃ el t, s.next a = .ok el ∧ mapDecrefRecord s a = .ok t ∧
      Tidy (t.setCursor i c.retire) ∧ SameMap s t ∧ t.cursors = s.cursors ∧
      Stands s c.passed el ∧ Stands t c.passed el := by
  obtain ⟨r, hr, rfl⟩ := h.balanced.held a (locks_pos hi hlock)
  obtain ⟨el, hnext, hstands⟩ := h.balanced.next hr
  obtain ⟨t, ht, htidy, hsame, hcur⟩ := h.unlock hi hlock
  rw [← (h.sound c (List.mem_of_getElem? hi)).position _ hlock] at hstands
  refine ⟨el, t, hnext, ht, htidy, hsame, hcur, hstands, ?_⟩
  refine hstands.of_locks (t.setCursor i c.retire).locks hsame
    ⟨htidy.balanced.increasing, htidy.balanced.fresh, htidy.balanced.refCount,
      htidy.balanced.pos, htidy.balanced.held⟩ fun b hb hbel hbe => ?_
  have hne : b.addr ≠ r.addr := by
    have hle := hstands.le _ hbel
    rw [(h.sound c (List.mem_of_getElem? hi)).position _ hlock] at hle
    omega
  rw [locks_setCursor (hcur ▸ hi), hlock, if_neg (by simpa using Ne.symm hne)]
  have hpos := h.locked_of_empty hb hbe
  rw [locks] at hpos ⊢
  rw [hcur]
  omega

/-- A step of an iterator. -/
theorem MapInv.jsMapIteratorNext (h : MapInv s) (i : ℕ) : Walks s (jsMapIteratorNext s i) := by
  unfold Map.jsMapIteratorNext
  split
  · rename_i it produced passed hi
    have hsound := h.tidy.sound _ (List.mem_of_getElem? hi)
    have hlt := (List.getElem?_eq_some_iff.mp hi).1
    cases hobj : it.obj
    · exact .inr ⟨s, .done, by simp, h, fun j => .refl s _⟩
    · cases hcur : it.curRecord with
      | none =>
        have hit : it = ⟨true, it.kind, none⟩ := by
          cases it
          simp_all
        have hpassed : passed = 0 := hsound.start it.kind (congrArg Walker.iterator hit)
        have hstands := hpassed ▸ h.tidy.balanced.first
        have hwalk := h.walk (i := i) (c := ⟨.iterator it, produced, passed⟩)
          (h.tidy.retire hi hcur) hlt (.refl s) (cursor_eq hi) (fun j _ => .refl s _) hstands
          (.iterator ⟨false, it.kind, none⟩) ⟨rfl, rfl⟩
          (fun a => .iterator ⟨true, it.kind, some a⟩) (fun _ => ⟨rfl, rfl⟩)
          .done fun isSet => iteratorItem isSet it.kind
        exact hwalk
      | some a =>
        obtain ⟨el, t, hnext, ht, htidy, hsame, hcursors, -, hstands⟩ := h.tidy.unlock_next hi hcur
        have hwalk := h.walk (i := i) (c := ⟨.iterator it, produced, passed⟩) htidy (hcursors ▸ hlt)
          hsame (cursor_eq hi) (fun j _ => by
            rw [JSMapState.cursor, JSMapState.cursor, hcursors]
            exact .refl s _) hstands
          (.iterator ⟨false, it.kind, none⟩) ⟨rfl, rfl⟩
          (fun a => .iterator ⟨true, it.kind, some a⟩) (fun _ => ⟨rfl, rfl⟩)
          .done fun isSet => iteratorItem isSet it.kind
        simp only [hnext, ht]
        exact hwalk
  · exact .inl rfl

/-! ## `forEach` -/

theorem Tidy.addCursor (h : Tidy s) (hc : c.Sound s) (hlock : c.walker.lock = none) :
    Tidy (s.addCursor c) := by
  have hlocks : (s.addCursor c).locks = s.locks := by
    funext a
    simp [locks, JSMapState.addCursor, hlock]
  have hbal := h.balanced
  refine ⟨hlocks ▸ ⟨hbal.increasing, hbal.fresh, hbal.refCount, hbal.pos, hbal.held⟩, fun d hd => ?_⟩
  have hsame : SameMap s (s.addCursor c) := ⟨rfl, rfl, rfl, rfl, rfl, rfl, rfl⟩
  rcases List.mem_append.mp hd with hd | hd
  · exact (h.sound d hd).sameMap hsame
  · exact List.mem_singleton.mp hd ▸ hc.sameMap hsame

/-- A cursor that has not started. -/
theorem Cursor.Sound.unstarted (s : JSMapState) (hlock : w.lock = none)
    (hend : w.ended = false) : (⟨w, [], 0⟩ : Cursor).Sound s where
  position a ha := by
    rw [hlock] at ha
    cases ha
  start _ _ := rfl
  finished it hit hobj := by
    obtain rfl := hit
    rw [Walker.ended, hobj] at hend
    cases hend
  increasing := .nil
  below := nofun
  passed_le := Nat.zero_le _
  complete _ _ hlt := absurd hlt (Nat.not_lt_zero _)

/-- Adding a cursor leaves the others alone. -/
theorem advances_addCursor (hcur : s'.cursors = s.cursors ++ [c])
    (hc : (⟨.gone, [], 0⟩ : Cursor).Advances s c) (j : ℕ) :
    (s.cursor j).Advances s (s'.cursor j) := by
  rw [JSMapState.cursor, JSMapState.cursor, hcur, List.getElem?_append]
  split
  · exact .refl s _
  · rename_i hj
    rw [List.getElem?_eq_none_iff.mpr (Nat.le_of_not_lt hj)]
    cases hsub : j - s.cursors.length with
    | zero => exact hc
    | succ n => exact .refl s _

theorem MapInv.jsCreateMapIterator (h : MapInv s) (kind : JSIteratorKindEnum) :
    Walks s (.ok (jsCreateMapIterator s kind)) := by
  refine .inr ⟨_, _, rfl, ⟨h.tidy.addCursor (.unstarted s rfl rfl) rfl, ?_⟩,
    advances_addCursor rfl (.still rfl rfl fun _ => rfl)⟩
  exact ⟨h.hashed.count, h.hashed.table, h.hashed.normal⟩

/-- `forEach` up to the first call. -/
theorem MapInv.jsMapForEach (h : MapInv s) : Walks s (jsMapForEach s) := by
  rw [Map.jsMapForEach]
  rcases h.tidy.balanced.lockNext h.tidy.balanced.first with
    ⟨hnext, -⟩ | ⟨mr, hmr, hmre, hk, hfirst, hnext⟩
  · rw [hnext]
    exact .inr ⟨s, _, rfl, h, fun j => .refl s _⟩
  · rw [hnext]
    have htidy := h.tidy.addCursor (c := ⟨.gone, [], 0⟩) (.unstarted s rfl rfl) rfl
    have hset : ∀ c c' : Cursor, (s.cursors ++ [c]).set s.cursors.length c' = s.cursors ++ [c'] := by
      simp
    have hmove := Tidy.moveWalk (t := s.addCursor ⟨.gone, [], 0⟩) (c := ⟨.gone, [], 0⟩)
      (i := s.cursors.length) (by rw [setCursor, JSMapState.addCursor, hset]; exact htidy)
      (by simp [JSMapState.addCursor]) hmr hk hfirst (w := .forEach mr.addr) rfl rfl
    simp only [setCursor, JSMapState.modify, JSMapState.addCursor, hset] at hmove
    have hlock := sameMap_modify (s := s) mr.addr
      (f := fun mr => { mr with refCount := mr.refCount + 1 }) fun _ => ⟨rfl, rfl⟩
    have hhash := hlock.hashed h.hashed
    refine .inr ⟨_, _, rfl, ⟨hmove, ⟨hhash.count, hhash.table, hhash.normal⟩⟩, advances_addCursor rfl ?_⟩
    exact .move (e := mr.entry) (mem_live.mpr ⟨mr, hmr, hmre, rfl⟩) hk hfirst rfl

/-- The record at the link after `a`, if it is deleted, is locked by a cursor that is not
destroyed. -/
def KeepsNext (s : JSMapState) (a : ℕ) (destroyed : List ℕ) : Prop :=
  ∀ z ∈ s.records, s.next a = .ok (some z.addr) → z.empty = true →
    ∃ j c, s.cursors[j]? = some c ∧ c.walker.lock = some z.addr ∧ j ∉ destroyed

theorem Cursor.Advances.sameMap (h : c.Advances s c') (hsame : SameMap t s) : c.Advances t c' where
  passed_le := h.passed_le
  live := hsame.live ▸ h.live
  complete := hsame.live ▸ h.complete
  ended := hsame.fresh ▸ h.ended

theorem setCursor_self (hi : s.cursors[i]? = some c) : s.setCursor i c = s := by
  obtain ⟨hlt, rfl⟩ := List.getElem?_eq_some_iff.mp hi
  rw [setCursor, List.set_getElem_self]

/-- `forEach` from the return of the callback to the next call. -/
theorem MapInv.forEachReturn (h : MapInv s) (i : ℕ) (exception : Bool) (destroyed : List ℕ)
    (hkeep : exception = false → ∀ c, s.cursors[i]? = some c → ∀ a, c.walker = .forEach a →
      KeepsNext s a destroyed) : Walks s (forEachReturn s i exception destroyed) := by
  unfold Map.forEachReturn
  split
  · rename_i mr produced passed hi
    obtain ⟨el, t, hnext, ht, htidy, hsame, hcursors, hstands, -⟩ :=
      h.tidy.unlock_next hi (a := mr) rfl
    have hlt := (List.getElem?_eq_some_iff.mp hi).1
    have hu : SameMap s (t.setCursor i ⟨.gone, produced, passed⟩) := hsame.trans sameMap_setCursor
    have hothers : ∀ j, j ≠ i → (t.setCursor i ⟨.gone, produced, passed⟩).cursor j = s.cursor j := by
      intro j hj
      rw [cursor_setCursor_ne hj, JSMapState.cursor, hcursors, JSMapState.cursor]
    simp only [hnext, ht, ok_bind]
    cases exception
    · rcases htidy.freeValue destroyed with ⟨-, herr⟩ | ⟨t₂, ht₂, h₂, hsame₂, hfreed⟩
      · simp only [Cursor.retire] at herr
        simp only [herr]
        exact .inl rfl
      · have hget : (t.setCursor i ⟨.gone, produced, passed⟩).cursors[i]? =
            some ⟨.gone, produced, passed⟩ := by
          rw [setCursor, List.getElem?_set_self (hcursors ▸ hlt)]
        have hgone := hfreed.gone hget
        have hself := setCursor_self hgone
        have hstands₂ := hstands.of_locks _ (hu.trans hsame₂) h₂.balanced fun z hz hzel hze => by
          obtain ⟨j, c, hj, hlock, hnot⟩ := hkeep rfl _ hi mr rfl z hz (hzel ▸ hnext) hze
          have hji : j ≠ i := by
            rintro rfl
            rw [hi] at hj
            obtain rfl := Option.some.inj hj
            have hle := hstands.le _ hzel
            rw [(h.tidy.sound _ (List.mem_of_getElem? hi)).position _ rfl] at hle
            cases hlock
            omega
          refine locks_pos (i := j) (c := c) ?_ hlock
          rw [hfreed.kept j hnot, setCursor, List.getElem?_set_ne (Ne.symm hji), hcursors, hj]
        have hwalk := h.walk (i := i) (c := ⟨.forEach mr, produced, passed⟩)
          (by rw [Cursor.retire, hself]; exact h₂) (List.getElem?_eq_some_iff.mp hgone).1
          (hu.trans hsame₂) (cursor_eq hi)
          (fun j hj => hothers j hj ▸ (hfreed.advances j).sameMap hu) hstands₂
          (.returned) ⟨rfl, rfl⟩ (.forEach) (fun _ => ⟨rfl, rfl⟩)
          (.value .undefined) forEachCall
        simp only [Cursor.retire] at ht₂
        simp only [ht₂]
        exact hwalk
    · refine .inr ⟨_, _, rfl, ⟨htidy, hu.hashed h.hashed⟩, fun j => ?_⟩
      by_cases hj : j = i
      · subst hj
        rw [cursor_setCursor (hcursors ▸ hlt), cursor_eq hi]
        exact .still rfl rfl fun _ => rfl
      · rw [hothers j hj]
        exact .refl s _
  · exact .inl rfl

/-! ## `clear` -/

theorem mapDeleteRecord_of_empty (h : Tidy s) (hr : r ∈ s.records)
    (he : r.empty = true) : mapDeleteRecord s r.addr destroyed = .ok s := by
  simp only [mapDeleteRecord, h.balanced.record hr, ok_bind, he, if_true, pure_eq_ok]

/-- An iteration of the loop of `clear`: afterwards no entry is left before its link. -/
theorem MapInv.clearStep (h : MapInv s) (hel : Stands s 0 (some a))
    (hkeep : (∀ r ∈ s.records, r.addr = a → r.empty = false) → KeepsNext s a destroyed) :
    clearStep s a destroyed = .error .notEntitled ∨
      ∃ s' el1, clearStep s a destroyed = .ok (s', el1) ∧ MapInv s' ∧ Stands s' 0 el1 ∧
        ∀ j, (s.cursor j).Advances s (s'.cursor j) := by
  obtain ⟨r, hr, rfl⟩ := hel.mem a rfl
  obtain ⟨el1, hnext, hstands⟩ := h.tidy.balanced.next hr
  have huniq : ∀ b ∈ s.records, b.addr = r.addr → b = r := fun b hb =>
    h.tidy.balanced.increasing.eq_of_stamp hb hr
  have hafter : ∀ e ∈ s.live, e.addr ≠ r.addr → r.addr + 1 ≤ e.addr := by
    intro e he hne
    obtain ⟨_, ⟨⟩, hle⟩ := hel.first e he (Nat.zero_le _)
    omega
  rw [Map.clearStep, hnext]
  cases hre : r.empty
  · have he : r.entry ∈ s.live := mem_live.mpr ⟨r, hr, hre, rfl⟩
    rcases h.mapDeleteRecord he destroyed with ⟨-, herr⟩ | ⟨s', hs', hinv, hlive, -, -, hfreed⟩
    · rw [show r.addr = r.entry.addr from rfl, herr]
      exact .inl rfl
    · rw [show r.addr = r.entry.addr from rfl, hs']
      refine .inr ⟨s', el1, rfl, hinv, ⟨fun b hb => ?_, fun _ _ => Nat.zero_le _,
        fun e he _ => ?_⟩, hfreed.advances⟩
      · obtain ⟨z, hz, rfl⟩ := hstands.mem b hb
        cases hze : z.empty
        · have hne : z.addr ≠ r.addr := Nat.ne_of_gt (hstands.le _ hb)
          have hlive' : z.entry ∈ s'.live := hlive ▸ List.mem_filter.mpr
            ⟨mem_live.mpr ⟨z, hz, hze, rfl⟩, by simpa using hne⟩
          obtain ⟨z', hz', -, heq⟩ := mem_live.mp hlive'
          exact ⟨z', hz', congrArg Entry.addr heq⟩
        · have hkeep := hkeep fun b hb heq => huniq b hb heq ▸ hre
          obtain ⟨j, c, hj, hlock, hnot⟩ := hkeep z hz (hb ▸ hnext) hze
          exact hfreed.held hinv.tidy hnot hj hlock
      · rw [hlive] at he
        obtain ⟨he, hne⟩ := List.mem_filter.mp he
        exact hstands.first e he (hafter e he (by simpa using hne))
  · rw [mapDeleteRecord_of_empty h.tidy hr hre]
    refine .inr ⟨s, el1, rfl, h, ⟨hstands.mem, fun _ _ => Nat.zero_le _, fun e he _ => ?_⟩,
      fun j => .refl s _⟩
    refine hstands.first e he (hafter e he fun heq => ?_)
    obtain ⟨b, hb, hbe, rfl⟩ := mem_live.mp he
    rw [huniq b hb heq, hre] at hbe
    cases hbe

/-! ## Runs -/

/-- A map with the link at which a running `clear` stands; the link `none` is the end. -/
structure Machine where
  map : JSMapState
  clearing : Option (Option ℕ)

/-- The steps of a program. Freeing values destroys the iterators whose last reference
they hold. -/
inductive Action
  | set (key value : JSValue) (memory : Memory) (destroyed : List ℕ)
  | get (key : JSValue)
  | has (key : JSValue)
  | delete (key : JSValue) (destroyed : List ℕ)
  | size
  /-- call `clear` -/
  | clear
  /-- an iteration of the loop of `clear`, or its end -/
  | clearNext (destroyed : List ℕ)
  | createIterator (kind : JSIteratorKindEnum)
  | next (i : ℕ)
  /-- call `forEach` -/
  | forEach
  /-- return from the callback; freeing the returned value destroys iterators -/
  | forEachReturn (i : ℕ) (exception : Bool) (destroyed : List ℕ)
  /-- free other values, such as the arguments of the callback -/
  | free (destroyed : List ℕ)

/-- An action while no `clear` is running. -/
def Action.performMap (s : JSMapState) : Action → Except Fault (JSMapState × Outcome)
  | set key value memory destroyed => jsMapSet s key value memory destroyed
  | get key => jsMapGet s key
  | has key => jsMapHas s key
  | delete key destroyed => jsMapDelete s key destroyed
  | size => .ok (jsMapGetSize s)
  | createIterator kind => .ok (jsCreateMapIterator s kind)
  | next i => jsMapIteratorNext s i
  | forEach => jsMapForEach s
  | forEachReturn i exception destroyed => Map.forEachReturn s i exception destroyed
  | free destroyed => return (← freeValue s destroyed, .value .undefined)
  | clear | clearNext _ => .error .notEntitled

/-- Perform an action. -/
def Action.perform (m : Machine) (o : Action) : Except Fault Machine :=
  match m.clearing, o with
  | none, clear => .ok ⟨m.map, some m.map.first⟩
  | none, o => return ⟨(← o.performMap m.map).1, none⟩
  | some none, clearNext _ => .ok ⟨m.map, none⟩
  | some (some a), clearNext destroyed => do
    let (map, el1) ← clearStep m.map a destroyed
    return ⟨map, some el1⟩
  | some _, _ => .error .notEntitled

/-- The machine after an action. -/
def Action.step (m : Machine) (o : Action) : Option Machine := (o.perform m).toOption

/-- The machine with a fresh map. -/
def Machine.init (isSet : Bool) : Machine := ⟨jsMapConstructor isSet, none⟩

/-- An action that keeps a link while it frees values keeps the record at this link: it
does not destroy the last iterator that locks it, if it is deleted. -/
def Action.KeepsNext (m : Machine) : Action → Prop
  | clearNext destroyed => ∀ a, m.clearing = some (some a) →
      (∀ r ∈ m.map.records, r.addr = a → r.empty = false) → Map.KeepsNext m.map a destroyed
  | forEachReturn i exception destroyed => exception = false →
      ∀ c, m.map.cursors[i]? = some c → ∀ a, c.walker = .forEach a → Map.KeepsNext m.map a destroyed
  | _ => True

/-- The invariant of the machine: a running `clear` has left no entry behind. -/
structure MachineInv (m : Machine) : Prop where
  map : MapInv m.map
  clearing : ∀ el, m.clearing = some el → Stands m.map 0 el

variable {m m' : Machine}

theorem MapInv.walks_same (h : MapInv s) (out : Outcome) : Walks s (.ok (s, out)) :=
  .inr ⟨s, out, rfl, h, fun _ => .refl s _⟩

theorem MapInv.performMap (h : MapInv s) (o : Action) (hkeep : o.KeepsNext ⟨s, none⟩) :
    Walks s (o.performMap s) := by
  cases o with
  | set key value memory destroyed =>
    rcases h.jsMapSet key value memory destroyed with
      ⟨_, -, ⟨-, herr⟩ | ⟨s', hs', hinv, -, -, -, hfreed⟩⟩ | ⟨-, -, hs'⟩ |
      ⟨-, -, s', hs', hinv, -, -, -, hcur⟩
    · exact .inl herr
    · exact .inr ⟨s', _, hs', hinv, hfreed.advances⟩
    · exact .inr ⟨s, _, hs', h, fun _ => .refl s _⟩
    · refine .inr ⟨s', _, hs', hinv, fun j => ?_⟩
      rw [JSMapState.cursor, JSMapState.cursor, hcur]
      exact .refl s _
  | get key => exact .inr ⟨s, _, h.jsMapGet key, h, fun _ => .refl s _⟩
  | has key => exact .inr ⟨s, _, h.jsMapHas key, h, fun _ => .refl s _⟩
  | delete key destroyed =>
    rcases h.jsMapDelete key destroyed with
      ⟨_, -, ⟨-, herr⟩ | ⟨s', hs', hinv, -, -, -, hfreed⟩⟩ | ⟨-, hs'⟩
    · exact .inl herr
    · exact .inr ⟨s', _, hs', hinv, hfreed.advances⟩
    · exact .inr ⟨s, _, hs', h, fun _ => .refl s _⟩
  | size => exact h.walks_same _
  | clear => exact .inl rfl
  | clearNext _ => exact .inl rfl
  | createIterator kind => exact h.jsCreateMapIterator kind
  | next i => exact h.jsMapIteratorNext i
  | forEach => exact h.jsMapForEach
  | forEachReturn i exception destroyed => exact h.forEachReturn i exception destroyed hkeep
  | free destroyed =>
    rcases h.tidy.freeValue destroyed with ⟨-, herr⟩ | ⟨s', hs', htidy, hsame, hfreed⟩
    · exact .inl (by rw [Action.performMap, herr]; rfl)
    · exact .inr ⟨s', _, by rw [Action.performMap, hs']; rfl, ⟨htidy, hsame.hashed h.hashed⟩, hfreed.advances⟩

/-- What an action of an entitled program does to the machine. -/
theorem MachineInv.perform (h : MachineInv m) (o : Action) (hkeep : o.KeepsNext m) :
    o.perform m = .error .notEntitled ∨ ∃ m', o.perform m = .ok m' ∧ MachineInv m' ∧
      ∀ j, (m.map.cursor j).Advances m.map (m'.map.cursor j) := by
  obtain ⟨map, clearing⟩ := m
  cases clearing with
  | none =>
    by_cases hclear : o = .clear
    · subst hclear
      refine .inr ⟨_, rfl, ⟨h.map, ?_⟩, fun _ => .refl map _⟩
      rintro _ ⟨⟩
      exact h.map.tidy.balanced.first
    · have hperform : o.perform ⟨map, none⟩ = o.performMap map >>= fun p => .ok ⟨p.1, none⟩ := by
        cases o <;> first | rfl | exact absurd rfl hclear
      rw [hperform]
      rcases h.map.performMap o hkeep with herr | ⟨s', out, hs', hinv, hadv⟩
      · rw [herr]
        exact .inl rfl
      · rw [hs']
        exact .inr ⟨_, rfl, ⟨hinv, fun _ h => nomatch h⟩, hadv⟩
  | some el =>
    have hel := h.clearing el rfl
    cases o with
    | clearNext destroyed =>
      cases el with
      | none => exact .inr ⟨_, rfl, ⟨h.map, fun _ h => nomatch h⟩, fun _ => .refl map _⟩
      | some a =>
        have hperform : (Action.clearNext destroyed).perform ⟨map, some (some a)⟩ =
            clearStep map a destroyed >>= fun p => .ok ⟨p.1, some p.2⟩ := rfl
        rw [hperform]
        rcases h.map.clearStep hel (hkeep a rfl) with herr | ⟨s', el1, hs', hinv, hstands, hadv⟩
        · rw [herr]
          exact .inl rfl
        · rw [hs']
          refine .inr ⟨_, rfl, ⟨hinv, ?_⟩, hadv⟩
          rintro _ ⟨⟩
          exact hstands
    | _ => cases el <;> exact .inl rfl

theorem machineInv_of_reachable {isSet : Bool}
    (h : Reachable (· = Machine.init isSet) Action.step (fun m o => o.KeepsNext m) m) :
    MachineInv m := by
  refine h.invariant (fun m hm => ?_) fun m o m' hm hok hstep => ?_
  · subst hm
    exact ⟨mapInv_jsMapConstructor isSet, fun _ h => nomatch h⟩
  · rcases hm.perform o hok with herr | ⟨m₁, hm₁, hinv, -⟩
    · rw [Action.step, herr] at hstep
      cases hstep
    · rw [Action.step, hm₁] at hstep
      exact Option.some.inj hstep ▸ hinv

/-- As long as no step frees the deleted record at a link it keeps, iteration is safe and
complete in every run. No action looks at a freed record or fails an assertion. No walk
produces a record twice, and it has produced every entry it has passed. Every action lets
every walk advance over entries only, and past none without producing it. When the loop of
`clear` is at its end there is no entry left. -/
theorem iteration_safe {isSet : Bool}
    (h : Reachable (· = Machine.init isSet) Action.step (fun m o => o.KeepsNext m) m) :
    (∀ o f, Action.KeepsNext m o → o.perform m = .error f → f = .notEntitled) ∧
      (∀ c ∈ m.map.cursors, c.produced.Pairwise (· < ·) ∧
        ∀ e ∈ m.map.live, e.addr < c.passed → e.addr ∈ c.produced) ∧
      (∀ o m', Action.KeepsNext m o → o.perform m = .ok m' →
        ∀ i, (m.map.cursor i).Advances m.map (m'.map.cursor i)) ∧
      (m.clearing = some none → m.map.live = []) := by
  have hinv := machineInv_of_reachable h
  refine ⟨fun o f hok hf => ?_, fun c hc => ?_, fun o m' hok hm' => ?_, fun hend => ?_⟩
  · rcases hinv.perform o hok with herr | ⟨m', hm', -⟩
    · exact Except.error.inj (hf.symm.trans herr)
    · rw [hm'] at hf
      cases hf
  · have hsound := hinv.map.tidy.sound c hc
    exact ⟨hsound.increasing, hsound.complete⟩
  · rcases hinv.perform o hok with herr | ⟨m₁, hm₁, -, hadv⟩
    · rw [hm'] at herr
      cases herr
    · rw [hm'] at hm₁
      exact Except.ok.inj hm₁ ▸ hadv
  · refine List.eq_nil_iff_forall_not_mem.mpr fun e he => ?_
    obtain ⟨_, h, -⟩ := (hinv.clearing none hend).first e he (Nat.zero_le _)
    cases h

/-- An iterator on the only record of a map. -/
theorem iteration_safe_example : ∃ m,
    Run.exec Action.step (Machine.init false)
      [.set .null .undefined ⟨true, none⟩ [], .createIterator .key, .next 0] = some m ∧
      ∀ o f, Action.KeepsNext m o → o.perform m = .error f → f = .notEntitled :=
  ⟨_, rfl, (@iteration_safe _ false (.step (o := .next 0)
    (.step (o := .createIterator .key) (.step (o := .set .null .undefined ⟨true, none⟩ [])
      (.init rfl) trivial rfl) trivial rfl) trivial rfl)).1⟩

/-- A map of two records: an iterator stands on the second one, which is deleted, and is then
stored as the value of the first one. -/
def storedIterator : List Action :=
  [.set .null .undefined ⟨true, none⟩ [], .set .undefined .undefined ⟨true, none⟩ [],
    .createIterator .key, .next 0, .next 0, .delete .undefined [], .set .null (.object 0)
      ⟨true, none⟩ []]

/-- Clearing this map frees the iterator and with it the deleted record, at which the loop of
`clear` then looks. -/
theorem clear_looks_at_freedRecord :
    (Run.exec Action.step (Machine.init false) (storedIterator ++ [.clear, .clearNext [0]])).map
      (fun m => match Action.perform m (.clearNext []) with
        | .ok _ => none
        | .error f => some f) = some (some .freedRecord) := by
  decide

-- a callback of `forEach` that returns such an iterator does the same
example :
    (Run.exec Action.step (Machine.init false)
      [.set .null .undefined ⟨true, none⟩ [], .set .undefined .undefined ⟨true, none⟩ [],
        .forEach, .createIterator .key, .next 1, .next 1, .delete .undefined []]).map
      (fun m => match Action.perform m (.forEachReturn 0 false [1]) with
        | .ok _ => none
        | .error f => some f) = some (some .freedRecord) := by
  decide

end QuickJs.Map
