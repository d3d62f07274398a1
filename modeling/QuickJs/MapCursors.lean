import QuickJs.MapRecords

/-!
# Iterators

The locks on the records are those of the cursors. `Tidy` is the invariant of the
records and the cursors; it holds whenever a value may be freed, and freeing values
keeps it, whichever iterators are destroyed.
-/

namespace QuickJs.Map

open JSMapState Stamped

/-- The number of cursors that lock the record at an address. -/
def JSMapState.locks (s : JSMapState) (a : ℕ) : ℕ :=
  s.cursors.countP fun c => c.walker.lock == some a

/-- What a cursor has produced is what it should have. -/
structure Cursor.Sound (s : JSMapState) (c : Cursor) : Prop where
  /-- a locked record is the last one passed -/
  position : ∀ a, c.walker.lock = some a → c.passed = a + 1
  /-- an iterator that has not started has passed nothing -/
  start : ∀ kind, c.walker = .iterator ⟨true, kind, none⟩ → c.passed = 0
  /-- an iterator at its end locks nothing -/
  finished : ∀ it, c.walker = .iterator it → it.obj = false → it.curRecord = none
  /-- no record is produced twice -/
  increasing : c.produced.Pairwise (· < ·)
  below : ∀ a ∈ c.produced, a < c.passed
  passed_le : c.passed ≤ s.fresh
  /-- every entry passed has been produced -/
  complete : ∀ e ∈ s.live, e.addr < c.passed → e.addr ∈ c.produced

/-- The invariant of the records and the cursors. -/
structure Tidy (s : JSMapState) : Prop where
  balanced : Balanced s.locks s
  sound : ∀ c ∈ s.cursors, c.Sound s

variable {s s' s'' : JSMapState} {c c' : Cursor} {i j a : ℕ} {destroyed : List ℕ}

/-- Soundness depends on the entries only, and entries may go. -/
theorem Cursor.Sound.mono (h : c.Sound s) (hfresh : s.fresh ≤ s'.fresh)
    (hlive : ∀ e ∈ s'.live, e ∈ s.live ∨ s.fresh ≤ e.addr) : c.Sound s' where
  position := h.position
  start := h.start
  finished := h.finished
  increasing := h.increasing
  below := h.below
  passed_le := Nat.le_trans h.passed_le hfresh
  complete e he hlt := by
    rcases hlive e he with he | hge
    · exact h.complete e he hlt
    · exact absurd (Nat.lt_of_lt_of_le hlt h.passed_le) (Nat.not_lt.mpr hge)

theorem Cursor.Sound.sameMap (h : c.Sound s) (hsame : SameMap s s') : c.Sound s' :=
  h.mono (Nat.le_of_eq hsame.fresh.symm) fun _ he => .inl (hsame.live ▸ he)

/-! ## Replacing a cursor -/

theorem locks_pos (hi : s.cursors[i]? = some c) (hlock : c.walker.lock = some a) : 0 < s.locks a :=
  List.countP_pos_iff.mpr ⟨c, List.mem_of_getElem? hi, by simp [hlock]⟩

theorem locks_setCursor (hi : s.cursors[i]? = some c) (a : ℕ) : (s.setCursor i c').locks a =
      s.locks a - (if c.walker.lock = some a then 1 else 0) + (if c'.walker.lock = some a then 1 else 0) := by
  obtain ⟨hlt, hget⟩ := List.getElem?_eq_some_iff.mp hi
  simp only [locks, setCursor, List.countP_set hlt, hget, beq_iff_eq]

theorem mem_setCursor (hc : c ∈ (s.setCursor i c').cursors) : c ∈ s.cursors ∨ c = c' :=
  List.mem_or_eq_of_mem_set hc

/-- A cursor gives up its lock. -/
theorem locks_unlock (hi : s.cursors[i]? = some c) (hlock : c.walker.lock = some a)
    (hgone : c'.walker.lock = none) : (s.setCursor i c').locks = unlockAt s.locks a := by
  funext b
  rw [locks_setCursor hi, hlock, hgone, unlockAt]
  simp only [Option.some.injEq, reduceCtorEq, if_false, Nat.add_zero, eq_comm]

/-- A cursor without a lock stays without. -/
theorem locks_unlocked (hi : s.cursors[i]? = some c) (hlock : c.walker.lock = none)
    (hgone : c'.walker.lock = none) : (s.setCursor i c').locks = s.locks := by
  funext b
  rw [locks_setCursor hi, hlock, hgone]
  simp

/-- A cursor without a lock takes one. -/
theorem locks_lock (hi : s.cursors[i]? = some c) (hfree : c.walker.lock = none)
    (hlock : c'.walker.lock = some a) : (s.setCursor i c').locks = lockAt s.locks a := by
  funext b
  rw [locks_setCursor hi, hfree, hlock, lockAt]
  simp only [reduceCtorEq, if_false, Nat.sub_zero, Option.some.injEq, eq_comm]

/-- The cursors are not part of the balance. -/
theorem Balanced.setCursor {locks : ℕ → ℕ} (h : Balanced locks s) : Balanced locks (s.setCursor i c') :=
  ⟨h.increasing, h.fresh, h.refCount, h.pos, h.held⟩

theorem sameMap_setCursor : SameMap s (s.setCursor i c') := ⟨rfl, rfl, rfl, rfl, rfl, rfl, rfl⟩

/-- The cursor that a destroyed iterator leaves behind. -/
def Cursor.retire (c : Cursor) : Cursor := ⟨.gone, c.produced, c.passed⟩

theorem Cursor.Sound.retire (h : c.Sound s) : c.retire.Sound s :=
  ⟨nofun, nofun, nofun, h.increasing, h.below, h.passed_le, h.complete⟩

/-- A cursor that locks `a` is retired and its lock given up. -/
theorem Tidy.unlock (h : Tidy s) (hi : s.cursors[i]? = some c) (hlock : c.walker.lock = some a) :
    ∃ s', mapDecrefRecord s a = .ok s' ∧ Tidy (s'.setCursor i c.retire) ∧ SameMap s s' ∧
      s'.cursors = s.cursors := by
  obtain ⟨s', hs', hbal, hsame, hcur⟩ := h.balanced.mapDecrefRecord (locks_pos hi hlock)
  refine ⟨s', hs', ⟨?_, fun d hd => ?_⟩, hsame, hcur⟩
  · have hloc : s'.locks = s.locks := by
      funext b
      rw [locks, hcur, locks]
    rw [locks_unlock (hcur ▸ hi) hlock rfl, hloc]
    exact hbal.setCursor
  · have hmem : ∀ d ∈ s.cursors, d.Sound (s'.setCursor i c.retire) := fun d hd =>
      (h.sound d hd).sameMap (hsame.trans sameMap_setCursor)
    rcases mem_setCursor hd with hd | rfl
    · exact hmem d (hcur ▸ hd)
    · exact (hmem c (List.mem_of_getElem? hi)).retire

/-- A cursor without a lock is retired. -/
theorem Tidy.retire (h : Tidy s) (hi : s.cursors[i]? = some c) (hlock : c.walker.lock = none) :
    Tidy (s.setCursor i c.retire) := by
  refine ⟨?_, fun d hd => ?_⟩
  · rw [locks_unlocked hi hlock rfl]
    exact h.balanced.setCursor
  · rcases mem_setCursor hd with hd | rfl
    · exact (h.sound d hd).sameMap sameMap_setCursor
    · exact ((h.sound c (List.mem_of_getElem? hi)).sameMap sameMap_setCursor).retire

/-! ## Freeing values -/

/-- What becomes of the cursors when iterators are destroyed. -/
structure Freed (destroyed : List ℕ) (s s' : JSMapState) : Prop where
  kept : ∀ j : ℕ, j ∉ destroyed → s'.cursors[j]? = s.cursors[j]?
  retired : ∀ j : ℕ, s'.cursors[j]? = s.cursors[j]? ∨ s'.cursors[j]? = (s.cursors[j]?).map Cursor.retire

theorem Freed.refl (destroyed : List ℕ) (s : JSMapState) : Freed destroyed s s :=
  ⟨fun _ _ => rfl, fun _ => .inl rfl⟩

theorem Freed.cons (h : Freed [i] s s') (h' : Freed destroyed s' s'') : Freed (i :: destroyed) s s'' where
  kept j hj := by
    rw [List.mem_cons, not_or] at hj
    rw [h'.kept j hj.2, h.kept j (by simpa using hj.1)]
  retired j := by
    rcases h'.retired j with h' | h' <;> rcases h.retired j with h | h
    · exact .inl (h'.trans h)
    · exact .inr (h'.trans h)
    · exact .inr (h'.trans (congrArg _ h))
    · refine .inr (h'.trans ?_)
      rw [h, Option.map_map]
      rfl

theorem freed_set (hcur : s'.cursors = s.cursors.set i c.retire) (hi : s.cursors[i]? = some c) :
    Freed [i] s s' where
  kept j hj := by
    rw [hcur, List.getElem?_set_ne (by simpa [eq_comm] using hj)]
  retired j := by
    by_cases hij : i = j
    · subst hij
      rw [hcur, hi, List.getElem?_set_self (List.getElem?_eq_some_iff.mp hi).1]
      exact .inr rfl
    · rw [hcur, List.getElem?_set_ne hij]
      exact .inl rfl

/-- Destroying an iterator reads no freed record. -/
theorem Tidy.jsMapIteratorFinalizer (h : Tidy s) (i : ℕ) : jsMapIteratorFinalizer s i = .error .notEntitled ∨
      ∃ s', jsMapIteratorFinalizer s i = .ok s' ∧ Tidy s' ∧ SameMap s s' ∧ Freed [i] s s' := by
  unfold Map.jsMapIteratorFinalizer
  split
  · rename_i it produced passed hi
    refine .inr ?_
    cases hcur : it.curRecord with
    | some a =>
      have hobj : it.obj = true := by
        cases hobj : it.obj
        · have hfin := (h.sound _ (List.mem_of_getElem? hi)).finished it rfl hobj
          rw [hcur] at hfin
          cases hfin
        · rfl
      obtain ⟨s', hs', htidy, hsame, hcursors⟩ := h.unlock hi (a := a) hcur
      refine ⟨_, ?_, htidy, hsame.trans sameMap_setCursor, freed_set ?_ hi⟩
      · simp only [hobj, hs', ok_bind, pure_eq_ok, Cursor.retire]
      · rw [setCursor, hcursors]
    | none =>
      have hlock : (⟨.iterator it, produced, passed⟩ : Cursor).walker.lock = none := hcur
      refine ⟨_, ?_, h.retire hi hlock, sameMap_setCursor, freed_set rfl hi⟩
      cases it.obj <;> simp only [ok_bind, pure_eq_ok, Cursor.retire]
  · exact .inl rfl

/-- Freeing values reads no freed record and leaves the entries alone. -/
theorem Tidy.freeValue (h : Tidy s) (destroyed : List ℕ) :
    (destroyed ≠ [] ∧ freeValue s destroyed = .error .notEntitled) ∨
      ∃ s', freeValue s destroyed = .ok s' ∧ Tidy s' ∧ SameMap s s' ∧ Freed destroyed s s' := by
  induction destroyed generalizing s with
  | nil => exact .inr ⟨s, rfl, h, .refl s, .refl [] s⟩
  | cons i destroyed ih =>
    rw [Map.freeValue, List.foldlM_cons]
    rcases h.jsMapIteratorFinalizer i with herr | ⟨s₁, hs₁, h₁, hsame₁, hfreed₁⟩
    · rw [herr]
      exact .inl ⟨List.cons_ne_nil _ _, rfl⟩
    · rw [hs₁]
      rcases ih h₁ with ⟨-, herr⟩ | ⟨s₂, hs₂, h₂, hsame₂, hfreed₂⟩
      · exact .inl ⟨List.cons_ne_nil _ _, herr⟩
      · exact .inr ⟨s₂, hs₂, h₂, hsame₁.trans hsame₂, hfreed₁.cons hfreed₂⟩

/-- What is gone stays so. -/
theorem Freed.gone (h : Freed destroyed s s') {produced : List ℕ} {passed : ℕ}
    (hj : s.cursors[j]? = some ⟨.gone, produced, passed⟩) :
    s'.cursors[j]? = some ⟨.gone, produced, passed⟩ := by
  rcases h.retired j with h | h
  · rw [h, hj]
  · rw [h, hj]
    rfl

/-- A lock that is not given up keeps its record in memory. -/
theorem Freed.held (h : Freed destroyed s s') (htidy : Tidy s') (hj : j ∉ destroyed)
    (hc : s.cursors[j]? = some c) (hlock : c.walker.lock = some a) :
    ∃ r ∈ s'.records, r.addr = a :=
  htidy.balanced.held a (locks_pos ((h.kept j hj).trans hc) hlock)

end QuickJs.Map
