import QuickJs.AtomOps

/-!
# The shared reference count

A string and the atom it may be have one reference count. `Counted` says that it
is the number of values the program holds, plus the number of atoms it holds, or
plus one for a predefined atom, which is not counted. Each function of `Atom`
takes the references it consumes from these numbers and adds the one it returns.
-/

namespace QuickJs.Atom

open HashChain JSRuntime

/-- One more reference to `a`. -/
def bump (f : ℕ → ℕ) (a b : ℕ) : ℕ := if b = a then f b + 1 else f b

@[simp] theorem bump_self (f : ℕ → ℕ) (a : ℕ) : bump f a a = f a + 1 := if_pos rfl

theorem bump_of_ne (f : ℕ → ℕ) {a b : ℕ} (h : b ≠ a) : bump f a b = f b := if_neg h

theorem le_bump (f : ℕ → ℕ) (a b : ℕ) : f b ≤ bump f a b := by
  unfold bump
  split <;> omega

/-- One more reference to the atom `a`, if it is counted. -/
def gain (predefined : ℕ) (atoms : ℕ → ℕ) (a : ℕ) : ℕ → ℕ :=
  if jsAtomIsConst predefined a then atoms else bump atoms a

/-- The references to the struct of the atom `i` that are not values. -/
def share (predefined : ℕ) (atoms : ℕ → ℕ) (i : ℕ) : ℕ :=
  if jsAtomIsConst predefined i then 1 else atoms i

variable {predefined : ℕ}

/-- The reference counts when the program holds `values p` values at `p` and
`atoms i` counted references to the atom `i`, and the call in progress still has
to release `owed q` references at `q`. -/
structure Balance (predefined : ℕ) (owed : Ptr → ℕ) (s : JSRuntime) (values : Ptr → ℕ)
    (atoms : ℕ → ℕ) : Prop where
  plain : ∀ p str, s.mem p = some str → str.atomType = .none → str.refCount = values p + owed p
  atom : ∀ i p str, s.atomArray i = .used p → s.mem p = some str →
    str.refCount = values p + share predefined atoms i + owed p
  positive : ∀ p str, s.mem p = some str → 0 < str.refCount
  value : ∀ p, 0 < values p → ∃ str, s.mem p = some str
  held : ∀ i, 0 < atoms i → jsAtomIsConst predefined i = false ∧ ∃ p, s.atomArray i = .used p

/-- The reference counts between two operations. -/
abbrev Counted (predefined : ℕ) (s : JSRuntime) (values : Ptr → ℕ) (atoms : ℕ → ℕ) : Prop :=
  Balance predefined (fun _ => 0) s values atoms

/-- The reference counts while one reference at `p` is to be released. -/
abbrev Pending (predefined : ℕ) (s : JSRuntime) (p : Ptr) (values : Ptr → ℕ) (atoms : ℕ → ℕ) :
    Prop :=
  Balance predefined (bump (fun _ => 0) p) s values atoms

variable {s s' : JSRuntime} {values : Ptr → ℕ} {atoms : ℕ → ℕ} {p : Ptr}

/-- A value given away is a reference to release. -/
theorem Balance.pending (h : Counted predefined s (bump values p) atoms) :
    Pending predefined s p values atoms := by
  refine ⟨fun q str hq ht => ?_, fun i q str hi hq => ?_, h.positive, fun q hq => ?_, h.held⟩
  · have hc := h.plain q str hq ht
    unfold bump at hc ⊢
    split <;> simp_all
  · have hc := h.atom i q str hi hq
    unfold bump at hc ⊢
    split <;> simp_all
    omega
  · exact h.value q (Nat.lt_of_lt_of_le hq (le_bump values p q))

variable {i : ℕ} {str : JSString}

/-- An atom given away is a reference to release. -/
theorem Balance.pending_atom (ht : Table s) (hi : s.atomArray i = .used p)
    (hconst : jsAtomIsConst predefined i = false)
    (h : Counted predefined s values (bump atoms i)) : Pending predefined s p values atoms := by
  refine ⟨fun q str hq htype => ?_, fun j q str hj hq => ?_, h.positive, h.value, fun j hj => ?_⟩
  · have hqp : q ≠ p := by
      rintro rfl
      exact ht.not_used hq htype i hi
    rw [bump_of_ne _ hqp]
    exact h.plain q str hq htype
  · have hc := h.atom j q str hj hq
    by_cases hji : j = i
    · subst hji
      obtain rfl : q = p := by
        rw [hi] at hj
        cases hj
        rfl
      simp only [share, hconst, bump_self] at hc ⊢
      simp only [Bool.false_eq_true, if_false] at hc ⊢
      omega
    · have hqp : q ≠ p := fun hqp => hji (ht.inj j i p (hqp ▸ hj) hi)
      rw [bump_of_ne _ hqp]
      simpa only [share, bump_of_ne _ hji] using hc
  · exact h.held j (Nat.lt_of_lt_of_le hj (le_bump atoms i j))

/-- The balance only depends on the counts, the types and the entries in use. -/
theorem Balance.congr {owed : Ptr → ℕ} (h : Balance predefined owed s values atoms)
    (hused : ∀ i q, s'.atomArray i = .used q ↔ s.atomArray i = .used q)
    (hmem : ∀ q, (s'.mem q).map (fun str => (str.refCount, str.atomType)) =
      (s.mem q).map fun str => (str.refCount, str.atomType)) :
    Balance predefined owed s' values atoms := by
  have hback : ∀ {q str'}, s'.mem q = some str' → ∃ str, s.mem q = some str ∧
      str.refCount = str'.refCount ∧ str.atomType = str'.atomType := by
    intro q str' hq
    have hm := (hmem q).symm
    rw [hq, Option.map_some, Option.map_eq_some_iff] at hm
    obtain ⟨str, hstr, heq⟩ := hm
    exact ⟨str, hstr, (Prod.mk.inj heq).1, (Prod.mk.inj heq).2⟩
  refine ⟨fun q str hq ht => ?_, fun i q str hi hq => ?_, fun q str hq => ?_, fun q hq => ?_, fun i hi => ?_⟩
  · obtain ⟨str', hstr', hrc, htype⟩ := hback hq
    rw [← hrc]
    exact h.plain q str' hstr' (htype.trans ht)
  · obtain ⟨str', hstr', hrc, -⟩ := hback hq
    rw [← hrc]
    exact h.atom i q str' ((hused i q).mp hi) hstr'
  · obtain ⟨str', hstr', hrc, -⟩ := hback hq
    rw [← hrc]
    exact h.positive q str' hstr'
  · obtain ⟨str, hstr⟩ := h.value q hq
    have hm := hmem q
    rw [hstr, Option.map_some, Option.map_eq_some_iff] at hm
    obtain ⟨str', hstr', -⟩ := hm
    exact ⟨str', hstr'⟩
  · obtain ⟨hc, q, hq⟩ := h.held i hi
    exact ⟨hc, q, (hused i q).mpr hq⟩

/-- New links change no count. -/
theorem Balance.relinked {owed : Ptr → ℕ} (h : Balance predefined owed s values atoms)
    (hr : Relinked s s') : Balance predefined owed s' values atoms := by
  refine h.congr (fun i q => by rw [hr.array]) fun q => ?_
  cases hq : s.mem q with
  | none =>
    cases hq' : s'.mem q with
    | none => rfl
    | some str' =>
      obtain ⟨str, hstr, -⟩ := hr.mem_back hq'
      rw [hq] at hstr
      cases hstr
  | some str =>
    obtain ⟨str', hstr', hsame⟩ := hr.mem_forward hq
    rw [hstr', Option.map_some, Option.map_some, hsame.refCount, hsame.type]

/-! ## What a call leaves of the strings -/

/-- Every string of `s'` is a string of `s` with the same characters, and every
entry in use already was. -/
structure Shrinks (s s' : JSRuntime) : Prop where
  mem : ∀ q str', s'.mem q = some str' →
    ∃ str, s.mem q = some str ∧ str'.chars = str.chars ∧ str'.atomType = str.atomType
  used : ∀ i q, s'.atomArray i = .used q → s.atomArray i = .used q

theorem Shrinks.atom (h : Shrinks s s') {str' : JSString} (hi : s'.atom i = some str') :
    ∃ str, s.atom i = some str ∧ str'.chars = str.chars ∧ str'.atomType = str.atomType := by
  obtain ⟨q, hq, hstr'⟩ := atom_eq_some.mp hi
  obtain ⟨str, hstr, hchars, htype⟩ := h.mem q str' hstr'
  exact ⟨str, atom_eq_some.mpr ⟨q, h.used i q hq, hstr⟩, hchars, htype⟩

theorem shrinks_modify {f : JSString → JSString} (hchars : ∀ str, (f str).chars = str.chars)
    (htype : ∀ str, (f str).atomType = str.atomType) : Shrinks s (s.modify p f) := by
  refine ⟨fun q str' hq => ?_, fun _ _ h => h⟩
  by_cases hqp : q = p
  · subst hqp
    simp only [JSRuntime.modify, Function.update_self, Option.map_eq_some_iff] at hq
    obtain ⟨str, hstr, rfl⟩ := hq
    exact ⟨str, hstr, hchars str, htype str⟩
  · simp only [JSRuntime.modify, Function.update_of_ne hqp] at hq
    exact ⟨str', hq, rfl, rfl⟩

/-- What releasing a reference at `p` does. -/
structure Dropped (predefined : ℕ) (s s' : JSRuntime) (values : Ptr → ℕ) (atoms : ℕ → ℕ) :
    Prop where
  table : Table s'
  counted : Counted predefined s' values atoms
  shrinks : Shrinks s s'
  keeps : ∀ i q, s.atomArray i = .used q → 0 < share predefined atoms i → s'.atomArray i = .used q
  room : s.atomFreeIndex ≠ 0 → s'.atomFreeIndex ≠ 0

section

variable (ht : Table s) (h : Pending predefined s p values atoms) (hp : s.mem p = some str)

include ht h hp

/-- A reference that is not the last one. -/
theorem dropped_decRef
    (hrc : 1 < str.refCount) :
    Dropped predefined s (s.decRef p) values atoms := by
  refine ⟨ht.of_sameAtoms (sameAtoms_decRef p), ?_,
    shrinks_modify (fun _ => rfl) (fun _ => rfl), fun _ _ h _ => h, id⟩
  have hcases : ∀ {q str'}, (s.decRef p).mem q = some str' →
      (q = p ∧ str' = { str with refCount := str.refCount - 1 }) ∨ (q ≠ p ∧ s.mem q = some str') := by
    intro q str' hq
    by_cases hqp : q = p
    · subst hqp
      simp only [decRef, JSRuntime.modify, Function.update_self, hp, Option.map_some, Option.some.injEq] at hq
      exact .inl ⟨rfl, hq.symm⟩
    · simp only [decRef, JSRuntime.modify, Function.update_of_ne hqp] at hq
      exact .inr ⟨hqp, hq⟩
  refine ⟨fun q str' hq htype => ?_, fun i q str' hi hq => ?_, fun q str' hq => ?_, fun q hq => ?_, h.held⟩
  · rcases hcases hq with ⟨rfl, rfl⟩ | ⟨hqp, hq⟩
    · have hc := h.plain q str hp htype
      rw [bump_self] at hc
      simp only
      omega
    · have hc := h.plain q str' hq htype
      rwa [bump_of_ne _ hqp] at hc
  · rcases hcases hq with ⟨rfl, rfl⟩ | ⟨hqp, hq⟩
    · have hc := h.atom i q str hi hp
      rw [bump_self] at hc
      simp only
      omega
    · have hc := h.atom i q str' hi hq
      rwa [bump_of_ne _ hqp] at hc
  · rcases hcases hq with ⟨rfl, rfl⟩ | ⟨hqp, hq⟩
    · simp only
      omega
    · exact h.positive q str' hq
  · obtain ⟨str', hstr'⟩ := h.value q hq
    by_cases hqp : q = p
    · exact ⟨{ str with refCount := str.refCount - 1 }, by simp [decRef, JSRuntime.modify, hqp, hp]⟩
    · exact ⟨str', by simp [decRef, JSRuntime.modify, hqp, hstr']⟩

/-- The last reference to an atom. -/
theorem dropped_jsFreeAtomStruct
    (htype : str.atomType ≠ .none) (hrc : ¬1 < str.refCount) :
    Dropped predefined s (jsFreeAtomStruct s p str) values atoms := by
  have hu := unlinkAtom_spec ht hp htype
  rw [jsFreeAtomStruct_eq]
  obtain ⟨s₁, i, heq⟩ : ∃ s₁ i, unlinkAtom s p str = (s₁, i) := ⟨_, _, rfl⟩
  rw [heq] at hu ⊢
  have hr := hu.relinked
  -- nobody else holds the atom
  have hcount := h.atom i p str hu.entry hp
  rw [bump_self] at hcount
  have hnone : values p = 0 ∧ share predefined atoms i = 0 := by omega
  have hatoms : atoms i = 0 := by
    have h0 := hnone.2
    unfold share at h0
    split at h0
    · cases h0
    · exact h0
  have hmem : ∀ {q str'}, (releaseEntry s₁ p i).mem q = some str' →
      q ≠ p ∧ ∃ str, s.mem q = some str ∧ SameButLink str' str := by
    intro q str' hq
    change Function.update s₁.mem p none q = some str' at hq
    by_cases hqp : q = p
    · rw [hqp, Function.update_self] at hq
      cases hq
    · rw [Function.update_of_ne hqp] at hq
      exact ⟨hqp, hr.mem_back hq⟩
  have hused : ∀ {j q}, (releaseEntry s₁ p i).atomArray j = .used q → j ≠ i ∧ s.atomArray j = .used q := by
    intro j q hj
    change Function.update s₁.atomArray i (.free s₁.atomFreeIndex) j = .used q at hj
    by_cases hji : j = i
    · rw [hji, Function.update_self] at hj
      cases hj
    · rw [Function.update_of_ne hji, hr.array] at hj
      exact ⟨hji, hj⟩
  have hstay : ∀ {j q}, j ≠ i → s.atomArray j = .used q → (releaseEntry s₁ p i).atomArray j = .used q := by
    intro j q hji hj
    change Function.update s₁.atomArray i _ j = _
    rw [Function.update_of_ne hji, hr.array, hj]
  refine ⟨ht.release hu, ⟨fun q str' hq htype' => ?_, fun j q str' hj hq => ?_,
    fun q str' hq => ?_, fun q hq => ?_, fun j hj => ?_⟩, ⟨fun q str' hq => ?_, fun j q hj => ?_⟩,
    fun j q hj hshare => ?_, fun _ => Nat.ne_of_gt (ht.used i p hu.entry).1⟩
  · obtain ⟨hqp, str₀, hstr₀, hsame⟩ := hmem hq
    have hc := h.plain q str₀ hstr₀ (hsame.type ▸ htype')
    rwa [bump_of_ne _ hqp, ← hsame.refCount] at hc
  · obtain ⟨hqp, str₀, hstr₀, hsame⟩ := hmem hq
    have hc := h.atom j q str₀ (hused hj).2 hstr₀
    rwa [bump_of_ne _ hqp, ← hsame.refCount] at hc
  · obtain ⟨-, str₀, hstr₀, hsame⟩ := hmem hq
    rw [hsame.refCount]
    exact h.positive q str₀ hstr₀
  · obtain ⟨str₀, hstr₀⟩ := h.value q hq
    obtain ⟨str', hstr', -⟩ := hr.mem_forward hstr₀
    have hqp : q ≠ p := by
      rintro rfl
      omega
    refine ⟨str', ?_⟩
    change Function.update s₁.mem p none q = _
    rw [Function.update_of_ne hqp, hstr']
  · obtain ⟨hconst, q, hq⟩ := h.held j hj
    have hji : j ≠ i := by
      rintro rfl
      omega
    exact ⟨hconst, q, hstay hji hq⟩
  · obtain ⟨-, str₀, hstr₀, hsame⟩ := hmem hq
    exact ⟨str₀, hstr₀, hsame.chars, hsame.type⟩
  · exact (hused hj).2
  · refine hstay ?_ hj
    rintro rfl
    omega

/-- `js_free_string` releases one reference. -/
theorem jsFreeString_spec
    : Dropped predefined s (jsFreeString s p) values atoms := by
  unfold jsFreeString
  rw [hp]
  dsimp only
  by_cases hrc : 1 < str.refCount
  · rw [if_pos hrc]
    exact dropped_decRef ht h hp hrc
  rw [if_neg hrc]
  by_cases htype : str.atomType = .none
  · -- the last reference to a string that is no atom
    rw [if_pos htype]
    have hcount := h.plain p str hp htype
    rw [bump_self] at hcount
    have hmem : ∀ {q str'}, (s.setMem p none).mem q = some str' → q ≠ p ∧ s.mem q = some str' := by
      intro q str' hq
      change Function.update s.mem p none q = some str' at hq
      by_cases hqp : q = p
      · rw [hqp, Function.update_self] at hq
        cases hq
      · rw [Function.update_of_ne hqp] at hq
        exact ⟨hqp, hq⟩
    refine ⟨ht.of_sameAtoms (sameAtoms_setMem ?_), ⟨fun q str' hq htype' => ?_,
      fun j q str' hj hq => ?_, fun q str' hq => ?_, fun q hq => ?_, h.held⟩,
      ⟨fun q str' hq => ⟨str', (hmem hq).2, rfl, rfl⟩, fun _ _ hj => hj⟩, fun _ _ hj _ => hj, id⟩
    · simp [view, setMem, hp, Option.filter, htype]
    · have hc := h.plain q str' (hmem hq).2 htype'
      rwa [bump_of_ne _ (hmem hq).1] at hc
    · have hc := h.atom j q str' hj (hmem hq).2
      rwa [bump_of_ne _ (hmem hq).1] at hc
    · exact h.positive q str' (hmem hq).2
    · obtain ⟨str', hstr'⟩ := h.value q hq
      have hqp : q ≠ p := by
        rintro rfl
        omega
      exact ⟨str', by rw [← hstr']; exact Function.update_of_ne hqp ..⟩
  · rw [if_neg htype]
    exact dropped_jsFreeAtomStruct ht h hp htype hrc

end

/-- `JS_FreeAtom` releases one reference to a counted atom. -/
theorem jsFreeAtom_spec (ht : Table s) (hconst : jsAtomIsConst predefined i = false)
    (h : Counted predefined s values (bump atoms i)) :
    Dropped predefined s (jsFreeAtom predefined s i) values atoms := by
  obtain ⟨-, q, hq⟩ := h.held i (by rw [bump_self]; omega)
  obtain ⟨-, -, str, hstr, htype⟩ := ht.used i q hq
  have hpend := h.pending_atom ht hq hconst
  unfold jsFreeAtom
  simp only [hconst, hq, hstr]
  by_cases hrc : 1 < str.refCount
  · rw [if_pos hrc]
    exact dropped_decRef ht hpend hstr hrc
  · rw [if_neg hrc]
    exact dropped_jsFreeAtomStruct ht hpend hstr htype hrc

end QuickJs.Atom
