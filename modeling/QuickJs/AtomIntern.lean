import QuickJs.AtomCount

/-!
# Interning

`__JS_NewAtom` and `JS_NewAtomStr` return an atom with the characters of the
string they were given, whichever of their paths they take, and
`JS_ConcatString` leaves the table alone unless it appends to an atom.
-/

namespace QuickJs.Atom

open HashChain JSRuntime

variable {predefined : ℕ} {s s' : JSRuntime} {values : Ptr → ℕ} {atoms : ℕ → ℕ} {p : Ptr}

/-- Every string of `s'` has the characters it had in `s`, unless it is new. -/
def Old (new : Ptr → Prop) (s s' : JSRuntime) : Prop :=
  ∀ q b, s'.mem q = some b → new q ∨ ∃ a, s.mem q = some a ∧ b.chars = a.chars

variable {N : Ptr → Prop}

theorem Old.refl (s : JSRuntime) : Old N s s := fun _ b hq => .inr ⟨b, hq, rfl⟩

variable {s'' : JSRuntime} {chars : List ℕ} {strNew : JSString} {h : ℕ} {q : Ptr}

theorem Old.trans (h : Old N s s') (h' : Old N s' s'') : Old N s s'' := by
  intro q c hq
  rcases h' q c hq with hn | ⟨b, hb, hcb⟩
  · exact .inl hn
  · rcases h q b hb with hn | ⟨a, ha, hba⟩
    · exact .inl hn
    · exact .inr ⟨a, ha, hcb.trans hba⟩

theorem Shrinks.old (h : Shrinks s s') : Old N s s' := by
  intro q b hq
  obtain ⟨a, ha, hchars, -⟩ := h.mem q b hq
  exact .inr ⟨a, ha, hchars⟩

theorem Relinked.old (h : Relinked s s') : Old N s s' := by
  intro q b hq
  obtain ⟨a, ha, hsame⟩ := h.mem_back hq
  exact .inr ⟨a, ha, hsame.chars⟩

/-- What interning a string with these characters does. -/
structure Interns (predefined : ℕ) (new : Ptr → Prop) (s : JSRuntime) (t : AtomType)
    (chars : List ℕ) (values : Ptr → ℕ) (atoms : ℕ → ℕ) (r : JSRuntime × ℕ) : Prop where
  table : Table r.1
  counted : Counted predefined r.1 values (gain predefined atoms r.2)
  atom : r.2 ≠ 0 → ∃ str, r.1.atom r.2 = some str ∧ str.chars = chars ∧ str.atomType = t
  old : Old new s r.1

theorem gain_zero (predefined : ℕ) (atoms : ℕ → ℕ) : gain predefined atoms 0 = atoms := by
  simp [gain, jsAtomIsConst]

variable {t : AtomType} {i : ℕ} {str : JSString} {alloc : Alloc}

/-- A failed allocation. -/
theorem Interns.fail (ht : Table s')
    (hc : Counted predefined s' values atoms) (ho : Old N s s') :
    Interns predefined N s t chars values atoms (s', 0) :=
  ⟨ht, by rw [gain_zero]; exact hc, fun h => absurd rfl h, ho⟩

theorem Interns.of_old {r : JSRuntime × ℕ}
    (h : Interns predefined N s'' t chars values atoms r) (ho : Old N s s'') :
    Interns predefined N s t chars values atoms r :=
  ⟨h.table, h.counted, h.atom, ho.trans h.old⟩

/-! ## Registering -/

theorem share_gain {j : ℕ} (h : j ≠ i) :
    share predefined (gain predefined atoms i) j = share predefined atoms j := by
  unfold share gain
  split
  · rfl
  · split
    · rfl
    · exact bump_of_ne atoms h

/-- The reference of the string becomes that of the new atom. -/
theorem Registered.counted (ht : Table s) (hroom : s.atomFreeIndex ≠ 0)
    (hp : s.mem p = some str) (htype : str.atomType = .none) (hnew : strNew.atomType ≠ .none)
    (hrc : strNew.refCount = str.refCount) (hr : Registered s p strNew s')
    (h : Counted predefined s (bump values p) atoms) :
    Counted predefined s' values (gain predefined atoms s.atomFreeIndex) := by
  obtain ⟨l, hl⟩ := ht.free_head hroom
  obtain ⟨⟨n, hn⟩, -⟩ := hl.free _ (List.mem_cons_self ..)
  have hunheld : atoms s.atomFreeIndex = 0 := by
    by_contra h0
    obtain ⟨-, q, hq⟩ := h.held _ (Nat.pos_of_ne_zero h0)
    rw [hn] at hq
    cases hq
  have hmem : ∀ {q a}, s'.mem q = some a → (q = p ∧ a = strNew) ∨ (q ≠ p ∧ s.mem q = some a) := by
    intro q a hq
    rw [hr.mem] at hq
    by_cases hqp : q = p
    · rw [hqp, Function.update_self] at hq
      exact .inl ⟨hqp, (Option.some.inj hq).symm⟩
    · rw [Function.update_of_ne hqp] at hq
      exact .inr ⟨hqp, hq⟩
  have hused : ∀ {j q}, s'.atomArray j = .used q →
      (j = s.atomFreeIndex ∧ q = p) ∨ (j ≠ s.atomFreeIndex ∧ q ≠ p ∧ s.atomArray j = .used q) := by
    intro j q hj
    rw [hr.array] at hj
    by_cases hji : j = s.atomFreeIndex
    · rw [hji, Function.update_self] at hj
      cases hj
      exact .inl ⟨hji, rfl⟩
    · rw [Function.update_of_ne hji] at hj
      exact .inr ⟨hji, fun hqp => ht.not_used hp htype j (hqp ▸ hj), hj⟩
  have hcount := h.plain p str hp htype
  rw [bump_self] at hcount
  refine ⟨fun q a hq ha => ?_, fun j q a hj hq => ?_, fun q a hq => ?_, fun q hq => ?_, fun j hj => ?_⟩
  · rcases hmem hq with ⟨-, rfl⟩ | ⟨hqp, hq⟩
    · exact absurd ha hnew
    · have hc := h.plain q a hq ha
      rwa [bump_of_ne _ hqp] at hc
  · rcases hused hj with ⟨rfl, rfl⟩ | ⟨hji, hqp, hj⟩
    · rcases hmem hq with ⟨-, rfl⟩ | ⟨hqp, -⟩
      · have hshare : share predefined (gain predefined atoms s.atomFreeIndex) s.atomFreeIndex
            = 1 := by
          unfold share gain
          split
          · rfl
          · rw [bump_self, hunheld]
        rw [hrc, hcount, hshare]
      · exact absurd rfl hqp
    · rcases hmem hq with ⟨rfl, -⟩ | ⟨-, hq⟩
      · exact absurd rfl hqp
      · have hc := h.atom j q a hj hq
        rwa [bump_of_ne _ hqp, ← share_gain hji] at hc
  · rcases hmem hq with ⟨-, rfl⟩ | ⟨-, hq⟩
    · rw [hrc]
      exact h.positive p str hp
    · exact h.positive q a hq
  · obtain ⟨a, ha⟩ := h.value q (Nat.lt_of_lt_of_le hq (le_bump values p q))
    by_cases hqp : q = p
    · exact ⟨strNew, by rw [hr.mem, hqp, Function.update_self]⟩
    · exact ⟨a, by rw [hr.mem, Function.update_of_ne hqp, ha]⟩
  · by_cases hji : j = s.atomFreeIndex
    · subst hji
      have hconst : jsAtomIsConst predefined s.atomFreeIndex = false := by
        by_contra hc
        rw [gain, if_pos (by simpa using hc), hunheld] at hj
        exact absurd hj (Nat.lt_irrefl 0)
      exact ⟨hconst, p, by rw [hr.array, Function.update_self]⟩
    · have hj' : 0 < atoms j := by
        unfold gain at hj
        split at hj
        · exact hj
        · rwa [bump_of_ne _ hji] at hj
      obtain ⟨hconst, q, hq⟩ := h.held j hj'
      exact ⟨hconst, q, by rw [hr.array, Function.update_of_ne hji, hq]⟩

theorem Registered.old (hp : s.mem p = some str)
    (hchars : strNew.chars = str.chars) (hr : Registered s p strNew s') : Old N s s' := by
  intro q b hq
  rw [hr.mem] at hq
  by_cases hqp : q = p
  · rw [hqp, Function.update_self] at hq
    obtain rfl := Option.some.inj hq
    exact .inr ⟨str, hqp ▸ hp, hchars⟩
  · rw [Function.update_of_ne hqp] at hq
    exact .inr ⟨b, hq, rfl⟩

/-- What `__JS_NewAtom` knows when it has to create an atom: the hash it computed
and that no atom of the type has these characters. -/
structure Missing (s : JSRuntime) (t : AtomType) (h : ℕ) (chars : List ℕ) : Prop where
  isAtom : t ≠ .none
  hash : t.hashed → h = atomHashOf t chars
  unique : t.hashed → ∀ j a, s.atom j = some a → a.atomType = t → a.chars ≠ chars
  numeric : t = .string → ∀ n, isNumString chars = some n → jsAtomMaxInt < n

theorem registerAtom_spec (alloc : Alloc) (ht : Table s)
    (hroom : s.atomFreeIndex ≠ 0) (hp : s.mem p = some str) (htype : str.atomType = .none)
    (hmiss : Missing s t h str.chars) (hc : Counted predefined s (bump values p) atoms) :
    Interns predefined N s t str.chars values atoms (registerAtom s p t h alloc) := by
  -- the registration itself, before the table may grow
  have hstep : ∀ (strNew : JSString) {s₁ : JSRuntime}, strNew.chars = str.chars →
      strNew.atomType = t → strNew.refCount = str.refCount → Registrable s strNew →
      Registered s p strNew s₁ →
      Interns predefined N s t str.chars values atoms (s₁, s.atomFreeIndex) := by
    intro strNew s₁ hchars htn hrc hable hr
    refine ⟨ht.register hroom hp htype hable hr, ?_, fun _ => ⟨strNew, ?_, hchars, htn⟩, hr.old hp hchars⟩
    · exact hr.counted ht hroom hp htype hable.isAtom hrc hc
    · rw [hr.atom ht hp htype, if_pos rfl]
  unfold registerAtom
  dsimp only
  by_cases hsym : t = .symbol
  · rw [if_pos hsym]
    refine hstep { str with hash := h, atomType := t, hashNext := s.atomFreeIndex } rfl
      rfl rfl ⟨hmiss.isAtom, fun _ => rfl, fun hh => ?_, fun hh => ?_, fun hh => ?_, fun hh => ?_⟩
      ⟨rfl, ?_, rfl, rfl, rfl, ?_⟩
    · rw [hsym] at hh; cases hh
    · rw [hsym] at hh; cases hh
    · rw [hsym] at hh; cases hh
    · rw [hsym] at hh; cases hh
    · simp [JSRuntime.modify, hp]
    · simp [hsym, AtomType.hashed, JSRuntime.modify]
  · rw [if_neg hsym]
    have hh : t.hashed := (atomType_cases hmiss.isAtom).resolve_left hsym
    have hreg : ∀ s₁ : JSRuntime, s₁ = { ({ s with
          atomFreeIndex := s.atomGetFree s.atomFreeIndex
          atomArray := Function.update s.atomArray s.atomFreeIndex (.used p)
          atomCount := s.atomCount + 1 } : JSRuntime).modify p fun str =>
            { str with hash := h, atomType := t, hashNext := s.atomHash (s.bucket h) } with
          atomHash := Function.update s.atomHash (s.bucket h) s.atomFreeIndex } →
        Interns predefined N s t str.chars values atoms (s₁, s.atomFreeIndex) := by
      rintro s₁ rfl
      refine hstep { str with
          hash := h, atomType := t, hashNext := s.atomHash (s.bucket h) } rfl rfl rfl
        ⟨hmiss.isAtom, fun h => absurd h hsym, fun _ => rfl, hmiss.hash, hmiss.unique,
          hmiss.numeric⟩ ⟨rfl, ?_, rfl, rfl, rfl, ?_⟩
      · simp [JSRuntime.modify, hp]
      · simp [hh]
    have hs₁ := hreg _ rfl
    split
    · -- the hash table grows
      have hrel := jsResizeAtomHash_relinked hs₁.table (s.atomHashSize * 2)
      refine ⟨hs₁.table.jsResizeAtomHash ?_, hs₁.counted.relinked hrel, fun h0 => ?_, hs₁.old.trans hrel.old⟩
      · have hpos := ht.hashSize
        change 0 < s.atomHashSize * 2
        omega
      · obtain ⟨str', hstr', hchars, htn⟩ := hs₁.atom h0
        obtain ⟨str'', hstr'', hsame⟩ := hrel.atom_forward hstr'
        exact ⟨str'', hstr'', hsame.chars.trans hchars, hsame.type.trans htn⟩
    · exact hs₁

/-! ## Fresh strings -/

theorem bump_comm (f : ℕ → ℕ) (a b : ℕ) : bump (bump f a) b = bump (bump f b) a := by
  funext c
  unfold bump
  split <;> split <;> rfl

/-- A new string that is no atom. -/
theorem setMem_fresh (chars : List ℕ) (wide : Bool) (ht : Table s)
    (hc : Counted predefined s values atoms) (hq : s.mem q = none) :
    Table (s.setMem q (some (.alloc chars wide))) ∧
      Counted predefined (s.setMem q (some (.alloc chars wide))) (bump values q) atoms := by
  have hview : (s.setMem q (some (.alloc chars wide))).view q = s.view q := by
    simp [view, setMem, hq, JSString.alloc]
  have h0 : values q = 0 := by
    by_contra h0
    obtain ⟨a, ha⟩ := hc.value q (Nat.pos_of_ne_zero h0)
    rw [hq] at ha
    cases ha
  have hmem : ∀ {r a}, (s.setMem q (some (.alloc chars wide))).mem r = some a →
      (r = q ∧ a = .alloc chars wide) ∨ (r ≠ q ∧ s.mem r = some a) := by
    intro r a hr
    change Function.update s.mem q _ r = some a at hr
    by_cases hrq : r = q
    · rw [hrq, Function.update_self] at hr
      exact .inl ⟨hrq, (Option.some.inj hr).symm⟩
    · rw [Function.update_of_ne hrq] at hr
      exact .inr ⟨hrq, hr⟩
  refine ⟨ht.of_sameAtoms (sameAtoms_setMem hview), fun r a hr ha => ?_, fun i r a hi hr => ?_,
    fun r a hr => ?_, fun r hr => ?_, hc.held⟩
  · rcases hmem hr with ⟨rfl, rfl⟩ | ⟨hrq, hr⟩
    · rw [bump_self, h0]
      rfl
    · rw [bump_of_ne _ hrq]
      exact hc.plain r a hr ha
  · have hrq : r ≠ q := by
      rintro rfl
      obtain ⟨-, -, b, hb, -⟩ := ht.used i r hi
      rw [hq] at hb
      cases hb
    rcases hmem hr with ⟨rfl, -⟩ | ⟨-, hr⟩
    · exact absurd rfl hrq
    · rw [bump_of_ne _ hrq]
      exact hc.atom i r a hi hr
  · rcases hmem hr with ⟨-, rfl⟩ | ⟨-, hr⟩
    · exact Nat.one_pos
    · exact hc.positive r a hr
  · by_cases hrq : r = q
    · exact ⟨_, by rw [hrq]; exact Function.update_self ..⟩
    · rw [bump_of_ne _ hrq] at hr
      obtain ⟨a, ha⟩ := hc.value r hr
      exact ⟨a, by rw [← ha]; exact Function.update_of_ne hrq ..⟩

theorem setMem_old {str : Option JSString} (hq : N q) : Old N s (s.setMem q str) := by
  intro r b hr
  by_cases hrq : r = q
  · exact .inl (hrq ▸ hq)
  · have hr' : s.mem r = some b := by rwa [← show (s.setMem q str).mem r = s.mem r from
      Function.update_of_ne hrq ..]
    exact .inr ⟨b, hr', rfl⟩

theorem incRef_shrinks (p : Ptr) : Shrinks s (s.incRef p) :=
  shrinks_modify (fun _ => rfl) fun _ => rfl

/-! ## Creating an atom -/

theorem Grown.counted {owed : Ptr → ℕ} (h : Grown s s')
    (hc : Balance predefined owed s values atoms) : Balance predefined owed s' values atoms :=
  hc.congr h.used fun _ => by rw [h.mem]

theorem Grown.old (h : Grown s s') : Old N s s' := fun _ b hq => .inr ⟨b, h.mem ▸ hq, rfl⟩

/-- The address of the copy that `__JS_NewAtom` makes is fresh. -/
def Alloc.Fresh (alloc : Alloc) (s : JSRuntime) : Prop := ∀ q, alloc.copy = some q → s.mem q = none

instance (alloc : Alloc) (s : JSRuntime) : Decidable (alloc.Fresh s) :=
  match h : alloc.copy with
  | none => .isTrue fun q hq => by
      rw [h] at hq
      cases hq
  | some q => decidable_of_iff (s.mem q = none) ⟨fun hq r hr => by
      rw [h] at hr
      cases hr
      exact hq, fun hf => hf q h⟩

theorem addAtom_spec (ht : Table s)
    (hp : s.mem p = some str) (hfresh : alloc.Fresh s) (hmiss : Missing s t h str.chars)
    (hc : Counted predefined s (bump values p) atoms) :
    Interns predefined (fun q => alloc.copy = some q) s t str.chars values atoms
      (addAtom s p t h alloc) := by
  unfold addAtom
  cases hg : growAtomArray s alloc with
  | none =>
    have hd := jsFreeString_spec ht hc.pending hp
    exact .fail hd.table hd.counted hd.shrinks.old
  | some s₁ =>
    have hgrown := growAtomArray_spec ht hg
    have hc₁ := hgrown.counted hc
    have hp₁ : s₁.mem p = some str := hgrown.mem ▸ hp
    have hmiss₁ : Missing s₁ t h str.chars :=
      ⟨hmiss.isAtom, hmiss.hash, by rw [hgrown.atom]; exact hmiss.unique, hmiss.numeric⟩
    refine Interns.of_old ?_ hgrown.old
    simp only [hp₁]
    by_cases htype : str.atomType = .none
    · -- the string becomes the atom
      rw [if_pos htype]
      exact registerAtom_spec _ hgrown.table hgrown.room hp₁ htype hmiss₁ hc₁
    rw [if_neg htype]
    cases hcopy : alloc.copy with
    | none =>
      have hd := jsFreeString_spec hgrown.table hc₁.pending hp₁
      exact .fail hd.table hd.counted hd.shrinks.old
    | some q =>
      -- a copy of the string becomes the atom
      simp only
      have hq₁ : s₁.mem q = none := hgrown.mem ▸ hfresh q hcopy
      obtain ⟨ht₂, hc₂⟩ := setMem_fresh str.chars str.isWideChar
        hgrown.table hc₁ hq₁
      rw [bump_comm] at hc₂
      have hsame : SameAtoms s₁ (s₁.setMem q (some (.alloc str.chars str.isWideChar))) :=
        sameAtoms_setMem (by simp [view, setMem, hq₁, JSString.alloc])
      have hpq : p ≠ q := by
        rintro rfl
        rw [hp₁] at hq₁
        cases hq₁
      have hp₂ : (s₁.setMem q (some (.alloc str.chars str.isWideChar))).mem p = some str := by
        rw [← hp₁]
        exact Function.update_of_ne hpq ..
      have hq₂ : (s₁.setMem q (some (.alloc str.chars str.isWideChar))).mem q =
          some (.alloc str.chars str.isWideChar) := Function.update_self ..
      have hold : Old (fun r => some q = some r) s₁
          (s₁.setMem q (some (.alloc str.chars str.isWideChar))) := setMem_old rfl
      generalize s₁.setMem q (some (.alloc str.chars str.isWideChar)) = s₂ at ht₂ hc₂ hsame hp₂ hq₂ hold ⊢
      have hd := jsFreeString_spec ht₂ hc₂.pending hp₂
      obtain ⟨str₃, hstr₃⟩ := hd.counted.value q (by rw [bump_self]; omega)
      obtain ⟨str₂, hstr₂, hchars, htype₃⟩ := hd.shrinks.mem q str₃ hstr₃
      obtain rfl := Option.some.inj (hq₂.symm.trans hstr₂)
      have hmiss₃ : Missing (jsFreeString s₂ p) t h str₃.chars := by
        rw [hchars]
        refine ⟨hmiss₁.isAtom, hmiss₁.hash, fun hh j a hj ha => ?_, hmiss₁.numeric⟩
        obtain ⟨a₂, ha₂, hac, hat⟩ := hd.shrinks.atom hj
        obtain ⟨a₁, ha₁, hcore⟩ := hsame.symm.atom_forward ht₂ ha₂
        rw [hac, ← chars_of_core hcore]
        exact hmiss₁.unique hh j a₁ ha₁ ((type_of_core hcore).trans (hat.symm.trans ha))
      have hreg := registerAtom_spec (N := fun r => some q = some r) alloc hd.table
        (hd.room (hsame.freeIndex ▸ hgrown.room)) hstr₃ htype₃ hmiss₃ hd.counted
      rw [hchars] at hreg
      exact hreg.of_old (hold.trans hd.shrinks.old)

/-! ## `__JS_NewAtom` -/

theorem jsGetAtomIndex_spec (ht : Table s) (hp : s.mem p = some str)
    (hi : s.atomArray i = .used p) : jsGetAtomIndex s p str = i := by
  have hatom : s.atom i = some str := atom_eq_some.mpr ⟨p, hi, hp⟩
  unfold jsGetAtomIndex
  rcases atomType_cases (ht.atom_ne_none hatom) with hsym | hh
  · rw [if_pos hsym]
    exact ht.symbol i str hatom hsym
  · rw [if_neg fun hsym => by rw [hsym] at hh; cases hh]
    obtain ⟨l, hl, hil⟩ := ht.mem_bucket hatom hh
    refine findFrom_unique hl.chain (hl.length_le ht) hil (by simp [hi]) fun j _ hj => ?_
    exact ht.inj j i p (by simpa using hj) hi

/-- The search finds the atom of a type with given characters, if there is one. -/
theorem findAtom_spec (chars : List ℕ) (ht : Table s) (hh : t.hashed) :
    (findAtom s t (atomHashOf t chars) chars = 0 →
      ∀ j a, s.atom j = some a → a.atomType = t → a.chars ≠ chars) ∧
    (findAtom s t (atomHashOf t chars) chars ≠ 0 → ∃ a,
      s.atom (findAtom s t (atomHashOf t chars) chars) = some a ∧ a.chars = chars ∧ a.atomType = t) := by
  obtain ⟨l, hl⟩ := ht.buckets (s.bucket (atomHashOf t chars))
  have heq := findFrom_eq (f := fun i => (s.atom i).any fun p =>
    p.hash = atomHashOf t chars && p.atomType = t && p.chars = chars) hl.chain (hl.length_le ht)
  unfold findAtom
  rw [heq]
  cases hfind : l.find? fun i => (s.atom i).any fun p =>
      p.hash = atomHashOf t chars && p.atomType = t && p.chars = chars with
  | none =>
    refine ⟨fun _ j a hj ha hchars => ?_, fun h => absurd rfl h⟩
    have hhash := ht.hash j a hj (ha ▸ hh)
    rw [ha, hchars] at hhash
    have hjl : j ∈ l := (hl.mem j).mpr ⟨a, hj, ha ▸ hh, by rw [hhash]⟩
    have hnot := List.find?_eq_none.mp hfind j hjl
    simp [hj, hhash, ha, hchars] at hnot
  | some i =>
    have hi := List.find?_some hfind
    have hil := List.mem_of_find?_eq_some hfind
    obtain ⟨a, ha, -⟩ := (hl.mem i).mp hil
    refine ⟨fun h0 => absurd h0 (hl.chain.ne_zero hil), fun _ => ⟨a, ha, ?_⟩⟩
    simp only [ha, Option.any_some, Bool.and_eq_true, decide_eq_true_eq] at hi
    exact ⟨hi.2, hi.1.2⟩

/-- `JS_DupAtom`. -/
theorem jsDupAtom_spec (ht : Table s) (hi : s.atom i = some str) (hc : Counted predefined s values atoms) :
    Table (jsDupAtom predefined s i) ∧
      Counted predefined (jsDupAtom predefined s i) values (gain predefined atoms i) ∧
      Shrinks s (jsDupAtom predefined s i) ∧
      (jsDupAtom predefined s i).atomArray = s.atomArray := by
  unfold jsDupAtom gain
  by_cases hconst : jsAtomIsConst predefined i
  · rw [if_pos hconst, if_pos hconst]
    exact ⟨ht, hc, ⟨fun q str' hq => ⟨str', hq, rfl, rfl⟩, fun _ _ h => h⟩, rfl⟩
  rw [if_neg hconst, if_neg hconst]
  obtain ⟨q, hq, hstr⟩ := atom_eq_some.mp hi
  simp only [hq]
  have hmem : ∀ {r a}, (s.incRef q).mem r = some a →
      (r = q ∧ a = { str with refCount := str.refCount + 1 }) ∨ (r ≠ q ∧ s.mem r = some a) := by
    intro r a hr
    by_cases hrq : r = q
    · subst hrq
      simp only [incRef, JSRuntime.modify, Function.update_self, hstr, Option.map_some,
        Option.some.injEq] at hr
      exact .inl ⟨rfl, hr.symm⟩
    · simp only [incRef, JSRuntime.modify, Function.update_of_ne hrq] at hr
      exact .inr ⟨hrq, hr⟩
  have hback : ∀ {r a}, s.mem r = some a → ∃ b, (s.incRef q).mem r = some b := by
    intro r a hr
    by_cases hrq : r = q
    · exact ⟨_, by rw [hrq]; simp [incRef, JSRuntime.modify, hstr]; rfl⟩
    · exact ⟨a, by simp [incRef, JSRuntime.modify, hrq, hr]⟩
  refine ⟨ht.of_sameAtoms (sameAtoms_incRef q), ⟨fun r a hr ha => ?_, fun j r a hj hr => ?_,
    fun r a hr => ?_, fun r hr => ?_, fun j hj => ?_⟩, incRef_shrinks q, rfl⟩
  · rcases hmem hr with ⟨-, rfl⟩ | ⟨-, hr⟩
    · exact absurd (show str.atomType = .none from ha) (ht.atom_ne_none hi)
    · exact hc.plain r a hr ha
  · by_cases hji : j = i
    · subst hji
      obtain rfl : r = q := by
        change s.atomArray j = .used r at hj
        rw [hq] at hj
        cases hj
        rfl
      rcases hmem hr with ⟨-, rfl⟩ | ⟨hrq, -⟩
      · have hcount := hc.atom j r str hq hstr
        simp only [share, hconst, bump_self] at hcount ⊢
        simp only [Bool.false_eq_true, if_false] at hcount ⊢
        omega
      · exact absurd rfl hrq
    · have hrq : r ≠ q := fun h => hji (ht.inj j i q (h ▸ hj) hq)
      rcases hmem hr with ⟨rfl, -⟩ | ⟨-, hr⟩
      · exact absurd rfl hrq
      · simpa only [share, bump_of_ne _ hji] using hc.atom j r a hj hr
  · rcases hmem hr with ⟨-, rfl⟩ | ⟨-, hr⟩
    · exact Nat.succ_pos _
    · exact hc.positive r a hr
  · obtain ⟨a, ha⟩ := hc.value r hr
    exact hback ha
  · by_cases hji : j = i
    · exact ⟨by rw [hji]; simpa using hconst, q, by rw [hji]; exact hq⟩
    · rw [bump_of_ne _ hji] at hj
      exact hc.held j hj

/-- A registered string is its own atom. -/
theorem newAtom_registered (ht : Table s) (hp : s.mem p = some str)
    (hi : s.atomArray i = .used p) (hc : Counted predefined s (bump values p) atoms) :
    Interns predefined N s str.atomType str.chars values atoms
      (if jsAtomIsConst predefined i then (s.decRef p, i) else (s, i)) := by
  have hatom : s.atom i = some str := atom_eq_some.mpr ⟨p, hi, hp⟩
  have hcount := hc.atom i p str hi hp
  rw [bump_self] at hcount
  by_cases hconst : jsAtomIsConst predefined i
  · rw [if_pos hconst]
    have hrc : 1 < str.refCount := by
      have hpos : share predefined atoms i = 1 := by rw [share, if_pos hconst]
      omega
    have hd := dropped_decRef ht hc.pending hp hrc
    refine ⟨hd.table, ?_, fun _ => ?_, hd.shrinks.old⟩
    · rw [gain, if_pos hconst]
      exact hd.counted
    · obtain ⟨str', hstr', hcore⟩ := (sameAtoms_decRef p).atom_forward ht hatom
      exact ⟨str', hstr', chars_of_core hcore, type_of_core hcore⟩
  · rw [if_neg hconst]
    refine ⟨ht, ?_, fun _ => ⟨str, hatom, rfl, rfl⟩, Old.refl s⟩
    rw [gain, if_neg hconst]
    refine ⟨fun q a hq ha => ?_, fun j q a hj hq => ?_, hc.positive, fun q hq => ?_, fun j hj => ?_⟩
    · have hqp : q ≠ p := by
        rintro rfl
        exact ht.not_used hq ha i hi
      have h := hc.plain q a hq ha
      rwa [bump_of_ne _ hqp] at h
    · have h := hc.atom j q a hj hq
      by_cases hji : j = i
      · subst hji
        obtain rfl : q = p := by
          rw [hi] at hj
          cases hj
          rfl
        simp only [share, hconst, bump_self, Bool.false_eq_true, if_false] at h ⊢
        omega
      · have hqp : q ≠ p := fun hqp => hji (ht.inj j i p (hqp ▸ hj) hi)
        rw [bump_of_ne _ hqp] at h
        simpa only [share, bump_of_ne _ hji] using h
    · exact hc.value q (Nat.lt_of_lt_of_le hq (le_bump values p q))
    · by_cases hji : j = i
      · exact ⟨by rw [hji]; simpa using hconst, p, hji ▸ hi⟩
      · rw [bump_of_ne _ hji] at hj
        exact hc.held j hj

/-- `__JS_NewAtom` on an interned kind. -/
theorem newAtom_hashed {kind : AtomKind} (ht : Table s)
    (hp : s.mem p = some str) (hfresh : alloc.Fresh s) (hh : kind.type.hashed)
    (hnum : kind.type = .string → ∀ n, isNumString str.chars = some n → jsAtomMaxInt < n)
    (hc : Counted predefined s (bump values p) atoms) :
    Interns predefined (fun q => alloc.copy = some q) s kind.type str.chars values atoms
      (newAtom predefined s p kind alloc) := by
  have hne : kind.type ≠ .none := fun h => by
    rw [h] at hh
    cases hh
  have hdef : newAtom predefined s p kind alloc = if str.atomType = kind.type then
        let i := jsGetAtomIndex s p str
        if jsAtomIsConst predefined i then (s.decRef p, i) else (s, i)
      else
        let h := atomHashOf kind.type str.chars
        let i := findAtom s kind.type h str.chars
        if i ≠ 0 then (jsFreeString (jsDupAtom predefined s i) p, i)
        else addAtom s p kind.type h alloc := by
    unfold newAtom
    rw [hp]
    cases kind <;> first | rfl | cases hh
  rw [hdef]
  by_cases htype : str.atomType = kind.type
  · rw [if_pos htype]
    obtain ⟨i, hi⟩ := ht.registered p str hp (htype ▸ hne)
    rw [jsGetAtomIndex_spec ht hp hi, ← htype]
    exact newAtom_registered ht hp hi hc
  rw [if_neg htype]
  obtain ⟨hmiss, hfound⟩ := findAtom_spec str.chars ht hh
  by_cases hi : findAtom s kind.type (atomHashOf kind.type str.chars) str.chars ≠ 0
  · -- the string is given back for the atom that has its characters
    rw [if_pos hi]
    obtain ⟨a, ha, hachars, hatype⟩ := hfound hi
    generalize findAtom s kind.type (atomHashOf kind.type str.chars) str.chars = i at hi ha
    obtain ⟨ht₁, hc₁, hs₁, harr⟩ := jsDupAtom_spec ht ha hc
    have hp₁ : ∃ str₁, (jsDupAtom predefined s i).mem p = some str₁ :=
      hc₁.value p (by rw [bump_self]; omega)
    obtain ⟨str₁, hstr₁⟩ := hp₁
    have hd := jsFreeString_spec ht₁ hc₁.pending hstr₁
    refine ⟨hd.table, hd.counted, fun _ => ?_, hs₁.old.trans hd.shrinks.old⟩
    obtain ⟨q, hq, -⟩ := atom_eq_some.mp ha
    have hshare : 0 < share predefined (gain predefined atoms i) i := by
      unfold share gain
      by_cases hconst : jsAtomIsConst predefined i
      · rw [if_pos hconst]
        exact Nat.one_pos
      · rw [if_neg hconst, if_neg hconst, bump_self]
        exact Nat.succ_pos _
    have hq' := hd.keeps i q (by rw [harr, hq]) hshare
    obtain ⟨-, -, b, hb, -⟩ := hd.table.used i q hq'
    have hbi := atom_eq_some.mpr ⟨q, hq', hb⟩
    obtain ⟨b₁, hb₁, hc₂, ht₂⟩ := hd.shrinks.atom hbi
    obtain ⟨b₀, hb₀, hc₃, ht₃⟩ := hs₁.atom hb₁
    obtain rfl := Option.some.inj (ha.symm.trans hb₀)
    exact ⟨b, hbi, hc₂.trans (hc₃.trans hachars), ht₂.trans (ht₃.trans hatype)⟩
  · rw [if_neg hi]
    exact addAtom_spec ht hp hfresh ⟨hne, fun _ => rfl, fun _ => hmiss (not_not.mp hi), hnum⟩ hc

/-- `__JS_NewAtom`. -/
theorem newAtom_spec (kind : AtomKind) (ht : Table s) (hp : s.mem p = some str) (hfresh : alloc.Fresh s)
    (hnum : kind.type = .string → ∀ n, isNumString str.chars = some n → jsAtomMaxInt < n)
    (hc : Counted predefined s (bump values p) atoms) :
    Interns predefined (fun q => alloc.copy = some q) s kind.type str.chars values atoms
      (newAtom predefined s p kind alloc) := by
  by_cases hh : kind.type.hashed
  · exact newAtom_hashed ht hp hfresh hh hnum hc
  have hsym : ∀ h, Missing s .symbol h str.chars := fun h =>
    ⟨by simp, nofun, nofun, nofun⟩
  cases kind with
  | string => exact absurd rfl hh
  | globalSymbol => exact absurd rfl hh
  | symbol =>
    have hdef : newAtom predefined s p .symbol alloc = addAtom s p .symbol 0 alloc := by
      unfold newAtom
      rw [hp]
    rw [hdef]
    exact addAtom_spec ht hp hfresh (hsym 0) hc
  | priv =>
    have hdef : newAtom predefined s p .priv alloc = addAtom s p .symbol 1 alloc := by
      unfold newAtom
      rw [hp]
    rw [hdef]
    exact addAtom_spec ht hp hfresh (hsym 1) hc

end QuickJs.Atom
