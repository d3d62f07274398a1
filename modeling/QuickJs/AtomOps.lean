import QuickJs.AtomTable

/-!
# The operations of the atom table

Growing the array, registering an atom, releasing one and resizing the hash
table keep `Table`.
-/

namespace QuickJs.Atom

open HashChain JSRuntime

variable {s s' : JSRuntime}

variable {n newSize i : ℕ} {p : Ptr} {str : JSString}

/-! ## Growing the array -/

/-- The chain of the fresh entries from `start` on. -/
theorem isChain_range {next : ℕ → ℕ} {start : ℕ} (h0 : 0 < start)
    (hnext : ∀ i, start ≤ i → i < start + (n + 1) → next i = if i = start + n then 0 else i + 1) :
    IsChain next start (List.range' start (n + 1)) := by
  induction n generalizing start with
  | zero =>
    refine ⟨rfl, by omega, ?_⟩
    rw [hnext start (Nat.le_refl _) (by omega), if_pos (by omega)]
    rfl
  | succ n ih =>
    refine ⟨rfl, by omega, ?_⟩
    rw [hnext start (Nat.le_refl _) (by omega), if_neg (by omega)]
    refine ih (by omega) fun i hi hlt => ?_
    rw [hnext i (by omega) (by omega)]
    by_cases h : i = start + 1 + n
    · rw [if_pos h, if_pos (by omega)]
    · rw [if_neg h, if_neg (by omega)]

/-- A change of the free entries only. -/
theorem Table.of_free (ht : Table s) (hmem : s'.mem = s.mem) (hhash : s'.atomHash = s.atomHash)
    (hhashSize : s'.atomHashSize = s.atomHashSize) (hmax : s'.atomSize ≤ jsAtomMax)
    (hsize : s.atomSize ≤ s'.atomSize)
    (hused : ∀ i p, s'.atomArray i = .used p ↔ s.atomArray i = .used p)
    (hfree : ∃ l, FreeList s' l) : Table s' := by
  have hatom : s'.atom = s.atom := by
    funext i
    refine Option.ext fun str => ?_
    rw [atom_eq_some, atom_eq_some]
    simp only [hused, hmem]
  have hnext : s'.hashNextOf = s.hashNextOf := by
    funext i
    rw [hashNextOf, hashNextOf, hatom]
  have hbucket : ∀ n, s'.bucket n = s.bucket n := fun n => by rw [bucket, bucket, hhashSize]
  refine ⟨hhashSize ▸ ht.hashSize, hmax, fun b => ?_, hfree, fun i p hp => ?_,
    fun i j p hi hj => ht.inj i j p ((hused i p).mp hi) ((hused j p).mp hj), ?_,
    hatom ▸ ht.symbol, hatom ▸ ht.hash, hatom ▸ ht.canonical, hatom ▸ ht.numeric⟩
  · obtain ⟨l, hl⟩ := ht.buckets b
    refine ⟨l, ?_, hl.nodup, fun i => ?_⟩
    · rw [hnext, hhash]
      exact hl.chain
    · simp only [hl.mem i, hatom, hbucket]
  · obtain ⟨h0, hlt, hstr⟩ := ht.used i p ((hused i p).mp hp)
    exact ⟨h0, Nat.lt_of_lt_of_le hlt hsize, hmem ▸ hstr⟩
  · intro p str hp htype
    obtain ⟨i, hi⟩ := ht.registered p str (hmem ▸ hp) htype
    exact ⟨i, (hused i p).mpr hi⟩

/-- What growing the array does. -/
structure Grown (s s' : JSRuntime) : Prop where
  table : Table s'
  room : s'.atomFreeIndex ≠ 0
  mem : s'.mem = s.mem
  used : ∀ i p, s'.atomArray i = .used p ↔ s.atomArray i = .used p

theorem Grown.atom (h : Grown s s') : s'.atom = s.atom := by
  funext i
  refine Option.ext fun str => ?_
  rw [atom_eq_some, atom_eq_some]
  simp only [h.used, h.mem]

theorem addEntries_spec (ht : Table s) (hsize : s.atomSize < newSize)
    (h1 : 1 < newSize) (hmax : newSize ≤ jsAtomMax) : Grown s (addEntries s newSize) := by
  have hfirst : 0 < firstNew s ∧ s.atomSize ≤ firstNew s ∧ firstNew s < newSize := by
    unfold firstNew
    split <;> omega
  -- the entries in use are below the old size
  have hused : ∀ i p, (addEntries s newSize).atomArray i = .used p ↔ s.atomArray i = .used p := by
    intro i p
    simp only [addEntries]
    constructor
    · intro h
      split at h
      · cases h
      · split at h
        · cases h
        · exact h
    · intro h
      obtain ⟨h0, hlt, -⟩ := ht.used i p h
      rw [if_neg (by omega), if_neg (by omega), h]
  have hfree : ∀ i, firstNew s ≤ i → i < newSize → (addEntries s newSize).atomArray i =
      .free (if i = newSize - 1 then 0 else i + 1) := by
    intro i hi hlt
    simp only [addEntries]
    rw [if_neg (by omega), if_pos ⟨hi, hlt⟩]
  refine ⟨ht.of_free rfl rfl rfl hmax (Nat.le_of_lt hsize) hused
    ⟨List.range' (firstNew s) (newSize - 1 - firstNew s + 1), ?_, List.nodup_range',
      fun i hi => ?_⟩, ?_, rfl, hused⟩
  · change IsChain _ (firstNew s) _
    refine isChain_range (by omega) fun i hi hlt => ?_
    rw [atomGetFree, hfree i hi (by omega)]
    by_cases h : i = newSize - 1
    · rw [if_pos h, if_pos (by omega)]
    · rw [if_neg h, if_neg (by omega)]
  · rw [List.mem_range'_1] at hi
    exact ⟨⟨_, hfree i hi.1 (by omega)⟩, show i < newSize by omega⟩
  · exact Nat.ne_of_gt hfirst.1

theorem growAtomArray_spec {alloc : Alloc} (ht : Table s) (hg : growAtomArray s alloc = some s') :
    Grown s s' := by
  unfold growAtomArray at hg
  by_cases hroom : s.atomFreeIndex ≠ 0
  · rw [if_pos hroom] at hg
    cases hg
    exact ⟨ht, hroom, rfl, fun _ _ => Iff.rfl⟩
  · rw [if_neg hroom] at hg
    simp only at hg
    split at hg
    · cases hg
    · rename_i hok
      cases hg
      simp only [Bool.or_eq_true, decide_eq_true_eq, not_or, Nat.not_lt] at hok
      exact addEntries_spec ht (by omega) (by omega) hok.1

/-! ## Registering an atom -/

/-- The state after the string at `p` entered the table as `new`, at the first
free entry. -/
structure Registered (s : JSRuntime) (p : Ptr) (new : JSString) (s' : JSRuntime) : Prop where
  array : s'.atomArray = Function.update s.atomArray s.atomFreeIndex (.used p)
  mem : s'.mem = Function.update s.mem p (some new)
  freeIndex : s'.atomFreeIndex = s.atomGetFree s.atomFreeIndex
  size : s'.atomSize = s.atomSize
  hashSize : s'.atomHashSize = s.atomHashSize
  hash : s'.atomHash = if new.atomType.hashed
    then Function.update s.atomHash (s.bucket new.hash) s.atomFreeIndex else s.atomHash

/-- A string that may enter the table. -/
structure Registrable (s : JSRuntime) (new : JSString) : Prop where
  isAtom : new.atomType ≠ .none
  symbol : new.atomType = .symbol → new.hashNext = s.atomFreeIndex
  next : new.atomType.hashed → new.hashNext = s.atomHash (s.bucket new.hash)
  hash : new.atomType.hashed → new.hash = atomHashOf new.atomType new.chars
  unique : new.atomType.hashed → ∀ j a, s.atom j = some a → a.atomType = new.atomType → a.chars ≠ new.chars
  numeric : new.atomType = .string → ∀ n, isNumString new.chars = some n → jsAtomMaxInt < n

theorem Table.not_used (ht : Table s) (hp : s.mem p = some str)
    (htype : str.atomType = .none) (i : ℕ) : s.atomArray i ≠ .used p := by
  intro hi
  obtain ⟨-, -, str', hstr', htype'⟩ := ht.used i p hi
  obtain rfl := Option.some.inj (hp.symm.trans hstr')
  exact htype' htype

/-- The head of the free list is not in use. -/
theorem Table.free_head (ht : Table s) (hroom : s.atomFreeIndex ≠ 0) :
    ∃ l, FreeList s (s.atomFreeIndex :: l) := by
  obtain ⟨l, hl⟩ := ht.freeList
  cases l with
  | nil => exact absurd hl.chain hroom
  | cons a l =>
    have ha : s.atomFreeIndex = a := hl.chain.1
    exact ⟨l, ha ▸ hl⟩

variable {new str' : JSString} {q : Ptr} {b : ℕ} {l : List ℕ} {D : ℕ → Prop}
  {t : JSRuntime × (ℕ → ℕ)}

theorem Registered.atom (hr : Registered s p new s') (ht : Table s)
    (hp : s.mem p = some str) (htype : str.atomType = .none) (j : ℕ) :
    s'.atom j = if j = s.atomFreeIndex then some new else s.atom j := by
  unfold JSRuntime.atom
  rw [hr.array, hr.mem]
  by_cases hj : j = s.atomFreeIndex
  · simp [hj]
  · rw [Function.update_of_ne hj, if_neg hj]
    cases hent : s.atomArray j with
    | null => rfl
    | free n => rfl
    | used q =>
      have hq : q ≠ p := fun h => ht.not_used hp htype j (h ▸ hent)
      simp only [Function.update_of_ne hq]

theorem Table.register (ht : Table s) (hroom : s.atomFreeIndex ≠ 0)
    (hp : s.mem p = some str) (htype : str.atomType = .none) (hnew : Registrable s new)
    (hr : Registered s p new s') : Table s' := by
  have hatom := hr.atom ht hp htype
  obtain ⟨lf, hlf⟩ := ht.free_head hroom
  obtain ⟨⟨nf, hnf⟩, hlt⟩ := hlf.free _ (List.mem_cons_self ..)
  have hnone : s.atom s.atomFreeIndex = none := by rw [JSRuntime.atom, hnf]
  have hne : ∀ {j a}, s.atom j = some a → j ≠ s.atomFreeIndex := by
    intro j a hj h
    rw [h, hnone] at hj
    cases hj
  have hold : ∀ {j a}, s.atom j = some a → s'.atom j = some a := fun hj => by
    rw [hatom, if_neg (hne hj), hj]
  have hself : s'.atom s.atomFreeIndex = some new := by rw [hatom, if_pos rfl]
  have hcases : ∀ {j a}, s'.atom j = some a → j = s.atomFreeIndex ∧ a = new ∨ s.atom j = some a := by
    intro j a hj
    rw [hatom] at hj
    split at hj
    · exact .inl ⟨‹_›, (Option.some.inj hj).symm⟩
    · exact .inr hj
  have hbucket : ∀ n, s'.bucket n = s.bucket n := fun n => by rw [bucket, bucket, hr.hashSize]
  refine ⟨hr.hashSize ▸ ht.hashSize, hr.size ▸ ht.sizeMax, fun b => ?_, ⟨lf, ?_, ?_, ?_⟩,
    fun j q hq => ?_, fun j k q hj hk => ?_, fun q a hq ha => ?_, fun j a hj ha => ?_,
    fun j a hj ha => ?_, fun j k a a' hj hk ha heq hchars => ?_, fun j a hj ha => ?_⟩
  · -- the bucket of the new atom gets a new head, the other ones stay
    obtain ⟨l, hl⟩ := ht.buckets b
    have hnext : ∀ j ∈ l, s'.hashNextOf j = s.hashNextOf j := by
      intro j hj
      obtain ⟨a, ha, -⟩ := (hl.mem j).mp hj
      rw [hashNextOf_of_atom ha, hashNextOf_of_atom (hold ha)]
    by_cases hb : new.atomType.hashed ∧ s.bucket new.hash = b
    · obtain ⟨hh, rfl⟩ := hb
      refine ⟨s.atomFreeIndex :: l, ?_, ?_, fun j => ?_⟩
      · rw [hr.hash, if_pos hh, Function.update_self]
        refine hl.chain.push hroom ?_ hnext
        rw [hashNextOf_of_atom hself, hnew.next hh]
      · refine List.nodup_cons.mpr ⟨fun h => ?_, hl.nodup⟩
        obtain ⟨a, ha, -⟩ := (hl.mem _).mp h
        exact hne ha rfl
      · rw [List.mem_cons, hl.mem j]
        constructor
        · rintro (rfl | ⟨a, ha, hha, hba⟩)
          · exact ⟨new, hself, hh, hbucket _⟩
          · exact ⟨a, hold ha, hha, (hbucket _).trans hba⟩
        · rintro ⟨a, ha, hha, hba⟩
          rcases hcases ha with ⟨rfl, -⟩ | ha
          · exact .inl rfl
          · exact .inr ⟨a, ha, hha, (hbucket _).symm.trans hba⟩
    · refine ⟨l, ?_, hl.nodup, fun j => ?_⟩
      · have hhead : s'.atomHash b = s.atomHash b := by
          rw [hr.hash]
          split
          · rename_i hh
            exact Function.update_of_ne (fun h => hb ⟨hh, h.symm⟩) ..
          · rfl
        rw [hhead]
        exact hl.chain.congr hnext
      · rw [hl.mem j]
        constructor
        · rintro ⟨a, ha, hha, hba⟩
          exact ⟨a, hold ha, hha, (hbucket _).trans hba⟩
        · rintro ⟨a, ha, hha, hba⟩
          rcases hcases ha with ⟨-, rfl⟩ | ha
          · exact absurd ⟨hha, (hbucket _).symm.trans hba⟩ hb
          · exact ⟨a, ha, hha, (hbucket _).symm.trans hba⟩
  · rw [hr.freeIndex]
    refine hlf.chain.2.2.congr fun j hj => ?_
    have hj' : j ≠ s.atomFreeIndex := fun h => (List.nodup_cons.mp hlf.nodup).1 (h ▸ hj)
    rw [atomGetFree, atomGetFree, hr.array, Function.update_of_ne hj']
  · exact (List.nodup_cons.mp hlf.nodup).2
  · intro j hj
    have hj' : j ≠ s.atomFreeIndex := fun h => (List.nodup_cons.mp hlf.nodup).1 (h ▸ hj)
    rw [hr.array, Function.update_of_ne hj', hr.size]
    exact hlf.free j (List.mem_cons_of_mem _ hj)
  · rw [hr.array] at hq
    by_cases hj : j = s.atomFreeIndex
    · subst hj
      rw [Function.update_self] at hq
      cases hq
      refine ⟨Nat.pos_of_ne_zero hroom, hr.size ▸ hlt, new, ?_, hnew.isAtom⟩
      rw [hr.mem, Function.update_self]
    · rw [Function.update_of_ne hj] at hq
      obtain ⟨h0, hlt', a, ha, hatype⟩ := ht.used j q hq
      have hqp : q ≠ p := fun h => ht.not_used hp htype j (h ▸ hq)
      refine ⟨h0, hr.size ▸ hlt', a, ?_, hatype⟩
      rw [hr.mem, Function.update_of_ne hqp, ha]
  · have hused : ∀ {j}, s'.atomArray j = .used q →
        (j = s.atomFreeIndex ∧ q = p) ∨ (q ≠ p ∧ s.atomArray j = .used q) := by
      intro j hj
      rw [hr.array] at hj
      by_cases hji : j = s.atomFreeIndex
      · rw [hji, Function.update_self] at hj
        cases hj
        exact .inl ⟨hji, rfl⟩
      · rw [Function.update_of_ne hji] at hj
        exact .inr ⟨fun h => ht.not_used hp htype j (h ▸ hj), hj⟩
    rcases hused hj with ⟨rfl, rfl⟩ | ⟨hqp, hj⟩ <;> rcases hused hk with ⟨rfl, h⟩ | ⟨hqp', hk⟩
    · rfl
    · exact absurd rfl hqp'
    · exact absurd h hqp
    · exact ht.inj j k q hj hk
  · rw [hr.mem] at hq
    by_cases hqp : q = p
    · exact ⟨s.atomFreeIndex, by rw [hr.array, Function.update_self, hqp]⟩
    · rw [Function.update_of_ne hqp] at hq
      obtain ⟨j, hj⟩ := ht.registered q a hq ha
      have hji : j ≠ s.atomFreeIndex := fun h => by
        rw [h, hnf] at hj
        cases hj
      exact ⟨j, by rw [hr.array, Function.update_of_ne hji, hj]⟩
  · rcases hcases hj with ⟨rfl, rfl⟩ | hj
    · exact hnew.symbol ha
    · exact ht.symbol j a hj ha
  · rcases hcases hj with ⟨-, rfl⟩ | hj
    · exact hnew.hash ha
    · exact ht.hash j a hj ha
  · rcases hcases hj with ⟨rfl, rfl⟩ | hj <;> rcases hcases hk with ⟨rfl, rfl⟩ | hk
    · rfl
    · exact absurd hchars.symm (hnew.unique ha k a' hk heq.symm)
    · exact absurd hchars (hnew.unique (heq ▸ ha) j a hj heq)
    · exact ht.canonical j k a a' hj hk ha heq hchars
  · rcases hcases hj with ⟨-, rfl⟩ | hj
    · exact hnew.numeric ha
    · exact ht.numeric j a hj ha

/-! ## Relinking chains -/

/-- An interned atom without its link. -/
def JSString.unlinked (str : JSString) : JSString :=
  if str.atomType.hashed then { str with hashNext := 0 } else str

/-- `s'` is `s` with other links between the interned atoms. -/
structure Relinked (s s' : JSRuntime) : Prop where
  array : s'.atomArray = s.atomArray
  size : s'.atomSize = s.atomSize
  freeIndex : s'.atomFreeIndex = s.atomFreeIndex
  mem : ∀ q, (s'.mem q).map JSString.unlinked = (s.mem q).map JSString.unlinked

theorem Relinked.refl (s : JSRuntime) : Relinked s s := ⟨rfl, rfl, rfl, fun _ => rfl⟩

theorem Relinked.trans {s'' : JSRuntime} (h : Relinked s s') (h' : Relinked s' s'') : Relinked s s'' :=
  ⟨h'.array.trans h.array, h'.size.trans h.size, h'.freeIndex.trans h.freeIndex,
   fun q => (h'.mem q).trans (h.mem q)⟩

/-- Strings that differ at most in the link of an interned atom. -/
structure SameButLink (a b : JSString) : Prop where
  refCount : a.refCount = b.refCount
  chars : a.chars = b.chars
  isWideChar : a.isWideChar = b.isWideChar
  type : a.atomType = b.atomType
  hash : a.hash = b.hash
  link : a.atomType.hashed = false → a = b

theorem unlinked_eq_iff {a b : JSString} : a.unlinked = b.unlinked ↔ SameButLink a b := by
  cases a with
  | mk ra ca wa ha ta na =>
    cases b with
    | mk rb cb wb hb tb nb =>
      constructor
      · intro h
        unfold JSString.unlinked at h
        split at h <;> split at h <;> cases h <;>
          exact ⟨rfl, rfl, rfl, rfl, rfl, fun hh => by simp_all⟩
      · rintro ⟨hr, hc, hw, ht, hh, hl⟩
        subst hr hc hw ht hh
        unfold JSString.unlinked
        cases hhash : ta.hashed with
        | true => simp
        | false => rw [hl hhash]

theorem Relinked.mem_forward (h : Relinked s s')
    (hq : s.mem q = some str) : ∃ str', s'.mem q = some str' ∧ SameButLink str' str := by
  have hm := h.mem q
  rw [hq, Option.map_some, Option.map_eq_some_iff] at hm
  obtain ⟨str', hstr', heq⟩ := hm
  exact ⟨str', hstr', unlinked_eq_iff.mp heq⟩

theorem Relinked.mem_back (h : Relinked s s')
    (hq : s'.mem q = some str') : ∃ str, s.mem q = some str ∧ SameButLink str' str := by
  have hm := (h.mem q).symm
  rw [hq, Option.map_some, Option.map_eq_some_iff] at hm
  obtain ⟨str, hstr, heq⟩ := hm
  exact ⟨str, hstr, unlinked_eq_iff.mp heq.symm⟩

theorem Relinked.atom_forward (h : Relinked s s')
    (hi : s.atom i = some str) : ∃ str', s'.atom i = some str' ∧ SameButLink str' str := by
  obtain ⟨q, hq, hstr⟩ := atom_eq_some.mp hi
  obtain ⟨str', hstr', hsame⟩ := h.mem_forward hstr
  exact ⟨str', atom_eq_some.mpr ⟨q, h.array ▸ hq, hstr'⟩, hsame⟩

theorem Relinked.atom_back (h : Relinked s s')
    (hi : s'.atom i = some str') : ∃ str, s.atom i = some str ∧ SameButLink str' str := by
  obtain ⟨q, hq, hstr'⟩ := atom_eq_some.mp hi
  obtain ⟨str, hstr, hsame⟩ := h.mem_back hstr'
  exact ⟨str, atom_eq_some.mpr ⟨q, h.array ▸ hq, hstr⟩, hsame⟩

/-- Changing the link of an interned atom. -/
theorem relinked_setHashNext (hi : s.atom i = some str)
    (hh : str.atomType.hashed) : Relinked s (s.setHashNext i n) := by
  obtain ⟨p, hp, hstr⟩ := atom_eq_some.mp hi
  have hset : s.setHashNext i n = s.modify p fun str => { str with hashNext := n } := by
    rw [setHashNext, hp]
  rw [hset]
  refine ⟨rfl, rfl, rfl, fun q => ?_⟩
  by_cases hq : q = p
  · subst hq
    simp [JSRuntime.modify, hstr, JSString.unlinked, hh]
  · simp [JSRuntime.modify, hq]

/-- The links after `setHashNext`. -/
theorem hashNextOf_setHashNext (hinj : ∀ i j p, s.atomArray i = .used p → s.atomArray j = .used p → i = j)
    (hi : s.atom i = some str) (j : ℕ) : (s.setHashNext i n).hashNextOf j = if j = i then n else s.hashNextOf j := by
  obtain ⟨p, hp, hstr⟩ := atom_eq_some.mp hi
  have hset : s.setHashNext i n = s.modify p fun str => { str with hashNext := n } := by
    rw [setHashNext, hp]
  rw [hset]
  by_cases hj : j = i
  · subst hj
    have hatom : (s.modify p fun str => { str with hashNext := n }).atom j =
        some { str with hashNext := n } :=
      atom_eq_some.mpr ⟨p, hp, by simp [JSRuntime.modify, hstr]⟩
    rw [hashNextOf_of_atom hatom, if_pos rfl]
  · rw [if_neg hj]
    refine congrArg (fun a => (Option.map JSString.hashNext a).getD 0) ?_
    unfold JSRuntime.atom JSRuntime.modify
    dsimp only
    cases hent : s.atomArray j with
    | null => rfl
    | free m => rfl
    | used q =>
      have hq : q ≠ p := fun h => hj (hinj j i p (h ▸ hent) hp)
      simp only [Function.update_of_ne hq]

/-- A table with new links is a table again once every bucket is a chain. -/
theorem Table.relink (ht : Table s) (h : Relinked s s') (hsize : 0 < s'.atomHashSize)
    (hbuckets : ∀ b, ∃ l, Bucket s' b l) : Table s' := by
  refine ⟨hsize, h.size ▸ ht.sizeMax, hbuckets, ?_, fun i p hp => ?_,
    fun i j p hi hj => ht.inj i j p (h.array ▸ hi) (h.array ▸ hj), fun p str hp htype => ?_,
    fun i str hi htype => ?_, fun i str hi htype => ?_, fun i j a b ha hb htype heq hchars => ?_,
    fun i str hi htype => ?_⟩
  · obtain ⟨l, hl⟩ := ht.freeList
    have hget : s'.atomGetFree = s.atomGetFree := by
      funext i
      rw [atomGetFree, atomGetFree, h.array]
    refine ⟨l, ?_, hl.nodup, fun i hi => ?_⟩
    · rw [hget, h.freeIndex]
      exact hl.chain
    · rw [h.array, h.size]
      exact hl.free i hi
  · obtain ⟨h0, hlt, str, hstr, htype⟩ := ht.used i p (h.array ▸ hp)
    obtain ⟨str', hstr', hsame⟩ := h.mem_forward hstr
    exact ⟨h0, h.size ▸ hlt, str', hstr', hsame.type ▸ htype⟩
  · obtain ⟨str', hstr', hsame⟩ := h.mem_back hp
    rw [h.array]
    exact ht.registered p str' hstr' (hsame.type ▸ htype)
  · obtain ⟨str', hstr', hsame⟩ := h.atom_back hi
    obtain rfl := hsame.link (by rw [htype]; rfl)
    exact ht.symbol i str hstr' htype
  · obtain ⟨str', hstr', hsame⟩ := h.atom_back hi
    rw [hsame.hash, hsame.type, hsame.chars]
    exact ht.hash i str' hstr' (hsame.type ▸ htype)
  · obtain ⟨a', ha', hasame⟩ := h.atom_back ha
    obtain ⟨b', hb', hbsame⟩ := h.atom_back hb
    refine ht.canonical i j a' b' ha' hb' (hasame.type ▸ htype) ?_ ?_
    · rw [← hasame.type, heq, hbsame.type]
    · rw [← hasame.chars, hchars, hbsame.chars]
  · obtain ⟨str', hstr', hsame⟩ := h.atom_back hi
    rw [hsame.chars]
    exact ht.numeric i str' hstr' (hsame.type ▸ htype)

/-! ## Releasing an atom -/

/-- The chain `l` of the bucket `b` in `s'`, once the atom `i` is unlinked. -/
structure BucketWithout (s' : JSRuntime) (i b : ℕ) (l : List ℕ) : Prop where
  chain : IsChain s'.hashNextOf (s'.atomHash b) l
  nodup : l.Nodup
  mem : ∀ j, j ∈ l ↔ j ≠ i ∧ ∃ str, s'.atom j = some str ∧ str.atomType.hashed ∧ s'.bucket str.hash = b

/-- The atom `i`, the string at `p`, is unlinked from its chain. -/
structure Unlinked (s : JSRuntime) (p : Ptr) (i : ℕ) (s' : JSRuntime) : Prop where
  relinked : Relinked s s'
  hashSize : s'.atomHashSize = s.atomHashSize
  entry : s.atomArray i = .used p
  buckets : ∀ b, ∃ l, BucketWithout s' i b l

/-- The last part of `jsFreeAtomStruct`: the entry `i` becomes free and the string
at `p` goes away. -/
def releaseEntry (s : JSRuntime) (p : Ptr) (i : ℕ) : JSRuntime :=
  { s with
    atomArray := Function.update s.atomArray i (.free s.atomFreeIndex)
    atomFreeIndex := i
    mem := Function.update s.mem p none
    atomCount := s.atomCount - 1 }

theorem jsFreeAtomStruct_eq (s : JSRuntime) (p : Ptr) (str : JSString) :
    jsFreeAtomStruct s p str = releaseEntry (unlinkAtom s p str).1 p (unlinkAtom s p str).2 := rfl

theorem Table.release (ht : Table s) (hu : Unlinked s p i s') : Table (releaseEntry s' p i) := by
  have hr := hu.relinked
  have hused' : ∀ {j q}, s'.atomArray j = .used q → s.atomArray j = .used q :=
    fun h => hr.array ▸ h
  have hatom : ∀ j, (releaseEntry s' p i).atom j = if j = i then none else s'.atom j := by
    intro j
    unfold JSRuntime.atom releaseEntry
    dsimp only
    by_cases hj : j = i
    · rw [hj, Function.update_self, if_pos rfl]
    · rw [Function.update_of_ne hj, if_neg hj]
      cases hent : s'.atomArray j with
      | null => rfl
      | free n => rfl
      | used q =>
        have hq : q ≠ p := fun h => hj (ht.inj j i p (hused' (h ▸ hent)) hu.entry)
        simp only [Function.update_of_ne hq]
  have hback : ∀ {j a}, (releaseEntry s' p i).atom j = some a → j ≠ i ∧ s'.atom j = some a := by
    intro j a hj
    rw [hatom] at hj
    split at hj
    · cases hj
    · exact ⟨‹_›, hj⟩
  have hgone : ∀ {j q}, (releaseEntry s' p i).atomArray j = .used q → j ≠ i ∧ s.atomArray j = .used q := by
    intro j q hj
    change Function.update s'.atomArray i (.free s'.atomFreeIndex) j = .used q at hj
    by_cases hji : j = i
    · rw [hji, Function.update_self] at hj
      cases hj
    · rw [Function.update_of_ne hji] at hj
      exact ⟨hji, hused' hj⟩
  have hlt := ht.used i p hu.entry
  refine ⟨?_, hr.size ▸ ht.sizeMax, fun b => ?_, ?_, fun j q hj => ?_, fun j k q hj hk => ?_,
    fun q a hq ha => ?_, fun j a hj ha => ?_, fun j a hj ha => ?_,
    fun j k a b ha hb htype heq hchars => ?_, fun j a hj ha => ?_⟩
  · change 0 < s'.atomHashSize
    rw [hu.hashSize]
    exact ht.hashSize
  · obtain ⟨l, hl⟩ := hu.buckets b
    refine ⟨l, hl.chain.congr fun j hj => ?_, hl.nodup, fun j => ?_⟩
    · have hji := ((hl.mem j).mp hj).1
      rw [hashNextOf, hashNextOf, hatom, if_neg hji]
    · rw [hl.mem j]
      constructor
      · rintro ⟨hji, a, ha, hh, hb⟩
        exact ⟨a, by rw [hatom, if_neg hji, ha], hh, hb⟩
      · rintro ⟨a, ha, hh, hb⟩
        obtain ⟨hji, ha⟩ := hback ha
        exact ⟨hji, a, ha, hh, hb⟩
  · -- the released entry heads the free list
    obtain ⟨l, hl⟩ := ht.freeList
    have hni : ∀ j ∈ l, j ≠ i := by
      rintro j hj rfl
      obtain ⟨⟨n, hn⟩, -⟩ := hl.free j hj
      rw [hu.entry] at hn
      cases hn
    have hget : ∀ j ∈ l, (releaseEntry s' p i).atomGetFree j = s.atomGetFree j := by
      intro j hj
      unfold atomGetFree releaseEntry
      dsimp only
      rw [Function.update_of_ne (hni j hj), hr.array]
    refine ⟨i :: l, ?_, List.nodup_cons.mpr ⟨fun h => hni i h rfl, hl.nodup⟩, ?_⟩
    · refine hl.chain.push (Nat.ne_of_gt hlt.1) ?_ hget
      unfold atomGetFree releaseEntry
      dsimp only
      rw [Function.update_self]
      exact hr.freeIndex
    · intro j hj
      rw [show (releaseEntry s' p i).atomSize = s.atomSize from hr.size]
      rcases List.mem_cons.mp hj with rfl | hj
      · exact ⟨⟨s'.atomFreeIndex, Function.update_self ..⟩, hlt.2.1⟩
      · obtain ⟨⟨n, hn⟩, hjlt⟩ := hl.free j hj
        refine ⟨⟨n, ?_⟩, hjlt⟩
        unfold releaseEntry
        dsimp only
        rw [Function.update_of_ne (hni j hj), hr.array, hn]
  · obtain ⟨hji, hj⟩ := hgone hj
    obtain ⟨h0, hjlt, str, hstr, htype⟩ := ht.used j q hj
    obtain ⟨str', hstr', hsame⟩ := hr.mem_forward hstr
    have hq : q ≠ p := fun h => hji (ht.inj j i p (h ▸ hj) hu.entry)
    refine ⟨h0, hr.size ▸ hjlt, str', ?_, hsame.type ▸ htype⟩
    unfold releaseEntry
    dsimp only
    rw [Function.update_of_ne hq, hstr']
  · exact ht.inj j k q (hgone hj).2 (hgone hk).2
  · change Function.update s'.mem p none q = some a at hq
    by_cases hqp : q = p
    · rw [hqp, Function.update_self] at hq
      cases hq
    · rw [Function.update_of_ne hqp] at hq
      obtain ⟨str, hstr, hsame⟩ := hr.mem_back hq
      obtain ⟨j, hj⟩ := ht.registered q str hstr (hsame.type ▸ ha)
      have hji : j ≠ i := by
        rintro rfl
        rw [hu.entry] at hj
        cases hj
        exact hqp rfl
      refine ⟨j, ?_⟩
      unfold releaseEntry
      dsimp only
      rw [Function.update_of_ne hji, hr.array, hj]
  · obtain ⟨str, hstr, hsame⟩ := hr.atom_back (hback hj).2
    obtain rfl := hsame.link (by rw [ha]; rfl)
    exact ht.symbol j a hstr ha
  · obtain ⟨str, hstr, hsame⟩ := hr.atom_back (hback hj).2
    rw [hsame.hash, hsame.type, hsame.chars]
    exact ht.hash j str hstr (hsame.type ▸ ha)
  · obtain ⟨a', ha', hasame⟩ := hr.atom_back (hback ha).2
    obtain ⟨b', hb', hbsame⟩ := hr.atom_back (hback hb).2
    refine ht.canonical j k a' b' ha' hb' (hasame.type ▸ htype) ?_ ?_
    · rw [← hasame.type, heq, hbsame.type]
    · rw [← hasame.chars, hchars, hbsame.chars]
  · obtain ⟨str, hstr, hsame⟩ := hr.atom_back (hback hj).2
    rw [hsame.chars]
    exact ht.numeric j str hstr (hsame.type ▸ ha)

/-- The loop of `JS_FreeAtomStruct` finds the predecessor of the atom. -/
theorem unlinkAfter_eq (next : ℕ) (hentry : s.atomArray i = .used p) :
    ∀ {n : ℕ} (i0 : ℕ) {m : List ℕ}, IsChain s.hashNextOf i0 (i0 :: m) → i ∈ m →
      (∀ j ∈ m, s.atomArray j = .used p → j = i) → m.length ≤ n →
      ∃ l₁ b l₂, i0 :: m = l₁ ++ b :: i :: l₂ ∧ unlinkAfter p next n s i0 = (s.setHashNext b next, i) := by
  intro n
  induction n with
  | zero =>
    intro i0 m _ hi _ hlen
    rw [List.length_eq_zero_iff.mp (Nat.le_zero.mp hlen)] at hi
    cases hi
  | succ n ih =>
    intro i0 m hchain hi huniq hlen
    cases m with
    | nil => cases hi
    | cons a m =>
      obtain ⟨-, h0, rfl, hrest⟩ := hchain
      rw [unlinkAfter]
      by_cases ha : s.atomArray (s.hashNextOf i0) = .used p
      · obtain rfl := huniq _ (List.mem_cons_self ..) ha
        exact ⟨[], i0, m, rfl, by simp only [if_pos ha]⟩
      · have hia : i ≠ s.hashNextOf i0 := fun h => ha (h ▸ hentry)
        have him : i ∈ m := (List.mem_cons.mp hi).resolve_left hia
        obtain ⟨l₁, b, l₂, hsplit, heq⟩ := ih (s.hashNextOf i0) ⟨rfl, hrest⟩ him
          (fun j hj => huniq j (List.mem_cons_of_mem _ hj)) (Nat.le_of_succ_le_succ hlen)
        refine ⟨i0 :: l₁, b, l₂, ?_, ?_⟩
        · rw [hsplit]
          rfl
        · simp only [if_neg ha]
          exact heq

/-- A bucket that the atom `i` is not in. -/
theorem Bucket.without (hl : Bucket s b l) (hi : i ∉ l)
    (hr : Relinked s s') (hhash : s'.atomHash b = s.atomHash b)
    (hsize : s'.atomHashSize = s.atomHashSize)
    (hnext : ∀ j ∈ l, s'.hashNextOf j = s.hashNextOf j) : BucketWithout s' i b l := by
  refine ⟨hhash ▸ hl.chain.congr hnext, hl.nodup, fun j => ?_⟩
  have hbucket : ∀ n, s'.bucket n = s.bucket n := fun n => by rw [bucket, bucket, hsize]
  constructor
  · intro hj
    obtain ⟨str, hstr, hh, hb⟩ := (hl.mem j).mp hj
    obtain ⟨str', hstr', hsame⟩ := hr.atom_forward hstr
    exact ⟨fun h => hi (h ▸ hj), str', hstr', hsame.type ▸ hh, by rw [hbucket, hsame.hash, hb]⟩
  · rintro ⟨-, str', hstr', hh, hb⟩
    obtain ⟨str, hstr, hsame⟩ := hr.atom_back hstr'
    exact (hl.mem j).mpr ⟨str, hstr, hsame.type ▸ hh, by rw [← hbucket, ← hsame.hash, hb]⟩

/-- The bucket that the atom `i` was in: the remaining list is what is left. -/
theorem Bucket.remove {l' : List ℕ} (hl : Bucket s b l) (hr : Relinked s s')
    (hsize : s'.atomHashSize = s.atomHashSize)
    (hchain : IsChain s'.hashNextOf (s'.atomHash b) l') (hnodup : l'.Nodup)
    (hmem : ∀ j, j ∈ l' ↔ j ≠ i ∧ j ∈ l) : BucketWithout s' i b l' := by
  refine ⟨hchain, hnodup, fun j => ?_⟩
  have hbucket : ∀ n, s'.bucket n = s.bucket n := fun n => by rw [bucket, bucket, hsize]
  rw [hmem j, hl.mem j]
  refine and_congr_right fun _ => ⟨?_, ?_⟩
  · rintro ⟨str, hstr, hh, hb⟩
    obtain ⟨str', hstr', hsame⟩ := hr.atom_forward hstr
    exact ⟨str', hstr', hsame.type ▸ hh, by rw [hbucket, hsame.hash, hb]⟩
  · rintro ⟨str', hstr', hh, hb⟩
    obtain ⟨str, hstr, hsame⟩ := hr.atom_back hstr'
    exact ⟨str, hstr, hsame.type ▸ hh, by rw [← hbucket, ← hsame.hash, hb]⟩

theorem atomType_cases {t : AtomType} (ht : t ≠ .none) : t = .symbol ∨ t.hashed = true := by
  cases t <;> simp_all [AtomType.hashed]

theorem unlinkAtom_spec (ht : Table s) (hp : s.mem p = some str) (htype : str.atomType ≠ .none) :
    Unlinked s p (unlinkAtom s p str).2 (unlinkAtom s p str).1 := by
  obtain ⟨i, hi⟩ := ht.registered p str hp htype
  have hatom : s.atom i = some str := atom_eq_some.mpr ⟨p, hi, hp⟩
  have huniq : ∀ j, s.atomArray j = .used p → j = i := fun j hj => ht.inj j i p hj hi
  unfold unlinkAtom
  rcases atomType_cases htype with hsym | hh
  · -- a symbol is in no bucket
    rw [if_pos hsym]
    rw [ht.symbol i str hatom hsym]
    refine ⟨Relinked.refl s, rfl, hi, fun b => ?_⟩
    obtain ⟨l, hl⟩ := ht.buckets b
    refine ⟨l, hl.without (fun hil => ?_) (Relinked.refl s) rfl rfl fun _ _ => rfl⟩
    obtain ⟨str', hstr', hh', -⟩ := (hl.mem i).mp hil
    obtain rfl := Option.some.inj (hatom.symm.trans hstr')
    rw [hsym] at hh'
    cases hh'
  have hsym : str.atomType ≠ .symbol := fun h => by
    rw [h] at hh
    cases hh
  rw [if_neg hsym]
  obtain ⟨l, hl, hil⟩ := ht.mem_bucket hatom hh
  have hother : ∀ {b lb}, b ≠ s.bucket str.hash → Bucket s b lb → ∀ j ∈ l, j ∉ lb := by
    intro b lb hb hlb j hj hjb
    obtain ⟨a, ha, -, hab⟩ := (hl.mem j).mp hj
    obtain ⟨a', ha', -, hab'⟩ := (hlb.mem j).mp hjb
    obtain rfl := Option.some.inj (ha.symm.trans ha')
    exact hb (hab'.symm.trans hab)
  by_cases hhead : s.atomArray (s.atomHash (s.bucket str.hash)) = .used p
  · -- the atom is the head of its bucket
    simp only [if_pos hhead]
    have hr : Relinked s { s with
        atomHash := Function.update s.atomHash (s.bucket str.hash) str.hashNext } :=
      ⟨rfl, rfl, rfl, fun _ => rfl⟩
    obtain heq := huniq _ hhead
    rw [heq]
    refine ⟨hr, rfl, hi, fun b => ?_⟩
    by_cases hb : b = s.bucket str.hash
    · subst hb
      cases l with
      | nil => cases hil
      | cons a l =>
        obtain ⟨hsa, -, hrest⟩ := hl.chain
        obtain rfl : a = i := hsa.symm.trans heq
        rw [hashNextOf_of_atom hatom] at hrest
        obtain ⟨hnot, hnodup⟩ := List.nodup_cons.mp hl.nodup
        refine ⟨l, hl.remove hr rfl ?_ hnodup fun j => ?_⟩
        · change IsChain s.hashNextOf (Function.update s.atomHash _ _ _) l
          rw [Function.update_self]
          exact hrest
        · rw [List.mem_cons]
          exact ⟨fun hj => ⟨fun h => hnot (h ▸ hj), .inr hj⟩, fun h => h.2.resolve_left h.1⟩
    · obtain ⟨lb, hlb⟩ := ht.buckets b
      exact ⟨lb, hlb.without (hother hb hlb i hil) hr (Function.update_of_ne hb ..) rfl
        fun _ _ => rfl⟩
  · -- the predecessor takes over its link
    simp only [if_neg hhead]
    cases l with
    | nil => cases hil
    | cons a l =>
      obtain ⟨hsa, ha0, hrest⟩ := hl.chain
      have hia : i ≠ a := fun h => hhead (by rw [hsa, ← h, hi])
      have hil' : i ∈ l := (List.mem_cons.mp hil).resolve_left hia
      have hlen := hl.length_le ht
      obtain ⟨l₁, c, l₂, hsplit, heq⟩ := unlinkAfter_eq (n := s.atomSize) str.hashNext hi
        a (m := l) ⟨rfl, ha0, hrest⟩ hil' (fun j _ => huniq j) (by
          rw [List.length_cons] at hlen
          omega)
      rw [hsa, heq]
      have hcl : c ∈ a :: l := by
        rw [hsplit]
        simp
      obtain ⟨strc, hc, hhc, -⟩ := (hl.mem c).mp hcl
      have hr : Relinked s (s.setHashNext c str.hashNext) := relinked_setHashNext hc hhc
      have hnext := hashNextOf_setHashNext (n := str.hashNext) ht.inj hc
      have hhash : (s.setHashNext c str.hashNext).atomHash = s.atomHash := by
        unfold setHashNext
        split <;> rfl
      have hsize : (s.setHashNext c str.hashNext).atomHashSize = s.atomHashSize := by
        unfold setHashNext
        split <;> rfl
      refine ⟨hr, hsize, hi, fun b => ?_⟩
      by_cases hb : b = s.bucket str.hash
      · subst hb
        have hchain := hl.chain
        have hnodup := hl.nodup
        rw [hsplit] at hchain hnodup
        refine ⟨l₁ ++ c :: l₂, hl.remove hr hsize ?_ ?_ fun j => ?_⟩
        · rw [hhash]
          refine hchain.unlink hnodup ?_ fun d hd => ?_
          · rw [hnext, if_pos rfl, hashNextOf_of_atom hatom]
          · rw [hnext, if_neg hd]
        · refine hnodup.sublist ?_
          exact (List.Sublist.refl l₁).append ((List.sublist_cons_self i l₂).cons_cons c)
        · rw [hsplit]
          rw [List.nodup_append, List.nodup_cons, List.nodup_cons] at hnodup
          obtain ⟨-, ⟨hci, hi₂, -⟩, hdisj⟩ := hnodup
          simp only [List.mem_append, List.mem_cons]
          constructor
          · rintro (hj | rfl | hj)
            · exact ⟨fun h => hdisj j hj i (by simp) h, .inl hj⟩
            · exact ⟨fun h => hci (h ▸ List.mem_cons_self ..), .inr (.inl rfl)⟩
            · exact ⟨fun h => hi₂ (h ▸ hj), .inr (.inr (.inr hj))⟩
          · rintro ⟨hji, hj | rfl | rfl | hj⟩
            · exact .inl hj
            · exact .inr (.inl rfl)
            · exact absurd rfl hji
            · exact .inr (.inr hj)
      · obtain ⟨lb, hlb⟩ := ht.buckets b
        refine ⟨lb, hlb.without (hother hb hlb i hil) hr (congrFun hhash b) hsize fun j hj => ?_⟩
        have hjc : j ≠ c := by
          rintro rfl
          exact hother hb hlb j hcl hj
        rw [hnext, if_neg hjc]

/-! ## Resizing the hash table -/

/-- The state of `JS_ResizeAtomHash` when the atoms in `D` are in the new table:
they have new links, the other ones the old links. -/
structure Rehashing (s₀ : JSRuntime) (newSize : ℕ) (D : ℕ → Prop)
    (t : JSRuntime × (ℕ → ℕ)) : Prop where
  relinked : Relinked s₀ t.1
  hash : t.1.atomHash = s₀.atomHash
  hashSize : t.1.atomHashSize = s₀.atomHashSize
  oldNext : ∀ j, ¬D j → t.1.hashNextOf j = s₀.hashNextOf j
  chains : ∀ b, ∃ l, IsChain t.1.hashNextOf (t.2 b) l ∧ l.Nodup ∧
    ∀ j, j ∈ l ↔ D j ∧ ∃ str, s₀.atom j = some str ∧ str.hash &&& (newSize - 1) = b

/-- One atom moves to the new table. -/
theorem Rehashing.move {a : ℕ}
    (ht : Table s) (h : Rehashing s newSize D t) (ha : s.atom a = some str)
    (hh : str.atomType.hashed) (hD : ¬D a) :
    Rehashing s newSize (fun j => j = a ∨ D j)
      (t.1.setHashNext a (t.2 (str.hash &&& (newSize - 1))),
        Function.update t.2 (str.hash &&& (newSize - 1)) a) := by
  obtain ⟨str', ha', hsame⟩ := h.relinked.atom_forward ha
  have hinj : ∀ i j p, t.1.atomArray i = .used p → t.1.atomArray j = .used p → i = j :=
    fun i j p hi hj => ht.inj i j p (h.relinked.array ▸ hi) (h.relinked.array ▸ hj)
  have hnext := hashNextOf_setHashNext (n := t.2 (str.hash &&& (newSize - 1))) hinj ha'
  refine ⟨h.relinked.trans (relinked_setHashNext ha' (hsame.type ▸ hh)), ?_, ?_, fun j hj => ?_, fun b => ?_⟩
  · rw [← h.hash]
    unfold setHashNext
    split <;> rfl
  · rw [← h.hashSize]
    unfold setHashNext
    split <;> rfl
  · rw [not_or] at hj
    rw [hnext, if_neg hj.1]
    exact h.oldNext j hj.2
  · obtain ⟨l, hchain, hnodup, hmem⟩ := h.chains b
    have hal : a ∉ l := fun hal => hD ((hmem a).mp hal).1
    have hkeep : ∀ j ∈ l, (t.1.setHashNext a (t.2 (str.hash &&& (newSize - 1)))).hashNextOf j =
        t.1.hashNextOf j := by
      intro j hj
      have hja : j ≠ a := by
        rintro rfl
        exact hal hj
      rw [hnext, if_neg hja]
    by_cases hb : b = str.hash &&& (newSize - 1)
    · subst hb
      refine ⟨a :: l, ?_, List.nodup_cons.mpr ⟨hal, hnodup⟩, fun j => ?_⟩
      · dsimp only
        rw [Function.update_self]
        exact hchain.push (Nat.ne_of_gt (ht.atom_lt ha).1) (by rw [hnext, if_pos rfl]) hkeep
      · rw [List.mem_cons, hmem j]
        constructor
        · rintro (rfl | ⟨hj, hstr⟩)
          · exact ⟨.inl rfl, str, ha, rfl⟩
          · exact ⟨.inr hj, hstr⟩
        · rintro ⟨rfl | hj, hstr⟩
          · exact .inl rfl
          · exact .inr ⟨hj, hstr⟩
    · refine ⟨l, ?_, hnodup, fun j => ?_⟩
      · dsimp only
        rw [Function.update_of_ne hb]
        exact hchain.congr hkeep
      · rw [hmem j]
        constructor
        · exact fun hj => ⟨.inr hj.1, hj.2⟩
        · rintro ⟨rfl | hj, hstr⟩
          · obtain ⟨str', hstr', hbs⟩ := hstr
            obtain rfl := Option.some.inj (ha.symm.trans hstr')
            exact absurd hbs.symm hb
          · exact ⟨hj, hstr⟩

theorem Rehashing.congr {D' : ℕ → Prop}
    (h : Rehashing s newSize D t) (hD : ∀ j, D j ↔ D' j) : Rehashing s newSize D' t := by
  obtain rfl : D = D' := funext fun j => propext (hD j)
  exact h

/-- The inner loop moves one old chain. -/
theorem rehashChain_spec (ht : Table s) :
    ∀ {n : ℕ} {D : ℕ → Prop} {t : JSRuntime × (ℕ → ℕ)} {h : ℕ} {l : List ℕ},
      Rehashing s newSize D t → IsChain s.hashNextOf h l → l.Nodup →
      (∀ j ∈ l, ¬D j ∧ ∃ str, s.atom j = some str ∧ str.atomType.hashed) → l.length ≤ n →
      Rehashing s newSize (fun j => j ∈ l ∨ D j) (rehashChain newSize n t.1 t.2 h) := by
  intro n
  induction n with
  | zero =>
    intro D t h l hr _ _ _ hlen
    obtain rfl := List.length_eq_zero_iff.mp (Nat.le_zero.mp hlen)
    exact hr.congr fun j => by simp
  | succ n ih =>
    intro D t h l hr hchain hnodup hl hlen
    cases l with
    | nil =>
      obtain rfl : h = 0 := hchain
      exact hr.congr fun j => by simp
    | cons a l =>
      obtain ⟨rfl, h0, hrest⟩ := hchain
      obtain ⟨hD, str, hstr, hh⟩ := hl h (List.mem_cons_self ..)
      obtain ⟨hnot, hnodup⟩ := List.nodup_cons.mp hnodup
      obtain ⟨str', hstr', hsame⟩ := hr.relinked.atom_forward hstr
      have hj : ((t.1.atom h).map JSString.hash).getD 0 = str.hash := by
        rw [hstr', Option.map_some, Option.getD_some, hsame.hash]
      rw [rehashChain, if_neg h0]
      simp only [hj, hr.oldNext h hD]
      refine (ih (hr.move ht hstr hh hD) hrest hnodup (fun j hjl => ?_)
        (Nat.le_of_succ_le_succ hlen)).congr fun j => ?_
      · obtain ⟨hDj, hatom⟩ := hl j (List.mem_cons_of_mem _ hjl)
        refine ⟨?_, hatom⟩
        rintro (rfl | hDj')
        · exact hnot hjl
        · exact hDj hDj'
      · rw [List.mem_cons]
        tauto

/-- The outer loop moves the first `k` old chains. -/
theorem rehash_spec (newSize : ℕ) (ht : Table s) (k : ℕ) :
    Rehashing s newSize (fun j => ∃ str, s.atom j = some str ∧ str.atomType.hashed ∧ s.bucket str.hash < k)
      ((List.range k).foldl (fun (t : JSRuntime × (ℕ → ℕ)) i =>
        rehashChain newSize t.1.atomSize t.1 t.2 (t.1.atomHash i)) (s, fun _ => 0)) := by
  induction k with
  | zero =>
    refine ⟨Relinked.refl s, rfl, rfl, fun _ _ => rfl, fun b => ⟨[], rfl, List.nodup_nil, ?_⟩⟩
    simp
  | succ k ih =>
    rw [List.range_succ, List.foldl_append, List.foldl_cons]
    obtain ⟨l, hl⟩ := ht.buckets k
    rw [ih.hash, ih.relinked.size]
    refine (rehashChain_spec ht ih hl.chain hl.nodup (fun j hj => ?_)
      (hl.length_le ht)).congr fun j => ?_
    · obtain ⟨str, hstr, hh, hb⟩ := (hl.mem j).mp hj
      refine ⟨?_, str, hstr, hh⟩
      rintro ⟨str', hstr', -, hlt⟩
      obtain rfl := Option.some.inj (hstr.symm.trans hstr')
      omega
    · rw [hl.mem j]
      constructor
      · rintro (⟨str, hstr, hh, hb⟩ | ⟨str, hstr, hh, hb⟩)
        · exact ⟨str, hstr, hh, by omega⟩
        · exact ⟨str, hstr, hh, by omega⟩
      · rintro ⟨str, hstr, hh, hb⟩
        rcases Nat.lt_succ_iff_lt_or_eq.mp hb with hb | hb
        · exact .inr ⟨str, hstr, hh, hb⟩
        · exact .inl ⟨str, hstr, hh, hb⟩

theorem jsResizeAtomHash_relinked (ht : Table s) (newSize : ℕ) : Relinked s (jsResizeAtomHash s newSize) := by
  have h := (rehash_spec newSize ht s.atomHashSize).relinked
  exact ⟨h.array, h.size, h.freeIndex, h.mem⟩

theorem Table.jsResizeAtomHash (ht : Table s) (h0 : 0 < newSize) : Table (jsResizeAtomHash s newSize) := by
  refine ht.relink (jsResizeAtomHash_relinked ht newSize) h0 fun b => ?_
  have h := rehash_spec newSize ht s.atomHashSize
  obtain ⟨l, hchain, hnodup, hmem⟩ := h.chains b
  have hr := jsResizeAtomHash_relinked ht newSize
  refine ⟨l, hchain, hnodup, fun j => ?_⟩
  rw [hmem j]
  constructor
  · rintro ⟨⟨str, hstr, hh, -⟩, str', hstr', hb⟩
    obtain rfl := Option.some.inj (hstr.symm.trans hstr')
    obtain ⟨str', hstr', hsame⟩ := hr.atom_forward hstr
    refine ⟨str', hstr', hsame.type ▸ hh, ?_⟩
    change str'.hash &&& (newSize - 1) = b
    rw [hsame.hash, hb]
  · rintro ⟨str', hstr', hh, hb⟩
    obtain ⟨str, hstr, hsame⟩ := hr.atom_back hstr'
    refine ⟨⟨str, hstr, hsame.type ▸ hh, ?_⟩, str, hstr, ?_⟩
    · have hle : s.bucket str.hash ≤ s.atomHashSize - 1 := Nat.and_le_right
      have hpos := ht.hashSize
      omega
    · rw [← hsame.hash]
      exact hb

end QuickJs.Atom
