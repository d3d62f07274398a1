import Mathlib.Data.List.Sort

/-!
# Sorted maps and multimaps

The entries of a map in the order of their keys. In a multimap several entries may have the same key,
and a new entry comes before those of the same key that are already there. Keys can be renamed as long
as their order stays the same.
-/

namespace QuickJs

universe u v

/-- A sorted multimap, or a sorted map if keys are unique. -/
structure SortedMap (K : Type u) (V : Type v) [LinearOrder K] where
  unique : Bool
  entries : List (K × V)
  sorted : entries.Pairwise fun e e' => e.1 ≤ e'.1
  nodup : unique → (entries.map Prod.fst).Nodup

namespace SortedMap

variable {K : Type u} {V : Type v} [LinearOrder K] {k : K} {v : V} {l : List (K × V)} {e : K × V}

/-- A map without entries. -/
def empty (unique : Bool) : SortedMap K V := ⟨unique, [], .nil, fun _ => .nil⟩

/-! ## Changes to the list of entries -/

/-- A new entry comes before the first one with no smaller key. -/
def place (k : K) (v : V) : List (K × V) → List (K × V)
  | [] => [(k, v)]
  | e :: l => if e.1 < k then e :: place k v l else (k, v) :: e :: l

/-- The first entry of a key gets another value. -/
def replace (k : K) (v : V) : List (K × V) → List (K × V)
  | [] => []
  | e :: l => if e.1 = k then (k, v) :: l else e :: replace k v l

theorem place_perm : (place k v l).Perm ((k, v) :: l) := by
  induction l with
  | nil => exact .refl _
  | cons e l ih =>
    unfold place
    split
    · exact (ih.cons e).trans (.swap (k, v) e l)
    · exact .refl _

theorem place_sorted (hl : l.Pairwise fun e e' => e.1 ≤ e'.1) :
    (place k v l).Pairwise fun e e' => e.1 ≤ e'.1 := by
  induction l with
  | nil => exact List.pairwise_singleton _ _
  | cons e l ih =>
    obtain ⟨he, hl'⟩ := List.pairwise_cons.mp hl
    unfold place
    split
    · rename_i hlt
      refine List.pairwise_cons.mpr ⟨fun e' he' => ?_, ih hl'⟩
      rcases List.mem_cons.mp (place_perm.mem_iff.mp he') with rfl | hin
      · exact hlt.le
      · exact he e' hin
    · rename_i hge
      have hge' : k ≤ e.1 := not_lt.mp hge
      refine List.pairwise_cons.mpr ⟨fun e' he' => ?_, hl⟩
      rcases List.mem_cons.mp he' with rfl | hin
      · exact hge'
      · exact hge'.trans (he e' hin)

theorem keys_replace : (replace k v l).map Prod.fst = l.map Prod.fst := by
  induction l with
  | nil => rfl
  | cons e l ih =>
    unfold replace
    split
    · rename_i he
      rw [List.map_cons, List.map_cons, he]
    · rw [List.map_cons, List.map_cons, ih]

theorem sorted_iff_keys : (l.Pairwise fun e e' => e.1 ≤ e'.1) ↔ (l.map Prod.fst).Pairwise (· ≤ ·) :=
  List.pairwise_map.symm

/-! ## Operations -/

/-- Does a key occur? -/
def contains (m : SortedMap K V) (k : K) : Bool := m.entries.any (·.1 = k)

theorem not_mem_keys {m : SortedMap K V} (h : m.contains k = false) : k ∉ m.entries.map Prod.fst := by
  intro hin
  obtain ⟨e, he, rfl⟩ := List.mem_map.mp hin
  exact Bool.false_ne_true (h.symm.trans (List.any_eq_true.mpr ⟨e, he, decide_eq_true rfl⟩))

/-- The value of an entry with the key is replaced. -/
def update (m : SortedMap K V) (k : K) (v : V) : SortedMap K V where
  unique := m.unique
  entries := replace k v m.entries
  sorted := by
    rw [sorted_iff_keys, keys_replace, ← sorted_iff_keys]
    exact m.sorted
  nodup hu := by
    rw [keys_replace]
    exact m.nodup hu

/-- A new entry is added; the key does not occur if keys are unique. -/
def insert (m : SortedMap K V) (k : K) (v : V) (h : m.unique → m.contains k = false) :
    SortedMap K V where
  unique := m.unique
  entries := place k v m.entries
  sorted := place_sorted m.sorted
  nodup hu := by
    rw [(place_perm.map Prod.fst).nodup_iff, List.map_cons, List.nodup_cons]
    exact ⟨not_mem_keys (h hu), m.nodup hu⟩

/-- Set the value of a key. A key that occurs gets the new value if that is asked for, and otherwise
another entry, or none if keys are unique. -/
def set (m : SortedMap K V) (k : K) (v : V) (replace : Bool) : SortedMap K V × Bool :=
  if hk : m.contains k = false then (m.insert k v fun _ => hk, true)
  else if replace then (m.update k v, true)
  else if hu : m.unique then (m, false)
  else (m.insert k v fun h => absurd h hu, true)

/-- Some entries are removed. -/
def filter (m : SortedMap K V) (p : K × V → Bool) : SortedMap K V where
  unique := m.unique
  entries := m.entries.filter p
  sorted := m.sorted.filter p
  nodup hu := (m.nodup hu).sublist (List.filter_sublist.map Prod.fst)

/-- The entries of a key are removed, or those of a key and a value. -/
def delete [DecidableEq V] (m : SortedMap K V) (k : K) (v : Option V) : SortedMap K V × Bool :=
  let gone (e : K × V) : Bool := e.1 = k ∧ ∀ x ∈ v, e.2 = x
  (m.filter fun e => !gone e, m.entries.any gone)

def clear (m : SortedMap K V) : SortedMap K V := empty m.unique

/-- A bound, and whether it belongs to the range. -/
abbrev Bound (K : Type u) := Option (K × Bool)

/-- Is the key not below the bound? -/
def above (k : K) : Bound K → Bool
  | none => true
  | some (b, true) => b ≤ k
  | some (b, false) => b < k

/-- Is the key not above the bound? -/
def below (k : K) : Bound K → Bool
  | none => true
  | some (b, true) => k ≤ b
  | some (b, false) => k < b

/-- The values of the entries in a range, in the order of the keys or in the opposite order. -/
def select (m : SortedMap K V) (lo hi : Bound K) (ascending : Bool) : List V :=
  let l := (m.entries.filter fun e => above e.1 lo && below e.1 hi).map Prod.snd
  if ascending then l else l.reverse

/-- The values of a key. -/
def get (m : SortedMap K V) (k : K) : List V := (m.entries.filter (·.1 = k)).map Prod.snd

variable {m : SortedMap K V}

/-- The range of one key. -/
theorem select_singleton : m.select (some (k, true)) (some (k, true)) true = m.get k := by
  have hfilter (e : K × V) : (above e.1 (some (k, true)) && below e.1 (some (k, true))) = decide (e.1 = k) := by
    rw [above, below, ← Bool.decide_and, decide_eq_decide, and_comm]
    exact le_antisymm_iff.symm
  rw [get, select, if_pos rfl]
  simp only [hfilter]

/-- The range without bounds. -/
theorem select_unbounded : m.select none none true = m.entries.map Prod.snd := by
  exact congrArg (List.map Prod.snd) (List.filter_eq_self.mpr fun _ _ => rfl)

theorem mem_replace (he : e ∈ replace k v l) : e = (k, v) ∨ e ∈ l := by
  induction l with
  | nil => cases he
  | cons e' l ih =>
    unfold replace at he
    split at he
    · rcases List.mem_cons.mp he with rfl | he
      · exact .inl rfl
      · exact .inr (List.mem_cons_of_mem _ he)
    · rcases List.mem_cons.mp he with rfl | he
      · exact .inr List.mem_cons_self
      · exact (ih he).imp_right (List.mem_cons_of_mem _)

/-- Setting a value adds no other entry. -/
theorem mem_set {b : Bool} (he : e ∈ (m.set k v b).1.entries) : e = (k, v) ∨ e ∈ m.entries := by
  unfold SortedMap.set at he
  split at he
  · exact List.mem_cons.mp (place_perm.mem_iff.mp he)
  split at he
  · exact mem_replace he
  split at he
  · exact .inr he
  · exact List.mem_cons.mp (place_perm.mem_iff.mp he)

/-! ## Renaming keys -/

variable {K' : Type u} [LinearOrder K'] {f : K → K'} {S : Set K} {m' : SortedMap K' V}
  {lo hi : Bound K} {b ascending : Bool}

/-- The keys of the second map are those of the first, which are in a set, under other names. -/
structure Renamed (f : K → K') (S : Set K) (m : SortedMap K V) (m' : SortedMap K' V) : Prop where
  unique : m'.unique = m.unique
  entries : m'.entries = m.entries.map (Prod.map f id)
  mem : ∀ e ∈ m.entries, e.1 ∈ S

theorem place_map (hf : StrictMonoOn f S) (hk : k ∈ S) (hl : ∀ e ∈ l, e.1 ∈ S) :
    place (f k) v (l.map (Prod.map f id)) = (place k v l).map (Prod.map f id) := by
  induction l with
  | nil => rfl
  | cons e l ih =>
    obtain ⟨he, hl⟩ := List.forall_mem_cons.mp hl
    unfold place
    rw [List.map_cons]
    simp only [Prod.map_fst, hf.lt_iff_lt he hk]
    split
    · rw [ih hl, List.map_cons]
    · rfl

theorem replace_map (hf : StrictMonoOn f S) (hk : k ∈ S) (hl : ∀ e ∈ l, e.1 ∈ S) :
    replace (f k) v (l.map (Prod.map f id)) = (replace k v l).map (Prod.map f id) := by
  induction l with
  | nil => rfl
  | cons e l ih =>
    obtain ⟨he, hl⟩ := List.forall_mem_cons.mp hl
    unfold replace
    rw [List.map_cons]
    simp only [Prod.map_fst, hf.injOn.eq_iff he hk]
    split
    · rfl
    · rw [ih hl, List.map_cons]

section

variable (h : Renamed f S m m') (hf : StrictMonoOn f S) (hk : k ∈ S)

include h hf hk

theorem Renamed.contains :
    m'.contains (f k) = m.contains k := by
  rw [Bool.eq_iff_iff, SortedMap.contains, SortedMap.contains, h.entries, List.any_map, List.any_eq_true,
    List.any_eq_true]
  refine exists_congr fun e => and_congr_right fun he => ?_
  dsimp only [Function.comp_apply, Prod.map_fst]
  rw [decide_eq_true_iff, decide_eq_true_iff, hf.injOn.eq_iff (h.mem e he) hk]

theorem Renamed.insert
    (hm : m.unique → m.contains k = false) (hm' : m'.unique → m'.contains (f k) = false) :
    Renamed f S (m.insert k v hm) (m'.insert (f k) v hm') where
  unique := h.unique
  entries := by
    refine Eq.trans ?_ (place_map hf hk h.mem)
    rw [← h.entries]
    rfl
  mem e he := by
    rcases List.mem_cons.mp (place_perm.mem_iff.mp he) with rfl | he
    · exact hk
    · exact h.mem e he

theorem Renamed.update :
    Renamed f S (m.update k v) (m'.update (f k) v) where
  unique := h.unique
  entries := by
    refine Eq.trans ?_ (replace_map hf hk h.mem)
    rw [← h.entries]
    rfl
  mem e he := by
    have hkey : e.1 ∈ (replace k v m.entries).map Prod.fst := List.mem_map_of_mem he
    rw [keys_replace] at hkey
    obtain ⟨e', he', heq⟩ := List.mem_map.mp hkey
    exact heq ▸ h.mem e' he'

/-- Setting a value is the same under other names. -/
theorem Renamed.set :
    Renamed f S (m.set k v b).1 (m'.set (f k) v b).1 ∧ (m'.set (f k) v b).2 = (m.set k v b).2 := by
  have hcontains := h.contains hf hk
  unfold SortedMap.set
  by_cases hnew : m.contains k = false
  · rw [dif_pos hnew, dif_pos (hcontains.trans hnew)]
    exact ⟨h.insert hf hk (fun _ => hnew) fun _ => hcontains.trans hnew, rfl⟩
  rw [dif_neg hnew, dif_neg fun hnew' => hnew (hcontains.symm.trans hnew')]
  split
  · exact ⟨h.update hf hk, rfl⟩
  by_cases hu : m.unique
  · rw [dif_pos hu, dif_pos (h.unique.trans hu)]
    exact ⟨h, rfl⟩
  · have hu' : ¬ m'.unique := fun hu' => hu (h.unique.symm.trans hu')
    rw [dif_neg hu, dif_neg hu']
    exact ⟨h.insert hf hk (fun hm => absurd hm hu) fun hm => absurd hm hu', rfl⟩

end

theorem Renamed.clear (h : Renamed f S m m') : Renamed f S m.clear m'.clear :=
  ⟨h.unique, rfl, nofun⟩

/-- A range has the same values under other names. -/
theorem Renamed.select (h : Renamed f S m m') (hf : StrictMonoOn f S)
    (hlo : ∀ b ∈ lo, b.1 ∈ S) (hhi : ∀ b ∈ hi, b.1 ∈ S) :
    m'.select (lo.map (Prod.map f id)) (hi.map (Prod.map f id)) ascending = m.select lo hi ascending := by
  have hrange (e : K × V) (he : e ∈ m.entries) :
      (above (f e.1) (lo.map (Prod.map f id)) && below (f e.1) (hi.map (Prod.map f id))) =
        (above e.1 lo && below e.1 hi) := by
    have hin := h.mem e he
    congr 1
    · match lo, hlo with
      | none, _ => rfl
      | some (b, true), hlo => exact decide_eq_decide.mpr (hf.le_iff_le (hlo _ rfl) hin)
      | some (b, false), hlo => exact decide_eq_decide.mpr (hf.lt_iff_lt (hlo _ rfl) hin)
    · match hi, hhi with
      | none, _ => rfl
      | some (b, true), hhi => exact decide_eq_decide.mpr (hf.le_iff_le hin (hhi _ rfl))
      | some (b, false), hhi => exact decide_eq_decide.mpr (hf.lt_iff_lt hin (hhi _ rfl))
  have hvalues : (m'.entries.filter fun e => above e.1 (lo.map (Prod.map f id)) &&
      below e.1 (hi.map (Prod.map f id))).map Prod.snd =
      (m.entries.filter fun e => above e.1 lo && below e.1 hi).map Prod.snd := by
    rw [h.entries, List.filter_map, List.map_map]
    exact congrArg (List.map Prod.snd) (List.filter_congr hrange)
  rw [SortedMap.select, SortedMap.select, hvalues]

end SortedMap

end QuickJs
