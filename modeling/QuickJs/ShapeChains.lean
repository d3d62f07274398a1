import QuickJs.Shape
import Mathlib.Data.List.Pairwise

/-!
# The hash table of a shape

`Valid` is the representation invariant of a shape: every bucket is a chain of exactly the
live properties that hash to it, no atom is live twice, and the counts are exact. Each
change of a shape keeps it, as long as the numbers of the entries fit in the links.
-/

namespace QuickJs.Shape

open HashChain

namespace JSShape

variable {sh : JSShape} {pr : JSShapeProperty} {atom a : JSAtom} {flags : BitVec 6} {b i j h : ℕ}
  {l : List ℕ} {prs : List JSShapeProperty}

/-! ## Buckets -/

/-- Entry `i` is in use for the atom `a`. -/
def LiveAt (sh : JSShape) (i : ℕ) (a : JSAtom) : Prop :=
  a ≠ jsAtomNull ∧ ∃ pr, sh.entry i = some pr ∧ pr.atom = a

/-- The chain of the bucket `b` visits `l`, the live entries that hash to it. -/
structure Bucket (sh : JSShape) (b : ℕ) (l : List ℕ) : Prop where
  chain : IsChain sh.next (sh.head b) l
  nodup : l.Nodup
  mem : ∀ i, i ∈ l ↔ ∃ a, sh.LiveAt i a ∧ sh.bucket a = b

/-- The hash table is correct. -/
structure Chains (sh : JSShape) : Prop where
  size : 0 < sh.propHash.length
  bucket : ∀ b < sh.propHash.length, ∃ l, sh.Bucket b l

/-- The atoms and flags of the properties, deleted ones included. -/
def keys (sh : JSShape) : List (JSAtom × BitVec 6) := sh.prop.map JSShapeProperty.key

/-- Equal atoms are deleted ones. -/
def Distinct (keys : List (JSAtom × BitVec 6)) : Prop :=
  keys.Pairwise fun k k' => k.1 = k'.1 → k.1 = jsAtomNull

/-- The representation invariant of a shape. -/
structure Valid (sh : JSShape) : Prop where
  chains : sh.Chains
  distinct : Distinct sh.keys
  deleted : sh.deletedPropCount = sh.keys.countP (·.1 = jsAtomNull)
  fits : sh.prop.length ≤ sh.propSize
  count : sh.prop.length ≤ 2 ^ 26
  small : ∀ k ∈ sh.keys, jsAtomIsTaggedInt k.1 → sh.hasSmallArrayIndex

theorem entry_eq_some : sh.entry i = some pr ↔ ∃ k, i = k + 1 ∧ sh.prop[k]? = some pr := by
  cases i with
  | zero => exact ⟨nofun, fun ⟨k, hk, _⟩ => absurd hk (Nat.succ_ne_zero k).symm⟩
  | succ k => exact ⟨fun h => ⟨k, rfl, h⟩, fun ⟨_, hk, h⟩ => Nat.succ.inj hk ▸ h⟩

theorem entry_lt (h : sh.entry i = some pr) : 0 < i ∧ i ≤ sh.prop.length := by
  obtain ⟨k, rfl, hk⟩ := entry_eq_some.mp h
  exact ⟨Nat.succ_pos k, (List.getElem?_eq_some_iff.mp hk).1⟩

theorem bucket_lt (hsize : 0 < sh.propHash.length) : sh.bucket a < sh.propHash.length := by
  have := Nat.and_le_right (n := a) (m := sh.propHash.length - 1)
  unfold bucket
  omega

theorem Bucket.le (h : sh.Bucket b l) (hi : i ∈ l) : 0 < i ∧ i ≤ sh.prop.length := by
  obtain ⟨a, ⟨_, pr, hpr, _⟩, _⟩ := (h.mem i).mp hi
  exact entry_lt hpr

/-- The first entry of a chain. -/
theorem Bucket.head_le (h : sh.Bucket b l) : sh.head b ≤ sh.prop.length := by
  cases l with
  | nil =>
    have hnil : sh.head b = 0 := h.chain
    omega
  | cons i l =>
    have hcons : sh.head b = i := h.chain.1
    exact hcons ▸ (h.le (.head _)).2

/-- The chains depend on the links, the atoms and the table. -/
theorem Chains.congr {sh' : JSShape} (h : sh.Chains) (hnext : ∀ i, sh'.next i = sh.next i)
    (hlive : ∀ i a, sh'.LiveAt i a ↔ sh.LiveAt i a) (htable : sh'.propHash = sh.propHash) :
    sh'.Chains := by
  refine ⟨htable ▸ h.size, fun b hb => ?_⟩
  obtain ⟨l, hl⟩ := h.bucket b (htable ▸ hb)
  refine ⟨l, ?_, hl.nodup, fun i => ?_⟩
  · rw [funext hnext, head, htable]
    exact hl.chain
  · simp only [hl.mem, hlive, JSShape.bucket, htable]

theorem Chains.of_eq {sh' : JSShape} (h : sh.Chains) (hprop : sh'.prop = sh.prop)
    (htable : sh'.propHash = sh.propHash) : sh'.Chains := by
  have hentry : ∀ i, sh'.entry i = sh.entry i := fun i => by
    cases i with
    | zero => rfl
    | succ k => rw [entry, entry, hprop]
  exact h.congr (fun i => by rw [next, next, hentry]) (fun i a => by rw [LiveAt, LiveAt, hentry])
    htable

/-! ## Entering a property -/

@[simp] theorem length_propHash_link : (sh.link pr).propHash.length = sh.propHash.length := by
  unfold link
  split
  · rfl
  · exact List.length_set

@[simp] theorem length_keys (sh : JSShape) : sh.keys.length = sh.prop.length := List.length_map ..

@[simp] theorem keys_link (sh : JSShape) (pr : JSShapeProperty) : (sh.link pr).keys = sh.keys ++ [pr.key] := by
  unfold link keys
  split <;> rw [List.map_append] <;> rfl

@[simp] theorem length_prop_link : (sh.link pr).prop.length = sh.prop.length + 1 := by
  rw [← length_keys, keys_link, List.length_append, length_keys, List.length_singleton]

theorem bucket_link : (sh.link pr).bucket a = sh.bucket a := by
  simp only [bucket, length_propHash_link]

/-- The entries that were there before. -/
theorem entry_link (hi : i ≤ sh.prop.length) : (sh.link pr).entry i = sh.entry i := by
  cases i with
  | zero => rfl
  | succ k =>
    unfold link
    split <;> exact List.getElem?_append_left hi

/-- The new entry. -/
theorem entry_link_last (hpr : pr.atom ≠ jsAtomNull) : (sh.link pr).entry (sh.prop.length + 1) =
    some { pr with hashNext := .ofNat 26 (sh.head (sh.bucket pr.atom)) } := by
  rw [link, if_neg hpr]
  exact List.getElem?_concat_length

theorem head_link (hpr : pr.atom ≠ jsAtomNull) (hsize : 0 < sh.propHash.length) :
    (sh.link pr).head b = if b = sh.bucket pr.atom then sh.prop.length + 1 else sh.head b := by
  rw [link, if_neg hpr]
  split
  · rename_i hb
    rw [hb]
    exact congrArg (Option.getD · 0) (List.getElem?_set_self (bucket_lt hsize))
  · rename_i hb
    exact congrArg (Option.getD · 0) (List.getElem?_set_ne (Ne.symm hb))

theorem liveAt_link (hpr : pr.atom ≠ jsAtomNull) : (sh.link pr).LiveAt i a ↔
    sh.LiveAt i a ∨ i = sh.prop.length + 1 ∧ a = pr.atom := by
  unfold LiveAt
  by_cases hi : i ≤ sh.prop.length
  · rw [entry_link hi]
    have hne : i ≠ sh.prop.length + 1 := by omega
    simp [hne]
  · by_cases hlast : i = sh.prop.length + 1
    · subst hlast
      rw [entry_link_last hpr]
      have hnone : sh.entry (sh.prop.length + 1) = none := List.getElem?_eq_none (Nat.le_refl _)
      simp only [hnone, Option.some.injEq, exists_eq_left', reduceCtorEq, false_and, exists_false,
        and_false, true_and, false_or]
      exact ⟨fun h => h.2.symm, fun h => ⟨h ▸ hpr, h.symm⟩⟩
    · have hnone : sh.entry i = none := by
        cases i with
        | zero => rfl
        | succ k => exact List.getElem?_eq_none (by omega)
      have hnone' : (sh.link pr).entry i = none := by
        rw [link, if_neg hpr]
        cases i with
        | zero => rfl
        | succ k =>
          refine List.getElem?_eq_none ?_
          simp only [List.length_append, List.length_singleton]
          omega
      simp [hnone, hnone', hlast]

theorem Chains.link (h : sh.Chains) (pr : JSShapeProperty) (hlt : sh.prop.length < 2 ^ 26) :
    (sh.link pr).Chains := by
  refine ⟨length_propHash_link.symm ▸ h.size, fun b hb => ?_⟩
  rw [length_propHash_link] at hb
  obtain ⟨l, hl⟩ := h.bucket b hb
  have hnext : ∀ i ∈ l, (sh.link pr).next i = sh.next i := fun i hi => by
    rw [next, entry_link (hl.le hi).2, next]
  by_cases hpr : pr.atom = jsAtomNull
  · have hlink : sh.link pr = { sh with prop := sh.prop ++ [pr] } := if_pos hpr
    refine ⟨l, hlink ▸ hl.chain.congr (hlink ▸ hnext), hl.nodup, fun i => ?_⟩
    rw [hl.mem]
    refine exists_congr fun a => and_congr ?_ (by rw [bucket_link])
    refine and_congr_right fun ha => exists_congr fun pr' => ?_
    by_cases hi : i ≤ sh.prop.length
    · rw [entry_link hi]
    · refine ⟨fun ⟨h, _⟩ => absurd (entry_lt h).2 hi, fun ⟨h, hpr'⟩ => ?_⟩
      -- the new entry is deleted
      obtain ⟨k, rfl, hk⟩ := entry_eq_some.mp h
      rw [hlink, List.getElem?_append_right (by omega)] at hk
      obtain rfl : pr' = pr := by simpa using List.mem_of_getElem? hk
      exact absurd (hpr'.symm.trans hpr) ha
  · by_cases hbucket : b = sh.bucket pr.atom
    · refine ⟨(sh.prop.length + 1) :: l, ?_, List.nodup_cons.mpr ⟨fun hmem => ?_, hl.nodup⟩, fun i => ?_⟩
      · rw [head_link hpr h.size, if_pos hbucket]
        refine hl.chain.push (Nat.succ_ne_zero _) ?_ hnext
        have hhead := hl.head_le
        rw [next, entry_link_last hpr, ← hbucket]
        exact Nat.mod_eq_of_lt (by omega)
      · exact absurd (hl.le hmem).2 (by omega)
      · simp only [List.mem_cons, hl.mem, liveAt_link hpr, bucket_link, or_and_right, exists_or,
          and_assoc, exists_and_left, exists_eq_left, hbucket, and_true]
        rw [or_comm]
    · refine ⟨l, ?_, hl.nodup, fun i => ?_⟩
      · rw [head_link hpr h.size, if_neg hbucket]
        exact hl.chain.congr hnext
      · simp only [hl.mem, liveAt_link hpr, bucket_link, or_and_right, exists_or, and_assoc,
          exists_and_left, exists_eq_left, Ne.symm hbucket, and_false, or_false]

/-- Properties that are entered one after another. -/
theorem Chains.foldl_link : ∀ {prs : List JSShapeProperty} {sh : JSShape}, sh.Chains →
    sh.prop.length + prs.length ≤ 2 ^ 26 → (prs.foldl JSShape.link sh).Chains
  | [], _, h, _ => h
  | pr :: prs, sh, h, hle => by
    rw [List.length_cons] at hle
    refine (h.link pr (by omega)).foldl_link ?_
    rw [length_prop_link]
    omega

/-- They only touch the properties and the table. -/
theorem foldl_link_eq (prs : List JSShapeProperty) (sh : JSShape) : ∃ prop table,
    prs.foldl JSShape.link sh = { sh with prop := prop, propHash := table } ∧
      prop.map JSShapeProperty.key = sh.keys ++ prs.map JSShapeProperty.key ∧
      table.length = sh.propHash.length := by
  induction prs generalizing sh with
  | nil => exact ⟨sh.prop, sh.propHash, rfl, (List.append_nil _).symm, rfl⟩
  | cons pr prs ih =>
    obtain ⟨prop, table, heq, hkeys, hlen⟩ := ih (sh.link pr)
    refine ⟨prop, table, ?_, ?_, hlen.trans length_propHash_link⟩
    · rw [List.foldl_cons, heq, link]
      split <;> rfl
    · rw [hkeys, keys_link, List.append_assoc, List.map_cons, List.singleton_append]

/-! ## The changes of a shape -/

theorem Distinct.append (h : Distinct sh.keys) (hfresh : ∀ k ∈ sh.keys, k.1 ≠ atom) :
    Distinct (sh.keys ++ [(atom, flags)]) := by
  refine List.pairwise_append.mpr ⟨h, List.pairwise_singleton .., fun k hk k' hk' heq => ?_⟩
  obtain rfl := List.mem_singleton.mp hk'
  exact absurd heq (hfresh k hk)

theorem keys_add : (sh.add atom flags).keys = sh.keys ++ [(atom, flags)] :=
  keys_link sh ⟨0, flags, atom⟩

/-- `add_shape_property`. -/
theorem Valid.add (h : sh.Valid) (flags : BitVec 6) (hatom : atom ≠ jsAtomNull)
    (hfresh : ∀ k ∈ sh.keys, k.1 ≠ atom)
    (hlt : sh.prop.length < 2 ^ 26) (hfits : sh.prop.length < sh.propSize) :
    (sh.add atom flags).Valid := by
  have hchains := h.chains.link ⟨0, flags, atom⟩ hlt
  have hlen : (sh.add atom flags).prop.length = sh.prop.length + 1 := length_prop_link
  have hlink : sh.add atom flags = { sh with
        prop := (sh.add atom flags).prop
        propHash := (sh.add atom flags).propHash
        hasSmallArrayIndex := sh.hasSmallArrayIndex || jsAtomIsTaggedInt atom } := by
    rw [JSShape.add, link, if_neg hatom]
  refine ⟨hchains.of_eq rfl rfl, keys_add ▸ h.distinct.append hfresh, ?_, ?_, ?_, ?_⟩
  · rw [keys_add, List.countP_append, ← h.deleted, hlink]
    simp [hatom]
  · rw [hlen, hlink]
    exact hfits
  · rw [hlen]
    exact hlt
  · rw [keys_add, hlink]
    intro k hk htagged
    rcases List.mem_append.mp hk with hk | hk
    · simp [h.small k hk htagged]
    · obtain rfl := List.mem_singleton.mp hk
      simp [htagged]

theorem growHashSize_pos : ∀ {fuel hashSize size : ℕ}, 0 < hashSize → 0 < growHashSize fuel hashSize size
  | 0, _, _, h => h
  | fuel + 1, hashSize, size, h => by
    unfold growHashSize
    split
    · exact growHashSize_pos (by omega)
    · exact h

theorem shrinkHashSize_pos : ∀ {fuel hashSize size : ℕ}, 0 < hashSize → 0 < size →
    0 < shrinkHashSize fuel hashSize size
  | 0, _, _, h, _ => h
  | fuel + 1, hashSize, size, h, hsize => by
    unfold shrinkHashSize
    split
    · exact shrinkHashSize_pos (by omega) hsize
    · exact h

/-- An empty hash table. -/
theorem chains_nil {table : List ℕ} (hsize : 0 < table.length) (hzero : ∀ i ∈ table, i = 0)
    (hnil : sh.prop = []) (htable : sh.propHash = table) : sh.Chains := by
  have hentry : ∀ i, sh.entry i = none := fun i => by
    cases i with
    | zero => rfl
    | succ k => rw [entry, hnil, List.getElem?_nil]
  refine ⟨htable ▸ hsize, fun b hb => ⟨[], ?_, .nil, fun i => ⟨nofun, ?_⟩⟩⟩
  · rw [htable] at hb
    rw [head, htable, List.getElem?_eq_getElem hb]
    exact hzero _ (List.getElem_mem hb)
  · rintro ⟨a, ⟨_, pr, hpr, _⟩, _⟩
    rw [hentry] at hpr
    cases hpr

/-- A hash table that is built anew. -/
theorem rebuild_eq (sh : JSShape) {hashSize : ℕ} (hsize : 0 < hashSize)
    (hlen : prs.length ≤ 2 ^ 26) : (sh.rebuild hashSize prs).Chains ∧ ∃ prop table,
      sh.rebuild hashSize prs = { sh with prop := prop, propHash := table } ∧
        prop.map JSShapeProperty.key = prs.map JSShapeProperty.key := by
  have hnil : ({ sh with propHash := .replicate hashSize 0, prop := [] } : JSShape).Chains :=
    chains_nil (by rwa [List.length_replicate]) (fun _ => List.eq_of_mem_replicate) rfl rfl
  obtain ⟨prop, table, heq, hkeys, _⟩ :=
    foldl_link_eq prs { sh with propHash := .replicate hashSize 0, prop := [] }
  exact ⟨hnil.foldl_link (by simpa using hlen), prop, table, heq, hkeys⟩

/-- A shape with the same atoms and a correct table. -/
theorem Valid.congr {sh' : JSShape} (h : sh.Valid) (hchains : sh'.Chains)
    (hatoms : sh'.keys.map Prod.fst = sh.keys.map Prod.fst)
    (hdeleted : sh'.deletedPropCount = sh.deletedPropCount)
    (hsmall : sh'.hasSmallArrayIndex = sh.hasSmallArrayIndex)
    (hfits : sh.prop.length ≤ sh'.propSize) : sh'.Valid := by
  have hlen : sh'.prop.length = sh.prop.length := by
    simpa using congrArg List.length hatoms
  have hdistinct := h.distinct
  have hcount := h.deleted
  have hsmall' := h.small
  have hfst : (fun k : JSAtom × BitVec 6 => decide (k.1 = jsAtomNull)) =
      (fun a : JSAtom => decide (a = jsAtomNull)) ∘ Prod.fst := rfl
  refine ⟨hchains, ?_, ?_, hlen ▸ hfits, hlen ▸ h.count, ?_⟩
  · rw [Distinct, ← List.pairwise_map (f := Prod.fst) (R := fun a a' => a = a' → a = jsAtomNull)]
      at hdistinct ⊢
    rwa [hatoms]
  · rw [hfst, ← List.countP_map] at hcount ⊢
    rw [hdeleted, hatoms, hcount]
  · intro k hk
    have hmem := List.mem_map_of_mem (f := Prod.fst) hk
    rw [hatoms] at hmem
    obtain ⟨k', hk', heq⟩ := List.mem_map.mp hmem
    rw [hsmall, ← heq]
    exact hsmall' k' hk'

/-- `resize_properties` only touches the table and the size. -/
theorem resize_eq (h : sh.Valid) (newSize : ℕ) : (sh.resize newSize).Chains ∧ ∃ prop table,
    sh.resize newSize = { sh with prop := prop, propHash := table, propSize := newSize } ∧
      prop.map JSShapeProperty.key = sh.keys := by
  by_cases hsize : growHashSize newSize sh.propHash.length newSize ≠ sh.propHash.length
  · obtain ⟨hchains, prop, table, heq, hkeys⟩ := rebuild_eq sh
      (growHashSize_pos h.chains.size : 0 < growHashSize newSize _ newSize) h.count
    have hresize : sh.resize newSize = { sh with prop := prop, propHash := table, propSize := newSize } := by
      simp only [resize, if_pos hsize, heq]
    rw [heq] at hchains
    exact ⟨hresize ▸ hchains.of_eq rfl rfl, prop, table, hresize, hkeys⟩
  · have hresize : sh.resize newSize = { sh with propSize := newSize } := by
      simp only [resize, if_neg hsize]
    exact ⟨hresize ▸ h.chains.of_eq rfl rfl, sh.prop, sh.propHash, hresize, rfl⟩

theorem Valid.resize (h : sh.Valid) {newSize : ℕ} (hle : sh.prop.length ≤ newSize) :
    (sh.resize newSize).Valid := by
  obtain ⟨hchains, prop, table, heq, hkeys⟩ := resize_eq h newSize
  rw [heq] at hchains ⊢
  exact h.congr hchains (congrArg (List.map Prod.fst) hkeys) rfl rfl hle

theorem map_key_filter : (sh.prop.filter isLive).map JSShapeProperty.key =
    sh.keys.filter (·.1 ≠ jsAtomNull) := by
  rw [keys, List.filter_map]
  rfl

/-- The live properties are the entries that have not been deleted. -/
theorem Valid.length_live (h : sh.Valid) :
    (sh.keys.filter (·.1 ≠ jsAtomNull)).length = sh.prop.length - sh.deletedPropCount := by
  have hcount := List.length_eq_countP_add_countP (l := sh.keys) (fun k => k.1 = jsAtomNull)
  rw [← List.countP_eq_length_filter, h.deleted, ← length_keys sh, hcount]
  simp

/-- `compact_properties`. -/
theorem compact_eq (h : sh.Valid) : sh.compact.Valid ∧
    sh.compact.keys = sh.keys.filter (·.1 ≠ jsAtomNull) ∧ ∃ prop table, sh.compact =
      { sh with prop := prop, propHash := table, propSize := sh.compactSize, deletedPropCount := 0 } := by
  have hlen : (sh.prop.filter isLive).length ≤ 2 ^ 26 :=
    Nat.le_trans (List.length_filter_le ..) h.count
  have htwo : 2 ≤ sh.compactSize := Nat.le_max_left ..
  obtain ⟨hchains, prop, table, heq, hkeys⟩ := rebuild_eq sh
    (shrinkHashSize_pos h.chains.size (by omega) :
      0 < shrinkHashSize sh.propHash.length _ sh.compactSize) hlen
  rw [map_key_filter] at hkeys
  have hcompact : sh.compact =
      { sh with prop := prop, propHash := table, propSize := sh.compactSize, deletedPropCount := 0 } := by
    rw [compact, heq]
  have hkeys' : sh.compact.keys = sh.keys.filter (·.1 ≠ jsAtomNull) := by
    rw [hcompact]
    exact hkeys
  have hlen' : sh.compact.prop.length = sh.prop.length - sh.deletedPropCount := by
    rw [← length_keys, hkeys', h.length_live]
  refine ⟨⟨hchains.of_eq rfl rfl, ?_, ?_, ?_, ?_, ?_⟩, hkeys', prop, table, hcompact⟩
  · rw [hkeys']
    exact h.distinct.filter _
  · rw [hkeys']
    exact (List.countP_eq_zero.mpr fun k hk => by
      have := (List.mem_filter.mp hk).2
      simpa using this).symm
  · rw [hlen']
    exact Nat.le_max_right ..
  · have := h.count
    omega
  · rw [hkeys', hcompact]
    exact fun k hk => h.small k (List.mem_filter.mp hk).1

/-! ## Searching and removing -/

theorem isAt_iff (hatom : atom ≠ jsAtomNull) : sh.isAt atom i = true ↔ sh.LiveAt i atom := by
  simp only [isAt, Option.any_eq_true, decide_eq_true_eq]
  exact ⟨fun ⟨pr, hpr, ha⟩ => ⟨hatom, pr, hpr, ha⟩, fun ⟨_, h⟩ => h⟩

theorem LiveAt.key (h : sh.LiveAt i a) : 0 < i ∧ ∃ flags, sh.keys[i - 1]? = some (a, flags) := by
  obtain ⟨_, pr, hpr, rfl⟩ := h
  obtain ⟨k, rfl, hk⟩ := entry_eq_some.mp hpr
  refine ⟨Nat.succ_pos k, pr.flags, ?_⟩
  rw [keys, List.getElem?_map, Nat.add_sub_cancel, hk]
  rfl

theorem liveAt_of_key {k : ℕ} (ha : a ≠ jsAtomNull) (h : sh.keys[k]? = some (a, flags)) :
    sh.LiveAt (k + 1) a := by
  rw [keys, List.getElem?_map, Option.map_eq_some_iff] at h
  obtain ⟨pr, hpr, hkey⟩ := h
  exact ⟨ha, pr, hpr, congrArg Prod.fst hkey⟩

/-- An atom is live once. -/
theorem Valid.unique (h : sh.Valid) (hi : sh.LiveAt i a) (hj : sh.LiveAt j a) : i = j := by
  obtain ⟨hi0, flags, hi'⟩ := hi.key
  obtain ⟨hj0, flags', hj'⟩ := hj.key
  obtain ⟨hilt, hi'⟩ := List.getElem?_eq_some_iff.mp hi'
  obtain ⟨hjlt, hj'⟩ := List.getElem?_eq_some_iff.mp hj'
  have hpair := List.pairwise_iff_getElem.mp h.distinct
  by_contra hne
  rcases Nat.lt_or_gt_of_ne (show i - 1 ≠ j - 1 by omega) with hlt | hlt
  · have hnull := hpair _ _ hilt hjlt hlt
    rw [hi', hj'] at hnull
    exact hi.1 (hnull rfl)
  · have hnull := hpair _ _ hjlt hilt hlt
    rw [hi', hj'] at hnull
    exact hi.1 (hnull rfl)

theorem LiveAt.atom_eq {a' : JSAtom} (h : sh.LiveAt i a) (h' : sh.LiveAt i a') : a = a' := by
  obtain ⟨_, pr, hpr, rfl⟩ := h
  obtain ⟨_, pr', hpr', rfl⟩ := h'
  cases hpr.symm.trans hpr'
  rfl

/-- An entry is in the chain of one bucket. -/
theorem Bucket.eq_of_mem {b' : ℕ} {l' : List ℕ} (h : sh.Bucket b l) (h' : sh.Bucket b' l')
    (hi : i ∈ l) (hi' : i ∈ l') : b = b' := by
  obtain ⟨a, ha, rfl⟩ := (h.mem i).mp hi
  obtain ⟨a', ha', rfl⟩ := (h'.mem i).mp hi'
  rw [ha.atom_eq ha']

/-- The chain in which an atom is searched. -/
theorem Valid.search (h : sh.Valid) (atom : JSAtom) : ∃ l,
    sh.Bucket (sh.bucket atom) l ∧ l.length ≤ sh.prop.length ∧ ∀ i, sh.LiveAt i atom → i ∈ l := by
  obtain ⟨l, hl⟩ := h.chains.bucket _ (bucket_lt (a := atom) h.chains.size)
  refine ⟨l, hl, ?_, fun i hi => (hl.mem i).mpr ⟨atom, hi, rfl⟩⟩
  have hsub : l ⊆ List.range' 1 sh.prop.length := fun i hi => by
    have := hl.le hi
    rw [List.mem_range'_1]
    omega
  simpa using (hl.nodup.subperm hsub).length_le

/-- `find_own_property` finds the live entry. -/
theorem Valid.findOwnProperty (h : sh.Valid) (hi : sh.LiveAt i atom) : sh.findOwnProperty atom = i := by
  obtain ⟨l, hl, hlen, hmem⟩ := h.search atom
  exact findFrom_unique hl.chain hlen (hmem i hi) ((isAt_iff hi.1).mpr hi)
    fun j _ hj => h.unique ((isAt_iff hi.1).mp hj) hi

/-- It finds nothing else. -/
theorem Valid.findOwnProperty_eq_zero (h : sh.Valid) (hatom : atom ≠ jsAtomNull) :
    sh.findOwnProperty atom = 0 ↔ ∀ k ∈ sh.keys, k.1 ≠ atom := by
  constructor
  · rintro hzero ⟨a, flags⟩ hk rfl
    obtain ⟨k, hk⟩ := List.mem_iff_getElem?.mp hk
    have := h.findOwnProperty (liveAt_of_key hatom hk)
    omega
  · intro hall
    obtain ⟨l, hl, hlen, _⟩ := h.search atom
    rw [JSShape.findOwnProperty, findFrom_eq hl.chain hlen, List.find?_eq_none.mpr]
    · rfl
    · intro i _ hat
      obtain ⟨_, flags, hk⟩ := ((isAt_iff hatom).mp hat).key
      exact hall _ (List.mem_of_getElem? hk) rfl

/-- The search with the previous entry. -/
theorem findPrev_eq : ∀ {l : List ℕ} {i lpr fuel : ℕ}, IsChain sh.next i l → l.length ≤ fuel →
    (sh.findPrev atom fuel lpr i = none ∧ ∀ j ∈ l, ¬sh.isAt atom j) ∨
    ∃ l₁ h l₂, l = l₁ ++ h :: l₂ ∧ sh.isAt atom h ∧
      sh.findPrev atom fuel lpr i = some (l₁.getLast?.getD lpr, h)
  | [], i, lpr, fuel, hc, _ => by
    obtain rfl : i = 0 := hc
    refine .inl ⟨?_, nofun⟩
    cases fuel <;> rfl
  | j :: l, i, lpr, 0, _, hlen => absurd hlen (by simp)
  | j :: l, i, lpr, fuel + 1, hc, hlen => by
    obtain ⟨rfl, hi0, hc⟩ := hc
    rw [findPrev, if_neg hi0]
    by_cases hat : sh.isAt atom i
    · rw [if_pos hat]
      exact .inr ⟨[], i, l, rfl, hat, rfl⟩
    · rw [if_neg hat]
      rcases findPrev_eq hc (Nat.le_of_succ_le_succ hlen) with
        ⟨hnone, hall⟩ | ⟨l₁, h, l₂, rfl, hh, heq⟩
      · exact .inl ⟨hnone, List.forall_mem_cons.mpr ⟨hat, hall⟩⟩
      · refine .inr ⟨i :: l₁, h, l₂, rfl, hh, ?_⟩
        rw [heq, List.getLast?_cons, Option.getD_some]

/-- The entries when one of them is changed. -/
theorem entry_modify {f : JSShapeProperty → JSShapeProperty} (hj : 0 < j) :
    ({ sh with prop := sh.prop.modify (j - 1) f } : JSShape).entry i =
      if i = j then (sh.entry i).map f else sh.entry i := by
  cases i with
  | zero => rw [if_neg (by omega)]; rfl
  | succ k =>
    by_cases hk : k + 1 = j
    · rw [if_pos hk]
      subst hk
      exact List.getElem?_modify_eq ..
    · rw [if_neg hk]
      exact List.getElem?_modify_ne _ _ (by omega)

/-- Only links change when an entry is unlinked. -/
theorem keys_unlinkEntry (sh : JSShape) (i h : ℕ) (atom : JSAtom) : (sh.unlinkEntry i h atom).keys = sh.keys ∧
      (sh.unlinkEntry i h atom).propHash.length = sh.propHash.length := by
  unfold unlinkEntry
  split
  · exact ⟨rfl, List.length_set⟩
  · refine ⟨?_, rfl⟩
    rw [keys, keys]
    refine List.ext_getElem? fun k => ?_
    rw [List.getElem?_map, List.getElem?_map, List.getElem?_modify]
    cases sh.prop[k]? with
    | none => rfl
    | some pr =>
      split <;> rfl

theorem liveAt_unlinkEntry (sh : JSShape) (i h : ℕ) (atom : JSAtom) :
    (sh.unlinkEntry i h atom).LiveAt j a ↔ sh.LiveAt j a := by
  have hkeys := (keys_unlinkEntry sh i h atom).1
  constructor <;> intro hj <;> obtain ⟨hj0, flags, hk⟩ := hj.key
  · rw [hkeys] at hk
    exact Nat.sub_add_cancel hj0 ▸ liveAt_of_key hj.1 hk
  · rw [← hkeys] at hk
    exact Nat.sub_add_cancel hj0 ▸ liveAt_of_key hj.1 hk

/-- Giving an entry up only touches the properties, the table and the count. -/
theorem remove_eq (sh : JSShape) (i h : ℕ) (atom : JSAtom) : ∃ prop table, sh.remove i h atom =
    { sh with prop := prop, propHash := table, deletedPropCount := sh.deletedPropCount + 1 } := by
  unfold remove unlinkEntry
  split <;> exact ⟨_, _, rfl⟩

theorem keys_remove (sh : JSShape) (i h : ℕ) (atom : JSAtom) :
    (sh.remove i h atom).keys = sh.keys.set (h - 1) (jsAtomNull, 0) := by
  rw [← (keys_unlinkEntry sh i h atom).1]
  refine List.ext_getElem? fun k => ?_
  simp only [keys, remove, List.getElem?_map, List.getElem?_modify, List.getElem?_set]
  by_cases hk : h - 1 = k
  · subst hk
    cases hpr : (sh.unlinkEntry i h atom).prop[h - 1]? with
    | none => simpa using hpr
    | some pr => simp [(List.getElem?_eq_some_iff.mp hpr).1, JSShapeProperty.key]
  · cases (sh.unlinkEntry i h atom).prop[k]? <;> simp [hk]

theorem liveAt_remove (hh : 0 < h) : (sh.remove i h atom).LiveAt j a ↔ sh.LiveAt j a ∧ j ≠ h := by
  rw [← liveAt_unlinkEntry sh i h atom]
  have hentry : (sh.remove i h atom).entry j = _ := entry_modify (i := j) hh
  unfold LiveAt
  rw [hentry]
  by_cases hj : j = h
  · rw [if_pos hj]
    refine ⟨fun ⟨ha, pr, hpr, hnull⟩ => ?_, fun h => absurd hj h.2⟩
    obtain ⟨pr', _, rfl⟩ := Option.map_eq_some_iff.mp hpr
    exact absurd hnull.symm ha
  · rw [if_neg hj]
    exact ⟨fun h => ⟨h, hj⟩, fun h => h.1⟩

/-- The links after entry `h` has been given up. -/
theorem next_remove (hh : 0 < h) : (sh.remove i h atom).next j = (sh.unlinkEntry i h atom).next j := by
  have hentry : (sh.remove i h atom).entry j = _ := entry_modify (i := j) hh
  rw [next, next, hentry]
  split
  · cases (sh.unlinkEntry i h atom).entry j <;> rfl
  · rfl

theorem next_lt (sh : JSShape) (i : ℕ) : sh.next i < 2 ^ 26 := by
  unfold next
  cases sh.entry i with
  | none => exact Nat.two_pow_pos 26
  | some pr => exact pr.hashNext.isLt

theorem next_unlinkEntry (hj : j ≠ i) : (sh.unlinkEntry i h atom).next j = sh.next j := by
  unfold unlinkEntry
  split
  · rfl
  · rename_i hi
    rw [next, entry_modify (Nat.pos_of_ne_zero hi), if_neg hj, next]

theorem next_unlinkEntry_self (hi : sh.LiveAt i a) : (sh.unlinkEntry i h atom).next i = sh.next h := by
  obtain ⟨_, pr, hpr, _⟩ := hi
  have hi0 := (entry_lt hpr).1
  rw [unlinkEntry, if_neg (Nat.ne_of_gt hi0), next, entry_modify hi0, if_pos rfl, hpr,
    Option.map_some, Option.elim_some, BitVec.toNat_ofNat, Nat.mod_eq_of_lt (next_lt sh h)]

theorem head_unlinkEntry (hsize : 0 < sh.propHash.length) : (sh.unlinkEntry i h atom).head b =
    if i = 0 ∧ b = sh.bucket atom then sh.next h else sh.head b := by
  unfold unlinkEntry
  split
  · rename_i hi
    by_cases hb : b = sh.bucket atom
    · rw [if_pos ⟨hi, hb⟩, hb]
      exact congrArg (Option.getD · 0) (List.getElem?_set_self (bucket_lt hsize))
    · rw [if_neg fun h => hb h.2]
      exact congrArg (Option.getD · 0) (List.getElem?_set_ne (Ne.symm hb))
  · rename_i hi
    rw [if_neg fun h => hi h.1]
    rfl

/-- `delete_property` takes the entry it has found out of its chain. -/
theorem Valid.chains_remove (hv : sh.Valid) (hatom : atom ≠ jsAtomNull) {lpr : ℕ}
    (hfind : sh.findPrev atom sh.prop.length 0 (sh.head (sh.bucket atom)) = some (lpr, h)) :
    sh.LiveAt h atom ∧ (sh.remove lpr h atom).Chains := by
  obtain ⟨l, hl, hlen, _⟩ := hv.search atom
  rcases findPrev_eq hl.chain hlen with ⟨hnone, _⟩ | ⟨l₁, h', l₂, rfl, hat, heq⟩
  · rw [hnone] at hfind
    cases hfind
  rw [heq] at hfind
  cases hfind
  have hlive := (isAt_iff hatom).mp hat
  have hh : 0 < h := hlive.key.1
  have hlength := (keys_unlinkEntry sh (l₁.getLast?.getD 0) h atom).2
  have hbucket : ∀ a, (sh.remove (l₁.getLast?.getD 0) h atom).bucket a = sh.bucket a := fun a =>
    congrArg (a &&& · - 1) hlength
  have hhead : ∀ b, (sh.remove (l₁.getLast?.getD 0) h atom).head b = _ := fun b =>
    head_unlinkEntry (i := l₁.getLast?.getD 0) (h := h) (b := b) hv.chains.size
  have hnext : ∀ i, i ≠ l₁.getLast?.getD 0 →
      (sh.remove (l₁.getLast?.getD 0) h atom).next i = sh.next i := fun i hi =>
    (next_remove hh).trans (next_unlinkEntry hi)
  obtain ⟨hnodup₁, hnodup₂, hdisj⟩ := List.nodup_append.mp hl.nodup
  obtain ⟨hnotMem, hnodup₂⟩ := List.nodup_cons.mp hnodup₂
  refine ⟨hlive, hlength.symm ▸ hv.chains.size, fun b hb => ?_⟩
  by_cases hb' : b = sh.bucket atom
  · refine ⟨l₁ ++ l₂, ?_, ?_, fun i => ?_⟩
    · rw [hhead]
      rcases List.eq_nil_or_concat' l₁ with rfl | ⟨l, lpr, rfl⟩
      · -- the first entry of the bucket
        obtain ⟨_, _, hchain⟩ := hl.chain
        rw [if_pos ⟨rfl, hb'⟩]
        exact hchain.congr fun i hi => hnext i (hchain.ne_zero hi)
      · -- an entry after `lpr`
        have hlast : (l ++ [lpr]).getLast?.getD 0 = lpr := by simp
        have hmem : lpr ∈ l ++ [lpr] ++ h :: l₂ := by simp
        obtain ⟨a, ha, _⟩ := (hl.mem lpr).mp hmem
        have hchain := hl.chain
        have hnodup := hl.nodup
        simp only [List.append_assoc] at hchain hnodup ⊢
        rw [hlast] at hnext ⊢
        rw [if_neg fun h => Nat.ne_of_gt ha.key.1 h.1, hb']
        exact hchain.unlink hnodup ((next_remove hh).trans (next_unlinkEntry_self ha)) hnext
    · exact List.nodup_append.mpr ⟨hnodup₁, hnodup₂, fun i hi j hj =>
        hdisj i hi j (List.mem_cons_of_mem _ hj)⟩
    · have hmem : i ∈ l₁ ++ l₂ ↔ i ∈ l₁ ++ h :: l₂ ∧ i ≠ h := by
        simp only [List.mem_append, List.mem_cons]
        constructor
        · rintro (hi | hi)
          · exact ⟨.inl hi, hdisj i hi h (.head _)⟩
          · exact ⟨.inr (.inr hi), fun heq => hnotMem (heq ▸ hi)⟩
        · rintro ⟨hi | hi | hi, hne⟩
          · exact .inl hi
          · exact absurd hi hne
          · exact .inr hi
      rw [hmem, hl.mem, hb']
      simp only [liveAt_remove hh, hbucket]
      constructor
      · rintro ⟨⟨a, ha, hab⟩, hne⟩
        exact ⟨a, ⟨ha, hne⟩, hab⟩
      · rintro ⟨a, ⟨ha, hne⟩, hab⟩
        exact ⟨⟨a, ha, hab⟩, hne⟩
  · obtain ⟨l, hl'⟩ := hv.chains.bucket b (hlength ▸ hb)
    refine ⟨l, ?_, hl'.nodup, fun i => ?_⟩
    · rw [hhead, if_neg fun h => hb' h.2]
      refine hl'.chain.congr fun i hi => hnext i fun heq => ?_
      rcases List.eq_nil_or_concat' l₁ with rfl | ⟨l, lpr, rfl⟩
      · exact hl'.chain.ne_zero hi heq
      · exact hb' (hl'.eq_of_mem hl hi (by simp [heq]))
    · rw [hl'.mem]
      simp only [liveAt_remove hh, hbucket]
      refine exists_congr fun a => and_congr_left fun hab => ⟨fun ha => ⟨ha, ?_⟩, fun ha => ha.1⟩
      rintro rfl
      exact hb' (hab.symm.trans (congrArg sh.bucket (ha.atom_eq hlive)))

/-- The shape without the entry that has been found. -/
theorem Valid.remove (hv : sh.Valid) (hatom : atom ≠ jsAtomNull) {lpr : ℕ}
    (hfind : sh.findPrev atom sh.prop.length 0 (sh.head (sh.bucket atom)) = some (lpr, h)) :
    (sh.remove lpr h atom).Valid := by
  obtain ⟨hlive, hchains⟩ := hv.chains_remove hatom hfind
  obtain ⟨hh, flags, hkey⟩ := hlive.key
  have hkeys := keys_remove sh lpr h atom
  have hlen : (sh.remove lpr h atom).prop.length = sh.prop.length := by
    rw [← length_keys, hkeys, List.length_set, length_keys]
  obtain ⟨hlt, hkey⟩ := List.getElem?_eq_some_iff.mp hkey
  obtain ⟨prop, table, heq⟩ := remove_eq sh lpr h atom
  refine ⟨hchains, ?_, ?_, ?_, hlen ▸ hv.count, ?_⟩
  · rw [hkeys]
    refine List.pairwise_iff_getElem.mpr fun i j hi hj hij heq => ?_
    rw [List.length_set] at hi hj
    rw [List.getElem_set] at heq ⊢
    split
    · rfl
    · rename_i hi'
      rw [if_neg hi', List.getElem_set] at heq
      split at heq
      · exact heq
      · exact List.pairwise_iff_getElem.mp hv.distinct i j hi hj hij heq
  · rw [hkeys, List.countP_set hlt, hkey, heq]
    simp only [hlive.1, decide_false, if_false, Bool.false_eq_true, decide_true, if_true, hv.deleted]
    omega
  · rw [hlen, heq]
    exact hv.fits
  · rw [hkeys, heq]
    intro k hk htagged
    rcases List.mem_or_eq_of_mem_set hk with hk | rfl
    · exact hv.small k hk htagged
    · simp [jsAtomIsTaggedInt, jsAtomNull] at htagged

/-- A live entry gets other flags. -/
theorem keys_withFlags (hlive : sh.LiveAt h atom) (flags : BitVec 6) :
    (sh.withFlags h flags).keys = sh.keys.set (h - 1) (atom, flags) := by
  obtain ⟨hh, flags', hkey⟩ := hlive.key
  refine List.ext_getElem? fun k => ?_
  rw [keys, withFlags, List.getElem?_map]
  by_cases hk : h - 1 = k
  · subst hk
    rw [List.getElem?_set_self (List.getElem?_eq_some_iff.mp hkey).1, List.getElem?_modify_eq]
    rw [keys, List.getElem?_map] at hkey
    obtain ⟨pr, hpr, hpr'⟩ := Option.map_eq_some_iff.mp hkey
    rw [hpr]
    exact congrArg some (Prod.ext (show pr.atom = atom from congrArg Prod.fst hpr') rfl)
  · rw [List.getElem?_set_ne hk, List.getElem?_modify_ne _ _ hk, keys, List.getElem?_map]

theorem Valid.withFlags (hv : sh.Valid) (hlive : sh.LiveAt h atom) (flags : BitVec 6) :
    (sh.withFlags h flags).Valid := by
  obtain ⟨hh, flags', hkey⟩ := hlive.key
  obtain ⟨hlt, hkey⟩ := List.getElem?_eq_some_iff.mp hkey
  have hentry : ∀ i, (sh.withFlags h flags).entry i = _ := fun i => entry_modify (i := i) hh
  refine hv.congr (hv.chains.congr (fun i => ?_) (fun i a => ?_) rfl) ?_ rfl rfl hv.fits
  · rw [next, next, hentry]
    split
    · cases sh.entry i <;> rfl
    · rfl
  · rw [LiveAt, LiveAt, hentry]
    split
    · simp
    · rfl
  · rw [keys_withFlags hlive, List.map_set]
    have hlt' : h - 1 < (sh.keys.map Prod.fst).length := by rwa [List.length_map]
    have hatom : (sh.keys.map Prod.fst)[h - 1] = atom := by rw [List.getElem_map, hkey]
    exact hatom ▸ List.set_getElem_self hlt'

end JSShape

end QuickJs.Shape
