import Mathlib.Algebra.BigOperators.Ring.Finset
import Mathlib.Algebra.Order.BigOperators.Group.Finset

/-!
# Reference counts on a finite multigraph

Nodes own a list of outgoing references, repetitions included. `refs E S o`
is the number of references to `o` held by the nodes of `S`; a count is *exact*
when it is this number plus some external references. The lemmas say how the
number moves when one owner enters or leaves `S`, and `mem_iff_reachable` is the
specification side: the least set that holds the roots and is closed under
references is the set of reachable nodes.
-/

namespace QuickJs.RefGraph

universe u

variable {α : Type u} {E : α → List α} {p o : α}

/-! ## Reachability -/

/-- `o` is reachable from a root. -/
def Reachable (E : α → List α) (root : α → Prop) (o : α) : Prop :=
  ∃ r, root r ∧ Relation.ReflTransGen (fun p o => o ∈ E p) r o

theorem Reachable.root {root : α → Prop} (h : root o) : Reachable E root o :=
  ⟨o, h, .refl⟩

theorem Reachable.step {root : α → Prop} (h : Reachable E root p) (ho : o ∈ E p) : Reachable E root o := by
  obtain ⟨r, hr, hrp⟩ := h
  exact ⟨r, hr, hrp.tail ho⟩

/-- A set of reachable nodes that holds the roots and is closed under references
is exactly the set of reachable nodes. -/
theorem mem_iff_reachable {root : α → Prop} {A : α → Prop} (hroot : ∀ o, root o → A o)
    (hclosed : ∀ p o, A p → o ∈ E p → A o) (hreach : ∀ o, A o → Reachable E root o) (o : α) :
    A o ↔ Reachable E root o := by
  refine ⟨hreach o, ?_⟩
  rintro ⟨r, hr, hro⟩
  induction hro with
  | refl => exact hroot r hr
  | tail _ ho ih => exact hclosed _ _ ih ho

/-! ## Counting references -/

variable [DecidableEq α] {S T : Finset α}

/-- The number of references to `o` held by the nodes of `S`. -/
def refs (E : α → List α) (S : Finset α) (o : α) : ℤ := ∑ p ∈ S, ((E p).count o : ℤ)

theorem refs_nonneg : 0 ≤ refs E S o :=
  Finset.sum_nonneg fun _ _ => Int.natCast_nonneg _

@[simp] theorem refs_empty : refs E ∅ o = 0 := Finset.sum_empty

theorem refs_insert (hp : p ∉ S) : refs E (insert p S) o = (E p).count o + refs E S o :=
  Finset.sum_insert hp

theorem refs_erase (hp : p ∈ S) : refs E (S.erase p) o = refs E S o - (E p).count o := by
  have h := Finset.add_sum_erase S (fun p => ((E p).count o : ℤ)) hp
  simp only [refs] at *
  omega

theorem refs_sdiff (h : T ⊆ S) : refs E (S \ T) o = refs E S o - refs E T o := by
  have hsum := Finset.sum_sdiff (f := fun p => ((E p).count o : ℤ)) h
  simp only [refs] at *
  omega

/-- A node with a positive number of references has an owner. -/
theorem exists_owner (h : 0 < refs E S o) : ∃ p ∈ S, o ∈ E p := by
  by_contra hno
  have hzero : refs E S o = 0 := by
    refine Finset.sum_eq_zero fun p hp => ?_
    have hnot : o ∉ E p := fun ho => hno ⟨p, hp, ho⟩
    simp [List.count_eq_zero_of_not_mem hnot]
  omega

/-- An owner makes the number of references positive. -/
theorem refs_pos (hp : p ∈ S) (ho : o ∈ E p) : 0 < refs E S o := by
  have hle : ((E p).count o : ℤ) ≤ refs E S o :=
    Finset.single_le_sum (f := fun p => ((E p).count o : ℤ))
      (fun _ _ => Int.natCast_nonneg _) hp
  have hpos : 0 < (E p).count o := List.count_pos_iff.mpr ho
  omega

end QuickJs.RefGraph

/-!
## Marking in rounds

In each round the nodes that the marked ones refer to are marked. After as many rounds as there are
nodes nothing changes any more, and what is marked is what can be reached.
-/

namespace QuickJs.RefGraph

universe u

variable {α : Type u} [DecidableEq α] {E : α → List α} {S U : Finset α} {n : ℕ} {p o : α}

/-- What the marked nodes refer to is marked. -/
def round (E : α → List α) (S : Finset α) : Finset α := S ∪ S.biUnion fun p => (E p).toFinset

/-- Some rounds of marking. -/
def marked (E : α → List α) (n : ℕ) (S : Finset α) : Finset α := (round E)^[n] S

theorem mem_round_iff : o ∈ round E S ↔ o ∈ S ∨ ∃ p ∈ S, o ∈ E p := by
  rw [round, Finset.mem_union, Finset.mem_biUnion]
  simp only [List.mem_toFinset]

theorem subset_round (S : Finset α) : S ⊆ round E S := Finset.subset_union_left

theorem marked_succ : marked E (n + 1) S = round E (marked E n S) := by
  rw [marked, Function.iterate_succ_apply', marked]

theorem subset_marked : S ⊆ marked E n S := by
  induction n with
  | zero => exact Finset.Subset.refl S
  | succ n ih =>
    rw [marked_succ]
    exact ih.trans (subset_round _)

theorem marked_subset (hS : S ⊆ U) (hU : ∀ p ∈ U, ∀ o ∈ E p, o ∈ U) : marked E n S ⊆ U := by
  induction n with
  | zero => exact hS
  | succ n ih =>
    rw [marked_succ]
    intro o ho
    rcases mem_round_iff.mp ho with ho | ⟨p, hp, ho⟩
    · exact ih ho
    · exact hU p (ih hp) o ho

/-- A round changes nothing, or every round before has marked a node. -/
theorem marked_fixed_or (n : ℕ) : round E (marked E n S) = marked E n S ∨ n ≤ (marked E n S).card := by
  induction n with
  | zero => exact .inr (Nat.zero_le _)
  | succ n ih =>
    by_cases hfixed : round E (marked E n S) = marked E n S
    · rw [marked_succ, hfixed, hfixed]
      exact .inl rfl
    · have hcard := ih.resolve_left hfixed
      have hlt : (marked E n S).card < (round E (marked E n S)).card :=
        Finset.card_lt_card ((subset_round _).ssubset_of_ne (Ne.symm hfixed))
      rw [← marked_succ] at hlt
      exact .inr (hcard.trans_lt hlt)

/-- With a round for every node, one more changes nothing. -/
theorem marked_fixed (hS : S ⊆ U) (hU : ∀ p ∈ U, ∀ o ∈ E p, o ∈ U) (hn : U.card ≤ n) :
    round E (marked E n S) = marked E n S := by
  rcases marked_fixed_or (E := E) (S := S) n with hfixed | hcard
  · exact hfixed
  · have hle : marked E n S ⊆ U := marked_subset hS hU
    have heq : marked E n S = U := Finset.eq_of_subset_of_card_le hle (hn.trans hcard)
    refine Finset.Subset.antisymm ?_ (subset_round _)
    have hle' : marked E (n + 1) S ⊆ U := marked_subset hS hU
    rw [marked_succ] at hle'
    exact hle'.trans heq.ge

theorem reachable_of_mem_marked (h : o ∈ marked E n S) : Reachable E (· ∈ S) o := by
  induction n generalizing o with
  | zero => exact .root h
  | succ n ih =>
    rw [marked_succ] at h
    rcases mem_round_iff.mp h with h | ⟨p, hp, ho⟩
    · exact ih h
    · exact (ih hp).step ho

/-- What is marked with a round for every node is what can be reached. -/
theorem mem_marked_iff (hS : S ⊆ U) (hU : ∀ p ∈ U, ∀ o ∈ E p, o ∈ U) (hn : U.card ≤ n) :
    o ∈ marked E n S ↔ Reachable E (· ∈ S) o := by
  refine mem_iff_reachable (A := (· ∈ marked E n S)) (fun o ho => subset_marked ho)
    (fun p o hp ho => ?_) (fun o => reachable_of_mem_marked) o
  rw [← marked_fixed hS hU hn]
  exact mem_round_iff.mpr (.inr ⟨p, hp, ho⟩)

end QuickJs.RefGraph
