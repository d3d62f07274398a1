import Mathlib.Data.List.Chain

/-!
# Sorting between barriers

A list with keys in which the elements with key 0 stay where they are, and each block between them is sorted, by
insertion and without moving elements with equal keys past each other.
-/

namespace BlockSort

variable {α : Type} (key : α → ℕ)

/-- Insert into a block that is sorted; its last element comes first. -/
def insert (x : α) : List α → List α
  | [] => [x]
  | y :: block => if key y ≤ key x then x :: y :: block else y :: insert x block

/-- Sort what comes after a block. -/
def sortFrom : List α → List α → List α
  | block, [] => block.reverse
  | block, x :: xs => if key x = 0 then block.reverse ++ x :: sortFrom [] xs else sortFrom (insert key x block) xs

def sort (xs : List α) : List α := sortFrom key [] xs

/-- What may follow what in a list that is sorted. -/
def Follows (x y : α) : Prop := key y = 0 ∨ key x ≤ key y

variable {key} {x y : α} {block xs ys zs : List α}

theorem length_insert : (insert key x block).length = block.length + 1 := by
  induction block with
  | nil => rfl
  | cons y block ih =>
    rw [insert]
    split
    · rfl
    · rw [List.length_cons, ih, List.length_cons]

theorem length_sortFrom : (sortFrom key block xs).length = block.length + xs.length := by
  induction xs generalizing block with
  | nil => exact List.length_reverse
  | cons x xs ih =>
    rw [sortFrom]
    split
    · rw [List.length_append, List.length_reverse, List.length_cons, ih, List.length_nil, Nat.zero_add, List.length_cons]
    · rw [ih, length_insert, List.length_cons]
      omega

theorem length_sort : (sort key xs).length = xs.length := length_sortFrom.trans (Nat.zero_add _)

/-! ## Moving an element -/

/-- Elements with different keys may come in any order. -/
theorem insert_insert (h : key x < key y) : insert key x (insert key y block) = insert key y (insert key x block) := by
  have hxy : insert key x [y] = insert key y [x] := by
    rw [insert, if_neg (Nat.not_le.mpr h), insert, insert, if_pos (Nat.le_of_lt h)]
  induction block with
  | nil => exact hxy
  | cons z block ih =>
    by_cases hy : key z ≤ key y
    · by_cases hx : key z ≤ key x
      · rw [insert, if_pos hy, insert, if_neg (Nat.not_le.mpr h), insert, if_pos hx, insert, if_pos (Nat.le_of_lt h)]
      · rw [insert, if_pos hy, insert, if_neg (Nat.not_le.mpr h), insert, if_neg hx, insert, if_pos hy]
    · have hx : ¬key z ≤ key x := fun hle => hy (Nat.le_trans hle (Nat.le_of_lt h))
      rw [insert, if_neg hy, insert, if_neg hx, insert, if_neg hx, insert, if_neg hy, ih]

theorem sortFrom_swap (hx : key x ≠ 0) (h : key x < key y) :
    sortFrom key block (y :: x :: xs) = sortFrom key block (x :: y :: xs) := by
  have hy : key y ≠ 0 := Nat.ne_of_gt (Nat.lt_of_le_of_lt (Nat.zero_le _) h)
  rw [sortFrom, if_neg hy, sortFrom, if_neg hx, sortFrom, if_neg hx, sortFrom, if_neg hy, insert_insert h]

theorem sortFrom_append (h : ∀ block, sortFrom key block ys = sortFrom key block zs) (xs block : List α) :
    sortFrom key block (xs ++ ys) = sortFrom key block (xs ++ zs) := by
  induction xs generalizing block with
  | nil => exact h block
  | cons x xs ih => rw [List.cons_append, List.cons_append, sortFrom, sortFrom, ih, ih]

/-- An element may be put before others with smaller keys. -/
theorem sort_move (hxs : ∀ x ∈ xs, key x ≠ 0 ∧ key x < key y) (zs : List α) :
    sort key (zs ++ (xs ++ y :: ys)) = sort key (zs ++ y :: (xs ++ ys)) := by
  refine sortFrom_append (fun block => ?_) zs []
  induction xs generalizing block with
  | nil => rfl
  | cons x xs ih =>
    obtain ⟨hx, hlt⟩ := hxs x List.mem_cons_self
    rw [List.cons_append, List.cons_append, sortFrom_swap hx hlt, sortFrom, sortFrom,
      ih fun z hz => hxs z (List.mem_cons_of_mem _ hz), ih fun z hz => hxs z (List.mem_cons_of_mem _ hz)]

/-! ## Sorted lists -/

theorem mem_insert {z : α} : z ∈ insert key x block ↔ z = x ∨ z ∈ block := by
  induction block with
  | nil => exact List.mem_cons
  | cons y block ih =>
    rw [insert]
    split
    · exact List.mem_cons
    · rw [List.mem_cons, ih, List.mem_cons]
      exact or_left_comm

theorem mem_sortFrom {z : α} : z ∈ sortFrom key block xs ↔ z ∈ block ∨ z ∈ xs := by
  induction xs generalizing block with
  | nil => exact List.mem_reverse.trans (or_iff_left List.not_mem_nil).symm
  | cons x xs ih =>
    rw [sortFrom]
    split
    · rw [List.mem_append, List.mem_reverse, List.mem_cons, ih, or_iff_right List.not_mem_nil, List.mem_cons]
    · rw [ih, mem_insert, List.mem_cons, or_assoc, or_left_comm]

theorem mem_sort {z : α} : z ∈ sort key xs ↔ z ∈ xs := mem_sortFrom.trans (or_iff_right List.not_mem_nil)

section

variable (h : block.Pairwise fun x y => key y ≤ key x)

include h

theorem insert_sorted :
    (insert key x block).Pairwise fun x y => key y ≤ key x := by
  induction block with
  | nil => exact List.pairwise_singleton _ _
  | cons y block ih =>
    obtain ⟨hy, hblock⟩ := List.pairwise_cons.mp h
    rw [insert]
    split
    · next hle =>
      refine List.pairwise_cons.mpr ⟨fun z hz => ?_, h⟩
      rcases List.mem_cons.mp hz with rfl | hz
      · exact hle
      · exact Nat.le_trans (hy z hz) hle
    · next hlt =>
      refine List.pairwise_cons.mpr ⟨fun z hz => ?_, ih hblock⟩
      rcases mem_insert.mp hz with rfl | hz
      · exact Nat.le_of_lt (Nat.not_le.mp hlt)
      · exact hy z hz

theorem follows_reverse : block.reverse.IsChain (Follows key) := by
  refine List.Pairwise.isChain (List.pairwise_reverse.mpr (h.imp fun hle => ?_))
  exact .inr hle

theorem sortFrom_sorted :
    (sortFrom key block xs).IsChain (Follows key) := by
  induction xs generalizing block with
  | nil => exact follows_reverse h
  | cons x xs ih =>
    rw [sortFrom]
    split
    · next hx =>
      have htail : (sortFrom key [] xs).IsChain (Follows key) := ih .nil
      refine (follows_reverse h).append (List.isChain_cons.mpr ⟨fun y hy => ?_, htail⟩) fun a _ b hb => ?_
      · exact .inr (hx ▸ Nat.zero_le _)
      · obtain rfl := Option.some.inj hb
        exact .inl hx
    · exact ih (insert_sorted h)

end

theorem sort_sorted (xs : List α) : (sort key xs).IsChain (Follows key) := sortFrom_sorted .nil

/-- A list that is sorted stays as it is. -/
theorem sortFrom_of_sorted (h : (block.reverse ++ xs).IsChain (Follows key)) :
    sortFrom key block xs = block.reverse ++ xs := by
  induction xs generalizing block with
  | nil => exact (List.append_nil _).symm
  | cons x xs ih =>
    rw [sortFrom]
    split
    · have htail : (([] : List α).reverse ++ xs).IsChain (Follows key) := (List.isChain_append.mp h).2.1.tail
      rw [ih htail]
      rfl
    · next hx =>
      have hinsert : insert key x block = x :: block := by
        cases block with
        | nil => rfl
        | cons y block =>
          have hlast := (List.isChain_append.mp h).2.2 y (by rw [List.reverse_cons, List.getLast?_concat]; rfl) x rfl
          rw [insert, if_pos (hlast.resolve_left hx)]
      have heq : (x :: block).reverse ++ xs = block.reverse ++ x :: xs := by
        rw [List.reverse_cons, List.append_assoc, List.singleton_append]
      rw [hinsert, ih (heq ▸ h), heq]

theorem sort_of_sorted (h : xs.IsChain (Follows key)) : sort key xs = xs := sortFrom_of_sorted h

end BlockSort
