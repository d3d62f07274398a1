import Mathlib.Data.Fintype.Card

/-!
# Links that come to an end

Every node has at most one link to another node. `Chain link x l` says that following the
links from `x` visits the nodes `l` and then comes to an end; where every node has such a
chain there is no cycle. One link may be changed if the new chain does not lead back.
-/

namespace QuickJs.Links

universe u

variable {α : Type u} {link : α → Option α} {a b p : α} {x y : Option α} {l l' : List α} {n : ℕ}

/-- The nodes from `x` on are `l`. -/
inductive Chain (link : α → Option α) : Option α → List α → Prop
  | nil : Chain link none []
  | cons {a : α} {l : List α} : Chain link (link a) l → Chain link (some a) (a :: l)

theorem Chain.unique (h : Chain link x l) : ∀ {l'}, Chain link x l' → l' = l := by
  induction h with
  | nil =>
    intro l' h'
    cases h'
    rfl
  | cons _ ih =>
    intro l' h'
    cases h' with
    | cons h' => rw [ih h']

/-- The rest of a chain. -/
theorem Chain.of_mem (h : Chain link x l) (ha : a ∈ l) :
    ∃ l', Chain link (link a) l' ∧ l'.length < l.length := by
  induction h with
  | nil => cases ha
  | cons h ih =>
    rcases List.mem_cons.mp ha with rfl | ha
    · exact ⟨_, h, Nat.lt_succ_self _⟩
    · obtain ⟨l', h', hlt⟩ := ih ha
      exact ⟨l', h', Nat.lt_succ_of_lt hlt⟩

/-- A node is not among those that it leads to. -/
theorem Chain.notMem (h : Chain link (link a) l) : a ∉ l := by
  intro ha
  obtain ⟨l', h', hlt⟩ := h.of_mem ha
  rw [h.unique h'] at hlt
  exact Nat.lt_irrefl _ hlt

theorem Chain.nodup (h : Chain link x l) : l.Nodup := by
  induction h with
  | nil => exact List.nodup_nil
  | cons h ih => exact List.nodup_cons.mpr ⟨h.notMem, ih⟩

/-- What is closed under the links holds of a whole chain. -/
theorem Chain.all {P : α → Prop} (h : Chain link x l) (hx : ∀ a, x = some a → P a)
    (hlink : ∀ a b, link a = some b → P b) : ∀ a ∈ l, P a := by
  induction h with
  | nil => exact nofun
  | cons h ih =>
    intro a ha
    rcases List.mem_cons.mp ha with rfl | ha
    · exact hx a rfl
    · exact ih (hlink _) a ha

theorem Chain.length_le {link : ℕ → Option ℕ} {x : Option ℕ} {l : List ℕ} (h : Chain link x l)
    (hlt : ∀ a ∈ l, a < n) : l.length ≤ n := by
  have hsub : l ⊆ List.range n := fun a ha => List.mem_range.mpr (hlt a ha)
  simpa using (h.nodup.subperm hsub).length_le

section Search

variable [DecidableEq α]

/-- Does the chain from `a` on visit `p`? The first argument bounds the nodes looked at. -/
def meets (link : α → Option α) (p : α) : ℕ → α → Option Bool
  | 0, _ => none
  | n + 1, a =>
    if a = p then some true
    else match link a with
      | none => some false
      | some b => meets link p n b

/-- With enough fuel the search comes to an end and is right. -/
theorem Chain.meets : ∀ {n : ℕ} {a : α} {l : List α}, Chain link (some a) l → l.length ≤ n →
    meets link p n a = some (decide (p ∈ l))
  | 0, _, _, .cons _, hlen => absurd hlen (Nat.not_succ_le_zero _)
  | n + 1, a, _, .cons (l := l) h, hlen => by
    rw [Links.meets]
    split
    · rename_i heq
      simp [heq]
    · rename_i hne
      cases hlink : link a with
      | none =>
        rw [hlink] at h
        cases h
        simp [Ne.symm hne]
      | some b =>
        rw [hlink] at h
        simp only [h.meets (Nat.le_of_succ_le_succ hlen), List.mem_cons, Ne.symm hne, false_or]

/-- A chain that does not meet `p` does not notice that the link of `p` changes. -/
theorem Chain.update_of_notMem (h : Chain link x l) (hp : p ∉ l) (y : Option α) :
    Chain (Function.update link p y) x l := by
  induction h with
  | nil => exact .nil
  | @cons a l h ih =>
    obtain ⟨hne, hp⟩ := not_or.mp (mt List.mem_cons.mpr hp)
    refine .cons ?_
    rw [Function.update_of_ne (Ne.symm hne)]
    exact ih hp

/-- **A link may be changed** to a chain that does not lead back. -/
theorem Chain.update (h : Chain link x l) (hy : Chain link y l') (hp : p ∉ l') :
    ∃ l'', Chain (Function.update link p y) x l'' := by
  induction h with
  | nil => exact ⟨_, .nil⟩
  | @cons a l h ih =>
    rcases eq_or_ne a p with rfl | hne
    · have hrest : Chain (Function.update link a y) (Function.update link a y a) l' := by
        rw [Function.update_self]
        exact hy.update_of_notMem hp y
      exact ⟨_, .cons hrest⟩
    · obtain ⟨l'', h''⟩ := ih
      have hrest : Chain (Function.update link p y) (Function.update link p y a) l'' := by
        rw [Function.update_of_ne hne]
        exact h''
      exact ⟨_, .cons hrest⟩

end Search

end QuickJs.Links
