import Mathlib.Data.List.Nodup

/-!
# Cursor loops over intrusive lists

C code walks a doubly linked list with a cursor: it looks at one node, runs a
body that may itself relink nodes, and then follows a `next` pointer. Two
idioms differ only in *when* the pointer is read:

* `forEach` reads it after the body, so nodes appended at the tail are visited;
* `forEachSafe` reads it before the body, so the visited node may unlink itself.

A list is represented by the sequence of its nodes, read off the current state
by `nodes : σ → List α`. Both loops take a step budget; the rules below say that
a budget of the number of nodes is enough and that an invariant indexed by the
nodes already visited survives the whole loop.
-/

namespace QuickJs.LinkedList

universe u v

variable {α : Type u} {σ : Type v} [DecidableEq α]

/-- The node after `x`, or `none` when `x` is the last node. -/
def nextOf : List α → α → Option α
  | [], _ => none
  | y :: l, x => if y = x then l.head? else nextOf l x

@[simp] theorem nextOf_cons_self (x : α) (l : List α) : nextOf (x :: l) x = l.head? := by
  simp [nextOf]

theorem nextOf_append {pre : List α} {x : α} (rest : List α) (hx : x ∉ pre) :
    nextOf (pre ++ x :: rest) x = rest.head? := by
  induction pre with
  | nil => exact nextOf_cons_self x rest
  | cons y pre ih =>
    have hy : y ≠ x := fun h => hx (h ▸ List.mem_cons_self ..)
    have hpre : x ∉ pre := fun h => hx (List.mem_cons_of_mem _ h)
    simp only [List.cons_append, nextOf, if_neg hy]
    exact ih hpre

/-- The cursor loop that reads the `next` pointer after the body. -/
def forEach (nodes : σ → List α) (body : σ → α → σ) : Nat → Option α → σ → σ
  | _, none, s => s
  | 0, some _, s => s
  | n + 1, some x, s => forEach nodes body n (nextOf (nodes (body s x)) x) (body s x)

/-- The cursor loop that reads the `next` pointer before the body. -/
def forEachSafe (nodes : σ → List α) (body : σ → α → σ) : Nat → Option α → σ → σ
  | _, none, s => s
  | 0, some _, s => s
  | n + 1, some x, s => forEachSafe nodes body n (nextOf (nodes s) x) (body s x)

variable (nodes : σ → List α) (body : σ → α → σ) {I : List α → σ → Prop}

/-- Rule for `forEachSafe`: the body may unlink any node it has already seen,
itself included, but must leave the unseen tail in place. -/
theorem forEachSafe_rule (hstep : ∀ seen x rest kept s, I seen s → nodes s = kept ++ x :: rest →
      (seen ++ x :: rest).Nodup → (∀ y ∈ kept, y ∈ seen) →
      I (seen ++ [x]) (body s x) ∧
        ∃ kept', (∀ y ∈ kept', y ∈ seen ++ [x]) ∧ nodes (body s x) = kept' ++ rest) :
    ∀ (rest seen kept : List α) (n : Nat) (s : σ), I seen s → nodes s = kept ++ rest →
      (seen ++ rest).Nodup → (∀ y ∈ kept, y ∈ seen) → rest.length ≤ n →
      I (seen ++ rest) (forEachSafe nodes body n rest.head? s) := by
  intro rest
  induction rest with
  | nil =>
    intro seen kept n s hI _ _ _ _
    rw [List.append_nil]
    cases n <;> exact hI
  | cons x rest ih =>
    intro seen kept n s hI hnodes hnd hkept hlen
    obtain ⟨m, rfl⟩ : ∃ m, n = m + 1 := ⟨n - 1, by simp at hlen; omega⟩
    obtain ⟨hI', kept', hkept', hnodes'⟩ := hstep seen x rest kept s hI hnodes hnd hkept
    have hx : x ∉ kept := by
      intro hx
      exact (List.disjoint_of_nodup_append hnd) (hkept x hx) (List.mem_cons_self ..)
    have hnext : nextOf (nodes s) x = rest.head? := by
      rw [hnodes]
      exact nextOf_append rest hx
    have hsplit : seen ++ x :: rest = (seen ++ [x]) ++ rest := by simp
    rw [hsplit] at hnd ⊢
    simp only [List.head?_cons, forEachSafe, hnext]
    exact ih (seen ++ [x]) kept' m (body s x) hI' hnodes' hnd hkept'
      (by simp at hlen; omega)

/-- Rule for `forEach`: the body may append fresh nodes at the tail. The list
never has more than `bound` nodes, so the loop comes to its end, and then every
node of the final list has been visited. -/
theorem forEach_rule (bound : Nat) (hstep : ∀ done x rest s, I done s → nodes s = done ++ x :: rest →
      I (done ++ [x]) (body s x) ∧ ∃ rest', nodes (body s x) = done ++ x :: rest')
    (hnd : ∀ done s, I done s → (nodes s).Nodup)
    (hbound : ∀ done s, I done s → (nodes s).length ≤ bound) :
    ∀ (n : Nat) (done rest : List α) (s : σ), I done s → nodes s = done ++ rest → bound ≤ done.length + n →
      I (nodes (forEach nodes body n rest.head? s)) (forEach nodes body n rest.head? s) := by
  intro n
  induction n with
  | zero =>
    intro done rest s hI hnodes hn
    have hrest : rest = [] := by
      have hlen := hbound done s hI
      rw [hnodes, List.length_append] at hlen
      exact List.eq_nil_of_length_eq_zero (by omega)
    subst hrest
    rw [List.append_nil] at hnodes
    simpa only [List.head?_nil, forEach, hnodes] using hI
  | succ m ih =>
    intro done rest s hI hnodes hn
    cases rest with
    | nil =>
      rw [List.append_nil] at hnodes
      simpa only [List.head?_nil, forEach, hnodes] using hI
    | cons x rest =>
      obtain ⟨hI', rest', hnodes'⟩ := hstep done x rest s hI hnodes
      have hx : x ∉ done := by
        have hnd' := hnd _ _ hI'
        rw [hnodes'] at hnd'
        exact fun hx => (List.disjoint_of_nodup_append hnd') hx (List.mem_cons_self ..)
      have hnext : nextOf (nodes (body s x)) x = rest'.head? := by
        rw [hnodes']
        exact nextOf_append rest' hx
      simp only [List.head?_cons, forEach, hnext]
      exact ih (done ++ [x]) rest' (body s x) hI' (by simpa using hnodes')
        (by simp; omega)

end QuickJs.LinkedList
