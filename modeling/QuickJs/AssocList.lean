import Mathlib.Data.List.Basic

/-!
# Insertion-ordered association lists

Keys are compared by an equivalence, not by equality: an insertion under a key that
is the same as a key of the list replaces the value and keeps the place and the key.
-/

namespace QuickJs.AssocList

universe u v

variable {κ : Type u} {ν : Type v} (same : κ → κ → Bool)

/-- Whether the list has an entry for the key. -/
def contains (es : List (κ × ν)) (k : κ) : Bool := es.any fun e => same e.1 k

/-- The value under a key. -/
def lookup (es : List (κ × ν)) (k : κ) : Option ν := (es.find? fun e => same e.1 k).map Prod.snd

/-- Replace the value under a key. -/
def replace (es : List (κ × ν)) (k : κ) (v : ν) : List (κ × ν) :=
  es.map fun e => if same e.1 k then (e.1, v) else e

/-- Remove the entry for a key. -/
def erase (es : List (κ × ν)) (k : κ) : List (κ × ν) := es.filter fun e => !same e.1 k

/-- There is at most one entry for every key. -/
def Distinct (es : List (κ × ν)) : Prop := es.Pairwise fun e e' => same e.1 e'.1 = false

variable {same} {es : List (κ × ν)} {e : κ × ν} {k : κ} {v : ν}

theorem contains_eq_isSome : contains same es k = (es.find? fun e => same e.1 k).isSome := by
  rw [contains, Bool.eq_iff_iff, List.any_eq_true, List.find?_isSome]

theorem Distinct.replace (h : Distinct same es) : Distinct same (replace same es k v) := by
  have hfst : ∀ e : κ × ν, (if same e.1 k then (e.1, v) else e).1 = e.1 := by
    intro e
    split <;> rfl
  refine List.pairwise_map.mpr (h.imp fun hne => ?_)
  rwa [hfst, hfst]

theorem Distinct.concat (h : Distinct same es) (hk : contains same es k = false) :
    Distinct same (es ++ [(k, v)]) := by
  refine List.pairwise_append.mpr ⟨h, List.pairwise_singleton .., fun e he e' he' => ?_⟩
  rw [List.mem_singleton.mp he']
  exact Bool.eq_false_iff.mpr fun hsame =>
    Bool.eq_false_iff.mp hk (List.any_eq_true.mpr ⟨e, he, hsame⟩)

theorem Distinct.erase (h : Distinct same es) : Distinct same (erase same es k) :=
  h.sublist List.filter_sublist

end QuickJs.AssocList
