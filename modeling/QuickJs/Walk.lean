import Mathlib.Data.Finset.Card

/-!
# Walks that compare what they find

A walk goes through a graph whose nodes end in a value, lead on to one other node, or fork into
several, and enters no node twice. At a fork it compares the values found behind the branches by a
key: it gives up when two of them differ, and keeps the first one otherwise. `ends` is the same walk
without the comparison: the values at the end of its paths, in order.

`walk_judges` says that the verdict of a walk is the verdict about its ends, and `mem_ends_iff` that
these are the values of the nodes that can be reached.
-/

namespace QuickJs.Walk

universe u v w

variable {α : Type u} {ν : Type v} {κ : Type w}

/-- Where the paths go from a node. -/
inductive Node (α : Type u) (ν : Type v)
  /-- they end here -/
  | leaf (a : α)
  /-- to another node -/
  | via (y : ν)
  /-- into several -/
  | fork (ys : List ν)

/-- What a walk has found. -/
inductive Verdict (α : Type u)
  | found (a : α)
  | notFound
  /-- the node had been entered before -/
  | circular
  | ambiguous
  deriving DecidableEq

/-- The next nodes. -/
def Node.next : Node α ν → List ν
  | .leaf _ => []
  | .via y => [y]
  | .fork ys => ys

section Walk

variable [DecidableEq ν] [DecidableEq κ] (node : ν → Node α ν) (key : α → κ)

/-- The branches of a fork, with what was found behind those before. -/
def walkFork (f : List ν → ν → Option (Verdict α × List ν)) :
    List ν → Option α → List ν → Option (Verdict α × List ν)
  | [], found, s => some (found.elim .notFound .found, s)
  | y :: ys, found, s =>
    match f s y with
    | none => none
    | some (.ambiguous, s) => some (.ambiguous, s)
    | some (.found a, s) =>
      match found with
      | some b => if key a ≠ key b then some (.ambiguous, s) else walkFork f ys (some b) s
      | none => walkFork f ys (some a) s
    | some (_, s) => walkFork f ys found s

/-- The walk from a node, with the nodes that have been entered. A bound on the depth replaces the
termination argument. -/
def walk : ℕ → List ν → ν → Option (Verdict α × List ν)
  | 0, _, _ => none
  | n + 1, s, x =>
    if x ∈ s then some (.circular, s) else
      match node x with
      | .leaf a => some (.found a, s ++ [x])
      | .via y => walk n (s ++ [x]) y
      | .fork ys => walkFork key (walk n) ys none (s ++ [x])

/-- The ends behind the branches of a fork. -/
def endsFork (f : List ν → ν → Option (List α × List ν)) :
    List ν → List ν → Option (List α × List ν)
  | [], s => some ([], s)
  | y :: ys, s =>
    match f s y with
    | none => none
    | some (l, s) => (endsFork f ys s).map fun r => (l ++ r.1, r.2)

/-- The values at the ends of the paths from a node. -/
def ends : ℕ → List ν → ν → Option (List α × List ν)
  | 0, _, _ => none
  | n + 1, s, x =>
    if x ∈ s then some ([], s) else
      match node x with
      | .leaf a => some ([a], s ++ [x])
      | .via y => ends n (s ++ [x]) y
      | .fork ys => endsFork (ends n) ys (s ++ [x])

end Walk

/-! ## The verdict about the ends -/

/-- All values of a list have the same key. -/
def Same (key : α → κ) (l : List α) : Prop := ∀ a ∈ l, ∀ b ∈ l, key a = key b

/-- The verdict is right about a list: it is the first value if all have the same key. -/
def Judges (key : α → κ) : Verdict α → List α → Prop
  | .found a, l => l.head? = some a ∧ Same key l
  | .notFound, l => l = []
  | .circular, l => l = []
  | .ambiguous, l => ¬ Same key l

variable {node : ν → Node α ν} {key : α → κ} {l l' : List α} {a : α} {s s' ys : List ν} {x y : ν}
  {n : ℕ}

theorem Same.of_append_left (h : Same key (l ++ l')) : Same key l :=
  fun a ha b hb => h a (List.mem_append_left _ ha) b (List.mem_append_left _ hb)

theorem Same.of_append_right (h : Same key (l ++ l')) : Same key l' :=
  fun a ha b hb => h a (List.mem_append_right _ ha) b (List.mem_append_right _ hb)

theorem same_singleton : Same key [a] := by
  intro b hb c hc
  rw [List.mem_singleton.mp hb, List.mem_singleton.mp hc]

variable {b : α} {f : List ν → ν → Option (List α × List ν)}

/-- The values with the key of the first are the same. -/
theorem Same.append (h : Same key l) (h' : Same key l') (ha : l.head? = some a)
    (hb : l'.head? = some b) (hab : key b = key a) : Same key (l ++ l') := by
  have hkey : ∀ c ∈ l ++ l', key c = key a := by
    intro c hc
    rcases List.mem_append.mp hc with hc | hc
    · exact h c hc a (List.mem_of_mem_head? ha)
    · exact (h' c hc b (List.mem_of_mem_head? hb)).trans hab
  intro c hc d hd
  rw [hkey c hc, hkey d hd]

theorem not_same_of_key_ne (ha : l.head? = some a) (hb : l'.head? = some b)
    (hab : key b ≠ key a) : ¬ Same key (l ++ l') := by
  intro h
  exact hab (h b (List.mem_append_right _ (List.mem_of_mem_head? hb)) a
    (List.mem_append_left _ (List.mem_of_mem_head? ha)))

/-- What was found behind the first branches of a fork is about their ends. -/
def Holds (key : α → κ) (found : Option α) (l : List α) : Prop :=
  match found with
  | some a => l.head? = some a ∧ Same key l
  | none => l = []

theorem walkFork_judges [DecidableEq κ] {f : List ν → ν → Option (Verdict α × List ν)}
    {f' : List ν → ν → Option (List α × List ν)}
    (hf : ∀ s y l s', f' s y = some (l, s') → ∃ r t, f s y = some (r, t) ∧ Judges key r l ∧
      (r ≠ .ambiguous → t = s')) {found : Option α} (hl : Holds key found l)
    (h : endsFork f' ys s = some (l', s')) :
    ∃ r t, walkFork key f ys found s = some (r, t) ∧ Judges key r (l ++ l') ∧ (r ≠ .ambiguous → t = s') := by
  induction ys generalizing s found l l' with
  | nil =>
    cases h
    refine ⟨_, _, rfl, ?_, fun _ => rfl⟩
    rw [List.append_nil]
    cases found <;> exact hl
  | cons y ys ih =>
    rw [endsFork] at h
    cases hy : f' s y with
    | none =>
      rw [hy] at h
      cases h
    | some p =>
      obtain ⟨l₁, s₁⟩ := p
      rw [hy] at h
      obtain ⟨⟨l₂, s₂⟩, h₂, heq⟩ := Option.map_eq_some_iff.mp h
      cases heq
      obtain ⟨r, t, hr, hj, ht⟩ := hf s y l₁ s₁ hy
      rw [walkFork, hr, ← List.append_assoc]
      cases r with
      | ambiguous => exact ⟨_, _, rfl, fun h => hj h.of_append_left.of_append_right, nofun⟩
      | notFound | circular =>
        obtain rfl := ht nofun
        cases hj
        rw [List.append_nil]
        exact ih hl h₂
      | found a =>
        obtain rfl := ht nofun
        cases found with
        | none =>
          cases hl
          exact ih (l := l₁) hj h₂
        | some b =>
          simp only
          split
          · rename_i hab
            exact ⟨_, _, rfl, fun h => not_same_of_key_ne hl.1 hj.1 hab h.of_append_left, nofun⟩
          · rename_i hab
            refine ih (l := l ++ l₁) ⟨?_, ?_⟩ h₂
            · rw [List.head?_append, hl.1]
              rfl
            · exact hl.2.append hj.2 hl.1 hj.1 (Decidable.not_not.mp hab)

/-- The verdict of the walk is right about its ends. -/
theorem walk_judges [DecidableEq ν] [DecidableEq κ] (key : α → κ) (h : ends node n s x = some (l, s')) :
    ∃ r t, walk node key n s x = some (r, t) ∧ Judges key r l ∧ (r ≠ .ambiguous → t = s') := by
  induction n generalizing s x l s' with
  | zero => cases h
  | succ n ih =>
    rw [ends] at h
    rw [walk]
    by_cases hxs : x ∈ s
    · rw [if_pos hxs] at h
      rw [if_pos hxs]
      cases h
      exact ⟨.circular, s, rfl, rfl, fun _ => rfl⟩
    · rw [if_neg hxs] at h
      rw [if_neg hxs]
      cases hx : node x with
      | leaf a =>
        rw [hx] at h
        cases h
        exact ⟨.found a, s ++ [x], rfl, ⟨rfl, same_singleton⟩, fun _ => rfl⟩
      | via y =>
        rw [hx] at h
        exact ih h
      | fork ys =>
        rw [hx] at h
        exact walkFork_judges (l := []) (fun _ _ _ _ => ih) rfl h

/-! ## The nodes that are entered -/

/-- What a walk from some nodes has entered and found: all that it enters is reached, and all that
comes next is entered. -/
structure Explores (node : ν → Node α ν) (xs s s' : List ν) (l : List α) : Prop where
  mono : s ⊆ s'
  start : xs ⊆ s'
  reach : ∀ y ∈ s', y ∉ s → ∃ x ∈ xs, Relation.ReflTransGen (fun x y => y ∈ (node x).next) x y
  closed : ∀ y ∈ s', y ∉ s → (node y).next ⊆ s'
  found : ∀ a, a ∈ l ↔ ∃ y ∈ s', y ∉ s ∧ node y = .leaf a

theorem Explores.nil : Explores node [] s s [] where
  mono := List.Subset.refl _
  start := List.nil_subset _
  reach _ hy hn := absurd hy hn
  closed _ hy hn := absurd hy hn
  found _ := iff_of_false List.not_mem_nil fun ⟨_, hy, hn, _⟩ => hn hy

theorem Explores.append {xs xs' t : List ν} (h : Explores node xs s t l)
    (h' : Explores node xs' t s' l') : Explores node (xs ++ xs') s s' (l ++ l') where
  mono := List.Subset.trans h.mono h'.mono
  start := List.append_subset.mpr ⟨List.Subset.trans h.start h'.mono, h'.start⟩
  reach y hy hn := by
    by_cases hyt : y ∈ t
    · obtain ⟨x, hx, hxy⟩ := h.reach y hyt hn
      exact ⟨x, List.mem_append_left _ hx, hxy⟩
    · obtain ⟨x, hx, hxy⟩ := h'.reach y hy hyt
      exact ⟨x, List.mem_append_right _ hx, hxy⟩
  closed y hy hn := by
    by_cases hyt : y ∈ t
    · exact List.Subset.trans (h.closed y hyt hn) h'.mono
    · exact h'.closed y hy hyt
  found a := by
    rw [List.mem_append, h.found, h'.found]
    constructor
    · rintro (⟨y, hy, hn, hl⟩ | ⟨y, hy, hn, hl⟩)
      · exact ⟨y, h'.mono hy, hn, hl⟩
      · exact ⟨y, hy, fun hs => hn (h.mono hs), hl⟩
    · rintro ⟨y, hy, hn, hl⟩
      by_cases hyt : y ∈ t
      · exact .inl ⟨y, hyt, hn, hl⟩
      · exact .inr ⟨y, hy, hyt, hl⟩

/-- A node is entered, and then what comes next. -/
theorem Explores.enter (hleaf : ∀ a, node x ≠ .leaf a)
    (h : Explores node (node x).next (s ++ [x]) s' l) : Explores node [x] s s' l where
  mono := fun y hy => h.mono (List.mem_append_left _ hy)
  start := fun y hy => h.mono (List.mem_append_right _ hy)
  reach y hy hn := by
    refine ⟨x, .head _, ?_⟩
    by_cases hyx : y = x
    · rw [hyx]
    · obtain ⟨z, hz, hzy⟩ := h.reach y hy (by simp [hn, hyx])
      exact .head hz hzy
  closed y hy hn := by
    by_cases hyx : y = x
    · rw [hyx]
      exact h.start
    · exact h.closed y hy (by simp [hn, hyx])
  found a := by
    rw [h.found]
    refine exists_congr fun y => and_congr_right fun hy => ?_
    constructor
    · exact fun ⟨hn, hl⟩ => ⟨fun hs => hn (List.mem_append_left _ hs), hl⟩
    · rintro ⟨hn, hl⟩
      refine ⟨fun hs => ?_, hl⟩
      rcases List.mem_append.mp hs with hs | hs
      · exact hn hs
      · rw [List.mem_singleton.mp hs] at hl
        exact hleaf a hl

theorem Explores.leaf (hx : x ∉ s) (ha : node x = .leaf a) : Explores node [x] s (s ++ [x]) [a] where
  mono := List.subset_append_left _ _
  start := List.subset_append_right _ _
  reach y hy hn := by
    rcases List.mem_append.mp hy with hy | hy
    · exact absurd hy hn
    · exact ⟨x, .head _, List.mem_singleton.mp hy ▸ .refl⟩
  closed y hy hn := by
    rcases List.mem_append.mp hy with hy | hy
    · exact absurd hy hn
    · rw [List.mem_singleton.mp hy, ha]
      exact List.nil_subset _
  found b := by
    rw [List.mem_singleton]
    constructor
    · rintro rfl
      exact ⟨x, List.mem_append_right _ (.head _), hx, ha⟩
    · rintro ⟨y, hy, hn, hl⟩
      rcases List.mem_append.mp hy with hy | hy
      · exact absurd hy hn
      · rw [List.mem_singleton.mp hy, ha] at hl
        exact (Node.leaf.inj hl).symm

theorem Explores.again (hx : x ∈ s) : Explores node [x] s s [] :=
  { Explores.nil with start := fun _ hy => List.mem_singleton.mp hy ▸ hx
                      reach := fun _ hy hn => absurd hy hn }

theorem endsFork_explores
    (hf : ∀ s y l s', f s y = some (l, s') → Explores node [y] s s' l)
    (h : endsFork f ys s = some (l, s')) : Explores node ys s s' l := by
  induction ys generalizing s l with
  | nil =>
    cases h
    exact .nil
  | cons y ys ih =>
    rw [endsFork] at h
    cases hy : f s y with
    | none =>
      rw [hy] at h
      cases h
    | some p =>
      obtain ⟨l₁, s₁⟩ := p
      rw [hy] at h
      obtain ⟨⟨l₂, s₂⟩, h₂, heq⟩ := Option.map_eq_some_iff.mp h
      cases heq
      exact (hf s y l₁ s₁ hy).append (ih h₂)

theorem ends_explores [DecidableEq ν] (h : ends node n s x = some (l, s')) : Explores node [x] s s' l := by
  induction n generalizing s x l s' with
  | zero => cases h
  | succ n ih =>
    rw [ends] at h
    split at h
    · cases h
      exact .again ‹_›
    · rename_i hx
      cases hnode : node x with
      | leaf a =>
        rw [hnode] at h
        cases h
        exact .leaf hx hnode
      | via y =>
        rw [hnode] at h
        refine .enter (fun a => by rw [hnode]; nofun) ?_
        rw [hnode]
        exact ih h
      | fork ys =>
        rw [hnode] at h
        refine .enter (fun a => by rw [hnode]; nofun) ?_
        rw [hnode]
        exact endsFork_explores (fun _ _ _ _ => ih) h

/-- The ends of a walk are the values of the nodes that can be reached. -/
theorem mem_ends_iff [DecidableEq ν] (h : ends node n [] x = some (l, s')) (a : α) :
    a ∈ l ↔ ∃ y, Relation.ReflTransGen (fun x y => y ∈ (node x).next) x y ∧ node y = .leaf a := by
  have he := ends_explores h
  have hall : ∀ y, Relation.ReflTransGen (fun x y => y ∈ (node x).next) x y → y ∈ s' := by
    intro y hy
    induction hy with
    | refl => exact he.start (.head _)
    | tail _ hyz ih => exact he.closed _ ih List.not_mem_nil hyz
  rw [he.found]
  constructor
  · rintro ⟨y, hy, hn, hl⟩
    obtain ⟨z, hz, hzy⟩ := he.reach y hy hn
    exact ⟨y, List.mem_singleton.mp hz ▸ hzy, hl⟩
  · rintro ⟨y, hy, hl⟩
    exact ⟨y, hall y hy, List.not_mem_nil, hl⟩

/-! ## The bound -/

variable [DecidableEq ν] {N : Finset ν}

/-- The nodes that have not been entered. -/
def left (N : Finset ν) (s : List ν) : ℕ := (N.filter (· ∉ s)).card

theorem left_mono (h : s ⊆ s') : left N s' ≤ left N s :=
  Finset.card_le_card fun y hy => by
    rw [Finset.mem_filter] at *
    exact ⟨hy.1, fun hs => hy.2 (h hs)⟩

theorem left_enter (hxN : x ∈ N) (hx : x ∉ s) : left N (s ++ [x]) < left N s := by
  refine Finset.card_lt_card ⟨fun y hy => ?_, fun h => ?_⟩
  · rw [Finset.mem_filter] at *
    exact ⟨hy.1, fun hs => hy.2 (List.mem_append_left _ hs)⟩
  · have := h (Finset.mem_filter.mpr ⟨hxN, hx⟩)
    exact (Finset.mem_filter.mp this).2 (List.mem_append_right _ (.head _))

theorem endsFork_isSome (hys : ∀ y ∈ ys, y ∈ N)
    (hf : ∀ s y, y ∈ N → left N s < n → ∃ l s', f s y = some (l, s') ∧ s ⊆ s')
    (hs : left N s < n) : ∃ l s', endsFork f ys s = some (l, s') ∧ s ⊆ s' := by
  induction ys generalizing s with
  | nil => exact ⟨_, _, rfl, List.Subset.refl _⟩
  | cons y ys ih =>
    rw [List.forall_mem_cons] at hys
    obtain ⟨l₁, s₁, h₁, hsub⟩ := hf s y hys.1 hs
    obtain ⟨l₂, s₂, h₂, hsub'⟩ := ih hys.2 (Nat.lt_of_le_of_lt (left_mono hsub) hs)
    refine ⟨l₁ ++ l₂, s₂, ?_, List.Subset.trans hsub hsub'⟩
    rw [endsFork, h₁]
    simp only [h₂, Option.map_some]

/-- A walk in a finite set of nodes is at its end after as many steps as there are nodes. -/
theorem ends_isSome (hN : ∀ y ∈ N, ∀ z ∈ (node y).next, z ∈ N) (hx : x ∈ N)
    (hs : left N s < n) : ∃ l s', ends node n s x = some (l, s') ∧ s ⊆ s' := by
  induction n generalizing s x with
  | zero => exact absurd hs (Nat.not_lt_zero _)
  | succ n ih =>
    rw [ends]
    split
    · exact ⟨_, _, rfl, List.Subset.refl _⟩
    · rename_i hxs
      have hlt : left N (s ++ [x]) < n := by
        have := left_enter hx hxs
        omega
      have hnext := hN x hx
      cases hnode : node x with
      | leaf a => exact ⟨_, _, rfl, List.subset_append_left _ _⟩
      | via y =>
        rw [hnode] at hnext
        obtain ⟨l, s', h, hsub⟩ := ih (hnext y (.head _)) hlt
        exact ⟨l, s', h, List.Subset.trans (List.subset_append_left _ _) hsub⟩
      | fork ys =>
        rw [hnode] at hnext
        obtain ⟨l, s', h, hsub⟩ := endsFork_isSome (f := ends node n) hnext
          (fun _ _ hy hs => ih hy hs) hlt
        exact ⟨l, s', h, List.Subset.trans (List.subset_append_left _ _) hsub⟩

end QuickJs.Walk
