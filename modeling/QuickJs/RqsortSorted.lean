import QuickJs.RqsortSegment

/-!
# `rqsort` sorts

The partition leaves the elements that are not above the pivot before those that are equal to it, and
these before those that are not below it. The main loop keeps the stack of segments disjoint, and two
elements that are not in order lie in one of them.
-/

namespace QuickJs.Rqsort

open Exchange

variable {ε M : Type} {cmp : Cmp ε M} {le : ε → ε → Prop} {S : ε → Prop} {I : M → Prop}
  {base n : ℕ} {s : Memory ε M} {v : ε}

/-! ## The partition -/

/-- Equal in the order. -/
def Equal (le : ε → ε → Prop) (x y : ε) : Prop := le x y ∧ le y x

/-- The four parts of the segment, those above the pivot beginning after `j`. -/
structure Scan.Parts (le : ε → ε → Prop) (base n : ℕ) (v : ε) (after : ℕ) (p : Scan ε M) :
    Prop where
  pivot : p.mem.elem base = v
  low : ∀ x, x < p.lt → Equal le (p.mem.elem (base + x)) v
  below : ∀ x, p.lt ≤ x → x < p.i → le (p.mem.elem (base + x)) v
  above : ∀ x, after ≤ x → x < p.gt → le v (p.mem.elem (base + x))
  high : ∀ x, p.gt ≤ x → x < n → Equal le (p.mem.elem (base + x)) v

variable {p : Scan ε M} {seg : Segment} {stack : List Segment}

theorem scanUp_parts (h : Agrees cmp le S I) (hp : p.Ok n) (hs : Sound S I p.mem)
    (hv : p.Parts le base n v p.j) :
    (scanUp cmp base p).Parts le base n v p.j ∧ ((scanUp cmp base p).i < p.j →
        le v ((scanUp cmp base p).mem.elem (base + (scanUp cmp base p).i))) := by
  fun_induction scanUp cmp base p with
  | case1 p hij c hc h0 ih =>
    -- an element that is equal to the pivot
    have hlt := hp.pivot
    have hle := hp.lt_le
    have hj := hp.j_le
    have heq : Equal le (p.mem.elem (base + p.i)) v := by
      rw [← hv.pivot]
      exact ⟨(h.nonneg_iff hs).mp hc, (h.nonpos_iff hs).mp (Int.le_of_eq h0)⟩
    refine ih ⟨Nat.succ_pos _, Nat.succ_le_succ hp.lt_le, hij, hp.j_le, hp.gt_le⟩
      ((hs.compare h _ _).swap _ _) ⟨?_, fun x hx => ?_, fun x hx hxi => ?_, fun x hx hxg => ?_,
        fun x hx hxn => ?_⟩
    · rw [swap_elem, if_neg (by omega), if_neg (by omega)]
      exact hv.pivot
    · dsimp only at hx ⊢
      rw [swap_elem_add]
      split
      · exact heq
      · rw [if_neg (by omega)]
        exact hv.low x (by omega)
    · dsimp only at hx hxi ⊢
      rw [swap_elem_add, if_neg (by omega)]
      split
      · exact hv.below _ (Nat.le_refl _) (by omega)
      · exact hv.below x (by omega) (by omega)
    · dsimp only at hx hxg ⊢
      rw [swap_elem_add, if_neg (by omega), if_neg (by omega)]
      exact hv.above x hx hxg
    · dsimp only at hx hxn ⊢
      rw [swap_elem_add, if_neg (by omega), if_neg (by omega)]
      exact hv.high x hx hxn
  | case2 p hij c hc h0 ih =>
    -- a smaller element
    have hsmall : le (p.mem.elem (base + p.i)) v := by
      rw [← hv.pivot]
      exact (h.nonneg_iff hs).mp hc
    refine ih ⟨hp.pivot, Nat.le_succ_of_le hp.lt_le, hij, hp.j_le, hp.gt_le⟩ (hs.compare h _ _)
      ⟨hv.pivot, hv.low, fun x hx hxi => ?_, hv.above, hv.high⟩
    dsimp only at hx hxi
    by_cases hx' : x = p.i
    · rw [hx']
      exact hsmall
    · exact hv.below x hx (by omega)
  | case3 p hij c hc =>
    refine ⟨⟨hv.pivot, hv.low, hv.below, hv.above, hv.high⟩, fun _ => ?_⟩
    have hgreat := (h.nonpos_iff hs).mp (Int.le_of_lt (Int.not_le.mp hc))
    rwa [hv.pivot] at hgreat
  | case4 p hij => exact ⟨hv, fun hlt => absurd hlt hij⟩

/-- What the second inner loop leaves: the element at `i` is not below the pivot and the one at `j`
not above it. -/
structure Scan.Stopped (le : ε → ε → Prop) (base n : ℕ) (v : ε) (p : Scan ε M) : Prop where
  parts : p.Parts le base n v (p.j + 1)
  left : p.i ≤ p.j → le v (p.mem.elem (base + p.i))
  right : p.i < p.j → le (p.mem.elem (base + p.j)) v

theorem scanDown_stopped (h : Agrees cmp le S I) {i lt : ℕ} (j gt : ℕ) (s : Memory ε M)
    (hlt : 0 < lt) (hi : lt ≤ i) (hij : i ≤ j) (hj : j ≤ gt) (hs : Sound S I s)
    (hv : (⟨i, lt, j, gt, s⟩ : Scan ε M).Parts le base n v j)
    (hleft : i < j → le v (s.elem (base + i))) :
    (scanDown cmp base i lt j gt s).Stopped le base n v := by
  fun_induction scanDown cmp base i lt j gt s with
  | case1 => omega
  | case2 j gt s hij' c hc h0 ih =>
    -- an element that is equal to the pivot
    have heq : Equal le (s.elem (base + j)) v := by
      rw [← hv.pivot]
      exact ⟨(h.nonneg_iff hs).mp (Int.le_of_eq h0.symm), (h.nonpos_iff hs).mp hc⟩
    refine ih (by omega) (by omega) ((hs.compare h _ _).swap _ _)
      ⟨?_, fun x hx => ?_, fun x hx hxi => ?_, fun x hx hxg => ?_, fun x hx hxn => ?_⟩ fun hlt' => ?_
    · rw [swap_elem, if_neg (by omega), if_neg (by omega)]
      exact hv.pivot
    · dsimp only at hx ⊢
      rw [swap_elem_add, if_neg (by omega), if_neg (by omega)]
      exact hv.low x hx
    · dsimp only at hx hxi ⊢
      rw [swap_elem_add, if_neg (by omega), if_neg (by omega)]
      exact hv.below x hx hxi
    · dsimp only at hx hxg ⊢
      rw [swap_elem_add, if_neg (by omega)]
      split
      · exact hv.above _ (by omega) (by dsimp only; omega)
      · exact hv.above x (by omega) (by dsimp only; omega)
    · dsimp only at hx hxn ⊢
      rw [swap_elem_add]
      split
      · exact heq
      · rw [if_neg (by omega)]
        exact hv.high x (by dsimp only; omega) hxn
    · rw [swap_elem_add, if_neg (by omega), if_neg (by omega)]
      exact hleft (by omega)
  | case3 j gt s hij' c hc h0 ih =>
    -- a greater element
    have hgreat : le v (s.elem (base + j)) := by
      rw [← hv.pivot]
      exact (h.nonpos_iff hs).mp hc
    refine ih (by omega) (by omega) (hs.compare h _ _)
      ⟨hv.pivot, hv.low, hv.below, fun x hx hxg => ?_, hv.high⟩ fun _ => hleft (by omega)
    by_cases hx' : x = j
    · rw [hx']
      exact hgreat
    · exact hv.above x (by omega) hxg
  | case4 j gt s hij' c hc =>
    refine ⟨⟨hv.pivot, hv.low, hv.below, hv.above, hv.high⟩, fun _ => hleft (by omega), fun _ => ?_⟩
    have hsmall := (h.nonneg_iff hs).mp (Int.le_of_lt (Int.not_le.mp hc))
    rwa [hv.pivot] at hsmall
  | case5 j gt s hij' =>
    exact ⟨⟨hv.pivot, hv.low, hv.below, hv.above, hv.high⟩, fun hle => hleft (by
      dsimp only at hle
      omega), fun hlt' => absurd hlt' hij'⟩

theorem scan_stopped (h : Agrees cmp le S I) (hp : p.Ok n) (hs : Sound S I p.mem)
    (hv : p.Parts le base n v p.j) : (scan cmp base p).Stopped le base n v := by
  obtain ⟨hparts, hstop⟩ := scanUp_parts h hp hs hv
  have hok := scanUp_ok cmp base hp
  rw [← scanUp_j cmp base p] at hparts hstop
  exact scanDown_stopped h _ _ _ hok.pivot hok.lt_le hok.i_le hok.j_le
    ((scanUp_steps hp).sound h hs) ⟨hparts.pivot, hparts.low, hparts.below, hparts.above, hparts.high⟩
    hstop

theorem partitionLoop_parts (h : Agrees cmp le S I) (hp : p.Ok n)
    (hs : Sound S I p.mem) (hv : p.Parts le base n v p.j) :
    (partitionLoop cmp base p).Parts le base n v (partitionLoop cmp base p).i := by
  fun_induction partitionLoop cmp base p with
  | case1 p q hq =>
    have hstop : q.Stopped le base n v := scan_stopped h hp hs hv
    refine ⟨hstop.parts.pivot, hstop.parts.low, hstop.parts.below, fun x hx hxg => ?_, hstop.parts.high⟩
    by_cases hxj : x = q.j
    · have hij : q.i = q.j := Nat.le_antisymm (hxj ▸ hx) hq
      rw [hxj, ← hij]
      exact hstop.left (Nat.le_of_eq hij)
    · exact hstop.parts.above x (by omega) hxg
  | case2 p q hq ih =>
    have hstop : q.Stopped le base n v := scan_stopped h hp hs hv
    have hd : q.Done n := scan_done hp
    have hlt := hd.pivot
    have hle := hd.lt_le
    have hj := hd.j_lt
    refine ih ⟨hd.pivot, Nat.le_succ_of_le hd.lt_le, Nat.succ_le_of_lt (Nat.lt_of_not_le hq),
      Nat.le_of_lt hd.j_lt, hd.gt_le⟩ (((scan_steps hp).sound h hs).swap _ _)
      ⟨?_, fun x hx => ?_, fun x hx hxi => ?_, fun x hx hxg => ?_, fun x hx hxn => ?_⟩
    · rw [swap_elem, if_neg (by omega), if_neg (by omega)]
      exact hstop.parts.pivot
    · dsimp only at hx ⊢
      rw [swap_elem_add, if_neg (by omega), if_neg (by omega)]
      exact hstop.parts.low x hx
    · dsimp only at hx hxi ⊢
      rw [swap_elem_add]
      split
      · exact hstop.right (by omega)
      · rw [if_neg (by omega)]
        exact hstop.parts.below x hx (by omega)
    · dsimp only at hx hxg ⊢
      rw [swap_elem_add, if_neg (by omega)]
      split
      · exact hstop.left (by omega)
      · exact hstop.parts.above x (by omega) hxg
    · dsimp only at hx hxn ⊢
      rw [swap_elem_add, if_neg (by omega), if_neg (by omega)]
      exact hstop.parts.high x hx hxn

/-- The segment after a cut: below `lt` nothing is above the pivot, from `gt` on nothing is below it,
and between them everything is equal to it. -/
structure Cut.Parts (le : ε → ε → Prop) (base n : ℕ) (v : ε) (c : Cut ε M) : Prop where
  below : ∀ x, x < c.lt → le (c.mem.elem (base + x)) v
  equal : ∀ x, c.lt ≤ x → x < c.gt → Equal le (c.mem.elem (base + x)) v
  above : ∀ x, c.gt ≤ x → x < n → le v (c.mem.elem (base + x))

/-- Where the elements come from when those that are equal to the pivot are moved. -/
theorem cut_elem (base : ℕ) (hd : p.Done n) (hji : p.j ≤ p.i) (x : ℕ) (hx : x < n) :
    ∃ y, (p.cut base n).mem.elem (base + x) = p.mem.elem (base + y) ∧ (x < p.i - p.lt → p.lt ≤ y ∧ y < p.i) ∧
      (p.i - p.lt ≤ x → x < n - (p.gt - p.i) → y < p.lt ∨ p.gt ≤ y ∧ y < n) ∧
      (n - (p.gt - p.i) ≤ x → p.i ≤ y ∧ y < p.gt) := by
  have hi := hd.i_le
  have hj := hd.j_lt
  have hgt := hd.gt_le
  obtain ⟨below, hbelow⟩ : ∃ k, k = min p.lt (p.i - p.lt) := ⟨_, rfl⟩
  obtain ⟨above, habove⟩ : ∃ k, k = min (n - p.gt) (p.gt - p.i) := ⟨_, rfl⟩
  have hmem : (p.cut base n).mem = swapBlock (base + p.i) (base + (n - above)) above
      (swapBlock (base + 0) (base + (p.i - below)) below p.mem) := by
    have hn : base + n - above = base + (n - above) := by omega
    have hi : base + p.i - below = base + (p.i - below) := by omega
    rw [Scan.cut, ← hbelow, ← habove, hn, hi]
    rfl
  rw [hmem, swapBlock_elem_add base (by omega)]
  by_cases hup : p.i ≤ x ∧ x < p.i + above
  · rw [if_pos hup, swapBlock_elem_add base (by omega), if_neg (by omega), if_neg (by omega)]
    exact ⟨_, rfl, by omega⟩
  by_cases htop : n - above ≤ x ∧ x < n - above + above
  · rw [if_neg hup, if_pos htop, swapBlock_elem_add base (by omega), if_neg (by omega), if_neg (by omega)]
    exact ⟨_, rfl, by omega⟩
  rw [if_neg hup, if_neg htop, swapBlock_elem_add base (by omega)]
  by_cases hdown : 0 ≤ x ∧ x < 0 + below
  · rw [if_pos hdown]
    exact ⟨_, rfl, by omega⟩
  by_cases hmid : p.i - below ≤ x ∧ x < p.i - below + below
  · rw [if_neg hdown, if_pos hmid]
    exact ⟨_, rfl, by omega⟩
  · rw [if_neg hdown, if_neg hmid]
    exact ⟨_, rfl, by omega⟩

theorem cut_parts (hd : p.Done n) (hji : p.j ≤ p.i)
    (hv : p.Parts le base n v p.i) : (p.cut base n).Parts le base n v := by
  have helem := cut_elem base hd hji
  have hi := hd.i_le
  have hj := hd.j_lt
  have hgt := hd.gt_le
  refine ⟨fun x hx => ?_, fun x hx hxg => ?_, fun x hx hxn => ?_⟩
  · have hxi : x < p.i - p.lt := hx
    obtain ⟨y, hy, hlow, -, -⟩ := helem x (by omega)
    rw [hy]
    exact hv.below y (hlow hxi).1 (hlow hxi).2
  · have hxi : p.i - p.lt ≤ x := hx
    have hxg' : x < n - (p.gt - p.i) := hxg
    obtain ⟨y, hy, -, hmid, -⟩ := helem x (by omega)
    rw [hy]
    rcases hmid hxi hxg' with hy' | hy'
    · exact hv.low y hy'
    · exact hv.high y hy'.1 hy'.2
  · have hxg : n - (p.gt - p.i) ≤ x := hx
    obtain ⟨y, hy, -, -, hhigh⟩ := helem x hxn
    rw [hy]
    exact hv.above y (hhigh hxg).1 (hhigh hxg).2

theorem partition_parts (base : ℕ) (h : Agrees cmp le S I) (hs : Sound S I s) (hn : 0 < n) :
    ∃ v, S v ∧ (partition cmp base n s).Parts le base n v := by
  have hrange : ∀ k, k < 4 → base ≤ base + k * (n / 4) ∧ base + k * (n / 4) < base + n := by
    intro k hk
    have hle : k * (n / 4) ≤ 3 * (n / 4) := Nat.mul_le_mul_right _ (by omega)
    omega
  have h1 : base ≤ base + n / 4 ∧ base + n / 4 < base + n := by omega
  have hs' := (med3_steps cmp h1 (hrange 2 (by decide)) (hrange 3 (by decide)) s).sound h hs
  unfold partition
  dsimp only
  generalize med3 cmp (base + n / 4) (base + 2 * (n / 4)) (base + 3 * (n / 4)) s = m at hs' ⊢
  have hok := scan_begin hn (swap base m.1 m.2)
  have hs'' := hs'.swap base m.1
  obtain ⟨hd, hji⟩ := partitionLoop_done cmp base hok
  refine ⟨(swap base m.1 m.2).elem base, hs''.elem _, cut_parts hd hji
    (partitionLoop_parts h hok hs'' ⟨rfl, fun x hx => ?_, fun x hx hx1 => ?_, fun x hx hxn => ?_,
      fun x hx hxn => ?_⟩)⟩
  · have h0 : x = 0 := by
      dsimp only at hx
      omega
    rw [h0]
    exact ⟨h.refl hs'' _, h.refl hs'' _⟩
  all_goals
    dsimp only at *
    omega

/-! ## The main loop -/

/-- The segment holds the indices `x` and `y`. -/
def Segment.Holds (seg : Segment) (x y : ℕ) : Prop := seg.base ≤ x ∧ y < seg.base + seg.count

/-- Two segments without a common index. -/
def Segment.Apart (a b : Segment) : Prop := a.base + a.count ≤ b.base ∨ b.base + b.count ≤ a.base

/-- Two elements that are not in order lie in a segment of the stack. -/
structure Pending (le : ε → ε → Prop) (n : ℕ) (stack : List Segment) (s : Memory ε M) : Prop where
  within : ∀ seg ∈ stack, seg.Within n
  apart : stack.Pairwise Segment.Apart
  sorted : ∀ x y, x < y → y < n → le (s.elem x) (s.elem y) ∨ ∃ seg ∈ stack, seg.Holds x y

/-- A segment is replaced by its parts. -/
theorem Pending.step {parts : List Segment} {t : Memory ε M} (hp : Pending le n (seg :: stack) s)
    (hst : Steps cmp seg.base (seg.base + seg.count) s t)
    (hparts : ∀ part ∈ parts, seg.base ≤ part.base ∧ part.base + part.count ≤ seg.base + seg.count)
    (hapart : parts.Pairwise Segment.Apart)
    (hin : ∀ x y, seg.base ≤ x → x < y → y < seg.base + seg.count →
      le (t.elem x) (t.elem y) ∨ ∃ part ∈ parts, part.Holds x y) :
    Pending le n (parts ++ stack) t := by
  obtain ⟨hseg, hstack⟩ := List.forall_mem_cons.mp hp.within
  obtain ⟨hfar, hrest⟩ := List.pairwise_cons.mp hp.apart
  -- an order with an element outside of the segment does not depend on the one inside
  have hcross : ∀ x y, x < y → y < n → ¬seg.Holds x y →
      le (s.elem x) (s.elem y) ∨ ∃ other ∈ stack, other.Holds x y := by
    intro x y hxy hy hnot
    rcases hp.sorted x y hxy hy with hle | ⟨other, ho, hh⟩
    · exact .inl hle
    · rcases List.mem_cons.mp ho with rfl | ho
      · exact absurd hh hnot
      · exact .inr ⟨other, ho, hh⟩
  have hkeep : ∀ {x y x' y'}, t.elem x = s.elem x' → t.elem y = s.elem y' → x' < y' → y' < n →
      ¬seg.Holds x' y' → (∀ other ∈ stack, other.Holds x' y' → other.Holds x y) →
      le (t.elem x) (t.elem y) ∨ ∃ other ∈ parts ++ stack, other.Holds x y := by
    intro x y x' y' hx hy hxy hyn hnot hsame
    rw [hx, hy]
    refine (hcross x' y' hxy hyn hnot).imp_right ?_
    rintro ⟨other, ho, hh⟩
    exact ⟨other, List.mem_append_right _ ho, hsame other ho hh⟩
  unfold Segment.Within at hseg
  refine ⟨fun part hpart => ?_, List.pairwise_append.mpr ⟨hapart, hrest, fun part hpart other ho => ?_⟩,
    fun x y hxy hy => ?_⟩
  · rcases List.mem_append.mp hpart with hpart | hpart
    · have hle := (hparts part hpart).2
      unfold Segment.Within
      omega
    · exact hstack part hpart
  · have hle := hparts part hpart
    have hfar' := hfar other ho
    unfold Segment.Apart at *
    omega
  by_cases hboth : seg.Holds x y
  · refine (hin x y hboth.1 hxy hboth.2).imp_right ?_
    rintro ⟨part, hpart, hh⟩
    exact ⟨part, List.mem_append_left _ hpart, hh⟩
  unfold Segment.Holds at hboth
  by_cases hx : seg.base ≤ x ∧ x < seg.base + seg.count
  · -- only `x` is in the segment
    obtain ⟨x', hx', heq⟩ := hst.mem_range hx
    refine hkeep heq (hst.elem_eq (by omega)) (by omega) hy (fun hh => ?_) fun other ho hh => ?_
    · unfold Segment.Holds at hh
      omega
    · have hfar' := hfar other ho
      unfold Segment.Apart at hfar'
      unfold Segment.Holds at hh
      omega
  by_cases hy' : seg.base ≤ y ∧ y < seg.base + seg.count
  · -- only `y` is in the segment
    obtain ⟨y', hy'', heq⟩ := hst.mem_range hy'
    refine hkeep (hst.elem_eq hx) heq (by omega) (by omega) (fun hh => ?_) fun other ho hh => ?_
    · unfold Segment.Holds at hh
      omega
    · have hfar' := hfar other ho
      unfold Segment.Apart at hfar'
      unfold Segment.Holds at hh
      omega
  · exact hkeep (hst.elem_eq hx) (hst.elem_eq hy') hxy hy hboth fun _ _ hh => hh

/-- A segment that has been sorted. -/
theorem Pending.pop {t : Memory ε M}
    (hp : Pending le n (seg :: stack) s) (hst : Steps cmp seg.base (seg.base + seg.count) s t)
    (hsorted : SortedOn le seg.base (seg.base + seg.count) t) : Pending le n stack t :=
  hp.step hst (fun part (h : part ∈ ([] : List Segment)) => by cases h) .nil fun x y hx hxy hy =>
    .inl (hsorted x y hx hxy hy)

/-- A segment that has been cut. -/
theorem Pending.cut (h : Agrees cmp le S I) (hs : Sound S I s)
    (hcount : 0 < seg.count) (hp : Pending le n (seg :: stack) s) :
    Pending le n (seg.parts (partition cmp seg.base seg.count s) ++ stack)
      (partition cmp seg.base seg.count s).mem := by
  obtain ⟨-, hlt, hgt⟩ := partition_lt cmp seg.base hcount s
  obtain ⟨v, hSv, hv⟩ := partition_parts seg.base h hs hcount
  have hst : Steps cmp seg.base (seg.base + seg.count) s (partition cmp seg.base seg.count s).mem :=
    partition_steps hcount s
  have hs' := hst.sound h hs
  generalize partition cmp seg.base seg.count s = c at hlt hgt hv hst hs' ⊢
  have hmem : ∀ part, part ∈ seg.parts c ↔ part = ⟨seg.base, c.lt, seg.depth + 1⟩ ∨
        part = ⟨seg.base + c.gt, seg.count - c.gt, seg.depth + 1⟩ := by
    unfold Segment.parts
    split <;> simp [or_comm]
  refine hp.step hst (fun part hpart => ?_) ?_ fun x y hx hxy hy => ?_
  · rcases (hmem part).mp hpart with rfl | rfl <;> dsimp only <;> omega
  · unfold Segment.parts
    split <;> simp [Segment.Apart] <;> omega
  obtain ⟨a, rfl⟩ := Nat.exists_eq_add_of_le hx
  obtain ⟨b, rfl⟩ := Nat.exists_eq_add_of_le (Nat.le_trans hx (Nat.le_of_lt hxy))
  -- through the pivot
  have hle : le (c.mem.elem (seg.base + a)) v → le v (c.mem.elem (seg.base + b)) →
      le (c.mem.elem (seg.base + a)) (c.mem.elem (seg.base + b)) :=
    h.trans _ _ _ (hs'.elem _) hSv (hs'.elem _)
  by_cases hb : b < c.lt
  · exact .inr ⟨_, (hmem _).mpr (.inl rfl), Nat.le_add_right _ _, by dsimp only; omega⟩
  by_cases ha : c.gt ≤ a
  · exact .inr ⟨_, (hmem _).mpr (.inr rfl), by dsimp only; omega, by dsimp only; omega⟩
  refine .inl (hle ?_ ?_)
  · by_cases halt : a < c.lt
    · exact hv.below a halt
    · exact (hv.equal a (by omega) (by omega)).1
  · by_cases hbgt : b < c.gt
    · exact (hv.equal b (by omega) hbgt).2
    · exact hv.above b (by omega) (by omega)

theorem rqsortLoop_sorted (h : Agrees cmp le S I) (s : Memory ε M)
    (hs : Sound S I s) (hp : Pending le n stack s) :
    SortedOn le 0 n (rqsortLoop cmp stack s) := by
  fun_induction rqsortLoop cmp stack s with
  | case1 s =>
    intro x y _ hxy hy
    rcases hp.sorted x y hxy hy with hle | ⟨_, hmem, -⟩
    · exact hle
    · cases hmem
  | case2 seg stack s hcount hdepth ih =>
    have hst : Steps cmp seg.base (seg.base + seg.count) s (heapsortx cmp seg.base seg.count s) :=
      heapsortx_steps _ _
    exact ih (hst.sound h hs) (hp.pop hst (heapsortx_sorted h hs _))
  | case3 seg stack s hcount hdepth p ih =>
    exact ih ((partition_steps (by omega) s).sound h hs) (hp.cut h hs (by omega))
  | case4 seg stack s hcount ih =>
    by_cases h0 : seg.count = 0
    · rw [h0] at ih ⊢
      exact ih hs (hp.pop (Steps.refl : Steps cmp _ _ s s) fun x y hx hxy hy => by omega)
    · have hn : seg.base + (seg.count - 1) + 1 = seg.base + seg.count := by omega
      have hst : Steps cmp seg.base (seg.base + (seg.count - 1) + 1) s
          (insertionSort cmp seg.base (seg.count - 1) s) := insertionSort_steps _ _
      rw [hn] at hst
      refine ih (hst.sound h hs) (hp.pop hst ?_)
      have hsorted : SortedOn le seg.base (seg.base + (seg.count - 1 + 1))
          (insertionSort cmp seg.base (seg.count - 1) s) := insertionSort_sorted h hs _
      rwa [← Nat.add_assoc, hn] at hsorted

/-- **`rqsort` sorts** by every comparison that agrees with an order. -/
theorem rqsort_sorted (h : Agrees cmp le S I) (hs : Sound S I s) (n : ℕ) :
    SortedOn le 0 n (rqsort cmp n s) := by
  unfold rqsort
  split
  · intro x y _ hxy hy
    omega
  · refine rqsortLoop_sorted h s hs ⟨fun seg hseg => ?_, List.pairwise_singleton _ _,
      fun x y hxy hy => .inr ⟨_, List.mem_singleton_self _, Nat.zero_le _, ?_⟩⟩
    · rw [List.mem_singleton.mp hseg]
      exact Nat.le_of_eq (Nat.zero_add n)
    · dsimp only
      omega

end QuickJs.Rqsort
