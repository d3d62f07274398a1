import QuickJs.Rqsort

/-!
# What `rqsort` does to the elements

Each part of `rqsort` only compares and exchanges elements of its segment. The comparison sees no
other element, and whatever it answers the elements are permuted.
-/

namespace QuickJs.Rqsort

open Exchange

variable {ε M : Type} {cmp : Cmp ε M} {base n : ℕ} {s : Memory ε M}

theorem insertDown_steps (k : ℕ) (s : Memory ε M) :
    Steps cmp base (base + k + 1) s (insertDown cmp base k s) := by
  fun_induction insertDown cmp base k s with
  | case1 => exact .refl
  | case2 k s c hc ih =>
    have hcmp : Steps cmp base (base + (k + 1) + 1) s c.2 :=
      steps_compare (by omega) (by omega) (by omega) (by omega)
    refine (hcmp.swap (i := base + (k + 1)) (j := base + k) (by omega) (by omega) (by omega)
      (by omega)).trans (ih.mono (by omega) (by omega))
  | case3 k s c hc => exact steps_compare (by omega) (by omega) (by omega) (by omega)

theorem insertionSort_steps (n : ℕ) (s : Memory ε M) :
    Steps cmp base (base + n + 1) s (insertionSort cmp base n s) := by
  induction n with
  | zero => exact .refl
  | succ n ih => exact (ih.mono (by omega) (by omega)).trans (insertDown_steps _ _)

variable {c : ℕ} {p : Scan ε M}

theorem greaterChild_steps (hc : c < n) (s : Memory ε M) :
    Steps cmp base (base + n) s (greaterChild cmp base n c s).2 := by
  unfold greaterChild
  split
  · exact steps_compare (by omega) (by omega) (by omega) (by omega)
  · exact .refl

theorem greaterChild_lt (hc : c < n) (s : Memory ε M) : (greaterChild cmp base n c s).1 < n := by
  have h := greaterChild_cases cmp base n c s
  omega

theorem siftDown_steps (r : ℕ) (s : Memory ε M) : Steps cmp base (base + n) s (siftDown cmp base n r s) := by
  fun_induction siftDown cmp base n r s with
  | case1 r s hr child d hd =>
    have hlt : child.1 < n := greaterChild_lt hr s
    exact (greaterChild_steps hr s).compare (by omega) (by omega) (by omega) (by omega)
  | case2 r s hr child d hd ih =>
    have hlt : child.1 < n := greaterChild_lt hr s
    exact (((greaterChild_steps hr s).compare (by omega) (by omega) (by omega) (by omega)).swap
      (by omega) (by omega) (by omega) (by omega)).trans ih
  | case3 => exact .refl

theorem heapify_steps (i : ℕ) (s : Memory ε M) : Steps cmp base (base + n) s (heapify cmp base n i s) := by
  induction i generalizing s with
  | zero => exact .refl
  | succ i ih => exact (siftDown_steps _ _).trans (ih _)

theorem extract_steps (i : ℕ) (s : Memory ε M) : Steps cmp base (base + i + 1) s (extract cmp base i s) := by
  induction i generalizing s with
  | zero => exact .refl
  | succ i ih =>
    have hswap : Steps cmp base (base + (i + 1) + 1) s (swap base (base + (i + 1)) s) :=
      steps_swap (by omega) (by omega) (by omega) (by omega)
    exact (hswap.trans ((siftDown_steps _ _).mono (by omega) (by omega))).trans
      ((ih _).mono (by omega) (by omega))

theorem heapsortx_steps (n : ℕ) (s : Memory ε M) : Steps cmp base (base + n) s (heapsortx cmp base n s) := by
  unfold heapsortx
  split
  · exact (heapify_steps _ _).trans ((extract_steps _ _).mono (by omega) (by omega))
  · exact .refl

theorem med3_cases (cmp : Cmp ε M) (a b c : ℕ) (s : Memory ε M) :
    (med3 cmp a b c s).1 = a ∨ (med3 cmp a b c s).1 = b ∨ (med3 cmp a b c s).1 = c := by
  unfold med3
  grind

theorem med3_steps (cmp : Cmp ε M) {lo hi a b : ℕ} (ha : lo ≤ a ∧ a < hi) (hb : lo ≤ b ∧ b < hi)
    (hc : lo ≤ c ∧ c < hi) (s : Memory ε M) : Steps cmp lo hi s (med3 cmp a b c s).2 := by
  have hab : Steps cmp lo hi s (compare cmp a b s).2 := steps_compare ha.1 ha.2 hb.1 hb.2
  have hbc := hab.compare hb.1 hb.2 hc.1 hc.2
  have hac := hbc.compare ha.1 ha.2 hc.1 hc.2
  unfold med3
  dsimp only
  split
  · split
    · exact hbc
    · exact hac
  · split
    · exact hbc
    · exact hac

theorem scanUp_steps (h : p.Ok n) : Steps cmp base (base + n) p.mem (scanUp cmp base p).mem := by
  have hgt := h.gt_le
  have hj := h.j_le
  fun_induction scanUp cmp base p with
  | case1 p hlt c hc h0 ih =>
    have hcmp : Steps cmp base (base + n) p.mem c.2 :=
      steps_compare (by omega) (by omega) (by omega) (by omega)
    have hle := h.lt_le
    exact (hcmp.swap (by omega) (by omega) (by omega) (by omega)).trans
      (ih ⟨Nat.succ_pos _, Nat.succ_le_succ h.lt_le, hlt, h.j_le, h.gt_le⟩ hgt hj)
  | case2 p hlt c hc h0 ih =>
    have hcmp : Steps cmp base (base + n) p.mem c.2 :=
      steps_compare (by omega) (by omega) (by omega) (by omega)
    exact hcmp.trans (ih ⟨h.pivot, Nat.le_succ_of_le h.lt_le, hlt, h.j_le, h.gt_le⟩ hgt hj)
  | case3 p hlt c hc => exact steps_compare (by omega) (by omega) (by omega) (by omega)
  | case4 => exact .refl

theorem scanDown_steps {i lt : ℕ} (j gt : ℕ) (s : Memory ε M) (hj : j ≤ gt) (hgt : gt ≤ n) :
    Steps cmp base (base + n) s (scanDown cmp base i lt j gt s).mem := by
  fun_induction scanDown cmp base i lt j gt s with
  | case1 => exact .refl
  | case2 j gt s hij c hc h0 ih =>
    have hcmp : Steps cmp base (base + n) s c.2 :=
      steps_compare (by omega) (by omega) (by omega) (by omega)
    exact (hcmp.swap (by omega) (by omega) (by omega) (by omega)).trans (ih (by omega) (by omega))
  | case3 j gt s hij c hc h0 ih =>
    have hcmp : Steps cmp base (base + n) s c.2 :=
      steps_compare (by omega) (by omega) (by omega) (by omega)
    exact hcmp.trans (ih (by omega) hgt)
  | case4 j gt s hij c hc => exact steps_compare (by omega) (by omega) (by omega) (by omega)
  | case5 => exact .refl

theorem scan_steps (h : p.Ok n) : Steps cmp base (base + n) p.mem (scan cmp base p).mem := by
  have hp := scanUp_ok cmp base h
  exact (scanUp_steps h).trans (scanDown_steps _ _ _ hp.j_le hp.gt_le)

theorem partitionLoop_steps (h : p.Ok n) :
    Steps cmp base (base + n) p.mem (partitionLoop cmp base p).mem := by
  fun_induction partitionLoop cmp base p with
  | case1 p q hq => exact scan_steps h
  | case2 p q hq ih =>
    have hd : q.Done n := scan_done h
    have hj := hd.j_lt
    have hgt := hd.gt_le
    exact ((scan_steps h).swap (by omega) (by omega) (by omega) (by omega)).trans
      (ih ⟨hd.pivot, Nat.le_succ_of_le hd.lt_le, Nat.succ_le_of_lt (Nat.lt_of_not_le hq),
        Nat.le_of_lt hd.j_lt, hd.gt_le⟩)

/-- The variables when the partition begins. -/
theorem scan_begin (hn : 0 < n) (s : Memory ε M) : (⟨1, 1, n, n, s⟩ : Scan ε M).Ok n :=
  ⟨Nat.one_pos, Nat.le_refl _, hn, Nat.le_refl _, Nat.le_refl _⟩

theorem cut_steps (h : p.Done n) (hji : p.j ≤ p.i) : Steps cmp base (base + n) p.mem (p.cut base n).mem := by
  have h2 := h.i_le
  have h3 := h.j_lt
  have h4 := h.gt_le
  exact (steps_swapBlock _ (by omega) (by omega) (by omega) (by omega)).trans
    (steps_swapBlock _ (by omega) (by omega) (by omega) (by omega))

theorem partition_steps (hn : 0 < n) (s : Memory ε M) :
    Steps cmp base (base + n) s (partition cmp base n s).mem := by
  have hrange : ∀ k, k < 4 → base ≤ base + k * (n / 4) ∧ base + k * (n / 4) < base + n := by
    intro k hk
    have hle : k * (n / 4) ≤ 3 * (n / 4) := Nat.mul_le_mul_right _ (by omega)
    omega
  have h1 : base ≤ base + n / 4 ∧ base + n / 4 < base + n := by omega
  have hmed := med3_steps cmp h1 (hrange 2 (by decide)) (hrange 3 (by decide)) s
  have hm := med3_cases cmp (base + n / 4) (base + 2 * (n / 4)) (base + 3 * (n / 4)) s
  have hswap := hmed.swap (i := base)
    (j := (med3 cmp (base + n / 4) (base + 2 * (n / 4)) (base + 3 * (n / 4)) s).1) (by omega)
    (by omega) (by omega) (by omega)
  obtain ⟨hd, hji⟩ := partitionLoop_done cmp base
    (scan_begin hn (swap base (med3 cmp (base + n / 4) (base + 2 * (n / 4)) (base + 3 * (n / 4)) s).1
      (med3 cmp (base + n / 4) (base + 2 * (n / 4)) (base + 3 * (n / 4)) s).2))
  exact (hswap.trans (partitionLoop_steps (scan_begin hn _))).trans (cut_steps hd hji)

/-- A segment of the stack lies in the array. -/
def Segment.Within (n : ℕ) (seg : Segment) : Prop := seg.base + seg.count ≤ n

theorem parts_within {seg : Segment} {p : Cut ε M} (h : seg.Within n) (hlt : p.lt < p.gt)
    (hgt : p.gt ≤ seg.count) : ∀ part ∈ seg.parts p, part.Within n := by
  unfold Segment.Within at *
  intro part hpart
  unfold Segment.parts at hpart
  split at hpart
  · rcases List.mem_pair.mp hpart with rfl | rfl <;> dsimp only <;> omega
  · rcases List.mem_pair.mp hpart with rfl | rfl <;> dsimp only <;> omega

theorem rqsortLoop_steps {stack : List Segment} (h : ∀ seg ∈ stack, seg.Within n)
    (s : Memory ε M) : Steps cmp 0 n s (rqsortLoop cmp stack s) := by
  fun_induction rqsortLoop cmp stack s with
  | case1 => exact .refl
  | case2 seg stack s hcount hdepth ih =>
    obtain ⟨hseg, hstack⟩ := List.forall_mem_cons.mp h
    exact ((heapsortx_steps _ _).mono (by omega) hseg).trans (ih hstack)
  | case3 seg stack s hcount hdepth p ih =>
    obtain ⟨hseg, hstack⟩ := List.forall_mem_cons.mp h
    obtain ⟨-, hlt, hgt⟩ := partition_lt cmp seg.base (Nat.zero_lt_of_lt hcount) s
    refine ((partition_steps (by omega) s).mono (by omega) hseg).trans (ih fun part hpart => ?_)
    rcases List.mem_append.mp hpart with hpart | hpart
    · exact parts_within hseg hlt hgt part hpart
    · exact hstack part hpart
  | case4 seg stack s hcount ih =>
    obtain ⟨hseg, hstack⟩ := List.forall_mem_cons.mp h
    by_cases h0 : seg.count = 0
    · rw [h0] at ih ⊢
      exact ih hstack
    · have hle : seg.base + (seg.count - 1) + 1 ≤ n := by
        unfold Segment.Within at hseg
        omega
      exact ((insertionSort_steps _ _).mono (by omega) hle).trans (ih hstack)

/-- `rqsort` only compares and exchanges elements of the array. -/
theorem rqsort_steps (n : ℕ) (s : Memory ε M) : Steps cmp 0 n s (rqsort cmp n s) := by
  unfold rqsort
  split
  · exact .refl
  · refine rqsortLoop_steps (fun seg hseg => ?_) s
    rw [List.mem_singleton.mp hseg]
    exact Nat.le_of_eq (Nat.zero_add n)

end QuickJs.Rqsort
