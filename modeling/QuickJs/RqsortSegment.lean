import QuickJs.RqsortSteps

/-!
# The sorts for a whole segment

With a comparison that agrees with an order, the insertion sort and the heap sort put their segment
in that order.
-/

namespace QuickJs.Rqsort

open Exchange

variable {ε M : Type} {cmp : Cmp ε M} {le : ε → ε → Prop} {S : ε → Prop} {I : M → Prop}
  {base n : ℕ} {s : Memory ε M}

/-! ## Insertion sort -/

/-- The elements before `m` are in order but for the one at `k`, which is not above those after
it. -/
def SortedBut (le : ε → ε → Prop) (base m k : ℕ) (s : Memory ε M) : Prop :=
  ∀ x y, base ≤ x → x < y → y < base + m → y ≠ base + k → le (s.elem x) (s.elem y)

theorem insertDown_sorted (h : Agrees cmp le S I) {m : ℕ} (k : ℕ) (s : Memory ε M) (hk : k < m)
    (hs : Sound S I s) (hbut : SortedBut le base m k s) :
    SortedOn le base (base + m) (insertDown cmp base k s) := by
  fun_induction insertDown cmp base k s with
  | case1 s =>
    -- there is nothing below the first element
    intro x y hx hxy hy
    exact hbut x y hx hxy hy (by omega)
  | case2 k s c hc ih =>
    have hle : le (s.elem (base + (k + 1))) (s.elem (base + k)) :=
      (h.nonneg_iff hs).mp (Int.le_of_lt hc)
    refine ih (by omega) ((hs.compare h _ _).swap _ _) fun x y hx hxy hy hyk => ?_
    simp only [swap_elem]
    by_cases hy' : y = base + (k + 1)
    · rw [if_pos hy']
      by_cases hxk : x = base + k
      · rw [if_neg (by omega), if_pos hxk]
        exact hle
      · rw [if_neg (by omega), if_neg hxk]
        exact hbut _ _ hx (by omega) (by omega) (by omega)
    · split
      · exact hbut _ _ (by omega) (by omega) hy hy'
      · split
        · exact hbut _ _ (by omega) (by omega) hy hy'
        · exact hbut _ _ hx hxy hy hy'
  | case3 k s c hc =>
    have hle : le (s.elem (base + k)) (s.elem (base + (k + 1))) :=
      (h.nonpos_iff hs).mp (Int.not_lt.mp hc)
    intro x y hx hxy hy
    by_cases hy' : y = base + (k + 1)
    · rw [hy']
      by_cases hxk : x = base + k
      · rw [hxk]
        exact hle
      · exact h.trans _ _ _ (hs.elem _) (hs.elem _) (hs.elem _)
          (hbut x (base + k) hx (by omega) (by omega) (by omega)) hle
    · exact hbut x y hx hxy hy hy'

theorem insertionSort_sorted (h : Agrees cmp le S I) (hs : Sound S I s) (n : ℕ) :
    SortedOn le base (base + (n + 1)) (insertionSort cmp base n s) := by
  induction n with
  | zero => intro x y hx hxy hy; omega
  | succ n ih =>
    exact insertDown_sorted h (n + 1) _ (by omega) ((insertionSort_steps n s).sound h hs)
      fun x y hx hxy hy hyk => ih x y hx hxy (by omega)

/-! ## Heap sort -/

/-- `c` is a child of `p`. -/
def Child (p c : ℕ) : Prop := c = 2 * p + 1 ∨ c = 2 * p + 2

/-- No node from `lo` on is below its children. -/
def Heap (le : ε → ε → Prop) (base lo n : ℕ) (s : Memory ε M) : Prop :=
  ∀ p c, Child p c → lo ≤ p → c < n → le (s.elem (base + c)) (s.elem (base + p))

/-- The same but for the node `r`, whose children are not above its parent. -/
structure HeapBut (le : ε → ε → Prop) (base lo n r : ℕ) (s : Memory ε M) : Prop where
  heap : ∀ p c, Child p c → lo ≤ p → c < n → p ≠ r → le (s.elem (base + c)) (s.elem (base + p))
  grand : ∀ p c, Child p r → Child r c → lo ≤ p → c < n → le (s.elem (base + c)) (s.elem (base + p))

theorem greaterChild_spec (h : Agrees cmp le S I) (hs : Sound S I s) {r c : ℕ} (hrc : Child r c)
    (hc : c < n) : le (s.elem (base + c))
      (s.elem (base + (greaterChild cmp base n (2 * r + 1) s).1)) := by
  unfold greaterChild
  rcases hrc with rfl | rfl
  · split
    · dsimp only
      split
      · exact (h.nonpos_iff hs).mp ‹_›
      · exact h.refl hs _
    · exact h.refl hs _
  · rw [if_pos (by omega)]
    dsimp only
    split
    · exact h.refl hs _
    · rename_i hd
      exact (h.nonneg_iff hs).mp (Int.le_of_lt (Int.not_le.mp hd))

theorem greaterChild_elem (c : ℕ) (s : Memory ε M) : (greaterChild cmp base n c s).2.elem = s.elem := by
  unfold greaterChild
  split <;> rfl

theorem child_greaterChild (r : ℕ) (s : Memory ε M) : Child r (greaterChild cmp base n (2 * r + 1) s).1 := by
  have h := greaterChild_cases cmp base n (2 * r + 1) s
  unfold Child
  omega

/-- The element of `r` sinks to the child `k`. -/
theorem HeapBut.sink {t : Memory ε M} {lo r k : ℕ} (hbut : HeapBut le base lo n r s)
    (hrk : Child r k) (hlo : lo ≤ r) (hk : k < n) (ht : t.elem = s.elem)
    (hle : le (s.elem (base + r)) (s.elem (base + k)))
    (hmax : ∀ c, Child r c → c < n → le (s.elem (base + c)) (s.elem (base + k))) :
    HeapBut le base lo n k (swap (base + r) (base + k) t) := by
  constructor
  · intro p c hpc hp hc hpk
    rw [swap_elem_add, swap_elem_add, ht]
    by_cases hpr : p = r
    · have hcr : c ≠ r := by unfold Child at *; omega
      rw [if_neg hcr]
      split
      · exact hle
      · exact hmax c (hpr ▸ hpc) hc
    · have hck : c ≠ k := by unfold Child at *; omega
      split
      · rename_i hcr
        exact hbut.grand p k (hcr ▸ hpc) hrk hp hk
      · exact hbut.heap p c hpc hp hc hpr
  · intro p c hpk hkc hp hc
    -- the parent of `k` is `r`
    have hpr : p = r := by unfold Child at *; omega
    have hcr : c ≠ r := by unfold Child at *; omega
    have hck : c ≠ k := by unfold Child at *; omega
    have hkr : k ≠ r := by unfold Child at *; omega
    rw [swap_elem_add, swap_elem_add, ht, if_neg hcr, if_neg hck, if_pos hpr]
    exact hbut.heap k c hkc (by unfold Child at *; omega) hc hkr

theorem siftDown_heap (h : Agrees cmp le S I) {lo : ℕ} (r : ℕ) (s : Memory ε M) (hlo : lo ≤ r)
    (hs : Sound S I s) (hbut : HeapBut le base lo n r s) :
    Heap le base lo n (siftDown cmp base n r s) := by
  fun_induction siftDown cmp base n r s with
  | case1 r s hr child d hd =>
    have hs' : Sound S I child.2 := (greaterChild_steps hr s).sound h hs
    have helem : child.2.elem = s.elem := greaterChild_elem _ _
    have hle : le (s.elem (base + child.1)) (s.elem (base + r)) := by
      have hle := (h.nonneg_iff hs').mp (Int.le_of_lt hd)
      rwa [helem] at hle
    intro p c hpc hp hc
    change le (child.2.elem _) (child.2.elem _)
    rw [helem]
    by_cases hpr : p = r
    · subst hpr
      exact h.trans _ _ _ (hs.elem _) (hs.elem _) (hs.elem _) (greaterChild_spec h hs hpc hc) hle
    · exact hbut.heap p c hpc hp hc hpr
  | case2 r s hr child d hd ih =>
    have hs' : Sound S I child.2 := (greaterChild_steps hr s).sound h hs
    have helem : child.2.elem = s.elem := greaterChild_elem _ _
    have hle : le (s.elem (base + r)) (s.elem (base + child.1)) := by
      have hle := (h.nonpos_iff hs').mp (Int.not_lt.mp hd)
      rwa [helem] at hle
    have hchild : Child r child.1 := child_greaterChild r s
    exact ih (by unfold Child at hchild; omega) ((hs'.compare h _ _).swap _ _)
      (hbut.sink hchild hlo (greaterChild_lt hr s) helem hle fun c hrc hc =>
        greaterChild_spec h hs hrc hc)
  | case3 r s hr =>
    intro p c hpc hp hc
    refine hbut.heap p c hpc hp hc fun hpr => ?_
    unfold Child at hpc
    omega

theorem heapify_heap (h : Agrees cmp le S I) (i : ℕ) (s : Memory ε M) (hs : Sound S I s)
    (hheap : Heap le base i n s) : Heap le base 0 n (heapify cmp base n i s) := by
  induction i generalizing s with
  | zero => exact hheap
  | succ i ih =>
    refine ih _ ((siftDown_steps i s).sound h hs)
      (siftDown_heap h i s (Nat.le_refl _) hs ⟨fun p c hpc hp hc hpi => ?_, fun p c hpi _ hp _ => ?_⟩)
    · exact hheap p c hpc (by omega) hc
    · unfold Child at hpi
      omega

/-- The root is the greatest element. -/
theorem Heap.le_root (h : Agrees cmp le S I) (hs : Sound S I s) (hheap : Heap le base 0 n s) (x : ℕ)
    (hx : x < n) : le (s.elem (base + x)) (s.elem base) := by
  induction x using Nat.strong_induction_on with
  | _ x ih =>
    by_cases h0 : x = 0
    · rw [h0]
      exact h.refl hs _
    · have hchild : Child ((x - 1) / 2) x := by
        unfold Child
        omega
      exact h.trans _ _ _ (hs.elem _) (hs.elem _) (hs.elem _) (hheap _ x hchild (Nat.zero_le _) hx)
        (ih ((x - 1) / 2) (by omega) (by omega))

/-- The first `i + 1` elements are a heap, and the others are in order above it. -/
structure Extracting (le : ε → ε → Prop) (base n i : ℕ) (s : Memory ε M) : Prop where
  heap : Heap le base 0 (i + 1) s
  above : ∀ x y, x < y → i < y → y < n → le (s.elem (base + x)) (s.elem (base + y))

theorem Extracting.step (h : Agrees cmp le S I) (hs : Sound S I s) {i : ℕ}
    (hex : Extracting le base n (i + 1) s) :
    Extracting le base n i (siftDown cmp base (i + 1) 0 (swap base (base + (i + 1)) s)) := by
  have hswap : Steps cmp base (base + (i + 2)) s (swap base (base + (i + 1)) s) :=
    steps_swap (by omega) (by omega) (by omega) (by omega)
  have hsift : Steps cmp base (base + (i + 1)) (swap base (base + (i + 1)) s)
      (siftDown cmp base (i + 1) 0 (swap base (base + (i + 1)) s)) := siftDown_steps 0 _
  have hall := hswap.trans (hsift.mono (Nat.le_refl _) (by omega))
  have helem : ∀ x, 0 < x → x ≤ i → (swap base (base + (i + 1)) s).elem (base + x) = s.elem (base + x) := by
    intro x h0 hx
    rw [swap_elem, if_neg (by omega), if_neg (by omega)]
  constructor
  · refine siftDown_heap h 0 _ (Nat.le_refl _) (hs.swap _ _)
      ⟨fun p c hpc hp hc hp0 => ?_, fun p c hp0 _ _ _ => ?_⟩
    · rw [helem c (by unfold Child at hpc; omega) (by omega),
        helem p (by omega) (by unfold Child at hpc; omega)]
      exact hex.heap p c hpc hp (by omega)
    · unfold Child at hp0
      omega
  · intro x y hxy hiy hy
    by_cases hyi : y = i + 1
    · -- the root was moved here
      subst hyi
      rw [hsift.elem_eq (x := base + (i + 1)) (by omega), swap_elem, if_neg (by omega), if_pos rfl]
      obtain ⟨z, hz, hzx⟩ := hall.mem_range (x := base + x) (by omega)
      rw [hzx]
      obtain ⟨k, rfl⟩ := Nat.exists_eq_add_of_le hz.1
      exact hex.heap.le_root h hs k (by omega)
    · rw [hall.elem_eq (x := base + y) (by omega)]
      by_cases hx : x < i + 2
      · obtain ⟨z, hz, hzx⟩ := hall.mem_range (x := base + x) (by omega)
        rw [hzx]
        obtain ⟨k, rfl⟩ := Nat.exists_eq_add_of_le hz.1
        exact hex.above k y (by omega) (by omega) hy
      · rw [hall.elem_eq (x := base + x) (by omega)]
        exact hex.above x y hxy (by omega) hy

theorem extract_sorted (h : Agrees cmp le S I) (i : ℕ) (s : Memory ε M) (hi : i < n)
    (hs : Sound S I s) (hex : Extracting le base n i s) :
    SortedOn le base (base + n) (extract cmp base i s) := by
  induction i generalizing s with
  | zero =>
    intro x y hx hxy hy
    obtain ⟨a, rfl⟩ := Nat.exists_eq_add_of_le hx
    obtain ⟨b, rfl⟩ := Nat.exists_eq_add_of_le (Nat.le_trans hx (Nat.le_of_lt hxy))
    exact hex.above a b (by omega) (by omega) (by omega)
  | succ i ih =>
    exact ih _ (by omega) ((siftDown_steps _ _).sound h (hs.swap _ _)) (hex.step h hs)

theorem heapsortx_sorted (h : Agrees cmp le S I) (hs : Sound S I s) (n : ℕ) :
    SortedOn le base (base + n) (heapsortx cmp base n s) := by
  unfold heapsortx
  split
  · have hhalf : Heap le base (n / 2) n s := fun p c hpc hp hc => by
      unfold Child at hpc
      omega
    have hheap := heapify_heap h (n / 2) s hs hhalf
    have hn1 : n - 1 + 1 = n := by omega
    exact extract_sorted h (n - 1) _ (by omega) ((heapify_steps _ _).sound h hs)
      ⟨hn1.symm ▸ hheap, fun x y hxy hy hyn => absurd hyn (by omega)⟩
  · intro x y hx hxy hy
    omega

end QuickJs.Rqsort
