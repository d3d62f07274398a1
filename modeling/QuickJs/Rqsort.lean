import QuickJs.Exchange

/-!
# `rqsort`

The sorting function of the runtime: a quick sort that cuts a segment into the elements below, equal
to and above a pivot, works on the smaller part first, uses insertion sort for up to six elements and
heap sort where it has cut fifty times. It only compares and exchanges elements of the array,
whatever the comparison answers.
-/

namespace QuickJs.Rqsort

open Exchange

variable {ε M : Type}

/-! ## Insertion sort and heap sort -/

/-- The inner loop of the insertion sort: move the element at `k` down. -/
def insertDown (cmp : Cmp ε M) (base : ℕ) : ℕ → Memory ε M → Memory ε M
  | 0, s => s
  | k + 1, s =>
    let c := compare cmp (base + k) (base + (k + 1)) s
    if 0 < c.1 then insertDown cmp base k (swap (base + (k + 1)) (base + k) c.2) else c.2

/-- The insertion sort for the first `n + 1` elements. -/
def insertionSort (cmp : Cmp ε M) (base : ℕ) : ℕ → Memory ε M → Memory ε M
  | 0, s => s
  | n + 1, s => insertDown cmp base (n + 1) (insertionSort cmp base n s)

/-- The greater child of a node of the heap, `c` being the first one. -/
def greaterChild (cmp : Cmp ε M) (base n c : ℕ) (s : Memory ε M) : ℕ × Memory ε M :=
  if c < n - 1 then
    let d := compare cmp (base + c) (base + (c + 1)) s
    (if d.1 ≤ 0 then c + 1 else c, d.2)
  else (c, s)

theorem greaterChild_cases (cmp : Cmp ε M) (base n c : ℕ) (s : Memory ε M) :
    (greaterChild cmp base n c s).1 = c ∨ (greaterChild cmp base n c s).1 = c + 1 ∧ c < n - 1 := by
  unfold greaterChild
  split
  · dsimp only
    split
    · exact .inr ⟨rfl, ‹_›⟩
    · exact .inl rfl
  · exact .inl rfl

/-- The inner loop of `heapsortx`: move the element at `r` down in the heap of `n` elements. -/
def siftDown (cmp : Cmp ε M) (base n r : ℕ) (s : Memory ε M) : Memory ε M :=
  if 2 * r + 1 < n then
    let child := greaterChild cmp base n (2 * r + 1) s
    let d := compare cmp (base + r) (base + child.1) child.2
    if 0 < d.1 then d.2 else siftDown cmp base n child.1 (swap (base + r) (base + child.1) d.2)
  else s
termination_by n - r
decreasing_by
  have hc := greaterChild_cases cmp base n (2 * r + 1) s
  omega

/-- The first loop of `heapsortx`: make a heap. -/
def heapify (cmp : Cmp ε M) (base n : ℕ) : ℕ → Memory ε M → Memory ε M
  | 0, s => s
  | i + 1, s => heapify cmp base n i (siftDown cmp base n i s)

/-- The second loop of `heapsortx`: move the greatest element of the heap to its end. -/
def extract (cmp : Cmp ε M) (base : ℕ) : ℕ → Memory ε M → Memory ε M
  | 0, s => s
  | i + 1, s => extract cmp base i (siftDown cmp base (i + 1) 0 (swap base (base + (i + 1)) s))

/-- `heapsortx`. -/
def heapsortx (cmp : Cmp ε M) (base n : ℕ) (s : Memory ε M) : Memory ε M :=
  if 1 < n then extract cmp base (n - 1) (heapify cmp base n (n / 2) s) else s

/-! ## The partition -/

/-- `med3`. -/
def med3 (cmp : Cmp ε M) (a b c : ℕ) (s : Memory ε M) : ℕ × Memory ε M :=
  let ab := compare cmp a b s
  let bc := compare cmp b c ab.2
  let ac := compare cmp a c bc.2
  if ab.1 < 0 then
    if bc.1 < 0 then (b, bc.2) else (if ac.1 < 0 then c else a, ac.2)
  else if 0 < bc.1 then (b, bc.2)
  else (if ac.1 < 0 then a else c, ac.2)

/-- The variables of the partition: the elements below `lt` and from `gt` on are equal to the pivot,
those from `lt` to `i` are smaller, and those from `j` to `gt` are greater. -/
structure Scan (ε M : Type) where
  i : ℕ
  lt : ℕ
  j : ℕ
  gt : ℕ
  mem : Memory ε M

/-- The first inner loop: stop at an element that is greater than the pivot. -/
def scanUp (cmp : Cmp ε M) (base : ℕ) (p : Scan ε M) : Scan ε M :=
  if p.i < p.j then
    let c := compare cmp base (base + p.i) p.mem
    if 0 ≤ c.1 then
      if c.1 = 0 then
        scanUp cmp base { p with
          i := p.i + 1, lt := p.lt + 1, mem := swap (base + p.lt) (base + p.i) c.2 }
      else scanUp cmp base { p with i := p.i + 1, mem := c.2 }
    else { p with mem := c.2 }
  else p
termination_by p.j - p.i

/-- The second inner loop: stop at an element that is smaller than the pivot. The counter `j` is
decremented before each test. -/
def scanDown (cmp : Cmp ε M) (base i lt : ℕ) : ℕ → ℕ → Memory ε M → Scan ε M
  | 0, gt, s => ⟨i, lt, 0, gt, s⟩
  | j + 1, gt, s =>
    if i < j then
      let c := compare cmp base (base + j) s
      if c.1 ≤ 0 then
        if c.1 = 0 then scanDown cmp base i lt j (gt - 1) (swap (base + (gt - 1)) (base + j) c.2)
        else scanDown cmp base i lt j gt c.2
      else ⟨i, lt, j, gt, c.2⟩
    else ⟨i, lt, j, gt, s⟩

/-- The two inner loops, one after the other. -/
def scan (cmp : Cmp ε M) (base : ℕ) (p : Scan ε M) : Scan ε M :=
  let p := scanUp cmp base p
  scanDown cmp base p.i p.lt p.j p.gt p.mem

variable {cmp : Cmp ε M} {base : ℕ}

theorem scanUp_j (cmp : Cmp ε M) (base : ℕ) (p : Scan ε M) : (scanUp cmp base p).j = p.j := by
  fun_induction scanUp cmp base p with
  | case1 _ _ _ _ _ ih => exact ih
  | case2 _ _ _ _ _ ih => exact ih
  | case3 => rfl
  | case4 => rfl

theorem scanDown_j {i lt : ℕ} (j gt : ℕ) (s : Memory ε M) : (scanDown cmp base i lt j gt s).j ≤ j - 1 := by
  fun_induction scanDown cmp base i lt j gt s with
  | case1 => exact Nat.zero_le _
  | case2 _ _ _ _ _ _ _ ih => omega
  | case3 _ _ _ _ _ _ _ ih => omega
  | case4 => exact Nat.le_refl _
  | case5 => exact Nat.le_refl _

theorem scan_j (p : Scan ε M) : (scan cmp base p).j ≤ p.j - 1 := by
  rw [← scanUp_j cmp base p]
  exact scanDown_j _ _ _

/-- The main loop of the partition. -/
def partitionLoop (cmp : Cmp ε M) (base : ℕ) (p : Scan ε M) : Scan ε M :=
  let q := scan cmp base p
  if q.j ≤ q.i then q
  else partitionLoop cmp base { q with i := q.i + 1, mem := swap (base + q.i) (base + q.j) q.mem }
termination_by p.j
decreasing_by
  have hj : (scan cmp base p).j ≤ p.j - 1 := scan_j p
  have hij : ¬(scan cmp base p).j ≤ (scan cmp base p).i := by assumption
  omega

/-- What holds of the variables of the partition, whatever the comparison is. -/
structure Scan.Ok (n : ℕ) (p : Scan ε M) : Prop where
  pivot : 0 < p.lt
  lt_le : p.lt ≤ p.i
  i_le : p.i ≤ p.j
  j_le : p.j ≤ p.gt
  gt_le : p.gt ≤ n

/-- The same after the second inner loop, which may leave `j` below `i`. -/
structure Scan.Done (n : ℕ) (p : Scan ε M) : Prop where
  pivot : 0 < p.lt
  lt_le : p.lt ≤ p.i
  i_le : p.i ≤ p.j + 1
  j_lt : p.j < p.gt
  gt_le : p.gt ≤ n

variable {n : ℕ} {p : Scan ε M}

theorem scanUp_ok (cmp : Cmp ε M) (base : ℕ) (h : p.Ok n) : (scanUp cmp base p).Ok n := by
  fun_induction scanUp cmp base p with
  | case1 p hlt _ _ _ ih =>
    refine ih ⟨Nat.succ_pos _, Nat.succ_le_succ h.lt_le, hlt, h.j_le, h.gt_le⟩
  | case2 p hlt _ _ _ ih => exact ih ⟨h.pivot, Nat.le_succ_of_le h.lt_le, hlt, h.j_le, h.gt_le⟩
  | case3 => exact ⟨h.pivot, h.lt_le, h.i_le, h.j_le, h.gt_le⟩
  | case4 => exact h

theorem scanDown_done {i lt : ℕ} (j gt : ℕ) (s : Memory ε M) (hlt : 0 < lt) (hi : lt ≤ i)
    (hij : i ≤ j) (hj : j ≤ gt) (hgt : gt ≤ n) : (scanDown cmp base i lt j gt s).Done n := by
  fun_induction scanDown cmp base i lt j gt s with
  | case1 => omega
  | case2 _ _ _ hij' _ _ _ ih => exact ih (by omega) (by omega) (by omega)
  | case3 _ _ _ hij' _ _ _ ih => exact ih (by omega) (by omega) (by omega)
  | case4 => exact ⟨hlt, hi, hij, hj, hgt⟩
  | case5 => exact ⟨hlt, hi, hij, hj, hgt⟩

theorem scan_done (h : p.Ok n) : (scan cmp base p).Done n := by
  have hp := scanUp_ok cmp base h
  exact scanDown_done _ _ _ hp.pivot hp.lt_le hp.i_le hp.j_le hp.gt_le

theorem partitionLoop_done (cmp : Cmp ε M) (base : ℕ) (h : p.Ok n) :
    (partitionLoop cmp base p).Done n ∧ (partitionLoop cmp base p).j ≤ (partitionLoop cmp base p).i := by
  fun_induction partitionLoop cmp base p with
  | case1 p q hq => exact ⟨scan_done h, hq⟩
  | case2 p q hq ih =>
    have hd : q.Done n := scan_done h
    exact ih ⟨hd.pivot, Nat.le_succ_of_le hd.lt_le, Nat.succ_le_of_lt (Nat.lt_of_not_le hq),
      Nat.le_of_lt hd.j_lt, hd.gt_le⟩

/-- What the partition leaves: the ends of the part below the pivot and of the part equal to it. -/
structure Cut (ε M : Type) where
  lt : ℕ
  gt : ℕ
  mem : Memory ε M

/-- Move the elements that are equal to the pivot from both ends into the middle. -/
def Scan.cut (base n : ℕ) (p : Scan ε M) : Cut ε M :=
  let below := min p.lt (p.i - p.lt)
  let above := min (n - p.gt) (p.gt - p.i)
  ⟨p.i - p.lt, n - (p.gt - p.i), swapBlock (base + p.i) (base + n - above) above
      (swapBlock base (base + p.i - below) below p.mem)⟩

/-- One round of the loop of `rqsort`: choose a pivot and partition the segment. -/
def partition (cmp : Cmp ε M) (base n : ℕ) (s : Memory ε M) : Cut ε M :=
  let m4 := n / 4
  let m := med3 cmp (base + m4) (base + 2 * m4) (base + 3 * m4) s
  (partitionLoop cmp base ⟨1, 1, n, n, swap base m.1 m.2⟩).cut base n

/-- The pivot is in neither part. -/
theorem partition_lt (cmp : Cmp ε M) (base : ℕ) (hn : 0 < n) (s : Memory ε M) :
    (partition cmp base n s).lt + (n - (partition cmp base n s).gt) < n ∧
      (partition cmp base n s).lt < (partition cmp base n s).gt ∧ (partition cmp base n s).gt ≤ n := by
  have hm : ∀ m : ℕ × Memory ε M, (⟨1, 1, n, n, swap base m.1 m.2⟩ : Scan ε M).Ok n := fun m =>
    ⟨Nat.one_pos, Nat.le_refl _, hn, Nat.le_refl _, Nat.le_refl _⟩
  obtain ⟨hd, hji⟩ := partitionLoop_done cmp base
    (hm (med3 cmp (base + n / 4) (base + 2 * (n / 4)) (base + 3 * (n / 4)) s))
  have h1 := hd.pivot
  have h2 := hd.lt_le
  have h3 := hd.i_le
  have h4 := hd.j_lt
  have h5 := hd.gt_le
  unfold partition Scan.cut
  dsimp only
  omega

/-! ## The main loop -/

/-- A segment to be sorted, and how often it has been cut. -/
structure Segment where
  base : ℕ
  count : ℕ
  depth : ℕ

/-- The two segments that a cut leaves, the smaller one first. -/
def Segment.parts (seg : Segment) (p : Cut ε M) : List Segment :=
  let below := ⟨seg.base, p.lt, seg.depth + 1⟩
  let above := ⟨seg.base + p.gt, seg.count - p.gt, seg.depth + 1⟩
  if seg.count - p.gt < p.lt then [above, below] else [below, above]

/-- How many rounds a stack of segments can take. -/
def rounds (stack : List Segment) : ℕ := (stack.map fun seg => 2 * seg.count + 1).sum

/-- The main loop of `rqsort`. The segment that is worked on is the top of the stack. -/
def rqsortLoop (cmp : Cmp ε M) : List Segment → Memory ε M → Memory ε M
  | [], s => s
  | seg :: stack, s =>
    if 6 < seg.count then
      if 50 < seg.depth + 1 then rqsortLoop cmp stack (heapsortx cmp seg.base seg.count s)
      else
        let p := partition cmp seg.base seg.count s
        rqsortLoop cmp (seg.parts p ++ stack) p.mem
    else rqsortLoop cmp stack (insertionSort cmp seg.base (seg.count - 1) s)
termination_by stack => rounds stack
decreasing_by
  · simp [rounds]
  · have hp := partition_lt cmp seg.base (Nat.zero_lt_of_lt ‹6 < seg.count›) s
    simp only [rounds, Segment.parts, List.map_append, List.map_cons, List.sum_append]
    split
    · simp; omega
    · simp; omega
  · simp [rounds]

/-- `rqsort`. -/
def rqsort (cmp : Cmp ε M) (n : ℕ) (s : Memory ε M) : Memory ε M :=
  if n < 2 then s else rqsortLoop cmp [⟨0, n, 0⟩] s

end QuickJs.Rqsort
