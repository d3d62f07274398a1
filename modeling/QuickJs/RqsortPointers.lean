import QuickJs.RqsortSteps

/-!
# `rqsort` in memory

The function as it is written: the elements are blocks of bytes, the array is walked with pointers, the exchange is done
by the function that `exchange_func` has chosen, and the segments that wait are kept in a stack of fifty slots. A
comparison gets the bytes of two elements.
-/

namespace QuickJs.Cutils

open QuickJs.Exchange (Cmp)

variable {M : Type} {size : ℕ}

/-- The bytes of an element. -/
abbrev Element (size : ℕ) : Type := Fin size → UInt8

def element (size a : ℕ) (m : Bytes) : Element size := fun k => m (a + k)

/-- The memory, and the state of the comparison. -/
structure State (M : Type) where
  bytes : Bytes
  world : M

/-- `cmp` is called with two pointers. -/
def compareAt (cmp : Cmp (Element size) M) (a b : ℕ) (s : State M) : ℤ × State M :=
  let r := cmp (element size a s.bytes) (element size b s.bytes) s.world
  (r.1, { s with world := r.2 })

/-- An exchange function is called. -/
def exchangeAt (swap : Exchange) (a b n : ℕ) (s : State M) : State M := { s with bytes := swap a b n s.bytes }

variable (cmp : Cmp (Element size) M) (swap : Exchange)

/-! ## Insertion sort and heap sort -/

/-- The inner loop of the insertion sort. -/
def insertDown [NeZero size] (ptr pj : ℕ) (s : State M) : State M :=
  if ptr < pj then
    let c := compareAt cmp (pj - size) pj s
    if 0 < c.1 then insertDown ptr (pj - size) (exchangeAt swap pj (pj - size) size c.2) else c.2
  else s
termination_by pj
decreasing_by
  have := Nat.pos_of_neZero size
  omega

/-- The insertion sort, from `pi` on. -/
def insertionSort [NeZero size] (ptr pi top : ℕ) (s : State M) : State M :=
  if pi < top then insertionSort ptr (pi + size) top (insertDown cmp swap ptr pi s) else s
termination_by top - pi
decreasing_by
  have := Nat.pos_of_neZero size
  omega

/-- The greater child of a node of the heap, by its offset. -/
def greaterChild (basep n c : ℕ) (s : State M) : ℕ × State M :=
  if c < n - size then
    let d := compareAt cmp (basep + c) (basep + c + size) s
    (if d.1 ≤ 0 then c + size else c, d.2)
  else (c, s)

theorem le_greaterChild (basep n c : ℕ) (s : State M) : c ≤ (greaterChild cmp basep n c s).1 := by
  unfold greaterChild
  split
  · dsimp only
    split
    · exact Nat.le_add_right _ _
    · exact Nat.le_refl _
  · exact Nat.le_refl _

/-- The inner loops of `heapsortx`. -/
def siftDown [NeZero size] (basep n r : ℕ) (s : State M) : State M :=
  if r * 2 + size < n then
    let child := greaterChild cmp basep n (r * 2 + size) s
    let d := compareAt cmp (basep + r) (basep + child.1) child.2
    if 0 < d.1 then d.2 else siftDown basep n child.1 (exchangeAt swap (basep + r) (basep + child.1) size d.2)
  else s
termination_by n - r
decreasing_by
  have := Nat.pos_of_neZero size
  have := le_greaterChild cmp basep n (r * 2 + size) s
  omega

/-- The first loop of `heapsortx`. -/
def heapify [NeZero size] (basep n i : ℕ) (s : State M) : State M :=
  if 0 < i then heapify basep n (i - size) (siftDown cmp swap basep n (i - size) s) else s
termination_by i
decreasing_by
  have := Nat.pos_of_neZero size
  omega

/-- The second loop of `heapsortx`. -/
def extract [NeZero size] (basep i : ℕ) (s : State M) : State M :=
  if 0 < i then extract basep (i - size) (siftDown cmp swap basep i 0 (exchangeAt swap basep (basep + i) size s)) else s
termination_by i
decreasing_by
  have := Nat.pos_of_neZero size
  omega

/-- `heapsortx` -/
def heapsortx [NeZero size] (basep nmemb : ℕ) (s : State M) : State M :=
  let swap := exchangeFunc basep size
  if 1 < nmemb then
    let n := nmemb * size
    extract cmp swap basep (n - size) (heapify cmp swap basep n (nmemb / 2 * size) s)
  else s

/-! ## The partition -/

/-- `med3` -/
def med3 (a b c : ℕ) (s : State M) : ℕ × State M :=
  let ab := compareAt cmp a b s
  let bc := compareAt cmp b c ab.2
  let ac := compareAt cmp a c bc.2
  if ab.1 < 0 then
    if bc.1 < 0 then (b, bc.2) else (if ac.1 < 0 then c else a, ac.2)
  else if 0 < bc.1 then (b, bc.2)
  else (if ac.1 < 0 then a else c, ac.2)

/-- The variables of the partition. -/
structure Scan (M : Type) where
  i : ℕ
  lt : ℕ
  gt : ℕ
  pi : ℕ
  pj : ℕ
  plt : ℕ
  pgt : ℕ
  state : State M

/-- The first inner loop. -/
def scanUp [NeZero size] (ptr : ℕ) (p : Scan M) : Scan M :=
  if p.pi < p.pj then
    let c := compareAt cmp ptr p.pi p.state
    if 0 ≤ c.1 then
      if c.1 = 0 then
        scanUp ptr { p with
          i := p.i + 1, pi := p.pi + size, lt := p.lt + 1, plt := p.plt + size
          state := exchangeAt swap p.plt p.pi size c.2 }
      else scanUp ptr { p with i := p.i + 1, pi := p.pi + size, state := c.2 }
    else { p with state := c.2 }
  else p
termination_by p.pj - p.pi
decreasing_by
  all_goals
    have := Nat.pos_of_neZero size
    omega

/-- The second inner loop; `pj` is decremented before each test. -/
def scanDown [NeZero size] (ptr : ℕ) (p : Scan M) : Scan M :=
  let pj := p.pj - size
  if p.pi < pj then
    let c := compareAt cmp ptr pj p.state
    if c.1 ≤ 0 then
      if c.1 = 0 then
        scanDown ptr { p with
          pj := pj, gt := p.gt - 1, pgt := p.pgt - size
          state := exchangeAt swap (p.pgt - size) pj size c.2 }
      else scanDown ptr { p with pj := pj, state := c.2 }
    else { p with pj := pj, state := c.2 }
  else { p with pj := pj }
termination_by p.pj
decreasing_by
  all_goals
    have := Nat.pos_of_neZero size
    omega

theorem scanUp_pj [NeZero size] (ptr : ℕ) (p : Scan M) : (scanUp cmp swap ptr p).pj = p.pj := by
  fun_induction scanUp cmp swap ptr p with
  | case1 _ _ _ _ _ ih => exact ih
  | case2 _ _ _ _ _ ih => exact ih
  | case3 => rfl
  | case4 => rfl

theorem scanDown_pj [NeZero size] (ptr : ℕ) (p : Scan M) : (scanDown cmp swap ptr p).pj ≤ p.pj - size := by
  fun_induction scanDown cmp swap ptr p with
  | case1 _ _ _ _ _ _ ih => exact Nat.le_trans ih (Nat.sub_le ..)
  | case2 _ _ _ _ _ _ ih => exact Nat.le_trans ih (Nat.sub_le ..)
  | case3 => exact Nat.le_refl _
  | case4 => exact Nat.le_refl _

/-- The main loop of the partition. -/
def partitionLoop [NeZero size] (ptr : ℕ) (p : Scan M) : Scan M :=
  let q := scanDown cmp swap ptr (scanUp cmp swap ptr p)
  if q.pj ≤ q.pi then q
  else partitionLoop ptr { q with
    i := q.i + 1, pi := q.pi + size, state := exchangeAt swap q.pi q.pj size q.state }
termination_by p.pj
decreasing_by
  have := Nat.pos_of_neZero size
  have hpj := scanDown_pj cmp swap ptr (scanUp cmp swap ptr p)
  rw [scanUp_pj] at hpj
  have hlt : ¬(scanDown cmp swap ptr (scanUp cmp swap ptr p)).pj ≤
      (scanDown cmp swap ptr (scanUp cmp swap ptr p)).pi := by assumption
  omega

/-- What the partition leaves. -/
structure Cut (M : Type) where
  lt : ℕ
  gt : ℕ
  pgt : ℕ
  state : State M

/-- Exchange the elements that are equal to the pivot with those in the middle. -/
def Scan.cut (swapBlock : Exchange) (size ptr nmemb : ℕ) (p : Scan M) : Cut M :=
  let top := ptr + nmemb * size
  let span := min (p.plt - ptr) (p.pi - p.plt)
  let s := exchangeAt swapBlock ptr (p.pi - span) span p.state
  let span2 := p.pgt - p.pi
  let span := min (top - p.pgt) span2
  ⟨p.i - p.lt, nmemb - (p.gt - p.i), top - span2, exchangeAt swapBlock p.pi (top - span) span s⟩

/-- One round of the loop of `rqsort`. -/
def partition [NeZero size] (swapBlock : Exchange) (ptr nmemb : ℕ) (s : State M) : Cut M :=
  let m4 := nmemb / 4 * size
  let m := med3 cmp (ptr + m4) (ptr + 2 * m4) (ptr + 3 * m4) s
  let top := ptr + nmemb * size
  (partitionLoop cmp swap ptr ⟨1, 1, nmemb, ptr + size, top, ptr + size, top, exchangeAt swap ptr m.1 size m.2⟩).cut
    swapBlock size ptr nmemb

end QuickJs.Cutils
