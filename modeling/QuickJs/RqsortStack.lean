import QuickJs.RqsortRefines
import QuickJs.RqsortSorted

/-!
# The stack of `rqsort`

The segments that wait are kept in fifty slots. `rqsort` puts the larger part of a cut on the stack and goes on with
the smaller one; a segment that has been cut fifty times is left to the heap sort. Under each segment there are then no
more others than it has been cut, and the slots are enough.
-/

namespace QuickJs.Cutils

open QuickJs.Exchange (Cmp Agrees Steps Memory)

variable {M : Type} {size : ℕ}

/-- A slot of the stack. -/
structure Slot where
  base : ℕ
  count : ℕ
  depth : ℕ

/-- `stack[50]` -/
def slots : ℕ := 50

/-- How many rounds a stack can take. -/
def slotRounds (stack : List Slot) : ℕ := (stack.map fun f => 2 * f.count + 1).sum

variable {n : ℕ} {f : Slot} {stack : List Slot}

/-- The pivot is in neither part of a cut. -/
theorem partition_count [NeZero size] (cmp : Cmp (Element size) M) (base ptr : ℕ) (hn : 0 < n) (s : State M) :
    let c := partition cmp (exchangeFunc base size) (exchangeFunc base (size ||| 128)) ptr n s
    c.lt + (n - c.gt) < n := by
  have hptr : ptr = ptr + 0 * size := by rw [Nat.zero_mul, Nat.add_zero]
  have hcut := partition_shows cmp 0 (exchanges_exchangeFunc base size) (exchanges_block base size) hn hptr
    (shows_elements size ptr s)
  have hlt := (Rqsort.partition_lt cmp 0 hn (s.elements size ptr)).1
  dsimp only
  rwa [hcut.lt, hcut.gt]

/-- The loops of `rqsort`. The segment that is worked on stands before the stack, the top of the stack first. A push
when all slots are taken would write outside of the stack; there is no result then. -/
def rqsortLoop [NeZero size] (cmp : Cmp (Element size) M) (base : ℕ) : List Slot → State M → Option (State M)
  | [], s => some s
  | ⟨ptr, nmemb, depth⟩ :: stack, s =>
    let swap := exchangeFunc base size
    let swapBlock := exchangeFunc base (size ||| 128)
    if 6 < nmemb then
      if 50 < depth + 1 then
        -- the insertion sort follows with `nmemb` zero
        rqsortLoop cmp base stack (insertionSort cmp swap ptr (ptr + size) (ptr + 0 * size) (heapsortx cmp ptr nmemb s))
      else
        let c := partition cmp swap swapBlock ptr nmemb s
        if stack.length < slots then
          if nmemb - c.gt < c.lt then
            rqsortLoop cmp base (⟨c.pgt, nmemb - c.gt, depth + 1⟩ :: ⟨ptr, c.lt, depth + 1⟩ :: stack) c.state
          else rqsortLoop cmp base (⟨ptr, c.lt, depth + 1⟩ :: ⟨c.pgt, nmemb - c.gt, depth + 1⟩ :: stack) c.state
        else none
    else rqsortLoop cmp base stack (insertionSort cmp swap ptr (ptr + size) (ptr + nmemb * size) s)
termination_by stack => slotRounds stack
decreasing_by
  · simp [slotRounds]
  · have hc := partition_count cmp base ptr (Nat.zero_lt_of_lt ‹6 < nmemb›) s
    simp only [slotRounds, List.map_cons, List.sum_cons]
    omega
  · have hc := partition_count cmp base ptr (Nat.zero_lt_of_lt ‹6 < nmemb›) s
    simp only [slotRounds, List.map_cons, List.sum_cons]
    omega
  · simp [slotRounds]

/-- `rqsort` -/
def rqsort (cmp : Cmp (Element size) M) (base nmemb : ℕ) (s : State M) : Option (State M) :=
  if h : nmemb < 2 ∨ size = 0 then some s
  else
    have : NeZero size := ⟨fun h0 => h (.inr h0)⟩
    rqsortLoop cmp base [⟨base, nmemb, 0⟩] s

/-! ## The depth of the stack -/

/-- Under each segment there are no more others than it has been cut. -/
def Room : List Slot → Prop
  | [] => True
  | f :: stack => stack.length ≤ f.depth ∧ Room stack

/-- There is a slot for a segment that may be cut. -/
theorem Room.length_lt (h : Room (f :: stack)) (hdepth : ¬50 < f.depth + 1) :
    stack.length < slots := by
  have hle := h.1
  unfold slots
  omega

/-- A cut leaves two segments that have been cut once more. -/
theorem Room.cut {g g' : Slot} (h : Room (f :: stack)) (hg : g.depth = f.depth + 1)
    (hg' : g'.depth = f.depth + 1) : Room (g :: g' :: stack) := by
  obtain ⟨hle, hstack⟩ := h
  refine ⟨?_, ?_, hstack⟩
  · rw [hg]
    exact Nat.succ_le_succ hle
  · rw [hg']
    exact Nat.le_succ_of_le hle

/-! ## The run on elements -/

/-- The slot for a segment of the elements that lie in memory from `A` on. -/
def segmentSlot (A size : ℕ) (seg : Rqsort.Segment) : Slot := ⟨A + seg.base * size, seg.count, seg.depth⟩

variable {cmp : Cmp (Element size) M} {A base : ℕ} {m : Bytes} {s : State M} {t : Memory (Element size) M}

/-- **The loops on memory do what the loop on elements does**, and the stack does not overflow. -/
theorem rqsortLoop_shows [NeZero size] (cmp : Cmp (Element size) M) (base : ℕ) (stack : List Rqsort.Segment)
    (hroom : Room (stack.map (segmentSlot A size))) (h : Shows A m s t) :
    ∃ s', rqsortLoop cmp base (stack.map (segmentSlot A size)) s = some s' ∧
      Shows A m s' (Rqsort.rqsortLoop cmp stack t) := by
  have hswap := exchanges_exchangeFunc base size
  have hblock := exchanges_block base size
  revert s
  fun_induction Rqsort.rqsortLoop cmp stack t with
  | case1 t =>
    intro s h
    exact ⟨s, by rw [List.map_nil, rqsortLoop], h⟩
  | case2 seg stack t hcount hdepth ih =>
    intro s h
    obtain ⟨s', hs', hshows⟩ := ih hroom.2 (heapsortx_shows seg.base seg.count h rfl)
    refine ⟨s', ?_, hshows⟩
    rw [List.map_cons, segmentSlot, rqsortLoop, if_pos hcount, if_pos hdepth, insertionSort, if_neg (by omega)]
    exact hs'
  | case3 seg stack t hcount hdepth p =>
    rename_i ih
    intro s h
    have hlength := hroom.length_lt hdepth
    have hcut := partition_shows cmp seg.base hswap hblock (Nat.zero_lt_of_lt hcount) rfl h
    unfold Rqsort.Segment.parts at ih ⊢
    rw [List.map_cons, segmentSlot, rqsortLoop, if_pos hcount, if_neg hdepth, if_pos hlength]
    rw [hcut.lt, hcut.gt, hcut.pgt]
    split
    · rename_i hlt
      rw [if_pos hlt] at ih
      exact ih (hroom.cut rfl rfl) hcut.state
    · rename_i hlt
      rw [if_neg hlt] at ih
      exact ih (hroom.cut rfl rfl) hcut.state
  | case4 seg stack t hcount ih =>
    intro s h
    have hsorted : Shows A m (insertionSort cmp (exchangeFunc base size) (A + seg.base * size)
        (A + seg.base * size + size) (A + seg.base * size + seg.count * size) s)
        (Rqsort.insertionSort cmp seg.base (seg.count - 1) t) := by
      have hone := place_succ size A seg.base 0
      rcases Nat.eq_zero_or_pos seg.count with hzero | hpos
      · rw [hzero, insertionSort, if_neg (by omega)]
        exact h
      · refine insertionSort_shows (k := 0) hswap h (Nat.zero_le _) rfl hone ?_
        rw [Nat.sub_add_cancel hpos, Nat.add_mul, Nat.add_assoc]
    obtain ⟨s', hs', hshows⟩ := ih hroom.2 hsorted
    refine ⟨s', ?_, hshows⟩
    rw [List.map_cons, segmentSlot, rqsortLoop, if_neg hcount]
    exact hs'

theorem rqsort_shows [NeZero size] (cmp : Cmp (Element size) M) (base nmemb : ℕ) (s : State M) :
    ∃ s', rqsort cmp base nmemb s = some s' ∧
      Shows base s.bytes s' (Rqsort.rqsort cmp nmemb (s.elements size base)) := by
  have hsize : size ≠ 0 := NeZero.ne size
  have hloop := rqsortLoop_shows cmp base [⟨0, nmemb, 0⟩] ⟨Nat.le_refl _, trivial⟩ (shows_elements size base s)
  rw [List.map_singleton, segmentSlot, Nat.zero_mul] at hloop
  unfold rqsort Rqsort.rqsort
  by_cases hn : nmemb < 2
  · rw [dif_pos (.inl hn), if_pos hn]
    exact ⟨s, rfl, shows_elements size base s⟩
  · rw [dif_neg fun h => h.elim hn hsize, if_neg hn]
    exact hloop

/-- A byte outside of the array belongs to no element that has been moved. -/
theorem bytes_eq_of_steps [NeZero size] {s s' : State M}
    (h : Steps cmp 0 n (s.elements size A) (s'.elements size A)) (hbelow : ∀ x < A, s'.bytes x = s.bytes x) {x : ℕ}
    (hx : ¬(A ≤ x ∧ x < A + n * size)) : s'.bytes x = s.bytes x := by
  rcases Nat.lt_or_ge x A with hlt | hge
  · exact hbelow x hlt
  have hpos := Nat.pos_of_neZero size
  have hindex : n ≤ (x - A) / size := (Nat.le_div_iff_mul_le hpos).mpr (by omega)
  have hplace : A + (x - A) / size * size + (x - A) % size = x := by
    have hdiv := Nat.div_add_mod' (x - A) size
    omega
  have helem := h.elem_eq (x := (x - A) / size) (by omega)
  have hbyte : s'.bytes (A + (x - A) / size * size + (x - A) % size) =
      s.bytes (A + (x - A) / size * size + (x - A) % size) :=
    congrFun helem ⟨(x - A) % size, Nat.mod_lt _ hpos⟩
  rwa [hplace] at hbyte

/-! ## The array -/

/-- The elements of the array. -/
def State.array (size base nmemb : ℕ) (s : State M) : List (Element size) :=
  (List.range nmemb).map (s.elements size base).elem

theorem pairwise_array {le : Element size → Element size → Prop}
    (h : Exchange.SortedOn le 0 n (s.elements size base)) : (s.array size base n).Pairwise le := by
  refine List.pairwise_map.mpr (List.pairwise_lt_range.imp_of_mem fun _ hj hij => ?_)
  exact h _ _ (Nat.zero_le _) hij (List.mem_range.mp hj)

/-- Where the elements have no bytes, they are all equal. -/
theorem pairwise_empty {cmp : Cmp (Element 0) M} {le : Element 0 → Element 0 → Prop} {I : M → Prop}
    (h : Agrees cmp le (fun _ => True) I) (hI : I s.world) (base n : ℕ) : (s.array 0 base n).Pairwise le := by
  refine pairwise_array fun x y _ _ _ => ?_
  exact h.refl (s := s.elements 0 base) ⟨fun _ => trivial, hI⟩ x

/-- **`rqsort` is robust.** For every array and every comparison, also one that contradicts itself or changes a state,
it ends without overflow of its stack, it has only compared and exchanged elements of the array, so that nothing else in
memory has changed and the array is a permutation of what it was; and it has sorted the array if the comparison is a
total preorder. -/
theorem rqsort_robust (cmp : Cmp (Element size) M) (base nmemb : ℕ) (s : State M) :
    ∃ s', rqsort cmp base nmemb s = some s' ∧
      Steps cmp 0 nmemb (s.elements size base) (s'.elements size base) ∧
      (∀ x, ¬(base ≤ x ∧ x < base + nmemb * size) → s'.bytes x = s.bytes x) ∧
      (s'.array size base nmemb).Perm (s.array size base nmemb) ∧
      ∀ (le : Element size → Element size → Prop) (I : M → Prop), Agrees cmp le (fun _ => True) I → I s.world →
        (s'.array size base nmemb).Pairwise le := by
  rcases Nat.eq_zero_or_pos size with rfl | hpos
  · exact ⟨s, dif_pos (.inr rfl), .refl, fun _ _ => rfl, .refl _, fun le I h hI => pairwise_empty h hI base nmemb⟩
  · have : NeZero size := ⟨Nat.ne_of_gt hpos⟩
    obtain ⟨s', hs', hshows⟩ := rqsort_shows cmp base nmemb s
    have hsteps : Steps cmp 0 nmemb (s.elements size base) (s'.elements size base) := by
      rw [hshows.elements_eq]
      exact Rqsort.rqsort_steps nmemb _
    refine ⟨s', hs', hsteps, fun x hx => bytes_eq_of_steps hsteps hshows.below hx, hsteps.perm, fun le I h hI => ?_⟩
    refine pairwise_array ?_
    rw [hshows.elements_eq]
    exact Rqsort.rqsort_sorted h ⟨fun _ => trivial, hI⟩ nmemb

/-- The difference of two bytes; the comparisons are counted. -/
def compareBytes : Cmp (Element 1) ℕ := fun x y calls => ((x 0).toNat - (y 0).toNat, calls + 1)

theorem compareBytes_agrees : Agrees compareBytes (fun x y => (x 0).toNat ≤ (y 0).toNat) (fun _ => True)
    (fun _ => True) where
  trans _ _ _ _ _ _ := Nat.le_trans
  nonpos _ _ _ _ _ _ := by
    unfold compareBytes
    omega
  nonneg _ _ _ _ _ _ := by
    unfold compareBytes
    omega
  keep _ _ _ _ _ _ := trivial

/-- Three bytes in falling order are sorted. -/
theorem rqsort_robust_three : ∃ s', rqsort compareBytes 16 3 ⟨fun x => UInt8.ofNat (100 - x), 0⟩ = some s' ∧
    (s'.array 1 16 3).Pairwise fun x y => (x 0).toNat ≤ (y 0).toNat := by
  obtain ⟨s', hs', -, -, -, hsorted⟩ := rqsort_robust compareBytes 16 3 ⟨fun x => UInt8.ofNat (100 - x), 0⟩
  exact ⟨s', hs', hsorted _ _ compareBytes_agrees trivial⟩

end QuickJs.Cutils
