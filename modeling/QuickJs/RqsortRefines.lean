import QuickJs.RqsortPointers

/-!
# The pointers of `rqsort` and the elements they show

An array of elements in memory shows a sequence of elements. Each function of `rqsort` that walks the memory with
pointers does to the sequence what the function on elements does, and it writes nothing below the array.
-/

namespace QuickJs.Cutils

open QuickJs.Exchange (Cmp Memory)

variable {M : Type} {size : ℕ}

/-- The elements that lie in memory from `A` on. -/
def State.elements (size A : ℕ) (s : State M) : Memory (Element size) M :=
  ⟨fun i => element size (A + i * size) s.bytes, s.world⟩

/-- The memory shows the elements of `t` from `A` on; below it is still `m`. -/
structure Shows (A : ℕ) (m : Bytes) (s : State M) (t : Memory (Element size) M) : Prop where
  elem : ∀ i, element size (A + i * size) s.bytes = t.elem i
  world : s.world = t.world
  below : ∀ x < A, s.bytes x = m x

variable {cmp : Cmp (Element size) M} {swap swapBlock : Exchange} {A base : ℕ} {m : Bytes} {s : State M}
  {t : Memory (Element size) M}

theorem shows_elements (size A : ℕ) (s : State M) : Shows A s.bytes s (s.elements size A) :=
  ⟨fun _ => rfl, rfl, fun _ _ => rfl⟩

theorem Shows.elements_eq (h : Shows A m s t) : s.elements size A = t := by
  exact congrArg₂ Memory.mk (funext h.elem) h.world

variable {a b i j k n basep : ℕ}

theorem Shows.compare (cmp : Cmp (Element size) M) (h : Shows A m s t) (ha : a = A + i * size)
    (hb : b = A + j * size) :
    (compareAt cmp a b s).1 = (Exchange.compare cmp i j t).1 ∧
      Shows A m (compareAt cmp a b s).2 (Exchange.compare cmp i j t).2 := by
  have hcmp : cmp (element size a s.bytes) (element size b s.bytes) s.world = cmp (t.elem i) (t.elem j) t.world := by
    rw [ha, hb, h.elem, h.elem, h.world]
  exact ⟨congrArg Prod.fst hcmp, h.elem, congrArg Prod.snd hcmp, h.below⟩

/-- Two elements of the array are the same or apart. -/
theorem apart_elements (size A i j : ℕ) : Apart (A + i * size) (A + j * size) size := by
  rcases Nat.lt_trichotomy i j with hij | rfl | hij
  · have hle : (i + 1) * size ≤ j * size := Nat.mul_le_mul_right _ hij
    rw [Nat.succ_mul] at hle
    exact .inr (.inl (by omega))
  · exact .inl rfl
  · have hle : (j + 1) * size ≤ i * size := Nat.mul_le_mul_right _ hij
    rw [Nat.succ_mul] at hle
    exact .inr (.inr (by omega))

/-- What an exchange of blocks of elements leaves at an element. -/
theorem element_swapBytes (A : ℕ) (m : Bytes) (hij : Apart (A + i * size) (A + j * size) (k * size)) (x : ℕ) :
    element size (A + x * size) (swapBytes (A + i * size) (A + j * size) (k * size) m) =
      if i ≤ x ∧ x < i + k then element size (A + (x - i + j) * size) m
      else if j ≤ x ∧ x < j + k then element size (A + (x - j + i) * size) m else element size (A + x * size) m := by
  -- an element lies in a block whole, or not at all
  have hmem : ∀ (p : ℕ) (y : Fin size), p ≤ x ∧ x < p + k ↔
      A + p * size ≤ A + x * size + y ∧ A + x * size + y < A + p * size + k * size := by
    intro p y
    rw [Nat.add_assoc A (p * size), ← Nat.add_mul]
    constructor
    · rintro ⟨hp, hlt⟩
      have hp := Nat.mul_le_mul_right size hp
      have hlt : (x + 1) * size ≤ (p + k) * size := Nat.mul_le_mul_right size hlt
      rw [Nat.succ_mul] at hlt
      omega
    · by_contra hx
      rcases Nat.lt_or_ge x p with hxp | hxp
      · have hle : (x + 1) * size ≤ p * size := Nat.mul_le_mul_right size hxp
        rw [Nat.succ_mul] at hle
        omega
      · have hle : (p + k) * size ≤ x * size := Nat.mul_le_mul_right size (by omega)
        omega
  have hmove : ∀ (p q : ℕ) (y : Fin size), p ≤ x →
      A + x * size + y - (A + p * size) + (A + q * size) = A + (x - p + q) * size + y := by
    intro p q y hp
    have hle := Nat.mul_le_mul_right size hp
    rw [Nat.add_mul, Nat.sub_mul]
    omega
  funext y
  by_cases hi : i ≤ x ∧ x < i + k
  · rw [if_pos hi, element, swapBytes_first m ((hmem i y).mp hi), hmove i j y hi.1, element]
  · rw [if_neg hi]
    by_cases hj : j ≤ x ∧ x < j + k
    · rw [if_pos hj, element, swapBytes_second m ((hmem j y).mp hj) hij, hmove j i y hj.1, element]
    · rw [if_neg hj, element, swapBytes_other m (fun h => hi ((hmem i y).mpr h)) (fun h => hj ((hmem j y).mpr h)),
      element]

theorem swapBytes_below {x : ℕ} (m : Bytes) (ha : x < a) (hb : x < b) : swapBytes a b n m x = m x :=
  swapBytes_other m (by omega) (by omega)

theorem Shows.exchange (hswap : Exchanges swap size) (h : Shows A m s t) (ha : a = A + i * size)
    (hb : b = A + j * size) : Shows A m (exchangeAt swap a b size s) (Exchange.swap i j t) := by
  have hapart := apart_elements size A i j
  have hbytes : (exchangeAt swap a b size s).bytes = swapBytes (A + i * size) (A + j * size) (1 * size) s.bytes := by
    rw [Nat.one_mul, ha, hb]
    exact hswap _ _ _ hapart
  refine ⟨fun x => ?_, h.world, fun x hx => ?_⟩
  · rw [hbytes, element_swapBytes A s.bytes (by rwa [Nat.one_mul]), Exchange.swap_elem]
    simp only [h.elem]
    by_cases hi : x = i
    · rw [if_pos hi, if_pos (by omega), hi, Nat.sub_self, Nat.zero_add]
    by_cases hj : x = j
    · rw [if_neg hi, if_pos hj, if_neg (by omega), if_pos (by omega), hj, Nat.sub_self, Nat.zero_add]
    · rw [if_neg hi, if_neg hj, if_neg (by omega), if_neg (by omega)]
  · rw [hbytes, swapBytes_below _ (by omega) (by omega)]
    exact h.below x hx

/-- The exchange of blocks exchanges the elements of two blocks that are apart. -/
theorem Shows.exchangeBlock (hswap : ∀ k, Exchanges swapBlock (k * size)) (h : Shows A m s t)
    (ha : a = A + i * size) (hb : b = A + j * size) (hn : n = k * size) (hij : i + k ≤ j) :
    Shows A m (exchangeAt swapBlock a b n s) (Exchange.swapBlock i j k t) := by
  have hapart : Apart (A + i * size) (A + j * size) (k * size) := by
    have hle := Nat.mul_le_mul_right size hij
    rw [Nat.add_mul] at hle
    exact .inr (.inl (by omega))
  have hbytes : (exchangeAt swapBlock a b n s).bytes =
      swapBytes (A + i * size) (A + j * size) (k * size) s.bytes := by
    rw [ha, hb, hn]
    exact hswap k _ _ _ hapart
  refine ⟨fun x => ?_, ?_, fun x hx => ?_⟩
  · rw [hbytes, element_swapBytes A s.bytes hapart, Exchange.swapBlock_elem hij]
    simp only [h.elem]
  · rw [Exchange.swapBlock_world]
    exact h.world
  · rw [hbytes, swapBytes_below _ (by omega) (by omega)]
    exact h.below x hx

/-! ## Insertion sort and heap sort -/

variable [NeZero size]

theorem insertDown_shows (hswap : Exchanges swap size) {ptr pj : ℕ} (h : Shows A m s t) (hptr : ptr = A + base * size)
    (hpj : pj = A + (base + k) * size) :
    Shows A m (insertDown cmp swap ptr pj s) (Rqsort.insertDown cmp base k t) := by
  induction k generalizing pj s t with
  | zero =>
    rw [insertDown, if_neg (by rw [hpj, hptr]; exact Nat.lt_irrefl _)]
    exact h
  | succ k ih =>
    have hpos := Nat.pos_of_neZero size
    have hsucc : (base + (k + 1)) * size = (base + k) * size + size := Nat.succ_mul (base + k) size
    have hle : base * size ≤ (base + k) * size := Nat.mul_le_mul_right size (Nat.le_add_right base k)
    have hprev : pj - size = A + (base + k) * size := by omega
    obtain ⟨hc, hd⟩ := h.compare cmp hprev hpj
    rw [insertDown, if_pos (by omega), Rqsort.insertDown]
    dsimp only
    rw [hc]
    split
    · exact ih (hd.exchange hswap hpj hprev) hprev
    · exact hd

theorem insertionSort_shows (hswap : Exchanges swap size) {ptr pi top : ℕ}
    (h : Shows A m s (Rqsort.insertionSort cmp base k t)) (hk : k ≤ n) (hptr : ptr = A + base * size)
    (hpi : pi = A + (base + (k + 1)) * size) (htop : top = A + (base + (n + 1)) * size) :
    Shows A m (insertionSort cmp swap ptr pi top s) (Rqsort.insertionSort cmp base n t) := by
  have hpos := Nat.pos_of_neZero size
  induction hd : n - k generalizing k pi s with
  | zero =>
    have hkn : k = n := by omega
    rw [insertionSort, if_neg (by rw [hpi, htop, hkn]; exact Nat.lt_irrefl _), ← hkn]
    exact h
  | succ d ih =>
    have hlt : (base + (k + 1) + 1) * size ≤ (base + (n + 1)) * size := Nat.mul_le_mul_right size (by omega)
    rw [Nat.succ_mul] at hlt
    rw [insertionSort, if_pos (by omega)]
    refine ih (k := k + 1) (insertDown_shows hswap h hptr hpi) (by omega) ?_ (by omega)
    rw [hpi, ← Nat.add_assoc base (k + 1) 1, Nat.succ_mul, Nat.add_assoc]

theorem greaterChild_shows (cmp : Cmp (Element size) M) {c : ℕ} (h : Shows A m s t)
    (hbasep : basep = A + base * size) :
    (greaterChild cmp basep (n * size) (c * size) s).1 = (Rqsort.greaterChild cmp base n c t).1 * size ∧
      Shows A m (greaterChild cmp basep (n * size) (c * size) s).2 (Rqsort.greaterChild cmp base n c t).2 := by
  have hpos := Nat.pos_of_neZero size
  have hfirst : basep + c * size = A + (base + c) * size := by rw [hbasep, Nat.add_mul, Nat.add_assoc]
  have hsecond : basep + c * size + size = A + (base + (c + 1)) * size := by
    rw [hfirst, ← Nat.add_assoc base, Nat.succ_mul, Nat.add_assoc]
  have hlt : c * size < n * size - size ↔ c < n - 1 := by
    rw [← Nat.sub_one_mul]
    exact Nat.mul_lt_mul_right hpos
  obtain ⟨hc, hd⟩ := h.compare cmp hfirst hsecond
  unfold greaterChild Rqsort.greaterChild
  by_cases hn : c < n - 1
  · rw [if_pos hn, if_pos (hlt.mpr hn)]
    dsimp only
    rw [hc]
    refine ⟨?_, hd⟩
    split
    · exact (Nat.succ_mul c size).symm
    · rfl
  · rw [if_neg hn, if_neg fun h => hn (hlt.mp h)]
    exact ⟨rfl, h⟩

theorem siftDown_shows (cmp : Cmp (Element size) M) (hswap : Exchanges swap size) {r : ℕ} (h : Shows A m s t)
    (hbasep : basep = A + base * size) :
    Shows A m (siftDown cmp swap basep (n * size) (r * size) s) (Rqsort.siftDown cmp base n r t) := by
  have hpos := Nat.pos_of_neZero size
  have hplace : ∀ c, basep + c * size = A + (base + c) * size := by
    intro c
    rw [hbasep, Nat.add_mul, Nat.add_assoc]
  have hchild : ∀ r, r * size * 2 + size = (2 * r + 1) * size := by
    intro r
    rw [Nat.succ_mul, Nat.mul_comm 2 r, Nat.mul_right_comm]
  revert s
  fun_induction Rqsort.siftDown cmp base n r t with
  | case1 r t hr child d =>
    rename_i hd
    intro s h
    obtain ⟨hc, hchildren⟩ := greaterChild_shows cmp (n := n) (c := 2 * r + 1) h hbasep
    obtain ⟨he, hcompare⟩ := hchildren.compare cmp (hplace r) (hplace child.1)
    rw [siftDown, hchild, if_pos (Nat.mul_lt_mul_of_pos_right hr hpos)]
    dsimp only
    rw [hc, if_pos (by rw [he]; exact hd)]
    exact hcompare
  | case2 r t hr child d hd =>
    rename_i ih
    intro s h
    obtain ⟨hc, hchildren⟩ := greaterChild_shows cmp (n := n) (c := 2 * r + 1) h hbasep
    obtain ⟨he, hcompare⟩ := hchildren.compare cmp (hplace r) (hplace child.1)
    rw [siftDown, hchild, if_pos (Nat.mul_lt_mul_of_pos_right hr hpos)]
    dsimp only
    rw [hc, if_neg (by rw [he]; exact hd)]
    exact ih (hcompare.exchange hswap (hplace r) (hplace child.1))
  | case3 r t hr =>
    intro s h
    rw [siftDown, hchild, if_neg fun hlt => hr (Nat.lt_of_mul_lt_mul_right hlt)]
    exact h

theorem heapify_shows (hswap : Exchanges swap size) (h : Shows A m s t) (hbasep : basep = A + base * size) :
    Shows A m (heapify cmp swap basep (n * size) (i * size) s) (Rqsort.heapify cmp base n i t) := by
  induction i generalizing s t with
  | zero =>
    rw [heapify, if_neg (by omega)]
    exact h
  | succ i ih =>
    have hprev : (i + 1) * size - size = i * size := by rw [Nat.succ_mul, Nat.add_sub_cancel]
    rw [heapify, if_pos (Nat.mul_pos i.succ_pos (Nat.pos_of_neZero size)), hprev]
    exact ih (siftDown_shows cmp hswap h hbasep)

theorem extract_shows (hswap : Exchanges swap size) (h : Shows A m s t) (hbasep : basep = A + base * size) :
    Shows A m (extract cmp swap basep (i * size) s) (Rqsort.extract cmp base i t) := by
  induction i generalizing s t with
  | zero =>
    rw [extract, if_neg (by omega)]
    exact h
  | succ i ih =>
    have hprev : (i + 1) * size - size = i * size := by rw [Nat.succ_mul, Nat.add_sub_cancel]
    have hlast : basep + (i + 1) * size = A + (base + (i + 1)) * size := by rw [hbasep, Nat.add_mul base, Nat.add_assoc]
    have hsift := siftDown_shows cmp (n := i + 1) (r := 0) hswap (h.exchange hswap hbasep hlast) hbasep
    rw [Nat.zero_mul] at hsift
    rw [extract, if_pos (Nat.mul_pos i.succ_pos (Nat.pos_of_neZero size)), hprev]
    exact ih hsift

theorem heapsortx_shows (base n : ℕ) (h : Shows A m s t) (hbasep : basep = A + base * size) :
    Shows A m (heapsortx cmp basep n s) (Rqsort.heapsortx cmp base n t) := by
  have hswap : Exchanges (exchangeFunc basep size) size := exchanges_exchangeFunc basep size
  unfold heapsortx Rqsort.heapsortx
  dsimp only
  split
  · rw [← Nat.sub_one_mul]
    exact extract_shows hswap (heapify_shows hswap h hbasep) hbasep
  · exact h

/-! ## The partition -/

omit [NeZero size] in
theorem med3_shows (cmp : Cmp (Element size) M) {c : ℕ} (h : Shows A m s t) (ha : a = A + i * size)
    (hb : b = A + j * size)
    (hc : c = A + k * size) :
    (med3 cmp a b c s).1 = A + (Rqsort.med3 cmp i j k t).1 * size ∧
      Shows A m (med3 cmp a b c s).2 (Rqsort.med3 cmp i j k t).2 := by
  obtain ⟨hab, h₁⟩ := h.compare cmp ha hb
  obtain ⟨hbc, h₂⟩ := h₁.compare cmp hb hc
  obtain ⟨hac, h₃⟩ := h₂.compare cmp ha hc
  unfold med3 Rqsort.med3
  dsimp only
  rw [hab, hbc, hac]
  split
  · split
    · exact ⟨hb, h₂⟩
    · split
      · exact ⟨hc, h₃⟩
      · exact ⟨ha, h₃⟩
  · split
    · exact ⟨hb, h₂⟩
    · split
      · exact ⟨ha, h₃⟩
      · exact ⟨hc, h₃⟩

/-- The counters are those of the scan on elements, and the pointers go with them. -/
structure Scan.Shows (A base : ℕ) (m : Bytes) (p : Scan M) (q : Rqsort.Scan (Element size) M) : Prop where
  i : p.i = q.i
  lt : p.lt = q.lt
  gt : p.gt = q.gt
  pi : p.pi = A + (base + q.i) * size
  pj : p.pj = A + (base + q.j) * size
  plt : p.plt = A + (base + q.lt) * size
  pgt : p.pgt = A + (base + q.gt) * size
  state : Cutils.Shows A m p.state q.mem

variable {ptr : ℕ} {p : Scan M} {q : Rqsort.Scan (Element size) M}

omit [NeZero size] in
theorem place_succ (size A base i : ℕ) : A + (base + i) * size + size = A + (base + (i + 1)) * size := by
  rw [← Nat.add_assoc base, Nat.succ_mul, Nat.add_assoc]

omit [NeZero size] in
theorem place_pred (A base : ℕ) (hi : 0 < i) : A + (base + i) * size - size = A + (base + (i - 1)) * size := by
  obtain ⟨i, rfl⟩ := Nat.exists_eq_add_one_of_ne_zero (Nat.ne_of_gt hi)
  rw [← place_succ, Nat.add_sub_cancel, Nat.add_sub_cancel]

theorem place_lt (A base i j : ℕ) : A + (base + i) * size < A + (base + j) * size ↔ i < j := by
  rw [Nat.add_lt_add_iff_left, Nat.mul_lt_mul_right (Nat.pos_of_neZero size), Nat.add_lt_add_iff_left]

theorem scanUp_shows (hswap : Exchanges swap size) (hptr : ptr = A + base * size) (h : p.Shows A base m q) :
    (scanUp cmp swap ptr p).Shows A base m (Rqsort.scanUp cmp base q) := by
  revert p
  fun_induction Rqsort.scanUp cmp base q with
  | case1 q hij c hc h0 =>
    rename_i ih
    intro p h
    have hi : p.pi + size = A + (base + (q.i + 1)) * size := by rw [h.pi, place_succ]
    have hlt : p.plt + size = A + (base + (q.lt + 1)) * size := by rw [h.plt, place_succ]
    obtain ⟨he, hd⟩ := h.state.compare cmp hptr h.pi
    rw [scanUp, if_pos (by rwa [h.pi, h.pj, place_lt])]
    dsimp only
    rw [he, if_pos hc, if_pos h0]
    exact ih ⟨congrArg (· + 1) h.i, congrArg (· + 1) h.lt, h.gt, hi, h.pj, hlt, h.pgt, hd.exchange hswap h.plt h.pi⟩
  | case2 q hij c hc h0 =>
    rename_i ih
    intro p h
    have hi : p.pi + size = A + (base + (q.i + 1)) * size := by rw [h.pi, place_succ]
    obtain ⟨he, hd⟩ := h.state.compare cmp hptr h.pi
    rw [scanUp, if_pos (by rwa [h.pi, h.pj, place_lt])]
    dsimp only
    rw [he, if_pos hc, if_neg h0]
    exact ih ⟨congrArg (· + 1) h.i, h.lt, h.gt, hi, h.pj, h.plt, h.pgt, hd⟩
  | case3 q hij c =>
    rename_i hc
    intro p h
    obtain ⟨he, hd⟩ := h.state.compare cmp hptr h.pi
    rw [scanUp, if_pos (by rwa [h.pi, h.pj, place_lt])]
    dsimp only
    rw [he, if_neg hc]
    exact ⟨h.i, h.lt, h.gt, h.pi, h.pj, h.plt, h.pgt, hd⟩
  | case4 q hij =>
    intro p h
    rw [scanUp, if_neg (by rwa [h.pi, h.pj, place_lt])]
    exact h

theorem scanDown_shows (hswap : Exchanges swap size) (hptr : ptr = A + base * size) {lt gt : ℕ}
    (h : p.Shows A base m ⟨i, lt, j, gt, t⟩) (hi : 0 < i) (hij : i ≤ j) (hj : j ≤ gt) :
    (scanDown cmp swap ptr p).Shows A base m (Rqsort.scanDown cmp base i lt j gt t) := by
  induction j generalizing p gt t with
  | zero => omega
  | succ j ih =>
    have hpj : p.pj - size = A + (base + j) * size := h.pj ▸ place_pred A base j.succ_pos
    have hlt : p.pi < p.pj - size ↔ i < j := by
      rw [h.pi, hpj]
      exact place_lt A base i j
    have hgt : p.pgt - size = A + (base + (gt - 1)) * size := by rw [h.pgt, place_pred A base (i := gt) (by omega)]
    obtain ⟨hc, hd⟩ := h.state.compare cmp hptr hpj
    rw [scanDown, Rqsort.scanDown]
    dsimp only
    by_cases hlt' : i < j
    · rw [if_pos (hlt.mpr hlt'), hc]
      split
      · split
        · exact ih ⟨h.i, h.lt, congrArg (· - 1) h.gt, h.pi, hpj, h.plt, hgt, hd.exchange hswap hgt hpj⟩ (by omega)
            (by omega)
        · exact ih ⟨h.i, h.lt, h.gt, h.pi, hpj, h.plt, h.pgt, hd⟩ (by omega) (by omega)
      · exact ⟨h.i, h.lt, h.gt, h.pi, hpj, h.plt, h.pgt, hd⟩
    · rw [if_neg hlt', if_neg fun h => hlt' (hlt.mp h)]
      exact ⟨h.i, h.lt, h.gt, h.pi, hpj, h.plt, h.pgt, h.state⟩

theorem scan_shows (cmp : Cmp (Element size) M) (hswap : Exchanges swap size) (hptr : ptr = A + base * size)
    (hq : q.Ok n)
    (h : p.Shows A base m q) :
    (scanDown cmp swap ptr (scanUp cmp swap ptr p)).Shows A base m (Rqsort.scan cmp base q) := by
  have hok := Rqsort.scanUp_ok cmp base hq
  exact scanDown_shows hswap hptr (scanUp_shows hswap hptr h) (Nat.lt_of_lt_of_le hok.pivot hok.lt_le) hok.i_le hok.j_le

theorem partitionLoop_shows (hswap : Exchanges swap size) (hptr : ptr = A + base * size) (hq : q.Ok n)
    (h : p.Shows A base m q) :
    (partitionLoop cmp swap ptr p).Shows A base m (Rqsort.partitionLoop cmp base q) := by
  revert p
  fun_induction Rqsort.partitionLoop cmp base q with
  | case1 q r hji =>
    intro p h
    have hscan := scan_shows cmp hswap hptr hq h
    rw [partitionLoop, if_pos (by rwa [hscan.pi, hscan.pj, ← Nat.not_lt, place_lt, Nat.not_lt])]
    exact hscan
  | case2 q r hji ih =>
    intro p h
    have hscan := scan_shows cmp hswap hptr hq h
    have hdone : r.Done n := Rqsort.scan_done hq
    have hi := (congrArg (· + size) hscan.pi).trans (place_succ size A base r.i)
    rw [partitionLoop, if_neg (by rwa [hscan.pi, hscan.pj, ← Nat.not_lt, place_lt, Nat.not_lt])]
    exact ih ⟨hdone.pivot, Nat.le_succ_of_le hdone.lt_le, Nat.succ_le_of_lt (Nat.lt_of_not_le hji),
      Nat.le_of_lt hdone.j_lt, hdone.gt_le⟩ ⟨congrArg (· + 1) hscan.i, hscan.lt, hscan.gt, hi, hscan.pj, hscan.plt,
      hscan.pgt, hscan.state.exchange hswap hscan.pi hscan.pj⟩

/-- The counters of the cut, the pointer to the part above, and the memory. -/
structure Cut.Shows (A base : ℕ) (m : Bytes) (c : Cut M) (d : Rqsort.Cut (Element size) M) : Prop where
  lt : c.lt = d.lt
  gt : c.gt = d.gt
  pgt : c.pgt = A + (base + d.gt) * size
  state : Cutils.Shows A m c.state d.mem

omit [NeZero size] in
theorem place_sub (A : ℕ) (hk : k ≤ i) : A + i * size - k * size = A + (i - k) * size := by
  have hle := Nat.mul_le_mul_right size hk
  rw [Nat.sub_mul]
  omega

omit [NeZero size] in
theorem place_distance (size A base i j : ℕ) : A + (base + i) * size - (A + (base + j) * size) = (i - j) * size := by
  rw [Nat.add_sub_add_left, ← Nat.sub_mul, Nat.add_sub_add_left]

omit [NeZero size] in
/-- The elements equal to the pivot are moved from the ends. -/
theorem cut_shows (hblock : ∀ k, Exchanges swapBlock (k * size)) (hptr : ptr = A + base * size)
    (hdone : q.Done n) (hji : q.j ≤ q.i) (h : p.Shows A base m q) :
    (p.cut swapBlock size ptr n).Shows A base m (q.cut base n) := by
  have h3 := hdone.i_le
  have h4 := hdone.j_lt
  have h5 := hdone.gt_le
  have htop : ptr + n * size = A + (base + n) * size := by rw [hptr, Nat.add_mul, Nat.add_assoc]
  have hbelow : min (p.plt - ptr) (p.pi - p.plt) = min q.lt (q.i - q.lt) * size := by
    have hfirst := place_distance size A base q.lt 0
    rw [Nat.add_zero, Nat.sub_zero] at hfirst
    rw [h.plt, hptr, h.pi, hfirst, place_distance, Nat.mul_min_mul_right]
  have habove : min (ptr + n * size - p.pgt) (p.pgt - p.pi) = min (n - q.gt) (q.gt - q.i) * size := by
    rw [htop, h.pgt, h.pi, place_distance, place_distance, Nat.mul_min_mul_right]
  have hlast : ptr + n * size - (p.pgt - p.pi) = A + (base + (n - (q.gt - q.i))) * size := by
    rw [htop, h.pgt, h.pi, place_distance, place_sub A (by omega), Nat.add_sub_assoc (by omega)]
  have hmiddle : p.pi - min (p.plt - ptr) (p.pi - p.plt) = A + (base + q.i - min q.lt (q.i - q.lt)) * size := by
    rw [hbelow, h.pi]
    exact place_sub A (by omega)
  have hend : ptr + n * size - min (ptr + n * size - p.pgt) (p.pgt - p.pi) =
      A + (base + n - min (n - q.gt) (q.gt - q.i)) * size := by
    rw [habove, htop]
    exact place_sub A (by omega)
  have hleft := h.state.exchangeBlock hblock hptr hmiddle hbelow (by omega)
  have hright := hleft.exchangeBlock hblock h.pi hend habove (by omega)
  refine ⟨?_, ?_, hlast, hright⟩
  · exact congrArg₂ (· - ·) h.i h.lt
  · exact congrArg₂ (fun gt i => n - (gt - i)) h.gt h.i

omit [NeZero size] in
theorem scan_begin_shows (hptr : ptr = A + base * size) (h : Shows A m s t) :
    (⟨1, 1, n, ptr + size, ptr + n * size, ptr + size, ptr + n * size, s⟩ : Scan M).Shows A base m ⟨1, 1, n, n, t⟩ := by
  have hone : ptr + size = A + (base + 1) * size := by rw [hptr, Nat.succ_mul, Nat.add_assoc]
  have htop : ptr + n * size = A + (base + n) * size := by rw [hptr, Nat.add_mul, Nat.add_assoc]
  exact ⟨rfl, rfl, rfl, hone, htop, hone, htop, h⟩

/-- **A round with pointers is a round on elements.** -/
theorem partition_shows (cmp : Cmp (Element size) M) (base : ℕ) (hswap : Exchanges swap size)
    (hblock : ∀ k, Exchanges swapBlock (k * size))
    (hn : 0 < n)
    (hptr : ptr = A + base * size) (h : Shows A m s t) :
    (partition cmp swap swapBlock ptr n s).Shows A base m (Rqsort.partition cmp base n t) := by
  have hquarter : ∀ k, ptr + k * (n / 4 * size) = A + (base + k * (n / 4)) * size := by
    intro k
    rw [hptr, Nat.add_mul, Nat.mul_assoc, Nat.add_assoc]
  have hfirst := hquarter 1
  rw [Nat.one_mul, Nat.one_mul] at hfirst
  obtain ⟨hm, hmed⟩ := med3_shows cmp h hfirst (hquarter 2) (hquarter 3)
  have hok := Rqsort.scan_begin hn (Exchange.swap base
    (Rqsort.med3 cmp (base + n / 4) (base + 2 * (n / 4)) (base + 3 * (n / 4)) t).1
    (Rqsort.med3 cmp (base + n / 4) (base + 2 * (n / 4)) (base + 3 * (n / 4)) t).2)
  obtain ⟨hdone, hji⟩ := Rqsort.partitionLoop_done cmp base hok
  have hbegin := scan_begin_shows (n := n) hptr (hmed.exchange hswap hptr hm)
  exact cut_shows hblock hptr hdone hji (partitionLoop_shows hswap hptr hok hbegin)

end QuickJs.Cutils
