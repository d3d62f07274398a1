import Mathlib.Data.List.Range
import Mathlib.Data.List.Nodup
import Mathlib.Data.List.Perm.Basic
import Mathlib.Data.Nat.Bitwise

/-!
# Sorting by comparisons and exchanges

A sorting function in place does two things with the elements: it compares two of them, and it
exchanges two of them. The comparison may be anything, and it may change a state of its own. Whatever
the function decides, it permutes the elements; when the comparison agrees with a preorder, it keeps
doing so.
-/

namespace QuickJs.Exchange

variable {ε M : Type}

/-- The elements, and the state of the comparison. -/
structure Memory (ε M : Type) where
  elem : ℕ → ε
  world : M

/-- A comparison: negative, zero or positive, as for `qsort`. -/
abbrev Cmp (ε M : Type) : Type := ε → ε → M → ℤ × M

/-- Compare two elements. -/
def compare (cmp : Cmp ε M) (i j : ℕ) (s : Memory ε M) : ℤ × Memory ε M :=
  let r := cmp (s.elem i) (s.elem j) s.world
  (r.1, { s with world := r.2 })

/-- Exchange two elements. -/
def swap (i j : ℕ) (s : Memory ε M) : Memory ε M := { s with elem := s.elem ∘ Equiv.swap i j }

variable {cmp : Cmp ε M} {s t u : Memory ε M} {i j lo hi x : ℕ}

theorem swap_elem (i j : ℕ) (s : Memory ε M) (x : ℕ) :
    (swap i j s).elem x = if x = i then s.elem j else if x = j then s.elem i else s.elem x := by
  simp only [swap, Function.comp_apply, Equiv.swap_apply_def]
  split
  · rfl
  · split <;> rfl

theorem swap_elem_add (base i j : ℕ) (s : Memory ε M) (x : ℕ) :
    (swap (base + i) (base + j) s).elem (base + x) =
      if x = i then s.elem (base + j) else if x = j then s.elem (base + i) else s.elem (base + x) := by
  simp only [swap_elem, Nat.add_left_cancel_iff]

/-- Exchange the blocks of `k` elements at `p` and `q`. -/
def swapBlock (p q : ℕ) : ℕ → Memory ε M → Memory ε M
  | 0, s => s
  | k + 1, s => swap (p + k) (q + k) (swapBlock p q k s)

@[simp] theorem swapBlock_world (p q k : ℕ) (s : Memory ε M) : (swapBlock p q k s).world = s.world := by
  induction k with
  | zero => rfl
  | succ k ih => exact ih

theorem swapBlock_elem {p q k : ℕ} (h : p + k ≤ q) (s : Memory ε M) (x : ℕ) : (swapBlock p q k s).elem x =
      if p ≤ x ∧ x < p + k then s.elem (x - p + q)
      else if q ≤ x ∧ x < q + k then s.elem (x - q + p) else s.elem x := by
  induction k generalizing x with
  | zero => rw [if_neg (by omega), if_neg (by omega), swapBlock]
  | succ k ih =>
    have ih := ih (by omega)
    rw [swapBlock, swap_elem]
    by_cases hp : x = p + k
    · -- the last element of the first block
      have hq : x - p + q = q + k := by omega
      rw [if_pos hp, ih, if_neg (by omega), if_neg (by omega), if_pos (by omega), hq]
    by_cases hq : x = q + k
    · -- the last element of the second block
      have hp' : x - q + p = p + k := by omega
      rw [if_neg hp, if_pos hq, ih, if_neg (by omega), if_neg (by omega), if_neg (by omega),
        if_pos (by omega), hp']
    · have hfirst : (p ≤ x ∧ x < p + k) ↔ p ≤ x ∧ x < p + (k + 1) := by omega
      have hsecond : (q ≤ x ∧ x < q + k) ↔ q ≤ x ∧ x < q + (k + 1) := by omega
      rw [if_neg hp, if_neg hq, ih]
      simp only [hfirst, hsecond]

theorem swapBlock_elem_add {p q k : ℕ} (base : ℕ) (h : p + k ≤ q) (s : Memory ε M) (x : ℕ) :
    (swapBlock (base + p) (base + q) k s).elem (base + x) =
      if p ≤ x ∧ x < p + k then s.elem (base + (x - p + q))
      else if q ≤ x ∧ x < q + k then s.elem (base + (x - q + p)) else s.elem (base + x) := by
  have hfirst : base + x - (base + p) + (base + q) = base + (x - p + q) := by omega
  have hsecond : base + x - (base + q) + (base + p) = base + (x - q + p) := by omega
  rw [swapBlock_elem (by omega), hfirst, hsecond]
  simp only [Nat.add_assoc, Nat.add_le_add_iff_left, Nat.add_lt_add_iff_left]

/-! ## Runs -/

/-- `t` comes from `s` by comparisons and exchanges of elements from `lo` up to `hi`. -/
inductive Steps (cmp : Cmp ε M) (lo hi : ℕ) (s : Memory ε M) : Memory ε M → Prop
  | refl : Steps cmp lo hi s s
  | compare {t : Memory ε M} {i j : ℕ} : Steps cmp lo hi s t → lo ≤ i → i < hi → lo ≤ j → j < hi →
      Steps cmp lo hi s (compare cmp i j t).2
  | swap {t : Memory ε M} {i j : ℕ} : Steps cmp lo hi s t → lo ≤ i → i < hi → lo ≤ j → j < hi →
      Steps cmp lo hi s (swap i j t)

theorem Steps.trans (h : Steps cmp lo hi s t) (h' : Steps cmp lo hi t u) : Steps cmp lo hi s u := by
  induction h' with
  | refl => exact h
  | compare _ hi₁ hi₂ hj₁ hj₂ ih => exact ih.compare hi₁ hi₂ hj₁ hj₂
  | swap _ hi₁ hi₂ hj₁ hj₂ ih => exact ih.swap hi₁ hi₂ hj₁ hj₂

theorem Steps.mono {lo' hi' : ℕ} (h : Steps cmp lo hi s t) (hlo : lo' ≤ lo) (hhi : hi ≤ hi') :
    Steps cmp lo' hi' s t := by
  induction h with
  | refl => exact .refl
  | compare _ hi₁ hi₂ hj₁ hj₂ ih => exact ih.compare (by omega) (by omega) (by omega) (by omega)
  | swap _ hi₁ hi₂ hj₁ hj₂ ih => exact ih.swap (by omega) (by omega) (by omega) (by omega)

theorem steps_compare (hi₁ : lo ≤ i) (hi₂ : i < hi) (hj₁ : lo ≤ j) (hj₂ : j < hi) :
    Steps cmp lo hi s (Exchange.compare cmp i j s).2 := Steps.refl.compare hi₁ hi₂ hj₁ hj₂

theorem steps_swap (hi₁ : lo ≤ i) (hi₂ : i < hi) (hj₁ : lo ≤ j) (hj₂ : j < hi) :
    Steps cmp lo hi s (Exchange.swap i j s) := Steps.refl.swap hi₁ hi₂ hj₁ hj₂

theorem steps_swapBlock {p q : ℕ} (k : ℕ) (hp : lo ≤ p) (hp' : p + k ≤ hi) (hq : lo ≤ q)
    (hq' : q + k ≤ hi) : Steps cmp lo hi s (swapBlock p q k s) := by
  induction k with
  | zero => exact .refl
  | succ k ih =>
    exact (ih (by omega) (by omega)).swap (by omega) (by omega) (by omega) (by omega)

/-- The elements have been permuted, those outside of the range not at all. -/
theorem Steps.exists_perm (h : Steps cmp lo hi s t) :
    ∃ σ : Equiv.Perm ℕ, t.elem = s.elem ∘ σ ∧ ∀ x, ¬(lo ≤ x ∧ x < hi) → σ x = x := by
  induction h with
  | refl => exact ⟨Equiv.refl ℕ, rfl, fun _ _ => rfl⟩
  | compare _ _ _ _ _ ih => exact ih
  | swap _ hi₁ hi₂ hj₁ hj₂ ih =>
    obtain ⟨σ, hσ, hout⟩ := ih
    refine ⟨(Equiv.swap _ _).trans σ, by rw [Exchange.swap, hσ]; rfl, fun x hx => ?_⟩
    rw [Equiv.trans_apply, Equiv.swap_apply_of_ne_of_ne (by rintro rfl; exact hx ⟨hi₁, hi₂⟩)
      (by rintro rfl; exact hx ⟨hj₁, hj₂⟩), hout x hx]

/-- What is outside of the range stays. -/
theorem Steps.elem_eq (h : Steps cmp lo hi s t) (hx : ¬(lo ≤ x ∧ x < hi)) : t.elem x = s.elem x := by
  obtain ⟨σ, hσ, hout⟩ := h.exists_perm
  rw [hσ, Function.comp_apply, hout x hx]

/-- What is in the range was there before. -/
theorem Steps.mem_range (h : Steps cmp lo hi s t) (hx : lo ≤ x ∧ x < hi) :
    ∃ y, (lo ≤ y ∧ y < hi) ∧ t.elem x = s.elem y := by
  obtain ⟨σ, hσ, hout⟩ := h.exists_perm
  refine ⟨σ x, ?_, by rw [hσ]; rfl⟩
  by_contra hy
  -- a place outside of the range is only its own image
  have heq := σ.injective (hout (σ x) hy)
  rw [heq] at hy
  exact hy hx

theorem map_swap_range {n : ℕ} (hi : i < n) (hj : j < n) :
    ((List.range n).map (Equiv.swap i j)).Perm (List.range n) := by
  have hlt : ∀ x, x < n → Equiv.swap i j x < n := by
    intro x hx
    rw [Equiv.swap_apply_def]
    split
    · exact hj
    · split
      · exact hi
      · exact hx
  refine (List.perm_ext_iff_of_nodup (List.nodup_range.map (Equiv.swap i j).injective)
    List.nodup_range).mpr fun x => ?_
  rw [List.mem_map, List.mem_range]
  constructor
  · rintro ⟨y, hy, rfl⟩
    exact hlt y (List.mem_range.mp hy)
  · intro hx
    exact ⟨Equiv.swap i j x, List.mem_range.mpr (hlt x hx), Equiv.swap_apply_self ..⟩

/-- **Whatever the comparison is, the elements are permuted.** -/
theorem Steps.perm {n : ℕ} (h : Steps cmp 0 n s t) :
    ((List.range n).map t.elem).Perm ((List.range n).map s.elem) := by
  induction h with
  | refl => exact .refl _
  | compare _ _ _ _ _ ih => exact ih
  | swap _ _ hi _ hj ih =>
    refine List.Perm.trans ?_ ih
    rw [Exchange.swap, ← List.map_map]
    exact List.Perm.map _ (map_swap_range hi hj)

/-- The comparison keeps a property of its state. -/
theorem Steps.world {P : M → Prop} (h : Steps cmp lo hi s t) (hP : ∀ x y m, P m → P (cmp x y m).2)
    (hs : P s.world) : P t.world := by
  induction h with
  | refl => exact hs
  | compare _ _ _ _ _ ih => exact hP _ _ _ ih
  | swap _ _ _ _ _ ih => exact ih

/-! ## Comparisons that agree with an order -/

/-- In the states `I`, the comparison decides the preorder `le` on the elements of `S`. -/
structure Agrees (cmp : Cmp ε M) (le : ε → ε → Prop) (S : ε → Prop) (I : M → Prop) : Prop where
  trans : ∀ x y z, S x → S y → S z → le x y → le y z → le x z
  nonpos : ∀ x y m, S x → S y → I m → ((cmp x y m).1 ≤ 0 ↔ le x y)
  nonneg : ∀ x y m, S x → S y → I m → (0 ≤ (cmp x y m).1 ↔ le y x)
  keep : ∀ x y m, S x → S y → I m → I (cmp x y m).2

/-- The elements are in `S` and the state is in `I`. -/
structure Sound (S : ε → Prop) (I : M → Prop) (s : Memory ε M) : Prop where
  elem : ∀ x, S (s.elem x)
  world : I s.world

variable {le : ε → ε → Prop} {S : ε → Prop} {I : M → Prop}

theorem Agrees.total (h : Agrees cmp le S I) (hs : Sound S I s) (x y : ℕ) :
    le (s.elem x) (s.elem y) ∨ le (s.elem y) (s.elem x) := by
  rcases Int.le_total (cmp (s.elem x) (s.elem y) s.world).1 0 with hc | hc
  · exact .inl ((h.nonpos _ _ _ (hs.elem x) (hs.elem y) hs.world).mp hc)
  · exact .inr ((h.nonneg _ _ _ (hs.elem x) (hs.elem y) hs.world).mp hc)

theorem Agrees.refl (h : Agrees cmp le S I) (hs : Sound S I s) (x : ℕ) :
    le (s.elem x) (s.elem x) := (h.total hs x x).elim id id

theorem Steps.sound (h : Agrees cmp le S I) (hst : Steps cmp lo hi s t) (hs : Sound S I s) : Sound S I t := by
  induction hst with
  | refl => exact hs
  | compare _ _ _ _ _ ih => exact ⟨ih.elem, h.keep _ _ _ (ih.elem _) (ih.elem _) ih.world⟩
  | swap _ _ _ _ _ ih => exact ⟨fun x => ih.elem _, ih.world⟩

theorem Sound.compare (h : Agrees cmp le S I) (hs : Sound S I s) (i j : ℕ) :
    Sound S I (Exchange.compare cmp i j s).2 :=
  ⟨hs.elem, h.keep _ _ _ (hs.elem i) (hs.elem j) hs.world⟩

theorem Sound.swap (hs : Sound S I s) (i j : ℕ) : Sound S I (Exchange.swap i j s) :=
  ⟨fun _ => hs.elem _, hs.world⟩

theorem Agrees.nonpos_iff (h : Agrees cmp le S I) (hs : Sound S I s) :
    (Exchange.compare cmp i j s).1 ≤ 0 ↔ le (s.elem i) (s.elem j) :=
  h.nonpos _ _ _ (hs.elem i) (hs.elem j) hs.world

theorem Agrees.nonneg_iff (h : Agrees cmp le S I) (hs : Sound S I s) :
    0 ≤ (Exchange.compare cmp i j s).1 ↔ le (s.elem j) (s.elem i) :=
  h.nonneg _ _ _ (hs.elem i) (hs.elem j) hs.world

/-- The elements from `lo` up to `hi` are in order. -/
def SortedOn (le : ε → ε → Prop) (lo hi : ℕ) (s : Memory ε M) : Prop :=
  ∀ x y, lo ≤ x → x < y → y < hi → le (s.elem x) (s.elem y)

end QuickJs.Exchange

/-!
## Exchanging blocks of bytes

The sorting function of the runtime exchanges two elements by bytes or by words of two, four, eight or sixteen bytes; it
takes the longest word that the address of the array and the size of an element allow. All of these exchange the same
bytes.
-/

namespace QuickJs.Cutils

/-- The memory, by its addresses. -/
abbrev Bytes : Type := ℕ → UInt8

/-- The word at an address. -/
def load (a : ℕ) (m : Bytes) : Bytes := fun k => m (a + k)

/-- Write a word of `w` bytes. -/
def store (w a : ℕ) (t : Bytes) (m : Bytes) : Bytes := fun x => if a ≤ x ∧ x < a + w then t (x - a) else m x

/-- Exchange two words. -/
def exchangeOne (w a b : ℕ) (m : Bytes) : Bytes := store w b (load a m) (store w a (load b m) m)

/-- Exchange one word after the other. -/
def exchangeLoop (w : ℕ) (one : ℕ → ℕ → Bytes → Bytes) : ℕ → ℕ → ℕ → Bytes → Bytes
  | 0, _, _, m => m
  | n + 1, a, b, m => exchangeLoop w one n (a + w) (b + w) (one a b m)

/-- `exchange_f` -/
abbrev Exchange : Type := ℕ → ℕ → ℕ → Bytes → Bytes

def exchangeBytes : Exchange := fun a b size => exchangeLoop 1 (exchangeOne 1) size a b

def exchangeOneByte : Exchange := fun a b _ => exchangeOne 1 a b

def exchangeInt16s : Exchange := fun a b size => exchangeLoop 2 (exchangeOne 2) (size / 2) a b

def exchangeOneInt16 : Exchange := fun a b _ => exchangeOne 2 a b

def exchangeInt32s : Exchange := fun a b size => exchangeLoop 4 (exchangeOne 4) (size / 4) a b

def exchangeOneInt32 : Exchange := fun a b _ => exchangeOne 4 a b

def exchangeInt64s : Exchange := fun a b size => exchangeLoop 8 (exchangeOne 8) (size / 8) a b

def exchangeOneInt64 : Exchange := fun a b _ => exchangeOne 8 a b

/-- Two words of eight bytes at a time; the second one of `b` is read when the first one of `a` has been written. -/
def exchangeTwo (a b : ℕ) (m : Bytes) : Bytes :=
  let t := load a m
  let u := load (a + 8) m
  let m := store 8 a (load b m) m
  let m := store 8 (a + 8) (load (b + 8) m) m
  store 8 (b + 8) u (store 8 b t m)

def exchangeInt128s : Exchange := fun a b size => exchangeLoop 16 exchangeTwo (size / (8 * 2)) a b

def exchangeOneInt128 : Exchange := fun a b _ => exchangeTwo a b

/-- `exchange_func` -/
def exchangeFunc (base size : ℕ) : Exchange :=
  match (base ||| size) &&& 15 with
  | 0 => if size = 8 * 2 then exchangeOneInt128 else exchangeInt128s
  | 8 => if size = 8 then exchangeOneInt64 else exchangeInt64s
  | 4 | 12 => if size = 4 then exchangeOneInt32 else exchangeInt32s
  | 2 | 6 | 10 | 14 => if size = 2 then exchangeOneInt16 else exchangeInt16s
  | _ => if size = 1 then exchangeOneByte else exchangeBytes

/-! ## What is exchanged -/

/-- The blocks of `n` bytes at `a` and `b` have changed places. -/
def swapBytes (a b n : ℕ) (m : Bytes) : Bytes := fun x =>
  if a ≤ x ∧ x < a + n then m (x - a + b) else if b ≤ x ∧ x < b + n then m (x - b + a) else m x

/-- Two blocks are the same or apart. -/
def Apart (a b n : ℕ) : Prop := a = b ∨ a + n ≤ b ∨ b + n ≤ a

variable {w a b n k : ℕ} {m : Bytes}

theorem swapBytes_first (m : Bytes) {x : ℕ} (h : a ≤ x ∧ x < a + n) : swapBytes a b n m x = m (x - a + b) := if_pos h

theorem swapBytes_second (m : Bytes) {x : ℕ} (h : b ≤ x ∧ x < b + n) (hapart : Apart a b n) :
    swapBytes a b n m x = m (x - b + a) := by
  obtain rfl | hapart := hapart
  · exact if_pos h
  · rw [swapBytes, if_neg (by omega), if_pos h]

theorem swapBytes_other (m : Bytes) {x : ℕ} (h : ¬(a ≤ x ∧ x < a + n)) (h' : ¬(b ≤ x ∧ x < b + n)) :
    swapBytes a b n m x = m x := by
  rw [swapBytes, if_neg h, if_neg h']

theorem store_of_mem {t : Bytes} {x : ℕ} (h : a ≤ x ∧ x < a + w) : store w a t m x = t (x - a) := if_pos h

theorem store_of_not_mem {t : Bytes} {x : ℕ} (h : ¬(a ≤ x ∧ x < a + w)) : store w a t m x = m x := if_neg h

theorem exchangeOne_eq (h : Apart a b w) (m : Bytes) : exchangeOne w a b m = swapBytes a b w m := by
  funext x
  by_cases hb : b ≤ x ∧ x < b + w
  · rw [swapBytes_second m hb h, exchangeOne, store_of_mem hb]
    exact congrArg m (Nat.add_comm ..)
  · rw [exchangeOne, store_of_not_mem hb]
    by_cases ha : a ≤ x ∧ x < a + w
    · rw [swapBytes_first m ha, store_of_mem ha]
      exact congrArg m (Nat.add_comm ..)
    · rw [swapBytes_other m ha hb, store_of_not_mem ha]

theorem exchangeTwo_eq (h : Apart a b 16) (m : Bytes) : exchangeTwo a b m = swapBytes a b 16 m := by
  funext x
  unfold exchangeTwo
  by_cases hb : b ≤ x ∧ x < b + 16
  · rw [swapBytes_second m hb h]
    by_cases hu : b + 8 ≤ x
    · rw [store_of_mem (by omega)]
      exact congrArg m (by omega)
    · rw [store_of_not_mem (by omega), store_of_mem (by omega)]
      exact congrArg m (by omega)
  · rw [store_of_not_mem (by omega), store_of_not_mem (by omega)]
    by_cases ha : a ≤ x ∧ x < a + 16
    · rw [swapBytes_first m ha]
      by_cases hu : a + 8 ≤ x
      · -- what is read from `b` has not been written yet
        rw [store_of_mem (by omega), load, store_of_not_mem (by obtain h | h | h := h <;> omega)]
        exact congrArg m (by omega)
      · rw [store_of_not_mem (by omega), store_of_mem (by omega)]
        exact congrArg m (by omega)
    · rw [swapBytes_other m ha hb, store_of_not_mem (by omega), store_of_not_mem (by omega)]

theorem swapBytes_self (a n : ℕ) (m : Bytes) : swapBytes a a n m = m := by
  funext x
  by_cases h : a ≤ x ∧ x < a + n
  · rw [swapBytes_first m h, Nat.sub_add_cancel h.1]
  · exact swapBytes_other m h h

/-- A block, and then the one behind it. -/
theorem swapBytes_append (h : Apart a b (w + n)) (m : Bytes) :
    swapBytes (a + w) (b + w) n (swapBytes a b w m) = swapBytes a b (w + n) m := by
  obtain rfl | hapart := h
  · rw [swapBytes_self, swapBytes_self, swapBytes_self]
  have hfirst : Apart a b w := by unfold Apart; omega
  have hsecond : Apart (a + w) (b + w) n := by unfold Apart; omega
  funext x
  by_cases ha : a + w ≤ x ∧ x < a + w + n
  · have hold : swapBytes a b w m (x - (a + w) + (b + w)) = m (x - (a + w) + (b + w)) :=
      swapBytes_other m (by omega) (by omega)
    rw [swapBytes_first _ ha, hold, swapBytes_first m (by omega)]
    exact congrArg m (by omega)
  · by_cases hb : b + w ≤ x ∧ x < b + w + n
    · have hold : swapBytes a b w m (x - (b + w) + (a + w)) = m (x - (b + w) + (a + w)) :=
        swapBytes_other m (by omega) (by omega)
      rw [swapBytes_second _ hb hsecond, hold, swapBytes_second m (by omega) (.inr hapart)]
      exact congrArg m (by omega)
    · rw [swapBytes_other _ ha hb]
      by_cases ha' : a ≤ x ∧ x < a + w
      · rw [swapBytes_first m ha', swapBytes_first m (by omega)]
      · by_cases hb' : b ≤ x ∧ x < b + w
        · rw [swapBytes_second m hb' hfirst, swapBytes_second m (by omega) (.inr hapart)]
        · rw [swapBytes_other m ha' hb', swapBytes_other m (by omega) (by omega)]

theorem swapBytes_zero (a b : ℕ) (m : Bytes) : swapBytes a b 0 m = m := by
  funext x
  exact swapBytes_other m (by omega) (by omega)

/-- Word by word, the whole blocks are exchanged. -/
theorem exchangeLoop_eq {one : ℕ → ℕ → Bytes → Bytes} (hone : ∀ a b, Apart a b w → ∀ m, one a b m = swapBytes a b w m)
    (k a b : ℕ) (h : Apart a b (k * w)) (m : Bytes) : exchangeLoop w one k a b m = swapBytes a b (k * w) m := by
  induction k generalizing a b m with
  | zero => rw [exchangeLoop, Nat.zero_mul, swapBytes_zero]
  | succ k ih =>
    rw [Nat.succ_mul, Nat.add_comm (k * w)] at h ⊢
    have hfirst : Apart a b w := by obtain h | h | h := h <;> unfold Apart <;> omega
    have hrest : Apart (a + w) (b + w) (k * w) := by obtain h | h | h := h <;> unfold Apart <;> omega
    rw [exchangeLoop, hone a b hfirst, ih (a + w) (b + w) hrest, swapBytes_append h]

/-- A function exchanges blocks of `n` bytes. -/
def Exchanges (f : Exchange) (n : ℕ) : Prop := ∀ a b m, Apart a b n → f a b n m = swapBytes a b n m

theorem exchanges_loop {one : ℕ → ℕ → Bytes → Bytes} (hone : ∀ a b, Apart a b w → ∀ m, one a b m = swapBytes a b w m)
    (hn : w ∣ n) : Exchanges (fun a b size => exchangeLoop w one (size / w) a b) n := by
  intro a b m h
  have heq : n / w * w = n := Nat.div_mul_cancel hn
  rw [← heq] at h
  have hloop := exchangeLoop_eq hone (n / w) a b h m
  rw [heq] at hloop
  exact hloop

theorem exchanges_one (w : ℕ) : Exchanges (fun a b _ => exchangeOne w a b) w := fun _ _ m h => exchangeOne_eq h m

theorem exchanges_two : Exchanges exchangeOneInt128 16 := fun _ _ m h => exchangeTwo_eq h m

theorem exchanges_bytes (n : ℕ) : Exchanges exchangeBytes n := by
  intro a b m h
  rw [← Nat.mul_one n] at h
  exact (exchangeLoop_eq (fun a b => exchangeOne_eq) n a b h m).trans (by rw [Nat.mul_one])

/-- The length of the word that `exchange_func` takes. -/
def wordSize (base size : ℕ) : ℕ :=
  match (base ||| size) &&& 15 with
  | 0 => 16
  | 8 => 8
  | 4 | 12 => 4
  | 2 | 6 | 10 | 14 => 2
  | _ => 1

/-- `exchange_func` takes the function for one word or for many. -/
theorem exchangeFunc_cases (base size : ℕ) :
    size = wordSize base size ∧ Exchanges (exchangeFunc base size) (wordSize base size) ∨
      size ≠ wordSize base size ∧ ∀ n, wordSize base size ∣ n → Exchanges (exchangeFunc base size) n := by
  have hor : ∀ {one loop : Exchange} {w : ℕ}, Exchanges one w → (∀ n, w ∣ n → Exchanges loop n) →
      size = w ∧ Exchanges (if size = w then one else loop) w ∨
        size ≠ w ∧ ∀ n, w ∣ n → Exchanges (if size = w then one else loop) n := by
    intro one loop w hone hloop
    by_cases h : size = w
    · exact .inl ⟨h, by rwa [if_pos h]⟩
    · exact .inr ⟨h, by rwa [if_neg h]⟩
  have hfour := hor (exchanges_one 4) fun n => exchanges_loop fun a b => exchangeOne_eq
  have htwo := hor (exchanges_one 2) fun n => exchanges_loop fun a b => exchangeOne_eq
  unfold exchangeFunc wordSize
  split
  · exact hor exchanges_two fun n => exchanges_loop fun a b => exchangeTwo_eq
  · exact hor (exchanges_one 8) fun n => exchanges_loop fun a b => exchangeOne_eq
  · exact hfour
  · exact hfour
  · exact htwo
  · exact htwo
  · exact htwo
  · exact htwo
  · exact hor (exchanges_one 1) fun n _ => exchanges_bytes n

/-- The last four bits of the address and the size. -/
theorem low_bits (base size : ℕ) : (base ||| size) &&& 15 = base % 16 ||| size % 16 := by
  rw [Nat.and_two_pow_sub_one_eq_mod (n := 4), Nat.or_mod_two_pow]

theorem wordSize_dvd_mod : ∀ x < 16, ∀ y < 16, wordSize x y ∣ 16 ∧ wordSize x y ∣ y := by decide

theorem wordSize_mod (base size : ℕ) : wordSize (base % 16) (size % 16) = wordSize base size := by
  rw [wordSize, wordSize, low_bits, low_bits, Nat.mod_mod, Nat.mod_mod]

/-- The word divides the size. -/
theorem wordSize_dvd (base size : ℕ) : wordSize base size ∣ 16 ∧ wordSize base size ∣ size := by
  have hmod := wordSize_dvd_mod (base % 16) (Nat.mod_lt _ (by decide)) (size % 16) (Nat.mod_lt _ (by decide))
  rw [wordSize_mod] at hmod
  exact ⟨hmod.1, (Nat.dvd_mod_iff hmod.1).mp hmod.2⟩

/-- **The exchange function exchanges an element**, whatever the address of the array and the size are. -/
theorem exchanges_exchangeFunc (base size : ℕ) : Exchanges (exchangeFunc base size) size := by
  obtain ⟨hsize, hone⟩ | ⟨-, hloop⟩ := exchangeFunc_cases base size
  · rwa [← hsize] at hone
  · exact hloop size (wordSize_dvd base size).2

/-- And the one for blocks exchanges any number of elements. -/
theorem exchanges_block (base size k : ℕ) : Exchanges (exchangeFunc base (size ||| 128)) (k * size) := by
  have hword : wordSize base (size ||| 128) = wordSize base size := by
    rw [← wordSize_mod, ← wordSize_mod base size, Nat.or_mod_two_pow (n := 4)]
    exact congrArg _ (Nat.or_zero _)
  obtain ⟨hsize, -⟩ | ⟨-, hloop⟩ := exchangeFunc_cases base (size ||| 128)
  · -- a word is not that long
    have hle := Nat.le_of_dvd (by decide) (wordSize_dvd base size).1
    have hge : 128 ≤ size ||| 128 := Nat.right_le_or
    omega
  · refine hloop _ ?_
    rw [hword]
    exact Nat.dvd_mul_left_of_dvd (wordSize_dvd base size).2 k

end QuickJs.Cutils
