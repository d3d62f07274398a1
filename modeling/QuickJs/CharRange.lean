import Mathlib.Algebra.Order.Ring.Int
import Mathlib.Data.List.Basic

/-!
# Sets of characters

A `CharRange` has the points where a set of characters begins and ends, which are words of 32 bits. The set
is where an odd number of points has been passed.
-/

namespace QuickJs.Regexp

/-- `UINT32_MAX`. -/
def uint32Max : ℕ := 2 ^ 32 - 1

/-- `CharRange`, in its canonical form: there are no empty intervals, and no intervals that touch. -/
structure CharRange where
  points : List ℕ
  /-- always even -/
  even : points.length % 2 = 0
  sorted : points.Pairwise (· < ·)
  bounded : ∀ p ∈ points, p ≤ uint32Max

/-- Is a character in one of the intervals from some points on? -/
def inPoints (c : ℕ) : List ℕ → Prop
  | low :: high :: points => (low ≤ c ∧ c < high) ∨ inPoints c points
  | _ => False

instance decidableInPoints (c : ℕ) : (points : List ℕ) → Decidable (inPoints c points)
  | [] | [_] => .isFalse id
  | low :: high :: points =>
    have := decidableInPoints c points
    inferInstanceAs (Decidable ((low ≤ c ∧ c < high) ∨ inPoints c points))

instance : Membership ℕ CharRange := ⟨fun cr c => inPoints c cr.points⟩

instance (cr : CharRange) (c : ℕ) : Decidable (c ∈ cr) := decidableInPoints c cr.points

/-- The last interval. -/
theorem inPoints_append {c low high : ℕ} {points : List ℕ} (heven : points.length % 2 = 0) (hlow : low ≤ c) (hhigh : c < high) :
    inPoints c (points ++ [low, high]) := by
  fun_induction inPoints c points with
  | case1 low' high' points ih =>
    rw [List.length_cons, List.length_cons] at heven
    exact .inr (ih (by omega))
  | case2 points hno =>
    match points with
    | [] => exact .inl ⟨hlow, hhigh⟩
    | [_] => cases heven
    | low :: high :: points => exact absurd rfl (hno low high points)

theorem CharRange.mem_iff {cr : CharRange} {c : ℕ} : c ∈ cr ↔ inPoints c cr.points := Iff.rfl

end QuickJs.Regexp

/-!
## Operations on sets of characters

`cr_op`, `cr_compress`, `cr_invert` and what `re_parse_char_class` makes of them. They keep the canonical form,
and are what they should be on the sets.
-/

namespace QuickJs.Regexp

/-! ## Points -/

/-- The end of an interval is moved on as long as the next one touches it. -/
def compressEnd : ℕ → List ℕ → ℕ × List ℕ
  | q, x :: y :: points => if q = x then compressEnd y points else (q, x :: y :: points)
  | q, points => (q, points)

theorem length_compressEnd (q : ℕ) (points : List ℕ) : (compressEnd q points).2.length ≤ points.length := by
  fun_induction compressEnd q points with
  | case1 x y points ih => exact Nat.le_trans ih (Nat.le_add_right _ 2)
  | case2 | case3 => exact Nat.le_refl _

/-- `cr_compress`: empty intervals are removed, and intervals that touch are merged. -/
def crCompress : List ℕ → List ℕ
  | p :: q :: points =>
    if p = q then crCompress points
    else
      let r := compressEnd q points
      p :: r.1 :: crCompress r.2
  | _ => []
termination_by points => points.length
decreasing_by
  · exact Nat.lt_add_of_pos_right (Nat.zero_lt_two)
  · exact Nat.lt_of_le_of_lt (length_compressEnd q points) (Nat.lt_add_of_pos_right Nat.zero_lt_two)

/-- `CharRangeOpEnum`. -/
inductive CharRangeOp
  | union
  | inter
  | xor
  deriving DecidableEq

/-- `is_in`. -/
def CharRangeOp.isIn : CharRangeOp → Bool → Bool → Bool
  | union, a, b => a || b
  | inter, a, b => a && b
  | xor, a, b => a ^^ b

/-- A point is added if it changes whether a character is in the result; `out` is the parity of `cr->len`. -/
def addPoint (v : ℕ) (isIn out : Bool) (points : Bool → List ℕ) : List ℕ :=
  if isIn = out then points out else v :: points (!out)

/-- The loop of `cr_op`: the points of both in increasing order. The parities of `a_idx`, `b_idx` and `cr->len`
are given. -/
def opPoints (op : CharRangeOp) : List ℕ → List ℕ → Bool → Bool → Bool → List ℕ
  | x :: a, y :: b, inA, inB, out =>
    if x < y then addPoint x (op.isIn (!inA) inB) out fun out => opPoints op a (y :: b) (!inA) inB out
    else if x = y then addPoint x (op.isIn (!inA) (!inB)) out fun out => opPoints op a b (!inA) (!inB) out
    else addPoint y (op.isIn inA (!inB)) out fun out => opPoints op (x :: a) b inA (!inB) out
  | x :: a, [], inA, inB, out => addPoint x (op.isIn (!inA) inB) out fun out => opPoints op a [] (!inA) inB out
  | [], y :: b, inA, inB, out => addPoint y (op.isIn inA (!inB)) out fun out => opPoints op [] b inA (!inB) out
  | [], [], _, _, _ => []
termination_by a b => a.length + b.length

/-- `cr_op`. -/
def crOp (op : CharRangeOp) (a b : List ℕ) : List ℕ := crCompress (opPoints op a b false false false)

/-- `cr_invert`. -/
def crInvert (points : List ℕ) : List ℕ := crCompress (0 :: points ++ [uint32Max])

variable {op : CharRangeOp} {points a b : List ℕ} {c p q x y : ℕ} {inA inB out : Bool}

/-! ## Parity -/

/-- Has an odd number of points been passed? -/
def oddPassed (c : ℕ) (points : List ℕ) : Bool := points.foldr (fun p odd => (p ≤ c : Bool) ^^ odd) false

@[simp]
theorem oddPassed_nil : oddPassed c [] = false := rfl

@[simp]
theorem oddPassed_cons : oddPassed c (p :: points) = ((p ≤ c : Bool) ^^ oddPassed c points) := rfl

theorem oddPassed_of_lt (h : ∀ p ∈ points, c < p) : oddPassed c points = false := by
  induction points with
  | nil => rfl
  | cons p points ih =>
    rw [oddPassed_cons, ih fun q hq => h q (.tail _ hq), decide_eq_false (Nat.not_le_of_lt (h p (.head _)))]
    rfl

/-- A character is in the set if an odd number of points has been passed. -/
theorem inPoints_iff (hs : points.Pairwise (· ≤ ·)) (heven : points.length % 2 = 0) :
    inPoints c points ↔ oddPassed c points = true := by
  fun_induction inPoints c points with
  | case1 low high points ih =>
    obtain ⟨hlow, hs⟩ := List.pairwise_cons.mp hs
    obtain ⟨hhigh, hs⟩ := List.pairwise_cons.mp hs
    rw [List.length_cons, List.length_cons] at heven
    have hrest := ih hs (by omega)
    have hle : low ≤ high := hlow high (.head _)
    rw [oddPassed_cons, oddPassed_cons]
    by_cases hc : c < high
    · -- no later point has been passed
      have hfalse := oddPassed_of_lt fun p hp => Nat.lt_of_lt_of_le hc (hhigh p hp)
      rw [hfalse] at hrest ⊢
      rw [decide_eq_false (Nat.not_le_of_lt hc)]
      simp [hrest, hc]
    · rw [hrest, decide_eq_true (Nat.le_of_not_lt hc), decide_eq_true (Nat.le_trans hle (Nat.le_of_not_lt hc))]
      simp [hc]
  | case2 points hno =>
    match points with
    | [] => exact ⟨False.elim, fun h => Bool.noConfusion h⟩
    | [_] => cases heven
    | low :: high :: points => exact absurd rfl (hno low high points)

/-! ## The loop of `cr_op` -/

theorem mem_addPoint {v : ℕ} {isIn : Bool} {f : Bool → List ℕ} (h : p ∈ addPoint v isIn out f) :
    p = v ∨ ∃ out', p ∈ f out' := by
  unfold addPoint at h
  split at h
  · exact .inr ⟨out, h⟩
  · exact (List.mem_cons.mp h).imp_right fun h => ⟨!out, h⟩

theorem mem_opPoints (h : p ∈ opPoints op a b inA inB out) : p ∈ a ∨ p ∈ b := by
  fun_induction opPoints op a b inA inB out with
  | case1 x a y b inA inB out hlt ih =>
    rcases mem_addPoint h with rfl | ⟨out', h⟩
    · exact .inl (.head _)
    · exact (ih out' h).imp_left (.tail _)
  | case2 a x b inA inB out hlt ih =>
    rcases mem_addPoint h with rfl | ⟨out', h⟩
    · exact .inl (.head _)
    · exact (ih out' h).imp (.tail _) (.tail _)
  | case3 x a y b inA inB out hlt hne ih =>
    rcases mem_addPoint h with rfl | ⟨out', h⟩
    · exact .inr (.head _)
    · exact (ih out' h).imp_right (.tail _)
  | case4 x a inA inB out ih =>
    rcases mem_addPoint h with rfl | ⟨out', h⟩
    · exact .inl (.head _)
    · exact (ih out' h).imp_left (.tail _)
  | case5 y b inA inB out ih =>
    rcases mem_addPoint h with rfl | ⟨out', h⟩
    · exact .inr (.head _)
    · exact (ih out' h).imp_right (.tail _)
  | case6 => cases h

theorem addPoint_sorted {v : ℕ} {isIn : Bool} {f : Bool → List ℕ} (hle : ∀ out', ∀ p ∈ f out', v ≤ p)
    (hs : ∀ out', (f out').Pairwise (· ≤ ·)) : (addPoint v isIn out f).Pairwise (· ≤ ·) := by
  unfold addPoint
  split
  · exact hs out
  · exact List.pairwise_cons.mpr ⟨hle (!out), hs (!out)⟩

/-- The points that are still to come are not smaller than the one that has been taken. -/
theorem le_opPoints {v : ℕ} (ha : ∀ p ∈ a, v ≤ p) (hb : ∀ p ∈ b, v ≤ p) :
    ∀ out', ∀ p ∈ opPoints op a b inA inB out', v ≤ p :=
  fun _ p hp => (mem_opPoints hp).elim (ha p) (hb p)

theorem forall_le_cons (hxy : x ≤ y) (hb : (y :: b).Pairwise (· ≤ ·)) : ∀ p ∈ y :: b, x ≤ p := by
  intro p hp
  rcases List.mem_cons.mp hp with rfl | hp
  · exact hxy
  · exact Nat.le_trans hxy (List.rel_of_pairwise_cons hb hp)

/-- Before the first point, none has been passed. -/
theorem oddPassed_of_lt_head (hxy : c < y) (hb : (y :: b).Pairwise (· ≤ ·)) : oddPassed c (y :: b) = false :=
  oddPassed_of_lt (forall_le_cons hxy hb)

theorem opPoints_sorted (ha : a.Pairwise (· ≤ ·)) (hb : b.Pairwise (· ≤ ·)) :
    (opPoints op a b inA inB out).Pairwise (· ≤ ·) := by
  fun_induction opPoints op a b inA inB out with
  | case1 x a y b inA inB out hlt ih =>
    obtain ⟨hx, ha'⟩ := List.pairwise_cons.mp ha
    exact addPoint_sorted (le_opPoints hx (forall_le_cons (Nat.le_of_lt hlt) hb)) fun out' => ih out' ha' hb
  | case2 a x b inA inB out hlt ih =>
    obtain ⟨hx, ha'⟩ := List.pairwise_cons.mp ha
    obtain ⟨hy, hb'⟩ := List.pairwise_cons.mp hb
    exact addPoint_sorted (le_opPoints hx hy) fun out' => ih out' ha' hb'
  | case3 x a y b inA inB out hlt hne ih =>
    obtain ⟨hy, hb'⟩ := List.pairwise_cons.mp hb
    have hyx : y ≤ x := Nat.le_of_not_lt hlt
    exact addPoint_sorted (le_opPoints (forall_le_cons hyx ha) hy) fun out' => ih out' ha hb'
  | case4 x a inA inB out ih =>
    obtain ⟨hx, ha'⟩ := List.pairwise_cons.mp ha
    exact addPoint_sorted (le_opPoints hx (List.forall_mem_nil _)) fun out' => ih out' ha' hb
  | case5 y b inA inB out ih =>
    obtain ⟨hy, hb'⟩ := List.pairwise_cons.mp hb
    exact addPoint_sorted (le_opPoints (List.forall_mem_nil _) hy) fun out' => ih out' ha hb'
  | case6 => exact .nil

/-- Whether a character is in the result changes at a point that has been passed, to what it is there. -/
theorem status_addPoint {v : ℕ} {isIn : Bool} {f : Bool → List ℕ} (hle : ∀ out', ∀ p ∈ f out', v ≤ p) :
    (out ^^ oddPassed c (addPoint v isIn out f)) = if v ≤ c then isIn ^^ oddPassed c (f isIn) else out := by
  unfold addPoint
  by_cases hv : v ≤ c
  · split
    · rename_i heq
      rw [heq]
    · rename_i hne
      have hnot : isIn = !out := Bool.eq_not_of_ne hne
      rw [hnot, oddPassed_cons, decide_eq_true hv, Bool.true_xor, Bool.xor_not, Bool.not_xor]
  · have hnone := fun out' => oddPassed_of_lt (c := c) fun p hp => Nat.lt_of_lt_of_le (Nat.lt_of_not_le hv) (hle out' p hp)
    split
    · rw [hnone, Bool.xor_false]
    · rw [oddPassed_cons, hnone, decide_eq_false hv, Bool.xor_false, Bool.xor_false]

theorem opPoints_status (ha : a.Pairwise (· ≤ ·)) (hb : b.Pairwise (· ≤ ·)) (hout : op.isIn inA inB = out) :
    (out ^^ oddPassed c (opPoints op a b inA inB out)) = op.isIn (inA ^^ oddPassed c a) (inB ^^ oddPassed c b) := by
  fun_induction opPoints op a b inA inB out with
  | case1 x a y b inA inB out hlt ih =>
    obtain ⟨hx, ha'⟩ := List.pairwise_cons.mp ha
    rw [status_addPoint (le_opPoints hx (forall_le_cons (Nat.le_of_lt hlt) hb))]
    split
    · rename_i hc
      rw [ih _ ha' hb rfl, oddPassed_cons (p := x), decide_eq_true hc, Bool.true_xor, Bool.xor_not, Bool.not_xor]
    · rename_i hc
      have hcx := Nat.lt_of_not_le hc
      rw [oddPassed_of_lt_head hcx ha, oddPassed_of_lt_head (Nat.lt_trans hcx hlt) hb,
        Bool.xor_false, Bool.xor_false, hout]
  | case2 a x b inA inB out hlt ih =>
    obtain ⟨hx, ha'⟩ := List.pairwise_cons.mp ha
    obtain ⟨hy, hb'⟩ := List.pairwise_cons.mp hb
    rw [status_addPoint (le_opPoints hx hy)]
    split
    · rename_i hc
      rw [ih _ ha' hb' rfl, oddPassed_cons, oddPassed_cons, decide_eq_true hc, Bool.true_xor, Bool.true_xor,
        Bool.xor_not, Bool.xor_not, Bool.not_xor, Bool.not_xor]
    · rename_i hc
      have hcx := Nat.lt_of_not_le hc
      rw [oddPassed_of_lt_head hcx ha, oddPassed_of_lt_head hcx hb, Bool.xor_false, Bool.xor_false, hout]
  | case3 x a y b inA inB out hlt hne ih =>
    obtain ⟨hy, hb'⟩ := List.pairwise_cons.mp hb
    have hyx : y ≤ x := Nat.le_of_not_lt hlt
    rw [status_addPoint (le_opPoints (forall_le_cons hyx ha) hy)]
    split
    · rename_i hc
      rw [ih _ ha hb' rfl, oddPassed_cons (p := y), decide_eq_true hc, Bool.true_xor, Bool.xor_not, Bool.not_xor]
    · rename_i hc
      have hcy := Nat.lt_of_not_le hc
      rw [oddPassed_of_lt_head (Nat.lt_of_lt_of_le hcy hyx) ha, oddPassed_of_lt_head hcy hb,
        Bool.xor_false, Bool.xor_false, hout]
  | case4 x a inA inB out ih =>
    obtain ⟨hx, ha'⟩ := List.pairwise_cons.mp ha
    rw [status_addPoint (le_opPoints hx (List.forall_mem_nil _))]
    split
    · rename_i hc
      rw [ih _ ha' hb rfl, oddPassed_cons, decide_eq_true hc, Bool.true_xor, Bool.xor_not, Bool.not_xor]
    · rename_i hc
      rw [oddPassed_of_lt_head (Nat.lt_of_not_le hc) ha, oddPassed_nil, Bool.xor_false, Bool.xor_false, hout]
  | case5 y b inA inB out ih =>
    obtain ⟨hy, hb'⟩ := List.pairwise_cons.mp hb
    rw [status_addPoint (le_opPoints (List.forall_mem_nil _) hy)]
    split
    · rename_i hc
      rw [ih _ ha hb' rfl, oddPassed_cons, decide_eq_true hc, Bool.true_xor, Bool.xor_not, Bool.not_xor]
    · rename_i hc
      rw [oddPassed_of_lt_head (Nat.lt_of_not_le hc) hb, oddPassed_nil, Bool.xor_false, Bool.xor_false, hout]
  | case6 inA inB out => rw [oddPassed_nil, Bool.xor_false, Bool.xor_false, Bool.xor_false, hout]

/-! ## Compression -/

/-- An interval that ends at `q` has been merged with those that touch it. -/
structure Merged (q : ℕ) (points : List ℕ) (r : ℕ × List ℕ) : Prop where
  le : q ≤ r.1
  lt : ∀ p ∈ r.2, r.1 < p
  sorted : r.2.Pairwise (· ≤ ·)
  even : r.2.length % 2 = 0
  odd : ∀ c, oddPassed c (r.1 :: r.2) = oddPassed c (q :: points)
  mem : ∀ p ∈ r.1 :: r.2, p ∈ q :: points

theorem merged_compressEnd (hs : (q :: points).Pairwise (· ≤ ·)) (heven : points.length % 2 = 0) :
    Merged q points (compressEnd q points) := by
  fun_induction compressEnd q points with
  | case1 x y points ih =>
    obtain ⟨hx, hs⟩ := List.pairwise_cons.mp hs
    obtain ⟨hy, hs⟩ := List.pairwise_cons.mp hs
    rw [List.length_cons, List.length_cons] at heven
    have hm := ih hs (by omega)
    refine ⟨Nat.le_trans (hy y (.head _)) hm.le, hm.lt, hm.sorted, hm.even, fun c => ?_, fun p hp => ?_⟩
    · rw [hm.odd, oddPassed_cons (p := x), oddPassed_cons (p := x), ← Bool.xor_assoc, Bool.xor_self, Bool.false_xor]
    · exact .tail _ (.tail _ (hm.mem p hp))
  | case2 q x y points hne =>
    obtain ⟨hx, hs'⟩ := List.pairwise_cons.mp hs
    have hlt : q < x := Nat.lt_of_le_of_ne (hx x (.head _)) hne
    refine ⟨Nat.le_refl _, fun p hp => ?_, hs', heven, fun c => rfl, fun p hp => hp⟩
    rcases List.mem_cons.mp hp with rfl | hp
    · exact hlt
    · exact Nat.lt_of_lt_of_le hlt (List.rel_of_pairwise_cons hs' hp)
  | case3 q points hno =>
    match points with
    | [] => exact ⟨Nat.le_refl _, List.forall_mem_nil _, .nil, rfl, fun c => rfl, fun p hp => hp⟩
    | [_] => cases heven
    | x :: y :: points => exact absurd rfl (hno x y points)

/-- The canonical form of some points. -/
structure Compressed (points points' : List ℕ) : Prop where
  sorted : points'.Pairwise (· < ·)
  even : points'.length % 2 = 0
  odd : ∀ c, oddPassed c points' = oddPassed c points
  mem : ∀ p ∈ points', p ∈ points

theorem compressed_crCompress (hs : points.Pairwise (· ≤ ·)) (heven : points.length % 2 = 0) :
    Compressed points (crCompress points) := by
  fun_induction crCompress points with
  | case1 q points ih =>
    obtain ⟨_, hs⟩ := List.pairwise_cons.mp hs
    obtain ⟨_, hs⟩ := List.pairwise_cons.mp hs
    rw [List.length_cons, List.length_cons] at heven
    have hc := ih hs (by omega)
    refine ⟨hc.sorted, hc.even, fun c => ?_, fun p hp => .tail _ (.tail _ (hc.mem p hp))⟩
    rw [hc.odd, oddPassed_cons, oddPassed_cons, ← Bool.xor_assoc, Bool.xor_self, Bool.false_xor]
  | case2 p q points hne r ih =>
    obtain ⟨hp, hs⟩ := List.pairwise_cons.mp hs
    rw [List.length_cons, List.length_cons] at heven
    have hm : Merged q points r := merged_compressEnd hs (by omega)
    have hc := ih hm.sorted hm.even
    have hpr : p < r.1 := Nat.lt_of_lt_of_le (Nat.lt_of_le_of_ne (hp q (.head _)) hne) hm.le
    have hlt : ∀ p' ∈ crCompress r.2, r.1 < p' := fun p' hp' => hm.lt p' (hc.mem p' hp')
    refine ⟨?_, ?_, fun c => ?_, fun p' hp' => ?_⟩
    · refine List.pairwise_cons.mpr ⟨fun p' hp' => ?_, List.pairwise_cons.mpr ⟨hlt, hc.sorted⟩⟩
      rcases List.mem_cons.mp hp' with rfl | hp'
      · exact hpr
      · exact Nat.lt_trans hpr (hlt p' hp')
    · rw [List.length_cons, List.length_cons]
      have := hc.even
      omega
    · rw [oddPassed_cons, oddPassed_cons, hc.odd, ← oddPassed_cons (p := r.1), hm.odd, ← oddPassed_cons]
    · rcases List.mem_cons.mp hp' with rfl | hp'
      · exact .head _
      · rcases List.mem_cons.mp hp' with rfl | hp'
        · exact .tail _ (hm.mem _ (.head _))
        · exact .tail _ (hm.mem p' (.tail _ (hc.mem p' hp')))
  | case3 points hno =>
    match points with
    | [] => exact ⟨.nil, rfl, fun c => rfl, fun p hp => hp⟩
    | [_] => cases heven
    | x :: y :: points => exact absurd rfl (hno x y points)

/-! ## Operations on sets -/

theorem CharRange.mem_iff_odd {cr : CharRange} : c ∈ cr ↔ oddPassed c cr.points = true :=
  inPoints_iff (cr.sorted.imp Nat.le_of_lt) cr.even

/-- Some points in canonical form are a set. -/
def CharRange.ofCompressed (points' : List ℕ) (hc : Compressed points points') (hb : ∀ p ∈ points, p ≤ uint32Max) :
    CharRange :=
  ⟨points', hc.even, hc.sorted, fun p hp => hb p (hc.mem p hp)⟩

/-- Beyond all points, the parity is that of their number. -/
theorem oddPassed_of_le (h : ∀ p ∈ points, p ≤ c) : oddPassed c points = decide (points.length % 2 = 1) := by
  induction points with
  | nil => rfl
  | cons p points ih =>
    rw [oddPassed_cons, ih fun q hq => h q (.tail _ hq), decide_eq_true (h p (.head _)), List.length_cons,
      Bool.true_xor, ← decide_not]
    exact decide_eq_decide.mpr (by omega)

theorem CharRangeOp.isIn_false (op : CharRangeOp) : op.isIn false false = false := by
  cases op <;> rfl

/-- Points that begin and end intervals, which may be empty and may touch. -/
structure Intervals (points : List ℕ) : Prop where
  sorted : points.Pairwise (· ≤ ·)
  even : points.length % 2 = 0
  bounded : ∀ p ∈ points, p ≤ uint32Max

theorem CharRange.intervals (cr : CharRange) : Intervals cr.points :=
  ⟨cr.sorted.imp Nat.le_of_lt, cr.even, cr.bounded⟩

theorem Intervals.odd_uint32Max (h : Intervals points) : oddPassed uint32Max points = false := by
  rw [oddPassed_of_le h.bounded, h.even]
  rfl

theorem compressed_opPoints (op : CharRangeOp) (ha : Intervals a) (hb : Intervals b) :
    Compressed (opPoints op a b false false false) (crOp op a b) := by
  have hmem : ∀ p ∈ opPoints op a b false false false, p ≤ uint32Max :=
    fun p hp => (mem_opPoints hp).elim (ha.bounded p) (hb.bounded p)
  refine compressed_crCompress (opPoints_sorted ha.sorted hb.sorted) ?_
  have hstatus := opPoints_status (c := uint32Max) ha.sorted hb.sorted op.isIn_false
  rw [ha.odd_uint32Max, hb.odd_uint32Max, Bool.false_xor, Bool.false_xor, op.isIn_false, oddPassed_of_le hmem,
    decide_eq_false_iff_not] at hstatus
  omega

theorem odd_crOp (op : CharRangeOp) (ha : Intervals a) (hb : Intervals b) :
    oddPassed c (crOp op a b) = op.isIn (oddPassed c a) (oddPassed c b) := by
  have hstatus := opPoints_status (c := c) ha.sorted hb.sorted op.isIn_false
  rw [Bool.false_xor, Bool.false_xor, Bool.false_xor] at hstatus
  rw [(compressed_opPoints op ha hb).odd c, hstatus]

/-- `cr_op`, on sets. -/
def CharRange.crOp (op : CharRangeOp) (cr cr' : CharRange) : CharRange :=
  .ofCompressed (Regexp.crOp op cr.points cr'.points) (compressed_opPoints op cr.intervals cr'.intervals) fun p hp =>
    (mem_opPoints hp).elim (cr.bounded p) (cr'.bounded p)

theorem CharRange.decide_mem (cr : CharRange) : decide (c ∈ cr) = oddPassed c cr.points := by
  rw [Bool.eq_iff_iff, decide_eq_true_iff, mem_iff_odd]

theorem CharRange.mem_crOp {cr cr' : CharRange} : c ∈ cr.crOp op cr' ↔ op.isIn (c ∈ cr) (c ∈ cr') = true := by
  rw [mem_iff_odd, decide_mem, decide_mem, ← odd_crOp op cr.intervals cr'.intervals]
  rfl

/-- `cr_union1`. -/
def CharRange.crUnion1 (cr cr' : CharRange) : CharRange := cr.crOp .union cr'

@[simp]
theorem CharRange.mem_crUnion1 {cr cr' : CharRange} : c ∈ cr.crUnion1 cr' ↔ c ∈ cr ∨ c ∈ cr' := by
  rw [crUnion1, mem_crOp, CharRangeOp.isIn, Bool.or_eq_true, decide_eq_true_iff, decide_eq_true_iff]

/-- `cr_init`. -/
def CharRange.empty : CharRange := ⟨[], rfl, .nil, List.forall_mem_nil _⟩

/-- The points of an interval. -/
def CharRange.interval (c1 c2 : ℕ) (hle : c1 ≤ c2) (hlt : c2 < uint32Max) : CharRange where
  points := [c1, c2 + 1]
  even := Nat.mod_self 2
  sorted := List.pairwise_pair.mpr (Nat.lt_succ_of_le hle)
  bounded p hp := by
    rcases List.mem_pair.mp hp with rfl | rfl
    · exact Nat.le_of_lt (Nat.lt_of_le_of_lt hle hlt)
    · exact hlt

@[simp]
theorem CharRange.mem_interval {c1 c2 : ℕ} {hle : c1 ≤ c2} {hlt : c2 < uint32Max} :
    c ∈ interval c1 c2 hle hlt ↔ c1 ≤ c ∧ c ≤ c2 := by
  rw [mem_iff, interval, inPoints, Nat.lt_succ_iff]
  exact or_iff_left id

theorem compressed_crInvert (h : Intervals points) : Compressed (0 :: points ++ [uint32Max]) (crInvert points) := by
  refine compressed_crCompress ?_ ?_
  · refine List.pairwise_cons.mpr ⟨fun p _ => Nat.zero_le p, List.pairwise_append.mpr ⟨?_, ?_, fun p hp q hq => ?_⟩⟩
    · exact h.sorted
    · exact List.pairwise_singleton _ _
    · rw [List.mem_singleton.mp hq]
      exact h.bounded p hp
  · have := h.even
    rw [List.cons_append, List.length_cons, List.length_append, List.length_singleton]
    omega

/-- `cr_invert`, on sets. -/
def CharRange.crInvert (cr : CharRange) : CharRange :=
  .ofCompressed (Regexp.crInvert cr.points) (compressed_crInvert cr.intervals) fun p hp => by
    rcases List.mem_append.mp hp with hp | hp
    · rcases List.mem_cons.mp hp with rfl | hp
      · exact Nat.zero_le _
      · exact cr.bounded p hp
    · exact Nat.le_of_eq (List.mem_singleton.mp hp)

theorem oddPassed_append (points points' : List ℕ) :
    oddPassed c (points ++ points') = (oddPassed c points ^^ oddPassed c points') := by
  induction points with
  | nil => exact (Bool.false_xor _).symm
  | cons p points ih => rw [List.cons_append, oddPassed_cons, oddPassed_cons, ih, Bool.xor_assoc]

theorem odd_crInvert (h : Intervals points) (hc : c < uint32Max) : oddPassed c (crInvert points) = !oddPassed c points := by
  rw [(compressed_crInvert h).odd c, oddPassed_append, oddPassed_cons, oddPassed_cons, decide_eq_true (Nat.zero_le c),
    decide_eq_false (Nat.not_le_of_lt hc), Bool.true_xor, oddPassed_nil, Bool.false_xor, Bool.xor_false]

theorem CharRange.mem_crInvert {cr : CharRange} (hc : c < uint32Max) : c ∈ cr.crInvert ↔ c ∉ cr := by
  rw [mem_iff_odd, mem_iff_odd, Bool.not_eq_true, ← Bool.not_eq_true', ← odd_crInvert cr.intervals hc]
  rfl

/-! ## Classes -/

/-- A point is where an interval begins, or comes after its last character. -/
theorem point_mem (hs : points.Pairwise (· < ·)) (heven : points.length % 2 = 0) (hp : p ∈ points) :
    inPoints p points ∨ 0 < p ∧ inPoints (p - 1) points := by
  fun_induction inPoints p points with
  | case1 low high points ih =>
    obtain ⟨hlow, hs⟩ := List.pairwise_cons.mp hs
    obtain ⟨hhigh, hs⟩ := List.pairwise_cons.mp hs
    have hlt : low < high := hlow high (.head _)
    rw [List.length_cons, List.length_cons] at heven
    rcases List.mem_cons.mp hp with rfl | hp
    · exact .inl (.inl ⟨Nat.le_refl _, hlt⟩)
    rcases List.mem_cons.mp hp with rfl | hp
    · exact .inr ⟨Nat.zero_lt_of_lt hlt, .inl ⟨Nat.le_sub_one_of_lt hlt, Nat.sub_one_lt_of_lt hlt⟩⟩
    · rcases ih hs (by omega) hp with h | ⟨h0, h⟩
      · exact .inl (.inr h)
      · exact .inr ⟨h0, .inr h⟩
  | case2 points hno =>
    match points with
    | [] => cases hp
    | [_] => cases heven
    | low :: high :: points => exact absurd rfl (hno low high points)

/-- The lower case letters of a set. -/
def CharRange.lowerCase (cr : CharRange) : CharRange := cr.crOp .inter (interval 97 122 (by decide) (by decide))

theorem CharRange.mem_lowerCase {cr : CharRange} : c ∈ cr.lowerCase ↔ c ∈ cr ∧ 97 ≤ c ∧ c ≤ 122 := by
  rw [lowerCase, mem_crOp, CharRangeOp.isIn, Bool.and_eq_true, decide_eq_true_iff, decide_eq_true_iff, mem_interval]

theorem CharRange.lowerCase_points {cr : CharRange} (hp : p ∈ cr.lowerCase.points) : 97 ≤ p ∧ p ≤ 123 := by
  rcases point_mem cr.lowerCase.sorted cr.lowerCase.even hp with h | ⟨h0, h⟩
  · have := (mem_lowerCase.mp h).2
    omega
  · have := (mem_lowerCase.mp h).2
    omega

/-- The upper case of a lower case letter, on words of 32 bits. -/
def toUpper (p : ℕ) : ℕ := (p + (2 ^ 32 + 65 - 97)) % 2 ^ 32

theorem toUpper_eq (h : 97 ≤ p ∧ p ≤ 123) : toUpper p = p - 32 := by
  unfold toUpper
  omega

/-- The upper case of the lower case letters of a set. -/
def CharRange.upperCase (cr : CharRange) : CharRange where
  points := cr.lowerCase.points.map toUpper
  even := by
    rw [List.length_map]
    exact cr.lowerCase.even
  sorted := by
    refine List.pairwise_map.mpr (cr.lowerCase.sorted.imp_of_mem fun {p q} hp hq hlt => ?_)
    have hp' := lowerCase_points hp
    rw [toUpper_eq hp', toUpper_eq (lowerCase_points hq)]
    omega
  bounded p hp := by
    obtain ⟨q, hq, rfl⟩ := List.mem_map.mp hp
    have hq' := lowerCase_points hq
    rw [toUpper_eq hq']
    exact Nat.le_trans (Nat.sub_le q 32) (Nat.le_trans hq'.2 (by decide))

theorem oddPassed_map (h : ∀ p ∈ points, 97 ≤ p ∧ p ≤ 123) :
    oddPassed c (points.map toUpper) = oddPassed (c + 32) points := by
  induction points with
  | nil => rfl
  | cons p points ih =>
    have hp := h p (.head _)
    rw [List.map_cons, oddPassed_cons, ih fun q hq => h q (.tail _ hq), toUpper_eq hp]
    congr 1
    exact decide_eq_decide.mpr (by omega)

theorem CharRange.mem_upperCase {cr : CharRange} : c ∈ cr.upperCase ↔ c + 32 ∈ cr ∧ 65 ≤ c ∧ c ≤ 90 := by
  have hodd := oddPassed_map (c := c) fun p (hp : p ∈ cr.lowerCase.points) => lowerCase_points hp
  rw [mem_iff_odd, upperCase, hodd, ← mem_iff_odd, mem_lowerCase]
  refine and_congr_right fun _ => ?_
  omega

/-- `cr_canonicalize`: the lower case ranges are kept. -/
def CharRange.crCanonicalize (cr : CharRange) : CharRange := cr.crUnion1 cr.upperCase

theorem CharRange.mem_crCanonicalize {cr : CharRange} :
    c ∈ cr.crCanonicalize ↔ c ∈ cr ∨ c + 32 ∈ cr ∧ 65 ≤ c ∧ c ≤ 90 := by
  rw [crCanonicalize, mem_crUnion1, mem_upperCase]

/-- What `re_parse_char_class` has read between two brackets: a range of characters, or the set of an escape or of
a property. -/
inductive ClassItem
  | range (c1 c2 : ℕ) (le : c1 ≤ c2) (le' : c2 ≤ 0x10ffff)
  | set (cr1 : CharRange)

/-- The set of an item. -/
def ClassItem.toRange : ClassItem → CharRange
  | range c1 c2 le le' => .interval c1 c2 le (Nat.lt_of_le_of_lt le' (by decide))
  | set cr1 => cr1

@[simp]
theorem ClassItem.mem_range {c1 c2 : ℕ} {le : c1 ≤ c2} {le' : c2 ≤ 0x10ffff} :
    c ∈ (range c1 c2 le le').toRange ↔ c1 ≤ c ∧ c ≤ c2 := by
  rw [toRange, CharRange.mem_interval]

/-- The union of the items. -/
def classUnion (items : List ClassItem) : CharRange := items.foldl (fun cr item => cr.crUnion1 item.toRange) .empty

theorem mem_foldl_crUnion1 {items : List ClassItem} {cr : CharRange} :
    c ∈ items.foldl (fun cr item => cr.crUnion1 item.toRange) cr ↔ c ∈ cr ∨ ∃ item ∈ items, c ∈ item.toRange := by
  induction items generalizing cr with
  | nil => exact (or_iff_left fun ⟨_, h, _⟩ => List.not_mem_nil h).symm
  | cons item items ih => rw [List.foldl_cons, ih, CharRange.mem_crUnion1, List.exists_mem_cons_iff, or_assoc]

theorem mem_classUnion {items : List ClassItem} : c ∈ classUnion items ↔ ∃ item ∈ items, c ∈ item.toRange := by
  rw [classUnion, mem_foldl_crUnion1]
  exact or_iff_right id

/-- `re_parse_char_class` behind the parser: the set whose range test is emitted. -/
def charClass (ignoreCase invert : Bool) (items : List ClassItem) : CharRange :=
  let cr := classUnion items
  let cr := if ignoreCase then cr.crCanonicalize else cr
  if invert then cr.crInvert else cr

/-- A class: in brackets, or an escape or a property on its own. -/
inductive ParsedClass
  | brackets (invert : Bool) (items : List ClassItem)
  | escape (cr : CharRange)

/-- The members, before the negation. -/
def ParsedClass.members : ParsedClass → CharRange
  | brackets _ items => classUnion items
  | escape cr => cr

def ParsedClass.invert : ParsedClass → Bool
  | brackets invert _ => invert
  | escape _ => false

def ParsedClass.isBrackets : ParsedClass → Bool
  | brackets _ _ => true
  | escape _ => false

/-- The set whose range test is emitted; `re_parse_term` does not canonicalize the set of an escape. -/
def ParsedClass.emitted (ignoreCase : Bool) : ParsedClass → CharRange
  | brackets invert items => charClass ignoreCase invert items
  | escape cr => cr

end QuickJs.Regexp
