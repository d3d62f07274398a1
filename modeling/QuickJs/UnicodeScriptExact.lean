import QuickJs.UnicodeScriptTable

/-!
# The operations on sets of characters are exact

What `cr_op`, `cr_union1`, `cr_invert` and `cr_compress` leave in the block of a `CharRange` is in canonical form and is
the set that it should be; a function fails only if a request for memory is refused. `cr_compress` takes any points in
order. A last point without a partner begins no interval, and is dropped.
-/

namespace QuickJs.CharRangeBuffer

open Regexp

variable {points : List ℕ} {c x q : ℕ} {cr : Cr} {heap : Heap} {grants : ℕ → Bool}

/-! ## A point without a partner -/

theorem even_compressEnd (heven : points.length % 2 = 0) : (compressEnd q points).2.length % 2 = 0 := by
  fun_induction compressEnd q points with
  | case1 x y points ih =>
    rw [List.length_cons, List.length_cons] at heven
    exact ih (by omega)
  | case2 | case3 => exact heven

theorem compressEnd_concat (heven : points.length % 2 = 0) :
    compressEnd q (points ++ [x]) = ((compressEnd q points).1, (compressEnd q points).2 ++ [x]) := by
  fun_induction compressEnd q points with
  | case1 z y points ih =>
    rw [List.length_cons, List.length_cons] at heven
    rw [List.cons_append, List.cons_append, compressEnd, if_pos rfl]
    exact ih (by omega)
  | case2 q z y points hne => rw [List.cons_append, List.cons_append, compressEnd, if_neg hne]
  | case3 q points hno =>
    rcases points with _ | ⟨z, _ | ⟨y, points⟩⟩
    · rfl
    · cases heven
    · exact absurd rfl (hno z y points)

theorem crCompress_concat (heven : points.length % 2 = 0) : crCompress (points ++ [x]) = crCompress points := by
  fun_induction crCompress points with
  | case1 p points ih =>
    rw [List.length_cons, List.length_cons] at heven
    rw [List.cons_append, List.cons_append, crCompress, if_pos rfl]
    exact ih (by omega)
  | case2 p q points hne r ih =>
    rw [List.length_cons, List.length_cons] at heven
    have hpoints : points.length % 2 = 0 := by omega
    rw [List.cons_append, List.cons_append, crCompress, if_neg hne, compressEnd_concat hpoints]
    dsimp only
    rw [ih (even_compressEnd hpoints)]
  | case3 points hno =>
    rcases points with _ | ⟨z, _ | ⟨y, points⟩⟩
    · rw [crCompress]
      rintro _ _ _ ⟨⟩
    · cases heven
    · exact absurd rfl (hno z y points)

theorem inPoints_concat (heven : points.length % 2 = 0) : inPoints c (points ++ [x]) ↔ inPoints c points := by
  fun_induction inPoints c points with
  | case1 low high points ih =>
    rw [List.length_cons, List.length_cons] at heven
    exact or_congr_right (ih (by omega))
  | case2 points hno =>
    rcases points with _ | ⟨low, _ | ⟨high, points⟩⟩
    · rfl
    · cases heven
    · exact absurd rfl (hno low high points)

/-- The intervals of a list are those of its points with a partner. -/
theorem exists_intervals (hs : points.Pairwise (· ≤ ·)) (hb : ∀ p ∈ points, p ≤ uint32Max) :
    ∃ pairs, Intervals pairs ∧ crCompress points = crCompress pairs ∧ ∀ c, inPoints c points ↔ inPoints c pairs := by
  by_cases heven : points.length % 2 = 0
  · exact ⟨points, ⟨hs, heven, hb⟩, rfl, fun _ => Iff.rfl⟩
  · have hne : points ≠ [] := by
      rintro rfl
      exact heven rfl
    have hsplit := List.dropLast_append_getLast hne
    have hlength : points.dropLast.length % 2 = 0 := by
      rw [List.length_dropLast]
      omega
    refine ⟨points.dropLast, ⟨hs.sublist (List.dropLast_sublist _), hlength,
      fun p hp => hb p ((List.dropLast_sublist _).subset hp)⟩, ?_, fun c => ?_⟩
    · rw [← crCompress_concat hlength, hsplit]
    · rw [← inPoints_concat hlength, hsplit]

/-! ## Sets -/

/-- A `CharRange` in canonical form that holds a set. -/
structure Cr.Holds (cr : Cr) (set : CharRange) : Prop where
  ok : cr.Ok
  used : cr.used = set.points

theorem crOp_holds (op : CharRangeOp) (a b : CharRange) (hr : (crOp grants op a.points b.points crInit heap).ok = true) :
    (crOp grants op a.points b.points crInit heap).cr.Holds (a.crOp op b) := by
  have hdoes := crOp_does grants op a.points b.points heap
  exact ⟨hdoes.ok, (hdoes.granted (hdoes.ok_iff.mp hr)).2.1⟩

theorem crInvert_holds {a : CharRange} (h : cr.Holds a) (hr : (crInvert grants cr heap).ok = true) :
    (crInvert grants cr heap).cr.Holds a.crInvert := by
  have hdoes := crInvert_does grants heap h.ok
  refine ⟨hdoes.ok, ?_⟩
  rw [(hdoes.granted (hdoes.ok_iff.mp hr)).2.1, h.used]
  rfl

theorem crUnion1_holds {a : CharRange} (h : cr.Holds a) (b : CharRange) (hr : (crUnion1 grants b.points cr heap).ok = true) :
    (crUnion1 grants b.points cr heap).cr.Holds (a.crUnion1 b) := by
  rw [crUnion1, h.used] at hr ⊢
  exact crOp_holds .union a b hr

/-- Points in order are made canonical, and the set stays. -/
theorem compress_holds (h : cr.Ok) (hs : cr.used.Pairwise (· ≤ ·)) (hb : ∀ p ∈ cr.used, p ≤ uint32Max) :
    ∃ set : CharRange, (compress cr).Holds set ∧ ∀ c, c ∈ set ↔ inPoints c cr.used := by
  obtain ⟨pairs, hpairs, hcompress, hmem⟩ := exists_intervals hs hb
  have hc := compressed_crCompress hpairs.sorted hpairs.even
  obtain ⟨hok, hused⟩ := compress_spec h
  refine ⟨.ofCompressed _ hc hpairs.bounded, ⟨hok, hused.trans hcompress⟩, fun c => ?_⟩
  rw [hmem, inPoints_iff hpairs.sorted hpairs.even, CharRange.mem_iff_odd]
  exact iff_of_eq (congrArg (· = true) (hc.odd c))

/-- **The operations are exact set algebra.** -/
theorem charRange_exact (grants : ℕ → Bool) (heap : Heap) :
    (∀ (op : CharRangeOp) (a b : CharRange), (crOp grants op a.points b.points crInit heap).ok = true →
      ∃ set : CharRange, (crOp grants op a.points b.points crInit heap).cr.Holds set ∧
        ∀ c, c ∈ set ↔ op.isIn (c ∈ a) (c ∈ b) = true) ∧
    (∀ (cr : Cr) (a b : CharRange), cr.Holds a → (crUnion1 grants b.points cr heap).ok = true →
      ∃ set : CharRange, (crUnion1 grants b.points cr heap).cr.Holds set ∧ ∀ c, c ∈ set ↔ c ∈ a ∨ c ∈ b) ∧
    (∀ (cr : Cr) (a : CharRange), cr.Holds a → (crInvert grants cr heap).ok = true →
      ∃ set : CharRange, (crInvert grants cr heap).cr.Holds set ∧ ∀ c < uint32Max, c ∈ set ↔ c ∉ a) ∧
    (∀ cr : Cr, cr.Ok → cr.used.Pairwise (· ≤ ·) → (∀ p ∈ cr.used, p ≤ uint32Max) →
      ∃ set : CharRange, (compress cr).Holds set ∧ ∀ c, c ∈ set ↔ inPoints c cr.used) ∧
    ((∀ k, grants k = true) →
      (∀ op (a b : CharRange), (crOp grants op a.points b.points crInit heap).ok = true) ∧
      (∀ (cr : Cr) (b : CharRange), (crUnion1 grants b.points cr heap).ok = true) ∧
      ∀ cr : Cr, cr.Ok → (crInvert grants cr heap).ok = true) := by
  refine ⟨fun op a b hr => ⟨_, crOp_holds op a b hr, fun c => CharRange.mem_crOp⟩,
    fun cr a b h hr => ⟨_, crUnion1_holds h b hr, fun c => CharRange.mem_crUnion1⟩,
    fun cr a h hr => ⟨_, crInvert_holds h hr, fun c hc => CharRange.mem_crInvert hc⟩,
    fun cr h hs hb => compress_holds h hs hb, fun hall => ?_⟩
  have hgranted : ∀ n, Granted grants heap n := fun n k _ => hall _
  exact ⟨fun op a b => ((crOp_does grants op a.points b.points heap).granted (hgranted _)).1,
    fun cr b => ((crOp_does grants .union cr.used b.points heap).granted (hgranted _)).1,
    fun cr h => ((crInvert_does grants heap h).granted (hgranted _)).1⟩

/-- The letters without `a`. -/
theorem charRange_exact_example : ∃ set : CharRange,
    (crOp (fun _ => true) .xor (CharRange.interval 97 122 (by decide) (by decide)).points
      (CharRange.interval 97 97 (by decide) (by decide)).points crInit ⟨0, 0, fun _ => 0⟩).cr.Holds set ∧ 98 ∈ set := by
  obtain ⟨hop, -, -, -, hok⟩ := charRange_exact (fun _ => true) ⟨0, 0, fun _ => 0⟩
  obtain ⟨set, hholds, hset⟩ := hop .xor _ _ ((hok fun _ => rfl).1 .xor _ _)
  refine ⟨set, hholds, (hset 98).mpr ?_⟩
  simp [CharRangeOp.isIn]

end QuickJs.CharRangeBuffer

/-!
## `unicode_script` and failing allocations

A run in which no request for memory is refused returns the characters of the script, and frees its temporary blocks
once. A run in which one is refused gets to the label `fail` and never leaves it.
-/

namespace QuickJs.UnicodeScript

open Regexp CharRangeBuffer

variable {α : Type} {run : List ℕ → Option ((ℕ × α) × List ℕ)} {wanted : α → Bool} {runs : List (ℕ × α)}
  {c x n size fuel rounds : ℕ} {points p : List ℕ} {cr : Cr} {heap : Heap} {grants : ℕ → Bool} {r : Res}

/-! ## The loops over the tables -/

/-- The intervals of runs are added. -/
def addRuns (grants : ℕ → Bool) (wanted : α → Bool) : List (ℕ × α) → ℕ → Cr → Heap → Res
  | [], _, cr, heap => ⟨true, cr, heap⟩
  | (n, v) :: runs, c, cr, heap =>
    if wanted v then
      let added := crAddInterval grants c (c + n + 1) cr heap
      if added.ok then addRuns grants wanted runs (c + n + 1) added.cr added.heap else added
    else addRuns grants wanted runs (c + n + 1) cr heap

/-- A loop reads the runs of its table. -/
theorem tableLoop_eq (h : decode run fuel p = some runs) (c : ℕ) (cr : Cr) (heap : Heap) :
    tableLoop grants run wanted fuel p c cr heap = some (addRuns grants wanted runs c cr heap) := by
  induction fuel generalizing p runs c cr heap with
  | zero =>
    cases p with
    | nil =>
      cases h
      rfl
    | cons b p => cases h
  | succ fuel ih =>
    cases p with
    | nil =>
      cases h
      rfl
    | cons b p =>
      obtain ⟨⟨⟨n, v⟩, rest⟩, hrun, h⟩ := Option.bind_eq_some_iff.mp h
      obtain ⟨runs, hruns, rfl⟩ := Option.map_eq_some_iff.mp h
      rw [tableLoop, hrun, Option.bind_some, addRuns]
      dsimp only
      split
      · split
        · exact ih hruns _ _ _
        · rfl
      · exact ih hruns _ _ _

/-- The points of the intervals that are wanted. -/
def wantedPoints (wanted : α → Bool) : ℕ → List (ℕ × α) → List ℕ
  | _, [] => []
  | c, (n, v) :: runs => (if wanted v then [c, c + n + 1] else []) ++ wantedPoints wanted (c + n + 1) runs

theorem addRuns_does (h : cr.Ok) (c : ℕ) :
    Does grants cr heap (addRequests 2 (runs.countP fun r => wanted r.2) cr.len cr.size)
      (addSize 2 (runs.countP fun r => wanted r.2) cr.len cr.size) (cr.used ++ wantedPoints wanted c runs)
      (addRuns grants wanted runs c cr heap) := by
  induction runs generalizing c cr heap with
  | nil =>
    rw [wantedPoints, List.append_nil]
    exact does_nothing h
  | cons r runs ih =>
    obtain ⟨n, v⟩ := r
    rw [addRuns, wantedPoints, List.countP_cons]
    dsimp only
    cases hv : wanted v with
    | false =>
      exact ih h (c + n + 1)
    | true =>
      rw [if_pos rfl, if_pos rfl, if_pos rfl, ← List.append_assoc]
      have hadd : Does grants cr heap _ _ _ (crAddInterval grants c (c + n + 1) cr heap) := crAddInterval_does h c (c + n + 1)
      split
      · rename_i hok
        refine hadd.next hok fun hused hsize => ?_
        have hlen : (crAddInterval grants c (c + n + 1) cr heap).cr.len = cr.len + 2 := by
          rw [hadd.len_eq hused, List.length_append, h.length_used]
          rfl
        have hrest : Does grants _ (crAddInterval grants c (c + n + 1) cr heap).heap _ _ _ _ := ih hadd.ok (c + n + 1)
        rw [hused, hsize, hlen] at hrest
        exact hrest
      · exact hadd.stop (eq_false_of_ne_true ‹_›)

/-! ## The points -/

theorem even_wantedPoints (wanted : α → Bool) (c : ℕ) (runs : List (ℕ × α)) :
    (wantedPoints wanted c runs).length = 2 * runs.countP fun r => wanted r.2 := by
  induction runs generalizing c with
  | nil => rfl
  | cons r runs ih =>
    obtain ⟨n, v⟩ := r
    rw [wantedPoints, List.length_append, ih, List.countP_cons]
    cases wanted v with
    | false => exact Nat.zero_add _
    | true => exact Nat.add_comm _ _

theorem mem_wantedPoints (hx : x ∈ wantedPoints wanted c runs) : c ≤ x ∧ x ≤ c + total runs := by
  induction runs generalizing c with
  | nil => cases hx
  | cons r runs ih =>
    rw [total, List.map_cons, List.sum_cons, ← total]
    obtain hx | hx := List.mem_append.mp hx
    · split at hx
      · rcases List.mem_pair.mp hx with rfl | rfl <;> omega
      · cases hx
    · have hrest := ih hx
      omega

theorem sorted_wantedPoints (wanted : α → Bool) (c : ℕ) (runs : List (ℕ × α)) :
    (wantedPoints wanted c runs).Pairwise (· ≤ ·) := by
  induction runs generalizing c with
  | nil => exact .nil
  | cons r runs ih =>
    refine List.pairwise_append.mpr ⟨?_, ih _, fun x hx y hy => ?_⟩
    · split
      · exact List.pairwise_pair.mpr (by omega)
      · exact .nil
    · have hle := (mem_wantedPoints hy).1
      split at hx
      · rcases List.mem_pair.mp hx with rfl | rfl <;> omega
      · cases hx

theorem intervals_wantedPoints (wanted : α → Bool) (h : total runs ≤ uint32Max) :
    Intervals (wantedPoints wanted 0 runs) where
  sorted := sorted_wantedPoints wanted 0 runs
  even := by
    rw [even_wantedPoints]
    exact Nat.mul_mod_right ..
  bounded p hp := by
    have hle := (mem_wantedPoints hp).2
    omega

/-- The points are those of the characters that are covered. -/
theorem inPoints_wantedPoints (wanted : α → Bool) (c : ℕ) (runs : List (ℕ × α)) :
    inPoints x (wantedPoints wanted c runs) ↔
      ∃ span ∈ spans c runs, wanted span.2.2 = true ∧ span.1 ≤ x ∧ x < span.2.1 := by
  induction runs generalizing c with
  | nil => exact iff_of_false id fun ⟨_, h, _⟩ => nomatch h
  | cons r runs ih =>
    obtain ⟨n, v⟩ := r
    rw [wantedPoints, spans]
    simp only [List.mem_cons, exists_eq_or_imp]
    cases hv : wanted v with
    | false =>
      rw [if_neg Bool.false_ne_true, List.nil_append, ih]
      exact (or_iff_right fun h => Bool.false_ne_true h.1).symm
    | true =>
      rw [if_pos rfl, List.cons_append, List.cons_append, List.nil_append, inPoints, ih]
      exact or_congr_left (and_iff_right rfl).symm

theorem inPoints_covered (wanted : α → Bool) (runs : List (ℕ × α)) :
    inPoints x (wantedPoints wanted 0 runs) ↔ Covered wanted runs x := inPoints_wantedPoints wanted 0 runs

theorem odd_covered (h : total runs ≤ uint32Max) : oddPassed x (wantedPoints wanted 0 runs) = true ↔ Covered wanted runs x := by
  have hpoints := intervals_wantedPoints wanted h
  rw [← inPoints_iff hpoints.sorted hpoints.even, inPoints_covered]

theorem intervals_crInvert (h : Intervals points) : Intervals (Regexp.crInvert points) := by
  refine (CharRange.ofCompressed _ (compressed_crInvert h) fun p hp => ?_).intervals
  rcases List.mem_append.mp hp with hp | hp
  · rcases List.mem_cons.mp hp with rfl | hp
    · exact Nat.zero_le _
    · exact h.bounded p hp
  · exact Nat.le_of_eq (List.mem_singleton.mp hp)

theorem inPoints_crOp (op : CharRangeOp) {a b : List ℕ} (ha : Intervals a) (hb : Intervals b) :
    inPoints x (Regexp.crOp op a b) ↔ op.isIn (oddPassed x a) (oddPassed x b) = true := by
  have hbounded : ∀ p ∈ opPoints op a b false false false, p ≤ uint32Max :=
    fun p hp => (mem_opPoints hp).elim (ha.bounded p) (hb.bounded p)
  rw [← odd_crOp op ha hb]
  exact (CharRange.mem_iff_odd : x ∈ CharRange.ofCompressed _ (compressed_opPoints op ha hb) hbounded ↔ _)

/-- No character is beyond the greatest point. -/
theorem lt_of_odd (h : Intervals points) (hx : oddPassed x points = true) : x < uint32Max := by
  by_contra hge
  rw [oddPassed_of_le fun p hp => Nat.le_trans (h.bounded p hp) (Nat.le_of_not_lt hge), h.even] at hx
  cases hx

/-! ## Requests -/

/-- The points of a script. -/
def Tables.own (T : Tables) (scriptIdx : ℕ) : List ℕ := wantedPoints (· = scriptIdx) 0 T.scriptRuns

/-- The extensions that are looked for. -/
def Tables.isUsed (T : Tables) (scriptIdx : ℕ) (vs : List ℕ) : Bool :=
  if T.isCommon scriptIdx then vs.length ≠ 0 else scriptIdx ∈ vs

/-- The points of the extensions. -/
def Tables.used (T : Tables) (scriptIdx : ℕ) : List ℕ := wantedPoints (T.isUsed scriptIdx) 0 T.extRuns

/-- How many intervals the extensions are. -/
def Tables.countUsed (T : Tables) (scriptIdx : ℕ) : ℕ := T.extRuns.countP fun r => T.isUsed scriptIdx r.2

/-- What `cr_op` makes of the points of a script. -/
def Tables.extended (T : Tables) (scriptIdx : ℕ) : CharRangeOp × List ℕ :=
  if T.isCommon scriptIdx then (.inter, Regexp.crInvert (T.used scriptIdx)) else (.union, T.used scriptIdx)

/-- The requests for the extensions. -/
def Tables.extRequests (T : Tables) (scriptIdx : ℕ) : ℕ :=
  addRequests 2 (T.countUsed scriptIdx) 0 0 + (if T.isCommon scriptIdx then
        growRequests (2 * T.countUsed scriptIdx + 2) (addSize 2 (T.countUsed scriptIdx) 0 0) else 0) +
    addRequests 1 (opPoints (T.extended scriptIdx).1 (T.own scriptIdx) (T.extended scriptIdx).2 false false false).length 0 0

/-- How many requests for memory `unicode_script` makes when none is refused. -/
def Tables.requests (T : Tables) (scriptIdx : ℕ) (isExt : Bool) : ℕ :=
  addRequests 2 (T.scriptRuns.countP fun r => r.2 = scriptIdx) 0 0 + if isExt then T.extRequests scriptIdx else 0

/-! ## Runs -/

theorem fail_eq (isExt : Bool) (cr1 cr2 : Cr) (rounds : ℕ) (heap : Heap) : fail isExt cr1 cr2 rounds heap = none := by
  induction rounds generalizing heap with
  | zero => rfl
  | succ rounds ih => exact ih _

/-- What comes of a part of the function that makes `n` requests: it returns zero and some points if they are granted,
and nothing comes of it otherwise. The blocks that it has are freed. -/
structure Returns (grants : ℕ → Bool) (heap : Heap) (n : ℕ) (points owned : List ℕ) (run : Option Ret) : Prop where
  granted : Granted grants heap n → ∃ r, run = some r ∧ r.ret = 0 ∧ r.cr.used = points ∧
    r.heap.requests = heap.requests + n ∧
      ∀ others, heap.Owns (owned ++ others) → r.heap.Owns (r.cr.block.toList ++ others)
  refused : ¬Granted grants heap n → run = none

/-- A step that may fail comes first. -/
theorem Returns.after {n m size : ℕ} {points points' owned : List ℕ} {failed rest : Option Ret}
    (h : Does grants cr heap n size points r) (hfailed : failed = none)
    (hrest : r.ok = true → r.cr.used = points → r.cr.size = size →
      Returns grants r.heap m points' (r.cr.block.toList ++ owned) rest) :
    Returns grants heap (n + m) points' (cr.block.toList ++ owned) (if !r.ok then failed else rest) := by
  cases hr : r.ok with
  | false =>
    refine ⟨fun hall => ?_, fun _ => hfailed⟩
    have hok := h.ok_iff.mpr fun k hk => hall k (by omega)
    exact absurd hok (Bool.eq_false_iff.mp hr)
  | true =>
    have hgranted := h.ok_iff.mp hr
    obtain ⟨-, hused, hsize, hrequests⟩ := h.granted hgranted
    have hreturns := hrest hr hused hsize
    refine ⟨fun hall => ?_, fun hnot => hreturns.refused fun hm => hnot ((granted_add hrequests).mpr ⟨hgranted, hm⟩)⟩
    obtain ⟨q, hq, hret, hused, hqrequests, howns⟩ := hreturns.granted ((granted_add hrequests).mp hall).2
    refine ⟨q, hq, hret, hused, by omega, fun others hheap => ?_⟩
    rw [List.append_assoc] at hheap
    have hnext := h.owns _ hheap
    rw [← List.append_assoc] at hnext
    exact howns others hnext

/-- The temporary blocks are freed at the end. -/
theorem returns_free (cr cr1 cr2 : Cr) (heap : Heap) :
    Returns grants heap 0 cr.used (cr.block.toList ++ (cr2.block.toList ++ cr1.block.toList))
      (some ⟨0, cr, crFree cr2 (crFree cr1 heap)⟩) where
  granted _ := by
    refine ⟨_, rfl, rfl, rfl, ?_, fun others howns => ?_⟩
    · rw [crFree, crFree, free_requests, free_requests]
      rfl
    · rw [List.append_assoc, List.append_assoc] at howns
      have hperm : (cr.block.toList ++ (cr2.block.toList ++ (cr1.block.toList ++ others))).Perm
          (cr1.block.toList ++ (cr2.block.toList ++ (cr.block.toList ++ others))) := by
        refine (List.perm_append_comm_assoc ..).trans ?_
        refine ((List.perm_append_comm_assoc ..).append_left _).trans ?_
        exact List.perm_append_comm_assoc ..
      exact (howns.perm hperm).free.free
  refused hnot := absurd granted_zero hnot

/-- The points of the extensions are inverted for the scripts that are common. -/
theorem inverted_does (grants : ℕ → Bool) (T : Tables) (scriptIdx : ℕ) (hok : r.ok = true) (hcr : r.cr.Ok)
    (hused : r.cr.used = T.used scriptIdx) (hsize : r.cr.size = addSize 2 (T.countUsed scriptIdx) 0 0) :
    ∃ size, Does grants r.cr r.heap
      (if T.isCommon scriptIdx then
        growRequests (2 * T.countUsed scriptIdx + 2) (addSize 2 (T.countUsed scriptIdx) 0 0) else 0)
      size (T.extended scriptIdx).2 (if T.isCommon scriptIdx then crInvert grants r.cr r.heap else r) := by
  have hlen : r.cr.len = 2 * T.countUsed scriptIdx := by
    rw [← hcr.length_used, hused, Tables.used, even_wantedPoints]
    rfl
  rw [Tables.extended]
  split
  · have hinvert := crInvert_does grants r.heap hcr
    rw [hlen, hsize, hused] at hinvert
    exact ⟨_, hinvert⟩
  · have hnothing : Does grants r.cr r.heap 0 _ _ ⟨true, r.cr, r.heap⟩ := does_nothing hcr
    rw [hused, ← hok] at hnothing
    exact ⟨_, hnothing⟩

theorem crOp_returns (T : Tables) (scriptIdx rounds : ℕ) {cr1 cr2 : Cr} (hown : cr1.used = T.own scriptIdx)
    (hext : cr2.used = (T.extended scriptIdx).2) (heap : Heap) :
    Returns grants heap
      (addRequests 1 (opPoints (T.extended scriptIdx).1 (T.own scriptIdx) (T.extended scriptIdx).2 false false false).length 0 0)
      (Regexp.crOp (T.extended scriptIdx).1 (T.own scriptIdx) (T.extended scriptIdx).2)
      (cr2.block.toList ++ cr1.block.toList)
      (let r := crOp grants (if T.isCommon scriptIdx then .inter else .union) cr1.used cr2.used crInit heap
        if !r.ok then fail true cr1 cr2 rounds r.heap else some ⟨0, r.cr, crFree cr2 (crFree cr1 r.heap)⟩) := by
  have hkind : (if T.isCommon scriptIdx then .inter else .union) = (T.extended scriptIdx).1 := by
    rw [Tables.extended]
    split <;> rfl
  rw [hkind, hown, hext]
  have hop := crOp_does grants (T.extended scriptIdx).1 (T.own scriptIdx) (T.extended scriptIdx).2 heap
  show Returns grants heap (_ + 0) _ (crInit.block.toList ++ (cr2.block.toList ++ cr1.block.toList)) _
  refine Returns.after hop (fail_eq ..) fun _ hused _ => ?_
  rw [← hused]
  exact returns_free _ cr1 cr2 _

theorem addExtensions_returns (T : Tables) (scriptIdx rounds : ℕ) {cr1 : Cr} (hown : cr1.used = T.own scriptIdx) :
    Returns grants heap (T.extRequests scriptIdx)
      (Regexp.crOp (T.extended scriptIdx).1 (T.own scriptIdx) (T.extended scriptIdx).2) cr1.block.toList
      (addExtensions grants T scriptIdx rounds cr1 heap) := by
  rw [addExtensions, Tables.extRequests, Nat.add_assoc]
  rw [tableLoop_eq T.ext_eq]
  have hadd : Does grants crInit heap _ _ _ (addRuns grants (T.isUsed scriptIdx) T.extRuns 0 crInit heap) :=
    addRuns_does ok_crInit 0
  refine Returns.after hadd (fail_eq ..) fun hok hused hsize => ?_
  obtain ⟨size, hinvert⟩ := inverted_does grants T scriptIdx hok hadd.ok hused hsize
  refine Returns.after hinvert (fail_eq ..) fun _ hinverted _ => ?_
  exact crOp_returns T scriptIdx rounds hown hinverted _

/-! ## The claim -/

/-- What `unicode_script` should do: it returns -2 for a name that is not known, -1 if a request was refused, and
otherwise zero with the characters of the script; and all blocks but the one it returns are freed once. -/
structure FailureSafe (T : Tables) (grants : ℕ → Bool) (scriptName : List Char) (isExt : Bool) (heap : Heap) (r : Ret) :
    Prop where
  freed : ∀ others, heap.Owns others → r.heap.Owns (r.cr.block.toList ++ others)
  unknown : unicodeFindName T.names scriptName = none → r.ret = -2
  refused : ∀ pos, unicodeFindName T.names scriptName = some pos →
    (∃ k, heap.requests ≤ k ∧ k < r.heap.requests ∧ grants k = false) → r.ret = -1
  granted : ∀ pos, unicodeFindName T.names scriptName = some pos →
    (∀ k, heap.requests ≤ k → k < r.heap.requests → grants k = true) →
      r.ret = 0 ∧ ∀ c, inPoints c r.cr.used ↔ T.InScript (pos + 1) isExt c

/-- It does this after some rounds at the label `fail`. -/
def Meets (T : Tables) (grants : ℕ → Bool) (scriptName : List Char) (isExt : Bool) (heap : Heap) : Prop :=
  ∃ rounds r, unicodeScript grants T scriptName isExt rounds heap = some r ∧
    FailureSafe T grants scriptName isExt heap r

/-- The points that are returned. -/
def Tables.result (T : Tables) (scriptIdx : ℕ) (isExt : Bool) : List ℕ :=
  if isExt then Regexp.crOp (T.extended scriptIdx).1 (T.own scriptIdx) (T.extended scriptIdx).2 else T.own scriptIdx

theorem Tables.inPoints_result (T : Tables) (scriptIdx : ℕ) (isExt : Bool) :
    inPoints x (T.result scriptIdx isExt) ↔ T.InScript scriptIdx isExt x := by
  have hown : Intervals (T.own scriptIdx) := intervals_wantedPoints _ T.script_le
  have hused : Intervals (T.used scriptIdx) := intervals_wantedPoints _ T.ext_le
  have hcovered : oddPassed x (T.own scriptIdx) = true ↔ Covered (· = scriptIdx) T.scriptRuns x := odd_covered T.script_le
  have hext : oddPassed x (T.used scriptIdx) = true ↔ Covered (T.isUsed scriptIdx) T.extRuns x := odd_covered T.ext_le
  rw [result, InScript]
  split
  · rw [extended]
    cases hcommon : T.isCommon scriptIdx with
    | true =>
      have hkind : T.isUsed scriptIdx = fun vs : List ℕ => decide (vs.length ≠ 0) := by
        funext vs
        rw [isUsed, hcommon, if_pos rfl]
      rw [hkind] at hext
      rw [if_pos rfl, inPoints_crOp .inter hown (intervals_crInvert hused), CharRangeOp.isIn, Bool.and_eq_true,
        ← hcovered, ← hext]
      refine and_congr_right fun hodd => ?_
      rw [odd_crInvert hused (lt_of_odd hown hodd), Bool.not_eq_true', Bool.not_eq_true]
    | false =>
      have hkind : T.isUsed scriptIdx = fun vs : List ℕ => decide (scriptIdx ∈ vs) := by
        funext vs
        rw [isUsed, hcommon, if_neg Bool.false_ne_true]
      rw [hkind] at hext
      rw [if_neg Bool.false_ne_true, if_neg Bool.false_ne_true, inPoints_crOp .union hown hused, CharRangeOp.isIn,
        Bool.or_eq_true, ← hcovered, ← hext]
  · exact inPoints_covered ..

theorem unicodeScript_returns {scriptName : List Char} {pos : ℕ} (T : Tables) (isExt : Bool) (rounds : ℕ)
    (hfind : unicodeFindName T.names scriptName = some pos) :
    Returns grants heap (T.requests (pos + 1) isExt) (T.result (pos + 1) isExt) []
      (unicodeScript grants T scriptName isExt rounds heap) := by
  rw [unicodeScript, hfind]
  dsimp only
  rw [tableLoop_eq T.script_eq]
  have hadd : Does grants crInit heap _ _ _ (addRuns grants (· = pos + 1) T.scriptRuns 0 crInit heap) :=
    addRuns_does ok_crInit 0
  refine Returns.after hadd (fail_eq ..) fun hok hused hsize => ?_
  rw [List.append_nil]
  cases isExt with
  | true => exact addExtensions_returns T (pos + 1) rounds hused
  | false =>
    exact ⟨fun _ => ⟨_, rfl, rfl, hused, rfl, fun _ howns => howns⟩, fun hnot => absurd granted_zero hnot⟩

/-- **`unicode_script` is failure safe** exactly where the name is not known, or no request for memory is refused. -/
theorem unicodeScript_meets_iff (T : Tables) (grants : ℕ → Bool) (scriptName : List Char) (isExt : Bool) (heap : Heap) :
    Meets T grants scriptName isExt heap ↔
      ∀ pos, unicodeFindName T.names scriptName = some pos → Granted grants heap (T.requests (pos + 1) isExt) := by
  constructor
  · rintro ⟨rounds, r, hrun, -⟩ pos hfind
    by_contra hnot
    rw [(unicodeScript_returns T isExt rounds hfind).refused hnot] at hrun
    cases hrun
  · intro hall
    cases hfind : unicodeFindName T.names scriptName with
    | none =>
      refine ⟨0, ⟨-2, crInit, heap⟩, ?_, fun _ howns => howns, fun _ => rfl, fun pos h => ?_, fun pos h => ?_⟩
      · rw [unicodeScript, hfind]
      · rw [hfind] at h
        cases h
      · rw [hfind] at h
        cases h
    | some pos =>
      have hgranted := hall pos hfind
      obtain ⟨r, hrun, hret, hused, hrequests, howns⟩ := (unicodeScript_returns T isExt 0 hfind).granted hgranted
      refine ⟨0, r, hrun, howns, fun h => ?_, fun _ _ ⟨k, hle, hlt, hk⟩ => ?_, fun pos' h _ => ⟨hret, fun c => ?_⟩⟩
      · rw [hfind] at h
        cases h
      · -- the requests that are made are those that are granted
        have hgrant := hgranted (k - heap.requests) (by omega)
        rw [Nat.add_sub_of_le hle, hk] at hgrant
        cases hgrant
      · rw [hfind] at h
        cases h
        rw [hused]
        exact T.inPoints_result (pos + 1) isExt

/-- A script that needs memory, and no memory. -/
theorem not_meets_refused : ¬∀ (grants : ℕ → Bool) (scriptName : List Char) (isExt : Bool) (heap : Heap),
    Meets unicodeTables grants scriptName isExt heap := by
  intro hall
  obtain ⟨rounds, r, hrun, -⟩ := hall (fun _ => false) "Adlam".toList false ⟨0, 0, fun _ => 0⟩
  have hfind : unicodeFindName unicodeTables.names "Adlam".toList = some 0 := by decide +kernel
  have hrequests : 0 < unicodeTables.requests 1 false := by decide +kernel
  rw [(unicodeScript_returns unicodeTables false rounds hfind).refused fun hall => Bool.false_ne_true (hall 0 hrequests)] at hrun
  cases hrun

end QuickJs.UnicodeScript
