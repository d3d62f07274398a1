import QuickJs.RangeOpcode

/-!
# The opcodes of a set are exact

The bytecode that `re_emit_range` makes for a set of characters tests whether a character is in the set, and goes on
behind its operand.
-/

namespace QuickJs.Regexp

variable {bc bytes ops post : List UInt8} {pos pc v c idx n : ℕ} {points input : List ℕ} {l : List (ℕ × ℕ)}
  {r : ℕ × ℕ} {f : ℕ → ℕ}

/-! ## Bytes -/

/-- Some bytes are at a place. -/
def BytesAt (bc : List UInt8) (pos : ℕ) (bytes : List UInt8) : Prop := bytes <+: bc.drop pos

theorem BytesAt.left (h : BytesAt bc pos (bytes ++ post)) : BytesAt bc pos bytes :=
  (List.prefix_append bytes post).trans h

theorem BytesAt.right (h : BytesAt bc pos (bytes ++ post)) : BytesAt bc (pos + bytes.length) post := by
  obtain ⟨tail, htail⟩ := h
  refine ⟨tail, ?_⟩
  rw [← List.drop_drop, ← htail, List.append_assoc, List.drop_left]

variable {b : UInt8} {w low : ℕ} {last : ℕ × ℕ}

theorem BytesAt.head (h : BytesAt bc pos (b :: bytes)) : bc[pos]? = some b := by
  obtain ⟨tail, htail⟩ := h
  have hd : (bc.drop pos)[0]? = some b := by
    rw [← htail]
    rfl
  rwa [List.getElem?_drop, Nat.add_zero] at hd

theorem BytesAt.tail (h : BytesAt bc pos (b :: bytes)) : BytesAt bc (pos + 1) bytes :=
  (show BytesAt bc pos ([b] ++ bytes) from h).right

theorem getU16_putU16 (hv : v < 2 ^ 16) (h : BytesAt bc pos (putU16 v)) : getU16 bc pos = some v := by
  have hsum : (UInt8.ofNat v).toNat + 2 ^ 8 * (UInt8.ofNat (v / 2 ^ 8)).toNat = v := by
    rw [UInt8.toNat_ofNat', UInt8.toNat_ofNat']
    omega
  rw [getU16, h.head, h.tail.head]
  exact congrArg some hsum

theorem getU32_putU32 (hv : v < 2 ^ 32) (h : BytesAt bc pos (putU32 v)) : getU32 bc pos = some v := by
  have hlow : BytesAt bc pos (putU16 (v % 2 ^ 16)) := by
    have h2 : putU16 (v % 2 ^ 16) = [.ofNat v, .ofNat (v / 2 ^ 8)] := by
      rw [putU16, List.cons.injEq, List.cons.injEq, ← UInt8.toNat_inj, ← UInt8.toNat_inj]
      simp only [UInt8.toNat_ofNat', and_true]
      omega
    rw [h2]
    exact h.left
  have hhigh : BytesAt bc (pos + 2) (putU16 (v / 2 ^ 16)) := by
    have h2 : putU16 (v / 2 ^ 16) = [.ofNat (v / 2 ^ 16), .ofNat (v / 2 ^ 24)] := by
      have hpow : (2 : ℕ) ^ 16 * 2 ^ 8 = 2 ^ 24 := rfl
      rw [putU16, Nat.div_div_eq_div_mul, hpow]
    rw [h2]
    exact h.tail.tail
  have hsum : v % 2 ^ 16 + 2 ^ 16 * (v / 2 ^ 16) = v := Nat.mod_add_div v _
  rw [getU32, getU16_putU16 (Nat.mod_lt v (by decide)) hlow, getU16_putU16 (by omega) hhigh]
  exact congrArg some hsum

/-! ## Intervals -/

/-- The intervals that are stored, with what becomes of their bounds. -/
def intervals (f : ℕ → ℕ) : List ℕ → List (ℕ × ℕ)
  | low :: high :: points => (low, f high) :: intervals f points
  | _ => []

/-- The bound with 16 bits. -/
def bound16 (high : ℕ) : ℕ := if high = uint32Max then 0xffff else high - 1

theorem length_intervals (f : ℕ → ℕ) (points : List ℕ) : (intervals f points).length = points.length / 2 := by
  fun_induction intervals f points with
  | case1 low high points ih =>
    rw [List.length_cons, List.length_cons, List.length_cons]
    omega
  | case2 points hno =>
    match points with
    | [] => rfl
    | [_] => exact (Nat.div_eq_of_lt Nat.one_lt_two).symm
    | low :: high :: points => exact absurd rfl (hno low high points)

/-- An interval comes from two points of the set. -/
theorem mem_intervals (h : r ∈ intervals f points) : r.1 ∈ points ∧ ∃ high ∈ points, r.2 = f high := by
  fun_induction intervals f points with
  | case1 low high points ih =>
    rcases List.mem_cons.mp h with rfl | h
    · exact ⟨.head _, high, .tail _ (.head _), rfl⟩
    · obtain ⟨hlow, k, hk, heq⟩ := ih h
      exact ⟨.tail _ (.tail _ hlow), k, .tail _ (.tail _ hk), heq⟩
  | case2 => cases h

theorem ascending_intervals (hs : points.Pairwise (· < ·))
    (hle : ∀ low ∈ points, ∀ high ∈ points, low < high → low ≤ f high)
    (hlt : ∀ high ∈ points, ∀ low ∈ points, high < low → f high < low) : Ascending (intervals f points) := by
  fun_induction intervals f points with
  | case1 low high points ih =>
    obtain ⟨hlow, hs⟩ := List.pairwise_cons.mp hs
    obtain ⟨hhigh, hs⟩ := List.pairwise_cons.mp hs
    have ha := ih hs (fun p hp q hq => hle p (.tail _ (.tail _ hp)) q (.tail _ (.tail _ hq)))
      (fun p hp q hq => hlt p (.tail _ (.tail _ hp)) q (.tail _ (.tail _ hq)))
    refine ⟨fun r hr => ?_, List.pairwise_cons.mpr ⟨fun r hr => ?_, ha.disjoint⟩⟩
    · rcases List.mem_cons.mp hr with rfl | hr
      · exact hle low (.head _) high (.tail _ (.head _)) (hlow high (.head _))
      · exact ha.nonempty r hr
    · have hr1 := (mem_intervals hr).1
      exact hlt high (.tail _ (.head _)) r.1 (.tail _ (.tail _ hr1)) (hhigh r.1 hr1)
  | case2 => exact ⟨fun r hr => (List.not_mem_nil hr).elim, .nil⟩

/-- A character is in the stored intervals if it is in the set. -/
theorem in_intervals_iff (hf : ∀ low ∈ points, ∀ high ∈ points, low < high → low ≤ c → (c ≤ f high ↔ c < high))
    (hs : points.Pairwise (· < ·)) : (∃ r ∈ intervals f points, r.1 ≤ c ∧ c ≤ r.2) ↔ inPoints c points := by
  fun_induction intervals f points with
  | case1 low high points ih =>
    obtain ⟨hlow, hs⟩ := List.pairwise_cons.mp hs
    obtain ⟨hhigh, hs⟩ := List.pairwise_cons.mp hs
    have hrest := ih (fun p hp q hq => hf p (.tail _ (.tail _ hp)) q (.tail _ (.tail _ hq))) hs
    rw [List.exists_mem_cons_iff, hrest]
    refine or_congr_left ⟨fun h => ⟨h.1, ?_⟩, fun h => ⟨h.1, ?_⟩⟩
    · exact (hf low (.head _) high (.tail _ (.head _)) (hlow high (.head _)) h.1).mp h.2
    · exact (hf low (.head _) high (.tail _ (.head _)) (hlow high (.head _)) h.1).mpr h.2
  | case2 points hno =>
    match points with
    | [] | [_] => exact ⟨fun ⟨r, hr, _⟩ => (List.not_mem_nil hr).elim, False.elim⟩
    | low :: high :: points => exact absurd rfl (hno low high points)

theorem emitRange16_eq (hb : ∀ p ∈ points, p ≤ uint32Max) (hs : points.Pairwise (· < ·)) :
    emitRange16 points = (intervals bound16 points).flatMap fun r => putU16 r.1 ++ putU16 r.2 := by
  fun_induction intervals bound16 points with
  | case1 low high points ih =>
    obtain ⟨hlow, hs⟩ := List.pairwise_cons.mp hs
    obtain ⟨hhigh, hs⟩ := List.pairwise_cons.mp hs
    have hpos := hlow high (.head _)
    have hmax : high ≤ uint32Max := hb high (.tail _ (.head _))
    have hbound : (if (high + uint32Max) % 2 ^ 32 = uint32Max - 1 then 0xffff else (high + uint32Max) % 2 ^ 32) =
        bound16 high := by
      unfold bound16 uint32Max at *
      split <;> split <;> omega
    rw [emitRange16, ih (fun p hp => hb p (.tail _ (.tail _ hp))) hs, List.flatMap_cons]
    rw [hbound]
  | case2 points hno =>
    match points with
    | [] | [_] => rfl
    | low :: high :: points => exact absurd rfl (hno low high points)

theorem emitRange32_eq (hb : ∀ p ∈ points, p ≤ uint32Max) (hs : points.Pairwise (· < ·)) :
    emitRange32 points = (intervals (· - 1) points).flatMap fun r => putU32 r.1 ++ putU32 r.2 := by
  fun_induction intervals (· - 1) points with
  | case1 low high points ih =>
    obtain ⟨hlow, hs⟩ := List.pairwise_cons.mp hs
    obtain ⟨hhigh, hs⟩ := List.pairwise_cons.mp hs
    have hpos := hlow high (.head _)
    have hmax : high ≤ uint32Max := hb high (.tail _ (.head _))
    have hmod : (high + uint32Max) % 2 ^ 32 = high - 1 := by
      unfold uint32Max at *
      omega
    rw [emitRange32, ih (fun p hp => hb p (.tail _ (.tail _ hp))) hs, List.flatMap_cons, hmod]
  | case2 points hno =>
    match points with
    | [] | [_] => rfl
    | low :: high :: points => exact absurd rfl (hno low high points)

/-- The intervals can be read by their index. -/
theorem read_intervals (put : ℕ → List UInt8) (get : ℕ → Option ℕ) {bound : ℕ} (hlen : ∀ v, (put v).length = w)
    (hget : ∀ pos v, v < bound → BytesAt bc pos (put v) → get pos = some v)
    (hl : ∀ r ∈ l, r.1 < bound ∧ r.2 < bound)
    (hat : BytesAt bc pc (l.flatMap fun r => put r.1 ++ put r.2)) (hr : l[idx]? = some r) :
    get (pc + idx * (2 * w)) = some r.1 ∧ get (pc + idx * (2 * w) + w) = some r.2 := by
  induction l generalizing pc idx with
  | nil => cases hr
  | cons s l ih =>
    have hs := hl s (.head _)
    cases idx with
    | zero =>
      cases hr
      rw [Nat.zero_mul]
      refine ⟨hget pc _ hs.1 hat.left.left, hget _ _ hs.2 ?_⟩
      have := hat.left.right
      rwa [hlen] at this
    | succ idx =>
      have hat' := hat.right
      rw [List.length_append, hlen, hlen] at hat'
      have hrest := ih (fun t ht => hl t (.tail _ ht)) hat' hr
      have hpc : pc + (w + w) + idx * (2 * w) = pc + (idx + 1) * (2 * w) := by
        rw [Nat.add_one_mul idx (2 * w)]
        omega
      rwa [hpc] at hrest

/-! ## Tests -/

/-- What the bound 0xffff means: only the last interval can have no end. -/
theorem le_bound16 (hc : c < uint32Max) (hsmall : c ≤ 0xffff ∨ uint32Max ∉ points) {high : ℕ} (hh : high ∈ points)
    (hpos : 0 < high) : c ≤ bound16 high ↔ c < high := by
  unfold bound16
  split
  · rename_i hmax
    subst hmax
    have hle : c ≤ 0xffff := hsmall.resolve_right fun hno => hno hh
    exact ⟨fun _ => hc, fun _ => hle⟩
  · exact Nat.le_sub_one_iff_lt hpos

theorem mem_even_ne_max (hb : ∀ p ∈ points, p ≤ uint32Max) (hs : points.Pairwise (· < ·))
    (hr : r ∈ intervals f points) : r.1 ≠ uint32Max := by
  fun_induction intervals f points with
  | case1 low high points ih =>
    obtain ⟨hlow, hs⟩ := List.pairwise_cons.mp hs
    obtain ⟨hhigh, hs⟩ := List.pairwise_cons.mp hs
    rcases List.mem_cons.mp hr with rfl | hr
    · have hlt := hlow high (.head _)
      have hle := hb high (.tail _ (.head _))
      exact Nat.ne_of_lt (Nat.lt_of_lt_of_le hlt hle)
    · exact ih (fun p hp => hb p (.tail _ (.tail _ hp))) hs hr
  | case2 => cases hr

theorem intervals_append {high : ℕ} (heven : points.length % 2 = 0) :
    intervals f (points ++ [low, high]) = intervals f points ++ [(low, f high)] := by
  fun_induction intervals f points with
  | case1 low' high' points ih =>
    rw [List.cons_append, List.cons_append, intervals, ih ?_, List.cons_append]
    rw [List.length_cons, List.length_cons] at heven
    omega
  | case2 points hno =>
    match points with
    | [] => rfl
    | [_] => cases heven
    | low :: high :: points => exact absurd rfl (hno low high points)

/-- What is read of a table by an index. -/
def ReadsTable (get : ℕ → Option ℕ) (pc w : ℕ) (l : List (ℕ × ℕ)) : Prop :=
  ∀ idx r, l[idx]? = some r → get (pc + idx * (2 * w)) = some r.1 ∧ get (pc + idx * (2 * w) + w) = some r.2

/-- A table of intervals is searched. -/
theorem search_table {get : ℕ → Option ℕ} (ha : Ascending l) (hne : 0 < l.length)
    (hlen : l.length < 65535) (hget : ReadsTable get pc w l) (hfirst : ∀ r, l[0]? = some r → r.1 ≤ c) :
    ∃ b, intervalSearch (fun idx => do
        return (← get (pc + idx * (2 * w)), ← get (pc + idx * (2 * w) + w))) c (l.length + 1) 0 (l.length - 1) =
      some b ∧ (b = true ↔ ∃ r ∈ l, r.1 ≤ c ∧ c ≤ r.2) := by
  refine intervalSearch_eq ha (fun idx hidx => ?_) (by omega) ⟨?_, ?_, by omega, hfirst⟩ (Nat.zero_le _) (by omega)
  · obtain ⟨hlow, hhigh⟩ := hget idx _ (List.getElem?_eq_getElem hidx)
    rw [hlow, hhigh, List.getElem?_eq_getElem hidx]
    rfl
  · exact fun i r _ hi => absurd hi (Nat.not_lt_zero i)
  · intro i r hr hi
    have := (List.getElem?_eq_some_iff.mp hr).1
    omega

/-- `REOP_range` on a table. -/
theorem execRange16_eq (input : List ℕ) (ha : Ascending l) (hlast : l[l.length - 1]? = some last)
    (hlen : l.length < 65535) (hl : ∀ r ∈ l, r.1 < 2 ^ 16 ∧ r.2 < 2 ^ 16)
    (hat : BytesAt bc pc (putU16 l.length ++ l.flatMap fun r => putU16 r.1 ++ putU16 r.2)) :
    ∃ b, execRange16 bc pc c input = some (.ofSearch (pc + 2 + 4 * l.length) input b) ∧
      (b = true ↔ (0xffff ≤ c ∧ last.2 = 0xffff) ∨ ∃ r ∈ l, r.1 ≤ c ∧ c ≤ r.2) := by
  have hne : 0 < l.length := Nat.lt_of_le_of_lt (Nat.zero_le _) (List.getElem?_eq_some_iff.mp hlast).1
  obtain ⟨first, hfirst⟩ : ∃ r, l[0]? = some r := ⟨_, List.getElem?_eq_getElem hne⟩
  have hn := getU16_putU16 (by omega) hat.left
  have hget : ReadsTable (getU16 bc) (pc + 2) 2 l := fun idx r hr =>
    read_intervals putU16 (getU16 bc) (fun _ => rfl) (fun _ _ hv h => getU16_putU16 hv h) hl hat.right hr
  have hmod : (l.length + (2 ^ 32 - 1)) % 2 ^ 32 = l.length - 1 := by omega
  have hread0 : getU16 bc (pc + 2) = some first.1 := (hget 0 first hfirst).1
  have hread1 : getU16 bc (pc + 2 + (l.length - 1) * 4 + 2) = some last.2 := (hget _ last hlast).2
  rw [execRange16, hn, Option.bind_eq_bind, Option.bind_some]
  dsimp only
  rw [hread0, hmod, hread1]
  simp only [Option.bind_some]
  by_cases hlow : c < first.1
  · rw [if_pos hlow]
    refine ⟨false, rfl, fun h => absurd h Bool.false_ne_true, ?_⟩
    rintro (⟨hc, _⟩ | ⟨r, hr, hc, _⟩)
    · have := (hl first (List.mem_of_getElem? hfirst)).1
      omega
    · exact absurd (Nat.le_trans (ha.first_le hfirst hr) hc) (Nat.not_le_of_lt hlow)
  rw [if_neg hlow]
  by_cases hinf : 0xffff ≤ c ∧ last.2 = 0xffff
  · rw [if_pos hinf]
    exact ⟨true, rfl, fun _ => .inl hinf, fun _ => rfl⟩
  rw [if_neg hinf]
  by_cases hhigh : last.2 < c
  · rw [if_pos hhigh]
    refine ⟨false, rfl, fun h => absurd h Bool.false_ne_true, ?_⟩
    rintro (h | ⟨r, hr, _, hc⟩)
    · exact absurd h hinf
    · exact absurd (Nat.le_trans hc (ha.le_last hlast hr)) (Nat.not_le_of_lt hhigh)
  rw [if_neg hhigh]
  obtain ⟨b, hb, hiff⟩ := search_table ha hne hlen hget fun r hr => by
    rw [hfirst] at hr
    cases hr
    exact Nat.le_of_not_lt hlow
  refine ⟨b, ?_, hiff.trans ⟨.inr, fun h => h.resolve_left hinf⟩⟩
  exact congrArg (Option.bind · fun b => some (Outcome.ofSearch (pc + 2 + 4 * l.length) input b)) hb

/-- `REOP_range32` on a table. -/
theorem execRange32_eq (input : List ℕ) (ha : Ascending l) (hlast : l[l.length - 1]? = some last)
    (hlen : l.length < 65535) (hl : ∀ r ∈ l, r.1 < 2 ^ 32 ∧ r.2 < 2 ^ 32)
    (hat : BytesAt bc pc (putU16 l.length ++ l.flatMap fun r => putU32 r.1 ++ putU32 r.2)) :
    ∃ b, execRange32 bc pc c input = some (.ofSearch (pc + 2 + 8 * l.length) input b) ∧
      (b = true ↔ ∃ r ∈ l, r.1 ≤ c ∧ c ≤ r.2) := by
  have hne : 0 < l.length := Nat.lt_of_le_of_lt (Nat.zero_le _) (List.getElem?_eq_some_iff.mp hlast).1
  obtain ⟨first, hfirst⟩ : ∃ r, l[0]? = some r := ⟨_, List.getElem?_eq_getElem hne⟩
  have hn := getU16_putU16 (by omega) hat.left
  have hget : ReadsTable (getU32 bc) (pc + 2) 4 l := fun idx r hr =>
    read_intervals putU32 (getU32 bc) (fun _ => rfl) (fun _ _ hv h => getU32_putU32 hv h) hl hat.right hr
  have hmod : (l.length + (2 ^ 32 - 1)) % 2 ^ 32 = l.length - 1 := by omega
  have hread0 : getU32 bc (pc + 2) = some first.1 := (hget 0 first hfirst).1
  have hread1 : getU32 bc (pc + 2 + (l.length - 1) * 8 + 4) = some last.2 := (hget _ last hlast).2
  rw [execRange32, hn, Option.bind_eq_bind, Option.bind_some]
  dsimp only
  rw [hread0, hmod, hread1]
  simp only [Option.bind_some]
  by_cases hlow : c < first.1
  · rw [if_pos hlow]
    refine ⟨false, rfl, fun h => absurd h Bool.false_ne_true, ?_⟩
    rintro ⟨r, hr, hc, _⟩
    exact absurd (Nat.le_trans (ha.first_le hfirst hr) hc) (Nat.not_le_of_lt hlow)
  rw [if_neg hlow]
  by_cases hhigh : last.2 < c
  · rw [if_pos hhigh]
    refine ⟨false, rfl, fun h => absurd h Bool.false_ne_true, ?_⟩
    rintro ⟨r, hr, _, hc⟩
    exact absurd (Nat.le_trans hc (ha.le_last hlast hr)) (Nat.not_le_of_lt hhigh)
  rw [if_neg hhigh]
  obtain ⟨b, hb, hiff⟩ := search_table ha hne hlen hget fun r hr => by
    rw [hfirst] at hr
    cases hr
    exact Nat.le_of_not_lt hlow
  refine ⟨b, ?_, hiff⟩
  exact congrArg (Option.bind · fun b => some (Outcome.ofSearch (pc + 2 + 8 * l.length) input b)) hb

/-! ## Sets -/

theorem exists_last_interval (heven : points.length % 2 = 0) (hne : 0 < points.length / 2) :
    ∃ init low high, points = init ++ [low, high] := by
  rcases List.eq_nil_or_concat' points with rfl | ⟨init', high, rfl⟩
  · exact absurd hne (Nat.lt_irrefl 0)
  rcases List.eq_nil_or_concat' init' with rfl | ⟨init, low, rfl⟩
  · cases heven
  · exact ⟨init, low, high, List.append_assoc init [low] [high]⟩

/-- The last interval is stored last. -/
theorem getLast_intervals (f : ℕ → ℕ) (low high : ℕ) (heven : points.length % 2 = 0) :
    (intervals f (points ++ [low, high]))[(intervals f (points ++ [low, high])).length - 1]? = some (low, f high) := by
  rw [← List.getLast?_eq_getElem?, intervals_append heven, List.getLast?_concat]

/-- The opcodes with 16 bits are used if all points have 16 bits, but for an end that is infinity. -/
theorem small_of_high {high : ℕ} (hs : (points ++ [low, high]).Pairwise (· < ·))
    (hhigh : (if high = uint32Max then low else high) ≤ 0xffff) :
    ∀ p ∈ points ++ [low, high], p ≤ 0xffff ∨ (p = uint32Max ∧ high = uint32Max) := by
  intro p hp
  obtain ⟨_, hlh, hlt⟩ := List.pairwise_append.mp hs
  have hlow : low < high := List.rel_of_pairwise_cons hlh (.head _)
  rcases List.mem_append.mp hp with hp | hp
  · have h1 := hlt p hp low (.head _)
    split at hhigh <;> omega
  · rcases List.mem_cons.mp hp with rfl | hp
    · split at hhigh <;> omega
    · rw [List.mem_singleton.mp hp]
      split at hhigh
      · exact .inr ⟨‹_›, ‹_›⟩
      · exact .inl hhigh

theorem bound16_lt {high : ℕ} (h : high ≤ 0xffff ∨ high = uint32Max) : bound16 high < 2 ^ 16 := by
  unfold bound16
  split <;> omega

/-- A set whose points have 16 bits. -/
theorem execRange16_points (input : List ℕ) {high : ℕ} (heven : points.length % 2 = 0)
    (hs : (points ++ [low, high]).Pairwise (· < ·)) (hb : ∀ p ∈ points ++ [low, high], p ≤ uint32Max)
    (hhigh : (if high = uint32Max then low else high) ≤ 0xffff) (hlen : (points ++ [low, high]).length / 2 < 65535)
    (hc : c < uint32Max)
    (hat : BytesAt bc pc (putU16 ((points ++ [low, high]).length / 2) ++ emitRange16 (points ++ [low, high]))) :
    ∃ b, execRange16 bc pc c input =
        some (.ofSearch (pc + 2 + 4 * ((points ++ [low, high]).length / 2)) input b) ∧
      (b = true ↔ inPoints c (points ++ [low, high])) := by
  have hsmall := small_of_high hs hhigh
  have hsmall' : ∀ p ∈ points ++ [low, high], p ≤ 0xffff ∨ p = uint32Max := fun p hp => (hsmall p hp).imp_right And.left
  have hlast := getLast_intervals bound16 low high heven
  have hmem : high ∈ points ++ [low, high] := List.mem_append_right points (.tail _ (.head _))
  rw [emitRange16_eq hb hs, ← length_intervals bound16] at hat
  rw [← length_intervals bound16] at hlen ⊢
  have hne_max := fun r (hr : r ∈ intervals bound16 (points ++ [low, high])) => mem_even_ne_max hb hs hr
  have hpoints := fun r (hr : r ∈ intervals bound16 (points ++ [low, high])) => mem_intervals hr
  have ha : Ascending (intervals bound16 (points ++ [low, high])) := by
    refine ascending_intervals hs (fun p hp q hq hpq => ?_) fun p hp q hq hpq => ?_
    · have h1 := hsmall' p hp
      unfold bound16
      split <;> omega
    · have h2 := hb q hq
      unfold bound16
      split <;> omega
  obtain ⟨b, hexec, hiff⟩ := execRange16_eq (c := c) input ha hlast hlen (fun r hr => by
    obtain ⟨h1, q, hq, h2⟩ := hpoints r hr
    have h3 := hsmall' r.1 h1
    have h4 := hne_max r hr
    rw [h2]
    exact ⟨by omega, bound16_lt (hsmall' q hq)⟩) hat
  refine ⟨b, hexec, hiff.trans ?_⟩
  have hiff' := fun h : c ≤ 0xffff ∨ uint32Max ∉ points ++ [low, high] =>
    in_intervals_iff (f := bound16) (fun p _ q hq hpq _ => le_bound16 hc h hq (Nat.zero_lt_of_lt hpq)) hs
  by_cases hmax : high = uint32Max
  · rw [if_pos hmax] at hhigh
    by_cases hlarge : 0xffff ≤ c
    · -- every large character is in the last interval
      refine iff_of_true (.inl ⟨hlarge, if_pos hmax⟩) (inPoints_append heven (Nat.le_trans hhigh hlarge) ?_)
      rwa [hmax]
    · rw [← hiff' (.inl (by omega))]
      exact or_iff_right fun h => hlarge h.1
  · have hno : uint32Max ∉ points ++ [low, high] := by
      intro h
      rcases hsmall _ h with h | h
      · exact absurd h (by decide)
      · exact hmax h.2
    rw [← hiff' (.inr hno)]
    refine or_iff_right fun h => ?_
    have hb16 : high - 1 = 0xffff := (if_neg hmax).symm.trans h.2
    have := (hsmall' high hmem).resolve_right hmax
    omega

/-- A set of any points. -/
theorem execRange32_points (input : List ℕ) {high : ℕ} (heven : points.length % 2 = 0)
    (hs : (points ++ [low, high]).Pairwise (· < ·)) (hb : ∀ p ∈ points ++ [low, high], p ≤ uint32Max)
    (hlen : (points ++ [low, high]).length / 2 < 65535)
    (hat : BytesAt bc pc (putU16 ((points ++ [low, high]).length / 2) ++ emitRange32 (points ++ [low, high]))) :
    ∃ b, execRange32 bc pc c input =
        some (.ofSearch (pc + 2 + 8 * ((points ++ [low, high]).length / 2)) input b) ∧
      (b = true ↔ inPoints c (points ++ [low, high])) := by
  have hlast := getLast_intervals (· - 1) low high heven
  rw [emitRange32_eq hb hs, ← length_intervals (· - 1)] at hat
  rw [← length_intervals (· - 1)] at hlen ⊢
  have ha : Ascending (intervals (· - 1) (points ++ [low, high])) := by
    refine ascending_intervals hs (fun p _ q _ hpq => Nat.le_sub_one_of_lt hpq) fun p _ q _ hpq => ?_
    exact Nat.lt_of_le_of_lt (Nat.sub_le p 1) hpq
  obtain ⟨b, hexec, hiff⟩ := execRange32_eq (c := c) input ha hlast hlen (fun r hr => by
    obtain ⟨h1, q, hq, h2⟩ := mem_intervals hr
    have h3 := hb r.1 h1
    have h4 := hb q hq
    unfold uint32Max at h3 h4
    omega) hat
  refine ⟨b, hexec, hiff.trans (in_intervals_iff (fun p _ q _ hpq _ => ?_) hs)⟩
  exact Nat.le_sub_one_iff_lt (Nat.zero_lt_of_lt hpq)

theorem Outcome.ofSearch_eq {b : Bool} {p : Prop} [Decidable p] (h : b = true ↔ p) :
    Outcome.ofSearch pc input b = if p then .next pc input else .noMatch := by
  cases b with
  | false => exact (if_neg fun hp => absurd (h.mpr hp) Bool.false_ne_true).symm
  | true => exact (if_pos (h.mp rfl)).symm

theorem length_emitRange16 (points : List ℕ) : (emitRange16 points).length = 4 * (points.length / 2) := by
  fun_induction emitRange16 points with
  | case1 low high points high' ih =>
    rw [List.length_append, List.length_append, putU16, putU16]
    simp only [List.length_cons, List.length_nil]
    omega
  | case2 points hno =>
    match points with
    | [] => rfl
    | [_] => exact (congrArg (4 * ·) (Nat.div_eq_of_lt Nat.one_lt_two)).symm
    | low :: high :: points => exact absurd rfl (hno low high points)

theorem length_emitRange32 (points : List ℕ) : (emitRange32 points).length = 8 * (points.length / 2) := by
  fun_induction emitRange32 points with
  | case1 low high points ih =>
    rw [List.length_append, List.length_append, putU32, putU32]
    simp only [List.length_cons, List.length_nil]
    omega
  | case2 points hno =>
    match points with
    | [] => rfl
    | [_] => exact (congrArg (8 * ·) (Nat.div_eq_of_lt Nat.one_lt_two)).symm
    | low :: high :: points => exact absurd rfl (hno low high points)

/-- What the opcode of a set does with the character that is compared. -/
theorem execTest_reEmitRange (input : List ℕ) {cr : CharRange} {s : REExecContext} (hemit : reEmitRange cr.points = some ops)
    (hc : s.subject c < uint32Max) (hat : BytesAt bc pc ops) :
    execTest s bc pc (c :: input) =
      some (if s.subject c ∈ cr then .next (pc + ops.length) input else .noMatch) := by
  have heven := cr.even
  unfold reEmitRange at hemit
  dsimp only at hemit
  split at hemit
  · cases hemit
  split at hemit
  · cases hemit
    have hnil : cr.points = [] := List.length_eq_zero_iff.mp (by omega)
    have hno : s.subject c ∉ cr := by
      rw [CharRange.mem_iff, hnil]
      exact id
    rw [if_neg hno, execTest, hat.head]
    rw [getU32_putU32 (by decide) hat.tail]
    exact congrArg some (if_neg (Nat.ne_of_gt hc))
  · rename_i hlen hne
    obtain ⟨init, low, high, hpts⟩ := exists_last_interval heven (Nat.pos_of_ne_zero hne)
    have hs := cr.sorted
    have hb := cr.bounded
    rw [hpts] at hemit heven hs hb hlen
    rw [List.length_append] at heven
    replace heven : init.length % 2 = 0 := (Nat.add_mod_right init.length 2).symm.trans heven
    have hhigh : (init ++ [low, high]).getD ((init ++ [low, high]).length - 1) 0 = high := by
      rw [List.getD_eq_getElem?_getD, ← List.getLast?_eq_getElem?, List.getLast?_append]
      rfl
    have hlow : (init ++ [low, high]).getD ((init ++ [low, high]).length - 2) 0 = low := by
      have hidx : (init ++ [low, high]).length - 2 = init.length := by
        rw [List.length_append]
        rfl
      rw [hidx, List.getD_eq_getElem?_getD, List.getElem?_append_right (Nat.le_refl _), Nat.sub_self]
      rfl
    rw [hhigh, hlow] at hemit
    have hmem : s.subject c ∈ cr ↔ inPoints (s.subject c) (init ++ [low, high]) := by
      rw [CharRange.mem_iff, hpts]
    have hlen' := Nat.lt_of_not_le hlen
    by_cases h16 : (if high = uint32Max then low else high) ≤ 0xffff
    · rw [if_pos h16] at hemit
      cases hemit
      obtain ⟨b, hexec, hiff⟩ := execRange16_points input heven hs hb h16 hlen' hc hat.tail
      have hlength : pc + 1 + 2 + 4 * ((init ++ [low, high]).length / 2) = pc +
          (REOP.range.code :: putU16 ((init ++ [low, high]).length / 2) ++ emitRange16 (init ++ [low, high])).length := by
        simp only [List.length_append, length_emitRange16, List.length_cons, putU16, List.length_nil]
        omega
      rw [execTest, hat.head]
      dsimp only [Option.bind_eq_bind, Option.bind_some]
      rw [if_neg (by decide), if_neg (by decide), if_pos rfl, hexec, hlength, Outcome.ofSearch_eq (hiff.trans hmem.symm)]
    · rw [if_neg h16] at hemit
      cases hemit
      obtain ⟨b, hexec, hiff⟩ := execRange32_points (c := s.subject c) input heven hs hb hlen' hat.tail
      have hlength : pc + 1 + 2 + 8 * ((init ++ [low, high]).length / 2) = pc +
          (REOP.range32.code :: putU16 ((init ++ [low, high]).length / 2) ++
            emitRange32 (init ++ [low, high])).length := by
        simp only [List.length_append, length_emitRange32, List.length_cons, putU16, List.length_nil]
        omega
      rw [execTest, hat.head]
      dsimp only [Option.bind_eq_bind, Option.bind_some]
      rw [if_neg (by decide), if_neg (by decide), if_neg (by decide), if_pos rfl, hexec, hlength,
        Outcome.ofSearch_eq (hiff.trans hmem.symm)]

/-- Without `ignore_case`, the bytecode of a set of characters accepts a character if and only if it is in the set,
and goes on behind its operand. -/
theorem execTest_range_exact (cr : CharRange) (s : REExecContext) (hcase : s.ignoreCase = false)
    (hemit : reEmitRange cr.points = some ops) (hc : c ≤ 0x10ffff) (pre post : List UInt8) (input : List ℕ) :
    execTest s (pre ++ ops ++ post) pre.length (c :: input) =
      some (if c ∈ cr then .next (pre.length + ops.length) input else .noMatch) := by
  have hsub : s.subject c = c := if_neg (Bool.eq_false_iff.mp hcase)
  have hat : BytesAt (pre ++ ops ++ post) pre.length ops := by
    rw [BytesAt, List.append_assoc, List.drop_left]
    exact List.prefix_append ops post
  have hexec := execTest_reEmitRange (s := s) (c := c) input hemit
    (by rw [hsub]; exact Nat.lt_of_le_of_lt hc (by decide)) hat
  rwa [hsub] at hexec

/-- The characters a to z, and from 0xffff on. -/
def lettersAndLast : CharRange where
  points := [97, 123, 0xffff, uint32Max]
  even := rfl
  sorted := by decide
  bounded := by decide

/-- U+1F600 is accepted by the interval without an end. -/
theorem lettersAndLast_exact : execTest ⟨false, true, fun c _ => (c, [])⟩
      ([10] ++ [21, 2, 0, 97, 0, 122, 0, 255, 255, 255, 255] ++ [10]) 1 [0x1f600] = some (.next 12 []) :=
  execTest_range_exact lettersAndLast ⟨false, true, fun c _ => (c, [])⟩ rfl (by decide) (by decide) [10] [10] []

end QuickJs.Regexp
