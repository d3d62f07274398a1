import QuickJs.UnicodeScriptExact

/-!
# Membership in a property table

A property is a table of runs, which are in it by turns; `unicode_prop1` reads them all. `lre_is_in_table` begins at one
of the places that an index gives: a run that is not in the property starts there, at a character that is not greater.
-/

namespace QuickJs.PropTable

open Regexp CharRangeBuffer UnicodeScript

/-- The number of characters in a run, less one, whose first byte is at least 64. -/
def longRun (b : ℕ) (p : List ℕ) : Option (ℕ × List ℕ) :=
  if 0x80 ≤ b then some (b - 0x80, p)
  else if b < 0x60 then
    match p with
    | b0 :: p => some ((b - 0x40) <<< 8 ||| b0, p)
    | [] => none
  else
    match p with
    | b0 :: b1 :: p => some ((b - 0x60) <<< 16 ||| b0 <<< 8 ||| b1, p)
    | _ => none

/-! ## `unicode_prop1` -/

section Granted

variable (grants : ℕ → Bool)

def addIf (bit : Bool) (c0 c : ℕ) (cr : Cr) (heap : Heap) : Res :=
  if bit then crAddInterval grants c0 c cr heap else ⟨true, cr, heap⟩

/-- The loop over the bytes; nothing comes of a read past the end of the table. -/
def prop1Loop : ℕ → List ℕ → ℕ → Bool → Cr → Heap → Option Res
  | _, [], _, _, cr, heap => some ⟨true, cr, heap⟩
  | 0, _ :: _, _, _, _, _ => none
  | fuel + 1, b :: p, c, bit, cr, heap =>
    if b < 64 then
      let c1 := c + b >>> 3 + 1
      let r := addIf grants bit c c1 cr heap
      if !r.ok then some r
      else
        let c2 := c1 + (b &&& 7) + 1
        let r := addIf grants (!bit) c1 c2 r.cr r.heap
        if !r.ok then some r else prop1Loop fuel p c2 bit r.cr r.heap
    else
      (longRun b p).bind fun x =>
        let c1 := c + x.1 + 1
        let r := addIf grants bit c c1 cr heap
        if !r.ok then some r else prop1Loop fuel x.2 c1 (!bit) r.cr r.heap

/-- `unicode_prop1`, for a `cr` that is empty -/
def unicodeProp1 (table : List ℕ) (heap : Heap) : Option Res := prop1Loop grants table.length table 0 false crInit heap

end Granted

/-! ## `lre_is_in_table` -/

/-- `get_le24` of an entry of the index -/
def getLe24 (index : List ℕ) (idx : ℕ) : ℕ :=
  index.getD (idx * 3) 0 ||| index.getD (idx * 3 + 1) 0 <<< 8 ||| index.getD (idx * 3 + 2) 0 <<< 16

def entryCode (index : List ℕ) (idx : ℕ) : ℕ := getLe24 index idx &&& (1 <<< 21 - 1)

/-- The binary search of `get_index_pos`. -/
def searchIndex (index : List ℕ) (c idxMin idxMax : ℕ) : ℕ :=
  if 1 < idxMax - idxMin then
    let idx := (idxMax + idxMin) / 2
    if c < entryCode index idx then searchIndex index c idxMin idx else searchIndex index c idx idxMax
  else idxMin
termination_by idxMax - idxMin

/-- `get_index_pos`: the place in the table, and the first character there -/
def getIndexPos (c : ℕ) (index : List ℕ) (len : ℕ) : Option (ℕ × ℕ) :=
  if c < entryCode index 0 then some (0, 0)
  else if getLe24 index (len - 1) ≤ c then none
  else
    let idx := searchIndex index c 0 (len - 1)
    some ((idx + 1) * 32 + getLe24 index idx >>> 21, entryCode index idx)

/-- The loop over the bytes. -/
def isInTableLoop (c : ℕ) : ℕ → List ℕ → ℕ → Bool → Option Bool
  | _, [], _, _ | 0, _, _, _ => none
  | fuel + 1, b :: p, code, bit =>
    if b < 64 then
      let code := code + b >>> 3 + 1
      if c < code then some bit
      else
        let code := code + (b &&& 7) + 1
        if c < code then some !bit else isInTableLoop c fuel p code bit
    else
      (longRun b p).bind fun x =>
        let code := code + x.1 + 1
        if c < code then some bit else isInTableLoop c fuel x.2 code !bit

def lreIsInTable (c : ℕ) (table index : List ℕ) (len : ℕ) : Option Bool :=
  match getIndexPos c index len with
  | none => some false
  | some (pos, code) => isInTableLoop c table.length (table.drop pos) code false

/-! ## Tables -/

/-- The runs of a table, less one each. -/
inductive Runs : List ℕ → List ℕ → Prop
  | nil : Runs [] []
  | two {b p ns} (hb : b < 64) (h : Runs p ns) : Runs (b :: p) (b >>> 3 :: (b &&& 7) :: ns)
  | one {b p n q ns} (hb : ¬b < 64) (hn : longRun b p = some (n, q)) (h : Runs q ns) : Runs (b :: p) (n :: ns)

def size (ns : List ℕ) : ℕ := (ns.map (· + 1)).sum

/-- A table and its index: an entry for each block of 32 bytes gives a place between whole bytes, near its end, and the
characters before it; the number of runs before it is even. The last entry is the end of the table. -/
structure WellFormed (table index : List ℕ) (len : ℕ) (ns : List ℕ) : Prop where
  runs : Runs table ns
  size_le : size ns ≤ 0x110000
  pos : 0 < len
  length : index.length = 3 * len
  last : getLe24 index (len - 1) = size ns
  block : ∀ k < len - 1, ∃ before after ms, table = before ++ after ∧ Runs before ms ∧ ms.length % 2 = 0 ∧
    before.length = (k + 1) * 32 + getLe24 index k >>> 21 ∧ size ms = entryCode index k

/-- The runs, each with the bit for it. -/
def alternate : Bool → List ℕ → List (ℕ × Bool)
  | _, [] => []
  | bit, n :: ns => (n, bit) :: alternate (!bit) ns

variable {grants : ℕ → Bool} {heap : Heap} {cr : Cr} {table index p q ns ms : List ℕ} {b c code fuel len n : ℕ}
  {bit : Bool}

/-- A run takes the same bytes from a longer table. -/
theorem longRun_append (h : longRun b p = some (n, q)) :
    q.length ≤ p.length ∧ ∀ after, longRun b (p ++ after) = some (n, q ++ after) := by
  unfold longRun at h ⊢
  by_cases h80 : 0x80 ≤ b
  · rw [if_pos h80] at h
    obtain ⟨rfl, rfl⟩ := Prod.mk.inj (Option.some.inj h)
    exact ⟨Nat.le_refl _, fun after => if_pos h80⟩
  simp only [if_neg h80] at h ⊢
  by_cases h60 : b < 0x60
  · simp only [if_pos h60] at h ⊢
    rcases p with _ | ⟨b0, p⟩
    · cases h
    · obtain ⟨rfl, rfl⟩ := Prod.mk.inj (Option.some.inj h)
      exact ⟨Nat.le_succ _, fun after => rfl⟩
  · simp only [if_neg h60] at h ⊢
    rcases p with _ | ⟨b0, _ | ⟨b1, p⟩⟩
    · cases h
    · cases h
    · obtain ⟨rfl, rfl⟩ := Prod.mk.inj (Option.some.inj h)
      exact ⟨Nat.le_add_right _ 2, fun after => rfl⟩

/-- A table behind a part of whole bytes. -/
theorem Runs.of_append (hms : Runs p ms) (h : Runs (p ++ q) ns) : ∃ ks, Runs q ks ∧ ns = ms ++ ks := by
  induction hms generalizing ns with
  | nil => exact ⟨ns, h, rfl⟩
  | two hb _ ih =>
    cases h with
    | two _ h =>
      obtain ⟨ks, hks, rfl⟩ := ih h
      exact ⟨ks, hks, rfl⟩
    | one hb' => exact absurd hb hb'
  | one hb hn _ ih =>
    cases h with
    | two hb' => exact absurd hb' hb
    | one _ hn' h =>
      cases ((longRun_append hn).2 q).symm.trans hn'
      obtain ⟨ks, hks, rfl⟩ := ih h
      exact ⟨ks, hks, rfl⟩

theorem addRuns_alternate (grants : ℕ → Bool) (bit : Bool) (n : ℕ) (ns : List ℕ) (c : ℕ) (cr : Cr) (heap : Heap) :
    addRuns grants id (alternate bit (n :: ns)) c cr heap =
      let r := addIf grants bit c (c + n + 1) cr heap
      if !r.ok then r else addRuns grants id (alternate (!bit) ns) (c + n + 1) r.cr r.heap := by
  rw [alternate, addRuns, addIf]
  cases bit with
  | false => rfl
  | true =>
    dsimp only [id]
    rw [if_pos rfl, if_pos rfl]
    cases (crAddInterval grants c (c + n + 1) cr heap).ok <;> rfl

/-- All runs are read. -/
theorem prop1Loop_eq (h : Runs p ns) (hfuel : p.length ≤ fuel) (c : ℕ) (bit : Bool) (cr : Cr) (heap : Heap) :
    prop1Loop grants fuel p c bit cr heap = some (addRuns grants id (alternate bit ns) c cr heap) := by
  induction h generalizing fuel c bit cr heap with
  | nil => rw [prop1Loop, alternate, addRuns]
  | two hb _ ih =>
    obtain ⟨fuel, rfl⟩ := Nat.exists_eq_add_of_lt (Nat.lt_of_lt_of_le (Nat.succ_pos _) hfuel)
    rw [List.length_cons] at hfuel
    rw [prop1Loop, if_pos hb, addRuns_alternate]
    dsimp only
    rw [addRuns_alternate, Bool.not_not]
    dsimp only
    rw [ih (by omega)]
    split
    · rfl
    · split <;> rfl
  | one hb hn _ ih =>
    obtain ⟨fuel, rfl⟩ := Nat.exists_eq_add_of_lt (Nat.lt_of_lt_of_le (Nat.succ_pos _) hfuel)
    have hle := (longRun_append hn).1
    rw [List.length_cons] at hfuel
    rw [prop1Loop, if_neg hb, hn, addRuns_alternate, Option.bind_some]
    dsimp only
    rw [ih (by omega)]
    split <;> rfl

/-! ## The answer -/

theorem not_inPoints (h : ∀ x ∈ p, c < x) : ¬inPoints c p := by
  fun_induction inPoints c p with
  | case1 low high p ih =>
    rintro (⟨hle, -⟩ | hin)
    · exact absurd (h low (.head _)) (Nat.not_lt.mpr hle)
    · exact ih (fun x hx => h x (.tail _ (.tail _ hx))) hin
  | case2 => exact id

/-- The first run decides, or the other ones do. -/
theorem inPoints_run (hc : code ≤ c) : inPoints c (wantedPoints id code (alternate bit (n :: ns))) ↔
    if c < code + n + 1 then bit = true
    else inPoints c (wantedPoints id (code + n + 1) (alternate (!bit) ns)) := by
  have hrest (hlt : c < code + n + 1) : ¬inPoints c (wantedPoints id (code + n + 1) (alternate (!bit) ns)) :=
    not_inPoints fun x hx => Nat.lt_of_lt_of_le hlt (mem_wantedPoints hx).1
  rw [alternate, wantedPoints]
  cases bit with
  | false =>
    rw [id, if_neg Bool.false_ne_true]
    split
    · exact iff_of_false (hrest ‹_›) Bool.false_ne_true
    · exact Iff.rfl
  | true =>
    rw [id, if_pos rfl]
    split
    · exact iff_of_true (.inl ⟨hc, ‹_›⟩) rfl
    · exact or_iff_right fun h => absurd h.2 ‹_›

theorem size_cons (n : ℕ) (ns : List ℕ) : size (n :: ns) = n + 1 + size ns := by
  rw [size, List.map_cons, List.sum_cons, ← size]

/-- Runs before the character do not matter, but for their number. -/
theorem inPoints_append (ms ns : List ℕ) (bit : Bool) (hc : code + size ms ≤ c) :
    inPoints c (wantedPoints id code (alternate bit (ms ++ ns))) ↔
      inPoints c (wantedPoints id (code + size ms) (alternate (if ms.length % 2 = 0 then bit else !bit) ns)) := by
  induction ms generalizing code bit with
  | nil => exact Iff.rfl
  | cons n ms ih =>
    rw [size_cons] at hc
    rw [List.cons_append, inPoints_run (by omega), if_neg (by omega), ih (!bit) (by omega), size_cons,
      List.length_cons, show code + n + 1 + size ms = code + (n + 1 + size ms) by omega]
    by_cases h : ms.length % 2 = 0
    · rw [if_pos h, if_neg (by omega)]
    · rw [if_neg h, if_pos (by omega), Bool.not_not]

/-- From a place in the table on, the bytes tell whether the character is in the property. -/
theorem isInTableLoop_eq (h : Runs p ns) (hfuel : p.length ≤ fuel) (hc : code ≤ c) (hlt : c < code + size ns) :
    ∃ b, isInTableLoop c fuel p code bit = some b ∧
      (b = true ↔ inPoints c (wantedPoints id code (alternate bit ns))) := by
  induction h generalizing fuel code bit with
  | nil => exact absurd hc (Nat.not_le.mpr hlt)
  | two hb _ ih =>
    obtain ⟨fuel, rfl⟩ := Nat.exists_eq_add_of_lt (Nat.lt_of_lt_of_le (Nat.succ_pos _) hfuel)
    rw [List.length_cons] at hfuel
    rw [size_cons, size_cons] at hlt
    rw [isInTableLoop, if_pos hb, inPoints_run hc]
    dsimp only
    split
    · exact ⟨bit, rfl, Iff.rfl⟩
    · rw [inPoints_run (by omega), Bool.not_not]
      split
      · exact ⟨!bit, rfl, Iff.rfl⟩
      · exact ih (by omega) (by omega) (by omega)
  | one hb hn _ ih =>
    obtain ⟨fuel, rfl⟩ := Nat.exists_eq_add_of_lt (Nat.lt_of_lt_of_le (Nat.succ_pos _) hfuel)
    have hle := (longRun_append hn).1
    rw [List.length_cons] at hfuel
    rw [size_cons] at hlt
    rw [isInTableLoop, if_neg hb, hn, Option.bind_some, inPoints_run hc]
    dsimp only
    split
    · exact ⟨bit, rfl, Iff.rfl⟩
    · exact ih (by omega) (by omega) (by omega)

/-- The search ends at an entry that is not greater. -/
theorem searchIndex_spec (index : List ℕ) (c idxMin idxMax : ℕ) (hlt : idxMin < idxMax)
    (hle : entryCode index idxMin ≤ c) :
    searchIndex index c idxMin idxMax < idxMax ∧ entryCode index (searchIndex index c idxMin idxMax) ≤ c := by
  fun_induction searchIndex index c idxMin idxMax with
  | case1 idxMin idxMax h idx hc ih =>
    obtain ⟨hmax, hcode⟩ := ih (by omega) hle
    exact ⟨by omega, hcode⟩
  | case2 idxMin idxMax h idx hc ih => exact ih (by omega) (Nat.not_lt.mp hc)
  | case3 idxMin idxMax h => exact ⟨hlt, hle⟩

/-- No entry is beyond the end of the table. -/
theorem WellFormed.entryCode_le (h : WellFormed table index len ns) {k : ℕ} (hk : k < len) :
    entryCode index k ≤ size ns := by
  by_cases hlast : k < len - 1
  · obtain ⟨before, after, ms, rfl, hms, -, -, hsize⟩ := h.block k hlast
    obtain ⟨ks, -, rfl⟩ := hms.of_append h.runs
    rw [← hsize, size, size, List.map_append, List.sum_append]
    exact Nat.le_add_right _ _
  · obtain rfl : k = len - 1 := by omega
    exact h.last ▸ Nat.and_le_left

/-- A search that begins at a place of the index. -/
theorem WellFormed.isInTable_at {before after : List ℕ} (h : WellFormed table index len ns)
    (htable : table = before ++ after) (hms : Runs before ms) (heven : ms.length % 2 = 0) (hc : size ms ≤ c)
    (hlt : c < size ns) : ∃ b, isInTableLoop c table.length (table.drop before.length) (size ms) false = some b ∧
      (b = true ↔ inPoints c (wantedPoints id 0 (alternate false ns))) := by
  subst htable
  obtain ⟨ks, hks, rfl⟩ := hms.of_append h.runs
  rw [List.drop_left, inPoints_append ms ks false (by rwa [Nat.zero_add]), if_pos heven, Nat.zero_add]
  refine isInTableLoop_eq hks ?_ hc ?_
  · rw [List.length_append]
    exact Nat.le_add_left _ _
  · rwa [size, List.map_append, List.sum_append, ← size, ← size] at hlt

/-- The answer of `lre_is_in_table` is that of the runs. -/
theorem lreIsInTable_eq (h : WellFormed table index len ns) (c : ℕ) :
    ∃ b, lreIsInTable c table index len = some b ∧ (b = true ↔ inPoints c
      (wantedPoints id 0 (alternate false ns))) := by
  have hpos := h.pos
  have hlast := h.last
  unfold lreIsInTable getIndexPos
  by_cases hfirst : c < entryCode index 0
  · simp only [if_pos hfirst]
    exact h.isInTable_at rfl .nil rfl (Nat.zero_le c) (Nat.lt_of_lt_of_le hfirst (h.entryCode_le hpos))
  simp only [if_neg hfirst]
  by_cases hout : getLe24 index (len - 1) ≤ c
  · simp only [if_pos hout]
    have happend : inPoints c (wantedPoints id 0 (alternate false (ns ++ []))) ↔ _ :=
      inPoints_append ns [] false (by omega)
    rw [List.append_nil] at happend
    exact ⟨false, rfl, iff_of_false Bool.false_ne_true (mt happend.mp id)⟩
  · simp only [if_neg hout]
    have hlen : 0 < len - 1 := by
      by_contra hno
      have hzero : len - 1 = 0 := by omega
      -- there is one entry, and no bits of it are masked
      have hmask : entryCode index 0 = getLe24 index 0 := by
        rw [hzero] at hlast
        rw [entryCode, hlast, show 1 <<< 21 - 1 = 2 ^ 21 - 1 from rfl, Nat.and_two_pow_sub_one_eq_mod]
        exact Nat.mod_eq_of_lt (Nat.lt_of_le_of_lt h.size_le (by decide))
      rw [hzero, ← hmask] at hout
      exact hout (Nat.not_lt.mp hfirst)
    obtain ⟨hidx, hcode⟩ := searchIndex_spec index c 0 (len - 1) hlen (Nat.not_lt.mp hfirst)
    obtain ⟨before, after, ms, htable, hms, heven, hplace, hsize⟩ := h.block _ hidx
    rw [← hplace, ← hsize]
    exact h.isInTable_at htable hms heven (hsize ▸ hcode) (hlast ▸ Nat.not_le.mp hout)

/-- **The indexed test is membership in the set that `unicode_prop1` makes**, which it makes if no request for memory is
refused. -/
theorem lreIsInTable_iff (table index : List ℕ) (len : ℕ) (ns : List ℕ) (h : WellFormed table index len ns) (c : ℕ)
    (grants : ℕ → Bool) (heap : Heap) :
    ∃ r, unicodeProp1 grants table heap = some r ∧ ((∀ k, grants k = true) → r.ok = true) ∧
      (r.ok = true → ∃ b, lreIsInTable c table index len = some b ∧ (b = true ↔ inPoints c r.cr.used)) := by
  have hdoes : Does grants crInit heap _ _ _ (addRuns grants id (alternate false ns) 0 crInit heap) :=
    addRuns_does ok_crInit 0
  refine ⟨_, prop1Loop_eq h.runs (Nat.le_refl _) 0 false crInit heap, fun hall => ?_, fun hok => ?_⟩
  · exact (hdoes.granted fun _ _ => hall _).1
  · rw [(hdoes.granted (hdoes.ok_iff.mp hok)).2.1]
    exact lreIsInTable_eq h c

/-- Two characters, from 11 on. -/
theorem lreIsInTable_iff_example : ∃ r, unicodeProp1 (fun _ => true) [0x8a, 0x81] ⟨0, 0, fun _ => 0⟩ = some r ∧
    ((∀ _ : ℕ, true = true) → r.ok = true) ∧
    (r.ok = true → ∃ b, lreIsInTable 12 [0x8a, 0x81] [13, 0, 0] 1 = some b ∧ (b = true ↔ inPoints 12 r.cr.used)) :=
  lreIsInTable_iff [0x8a, 0x81] [13, 0, 0] 1 [10, 1]
    ⟨.one (by decide) rfl (.one (by decide) rfl .nil), by decide, Nat.one_pos, rfl, rfl, fun _ h => absurd h
      (Nat.not_lt_zero _)⟩
    12 (fun _ => true) ⟨0, 0, fun _ => 0⟩

end QuickJs.PropTable
