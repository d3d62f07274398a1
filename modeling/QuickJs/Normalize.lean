import QuickJs.BlockSort

/-!
# Unicode normalization

`unicode_normalize`. The tables for decompositions, compositions and combining classes are parameters; Hangul is
computed.
-/

namespace QuickJs.Unicode

/-! ## Hangul -/

def isLead (c : ℕ) : Bool := 0x1100 ≤ c ∧ c < 0x1100 + 19

def isVowel (c : ℕ) : Bool := 0x1161 ≤ c ∧ c < 0x1161 + 21

/-- The range in `compose_pair`, which starts at the code point before the first trailing consonant. -/
def isTrail (c : ℕ) : Bool := 0x11a7 ≤ c ∧ c < 0x11a7 + 28

def isJamo (c : ℕ) : Bool := isLead c || isVowel c || isTrail c

def isSyllable (c : ℕ) : Bool := 0xac00 ≤ c ∧ c < 0xac00 + 11172

/-- A syllable without a trailing consonant. -/
def isLV (c : ℕ) : Bool := isSyllable c && (c - 0xac00) % 28 == 0

/-! ## Tables -/

/-- The tables, and how they fit together. -/
structure Tables where
  /-- `unicode_decomp_char`; empty if there is no decomposition -/
  decompChar : ℕ → Bool → List ℕ
  /-- `unicode_compose_pair`; 0 if no pair is found -/
  composePair : ℕ → ℕ → ℕ
  /-- `unicode_get_cc` -/
  cc : ℕ → ℕ
  /-- how deep the decompositions of a character are -/
  rank : ℕ → ℕ
  rank_lt : ∀ c compat x, x ∈ decompChar c compat → rank x < rank c
  jamo_decomp : ∀ c compat, isJamo c → decompChar c compat = []
  jamo_cc : ∀ c, isJamo c → cc c = 0
  syllable_cc : ∀ c, isSyllable c → cc c = 0
  /-- the pair of a composition is its decomposition, which is canonical -/
  pair : ∀ c₀ c₁ compat, composePair c₀ c₁ ≠ 0 → decompChar (composePair c₀ c₁) compat = [c₀, c₁]
  pair_cc : ∀ c₀ c₁, composePair c₀ c₁ ≠ 0 → cc c₀ = 0 → cc (composePair c₀ c₁) = 0
  pair_syllable : ∀ c₀ c₁, composePair c₀ c₁ ≠ 0 → ¬isSyllable (composePair c₀ c₁)
  pair_lead : ∀ c₀ c₁, isLead c₁ → composePair c₀ c₁ = 0

/-! ## Decomposition -/

/-- `to_nfd_rec` on one character. -/
def Tables.toNfdChar (T : Tables) (isCompat : Bool) (c : ℕ) : List ℕ :=
  if isSyllable c then
    let c := c - 0xac00
    [0x1100 + c / 588, 0x1161 + c % 588 / 28] ++ if c % 28 ≠ 0 then [0x11a7 + c % 28] else []
  else if T.decompChar c isCompat = [] then [c]
  else (T.decompChar c isCompat).attach.flatMap fun x => T.toNfdChar isCompat x.1
termination_by T.rank c
decreasing_by exact T.rank_lt c isCompat x.1 x.2

/-- `to_nfd_rec`. -/
def Tables.toNfdRec (T : Tables) (isCompat : Bool) (src : List ℕ) : List ℕ := src.flatMap (T.toNfdChar isCompat)

/-- `sort_cc`. -/
def Tables.sortCc (T : Tables) (buf : List ℕ) : List ℕ := BlockSort.sort T.cc buf

/-! ## Composition -/

/-- `compose_pair`. -/
def Tables.composePair' (T : Tables) (c₀ c₁ : ℕ) : ℕ :=
  if isLead c₀ && isVowel c₁ then 0xac00 + (c₀ - 0x1100) * 588 + (c₁ - 0x1161) * 28
  else if isLV c₀ && isTrail c₁ then c₀ + c₁ - 0x11a7
  else T.composePair c₀ c₁

/-- How far back the starter is, unless it is blocked. The output comes last character first. -/
def Tables.findStarter (T : Tables) : ℕ → List ℕ → Option ℕ
  | _, [] => none
  | lastCc, c :: out =>
    if T.cc c = 0 then some 0
    else if lastCc ≤ T.cc c then none
    else (T.findStarter 256 out).map (· + 1)

/-- The body of the loop. -/
def Tables.composeStep (T : Tables) (out : List ℕ) (c : ℕ) : List ℕ :=
  match T.findStarter (T.cc c) out with
  | none => c :: out
  | some k =>
    match out[k]? with
    | none => c :: out
    | some s => if T.composePair' s c ≠ 0 then out.set k (T.composePair' s c) else c :: out

inductive UnicodeNormalizationEnum
  | nfc | nfd | nfkc | nfkd
  deriving DecidableEq

/-- `n_type >> 1`. -/
def UnicodeNormalizationEnum.isCompat : UnicodeNormalizationEnum → Bool
  | nfc | nfd => false
  | nfkc | nfkd => true

/-- `(n_type & 1) != 0`. -/
def UnicodeNormalizationEnum.decomposes : UnicodeNormalizationEnum → Bool
  | nfc | nfkc => false
  | nfd | nfkd => true

/-- `unicode_normalize`. -/
def Tables.unicodeNormalize (T : Tables) (src : List ℕ) (nType : UnicodeNormalizationEnum) : List ℕ :=
  if nType = .nfc ∧ ∀ c ∈ src, c < 0x100 then src
  else
    match T.sortCc (T.toNfdRec nType.isCompat src) with
    | [] => []
    | [c] => [c]
    | c :: buf => if nType.decomposes then c :: buf else (buf.foldl T.composeStep [c]).reverse

variable {T : Tables} {k : Bool} {c x s p : ℕ} {out rest : List ℕ}

/-! ## Decompositions -/

theorem toNfdRec_append (xs ys : List ℕ) : T.toNfdRec k (xs ++ ys) = T.toNfdRec k xs ++ T.toNfdRec k ys :=
  List.flatMap_append

theorem toNfdRec_cons (x : ℕ) (xs : List ℕ) : T.toNfdRec k (x :: xs) = T.toNfdChar k x ++ T.toNfdRec k xs :=
  List.flatMap_cons

theorem toNfdChar_leaf (hs : ¬isSyllable c) (hd : T.decompChar c k = []) : T.toNfdChar k c = [c] := by
  rw [Tables.toNfdChar, if_neg hs, if_pos hd]

theorem toNfdChar_rec (hs : ¬isSyllable c) (hd : T.decompChar c k ≠ []) :
    T.toNfdChar k c = T.toNfdRec k (T.decompChar c k) := by
  rw [Tables.toNfdChar, if_neg hs, if_neg hd, Tables.toNfdRec]
  conv_rhs => rw [← List.attach_map_subtype_val (T.decompChar c k), List.flatMap_map]

theorem not_syllable (h : isJamo c) : ¬isSyllable c := by
  simp only [isJamo, isLead, isVowel, isTrail, isSyllable, Bool.or_eq_true, decide_eq_true_eq] at h ⊢
  omega

theorem toNfdChar_jamo (h : isJamo c) : T.toNfdChar k c = [c] :=
  toNfdChar_leaf (not_syllable h) (T.jamo_decomp c k h)

/-- What comes out of a decomposition is decomposed. -/
theorem leaf_of_mem (h : x ∈ T.toNfdChar k c) : T.toNfdChar k x = [x] ∧ ¬isSyllable x := by
  induction hr : T.rank c using Nat.strong_induction_on generalizing c with
  | _ n ih =>
    by_cases hs : isSyllable c
    · have hjamo : isJamo x := by
        rw [Tables.toNfdChar, if_pos hs] at h
        dsimp only at h
        simp only [isSyllable, decide_eq_true_eq] at hs
        simp only [isJamo, isLead, isVowel, isTrail, Bool.or_eq_true, decide_eq_true_eq]
        split at h
        · simp only [List.cons_append, List.nil_append, List.mem_cons, List.not_mem_nil, or_false] at h
          omega
        · simp only [List.append_nil, List.mem_cons, List.not_mem_nil, or_false] at h
          omega
      exact ⟨toNfdChar_jamo hjamo, not_syllable hjamo⟩
    by_cases hd : T.decompChar c k = []
    · rw [toNfdChar_leaf hs hd] at h
      obtain rfl := List.mem_singleton.mp h
      exact ⟨toNfdChar_leaf hs hd, hs⟩
    · rw [toNfdChar_rec hs hd] at h
      obtain ⟨y, hy, hx⟩ := List.mem_flatMap.mp h
      exact ih _ (hr ▸ T.rank_lt c k y hy) hx rfl

end QuickJs.Unicode
