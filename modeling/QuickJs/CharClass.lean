import QuickJs.RangeOpcodeExact

/-!
# Classes that ignore the case

With `ignore_case`, the character that is compared is canonicalized, and so are the ASCII letters of a class, but
only from lower to upper case. Of `lre_case_conv` it is only known that canonical forms are characters that are
canonical themselves.
-/

namespace QuickJs.Regexp

/-- Canonical forms. -/
structure REExecContext.Canonical (s : REExecContext) : Prop where
  le : ∀ c ≤ 0x10ffff, s.canonicalize c ≤ 0x10ffff
  idem : ∀ c ≤ 0x10ffff, s.canonicalize (s.canonicalize c) = s.canonicalize c

/-- Has the class a member with the same canonical form? -/
def SameCanonical (s : REExecContext) (cls : ParsedClass) (c : ℕ) : Prop :=
  ∃ m ≤ 0x10ffff, m ∈ cls.members ∧ s.canonicalize m = s.canonicalize c

/-- The test of a class accepts the characters with the same canonical form as some member, or if it is negated,
the others. -/
def FollowsCanonicalize (s : REExecContext) (cls : ParsedClass) (ops : List UInt8) : Prop :=
  ∀ c ≤ 0x10ffff, ∀ (pre post : List UInt8) (input : List ℕ),
    ((cls.invert = false ↔ SameCanonical s cls c) →
      execTest s (pre ++ ops ++ post) pre.length (c :: input) = some (.next (pre.length + ops.length) input)) ∧
    (¬(cls.invert = false ↔ SameCanonical s cls c) →
      execTest s (pre ++ ops ++ post) pre.length (c :: input) = some .noMatch)

variable {s : REExecContext} {invert : Bool} {cls : ParsedClass} {ops : List UInt8} {c m : ℕ}

/-! ## Canonical forms -/

theorem canonicalize_upper (hu : s.isUtf16 = true) (hc : 65 ≤ c ∧ c ≤ 90) : s.canonicalize c = c + 32 := by
  rw [REExecContext.canonicalize, if_pos hu, if_pos (by omega), if_pos hc]
  omega

theorem canonicalize_lower (hu : s.isUtf16 = false) (hc : 97 ≤ c ∧ c ≤ 122) : s.canonicalize c = c - 32 := by
  rw [REExecContext.canonicalize, if_neg (Bool.eq_false_iff.mp hu), if_pos (by omega), if_pos hc]
  omega

/-- A canonical form is no capital letter in Unicode mode. -/
theorem not_capital (hs : s.Canonical) (hu : s.isUtf16 = true) (hc : c ≤ 0x10ffff) :
    ¬(65 ≤ s.canonicalize c ∧ s.canonicalize c ≤ 90) := by
  intro h
  have hidem := hs.idem c hc
  rw [canonicalize_upper hu h] at hidem
  omega

/-- Otherwise it comes from an ASCII letter if it is a capital letter. -/
theorem capital_of (hu : s.isUtf16 = false) (h : 65 ≤ s.canonicalize c ∧ s.canonicalize c ≤ 90) :
    s.canonicalize c = c ∨ 97 ≤ c ∧ c ≤ 122 := by
  rw [REExecContext.canonicalize, if_neg (Bool.eq_false_iff.mp hu)] at h ⊢
  dsimp only at h ⊢
  split at h
  · rename_i hlt
    rw [if_pos hlt]
    split at h
    · exact .inr ‹_›
    · rename_i hno
      exact .inl (if_neg hno)
  · split at h <;> omega

/-! ## Classes -/

theorem invert_congr {p q : Prop} : ((invert = false ↔ p) ↔ (invert = false ↔ q)) ↔ (p ↔ q) := by
  cases invert with
  | false => simp only [true_iff]
  | true => simp only [Bool.true_eq_false, false_iff, not_iff_not]

/-- The canonical form is looked for in this set. -/
def ParsedClass.adjusted (cls : ParsedClass) : CharRange :=
  if cls.isBrackets then cls.members.crCanonicalize else cls.members

theorem mem_emitted (hc : c < uint32Max) :
    c ∈ cls.emitted true ↔ (cls.invert = false ↔ c ∈ cls.adjusted) := by
  cases cls with
  | escape cr => exact (iff_of_eq (true_iff _)).symm.trans (iff_congr (iff_of_true trivial rfl) Iff.rfl)
  | brackets invert items =>
    cases invert with
    | false => exact (iff_of_eq (true_iff _)).symm.trans (iff_congr (iff_of_true trivial rfl) Iff.rfl)
    | true =>
      refine (CharRange.mem_crInvert hc).trans ?_
      exact ⟨fun h => iff_of_false Bool.noConfusion h, fun h hin => Bool.noConfusion (h.mpr hin)⟩

/-- The test of a class looks whether the canonical form is in the adjusted set. -/
theorem followsCanonicalize_iff (hs : s.Canonical) (hcase : s.ignoreCase = true)
    (hemit : reEmitRange (cls.emitted true).points = some ops) :
    FollowsCanonicalize s cls ops ↔ ∀ c ≤ 0x10ffff, s.canonicalize c ∈ cls.adjusted ↔ SameCanonical s cls c := by
  have hsub : ∀ c, s.subject c = s.canonicalize c := fun c => if_pos hcase
  have hlt : ∀ c ≤ 0x10ffff, s.canonicalize c < uint32Max := fun c hc => Nat.lt_of_le_of_lt (hs.le c hc) (by decide)
  have hexec : ∀ c ≤ 0x10ffff, ∀ (pre post : List UInt8) (input : List ℕ),
      execTest s (pre ++ ops ++ post) pre.length (c :: input) =
        some (if s.canonicalize c ∈ cls.emitted true then .next (pre.length + ops.length) input else .noMatch) := by
    intro c hc pre post input
    have hat : BytesAt (pre ++ ops ++ post) pre.length ops := by
      rw [BytesAt, List.append_assoc, List.drop_left]
      exact List.prefix_append ops post
    have := execTest_reEmitRange (s := s) (c := c) input hemit (by rw [hsub]; exact hlt c hc) hat
    rwa [hsub] at this
  constructor
  · intro hfollows c hc
    have hboth := hfollows c hc [] [] []
    rw [hexec c hc] at hboth
    have hiff : s.canonicalize c ∈ cls.emitted true ↔ (cls.invert = false ↔ SameCanonical s cls c) := by
      refine ⟨fun hin => ?_, fun hsame => ?_⟩
      · by_contra hno
        have := hboth.2 hno
        rw [if_pos hin] at this
        cases this
      · by_contra hno
        have := hboth.1 hsame
        rw [if_neg hno] at this
        cases this
    exact invert_congr.mp ((mem_emitted (hlt c hc)).symm.trans hiff)
  · intro hiff c hc pre post input
    have hin := (mem_emitted (hlt c hc)).trans (invert_congr.mpr (hiff c hc))
    rw [hexec c hc]
    exact ⟨fun h => congrArg some (if_pos (hin.mpr h)), fun h => congrArg some (if_neg fun hno => h (hin.mp hno))⟩

theorem mem_adjusted :
    c ∈ cls.adjusted ↔ c ∈ cls.members ∨ cls.isBrackets = true ∧ c + 32 ∈ cls.members ∧ 65 ≤ c ∧ c ≤ 90 := by
  cases cls with
  | brackets invert items => exact CharRange.mem_crCanonicalize.trans (or_congr_right (and_iff_right rfl).symm)
  | escape cr => exact (or_iff_left fun h => Bool.noConfusion h.1).symm

/-- A class that is emitted follows `lre_canonicalize` if and only if it contains the canonical form of each member;
in brackets and without Unicode the lower case ASCII letters may be without theirs. -/
theorem class_follows_iff (s : REExecContext) (hs : s.Canonical) (hcase : s.ignoreCase = true) (cls : ParsedClass)
    (ops : List UInt8) (hemit : reEmitRange (cls.emitted true).points = some ops) :
    FollowsCanonicalize s cls ops ↔ ∀ m ≤ 0x10ffff, m ∈ cls.members →
      s.canonicalize m ∈ cls.members ∨ (cls.isBrackets = true ∧ s.isUtf16 = false ∧ 97 ≤ m ∧ m ≤ 122) := by
  rw [followsCanonicalize_iff hs hcase hemit]
  constructor
  · intro hiff m hm hin
    have hadj := (hiff m hm).mpr ⟨m, hm, hin, rfl⟩
    rcases mem_adjusted.mp hadj with hmem | ⟨hb, _, hcap⟩
    · exact .inl hmem
    cases hu : s.isUtf16 with
    | true => exact absurd hcap (not_capital hs hu hm)
    | false =>
      rcases capital_of hu hcap with heq | hlow
      · exact .inl (heq.symm ▸ hin)
      · exact .inr ⟨hb, rfl, hlow⟩
  · intro hclosed c hc
    constructor
    · intro hadj
      rcases mem_adjusted.mp hadj with hmem | ⟨_, hlow, hcap⟩
      · exact ⟨s.canonicalize c, hs.le c hc, hmem, hs.idem c hc⟩
      cases hu : s.isUtf16 with
      | true => exact absurd hcap (not_capital hs hu hc)
      | false =>
        refine ⟨s.canonicalize c + 32, by omega, hlow, ?_⟩
        rw [canonicalize_lower hu (by omega), Nat.add_sub_cancel]
    · rintro ⟨m, hm, hin, heq⟩
      rw [← heq]
      refine mem_adjusted.mpr ((hclosed m hm hin).imp_right ?_)
      rintro ⟨hb, hu, hlow⟩
      rw [canonicalize_lower hu hlow, Nat.sub_add_cancel (by omega)]
      exact ⟨hb, hin, by omega, by omega⟩

/-- Case conversion of ASCII only. -/
def asciiContext (isUtf16 : Bool) : REExecContext := ⟨true, isUtf16, fun c _ => (c, [])⟩

theorem asciiContext_canonical (isUtf16 : Bool) : (asciiContext isUtf16).Canonical := by
  have hcan : ∀ c, (asciiContext isUtf16).canonicalize c =
      if isUtf16 then if 65 ≤ c ∧ c ≤ 90 then c + 32 else c else if 97 ≤ c ∧ c ≤ 122 then c - 32 else c := by
    intro c
    cases isUtf16 <;> simp only [REExecContext.canonicalize, asciiContext] <;> split_ifs <;> omega
  refine ⟨fun c hc => ?_, fun c hc => ?_⟩
  · rw [hcan]
    split_ifs <;> omega
  · rw [hcan, hcan]
    split_ifs <;> omega

theorem lowerCase_le : (97 : ℕ) ≤ 122 := by decide

/-- `[a-z]`. -/
def lowerCaseClass : ParsedClass := .brackets false [.range 97 122 lowerCase_le (by decide)]

/-- `[A-Z]`. -/
def upperCaseClass : ParsedClass := .brackets false [.range 65 90 (by decide) (by decide)]

theorem lowerCaseClass_points : (lowerCaseClass.emitted true).points = [65, 91, 97, 123] := by
  simp [lowerCaseClass, ParsedClass.emitted, charClass, classUnion, CharRange.crCanonicalize, CharRange.crUnion1,
    CharRange.upperCase, CharRange.lowerCase, CharRange.crOp, CharRange.ofCompressed, crOp, opPoints, addPoint,
    crCompress, compressEnd, CharRangeOp.isIn, ClassItem.toRange, CharRange.interval, CharRange.empty, toUpper]

theorem upperCaseClass_points : (upperCaseClass.emitted true).points = [65, 91] := by
  simp [upperCaseClass, ParsedClass.emitted, charClass, classUnion, CharRange.crCanonicalize, CharRange.crUnion1,
    CharRange.upperCase, CharRange.lowerCase, CharRange.crOp, CharRange.ofCompressed, crOp, opPoints, addPoint,
    crCompress, compressEnd, CharRangeOp.isIn, ClassItem.toRange, CharRange.interval, CharRange.empty]

/-- `[a-z]` follows `lre_canonicalize` without Unicode. -/
theorem lowerCase_follows :
    FollowsCanonicalize (asciiContext false) lowerCaseClass [21, 2, 0, 65, 0, 90, 0, 97, 0, 122, 0] := by
  refine (class_follows_iff (asciiContext false) (asciiContext_canonical false) rfl lowerCaseClass _ ?_).mpr
    fun m _ hin => .inr ⟨rfl, rfl, ?_⟩
  · rw [lowerCaseClass_points]
    rfl
  · obtain ⟨item, hitem, hmem⟩ := mem_classUnion.mp hin
    rw [List.mem_singleton.mp hitem] at hmem
    exact ClassItem.mem_range.mp hmem

/-- `[A-Z]` does not with Unicode: it does not accept `a`. -/
theorem upperCase_not_follows :
    reEmitRange (upperCaseClass.emitted true).points = some [21, 1, 0, 65, 0, 90, 0] ∧
      ¬FollowsCanonicalize (asciiContext true) upperCaseClass [21, 1, 0, 65, 0, 90, 0] := by
  constructor
  · rw [upperCaseClass_points]
    rfl
  · intro hfollows
    have hsame : SameCanonical (asciiContext true) upperCaseClass 97 := by
      refine ⟨65, by decide, mem_classUnion.mpr ⟨_, .head _, ?_⟩, by decide⟩
      exact ClassItem.mem_range.mpr (by decide)
    have hexec := (hfollows 97 (by decide) [] [] []).1 (iff_of_true rfl hsame)
    exact absurd hexec (by decide)

end QuickJs.Regexp
