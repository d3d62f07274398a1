import QuickJs.NormalizeCompose

/-!
# Composition and canonical equivalence

A string is composed and decomposed again. This gives the decomposition of the string, except for the code points
that Hangul composition drops.
-/

namespace QuickJs.Unicode

open BlockSort

variable {T : Tables} {k : Bool} {c : ℕ} {xs ys block src : List ℕ} {st : Last}

/-! ## The order of marks does not matter for what is dropped -/

theorem next_mark (h : T.cc c ≠ 0) : st.next c = .other := by
  have hl : ¬isLead c := fun hl => h (T.jamo_cc c (isJamo_lead hl))
  have hv : ¬(isVowel c ∧ st = .lead) := fun hv => h (T.jamo_cc c (isJamo_vowel hv.1))
  rw [Last.next, if_neg hl, if_neg hv]

theorem meets_mark (h : T.cc c ≠ 0) : st.Meets (c :: xs) ↔ Last.other.Meets xs := by
  rw [Last.Meets, next_mark h]
  refine or_iff_right ?_
  rintro ⟨_, rfl⟩
  exact h (T.jamo_cc 0x11a7 rfl)

theorem meets_marks (h : ∀ c ∈ ys, T.cc c ≠ 0) :
    st.Meets (ys ++ xs) ↔ (if ys = [] then st else Last.other).Meets xs := by
  induction ys generalizing st with
  | nil => rfl
  | cons c ys ih =>
    rw [List.cons_append, meets_mark (h c List.mem_cons_self), ih fun x hx => h x (List.mem_cons_of_mem _ hx),
      if_neg (List.cons_ne_nil c ys), ite_self]

theorem meets_sortFrom (h : ∀ c ∈ block, T.cc c ≠ 0) :
    st.Meets (sortFrom T.cc block xs) ↔ (if block = [] then st else Last.other).Meets xs := by
  induction xs generalizing st block with
  | nil =>
    have hrev : ∀ c ∈ block.reverse, T.cc c ≠ 0 := fun c hc => h c (List.mem_reverse.mp hc)
    rw [sortFrom, ← List.append_nil block.reverse, meets_marks hrev]
    simp only [List.reverse_eq_nil_iff]
  | cons c xs ih =>
    have hrev : ∀ c ∈ block.reverse, T.cc c ≠ 0 := fun c hc => h c (List.mem_reverse.mp hc)
    rw [sortFrom]
    split
    · rw [meets_marks hrev, Last.Meets, Last.Meets, ih fun _ hx => absurd hx List.not_mem_nil, if_pos rfl]
      simp only [List.reverse_eq_nil_iff]
    · next hc =>
      rw [ih fun x hx => ?_, if_neg, meets_mark hc]
      · cases block with
        | nil => exact List.cons_ne_nil _ _
        | cons y block =>
          rw [BlockSort.insert]
          split <;> exact List.cons_ne_nil _ _
      · rcases mem_insert.mp hx with rfl | hx
        · exact hc
        · exact h x hx

theorem swallows_sortCc : Swallows (T.sortCc xs) ↔ Swallows xs :=
  meets_other.symm.trans ((meets_sortFrom fun _ h => absurd h List.not_mem_nil).trans meets_other)

variable {n : UnicodeNormalizationEnum} {rest : List ℕ}

/-! ## Both ways -/

theorem normalize_decomposes (hn : n.decomposes = true) (src : List ℕ) :
    T.unicodeNormalize src n = T.sortCc (T.toNfdRec n.isCompat src) := by
  have hnfc : ¬(n = .nfc ∧ ∀ c ∈ src, c < 0x100) := by
    rintro ⟨rfl, _⟩
    exact nomatch hn
  rw [Tables.unicodeNormalize, if_neg hnfc]
  split
  · next h => exact h.symm
  · next h => exact h.symm
  · next h => rw [if_pos hn, h]

theorem normalize_composes (hn : n.decomposes = false)
    (hlatin : ¬(n = .nfc ∧ ∀ c ∈ src, c < 0x100))
    (hbuf : T.sortCc (T.toNfdRec n.isCompat src) = c :: rest) :
    T.unicodeNormalize src n = (rest.foldl T.composeStep [c]).reverse := by
  rw [Tables.unicodeNormalize, if_neg hlatin, hbuf]
  cases rest with
  | nil => rfl
  | cons c' rest => exact if_neg (Bool.eq_false_iff.mp hn)

/-- The buffer before the first step. -/
theorem composing_init (hbuf : T.sortCc (T.toNfdRec k src) = c :: rest) : Composing T k [c] rest := by
  have hleaf : ∀ x ∈ c :: rest, T.toNfdChar k x = [x] ∧ ¬isSyllable x := by
    intro x hx
    rw [← hbuf] at hx
    obtain ⟨y, _, hx⟩ := List.mem_flatMap.mp (mem_sort.mp hx)
    exact leaf_of_mem hx
  refine ⟨fun x hx => hleaf x (List.mem_cons_of_mem _ hx), fun x hx _ => ?_, ?_⟩
  · rw [List.mem_singleton.mp hx]
    exact (hleaf c List.mem_cons_self).1
  · rw [List.reverse_singleton, List.singleton_append, ← hbuf]
    exact sort_sorted _

theorem roundTrip_iff {d : UnicodeNormalizationEnum} (hn : n.decomposes = false) (hd : d.decomposes = true)
    (hk : d.isCompat = n.isCompat) (hlatin : ¬(n = .nfc ∧ ∀ c ∈ src, c < 0x100)) :
    T.unicodeNormalize (T.unicodeNormalize src n) d = T.unicodeNormalize src d ↔
      ¬Swallows (T.toNfdRec n.isCompat src) := by
  rw [normalize_decomposes hd, normalize_decomposes hd, hk, ← swallows_sortCc]
  cases hbuf : T.sortCc (T.toNfdRec n.isCompat src) with
  | nil =>
    have hempty : T.unicodeNormalize src n = [] := by rw [Tables.unicodeNormalize, if_neg hlatin, hbuf]
    rw [hempty]
    refine iff_of_true rfl ?_
    rintro ⟨_, _, _, _, h⟩
    exact absurd (List.infix_nil.mp h) (List.cons_ne_nil _ _)
  | cons c rest =>
    have hinit := composing_init hbuf
    have hc : T.toNfdRec n.isCompat [c] = [c] := by
      obtain ⟨y, _, hy⟩ := List.mem_flatMap.mp (mem_sort.mp (hbuf ▸ List.mem_cons_self : c ∈ sort T.cc _))
      exact (toNfdRec_cons c []).trans ((List.append_nil _).trans (leaf_of_mem hy).1)
    have hsyl : ¬isLV c := by
      obtain ⟨y, _, hy⟩ := List.mem_flatMap.mp (mem_sort.mp (hbuf ▸ List.mem_cons_self : c ∈ sort T.cc _))
      exact fun hlv => (leaf_of_mem hy).2 (Bool.and_eq_true_iff.mp hlv).1
    have hstart : (lastOf [c]).Meets rest ↔ Swallows (c :: rest) := by
      have hlast : lastOf [c] = Last.other.next c := by
        rw [lastOf, if_neg hsyl, Last.next, if_neg (fun h : _ ∧ Last.other = Last.lead => by cases h.2)]
      rw [← meets_other, hlast]
      exact (or_iff_right fun h => by cases h.1).symm
    rw [normalize_composes hn hlatin hbuf, ← hstart]
    constructor
    · intro heq hmeets
      have hlt := length_decomp_lt hinit hmeets
      have hlen := congrArg List.length heq
      rw [List.reverse_singleton, hc] at hlt
      unfold Tables.sortCc at hlen
      rw [length_sort, List.length_cons] at hlen
      rw [List.length_singleton] at hlt
      omega
    · intro hmeets
      rw [sort_decomp hinit hmeets, List.reverse_singleton, hc, List.singleton_append]
      exact sort_of_sorted (hbuf ▸ sort_sorted _)

/-- NFC and then NFD is NFD, and so for NFKC and NFKD, unless a code point is dropped. Latin-1 is not changed by
NFC. -/
theorem normalize_iff (T : Tables) (src : List ℕ) :
    (T.unicodeNormalize (T.unicodeNormalize src .nfc) .nfd = T.unicodeNormalize src .nfd ↔
      (∀ c ∈ src, c < 0x100) ∨ ¬Swallows (T.toNfdRec false src)) ∧
    (T.unicodeNormalize (T.unicodeNormalize src .nfkc) .nfkd = T.unicodeNormalize src .nfkd ↔
      ¬Swallows (T.toNfdRec true src)) := by
  refine ⟨?_, roundTrip_iff rfl rfl rfl fun h => nomatch h.1⟩
  by_cases hlatin : ∀ c ∈ src, c < 0x100
  · have hnfc : T.unicodeNormalize src .nfc = src := by rw [Tables.unicodeNormalize, if_pos ⟨rfl, hlatin⟩]
    exact iff_of_true (congrArg (T.unicodeNormalize · .nfd) hnfc) (.inl hlatin)
  · rw [or_iff_right hlatin]
    exact roundTrip_iff rfl rfl rfl fun h => hlatin h.2

/-- The tables for `e` with an acute accent. -/
def acuteTables : Tables where
  decompChar c _ := if c = 0xe9 then [0x65, 0x301] else []
  composePair c₀ c₁ := if c₀ = 0x65 ∧ c₁ = 0x301 then 0xe9 else 0
  cc c := if c = 0x301 then 230 else 0
  rank c := if c = 0xe9 then 1 else 0
  rank_lt c _ x h := by
    split at h
    · simp only [List.mem_cons, List.not_mem_nil, or_false] at h
      rcases h with rfl | rfl <;> simp [*]
    · exact absurd h List.not_mem_nil
  jamo_decomp c _ h := by
    refine if_neg ?_
    rintro rfl
    exact absurd h (by decide)
  jamo_cc c h := by
    refine if_neg ?_
    rintro rfl
    exact absurd h (by decide)
  syllable_cc c h := by
    refine if_neg ?_
    rintro rfl
    exact absurd h (by decide)
  pair c₀ c₁ _ h := by
    split at h
    · next hc => rw [if_pos hc, if_pos rfl, hc.1, hc.2]
    · exact absurd rfl h
  pair_cc c₀ c₁ h _ := by
    split at h
    · next hc =>
      rw [if_pos hc]
      rfl
    · exact absurd rfl h
  pair_syllable c₀ c₁ h := by
    split at h
    · next hc =>
      rw [if_pos hc]
      decide
    · exact absurd rfl h
  pair_lead c₀ c₁ h := by
    refine if_neg ?_
    rintro ⟨_, rfl⟩
    exact absurd h (by decide)

theorem toNfdRec_syllable : T.toNfdRec k [0xac00, 0x11a7] = [0x1100, 0x1161, 0x11a7] := by
  have htrail : T.toNfdChar k 0x11a7 = [0x11a7] := toNfdChar_jamo rfl
  rw [toNfdRec_cons, toNfdRec_cons, htrail, Tables.toNfdChar]
  rfl

/-- The syllable U+AC00 swallows U+11A7. -/
theorem syllable_swallows :
    acuteTables.unicodeNormalize (acuteTables.unicodeNormalize [0xac00, 0x11a7] .nfc) .nfd ≠
      acuteTables.unicodeNormalize [0xac00, 0x11a7] .nfd := by
  have hlatin : ¬(UnicodeNormalizationEnum.nfc = .nfc ∧ ∀ c ∈ [0xac00, 0x11a7], c < 0x100) :=
    fun h => absurd (h.2 0xac00 List.mem_cons_self) (by decide)
  intro h
  refine (roundTrip_iff (n := .nfc) (d := .nfd) rfl rfl rfl hlatin).mp h ⟨0x1100, 0x1161, rfl, rfl, ?_⟩
  exact toNfdRec_syllable.symm ▸ List.infix_rfl

end QuickJs.Unicode
