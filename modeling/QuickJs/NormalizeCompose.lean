import QuickJs.Normalize

/-!
# Composing what was decomposed

`compose_pair` takes the code point before the first trailing consonant for a trailing consonant: a syllable without
one swallows it. Everything else that is composed decomposes to what it was, up to the order of marks.
-/

namespace QuickJs.Unicode

open BlockSort

variable {T : Tables} {k : Bool} {c x s p : ℕ} {out out' rest bs : List ℕ}

/-! ## One composition -/

/-- What `compose_pair` makes of a starter and a character that is decomposed. -/
theorem composePair_cases (hc : T.toNfdChar k c = [c]) (hs : T.cc s = 0) (hp : T.composePair' s c ≠ 0) :
    T.cc (T.composePair' s c) = 0 ∧ (isLV s ∧ c = 0x11a7 ∧ T.composePair' s c = s ∨
        ¬(isLV s ∧ c = 0x11a7) ∧ T.toNfdChar k (T.composePair' s c) = T.toNfdChar k s ++ [c]) := by
  unfold Tables.composePair' at hp ⊢
  split at hp
  · next h =>
    obtain ⟨hl, hv⟩ := Bool.and_eq_true_iff.mp h
    have hlead : isJamo s := by rw [isJamo, hl, Bool.true_or, Bool.true_or]
    rw [if_pos h, toNfdChar_jamo hlead]
    simp only [isLead, isVowel, decide_eq_true_eq] at hl hv
    have hsyl : isSyllable (0xac00 + (s - 0x1100) * 588 + (c - 0x1161) * 28) := by
      simp only [isSyllable, decide_eq_true_eq]
      omega
    refine ⟨T.syllable_cc _ hsyl, .inr ⟨fun hlv => by omega, ?_⟩⟩
    rw [Tables.toNfdChar, if_pos hsyl]
    dsimp only
    rw [if_neg (by omega)]
    simp only [List.cons_append, List.nil_append, List.cons.injEq, and_true]
    omega
  rw [if_neg (by assumption)]
  split at hp
  · next h =>
    obtain ⟨hlv, ht⟩ := Bool.and_eq_true_iff.mp h
    rw [if_pos h]
    have hlv' := hlv
    simp only [isLV, isSyllable, Bool.and_eq_true, beq_iff_eq, decide_eq_true_eq] at hlv'
    simp only [isTrail, decide_eq_true_eq] at ht
    have hsyl : isSyllable (s + c - 0x11a7) := by
      simp only [isSyllable, decide_eq_true_eq]
      omega
    refine ⟨T.syllable_cc _ hsyl, ?_⟩
    by_cases hzero : c = 0x11a7
    · exact .inl ⟨hlv, hzero, by omega⟩
    · have hs' : isSyllable s := by
        simp only [isSyllable, decide_eq_true_eq]
        omega
      rw [Tables.toNfdChar, if_pos hsyl, Tables.toNfdChar, if_pos hs']
      dsimp only
      rw [if_pos (by omega), if_neg (by omega)]
      simp only [List.cons_append, List.nil_append, List.cons.injEq, and_true]
      omega
  · next h =>
    rw [if_neg h]
    refine ⟨T.pair_cc s c hp hs, .inr ⟨?_, ?_⟩⟩
    · rintro ⟨hlv, rfl⟩
      exact h (by rw [hlv]; rfl)
    · have hpair := T.pair s c k hp
      have hne : T.decompChar (T.composePair s c) k ≠ [] := hpair ▸ List.cons_ne_nil _ _
      rw [toNfdChar_rec (T.pair_syllable s c hp) hne, hpair, toNfdRec_cons, toNfdRec_cons, hc]
      rfl

/-! ## The last character -/

/-- What the last character of the output is. -/
inductive Last
  | other | lead | leadVowel
  deriving DecidableEq

def lastOf : List ℕ → Last
  | [] => .other
  | c :: _ => if isLead c then .lead else if isLV c then .leadVowel else .other

def Last.next (st : Last) (c : ℕ) : Last :=
  if isLead c then .lead else if isVowel c ∧ st = .lead then .leadVowel else .other

/-- The starter, what comes after it, and why it is not blocked. -/
theorem findStarter_some {last i : ℕ} (h : T.findStarter last out = some i) :
    ∃ bs s before, out = bs ++ s :: before ∧ bs.length = i ∧ T.cc s = 0 ∧ (∀ b ∈ bs, T.cc b ≠ 0) ∧
      ∀ b, bs.head? = some b → T.cc b < last := by
  induction out generalizing last i with
  | nil => exact nomatch h
  | cons c out ih =>
    rw [Tables.findStarter] at h
    split at h
    · next hc => exact ⟨[], c, out, rfl, Option.some.inj h, hc, fun _ hb => absurd hb List.not_mem_nil, nofun⟩
    split at h
    · exact nomatch h
    · next hc hlt =>
      obtain ⟨j, hj, rfl⟩ := Option.map_eq_some_iff.mp h
      obtain ⟨bs, s, before, rfl, rfl, hs, hbs, _⟩ := ih hj
      refine ⟨c :: bs, s, before, rfl, rfl, hs, ?_, ?_⟩
      · intro b hb
        rcases List.mem_cons.mp hb with rfl | hb
        · exact hc
        · exact hbs b hb
      · intro b hb
        obtain rfl := Option.some.inj hb
        exact Nat.not_le.mp hlt

/-- One step puts the character, or composes it with a starter. -/
theorem composeStep_cases (T : Tables) (out : List ℕ) (c : ℕ) : T.composeStep out c = c :: out ∨
      ∃ bs s before, out = bs ++ s :: before ∧ T.composeStep out c = bs ++ T.composePair' s c :: before ∧
        T.composePair' s c ≠ 0 ∧ T.cc s = 0 ∧ (∀ b ∈ bs, T.cc b ≠ 0) ∧ ∀ b, bs.head? = some b → T.cc b < T.cc c := by
  unfold Tables.composeStep
  cases hfind : T.findStarter (T.cc c) out with
  | none => exact .inl rfl
  | some i =>
    obtain ⟨bs, s, before, rfl, rfl, hs, hbs, hhead⟩ := findStarter_some hfind
    have hget : (bs ++ s :: before)[bs.length]? = some s := by
      rw [List.getElem?_append_right (Nat.le_refl _), Nat.sub_self]
      rfl
    dsimp only
    rw [hget]
    dsimp only
    split
    · next hp =>
      refine .inr ⟨bs, s, before, rfl, ?_, hp, hs, hbs, hhead⟩
      rw [List.set_append_right _ _ (Nat.le_refl _), Nat.sub_self, List.set_cons_zero]
    · exact .inl rfl

/-- A starter and the character after it are composed if they can be. -/
theorem composeStep_starter (hs : T.cc s = 0) (hp : T.composePair' s c ≠ 0) :
    T.composeStep (s :: out) c = T.composePair' s c :: out := by
  rw [Tables.composeStep, Tables.findStarter, if_pos hs]
  exact if_pos hp

/-! ## The loop -/

/-- What holds between two steps. -/
structure Composing (T : Tables) (k : Bool) (out rest : List ℕ) : Prop where
  leaf : ∀ x ∈ rest, T.toNfdChar k x = [x] ∧ ¬isSyllable x
  marks : ∀ x ∈ out, T.cc x ≠ 0 → T.toNfdChar k x = [x]
  sorted : (out.reverse ++ rest).IsChain (Follows T.cc)

/-- The character is dropped. -/
def Drops (out : List ℕ) (c : ℕ) : Prop := lastOf out = .leadVowel ∧ c = 0x11a7

theorem lastOf_leadVowel : lastOf out = .leadVowel ↔ ∃ s before, out = s :: before ∧ isLV s := by
  cases out with
  | nil => exact iff_of_false (by rintro ⟨⟩) (by simp)
  | cons s before =>
    have hnot : isLV s → ¬isLead s := by
      simp only [isLV, isSyllable, isLead, Bool.and_eq_true, decide_eq_true_eq]
      omega
    rw [lastOf]
    constructor
    · intro h
      refine ⟨s, before, rfl, ?_⟩
      split at h
      · cases h
      · by_contra hlv
        rw [if_neg hlv] at h
        cases h
    · rintro ⟨_, _, heq, hlv⟩
      obtain ⟨rfl, rfl⟩ := List.cons.inj heq
      rw [if_neg (hnot hlv), if_pos hlv]

theorem lastOf_lead : lastOf out = .lead ↔ ∃ s before, out = s :: before ∧ isLead s := by
  cases out with
  | nil => exact iff_of_false nofun nofun
  | cons s before =>
    rw [lastOf]
    constructor
    · intro h
      refine ⟨s, before, rfl, ?_⟩
      by_contra hl
      rw [if_neg hl] at h
      split at h <;> exact nomatch h
    · rintro ⟨_, _, heq, hl⟩
      obtain ⟨rfl, rfl⟩ := List.cons.inj heq
      rw [if_pos hl]

theorem isJamo_lead (h : isLead c) : isJamo c := by rw [isJamo, h, Bool.true_or, Bool.true_or]

theorem isJamo_vowel (h : isVowel c) : isJamo c := by rw [isJamo, h, Bool.or_true, Bool.true_or]

theorem isLV_cc (h : isLV c) : T.cc c = 0 := T.syllable_cc c (Bool.and_eq_true_iff.mp h).1

/-- A character that is dropped leaves everything as it was. -/
theorem composeStep_drops (h : Drops out c) : T.composeStep out c = out := by
  obtain ⟨hlast, rfl⟩ := h
  obtain ⟨s, before, rfl, hlv⟩ := lastOf_leadVowel.mp hlast
  have hsyl : 0xac00 ≤ s := by
    simp only [isLV, isSyllable, Bool.and_eq_true, decide_eq_true_eq] at hlv
    omega
  have hnot : ¬(isLead s && isVowel 0x11a7) := by simp [isVowel]
  have hpair : T.composePair' s 0x11a7 = s := by
    rw [Tables.composePair', if_neg hnot, if_pos (by rw [hlv]; rfl), Nat.add_sub_cancel]
  rw [composeStep_starter (isLV_cc hlv) (by omega), hpair]

/-- A lead consonant and a vowel are composed. -/
theorem composeStep_vowel (h : lastOf out = .lead) (hv : isVowel c) : lastOf (T.composeStep out c) = .leadVowel := by
  obtain ⟨s, before, rfl, hl⟩ := lastOf_lead.mp h
  have hboth : (isLead s && isVowel c) = true := by rw [hl, hv]; rfl
  have hpair : T.composePair' s c = 0xac00 + (s - 0x1100) * 588 + (c - 0x1161) * 28 := by
    rw [Tables.composePair', if_pos hboth]
  rw [composeStep_starter (T.jamo_cc s (isJamo_lead hl)) (by omega)]
  refine lastOf_leadVowel.mpr ⟨_, before, rfl, ?_⟩
  simp only [isLead, isVowel, decide_eq_true_eq] at hl hv
  simp only [isLV, isSyllable, Bool.and_eq_true, decide_eq_true_eq, beq_iff_eq]
  omega

/-- What a table makes is no Hangul, and nothing is composed with a lead consonant after it. -/
theorem lastOf_composed (hc : T.toNfdChar k c = [c]) (hs : T.cc s = 0) (hp : T.composePair' s c ≠ 0)
    (hdrop : ¬(isLV s ∧ c = 0x11a7)) (hnotV : ¬(isLead s ∧ isVowel c)) (before : List ℕ) :
    lastOf (T.composePair' s c :: before) = .other ∧ ¬isLead c := by
  have hlead : ¬isLead c := by
    intro hl
    have hl' := hl
    simp only [isLead, decide_eq_true_eq] at hl'
    refine hp ?_
    unfold Tables.composePair'
    rw [if_neg, if_neg, T.pair_lead s c hl]
    · simp only [isTrail, Bool.and_eq_true, decide_eq_true_eq]
      omega
    · simp only [Bool.and_eq_true]
      omega
  refine ⟨?_, hlead⟩
  obtain ⟨_, hdec⟩ := composePair_cases hc hs hp
  obtain ⟨_, hdec⟩ := hdec.resolve_left fun h => hdrop ⟨h.1, h.2.1⟩
  -- a lead consonant would be decomposed, and so would not come from two characters
  have hnotLead : ¬isLead (T.composePair' s c) := by
    intro hl
    rw [toNfdChar_jamo (isJamo_lead hl)] at hdec
    have hnil : T.toNfdChar k s = [] := by
      have hlen := congrArg List.length hdec
      rw [List.length_singleton, List.length_append, List.length_singleton] at hlen
      exact List.length_eq_zero_iff.mp (by omega)
    rw [hnil] at hdec
    exact hlead ((List.cons.inj hdec).1 ▸ hl)
  have hnotLV : ¬isLV (T.composePair' s c) := by
    intro hlv
    unfold Tables.composePair' at hp hlv
    split at hlv
    · next h => exact hnotV (Bool.and_eq_true_iff.mp h)
    split at hlv
    · next h =>
      obtain ⟨h1, h2⟩ := Bool.and_eq_true_iff.mp h
      simp only [isLV, isSyllable, isTrail, Bool.and_eq_true, decide_eq_true_eq, beq_iff_eq] at h1 h2 hlv
      refine hdrop ⟨?_, by omega⟩
      simp only [isLV, isSyllable, Bool.and_eq_true, decide_eq_true_eq, beq_iff_eq]
      exact h1
    · next h1 h2 =>
      rw [if_neg h1, if_neg h2] at hp
      exact T.pair_syllable s c hp (Bool.and_eq_true_iff.mp hlv).1
  rw [lastOf, if_neg hnotLead, if_neg hnotLV]

theorem lastOf_mark (h : T.cc x ≠ 0) (xs : List ℕ) : lastOf (x :: xs) = .other := by
  rw [lastOf, if_neg fun hl => h (T.jamo_cc x (isJamo_lead hl)), if_neg fun hlv => h (isLV_cc hlv)]

theorem composeStep_last (h : Composing T k out (c :: rest)) (hdrop : ¬Drops out c) :
    lastOf (T.composeStep out c) = (lastOf out).next c := by
  obtain ⟨hc, hsyl⟩ := h.leaf c List.mem_cons_self
  by_cases hv : isVowel c ∧ lastOf out = .lead
  · have hnot : ¬isLead c := by
      have := hv.1
      simp only [isVowel, isLead, decide_eq_true_eq] at this ⊢
      omega
    rw [composeStep_vowel hv.2 hv.1, Last.next, if_neg hnot, if_pos hv]
  rw [Last.next, if_neg hv]
  rcases composeStep_cases T out c with hpush | ⟨bs, s, before, rfl, hstep, hp, hs, hbs, hhead⟩
  · have hlv : ¬isLV c := fun hlv => hsyl (Bool.and_eq_true_iff.mp hlv).1
    rw [hpush, lastOf, if_neg hlv]
  rw [hstep]
  cases bs with
  | nil =>
    have hdrop' : ¬(isLV s ∧ c = 0x11a7) := fun hd => hdrop ⟨lastOf_leadVowel.mpr ⟨s, before, rfl, hd.1⟩, hd.2⟩
    have hv' : ¬(isLead s ∧ isVowel c) := fun hl => hv ⟨hl.2, lastOf_lead.mpr ⟨s, before, rfl, hl.1⟩⟩
    obtain ⟨hother, hlead⟩ := lastOf_composed hc hs hp hdrop' hv' before
    rw [List.nil_append, hother, if_neg hlead]
  | cons b bs =>
    have hlt := hhead b rfl
    have hlead : ¬isLead c := fun hl => by
      rw [T.jamo_cc c (isJamo_lead hl)] at hlt
      exact Nat.not_lt_zero _ hlt
    rw [List.cons_append, lastOf_mark (hbs b List.mem_cons_self), if_neg hlead]

/-! ## Marks between a starter and what is composed with it -/

theorem marks_lt (hchain : (bs.reverse).IsChain (Follows T.cc)) (hbs : ∀ b ∈ bs, T.cc b ≠ 0)
    (hhead : ∀ b, bs.head? = some b → T.cc b < T.cc c) : ∀ b ∈ bs.reverse, T.cc b ≠ 0 ∧ T.cc b < T.cc c := by
  intro b hb
  have hb' := List.mem_reverse.mp hb
  refine ⟨hbs b hb', ?_⟩
  cases bs with
  | nil => exact absurd hb' List.not_mem_nil
  | cons b₀ bs =>
    have hle : (bs.reverse ++ [b₀]).Pairwise fun x y => T.cc x ≤ T.cc y := by
      rw [← List.reverse_cons]
      have hnonzero : ∀ x ∈ (b₀ :: bs).reverse, T.cc x ≠ 0 := fun x hx => hbs x (List.mem_reverse.mp hx)
      have hmono : ((b₀ :: bs).reverse).IsChain fun x y => T.cc x ≤ T.cc y :=
        hchain.imp_of_mem_imp fun x y hx hy hf => hf.resolve_left (hnonzero y hy)
      exact hmono.pairwise
    have hlast := hhead b₀ rfl
    rcases List.mem_cons.mp hb' with rfl | hmem
    · exact hlast
    · exact Nat.lt_of_le_of_lt
        ((List.pairwise_append.mp hle).2.2 b (List.mem_reverse.mpr hmem) b₀ (List.mem_singleton.mpr rfl)) hlast

theorem toNfdRec_leaves {xs : List ℕ} (h : ∀ x ∈ xs, T.toNfdChar k x = [x]) : T.toNfdRec k xs = xs := by
  induction xs with
  | nil => rfl
  | cons x xs ih =>
    rw [toNfdRec_cons, h x List.mem_cons_self, ih fun y hy => h y (List.mem_cons_of_mem _ hy)]
    rfl

/-- A starter that takes the character after its marks. -/
theorem sorted_compose {before : List ℕ} (hsorted : (before ++ s :: (bs ++ c :: rest)).IsChain (Follows T.cc))
    (hp : T.cc p = 0) (hbs : ∀ b ∈ bs, T.cc b ≠ 0 ∧ T.cc b < T.cc c) :
    (before ++ p :: (bs ++ rest)).IsChain (Follows T.cc) := by
  obtain ⟨hbefore, hs, _⟩ := List.isChain_append.mp hsorted
  obtain ⟨hmarks, hc, _⟩ := List.isChain_append.mp hs.tail
  obtain ⟨hnext, hrest⟩ := List.isChain_cons.mp hc
  refine hbefore.append (List.isChain_cons.mpr ⟨fun y _ => ?_, hmarks.append hrest fun x hx y hy => ?_⟩)
    fun x _ y hy => ?_
  · exact .inr (hp ▸ Nat.zero_le _)
  · have hlt := (hbs x (List.mem_of_mem_getLast? hx)).2
    exact (hnext y hy).imp_right (Nat.le_trans (Nat.le_of_lt hlt))
  · obtain rfl := Option.some.inj hy
    exact .inl hp

/-- A step keeps the decomposition, unless it drops the character. -/
theorem composeStep_composing (h : Composing T k out (c :: rest)) :
    Composing T k (T.composeStep out c) rest ∧ (¬Drops out c →
      T.sortCc (T.toNfdRec k (T.composeStep out c).reverse ++ rest) =
        T.sortCc (T.toNfdRec k out.reverse ++ c :: rest)) := by
  obtain ⟨hc, _⟩ := h.leaf c List.mem_cons_self
  have hleaf : ∀ x ∈ rest, T.toNfdChar k x = [x] ∧ ¬isSyllable x := fun x hx => h.leaf x (List.mem_cons_of_mem _ hx)
  rcases composeStep_cases T out c with hpush | ⟨bs, s, before, rfl, hstep, hp, hs, hbs, hhead⟩
  · rw [hpush, List.reverse_cons]
    refine ⟨⟨hleaf, fun x hx hne => ?_, ?_⟩, fun _ => ?_⟩
    · rcases List.mem_cons.mp hx with rfl | hx
      · exact hc
      · exact h.marks x hx hne
    · rw [List.reverse_cons, List.append_assoc]
      exact h.sorted
    · rw [toNfdRec_append, toNfdRec_cons, hc, List.append_assoc]
      rfl
  have hrev : ∀ x, (bs ++ x :: before).reverse = before.reverse ++ x :: bs.reverse := fun x => by
    rw [List.reverse_append, List.reverse_cons, List.append_assoc, List.singleton_append]
  have hsorted := h.sorted
  rw [hrev, List.append_assoc] at hsorted
  have hchain : bs.reverse.IsChain (Follows T.cc) :=
    (List.isChain_append.mp (List.isChain_append.mp hsorted).2.1.tail).1
  have hlt := marks_lt hchain hbs hhead
  obtain ⟨hpcc, hcases⟩ := composePair_cases hc hs hp
  rw [hstep]
  refine ⟨⟨hleaf, fun x hx hne => ?_, ?_⟩, fun hdrop => ?_⟩
  · rcases List.mem_append.mp hx with hx | hx
    · exact h.marks x (List.mem_append_left _ hx) hne
    · rcases List.mem_cons.mp hx with rfl | hx
      · exact absurd hpcc hne
      · exact h.marks x (List.mem_append_right _ (List.mem_cons_of_mem _ hx)) hne
  · rw [hrev, List.append_assoc]
    exact sorted_compose hsorted hpcc hlt
  · have hdec : T.toNfdChar k (T.composePair' s c) = T.toNfdChar k s ++ [c] := by
      refine (hcases.resolve_left fun ⟨hlv, hzero, _⟩ => hdrop ⟨?_, hzero⟩).2
      -- nothing is between the syllable and what it swallows
      cases bs with
      | nil => exact lastOf_leadVowel.mpr ⟨s, before, rfl, hlv⟩
      | cons b bs =>
        have hlt := hhead b rfl
        rw [T.jamo_cc c (hzero ▸ rfl)] at hlt
        exact absurd hlt (Nat.not_lt_zero _)
    have hmarks : T.toNfdRec k bs.reverse = bs.reverse := toNfdRec_leaves fun b hb =>
      h.marks b (List.mem_append_left _ (List.mem_reverse.mp hb)) (hlt b hb).1
    have hmove : sort T.cc (T.toNfdRec k before.reverse ++ T.toNfdChar k s ++ (bs.reverse ++ c :: rest)) =
        sort T.cc (T.toNfdRec k before.reverse ++ T.toNfdChar k s ++ c :: (bs.reverse ++ rest)) := sort_move hlt _
    rw [hrev, hrev, toNfdRec_append, toNfdRec_append, toNfdRec_cons, toNfdRec_cons, hdec, hmarks]
    simp only [List.append_assoc] at hmove ⊢
    exact hmove.symm

/-! ## Characters that are dropped -/

/-- A lead consonant, a vowel and the code point before the first trailing consonant. -/
def Swallows (xs : List ℕ) : Prop := ∃ l v, isLead l ∧ isVowel v ∧ [l, v, 0x11a7] <:+: xs

/-- A character is dropped in `xs`, after what `st` stands for. -/
def Last.Meets : Last → List ℕ → Prop
  | _, [] => False
  | st, c :: xs => st = .leadVowel ∧ c = 0x11a7 ∨ (st.next c).Meets xs

variable {st : Last} {xs : List ℕ}

theorem next_lead : st.next c = .lead ↔ isLead c := by
  rw [Last.next]
  split
  · next h => exact iff_of_true rfl h
  · next h =>
    refine iff_of_false ?_ h
    split <;> exact nofun

theorem next_leadVowel : st.next c = .leadVowel ↔ isVowel c ∧ st = .lead := by
  have hnot : isVowel c → ¬isLead c := by
    simp only [isVowel, isLead, decide_eq_true_eq]
    omega
  rw [Last.next]
  split
  · next h => exact iff_of_false (by rintro ⟨⟩) fun hv => hnot hv.1 h
  split
  · next h => exact iff_of_true rfl h
  · next h => exact iff_of_false (by rintro ⟨⟩) h

theorem swallows_cons : Swallows (c :: xs) ↔
    Swallows xs ∨ isLead c ∧ ∃ v, isVowel v ∧ [v, 0x11a7] <+: xs := by
  constructor
  · rintro ⟨l, v, hl, hv, hin⟩
    rcases List.infix_cons_iff.mp hin with hpre | hin
    · obtain ⟨rfl, htail⟩ := List.cons_prefix_cons.mp hpre
      exact .inr ⟨hl, v, hv, htail⟩
    · exact .inl ⟨l, v, hl, hv, hin⟩
  · rintro (⟨l, v, hl, hv, hin⟩ | ⟨hl, v, hv, hpre⟩)
    · exact ⟨l, v, hl, hv, List.infix_cons_iff.mpr (.inr hin)⟩
    · exact ⟨c, v, hl, hv, List.infix_cons_iff.mpr (.inl (List.cons_prefix_cons.mpr ⟨rfl, hpre⟩))⟩

theorem meets_iff : st.Meets xs ↔
    Swallows xs ∨ st = .lead ∧ (∃ v, isVowel v ∧ [v, 0x11a7] <+: xs) ∨ st = .leadVowel ∧ [0x11a7] <+: xs := by
  induction xs generalizing st with
  | nil =>
    refine iff_of_false not_false ?_
    rintro (⟨_, _, _, _, h⟩ | ⟨_, _, _, h⟩ | ⟨_, h⟩)
    · exact absurd (List.infix_nil.mp h) (List.cons_ne_nil _ _)
    · exact absurd (List.prefix_nil.mp h) (List.cons_ne_nil _ _)
    · exact absurd (List.prefix_nil.mp h) (List.cons_ne_nil _ _)
  | cons c xs ih =>
    have hfirst : [0x11a7] <+: c :: xs ↔ c = 0x11a7 := by
      rw [List.cons_prefix_cons]
      exact ⟨fun h => h.1.symm, fun h => ⟨h.symm, List.nil_prefix⟩⟩
    have hsecond : (∃ v, isVowel v ∧ [v, 0x11a7] <+: c :: xs) ↔ isVowel c ∧ [0x11a7] <+: xs := by
      constructor
      · rintro ⟨v, hv, h⟩
        obtain ⟨rfl, htail⟩ := List.cons_prefix_cons.mp h
        exact ⟨hv, htail⟩
      · rintro ⟨hv, h⟩
        exact ⟨c, hv, List.cons_prefix_cons.mpr ⟨rfl, h⟩⟩
    rw [Last.Meets, ih, next_lead, next_leadVowel, swallows_cons, hfirst, hsecond]
    constructor
    · rintro (h | h | h | ⟨⟨hv, hst⟩, h⟩)
      · exact .inr (.inr h)
      · exact .inl (.inl h)
      · exact .inl (.inr h)
      · exact .inr (.inl ⟨hst, hv, h⟩)
    · rintro ((h | h) | ⟨hst, hv, h⟩ | h)
      · exact .inr (.inl h)
      · exact .inr (.inr (.inl h))
      · exact .inr (.inr (.inr ⟨⟨hv, hst⟩, h⟩))
      · exact .inl h

theorem meets_other : Last.other.Meets xs ↔ Swallows xs :=
  meets_iff.trans (or_iff_left (by rintro (⟨h, _⟩ | ⟨h, _⟩) <;> exact nomatch h))

/-! ## The whole loop -/

theorem length_decomp_step (h : Composing T k out (c :: rest)) :
    (T.toNfdRec k (T.composeStep out c).reverse).length ≤ (T.toNfdRec k out.reverse).length + 1 := by
  by_cases hdrop : Drops out c
  · rw [composeStep_drops hdrop]
    exact Nat.le_succ _
  · have hlen := congrArg List.length ((composeStep_composing h).2 hdrop)
    unfold Tables.sortCc at hlen
    rw [length_sort, length_sort, List.length_append, List.length_append, List.length_cons] at hlen
    omega

theorem length_decomp (h : Composing T k out rest) :
    (T.toNfdRec k (rest.foldl T.composeStep out).reverse).length ≤ (T.toNfdRec k out.reverse).length + rest.length := by
  induction rest generalizing out with
  | nil => exact Nat.le_refl _
  | cons c rest ih =>
    have hstep := length_decomp_step h
    have hrun := ih (composeStep_composing h).1
    rw [List.foldl_cons, List.length_cons]
    omega

/-- A character that is dropped is missing in the end. -/
theorem length_decomp_lt (h : Composing T k out rest) (hmeets : (lastOf out).Meets rest) :
    (T.toNfdRec k (rest.foldl T.composeStep out).reverse).length < (T.toNfdRec k out.reverse).length + rest.length := by
  induction rest generalizing out with
  | nil => exact absurd hmeets not_false
  | cons c rest ih =>
    have h' := (composeStep_composing h).1
    rw [List.foldl_cons, List.length_cons]
    by_cases hdrop : Drops out c
    · have hrun := length_decomp h'
      rw [composeStep_drops hdrop] at hrun ⊢
      omega
    · have hrun := ih h' (composeStep_last h hdrop ▸ hmeets.resolve_left hdrop)
      have hstep := length_decomp_step h
      omega

theorem sort_decomp (h : Composing T k out rest) (hmeets : ¬(lastOf out).Meets rest) :
    T.sortCc (T.toNfdRec k (rest.foldl T.composeStep out).reverse) = T.sortCc (T.toNfdRec k out.reverse ++ rest) := by
  induction rest generalizing out with
  | nil => rw [List.append_nil]; rfl
  | cons c rest ih =>
    have hdrop : ¬Drops out c := fun hd => hmeets (.inl hd)
    obtain ⟨h', hsort⟩ := composeStep_composing h
    rw [List.foldl_cons, ih h' fun hm => hmeets (.inr (composeStep_last h hdrop ▸ hm)), hsort hdrop]

end QuickJs.Unicode
