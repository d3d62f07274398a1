import Mathlib.Tactic.Linarith
import QuickJs.JsonToken

/-!
# What the scanner of strings accepts

It takes exactly the strings of the wide lexicon: what it takes is derived (`_sound`), and what is
derived it takes, as far as it goes (`_complete`).
-/

namespace QuickJs.Json

open Utf8 Rounds

variable {c n r : ℕ} {d : Char} {p rest h s : List Char} {u : List UInt16}

section Escapes

theorem hexFixed_eq_some :
    hexFixed n c p = some (r, rest) ↔ ∃ h, h.length = n ∧ hexFrom c h = some r ∧ p = h ++ rest := by
  induction n generalizing c p with
  | zero =>
    constructor
    · intro hp
      obtain ⟨rfl, rfl⟩ := Prod.mk.inj (Option.some.inj hp)
      exact ⟨[], rfl, rfl, rfl⟩
    · rintro ⟨h, hlen, hfrom, rfl⟩
      obtain rfl := List.length_eq_zero_iff.mp hlen
      obtain rfl := Option.some.inj hfrom
      rfl
  | succ n ih =>
    constructor
    · intro hp
      cases p with
      | nil => cases hp
      | cons d p =>
        obtain ⟨v, hv, hp⟩ := Option.bind_eq_some_iff.mp hp
        obtain ⟨h, hlen, hfrom, rfl⟩ := ih.mp hp
        refine ⟨d :: h, congrArg Nat.succ hlen, ?_, rfl⟩
        rw [hexFrom, hv, Option.bind_some, hfrom]
    · rintro ⟨h, hlen, hfrom, rfl⟩
      cases h with
      | nil => cases hlen
      | cons d h =>
        obtain ⟨v, hv, hfrom⟩ := Option.bind_eq_some_iff.mp hfrom
        rw [List.cons_append, hexFixed, hv]
        exact ih.mpr ⟨h, Nat.succ.inj hlen, hfrom, rfl⟩

theorem le_of_hexFrom (hr : hexFrom c h = some r) : c ≤ r := by
  induction h generalizing c with
  | nil => exact (Option.some.inj hr).le
  | cons d h ih =>
    obtain ⟨v, _, hr⟩ := Option.bind_eq_some_iff.mp hr
    have hle := ih hr
    omega

theorem hexBraced_sound (hp : hexBraced c p = some (r, rest)) :
    ∃ h, h ≠ [] ∧ hexFrom c h = some r ∧ r ≤ 0x10ffff ∧ p = h ++ '}' :: rest := by
  induction p generalizing c with
  | nil => cases hp
  | cons d p ih =>
    rw [hexBraced] at hp
    obtain ⟨v, hv, hp⟩ := Option.bind_eq_some_iff.mp hp
    split at hp
    · cases hp
    · rename_i hle
      split at hp
      · obtain ⟨rfl, rfl⟩ := Prod.mk.inj (Option.some.inj hp)
        refine ⟨[d], List.cons_ne_nil _ _, ?_, Nat.le_of_not_lt hle, rfl⟩
        rw [hexFrom, hv, Option.bind_some, hexFrom]
      · obtain ⟨h, _, hfrom, hr, rfl⟩ := ih hp
        refine ⟨d :: h, List.cons_ne_nil _ _, ?_, hr, rfl⟩
        rw [hexFrom, hv, Option.bind_some, hfrom]

theorem hexBraced_complete (hh : h ≠ []) (hfrom : hexFrom c h = some r) (hr : r ≤ 0x10ffff) :
    hexBraced c (h ++ '}' :: rest) = some (r, rest) := by
  induction h generalizing c with
  | nil => exact absurd rfl hh
  | cons d h ih =>
    obtain ⟨v, hv, hfrom⟩ := Option.bind_eq_some_iff.mp hfrom
    have hle : ¬ 0x10ffff < c * 16 + v := by
      have hle := le_of_hexFrom hfrom
      omega
    rw [List.cons_append, hexBraced, hv, Option.bind_some, if_neg hle]
    cases h with
    | nil =>
      obtain rfl := Option.some.inj hfrom
      rfl
    | cons e h =>
      -- the next character is a digit, so the braces are not closed yet
      have he : e ≠ '}' := by
        rintro rfl
        cases hfrom
      have hnext := ih (List.cons_ne_nil _ _) hfrom
      split
      · rename_i q heq
        exact absurd (List.cons.inj heq).1 he
      · exact hnext

theorem Escape.ofOption_eq_char {o : Option (ℕ × List Char)} :
    Escape.ofOption o = .char r rest ↔ o = some (r, rest) := by
  cases o with
  | none => simp [Escape.ofOption]
  | some v => simp [Escape.ofOption, Prod.ext_iff]

theorem Escape.ofOption_ne_unknown {o : Option (ℕ × List Char)} : Escape.ofOption o ≠ .unknown := by
  cases o with
  | none => exact nofun
  | some v => exact nofun

/-- An escape of `x` or `u` without braces. -/
theorem lreParseEscape_hex (hd : d = 'x' ∨ d = 'u') (hp : p.head? ≠ some '{') :
    lreParseEscape (d :: p) = .ofOption (hexFixed (if d = 'x' then 2 else 4) 0 p) := by
  obtain rfl | rfl := hd
  all_goals
    rw [lreParseEscape]
    · rfl
    · rintro q rfl
      exact hp rfl

/-- And one with braces. -/
theorem lreParseEscape_braced (hd : d = 'x' ∨ d = 'u') :
    lreParseEscape (d :: '{' :: p) = .ofOption (hexBraced 0 p) := by
  obtain rfl | rfl := hd
  all_goals rfl

theorem head?_of_hexFrom (hn : h.length = n + 1) (hr : hexFrom c h = some r) : (h ++ p).head? ≠ some '{' := by
  cases h with
  | nil => cases hn
  | cons d h =>
    intro hhead
    obtain rfl := Option.some.inj hhead
    cases hr

theorem isDigit_of_octal (hd : '0' ≤ d ∧ d ≤ '7') : d.isDigit = true := by
  obtain ⟨h0, h7⟩ := hd
  rw [Char.isDigit, Bool.and_eq_true, decide_eq_true_iff, decide_eq_true_iff]
  exact ⟨h0, UInt32.le_iff_toNat_le.mpr (Nat.le_trans h7 (by decide))⟩

theorem lreParseEscape_sound (hd : ¬ d.isDigit) (he : lreParseEscape (d :: p) = .char c rest) :
    ∃ s, d :: p = s ++ rest ∧ Lexicon.wide.character ('\\' :: s) (stringBufferPutc c) := by
  have hletter : ∀ {e k}, d = e → Escape.char k p = .char c rest →
      Lexicon.wide.character ['\\', e] (stringBufferPutc k) →
      ∃ s, d :: p = s ++ rest ∧ Lexicon.wide.character ('\\' :: s) (stringBufferPutc c) := by
    rintro e k rfl hchar h
    obtain ⟨rfl, rfl⟩ := Escape.char.inj hchar
    exact ⟨[d], rfl, h⟩
  rw [lreParseEscape.eq_def] at he
  simp only at he
  split at he
  · exact hletter ‹_› he (.inl (.short (by decide)))
  split at he
  · exact hletter ‹_› he (.inl (.short (by decide)))
  split at he
  · exact hletter ‹_› he (.inl (.short (by decide)))
  split at he
  · exact hletter ‹_› he (.inl (.short (by decide)))
  split at he
  · exact hletter ‹_› he (.inl (.short (by decide)))
  split at he
  · exact hletter ‹_› he (.inr .verticalTab)
  split at he
  · rename_i hxu
    split at he
    · obtain ⟨h, hne, hfrom, hle, rfl⟩ := hexBraced_sound (Escape.ofOption_eq_char.mp he)
      refine ⟨d :: '{' :: h ++ ['}'], ?_, .inr (.braced hxu hne hfrom hle)⟩
      rw [List.append_assoc]
      rfl
    · obtain ⟨h, hlen, hfrom, rfl⟩ := hexFixed_eq_some.mp (Escape.ofOption_eq_char.mp he)
      refine ⟨d :: h, rfl, ?_⟩
      obtain rfl | rfl := hxu
      · exact .inr (.hex hlen hfrom)
      · exact .inl (.hex hlen hfrom)
  split at he
  · exact absurd (isDigit_of_octal ‹_›) hd
  · cases he

theorem lreParseEscape_unknown (he : lreParseEscape (d :: p) = .unknown) :
    d ∉ ['b', 'f', 'n', 'r', 't', 'v', 'x', 'u'] := by
  intro hd
  simp only [List.mem_cons, List.not_mem_nil, or_false] at hd
  rcases hd with rfl | rfl | rfl | rfl | rfl | rfl | hxu
  any_goals cases he
  by_cases hp : p.head? = some '{'
  · obtain ⟨q, rfl⟩ := List.head?_eq_some_iff.mp hp
    rw [lreParseEscape_braced hxu] at he
    exact Escape.ofOption_ne_unknown he
  · rw [lreParseEscape_hex hxu hp] at he
    exact Escape.ofOption_ne_unknown he

theorem lreParseEscape_other (hdigit : ¬ d.isDigit)
    (hd : d ∉ ['b', 'f', 'n', 'r', 't', 'v', 'x', 'u']) : lreParseEscape (d :: p) = .unknown := by
  simp only [List.mem_cons, not_or] at hd
  obtain ⟨hb, hf, hn, hr, ht, hv, hx, hu⟩ := hd
  have hoctal : ¬ ('0' ≤ d ∧ d ≤ '7') := fun h => hdigit (isDigit_of_octal h)
  rw [lreParseEscape.eq_def]
  simp only [hb, hf, hn, hr, ht, hv, hx, hu, hoctal, or_self, if_false]

end Escapes

section Characters

theorem scanUtf8_complete (hc : c ≤ 0x10ffff) : scanUtf8 (unicodeToUtf8 c ++ rest) = .ok (c, rest) := by
  rw [scanUtf8, unicodeFromUtf8_unicodeToUtf8 hc]
  exact if_neg (by omega)

theorem scanUtf8_sound (hd : 0x80 ≤ d.toNat) (hp : scanUtf8 (d :: p) = .ok (c, rest)) :
    d :: p = unicodeToUtf8 c ++ rest ∧ 0x80 ≤ c ∧ c ≤ 0x10ffff := by
  rw [scanUtf8] at hp
  split at hp
  · rename_i hdecode
    split at hp
    · cases hp
    · rename_i hle
      obtain ⟨rfl, rfl⟩ := Prod.mk.inj (Except.ok.inj hp)
      have heq := eq_of_unicodeFromUtf8 hdecode
      refine ⟨heq, ?_, Nat.le_of_not_lt hle⟩
      by_contra hlt
      rw [unicodeToUtf8_ascii (Nat.lt_of_not_le hlt)] at heq
      obtain ⟨rfl, _⟩ := List.cons.inj heq
      rw [toNat_byte (by omega)] at hd
      exact hlt hd
  · cases hp

theorem scanEscape_sound (hp : scanEscape p = .ok (u, rest)) :
    ∃ s, p = s ++ rest ∧ Lexicon.wide.character ('\\' :: s) u := by
  cases p with
  | nil => cases hp
  | cons d p =>
    rw [scanEscape.eq_def] at hp
    simp only at hp
    split at hp
    · rename_i hself
      obtain ⟨rfl, rfl⟩ := Prod.mk.inj (Except.ok.inj hp)
      refine ⟨[d], rfl, ?_⟩
      obtain hzero | rfl | rfl | rfl := hself
      · have hd : d = Char.ofNat 0 := by rw [← hzero, Char.ofNat_toNat]
        subst hd
        exact .inr (.itself (by decide) (by decide) (by decide))
      · exact .inr (.itself (by decide) (by decide) (by decide))
      · exact .inl (.short (by decide))
      · exact .inl (.short (by decide))
    rename_i hself
    split at hp
    · subst d
      split at hp
      · obtain ⟨rfl, rfl⟩ := Prod.mk.inj (Except.ok.inj hp)
        exact ⟨['\r', '\n'], rfl, .inr (.newline (by decide))⟩
      · obtain ⟨rfl, rfl⟩ := Prod.mk.inj (Except.ok.inj hp)
        exact ⟨['\r'], rfl, .inr (.newline (by decide))⟩
    split at hp
    · subst d
      obtain ⟨rfl, rfl⟩ := Prod.mk.inj (Except.ok.inj hp)
      exact ⟨['\n'], rfl, .inr (.newline (by decide))⟩
    split at hp
    · cases hp
    rename_i hdigit
    split at hp
    · rename_i hascii
      obtain ⟨⟨c, r⟩, hscan, hp⟩ := bind_eq_ok hp
      obtain ⟨heq, hc, hle⟩ := scanUtf8_sound hascii hscan
      refine ⟨unicodeToUtf8 c, ?_, ?_⟩
      · split at hp
        all_goals
          obtain ⟨_, rfl⟩ := Prod.mk.inj (Except.ok.inj hp)
          exact heq
      · split at hp
        · rename_i hsep
          obtain ⟨rfl, _⟩ := Prod.mk.inj (Except.ok.inj hp)
          exact .inr (.separator (by simpa using hsep))
        · rename_i hsep
          obtain ⟨rfl, _⟩ := Prod.mk.inj (Except.ok.inj hp)
          exact .inr (.decoded hc hle (by simpa using hsep))
    rename_i hascii
    split at hp
    · cases hp
    · rename_i he
      obtain ⟨rfl, rfl⟩ := Prod.mk.inj (Except.ok.inj hp)
      refine ⟨[d], rfl, ?_⟩
      by_cases hslash : d = '/'
      · subst hslash
        exact .inl (.short (by decide))
      · refine .inr (.itself (Nat.lt_of_not_le hascii) hdigit ?_)
        have hletter := lreParseEscape_unknown he
        simp only [List.mem_cons] at hletter hself ⊢
        tauto
    · rename_i he
      obtain ⟨rfl, rfl⟩ := Prod.mk.inj (Except.ok.inj hp)
      exact lreParseEscape_sound hdigit he

theorem scanCharacter_backslash (hp : scanEscape p = .ok (u, rest)) :
    scanCharacter ('\\' :: p) = .ok (some u, rest) := by
  rw [scanCharacter, hp]
  rfl

theorem byte_ne (hc : c < 256) (hne : c ≠ d.toNat) : byte c ≠ d := by
  rintro rfl
  exact hne (toNat_byte hc).symm

theorem scanCharacter_plain (hspace : 0x20 ≤ c) (hmax : c ≤ 0x10ffff) (hquote : c ≠ 0x22)
    (hslash : c ≠ 0x5c) :
    scanCharacter (unicodeToUtf8 c ++ rest) = .ok (some (stringBufferPutc c), rest) := by
  by_cases hascii : c < 0x80
  · have hc : (byte c).toNat = c := toNat_byte (by omega)
    rw [unicodeToUtf8_ascii hascii, List.singleton_append, scanCharacter, hc,
      if_neg (by omega), if_neg (byte_ne (by omega) hquote), if_neg (byte_ne (by omega) hslash),
      if_neg (by omega)]
  · obtain ⟨d, q, heq, hd⟩ := exists_unicodeToUtf8_eq (Nat.le_of_not_lt hascii) hmax
    have hscan : scanUtf8 (d :: (q ++ rest)) = .ok (c, rest) := by
      rw [← List.cons_append, ← heq]
      exact scanUtf8_complete hmax
    have hne : ∀ e : Char, e.toNat < 0x80 → d ≠ e := by
      rintro e he rfl
      omega
    rw [heq, List.cons_append, scanCharacter, if_neg (by omega), if_neg (hne _ (by decide)),
      if_neg (hne _ (by decide)), if_pos hd, hscan]
    rfl

theorem scanEscape_short {e : Char} (he : (e, c) ∈ shortEscapes) :
    scanEscape (e :: rest) = .ok (stringBufferPutc c, rest) := by
  simp only [shortEscapes, List.mem_cons, List.not_mem_nil, or_false] at he
  rcases he with h | h | h | h | h | h | h | h
  all_goals
    obtain ⟨rfl, rfl⟩ := h
    rfl

/-- What `lre_parse_escape` knows. -/
theorem scanEscape_letter (hd : d ∈ ['v', 'x', 'u']) (he : lreParseEscape (d :: p) = .char c rest) :
    scanEscape (d :: p) = .ok (stringBufferPutc c, rest) := by
  simp only [List.mem_cons, List.not_mem_nil, or_false] at hd
  rcases hd with rfl | rfl | rfl
  all_goals
    rw [scanEscape.eq_def]
    simp only [he]
    rfl

theorem scanEscape_decoded (hc : 0x80 ≤ c) (hmax : c ≤ 0x10ffff) : scanEscape (unicodeToUtf8 c ++ rest) =
      .ok (if c = 0x2028 ∨ c = 0x2029 then [] else stringBufferPutc c, rest) := by
  obtain ⟨d, q, heq, hd⟩ := exists_unicodeToUtf8_eq hc hmax
  have hscan : scanUtf8 (d :: (q ++ rest)) = .ok (c, rest) := by
    rw [← List.cons_append, ← heq]
    exact scanUtf8_complete hmax
  have hne : ∀ e : Char, e.toNat < 0x80 → d ≠ e := by
    rintro e he rfl
    omega
  have hdigit : ¬ d.isDigit := by
    intro hdigit
    rw [Char.isDigit, Bool.and_eq_true, decide_eq_true_iff, decide_eq_true_iff] at hdigit
    have hle : d.toNat ≤ 57 := UInt32.le_iff_toNat_le.mp hdigit.2
    omega
  have hself : ¬ (d.toNat = 0 ∨ d = '\'' ∨ d = '"' ∨ d = '\\') := by
    rintro (h | h | h | h)
    · omega
    · exact hne _ (by decide) h
    · exact hne _ (by decide) h
    · exact hne _ (by decide) h
  rw [heq, List.cons_append, scanEscape.eq_def]
  simp only [hself, hne '\r' (by decide), hne '\n' (by decide), hdigit, hd]
  rw [hscan]
  by_cases hsep : c = 0x2028 ∨ c = 0x2029
  · simp [hsep, bind, Except.bind]
  · simp [hsep, bind, Except.bind]

theorem scanEscape_itself (hascii : d.toNat < 0x80) (hdigit : ¬ d.isDigit)
    (hd : d ∉ ['"', '\\', '/', 'b', 'f', 'n', 'r', 't', 'v', 'x', 'u', '\r', '\n']) :
    scanEscape (d :: rest) = .ok (stringBufferPutc d.toNat, rest) := by
  simp only [List.mem_cons, not_or] at hd
  obtain ⟨-, -, -, hb, hf, hn, hr, ht, hv, hx, hu, hcr, hlf⟩ := hd
  have hunknown : lreParseEscape (d :: rest) = .unknown := by
    apply lreParseEscape_other hdigit
    simp only [List.mem_cons, List.not_mem_nil, or_false, not_or]
    exact ⟨hb, hf, hn, hr, ht, hv, hx, hu⟩
  rw [scanEscape.eq_def]
  simp only [hlf, Nat.not_le_of_lt hascii, hunknown]
  split
  · rfl
  · rfl

theorem scanEscape_carriageReturn (hrest : rest.head? ≠ some '\n') :
    scanEscape ('\r' :: rest) = .ok ([], rest) := by
  rw [scanEscape]
  · rfl
  · rintro q rfl
    exact hrest rfl

/-- The scanner takes a character of the wide lexicon whole. A carriage return takes a line feed
behind it along, and none can follow. -/
theorem scanCharacter_complete (hs : Lexicon.wide.character s u) (hrest : rest.head? ≠ some '\n') :
    scanCharacter (s ++ rest) = .ok (some u, rest) := by
  obtain hs | hs := hs
  · cases hs with
    | plain hspace hmax hquote hslash => exact scanCharacter_plain hspace hmax hquote hslash
    | short he => exact scanCharacter_backslash (scanEscape_short he)
    | @hex h c hlen hfrom =>
      rw [List.cons_append, List.cons_append]
      apply scanCharacter_backslash
      apply scanEscape_letter (by decide)
      rw [lreParseEscape_hex (.inr rfl) (head?_of_hexFrom hlen hfrom)]
      exact Escape.ofOption_eq_char.mpr (hexFixed_eq_some.mpr ⟨h, hlen, hfrom, rfl⟩)
  · cases hs with
    | verticalTab =>
      apply scanCharacter_backslash
      exact scanEscape_letter (by decide) rfl
    | itself hascii hdigit hd => exact scanCharacter_backslash (scanEscape_itself hascii hdigit hd)
    | newline hnl =>
      apply scanCharacter_backslash
      simp only [List.mem_cons, List.not_mem_nil, or_false] at hnl
      rcases hnl with rfl | rfl | rfl
      · rfl
      · exact scanEscape_carriageReturn hrest
      · rfl
    | @separator c hc =>
      rw [List.cons_append]
      apply scanCharacter_backslash
      simp only [List.mem_cons, List.not_mem_nil, or_false] at hc
      rw [scanEscape_decoded (c := c) (by omega) (by omega), if_pos hc]
    | @decoded c hle hmax hc =>
      rw [List.cons_append]
      apply scanCharacter_backslash
      simp only [List.mem_cons, List.not_mem_nil, or_false] at hc
      rw [scanEscape_decoded hle hmax, if_neg hc]
    | @hex h c hlen hfrom =>
      rw [List.cons_append, List.cons_append]
      apply scanCharacter_backslash
      apply scanEscape_letter (by decide)
      rw [lreParseEscape_hex (.inl rfl) (head?_of_hexFrom hlen hfrom)]
      exact Escape.ofOption_eq_char.mpr (hexFixed_eq_some.mpr ⟨h, hlen, hfrom, rfl⟩)
    | @braced x h c hx hne hfrom hle =>
      have hxu : x ∈ ['v', 'x', 'u'] := by
        simp only [List.mem_cons, List.not_mem_nil, or_false]
        exact .inr hx
      simp only [List.cons_append, List.append_assoc]
      apply scanCharacter_backslash
      apply scanEscape_letter hxu
      rw [lreParseEscape_braced hx, hexBraced_complete hne hfrom hle]
      rfl

/-- A character begins with something that may stand in a string. -/
theorem head_of_character (hs : Lexicon.wide.character s u) : ∃ d t, s = d :: t ∧ 0x20 ≤ d.toNat := by
  obtain hs | hs := hs
  · cases hs with
    | @plain c hspace hmax _ _ =>
      by_cases hascii : c < 0x80
      · refine ⟨byte c, [], unicodeToUtf8_ascii hascii, ?_⟩
        rw [toNat_byte (by omega)]
        exact hspace
      · obtain ⟨d, t, heq, hd⟩ := exists_unicodeToUtf8_eq (Nat.le_of_not_lt hascii) hmax
        exact ⟨d, t, heq, by omega⟩
    | short he => exact ⟨_, _, rfl, by decide⟩
    | hex hlen hfrom => exact ⟨_, _, rfl, by decide⟩
  · cases hs
    all_goals exact ⟨_, _, rfl, by decide⟩

theorem scanCharacter_sound {o : Option (List UInt16)} (hp : scanCharacter p = .ok (o, rest)) :
    (o = none ∧ p = '"' :: rest) ∨ ∃ s u, o = some u ∧ p = s ++ rest ∧ Lexicon.wide.character s u := by
  cases p with
  | nil => cases hp
  | cons d p =>
    rw [scanCharacter] at hp
    split at hp
    · cases hp
    rename_i hspace
    split at hp
    · subst d
      obtain ⟨rfl, rfl⟩ := Prod.mk.inj (Except.ok.inj hp)
      exact .inl ⟨rfl, rfl⟩
    rename_i hquote
    right
    split at hp
    · subst d
      obtain ⟨⟨u, r⟩, hscan, hp⟩ := bind_eq_ok hp
      obtain ⟨rfl, rfl⟩ := Prod.mk.inj (Except.ok.inj hp)
      obtain ⟨s, rfl, hs⟩ := scanEscape_sound hscan
      exact ⟨'\\' :: s, u, rfl, rfl, hs⟩
    rename_i hslash
    split at hp
    · rename_i hascii
      obtain ⟨⟨c, r⟩, hscan, hp⟩ := bind_eq_ok hp
      obtain ⟨rfl, rfl⟩ := Prod.mk.inj (Except.ok.inj hp)
      obtain ⟨heq, hc, hmax⟩ := scanUtf8_sound hascii hscan
      exact ⟨unicodeToUtf8 c, _, rfl, heq, .inl (.plain (by omega) hmax (by omega) (by omega))⟩
    · rename_i hascii
      obtain ⟨rfl, rfl⟩ := Prod.mk.inj (Except.ok.inj hp)
      have hne : ∀ e : Char, d ≠ e → d.toNat ≠ e.toNat :=
        fun e he heq => he (by rw [← Char.ofNat_toNat d, heq, Char.ofNat_toNat])
      have henc : unicodeToUtf8 d.toNat = [d] := by
        rw [unicodeToUtf8_ascii (Nat.lt_of_not_le hascii), byte_toNat]
      have hchar : Character (unicodeToUtf8 d.toNat) (stringBufferPutc d.toNat) :=
        .plain (Nat.le_of_not_lt hspace) (by omega) (hne '"' hquote) (hne '\\' hslash)
      rw [henc] at hchar
      exact ⟨[d], _, rfl, rfl, .inl hchar⟩

end Characters

section Strings

variable {k : List Char}

theorem jsParseString_sound (hp : jsParseString p = .ok (u, rest)) :
    ∃ k, Characters Lexicon.wide k u ∧ p = k ++ '"' :: rest := by
  suffices h : ∃ k v, Characters Lexicon.wide k v ∧ p = k ++ '"' :: rest ∧ u = [] ++ v by
    obtain ⟨k, v, hk, heq, rfl⟩ := h
    exact ⟨k, hk, heq⟩
  refine loop_rule (P := fun _ => True) (Q := fun s r =>
    ∃ k v, Characters Lexicon.wide k v ∧ s.1 = k ++ '"' :: r.2 ∧ r.1 = s.2 ++ v)
    ?_ ?_ trivial hp
  · intro s s' r _ hround
    obtain ⟨⟨o, q⟩, hscan, hround⟩ := bind_eq_ok hround
    cases o with
    | none => cases hround
    | some v =>
      obtain rfl := Sum.inl.inj (Except.ok.inj hround)
      obtain ⟨hnone, _⟩ | ⟨c, v', heq, hc, hchar⟩ := scanCharacter_sound hscan
      · cases hnone
      · obtain rfl := Option.some.inj heq
        refine ⟨trivial, ?_⟩
        rintro ⟨k, w, hk, hq, hr⟩
        have hq : q = k ++ '"' :: r.2 := hq
        refine ⟨c ++ k, v ++ w, .cons hchar hk, ?_, ?_⟩
        · rw [hc, hq, List.append_assoc]
        · rw [hr, List.append_assoc]
  · intro s r _ hround
    obtain ⟨⟨o, q⟩, hscan, hround⟩ := bind_eq_ok hround
    cases o with
    | some v => cases hround
    | none =>
      obtain rfl := Sum.inr.inj (Except.ok.inj hround)
      obtain ⟨_, hq⟩ | ⟨c, v', heq, _⟩ := scanCharacter_sound hscan
      · exact ⟨[], [], .nil, hq, (List.append_nil _).symm⟩
      · cases heq

theorem head?_of_characters (hk : Characters Lexicon.wide k u) : (k ++ '"' :: rest).head? ≠ some '\n' := by
  cases hk with
  | nil => exact fun h => absurd (Option.some.inj h) (by decide)
  | cons hs ht =>
    obtain ⟨d, t, rfl, hd⟩ := head_of_character hs
    intro h
    obtain rfl := Option.some.inj h
    exact absurd hd (by decide)

theorem jsParseString_complete (hk : Characters Lexicon.wide k u) :
    jsParseString (k ++ '"' :: rest) = .ok (u, rest) := by
  suffices h : ∀ n b, (k ++ '"' :: rest).length < n →
      loop stringRound .outOfSteps n (k ++ '"' :: rest, b) = .ok (b ++ u, rest) from
    h _ [] (Nat.lt_succ_self _)
  induction hk with
  | nil =>
    intro n b hn
    cases n with
    | zero => exact absurd hn (Nat.not_lt_zero _)
    | succ n =>
      rw [List.append_nil]
      exact loop_inr rfl
  | @cons s t v w hs ht ih =>
    intro n b hn
    obtain ⟨d, t', rfl, _⟩ := head_of_character hs
    cases n with
    | zero => exact absurd hn (Nat.not_lt_zero _)
    | succ n =>
      have hscan : scanCharacter (d :: t' ++ (t ++ '"' :: rest)) = .ok (some v, t ++ '"' :: rest) :=
        scanCharacter_complete hs (head?_of_characters ht)
      have hround : stringRound (d :: t' ++ (t ++ '"' :: rest), b) =
          .ok (.inl (t ++ '"' :: rest, b ++ v)) := by
        rw [stringRound, hscan]
        rfl
      have hlt : (t ++ '"' :: rest).length < n := by
        simp only [List.length_append, List.length_cons] at hn ⊢
        omega
      rw [List.append_assoc, loop_inl hround, ih n _ hlt, List.append_assoc]

theorem scanUtf8_ne_outOfSteps : scanUtf8 p ≠ .error .outOfSteps := by
  rw [scanUtf8]
  repeat' split
  all_goals exact nofun

theorem scanEscape_ne_outOfSteps : scanEscape p ≠ .error .outOfSteps := by
  cases p with
  | nil => exact nofun
  | cons d p =>
    rw [scanEscape.eq_def]
    simp only
    repeat' split
    all_goals first
      | refine bind_ne_error scanUtf8_ne_outOfSteps fun a _ => ?_
        split
        · exact nofun
        · exact nofun
      | exact nofun

theorem scanCharacter_ne_outOfSteps : scanCharacter p ≠ .error .outOfSteps := by
  cases p with
  | nil => exact nofun
  | cons d p =>
    rw [scanCharacter]
    repeat' split
    all_goals first
      | exact bind_ne_error scanEscape_ne_outOfSteps fun a _ => nofun
      | exact bind_ne_error scanUtf8_ne_outOfSteps fun a _ => nofun
      | exact nofun

theorem jsParseString_ne_outOfSteps : jsParseString p ≠ .error .outOfSteps := by
  refine loop_ne_outOfSteps (P := fun _ => True) (fun s => s.1.length) ?_ ?_ trivial
    (Nat.lt_succ_self _)
  · intro s _ _
    refine bind_ne_error scanCharacter_ne_outOfSteps fun r _ => ?_
    obtain ⟨_ | v, q⟩ := r
    · exact nofun
    · exact nofun
  · intro s s' _ hround
    refine ⟨trivial, ?_⟩
    obtain ⟨⟨o, q⟩, hscan, hround⟩ := bind_eq_ok hround
    cases o with
    | none => cases hround
    | some v =>
      obtain rfl := Sum.inl.inj (Except.ok.inj hround)
      obtain ⟨hnone, _⟩ | ⟨c, v', _, hc, hchar⟩ := scanCharacter_sound hscan
      · cases hnone
      · obtain ⟨d, t, rfl, _⟩ := head_of_character hchar
        simp only [hc, List.length_append, List.length_cons]
        omega

end Strings

end QuickJs.Json
