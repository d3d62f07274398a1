import QuickJs.JsonToken
import Mathlib

/-!
# What the scanner of numbers accepts

It takes exactly the numerals of the wide lexicon, provided that what follows ends a value.
-/

namespace QuickJs.Json

variable {δ : Type} {N : Numbers δ} {c : Char} {b : Bool} {p q s t rest : List Char}

/-- What may follow a value. -/
def Delimited (rest : List Char) : Prop :=
  ∀ c ∈ rest.head?, IsWhite c ∨ c = ',' ∨ c = ']' ∨ c = '}'

def isFloat (s : List Char) : Bool := s.any fun c => c = '.' || c = 'e' || c = 'E'

/-- What the code takes a numeral for. -/
def scanned (N : Numbers δ) (s : List Char) : δ := N.strtod s (isFloat s)

theorem Delimited.head?_any (h : Delimited rest) {f : Char → Bool}
    (hf : ['\r', '\n', ' ', '\t', ',', ']', '}'].all fun c => !f c) :
    rest.head?.any f = false := by
  cases rest with
  | nil => rfl
  | cons c rest =>
    have hc := h c rfl
    rw [List.all_eq_true] at hf
    rw [← Bool.not_eq_true']
    apply hf
    simp only [List.mem_cons, List.not_mem_nil, or_false]
    simp only [IsWhite, or_assoc] at hc
    exact hc

theorem takeWhile_of_stop {f : Char → Bool} (hs : ∀ c ∈ s, f c) (hq : q.head?.any f = false) :
    (s ++ q).takeWhile f = s ∧ (s ++ q).dropWhile f = q := by
  have hnil : q.takeWhile f = [] ∧ q.dropWhile f = q := by
    cases q with
    | nil => exact ⟨rfl, rfl⟩
    | cons c q =>
      have hc : f c = false := hq
      rw [List.takeWhile_cons_of_neg (by simp [hc]), List.dropWhile_cons_of_neg (by simp [hc])]
      exact ⟨rfl, rfl⟩
  rw [List.takeWhile_append_of_pos hs, List.dropWhile_append_of_pos hs, hnil.1, hnil.2]
  exact ⟨List.append_nil s, rfl⟩

/-- Digits are taken as far as they go. -/
theorem digits_takeWhile (hp : nextIsDigit p) : Digits (p.takeWhile Char.isDigit) := by
  refine ⟨?_, fun c hc => List.mem_takeWhile_imp hc⟩
  cases p with
  | nil => cases hp
  | cons c p =>
    have hc : c.isDigit = true := hp
    rw [List.takeWhile_cons_of_pos hc]
    exact List.cons_ne_nil _ _

theorem Digits.nextIsDigit (h : Digits s) : nextIsDigit (s ++ p) := by
  obtain ⟨hne, hall⟩ := h
  cases s with
  | nil => exact absurd rfl hne
  | cons c s => exact hall c List.mem_cons_self

section Decimal

/-- Neither a point nor an `e`. -/
theorem isFloat_of_digits (hs : ∀ c ∈ s, c.isDigit) : isFloat s = false := by
  rw [isFloat, List.any_eq_false]
  intro c hc
  have hdigit := hs c hc
  have hne : ∀ d : Char, d.isDigit = false → c ≠ d := by
    rintro d hd rfl
    rw [hdigit] at hd
    cases hd
  simp [hne '.' rfl, hne 'e' rfl, hne 'E' rfl]

theorem isFloat_append : isFloat (s ++ t) = (isFloat s || isFloat t) := List.any_append

theorem isFloat_exponent (he : c = 'e' ∨ c = 'E') : isFloat (c :: s) = true := by
  obtain rfl | rfl := he
  · rfl
  · rfl

theorem isFloat_fraction (hs : Fraction s ∨ s = ['.']) : isFloat s = decide (s ≠ []) := by
  obtain (rfl | ⟨t, rfl, _⟩) | rfl := hs
  · rfl
  · rfl
  · rfl

variable {int frac exp : List Char}

theorem scanFraction_sound (hint : int ≠ []) (h : scanFraction int p = (frac, q)) :
    (Fraction frac ∨ frac = ['.']) ∧ p = frac ++ q := by
  rw [scanFraction.eq_def] at h
  split at h
  · rename_i r
    rw [if_pos (.inl hint)] at h
    obtain ⟨rfl, rfl⟩ := Prod.mk.inj h
    refine ⟨?_, ?_⟩
    · by_cases hr : nextIsDigit r
      · exact .inl (.inr ⟨_, rfl, digits_takeWhile hr⟩)
      · right
        have hnil := (takeWhile_of_stop (s := []) (q := r) (f := Char.isDigit) nofun
          (Bool.eq_false_iff.mpr hr)).1
        rw [List.nil_append] at hnil
        rw [hnil]
    · rw [List.cons_append, List.takeWhile_append_dropWhile]
  · obtain ⟨rfl, rfl⟩ := Prod.mk.inj h
    exact ⟨.inl (.inl rfl), rfl⟩

theorem exponentSign_cases : exponentSign p = [] ∨ exponentSign p = ['+'] ∨ exponentSign p = ['-'] := by
  rw [exponentSign.eq_def]
  split
  · exact .inr (.inl rfl)
  · exact .inr (.inr rfl)
  · exact .inl rfl

theorem exponentSign_append_drop : exponentSign p ++ p.drop (exponentSign p).length = p := by
  rw [exponentSign.eq_def]
  split
  · rfl
  · rfl
  · rfl

theorem scanExponent_sound (hp : startsExponent p) (h : scanExponent p = (exp, rest)) :
    Exponent exp ∧ p = exp ++ rest ∧ (exp = [] → startsExponent rest) ∧ (exp ≠ [] → isFloat exp) := by
  cases p with
  | nil => cases hp
  | cons e q =>
    have he : e = 'e' ∨ e = 'E' := by simpa [startsExponent] using hp
    rw [scanExponent] at h
    split at h
    · rename_i hdigit
      obtain ⟨rfl, rfl⟩ := Prod.mk.inj h
      refine ⟨.inr ⟨e, _, _, rfl, he, exponentSign_cases, digits_takeWhile hdigit⟩, ?_, nofun,
        fun _ => isFloat_exponent he⟩
      rw [List.cons_append, List.cons_append, List.append_assoc, List.takeWhile_append_dropWhile,
        exponentSign_append_drop]
    · obtain ⟨rfl, rfl⟩ := Prod.mk.inj h
      exact ⟨.inl rfl, rfl, fun _ => hp, fun h => absurd rfl h⟩

/-- A number begins with digits: what is taken of it. -/
theorem scanDecimal_sound {f : Bool} (hp : nextIsDigit p) (h : scanDecimal p = (s, f, rest)) :
    ∃ frac exp, s = p.takeWhile Char.isDigit ++ frac ++ exp ∧ (Fraction frac ∨ frac = ['.']) ∧
      Exponent exp ∧ p = s ++ rest ∧ (startsExponent rest = false → f = isFloat s) := by
  have hint := digits_takeWhile hp
  have hfloat := isFloat_of_digits hint.2
  rw [scanDecimal] at h
  cases hscan : scanFraction (p.takeWhile Char.isDigit) (p.dropWhile Char.isDigit) with
  | mk frac q =>
    obtain ⟨hfrac, hdrop⟩ := scanFraction_sound hint.1 hscan
    have hp : p = p.takeWhile Char.isDigit ++ frac ++ q := by
      rw [List.append_assoc, ← hdrop, List.takeWhile_append_dropWhile]
    simp only [hscan] at h
    split at h
    · rename_i hexp
      cases hscan' : scanExponent q with
      | mk exp r =>
        rw [hscan'] at h
        obtain ⟨rfl, rfl, rfl⟩ := h
        obtain ⟨hexponent, hq, hnone, hsome⟩ := scanExponent_sound hexp.2 hscan'
        refine ⟨frac, exp, rfl, hfrac, hexponent, ?_, ?_⟩
        · rw [List.append_assoc, ← hq]
          exact hp
        · intro hrest
          have hne : exp ≠ [] := by
            intro hnil
            rw [hnone hnil] at hrest
            cases hrest
          rw [isFloat_append, hsome hne, Bool.or_true]
    · obtain ⟨rfl, rfl, rfl⟩ := h
      refine ⟨frac, [], (List.append_nil _).symm, hfrac, .inl rfl, hp, fun _ => ?_⟩
      rw [isFloat_append, hfloat, isFloat_fraction hfrac, Bool.false_or]

theorem scanFraction_complete (hint : int ≠ []) (hfrac : Fraction frac ∨ frac = ['.'])
    (hq : q.head?.any Char.isDigit = false) (hpoint : q.head? ≠ some '.') :
    scanFraction int (frac ++ q) = (frac, q) := by
  obtain (rfl | ⟨t, rfl, ht⟩) | rfl := hfrac
  · rw [List.nil_append, scanFraction.eq_def]
    split
    · exact absurd rfl hpoint
    · rfl
  · rw [List.cons_append, scanFraction, if_pos (.inl hint), (takeWhile_of_stop ht.2 hq).1,
      (takeWhile_of_stop ht.2 hq).2]
  · have hstop := takeWhile_of_stop (s := []) (f := Char.isDigit) nofun hq
    rw [List.nil_append] at hstop
    rw [List.singleton_append, scanFraction, if_pos (.inl hint), hstop.1, hstop.2]

theorem exponentSign_append (ht : nextIsDigit t) :
    ∀ sign, sign = [] ∨ sign = ['+'] ∨ sign = ['-'] → exponentSign (sign ++ t) = sign := by
  rintro sign (rfl | rfl | rfl)
  · rw [List.nil_append, exponentSign.eq_def]
    split
    · cases ht
    · cases ht
    · rfl
  · rfl
  · rfl

/-- What follows the integer part does not begin with a digit. -/
theorem head?_afterInteger (hfrac : Fraction frac ∨ frac = ['.']) (hexp : Exponent exp)
    (hrest : Delimited rest) : (frac ++ exp ++ rest).head?.any Char.isDigit = false := by
  obtain (rfl | ⟨t, rfl, _⟩) | rfl := hfrac
  · obtain rfl | ⟨e, sign, t, rfl, rfl | rfl, _⟩ := hexp
    · exact hrest.head?_any (by decide)
    · rfl
    · rfl
  · rfl
  · rfl

theorem scanDecimal_complete (hint : Digits int) (hfrac : Fraction frac ∨ frac = ['.'])
    (hexp : Exponent exp) (hrest : Delimited rest) :
    scanDecimal (int ++ frac ++ exp ++ rest) = (int ++ frac ++ exp, isFloat (int ++ frac ++ exp), rest) := by
  have hdigits : rest.head?.any Char.isDigit = false := hrest.head?_any (by decide)
  have hstarts : startsExponent rest = false := hrest.head?_any (by decide)
  have hpoint : rest.head? ≠ some '.' := by
    intro h
    have hany : rest.head?.any (· = '.') = false := hrest.head?_any (by decide)
    rw [h] at hany
    cases hany
  have hq : (exp ++ rest).head?.any Char.isDigit = false ∧ (exp ++ rest).head? ≠ some '.' := by
    obtain rfl | ⟨e, sign, t, rfl, rfl | rfl, _⟩ := hexp
    · exact ⟨hdigits, hpoint⟩
    · exact ⟨rfl, by simp⟩
    · exact ⟨rfl, by simp⟩
  have hne : int ++ frac ≠ [] := List.append_ne_nil_of_left_ne_nil hint.1 frac
  have hfloat : isFloat (int ++ frac) = decide (frac ≠ []) := by
    rw [isFloat_append, isFloat_of_digits hint.2, isFloat_fraction hfrac, Bool.false_or]
  obtain ⟨htake, hdrop⟩ := takeWhile_of_stop hint.2 (head?_afterInteger hfrac hexp hrest)
  rw [List.append_assoc] at htake hdrop
  rw [List.append_assoc, List.append_assoc, scanDecimal, htake, hdrop,
    scanFraction_complete hint.1 hfrac hq.1 hq.2]
  obtain rfl | ⟨e, sign, t, rfl, he, hsign, ht⟩ := hexp
  · simp [hstarts, hfloat]
  · have hdig : nextIsDigit (t ++ rest) := ht.nextIsDigit
    have hexp : startsExponent (e :: sign ++ t ++ rest) := by
      obtain rfl | rfl := he
      · rfl
      · rfl
    have hscan : scanExponent (e :: sign ++ t ++ rest) = (e :: sign ++ t, rest) := by
      rw [List.append_assoc, List.cons_append, scanExponent]
      simp only [exponentSign_append hdig sign hsign, List.drop_left, hdig, if_true]
      rw [(takeWhile_of_stop ht.2 hdigits).1, (takeWhile_of_stop ht.2 hdigits).2]
    simp only [hexp, hne, ne_eq, not_false_eq_true, and_self, if_true, hscan]
    rw [isFloat_append, List.cons_append, isFloat_exponent he, Bool.or_true]

end Decimal

section Atof

/-- There is no infinity in JSON: a digit stands where a number begins. -/
theorem not_infinity (hp : nextIsDigit p) : ¬ ['I', 'n', 'f', 'i', 'n', 'i', 't', 'y'] <+: p := by
  rintro ⟨r, rfl⟩
  cases hp

/-- The scanner of numbers behind a minus sign. -/
theorem jsAtof_neg (hp : nextIsDigit p) (h : scanDecimal p = (s, b, rest)) (hs : s ≠ []) :
    jsAtof N ('-' :: p) = (N.strtod ('-' :: s) b, rest) := by
  simp [jsAtof, not_infinity hp, h, hs]

/-- And without one. -/
theorem jsAtof_digit (hc : c.isDigit) (h : scanDecimal (c :: p) = (s, b, rest)) (hs : s ≠ []) :
    jsAtof N (c :: p) = (N.strtod s b, rest) := by
  have hinf : c ≠ 'I' := by
    rintro rfl
    cases hc
  have hneg : c ≠ '-' := by
    rintro rfl
    cases hc
  have hpos : c ≠ '+' := by
    rintro rfl
    cases hc
  simp [jsAtof, hinf.symm, h, hs, hneg, hpos]

/-- How a number begins. -/
theorem startsNumber_cases (h : startsNumber c p) :
    (c = '-' ∧ nextIsDigit p) ∨ (c.isDigit ∧ (c = '0' → nextIsDigit p = false)) := by
  rw [startsNumber] at h
  split at h
  · subst c
    exact .inr ⟨rfl, fun _ => by simpa using h⟩
  · split at h
    · exact .inl ⟨‹_›, h⟩
    · exact .inr ⟨h, fun h0 => absurd h0 ‹_›⟩

theorem integerPart_takeWhile (hc : c.isDigit) (h0 : c = '0' → nextIsDigit p = false) :
    IntegerPart ((c :: p).takeWhile Char.isDigit) := by
  refine ⟨digits_takeWhile hc, ?_⟩
  rw [List.takeWhile_cons_of_pos hc]
  intro hhead
  obtain rfl := Option.some.inj hhead
  have hnil := (takeWhile_of_stop (s := []) (q := p) (f := Char.isDigit) nofun (h0 rfl)).1
  rw [List.nil_append] at hnil
  rw [hnil]

/-- What the scanner takes is a numeral, and its value is the one that the code takes this for,
unless an `e` follows that is no exponent. -/
theorem jsAtof_sound {d : δ} (hc : startsNumber c p) (h : jsAtof N (c :: p) = (d, rest)) :
    ∃ s, WideNumeral s ∧ c :: p = s ++ rest ∧ s ≠ [] ∧ (startsExponent rest = false → d = scanned N s) := by
  obtain ⟨rfl, hp⟩ | ⟨hdigit, h0⟩ := startsNumber_cases hc
  · cases hscan : scanDecimal p with
    | mk s r =>
      obtain ⟨frac, exp, hs, hfrac, hexp, heq, hvalue⟩ := scanDecimal_sound hp hscan
      have hint := digits_takeWhile hp
      have hne : s ≠ [] := by
        rw [hs, List.append_assoc]
        exact List.append_ne_nil_of_left_ne_nil hint.1 _
      rw [jsAtof_neg hp hscan hne] at h
      obtain ⟨rfl, rfl⟩ := Prod.mk.inj h
      refine ⟨'-' :: s, ⟨['-'], _, frac, exp, ?_, .inr ⟨rfl, hint⟩, hfrac, hexp⟩, ?_,
        List.cons_ne_nil _ _, ?_⟩
      · rw [hs]
        rfl
      · rw [heq]
        rfl
      · intro hstop
        rw [hvalue hstop]
        rfl
  · cases hscan : scanDecimal (c :: p) with
    | mk s r =>
      obtain ⟨frac, exp, hs, hfrac, hexp, heq, hvalue⟩ :=
        scanDecimal_sound (p := c :: p) hdigit hscan
      have hint := integerPart_takeWhile hdigit h0
      have hne : s ≠ [] := by
        rw [hs, List.append_assoc]
        exact List.append_ne_nil_of_left_ne_nil hint.1.1 _
      rw [jsAtof_digit hdigit hscan hne] at h
      obtain ⟨rfl, rfl⟩ := Prod.mk.inj h
      refine ⟨s, ⟨[], _, frac, exp, hs, .inl ⟨rfl, hint⟩, hfrac, hexp⟩, heq, hne, ?_⟩
      intro hstop
      rw [hvalue hstop]
      rfl

/-- A numeral is taken whole. -/
theorem jsAtof_complete (hs : WideNumeral s) (hrest : Delimited rest) :
    ∃ c p, s ++ rest = c :: p ∧ startsNumber c p ∧ jsAtof N (c :: p) = (scanned N s, rest) := by
  obtain ⟨sign, int, frac, exp, rfl, ⟨rfl, hint⟩ | ⟨rfl, hint⟩, hfrac, hexp⟩ := hs
  · have hscan := scanDecimal_complete hint.1 hfrac hexp hrest
    have hfirst := hint.1.1
    cases int with
    | nil => exact absurd rfl hfirst
    | cons c int =>
      have hc : c.isDigit := hint.1.2 c List.mem_cons_self
      refine ⟨c, int ++ frac ++ exp ++ rest, rfl, ?_, jsAtof_digit hc hscan (List.cons_ne_nil _ _)⟩
      rw [startsNumber]
      split
      · subst c
        obtain rfl := (List.cons.inj (hint.2 rfl)).2
        rw [List.nil_append, nextIsDigit, head?_afterInteger hfrac hexp hrest]
        rfl
      · split
        · subst c
          cases hc
        · exact hc
  · have hscan := scanDecimal_complete hint hfrac hexp hrest
    have hp : nextIsDigit (int ++ frac ++ exp ++ rest) := by
      rw [List.append_assoc, List.append_assoc]
      exact hint.nextIsDigit
    have hne : int ++ frac ++ exp ≠ [] := by
      rw [List.append_assoc]
      exact List.append_ne_nil_of_left_ne_nil hint.1 _
    exact ⟨'-', int ++ frac ++ exp ++ rest, rfl, hp, jsAtof_neg hp hscan hne⟩

end Atof

end QuickJs.Json
