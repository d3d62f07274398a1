import QuickJs.DateText

/-!
# Scanning what is printed

The scanner reads the numbers and names that the printer writes, in front of a text that does not continue them.
-/

namespace QuickJs.JsDate

open Atom

/-- The number that digits say after a number. -/
def digitsValue (s : List ℕ) (v : ℤ) : ℤ := s.foldl (fun v (c : ℕ) => v * 10 + ((c : ℤ) - 48)) v

/-- The text does not start with a digit. -/
def Stops (s : List ℕ) : Prop := s.head?.any isDigit = false

variable {s rest : List ℕ} {v n : ℤ} {c k : ℕ}

theorem checked_eq {x : ℤ} (h₀ : -2 ^ 63 ≤ x) (h : x < 2 ^ 63) : checked x = .ok x := by
  have hint : int64 x = some x := if_pos ⟨h₀, h⟩
  rw [checked, hint]

theorem isDigit_iff : isDigit c = true ↔ 48 ≤ c ∧ c ≤ 57 := by
  rw [isDigit, Bool.and_eq_true, decide_eq_true_eq, decide_eq_true_eq]

/-! ## Numbers -/

theorem digitsValue_append (s t : List ℕ) (v : ℤ) : digitsValue (s ++ t) v = digitsValue t (digitsValue s v) :=
  List.foldl_append

/-- Digits make a number larger. -/
theorem le_digitsValue (hs : ∀ c ∈ s, isDigit c) (hv : 0 ≤ v) : v ≤ digitsValue s v := by
  induction s generalizing v with
  | nil => exact le_refl v
  | cons c s ih =>
    have hc := isDigit_iff.mp (hs c List.mem_cons_self)
    have hle := ih (fun d hd => hs d (List.mem_cons_of_mem _ hd)) (show 0 ≤ v * 10 + (c - 48) by omega)
    have heq : digitsValue (c :: s) v = digitsValue s (v * 10 + (c - 48)) := rfl
    omega

/-- Digits are read up to the end of the number. -/
theorem digitsLoop_eq (hs : ∀ c ∈ s, isDigit c) (hv : 0 ≤ v) (hmax : digitsValue s v < 2 ^ 62) (hrest : Stops rest) :
    digitsLoop checked (s ++ rest) v = .ok (digitsValue s v, rest) := by
  induction s generalizing v with
  | nil =>
    cases rest with
    | nil => rfl
    | cons c rest =>
      have hc : isDigit c = false := hrest
      rw [List.nil_append, digitsLoop, hc]
      rfl
  | cons c s ih =>
    have hdigit := hs c List.mem_cons_self
    have hc := isDigit_iff.mp hdigit
    have htail : ∀ d ∈ s, isDigit d := fun d hd => hs d (List.mem_cons_of_mem _ hd)
    have heq : digitsValue (c :: s) v = digitsValue s (v * 10 + (c - 48)) := rfl
    have hle := le_digitsValue htail (show 0 ≤ v * 10 + (c - 48) by omega)
    have hassoc : v * 10 + (c : ℤ) - 48 = v * 10 + (c - 48) := by omega
    rw [List.cons_append, digitsLoop, if_pos hdigit, checked_eq (by omega) (by omega)]
    simp only [bind, Except.bind]
    rw [checked_eq (by omega) (by omega)]
    simp only
    rw [checked_eq (by omega) (by omega), hassoc]
    exact ih htail (by omega) hmax

variable {m : ℕ}

theorem isDigit_of_mem_decimal (h : c ∈ decimal m) : isDigit c := by
  rw [isDigit_iff]
  unfold decimal at h
  split at h
  · obtain rfl := List.mem_singleton.mp h
    decide
  · obtain ⟨d, hd, rfl⟩ := List.mem_map.mp h
    have hlt := Nat.digits_lt_base (by decide : 1 < 10) (List.mem_reverse.mp hd)
    omega

/-- The decimal text of a number says it. -/
theorem digitsValue_decimal (m : ℕ) : digitsValue (decimal m) 0 = m := by
  induction m using Nat.strong_induction_on with
  | _ m ih =>
    by_cases hm : m < 10
    · rw [decimal_of_lt hm, digitsValue, List.foldl_cons, List.foldl_nil]
      push_cast
      ring
    · have hsplit : m / 10 * 10 + m % 10 = m := by omega
      have hsnoc : decimal (m / 10 * 10 + m % 10) = decimal (m / 10) ++ [m % 10 + 48] :=
        decimal_snoc (by omega) (Nat.mod_lt _ (by decide))
      rw [hsplit] at hsnoc
      rw [hsnoc, digitsValue_append, ih (m / 10) (by omega), digitsValue, List.foldl_cons, List.foldl_nil]
      omega

theorem digitsValue_replicate (k : ℕ) (s : List ℕ) : digitsValue (List.replicate k 48 ++ s) 0 = digitsValue s 0 := by
  induction k with
  | zero => rfl
  | succ k ih => exact ih

/-- The digits of a printed number. -/
theorem exists_digits (k m : ℕ) : ∃ s, List.replicate k 48 ++ decimal m = s ∧ s ≠ [] ∧ (∀ c ∈ s, isDigit c) ∧
    digitsValue s 0 = m := by
  refine ⟨_, rfl, ?_, ?_, ?_⟩
  · exact List.append_ne_nil_of_right_ne_nil _ (decimal_ne_nil m)
  · intro c hc
    obtain hc | hc := List.mem_append.mp hc
    · obtain rfl := List.eq_of_mem_replicate hc
      rfl
    · exact isDigit_of_mem_decimal hc
  · rw [digitsValue_replicate, digitsValue_decimal]

theorem stringGetDigits_eq (hne : s ≠ []) (hs : ∀ c ∈ s, isDigit c) (hmax : digitsValue s 0 < 2 ^ 62)
    (hrest : Stops rest) : stringGetDigits checked (s ++ rest) = .ok (digitsValue s 0, rest) := by
  have hhead : (s ++ rest).head?.any isDigit = true := by
    obtain ⟨c, s, rfl⟩ := List.exists_cons_of_ne_nil hne
    exact hs c List.mem_cons_self
  rw [stringGetDigits, if_pos hhead]
  exact digitsLoop_eq hs (le_refl 0) hmax hrest

/-- A printed number is read. -/
theorem stringGetDigits_printInt (width : ℕ) (hn : 0 ≤ n) (hmax : n < 2 ^ 62) (hrest : Stops rest) :
    stringGetDigits checked (printInt width false n ++ rest) = .ok (n, rest) := by
  obtain ⟨s, hs, hne, hdigits, hvalue⟩ := exists_digits (width - (decimal n.natAbs).length) n.natAbs
  have hprint : printInt width false n = s := by
    rw [printInt, if_neg (Int.not_lt.mpr hn)]
    exact hs
  have habs : (n.natAbs : ℤ) = n := Int.natAbs_of_nonneg hn
  rw [hprint, stringGetDigits_eq hne hdigits (by omega) hrest, hvalue, habs]

/-- A printed number with its sign is read. -/
theorem stringGetSignedDigits_printInt (width : ℕ) (plus : Bool) (hmin : -2 ^ 62 < n) (hmax : n < 2 ^ 62)
    (hrest : Stops rest) : stringGetSignedDigits checked (printInt width plus n ++ rest) = .ok (n, rest) := by
  unfold printInt
  by_cases hneg : n < 0
  · obtain ⟨s, hs, hne, hdigits, hvalue⟩ := exists_digits (width - 1 - (decimal n.natAbs).length) n.natAbs
    rw [if_pos hneg]
    have hprint : ascii "-" ++ List.replicate (width - (ascii "-").length - (decimal n.natAbs).length) 48 ++
        decimal n.natAbs ++ rest = 45 :: (s ++ rest) := by
      rw [← hs]
      simp [ascii]
    rw [hprint, stringGetSignedDigits, if_pos (.inl rfl), stringGetDigits_eq hne hdigits (by omega) hrest]
    have hnat : -(n.natAbs : ℤ) = n := by omega
    simp only [bind, Except.bind, pure, Except.pure, hvalue]
    rw [if_pos (by rfl), hnat]
  · rw [if_neg hneg]
    have habs : (n.natAbs : ℤ) = n := by omega
    cases plus with
    | false =>
      obtain ⟨s, hs, hne, hdigits, hvalue⟩ := exists_digits (width - (decimal n.natAbs).length) n.natAbs
      have hprint : (if false = true then ascii "+" else []) ++
          List.replicate (width - (if false = true then ascii "+" else []).length - (decimal n.natAbs).length) 48 ++
          decimal n.natAbs ++ rest = s ++ rest := by
        rw [← hs]
        rfl
      obtain ⟨c, t, rfl⟩ := List.exists_cons_of_ne_nil hne
      have hc := isDigit_iff.mp (hdigits c List.mem_cons_self)
      have hminus : c ≠ '-'.toNat := by
        rintro rfl
        exact absurd hc.1 (by decide)
      have hplus : c ≠ '+'.toNat := by
        rintro rfl
        exact absurd hc.1 (by decide)
      rw [hprint, List.cons_append, stringGetSignedDigits, if_neg (not_or.mpr ⟨hminus, hplus⟩), ← List.cons_append,
        stringGetDigits_eq hne hdigits (by omega) hrest]
      simp only [bind, Except.bind, pure, Except.pure, hvalue]
      rw [if_neg hminus, habs]
    | true =>
      obtain ⟨s, hs, hne, hdigits, hvalue⟩ := exists_digits (width - 1 - (decimal n.natAbs).length) n.natAbs
      have hprint : (if true = true then ascii "+" else []) ++
          List.replicate (width - (if true = true then ascii "+" else []).length - (decimal n.natAbs).length) 48 ++
          decimal n.natAbs ++ rest = 43 :: (s ++ rest) := by
        rw [← hs]
        simp [ascii]
      rw [hprint, stringGetSignedDigits, if_pos (.inr rfl), stringGetDigits_eq hne hdigits (by omega) hrest]
      simp only [bind, Except.bind, pure, Except.pure, hvalue]
      rw [if_neg (by decide), habs]

/-! ## Numbers of a fixed width -/

theorem printInt_two (h : m < 100) : printInt 2 false m = [m / 10 + 48, m % 10 + 48] := by
  rw [printInt, Int.natAbs_natCast]
  by_cases hm : m < 10
  · rw [decimal_of_lt hm, Nat.div_eq_of_lt hm, Nat.mod_eq_of_lt hm]
    rfl
  · have hsplit : m / 10 * 10 + m % 10 = m := by omega
    have hsnoc : decimal (m / 10 * 10 + m % 10) = decimal (m / 10) ++ [m % 10 + 48] :=
      decimal_snoc (by omega) (Nat.mod_lt _ (by decide))
    rw [hsplit, decimal_of_lt (show m / 10 < 10 by omega)] at hsnoc
    rw [hsnoc]
    rfl

theorem printInt_three (h : m < 1000) :
    printInt 3 false m = [m / 100 + 48, m / 10 % 10 + 48, m % 10 + 48] := by
  rw [printInt, if_neg (Int.not_lt.mpr (Int.natCast_nonneg m)), if_neg Bool.false_ne_true, Int.natAbs_natCast]
  by_cases hm : m < 10
  · have htens : m / 10 = 0 := Nat.div_eq_of_lt hm
    have hhundreds : m / 100 = 0 := by omega
    rw [decimal_of_lt hm, htens, hhundreds, Nat.mod_eq_of_lt hm]
    rfl
  · have hsplit : m / 10 * 10 + m % 10 = m := by omega
    have hsnoc : decimal (m / 10 * 10 + m % 10) = decimal (m / 10) ++ [m % 10 + 48] :=
      decimal_snoc (by omega) (Nat.mod_lt _ (by decide))
    have htwo := printInt_two (m := m / 10) (by omega)
    have hdiv : m / 10 / 10 = m / 100 := by omega
    rw [hsplit] at hsnoc
    rw [hsnoc]
    rw [printInt, if_neg (Int.not_lt.mpr (Int.natCast_nonneg _)), if_neg Bool.false_ne_true, Int.natAbs_natCast,
      hdiv] at htwo
    have hlength : ([] : List ℕ).length = 0 := rfl
    rw [hlength] at htwo ⊢
    rw [List.length_append, List.length_singleton, ← Nat.sub_sub, ← List.append_assoc]
    have hthree : 3 - (decimal (m / 10)).length - 1 = 2 - (decimal (m / 10)).length := by omega
    rw [hthree, htwo]
    rfl

theorem isDigit_add (h : m < 10) : isDigit (m + 48) = true := isDigit_iff.mpr (by omega)

theorem stringGetFixedWidthDigits_printInt (h : m < 100) (rest : List ℕ) :
    stringGetFixedWidthDigits 2 (printInt 2 false m ++ rest) 0 = .ok ((m : ℤ), rest) := by
  rw [printInt_two h]
  have htens : isDigit (m / 10 + 48) = true := isDigit_add (by omega)
  have hones : isDigit (m % 10 + 48) = true := isDigit_add (by omega)
  simp only [List.cons_append, stringGetFixedWidthDigits, htens, hones, if_true]
  congr 2
  omega

theorem stringGetMilliseconds_printInt (h : m < 1000) (hrest : Stops rest) :
    stringGetMilliseconds (printInt 3 false m ++ rest) = .ok ((m : ℤ), rest) := by
  rw [printInt_three h]
  have hhundreds : isDigit (m / 100 + 48) = true := isDigit_add (by omega)
  have htens : isDigit (m / 10 % 10 + 48) = true := isDigit_add (by omega)
  have hones : isDigit (m % 10 + 48) = true := isDigit_add (by omega)
  have hend : ∀ mul ms, millisecondsLoop rest mul ms = (ms, rest) := by
    intro mul ms
    cases rest with
    | nil => rfl
    | cons c rest =>
      have hc : isDigit c = false := hrest
      rw [millisecondsLoop, hc]
      rfl
  have h₁ : ¬((1000 : ℤ) = 1 ∧ 53 ≤ m / 100 + 48) := fun h => absurd h.1 (by decide)
  have h₂ : ¬((100 : ℤ) = 1 ∧ 53 ≤ m / 10 % 10 + 48) := fun h => absurd h.1 (by decide)
  have h₃ : ¬((10 : ℤ) = 1 ∧ 53 ≤ m % 10 + 48) := fun h => absurd h.1 (by decide)
  have hmul₁ : (1000 : ℤ).tdiv 10 = 100 := rfl
  have hmul₂ : (100 : ℤ).tdiv 10 = 10 := rfl
  have hmul₃ : (10 : ℤ).tdiv 10 = 1 := rfl
  rw [stringGetMilliseconds, List.cons_append, List.head?_cons, Option.any_some]
  simp only [List.cons_append, List.nil_append, millisecondsLoop, hhundreds, htens, hones, if_true, hend, hmul₁, hmul₂, hmul₃]
  congr 2
  omega

/-! ## Names -/

/-- The name of a month is found. -/
theorem stringGetMonth_printName {month : ℕ} (h : month < 12) (rest : List ℕ) :
    stringGetMonth (printName monthNames month ++ rest) = .ok ((month : ℤ), rest) := by
  interval_cases month <;> rfl

/-- The month is also found after a space. -/
theorem stringGetMonth_space {month : ℕ} (h : month < 12) (rest : List ℕ) :
    stringGetMonth (32 :: (printName monthNames month ++ rest)) = .ok ((month : ℤ), rest) := by
  interval_cases month <;> rfl

/-- The name of a day is skipped, with what belongs to it. -/
theorem stringSkipNonSpaces_printName {day : ℤ} (h₀ : 0 ≤ day) (h : day < 7) (rest : List ℕ) :
    stringSkipNonSpaces (printName dayNames day ++ rest) = stringSkipNonSpaces rest := by
  interval_cases day <;> rfl

/-- A text that starts with the name of a day is not in ISO format. -/
theorem isIso_printName {day : ℤ} (h₀ : 0 ≤ day) (h : day < 7) (rest : List ℕ) :
    isIso (printName dayNames day ++ rest) = false := by
  interval_cases day <;> rfl

end QuickJs.JsDate
