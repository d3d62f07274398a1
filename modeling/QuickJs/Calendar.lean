import Mathlib

/-!
# The Gregorian calendar

The proleptic Gregorian calendar goes from each day to the next one, and back. Days are counted from 1 January 1970. A
date has a day that its month has.
-/

namespace QuickJs.Calendar

/-- Every fourth year is a leap year; of the years that end a century, every fourth one. -/
def IsLeap (y : ℤ) : Prop := 4 ∣ y ∧ (100 ∣ y → 400 ∣ y)

instance (y : ℤ) : Decidable (IsLeap y) := inferInstanceAs (Decidable (_ ∧ _))

/-- The number of days of a month; January is 0. -/
def monthLength (y : ℤ) (month : ℕ) : ℕ :=
  if month = 1 then if IsLeap y then 29 else 28
  else if month = 3 ∨ month = 5 ∨ month = 8 ∨ month = 10 then 30 else 31

/-- A day of the calendar. -/
@[ext]
structure Date where
  year : ℤ
  month : ℕ
  day : ℕ
  month_lt : month < 12
  pos : 1 ≤ day
  le : day ≤ monthLength year month

variable {y z : ℤ} {month n : ℕ} {d e : Date}

theorem monthLength_pos (y : ℤ) (month : ℕ) : 1 ≤ monthLength y month := by
  unfold monthLength
  split_ifs <;> decide

namespace Date

/-- The first day of a month. -/
def first (y : ℤ) (month : ℕ) (h : month < 12) : Date := ⟨y, month, 1, h, le_refl 1, monthLength_pos y month⟩

/-- The last day of a month. -/
def last (y : ℤ) (month : ℕ) (h : month < 12) : Date :=
  ⟨y, month, monthLength y month, h, monthLength_pos y month, le_refl _⟩

/-- The day after. -/
def next (d : Date) : Date :=
  if h : d.day + 1 ≤ monthLength d.year d.month then ⟨d.year, d.month, d.day + 1, d.month_lt, by omega, h⟩
  else if h : d.month + 1 < 12 then first d.year (d.month + 1) h
  else first (d.year + 1) 0 (by decide)

/-- The day before. -/
def prev (d : Date) : Date :=
  if h : 1 ≤ d.day - 1 then ⟨d.year, d.month, d.day - 1, d.month_lt, h, (Nat.sub_le ..).trans d.le⟩
  else if h : 1 ≤ d.month then last d.year (d.month - 1) (by have := d.month_lt; omega)
  else last (d.year - 1) 11 (by decide)

/-- 1 January 1970. -/
def epoch : Date := first 1970 0 (by decide)

/-- The date of a day. -/
def ofDay : ℤ → Date
  | .ofNat n => next^[n] epoch
  | .negSucc n => prev^[n + 1] epoch

theorem next_prev (d : Date) : d.prev.next = d := by
  obtain ⟨y, month, day, hmonth, hpos, hle⟩ := d
  unfold prev
  dsimp only
  split
  · have heq : day - 1 + 1 = day := by omega
    simp only [next, heq, dif_pos hle]
  · have hday : day = 1 := by omega
    subst hday
    split
    · have hfull : ¬monthLength y (month - 1) + 1 ≤ monthLength y (month - 1) := Nat.not_succ_le_self _
      have heq : month - 1 + 1 = month := by omega
      simp only [next, last, dif_neg hfull, heq, dif_pos hmonth, first]
    · have hzero : month = 0 := by omega
      subst hzero
      have hfull : ¬monthLength (y - 1) 11 + 1 ≤ monthLength (y - 1) 11 := Nat.not_succ_le_self _
      have hlast : ¬11 + 1 < 12 := by decide
      simp only [next, last, dif_neg hfull, dif_neg hlast, first, Int.sub_add_cancel]

/-- The dates follow each other. -/
theorem ofDay_add_one (n : ℤ) : ofDay (n + 1) = (ofDay n).next := by
  cases n with
  | ofNat n => exact Function.iterate_succ_apply' next n epoch
  | negSucc n =>
    cases n with
    | zero => exact (next_prev epoch).symm
    | succ n =>
      have hprev : ofDay (.negSucc (n + 1)) = (ofDay (.negSucc n)).prev := Function.iterate_succ_apply' prev (n + 1) epoch
      rw [hprev, next_prev]
      rfl

end Date

/-! ## The number of a day -/

/-- The days between 1 January 1970 and the start of a year. -/
def yearStart (y : ℤ) : ℤ := 365 * (y - 1970) + (y - 1969) / 4 - (y - 1901) / 100 + (y - 1601) / 400

/-- The days between the start of a year and a month. -/
def monthStart (y : ℤ) (month : ℕ) : ℕ := ∑ i ∈ Finset.range month, monthLength y i

/-- The number of the day. -/
def Date.dayNumber (d : Date) : ℤ := yearStart d.year + monthStart d.year d.month + d.day - 1

theorem monthStart_succ (y : ℤ) (month : ℕ) : monthStart y (month + 1) = monthStart y month + monthLength y month :=
  Finset.sum_range_succ ..

theorem monthStart_twelve (y : ℤ) : monthStart y 12 = if IsLeap y then 366 else 365 := by
  by_cases h : IsLeap y <;> simp [monthStart, Finset.sum_range_succ, monthLength, h]

theorem monthStart_mono (y : ℤ) : Monotone (monthStart y) :=
  monotone_nat_of_le_succ fun month => monthStart_succ y month ▸ Nat.le_add_right ..

/-- The days of a year, counted by its divisors. -/
theorem monthStart_twelve_eq (y : ℤ) : (monthStart y 12 : ℤ) =
    365 + (if 4 ∣ y then 1 else 0) - (if 100 ∣ y then 1 else 0) + if 400 ∣ y then 1 else 0 := by
  rw [monthStart_twelve]
  by_cases h : IsLeap y
  · rw [if_pos h.1]
    have hcent := h.2
    split_ifs <;> omega
  · have hnot : ¬(4 ∣ y ∧ (100 ∣ y → 400 ∣ y)) := h
    split_ifs <;> omega

/-- A year has the days of its months. -/
theorem yearStart_add_one (y : ℤ) : yearStart (y + 1) = yearStart y + monthStart y 12 := by
  have h4 : (y + 1 - 1969) / 4 = (y - 1969) / 4 + if 4 ∣ y then 1 else 0 := by
    split <;> omega
  have h100 : (y + 1 - 1901) / 100 = (y - 1901) / 100 + if 100 ∣ y then 1 else 0 := by
    split <;> omega
  have h400 : (y + 1 - 1601) / 400 = (y - 1601) / 400 + if 400 ∣ y then 1 else 0 := by
    split <;> omega
  rw [monthStart_twelve_eq, yearStart, yearStart, h4, h100, h400]
  ring

theorem yearStart_strictMono : StrictMono yearStart := by
  refine strictMono_int_of_lt_succ fun y => ?_
  have hpos : 0 < monthStart y 12 := by
    rw [monthStart_twelve]
    split <;> decide
  rw [yearStart_add_one]
  omega

namespace Date

theorem dayNumber_epoch : epoch.dayNumber = 0 := by decide

/-- The day after has the next number. -/
theorem dayNumber_next (d : Date) : d.next.dayNumber = d.dayNumber + 1 := by
  unfold next
  split
  · simp only [dayNumber]
    push_cast
    ring
  · have hfull : d.day = monthLength d.year d.month := by
      have hle := d.le
      omega
    split
    · simp only [dayNumber, first, monthStart_succ, hfull]
      push_cast
      ring
    · have hlast : d.month = 11 := by
        have hlt := d.month_lt
        omega
      have hyear : monthStart d.year 12 = monthStart d.year 11 + monthLength d.year 11 := monthStart_succ ..
      simp only [dayNumber, first, yearStart_add_one, hfull, hlast, hyear]
      simp only [monthStart, Finset.sum_range_zero]
      push_cast
      ring

/-- Days and numbers agree. -/
theorem dayNumber_ofDay (n : ℤ) : (ofDay n).dayNumber = n := by
  induction n using Int.induction_on with
  | zero => exact dayNumber_epoch
  | succ n ih => rw [ofDay_add_one, dayNumber_next, ih]
  | pred n ih =>
    have hnext := ofDay_add_one (-(n : ℤ) - 1)
    rw [Int.sub_add_cancel] at hnext
    have hnumber := dayNumber_next (ofDay (-(n : ℤ) - 1))
    rw [← hnext] at hnumber
    omega

/-- A day lies in its year. -/
theorem dayNumber_bounds (d : Date) : yearStart d.year ≤ d.dayNumber ∧ d.dayNumber < yearStart (d.year + 1) := by
  have hpos := d.pos
  have hle := d.le
  have hmonth : monthStart d.year (d.month + 1) ≤ monthStart d.year 12 := monthStart_mono d.year d.month_lt
  rw [monthStart_succ] at hmonth
  rw [yearStart_add_one, dayNumber]
  omega

/-- **The number says the date.** -/
theorem dayNumber_injective : Function.Injective dayNumber := by
  rintro d e heq
  have hd := d.dayNumber_bounds
  have he := e.dayNumber_bounds
  -- both days are in the same year
  have hyear : d.year = e.year := by
    have h₁ : d.year < e.year + 1 := yearStart_strictMono.lt_iff_lt.mp (by omega)
    have h₂ : e.year < d.year + 1 := yearStart_strictMono.lt_iff_lt.mp (by omega)
    omega
  have hdpos := d.pos
  have hdle := d.le
  have hepos := e.pos
  have hele := e.le
  -- and in the same month
  have hmonth : d.month = e.month := by
    rw [dayNumber, dayNumber, hyear] at heq
    rw [hyear] at hdle
    by_contra hne
    obtain hlt | hlt := Nat.lt_or_gt_of_ne hne
    · have hmono := monthStart_mono e.year (Nat.succ_le_of_lt hlt)
      rw [monthStart_succ] at hmono
      omega
    · have hmono := monthStart_mono e.year (Nat.succ_le_of_lt hlt)
      rw [monthStart_succ] at hmono
      omega
  have hday : d.day = e.day := by
    rw [dayNumber, dayNumber, hyear, hmonth] at heq
    omega
  exact Date.ext hyear hmonth hday

/-- A date is the date of its number. -/
theorem ofDay_eq {n : ℤ} (h : d.dayNumber = n) : ofDay n = d := dayNumber_injective ((dayNumber_ofDay n).trans h.symm)

end Date

/-- 1 January 1970 was a Thursday; Sunday is 0. -/
def weekDay (n : ℤ) : ℤ := (4 + n) % 7

example : (Date.ofDay (-25567)).year = 1900 ∧ (Date.ofDay (-25567)).month = 0 ∧ weekDay (-25567) = 1 := by
  rw [Date.ofDay_eq (d := .first 1900 0 (by decide)) (by decide)]
  decide

end QuickJs.Calendar
