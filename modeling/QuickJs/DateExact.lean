import QuickJs.DateFields

/-!
# The fields of a date are those of the calendar

The day of a time value has its year, its month and its day of the month, and they give the time value back.
-/

namespace QuickJs.JsDate

open Rounding
open Calendar

variable {x y a b d : ℤ}

/-! ## Operations on 64 bits -/

theorem int64_eq (h₀ : -2 ^ 63 ≤ x) (h : x < 2 ^ 63) : int64 x = some x := if_pos ⟨h₀, h⟩

theorem mathMod_eq (hb : 0 < b) : mathMod a b = a % b := by
  rw [mathMod, Int.tmod_eq_emod]
  have hlt := Int.emod_lt_of_pos a hb
  have hle := Int.emod_nonneg a hb.ne'
  split_ifs <;> omega

/-- The remainder is taken off first. -/
theorem tdiv_step (ha : 0 ≤ a) (hb : 0 < b) : a.tmod b = a % b ∧ (a - a % b).tdiv b = a / b := by
  have hdiv := Int.mul_ediv_add_emod a b
  have heq : a - a % b = b * (a / b) := by omega
  exact ⟨Int.tmod_eq_emod_of_nonneg ha, heq ▸ Int.mul_tdiv_cancel_left _ hb.ne'⟩

/-- Taking the remainder off rounds down. -/
theorem sub_mathMod (hb : 0 < b) : a - (a.tmod b + if a.tmod b < 0 then b else 0) = b * (a / b) := by
  have hm : a.tmod b + (if a.tmod b < 0 then b else 0) = a % b := mathMod_eq hb
  have hdiv := Int.mul_ediv_add_emod a b
  omega

/-- A division that rounds down. -/
theorem floorDiv_eq (hb : 0 < b) (h₀ : -2 ^ 63 ≤ b * (a / b)) (h : b * (a / b) < 2 ^ 63) :
    floorDiv a b = some (a / b) := by
  have hquot : (b * (a / b)).tdiv b = a / b := Int.mul_tdiv_cancel_left _ hb.ne'
  rw [floorDiv, sub_mathMod hb, int64_eq h₀ h]
  exact congrArg some hquot

/-- `days_from_year` is exact, as long as its sums do not overflow. -/
theorem daysFromYear_eq (h₀ : -25252216391113090 ≤ y) (h : y ≤ 25252216391117030) :
    daysFromYear y = some (yearStart y) := by
  have h1970 : int64 (y - 1970) = some (y - 1970) := int64_eq (by omega) (by omega)
  have hyears : int64 (365 * (y - 1970)) = some (365 * (y - 1970)) := int64_eq (by omega) (by omega)
  have h1969 : int64 (y - 1969) = some (y - 1969) := int64_eq (by omega) (by omega)
  have h1901 : int64 (y - 1901) = some (y - 1901) := int64_eq (by omega) (by omega)
  have h1601 : int64 (y - 1601) = some (y - 1601) := int64_eq (by omega) (by omega)
  have hfour : floorDiv (y - 1969) 4 = some ((y - 1969) / 4) := floorDiv_eq (by omega) (by omega) (by omega)
  have hcent : floorDiv (y - 1901) 100 = some ((y - 1901) / 100) := floorDiv_eq (by omega) (by omega) (by omega)
  have hera : floorDiv (y - 1601) 400 = some ((y - 1601) / 400) := floorDiv_eq (by omega) (by omega) (by omega)
  have hsum : int64 (365 * (y - 1970) + (y - 1969) / 4) = some (365 * (y - 1970) + (y - 1969) / 4) :=
    int64_eq (by omega) (by omega)
  have hdiff : int64 (365 * (y - 1970) + (y - 1969) / 4 - (y - 1901) / 100) =
      some (365 * (y - 1970) + (y - 1969) / 4 - (y - 1901) / 100) := int64_eq (by omega) (by omega)
  have hall : int64 (365 * (y - 1970) + (y - 1969) / 4 - (y - 1901) / 100 + (y - 1601) / 400) =
      some (yearStart y) := int64_eq (by omega) (by omega)
  simp only [daysFromYear, h1970, hyears, h1969, h1901, h1601, hfour, hcent, hera, hsum, hdiff, hall,
    Option.bind_eq_bind, Option.bind_some]

theorem tmod_eq_zero : a.tmod b = 0 ↔ b ∣ a := Int.dvd_iff_tmod_eq_zero.symm

theorem daysInYear_eq (y : ℤ) : daysInYear y = monthStart y 12 := by
  rw [monthStart_twelve_eq, daysInYear]
  simp only [tmod_eq_zero]

variable {i : ℕ} {n : ℤ} {fields : Fields}

theorem monthDays_eq (hi : i < 12) : monthDays y i = monthLength y i := by
  have hfebruary : 28 + (daysInYear y - 365) = monthLength y 1 := by
    rw [daysInYear_eq, monthStart_twelve, monthLength]
    split <;> rfl
  by_cases h : i = 1
  · rw [h]
    exact hfebruary
  · interval_cases i <;> first | rfl | contradiction

/-! ## The loops -/

/-- **`year_from_days` ends**: each round comes a year closer. -/
theorem yearLoop_eq (hd : |d| ≤ 2 ^ 40) {z : ℤ} (hle : yearStart z ≤ d) (hlt : d < yearStart (z + 1)) (hz : |z| ≤ 2 ^ 40)
    (hy : |y| ≤ 2 ^ 40) {fuel : ℕ} (hfuel : (z - y).natAbs < fuel) : yearLoop d fuel y = some (z, d - yearStart z) := by
  rw [abs_le] at hd hz
  induction fuel generalizing y with
  | zero => omega
  | succ fuel ih =>
    rw [abs_le] at hy
    have hdays : daysFromYear y = some (yearStart y) := daysFromYear_eq (by omega) (by omega)
    have hstart : int64 (d - yearStart y) = some (d - yearStart y) := by
      rw [yearStart]
      exact int64_eq (by omega) (by omega)
    have hpred : int64 (y - 1) = some (y - 1) := int64_eq (by omega) (by omega)
    have hsucc : int64 (y + 1) = some (y + 1) := int64_eq (by omega) (by omega)
    have hyear : daysInYear y = yearStart (y + 1) - yearStart y := by
      rw [daysInYear_eq, yearStart_add_one]
      omega
    simp only [yearLoop, hdays, hstart, hpred, hsucc, Option.bind_eq_bind, Option.bind_some]
    obtain hless | rfl | hmore := lt_trichotomy y z
    · have hmono : yearStart (y + 1) ≤ yearStart z := yearStart_strictMono.monotone hless
      have hpos : yearStart y < yearStart (y + 1) := yearStart_strictMono (Int.lt_succ y)
      rw [if_neg (by omega), if_neg (by omega)]
      exact ih (abs_le.mpr (by omega)) (by omega)
    · rw [if_neg (by omega), if_pos (by omega)]
      rfl
    · have hmono : yearStart (z + 1) ≤ yearStart y := yearStart_strictMono.monotone hmore
      rw [if_pos (by omega)]
      exact ih (abs_le.mpr (by omega)) (by omega)

/-- The year of a day, and the day in the year. -/
theorem yearFromDays_eq (hd : |d| ≤ 2 ^ 30) {z : ℤ} (hle : yearStart z ≤ d) (hlt : d < yearStart (z + 1)) :
    ∃ n, ∀ fuel ≥ n, yearFromDays fuel d = some (z, d - yearStart z) := by
  rw [abs_le] at hd
  have hz : |z| ≤ 2 ^ 40 := by
    rw [yearStart] at hle hlt
    rw [abs_le]
    omega
  have hmul : int64 (d * 10000) = some (d * 10000) := int64_eq (by omega) (by omega)
  have hdiv : floorDiv (d * 10000) 3652425 = some (d * 10000 / 3652425) := floorDiv_eq (by omega) (by omega) (by omega)
  have hadd : int64 (d * 10000 / 3652425 + 1970) = some (d * 10000 / 3652425 + 1970) := int64_eq (by omega) (by omega)
  refine ⟨(z - (d * 10000 / 3652425 + 1970)).natAbs + 1, fun fuel hfuel => ?_⟩
  simp only [yearFromDays, hmul, hdiv, hadd, Option.bind_eq_bind, Option.bind_some]
  exact yearLoop_eq (abs_le.mpr (by omega)) hle hlt hz (abs_le.mpr (by omega)) hfuel

/-- The month of a day of the year, and the day in the month. -/
theorem monthLoop_eq {month : ℕ} (hmonth : month < 12) (hle : monthStart y month ≤ n)
    (hlt : n < monthStart y (month + 1)) {count : ℕ} (hcount : i + count = 11) (hi : i ≤ month) :
    monthLoop y count i (n - monthStart y i) = (month, n - monthStart y month) := by
  induction count generalizing i with
  | zero =>
    obtain rfl : i = month := by omega
    rfl
  | succ count ih =>
    have hlength : monthDays y i = monthLength y i := monthDays_eq (by omega)
    have hstart : (monthStart y (i + 1) : ℤ) = monthStart y i + monthLength y i := by
      rw [monthStart_succ, Nat.cast_add]
    rw [monthLoop, hlength]
    obtain hless | rfl := Nat.lt_or_eq_of_le hi
    · have hmono : monthStart y (i + 1) ≤ monthStart y month := monthStart_mono y hless
      rw [if_neg (by omega), sub_sub, ← hstart]
      exact ih (by omega) hless
    · rw [if_pos (by omega)]

/-! ## The fields of a time value -/

/-- The fields of a local time: its day in the calendar, and the time of the day. -/
def calendarFields (t tz : ℤ) : DateFields :=
  let date := Date.ofDay (t / 86400000)
  let time := t % 86400000
  { year := date.year, month := date.month, day := date.day, hours := (time / 3600000 : ℤ),
    minutes := (time / 60000 % 60 : ℤ), seconds := (time / 1000 % 60 : ℤ), ms := (time % 1000 : ℤ),
    weekDay := weekDay (t / 86400000), tz := tz }

/-- The month and the day of the month, from the day in the year. -/
theorem monthLoop_date (date : Date) : monthLoop date.year 11 0 (date.dayNumber - yearStart date.year) =
    (date.month, (date.day : ℤ) - 1) := by
  have hpos := date.pos
  have hle := date.le
  have hoff : date.dayNumber - yearStart date.year = monthStart date.year date.month + date.day - 1 := by
    rw [Date.dayNumber]
    ring
  have hsucc := monthStart_succ date.year date.month
  have hloop : monthLoop date.year 11 0 (date.dayNumber - yearStart date.year - monthStart date.year 0) =
      (date.month, date.dayNumber - yearStart date.year - monthStart date.year date.month) :=
    monthLoop_eq date.month_lt (by omega) (by omega) rfl (Nat.zero_le _)
  have hzero : ((monthStart date.year 0 : ℕ) : ℤ) = 0 := rfl
  rw [hzero, sub_zero] at hloop
  rw [hloop, hoff]
  congr 1
  ring

variable (getTimezoneOffset : ℤ → ℤ)

/-- **`get_date_fields` reads the calendar.** -/
theorem getDateFields_eq {t tz : ℤ} {isLocal : Bool} (ht : |t| ≤ 8640000000000000)
    (htz : tz = if isLocal then -getTimezoneOffset t else 0) (hzone : |tz| ≤ 2 ^ 30) :
    ∃ n, ∀ fuel ≥ n, ∀ force, getDateFields getTimezoneOffset fuel (.finite t) isLocal force =
      some (some (calendarFields (t + tz * 60000) tz)) := by
  rw [abs_le] at ht hzone
  have hday := (Date.ofDay ((t + tz * 60000) / 86400000)).dayNumber_bounds
  have hmonth := monthLoop_date (Date.ofDay ((t + tz * 60000) / 86400000))
  rw [Date.dayNumber_ofDay] at hday hmonth
  obtain ⟨n, hyear⟩ := yearFromDays_eq (abs_le.mpr (by omega)) hday.1 hday.2
  refine ⟨n, fun fuel hfuel force => ?_⟩
  have htime : toInt64 (.finite t) = some t := by
    rw [toInt64, trunc_intCast]
    exact int64_eq (by omega) (by omega)
  have hoffset : int64 (if isLocal = true then -getTimezoneOffset t else 0) = some tz := by
    rw [← htz]
    exact int64_eq (by omega) (by omega)
  have hminutes : int64 (tz * 60000) = some (tz * 60000) := int64_eq (by omega) (by omega)
  have hlocal : int64 (t + tz * 60000) = some (t + tz * 60000) := int64_eq (by omega) (by omega)
  rw [getDateFields]
  simp only [reduceCtorEq, if_false, ne_eq, not_false_eq_true, true_and, htime, hoffset, hminutes, hlocal,
    Option.bind_eq_bind, Option.bind_some]
  have hbound : -2 ^ 54 ≤ t + tz * 60000 ∧ t + tz * 60000 < 2 ^ 54 := by omega
  generalize t + tz * 60000 = l at *
  -- the time of the day is not negative
  have hmod : mathMod l 86400000 = l % 86400000 := mathMod_eq (by decide)
  have hpos : 0 ≤ l % 86400000 := Int.emod_nonneg _ (by decide)
  have hsub : int64 (l - l % 86400000) = some (86400000 * (l / 86400000)) := by
    have heq : l - l % 86400000 = 86400000 * (l / 86400000) := by omega
    rw [heq]
    exact int64_eq (by omega) (by omega)
  have hdays : (86400000 * (l / 86400000)).tdiv 86400000 = l / 86400000 :=
    Int.mul_tdiv_cancel_left _ (by decide)
  have hweek : mathMod (l / 86400000 + 4) 7 = weekDay (l / 86400000) := by
    rw [mathMod_eq (by decide), weekDay, Int.add_comm]
  simp only [hmod, hsub, hdays, hweek, hyear fuel hfuel, hmonth, Option.bind_some]
  rw [calendarFields]
  generalize l % 86400000 = time at hpos
  have hsec := tdiv_step hpos (b := 1000) (by decide)
  have hmin := tdiv_step (a := time / 1000) (b := 60) (by omega) (by decide)
  have hhour := tdiv_step (a := time / 1000 / 60) (b := 60) (by omega) (by decide)
  simp only [hsec, hmin, hhour]
  have h₁ : time / 1000 / 60 % 60 = time / 60000 % 60 := by omega
  have h₂ : time / 1000 / 60 / 60 = time / 3600000 := by omega
  rw [h₁, h₂]
  simp

/-! ## The time value of fields -/

/-- The year that `set_date_fields` converts. -/
def yearOf (fields : Fields) : Number := .finite fields.year + floor (.finite fields.month / 12)

/-- The month of the year. -/
def monthOf (fields : Fields) : ℕ :=
  let m := trunc (fields.month - 12 * trunc (fields.month / 12))
  (if m < 0 then m + 12 else m).toNat

/-- The time value of fields before the clip: operations on doubles in the order that the source fixes, from the days
of the calendar. -/
def dateValue (fields : Fields) : Number :=
  match yearOf fields with
  | .nan => .nan
  | .finite q =>
    let days := addMonths (trunc q) (monthOf fields) 0 (double (yearStart (trunc q)))
    (days + (.finite fields.day - 1)) * 86400000 + (.finite fields.hours * 3600000 + .finite fields.minutes * 60000 +
      .finite fields.seconds * 1000 + .finite fields.ms)

/-- The days of the year are counted without overflow. -/
def YearFits (fields : Fields) : Prop :=
  ∃ q, yearOf fields = .finite q ∧ -25252216391113090 ≤ trunc q ∧ trunc q ≤ 25252216391117030

theorem dateValue_of_year {q : ℚ} (h : yearOf fields = .finite q) : dateValue fields =
    (addMonths (trunc q) (monthOf fields) 0 (double (yearStart (trunc q))) + (.finite fields.day - 1)) * 86400000 +
      (.finite fields.hours * 3600000 + .finite fields.minutes * 60000 + .finite fields.seconds * 1000 +
        .finite fields.ms) := by
  unfold dateValue
  rw [h]

theorem dateValue_of_nan (h : yearOf fields = .nan) : dateValue fields = .nan := by
  unfold dateValue
  rw [h]

/-- Without overflow, the time value is clipped; the zone is added before. -/
theorem setDateFields_of_fits (h : YearFits fields) (isLocal : Bool) :
    setDateFields getTimezoneOffset fields isLocal = if isLocal then (toInt64 (dateValue fields)).map fun d =>
        timeClip (dateValue fields + .finite (getTimezoneOffset d * 60000 : ℤ))
      else some (timeClip (dateValue fields)) := by
  obtain ⟨q, hq, h₀, h₁⟩ := h
  have hyear : toInt64 (.finite fields.year + floor (.finite fields.month / 12)) = some (trunc q) := by
    rw [yearOf] at hq
    rw [hq]
    exact int64_eq (by omega) (by omega)
  have hdays : daysFromYear (trunc q) = some (yearStart (trunc q)) := daysFromYear_eq h₀ h₁
  rw [dateValue_of_year hq, monthOf]
  unfold setDateFields
  rw [hyear]
  simp only [Option.bind_eq_bind, Option.bind_some]
  rw [hdays]
  simp only [Option.bind_some]
  cases isLocal with
  | false => rfl
  | true =>
    cases toInt64 _ <;> rfl

/-- The year that months are added to. -/
theorem floor_div_twelve (h : |n| ≤ 2 ^ 53) : floor (.finite n / 12) = .finite (n / 12 : ℤ) := by
  have hdouble : (Number.finite n / 12 : Number) = double (n / 12) := rfl
  by_cases hdvd : 12 ∣ n
  · obtain ⟨k, rfl⟩ := hdvd
    have hquot : ((12 * k : ℤ) : ℚ) / 12 = (k : ℤ) := by
      push_cast
      ring
    rw [abs_le] at h
    rw [hdouble, hquot, double_intCast (abs_le.mpr (by omega)), floor, Int.floor_intCast]
    congr 3
    omega
  · have hlarge : |(n : ℚ) / 12| < 2 ^ (50 : ℤ) := by
      have hcast : |(n : ℚ)| ≤ 2 ^ 53 := by exact_mod_cast h
      rw [abs_div]
      linarith
    have hne : (n : ℚ) / 12 ≠ 0 := by
      refine div_ne_zero ?_ (by norm_num)
      rw [Int.cast_ne_zero]
      omega
    have hbit : (2 : ℚ) ^ lastBit ((n : ℚ) / 12) ≤ 2 ^ (-3 : ℤ) :=
      zpow_le_zpow_right₀ one_le_two (lastBit_le hlarge (by decide) hne)
    have herror := (abs_nearest_sub_le ((n : ℚ) / 12)).trans (div_le_div_of_nonneg_right hbit two_pos.le)
    rw [abs_le] at herror
    -- the quotient is a twelfth away from an integer
    have hdiv : (n : ℚ) = 12 * (n / 12 : ℤ) + (n % 12 : ℤ) := by exact_mod_cast (Int.mul_ediv_add_emod n 12).symm
    have hrem : (1 : ℚ) ≤ (n % 12 : ℤ) ∧ ((n % 12 : ℤ) : ℚ) ≤ 11 := by
      constructor <;> exact_mod_cast (by omega)
    have hfloor : ⌊nearest ((n : ℚ) / 12)⌋ = n / 12 := by
      rw [Int.floor_eq_iff]
      constructor <;> linarith
    have hfinite : |nearest ((n : ℚ) / 12)| < 2 ^ 1024 := by
      have hle : |nearest ((n : ℚ) / 12)| < 2 ^ 51 := by
        rw [abs_lt] at hlarge ⊢
        constructor <;> linarith
      exact hle.trans (pow_lt_pow_right₀ one_lt_two (by norm_num))
    rw [hdouble, double, if_pos hfinite, floor, hfloor]

/-- The months before the month. -/
theorem addMonths_eq {count : ℕ} (hcount : i + count ≤ 12) (hn : |n| + 31 * count ≤ 2 ^ 53) :
    addMonths y count i (.finite n) = .finite (n + (monthStart y (i + count) - monthStart y i) : ℤ) := by
  induction count generalizing i n with
  | zero => rw [addMonths, Nat.add_zero, sub_self, add_zero]
  | succ count ih =>
    have hlength : monthLength y i ≤ 31 := by
      unfold monthLength
      split_ifs <;> decide
    have hsucc : (monthStart y (i + 1) : ℤ) = monthStart y i + monthLength y i := by
      rw [monthStart_succ, Nat.cast_add]
    have htri : |n + (monthLength y i : ℤ)| ≤ |n| + monthLength y i := by
      have habs := abs_add_le n (monthLength y i : ℤ)
      rwa [Nat.abs_cast] at habs
    have hadd : Number.finite n + .finite (monthDays y i) = .finite (n + monthLength y i : ℤ) := by
      rw [monthDays_eq (by omega)]
      exact Number.add_intCast (by omega)
    rw [addMonths, hadd, ih (by omega) (by omega), hsucc]
    congr 2
    rw [Nat.add_right_comm, Nat.add_assoc i count 1]
    ring

/-- The month of the year. -/
theorem trunc_fmod_twelve (n : ℤ) : trunc ((n : ℚ) - 12 * trunc ((n : ℚ) / 12)) = n.tmod 12 := by
  have htrunc : trunc ((n : ℚ) / 12) = n.tdiv 12 := by
    have hfloor : ⌊(n : ℚ) / 12⌋ = n / 12 := Rat.floor_intCast_div_natCast n 12
    have hceil : ⌈(n : ℚ) / 12⌉ = -(-n / 12) := Rat.ceil_intCast_div_natCast n 12
    rw [trunc, hfloor, hceil]
    split
    · have hpos : 0 ≤ n := by
        by_contra hneg
        have hlt : (n : ℚ) < 0 := by exact_mod_cast Int.not_le.mp hneg
        linarith
      exact (Int.tdiv_eq_ediv_of_nonneg hpos).symm
    · rename_i h
      have hneg : 0 ≤ -n := by
        by_contra hpos
        have hlt : (0 : ℚ) < n := by exact_mod_cast (by omega : 0 < n)
        exact h (by linarith)
      rw [← neg_neg n, Int.neg_tdiv, Int.tdiv_eq_ediv_of_nonneg hneg, neg_neg]
  have hmod := Int.mul_tdiv_add_tmod n 12
  have hcast : (n : ℚ) - 12 * (n.tdiv 12 : ℤ) = (n.tmod 12 : ℤ) := by
    have hq : (12 : ℚ) * (n.tdiv 12 : ℤ) + (n.tmod 12 : ℤ) = n := by exact_mod_cast hmod
    linarith
  rw [htrunc, hcast, trunc_intCast]

variable {month day hours minutes seconds ms : ℤ}

/-- **The days of the calendar are counted**, where no sum has more than 53 bits. -/
theorem dateValue_eq (hyear : |y| ≤ 2 ^ 43) (hmonth : |month / 12| ≤ 2 ^ 43) (hday : |day| ≤ 2 ^ 52)
    (hhours : |hours| ≤ 2 ^ 28) (hminutes : |minutes| ≤ 2 ^ 34) (hseconds : |seconds| ≤ 2 ^ 40)
    (hms : |ms| ≤ 2 ^ 50) {days time : ℤ}
    (hdays : days = yearStart (y + month / 12) + monthStart (y + month / 12) (month % 12).toNat + day - 1)
    (hlarge : |days * 86400000| ≤ 2 ^ 53)
    (htime : time = hours * 3600000 + minutes * 60000 + seconds * 1000 + ms)
    (hsum : |days * 86400000 + time| ≤ 2 ^ 53) :
    YearFits ⟨y, month, day, hours, minutes, seconds, ms⟩ ∧
      dateValue ⟨y, month, day, hours, minutes, seconds, ms⟩ = .finite (days * 86400000 + time : ℤ) := by
  have hrem : (if month.tmod 12 < 0 then month.tmod 12 + 12 else month.tmod 12) = month % 12 := by
    have hm : month.tmod 12 + (if month.tmod 12 < 0 then 12 else 0) = month % 12 := mathMod_eq (by decide)
    rw [← hm]
    split
    · rfl
    · exact (add_zero _).symm
  rw [abs_le] at *
  have hfirst : yearOf ⟨y, month, day, hours, minutes, seconds, ms⟩ = .finite (y + month / 12 : ℤ) := by
    rw [yearOf, floor_div_twelve (abs_le.mpr (by omega)), Number.add_intCast (abs_le.mpr (by omega))]
  have hmonth12 : monthOf ⟨y, month, day, hours, minutes, seconds, ms⟩ = (month % 12).toNat := by
    rw [monthOf, trunc_fmod_twelve, hrem]
  have hyears : |y + month / 12| ≤ 2 ^ 44 := abs_le.mpr (by omega)
  generalize y + month / 12 = year at *
  have hmonths : monthStart year (month % 12).toNat ≤ 366 := by
    have hmono : monthStart year (month % 12).toNat ≤ monthStart year 12 := monthStart_mono year (by omega)
    have htwelve : monthStart year 12 ≤ 366 := by
      rw [monthStart_twelve]
      split <;> decide
    exact hmono.trans htwelve
  have hfits : YearFits ⟨y, month, day, hours, minutes, seconds, ms⟩ := by
    rw [abs_le] at hyears
    exact ⟨_, hfirst, by rw [trunc_intCast]; omega, by rw [trunc_intCast]; omega⟩
  have hadded : addMonths year (month % 12).toNat 0 (double (yearStart year)) =
      .finite (yearStart year + monthStart year (month % 12).toNat : ℤ) := by
    have habs : |yearStart year| ≤ 2 ^ 52 + 2 ^ 51 := abs_le.mpr (by omega)
    rw [double_intCast (habs.trans (by decide)), addMonths_eq (by omega) (by omega), Nat.zero_add]
    have hzero : monthStart year 0 = 0 := rfl
    rw [hzero, Nat.cast_zero, sub_zero]
  have hone : Number.finite day - 1 = .finite (day - 1 : ℤ) := Number.sub_intCast (n := 1) (abs_le.mpr (by omega))
  have htotal : Number.finite (yearStart year + monthStart year (month % 12).toNat : ℤ) + .finite (day - 1 : ℤ) =
      .finite days := by
    rw [Number.add_intCast (abs_le.mpr (by omega)), hdays]
    congr 2
    ring
  have hproduct : Number.finite days * 86400000 = .finite (days * 86400000 : ℤ) :=
    Number.mul_intCast (n := 86400000) (abs_le.mpr hlarge)
  have hhour : Number.finite hours * 3600000 = .finite (hours * 3600000 : ℤ) :=
    Number.mul_intCast (n := 3600000) (abs_le.mpr (by omega))
  have hminute : Number.finite minutes * 60000 = .finite (minutes * 60000 : ℤ) :=
    Number.mul_intCast (n := 60000) (abs_le.mpr (by omega))
  have hsecond : Number.finite seconds * 1000 = .finite (seconds * 1000 : ℤ) :=
    Number.mul_intCast (n := 1000) (abs_le.mpr (by omega))
  have htimes : Number.finite (hours * 3600000 : ℤ) + .finite (minutes * 60000 : ℤ) + .finite (seconds * 1000 : ℤ) +
      .finite ms = .finite time := by
    rw [Number.add_intCast (abs_le.mpr (by omega)), Number.add_intCast (abs_le.mpr (by omega)),
      Number.add_intCast (abs_le.mpr (by omega)), htime]
  refine ⟨hfits, ?_⟩
  rw [dateValue_of_year hfirst]
  simp only [trunc_intCast, hmonth12, hadded, hone, htotal, hproduct, hhour, hminute, hsecond, htimes,
    Number.add_intCast (abs_le.mpr hsum)]

theorem timeClip_intCast (t : ℤ) : timeClip (.finite t) = if |t| ≤ 8640000000000000 then .finite t else .nan := by
  have hiff : (-8640000000000000 ≤ (t : ℚ) ∧ (t : ℚ) ≤ 8640000000000000) ↔ |t| ≤ 8640000000000000 := by
    rw [abs_le]
    constructor
    · rintro ⟨h₁, h₂⟩
      exact ⟨by exact_mod_cast h₁, by exact_mod_cast h₂⟩
    · rintro ⟨h₁, h₂⟩
      exact ⟨by exact_mod_cast h₁, by exact_mod_cast h₂⟩
  rw [timeClip, trunc_intCast]
  simp only [hiff]

/-- A day lies near its year. -/
theorem year_bounds {date : Date} (h : |date.dayNumber| ≤ 2 ^ 30) : |date.year| ≤ 2 ^ 23 := by
  have hday := date.dayNumber_bounds
  rw [yearStart, yearStart] at hday
  rw [abs_le] at h ⊢
  omega

/-- The fields of a date and a time of the day. -/
theorem setDateFields_date (date : Date) (hdate : |date.dayNumber| ≤ 104249991) (hhours : |hours| ≤ 2 ^ 28)
    (hminutes : |minutes| ≤ 2 ^ 34) (hseconds : |seconds| ≤ 2 ^ 40) (hms : |ms| ≤ 2 ^ 50) {t : ℤ}
    (ht : t = date.dayNumber * 86400000 + (hours * 3600000 + minutes * 60000 + seconds * 1000 + ms))
    (hlarge : |t| ≤ 2 ^ 53) :
    setDateFields getTimezoneOffset ⟨date.year, date.month, date.day, hours, minutes, seconds, ms⟩ false =
      some (timeClip (.finite t)) := by
  have hyear := year_bounds (hdate.trans (by decide))
  have hday : (date.day : ℤ) ≤ 31 := by
    have hle := date.le
    have hlength : monthLength date.year date.month ≤ 31 := by
      unfold monthLength
      split_ifs <;> decide
    omega
  have hlt := date.month_lt
  have hquot : ((date.month : ℤ) / 12) = 0 := by omega
  have hrem : ((date.month : ℤ) % 12).toNat = date.month := by omega
  have hdays : date.dayNumber = yearStart (date.year + (date.month : ℤ) / 12) +
      monthStart (date.year + (date.month : ℤ) / 12) ((date.month : ℤ) % 12).toNat + date.day - 1 := by
    rw [hquot, hrem, add_zero, Date.dayNumber]
  have hproduct : |date.dayNumber * 86400000| ≤ 2 ^ 53 := by
    rw [abs_le] at hdate ⊢
    omega
  rw [ht] at hlarge ⊢
  have hvalue := dateValue_eq (hyear.trans (by decide)) (by rw [hquot]; decide) (abs_le.mpr (by omega)) hhours hminutes
    hseconds hms hdays hproduct rfl hlarge
  have hset := setDateFields_of_fits getTimezoneOffset hvalue.1 false
  rw [hvalue.2] at hset
  exact hset

/-- **The calendar conversion is exact, and it is inverted.** -/
theorem calendar_exact (t : ℤ) (ht : |t| ≤ 8640000000000000) :
    (∃ n, ∀ fuel ≥ n, (yearFromDays fuel (t / 86400000)).map Prod.fst = some (Date.ofDay (t / 86400000)).year ∧
      ∀ force, getDateFields getTimezoneOffset fuel (.finite t) false force = some (some (calendarFields t 0))) ∧
    setDateFields getTimezoneOffset (calendarFields t 0).toFields false = some (.finite t) := by
  have hdate := Date.dayNumber_ofDay (t / 86400000)
  have hbounds := abs_le.mp ht
  constructor
  · have hfields : ∃ n, ∀ fuel ≥ n, ∀ force, getDateFields getTimezoneOffset fuel (.finite t) false force =
        some (some (calendarFields (t + 0 * 60000) 0)) := getDateFields_eq getTimezoneOffset ht rfl (by decide)
    obtain ⟨n, hget⟩ := hfields
    have hday := (Date.ofDay (t / 86400000)).dayNumber_bounds
    rw [hdate] at hday
    obtain ⟨k, hyear⟩ := yearFromDays_eq (abs_le.mpr (by omega)) hday.1 hday.2
    refine ⟨max n k, fun fuel hfuel => ⟨?_, fun force => ?_⟩⟩
    · rw [hyear fuel (le_of_max_le_right hfuel)]
      rfl
    · rw [hget fuel (le_of_max_le_left hfuel) force, zero_mul, add_zero]
  · have hset : setDateFields getTimezoneOffset (calendarFields t 0).toFields false = some (timeClip (.finite t)) := by
      refine setDateFields_date getTimezoneOffset _ ?_ ?_ ?_ ?_ ?_ ?_ (ht.trans (by decide))
      · rw [abs_le]
        omega
      · rw [abs_le]
        omega
      · rw [abs_le]
        omega
      · rw [abs_le]
        omega
      · rw [abs_le]
        omega
      · omega
    rw [hset, timeClip_intCast, if_pos ht]

theorem calendar_exact_leap : setDateFields (fun _ => 0) (calendarFields (-62162210655001) 0).toFields false =
    some (.finite (-62162210655001 : ℤ)) :=
  (calendar_exact (fun _ => 0) (-62162210655001) (by decide)).2

end QuickJs.JsDate
