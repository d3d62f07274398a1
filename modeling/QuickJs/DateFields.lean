import QuickJs.Calendar
import QuickJs.Rounding

/-!
# Dates and their fields

The fields of a time value and the time value of fields. Operations on 64 bits that overflow, and conversions of
doubles that do not fit, have no result; nor has a loop that does not end.
-/

namespace QuickJs.JsDate

open Rounding

/-- A value of `int64_t`. -/
def int64 (x : ℤ) : Option ℤ := if -2 ^ 63 ≤ x ∧ x < 2 ^ 63 then some x else none

/-- The conversion of a double to `int64_t`. -/
def toInt64 : Number → Option ℤ
  | .nan => none
  | .finite q => int64 (trunc q)

/-- `math_mod`. -/
def mathMod (a b : ℤ) : ℤ :=
  let m := a.tmod b
  m + if m < 0 then b else 0

/-- `floor_div`. -/
def floorDiv (a b : ℤ) : Option ℤ := do
  let m := a.tmod b
  let n ← int64 (a - (m + if m < 0 then b else 0))
  return n.tdiv b

/-- `days_from_year`. -/
def daysFromYear (y : ℤ) : Option ℤ := do
  let days ← int64 (365 * (← int64 (y - 1970)))
  let days ← int64 (days + (← floorDiv (← int64 (y - 1969)) 4))
  let days ← int64 (days - (← floorDiv (← int64 (y - 1901)) 100))
  int64 (days + (← floorDiv (← int64 (y - 1601)) 400))

/-- `days_in_year`. -/
def daysInYear (y : ℤ) : ℤ :=
  365 + (if y.tmod 4 = 0 then 1 else 0) - (if y.tmod 100 = 0 then 1 else 0) + if y.tmod 400 = 0 then 1 else 0

/-- The loop of `year_from_days`, which runs at most `fuel` times. -/
def yearLoop (d : ℤ) : ℕ → ℤ → Option (ℤ × ℤ)
  | 0, _ => none
  | fuel + 1, y => do
    let d₁ ← int64 (d - (← daysFromYear y))
    if d₁ < 0 then yearLoop d fuel (← int64 (y - 1))
    else if d₁ < daysInYear y then return (y, d₁)
    else yearLoop d fuel (← int64 (y + 1))

/-- `year_from_days`: the year, and the day in it. -/
def yearFromDays (fuel : ℕ) (d : ℤ) : Option (ℤ × ℤ) := do
  let y ← int64 ((← floorDiv (← int64 (d * 10000)) 3652425) + 1970)
  yearLoop d fuel y

/-- `month_days`, and one day more in February of a leap year. -/
def monthDays (y : ℤ) (i : ℕ) : ℤ :=
  [31, 28, 31, 30, 31, 30, 31, 31, 30, 31, 30, 31].getD i 0 + if i = 1 then daysInYear y - 365 else 0

/-- The loop of `get_date_fields` over the months, of which `count` are left. -/
def monthLoop (y : ℤ) : ℕ → ℕ → ℤ → ℕ × ℤ
  | 0, i, days => (i, days)
  | count + 1, i, days =>
    if days < monthDays y i then (i, days) else monthLoop y count (i + 1) (days - monthDays y i)

/-- The fields that `set_date_fields` reads. -/
structure Fields where
  year : ℚ
  month : ℚ
  day : ℚ
  hours : ℚ
  minutes : ℚ
  seconds : ℚ
  ms : ℚ

/-- The fields that `get_date_fields` writes. -/
structure DateFields extends Fields where
  weekDay : ℚ
  tz : ℚ

section

variable (getTimezoneOffset : ℤ → ℤ)

/-- `get_date_fields`, for the time value of the object, which is NaN or finite. It is false for NaN, unless it is
forced to have fields. -/
def getDateFields (fuel : ℕ) (dval : Number) (isLocal force : Bool) : Option (Option DateFields) :=
  if dval = .nan ∧ !force then some none
  else do
    let d ← toInt64 (if dval = .nan then 0 else dval)
    let tz ← int64 (if dval ≠ .nan ∧ isLocal then -getTimezoneOffset d else 0)
    let d ← int64 (d + (← int64 (tz * 60000)))
    let h := mathMod d 86400000
    let days := (← int64 (d - h)).tdiv 86400000
    let ms := h.tmod 1000
    let h := (h - ms).tdiv 1000
    let s := h.tmod 60
    let h := (h - s).tdiv 60
    let m := h.tmod 60
    let h := (h - m).tdiv 60
    let wd := mathMod (days + 4) 7
    let (y, days) ← yearFromDays fuel days
    let (i, days) := monthLoop y 11 0 days
    return some ⟨⟨y, i, (days + 1 : ℤ), h, m, s, ms⟩, wd, tz⟩

/-- `time_clip`. -/
def timeClip : Number → Number
  | .nan => .nan
  | .finite q => if -8640000000000000 ≤ q ∧ q ≤ 8640000000000000 then .finite (trunc q) else .nan

/-- `floor`. -/
def floor : Number → Number
  | .nan => .nan
  | .finite q => .finite ⌊q⌋

/-- The loop of `set_date_fields` over the months before the month. -/
def addMonths (y : ℤ) : ℕ → ℕ → Number → Number
  | 0, _, days => days
  | count + 1, i, days => addMonths y count (i + 1) (days + .finite (monthDays y i))

/-- `set_date_fields`. -/
def setDateFields (fields : Fields) (isLocal : Bool) : Option Number := do
  let m := trunc (fields.month - 12 * trunc (fields.month / 12))
  let m := if m < 0 then m + 12 else m
  let y ← toInt64 (.finite fields.year + floor (.finite fields.month / 12))
  let days := double (← daysFromYear y)
  let days := addMonths y m.toNat 0 days
  let days := days + (.finite fields.day - 1)
  let h := .finite fields.hours * 3600000 + .finite fields.minutes * 60000 + .finite fields.seconds * 1000 +
    .finite fields.ms
  let d := days * 86400000 + h
  if isLocal then return timeClip (d + .finite (getTimezoneOffset (← toInt64 d) * 60000 : ℤ))
  return timeClip d

end

end QuickJs.JsDate
