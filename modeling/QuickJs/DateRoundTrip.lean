import QuickJs.DateScan
import QuickJs.DateExact

/-!
# Parsing what is printed

`Date.parse` reads the texts of `toISOString`, `toUTCString` and `toString`.
-/

namespace QuickJs.JsDate

open Rounding
open Calendar

variable {y month day hours minutes seconds ms wd tz n : ℤ} {seps rest s : List ℕ} {vs : List ℤ} {sep : ℕ}

/-! ## The ISO format -/

/-- The year of the ISO format. -/
def isoYear (y : ℤ) : List ℕ := if 0 ≤ y ∧ y ≤ 9999 then printInt 4 false y else printInt 7 true y

theorem stringGetSignedDigits_isoYear (hmin : -2 ^ 62 < y) (hmax : y < 2 ^ 62) (hrest : Stops rest) :
    stringGetSignedDigits checked (isoYear y ++ rest) = .ok (y, rest) := by
  unfold isoYear
  split
  · exact stringGetSignedDigits_printInt 4 false hmin hmax hrest
  · exact stringGetSignedDigits_printInt 7 true hmin hmax hrest

/-- The year starts with a digit or a sign. -/
theorem isIso_isoYear (y : ℤ) (rest : List ℕ) : isIso (isoYear y ++ rest) = true := by
  have hdigits : ∀ k m : ℕ, isIso (List.replicate k 48 ++ Atom.decimal m ++ rest) = true := by
    intro k m
    obtain ⟨s, hs, hne, hdigits, -⟩ := exists_digits k m
    obtain ⟨c, s, rfl⟩ := List.exists_cons_of_ne_nil hne
    rw [hs, isIso, List.cons_append, List.head?_cons, Option.any_some, hdigits c List.mem_cons_self]
    rfl
  unfold isoYear printInt
  split
  · rename_i h
    rw [if_neg (Int.not_lt.mpr h.1)]
    exact hdigits _ _
  · split <;> rfl

/-- A field is read after its separator. -/
theorem isoLoop_digits (hsep : sep ≠ '.'.toNat) (hn : 0 ≤ n ∧ n < 2 ^ 62) (hrest : Stops rest)
    (h : isoLoop checked seps rest = .ok (vs, s)) :
    isoLoop checked (sep :: seps) (sep :: (printInt 2 false n ++ rest)) = .ok (n :: vs, s) := by
  rw [isoLoop, if_neg hsep, stringGetDigits_printInt 2 hn.1 hn.2 hrest]
  simp only [bind, Except.bind, h]
  rfl

theorem isoLoop_milliseconds {k : ℕ} (hk : k < 1000) (hrest : Stops rest) (h : isoLoop checked seps rest = .ok (vs, s)) :
    isoLoop checked (46 :: seps) (46 :: (printInt 3 false k ++ rest)) = .ok ((k : ℤ) :: vs, s) := by
  rw [isoLoop, stringGetMilliseconds_printInt hk hrest]
  simp only [bind, Except.bind, h]
  rfl

/-- **The ISO format is read.** -/
theorem parseIso_print (hy : -2 ^ 62 < y ∧ y < 2 ^ 62) (hmonth : 0 ≤ month ∧ month < 2 ^ 61)
    (hday : 0 ≤ day ∧ day < 2 ^ 62) (hhours : 0 ≤ hours ∧ hours < 2 ^ 62) (hminutes : 0 ≤ minutes ∧ minutes < 2 ^ 62)
    (hseconds : 0 ≤ seconds ∧ seconds < 2 ^ 62) (hms : 0 ≤ ms ∧ ms < 1000) :
    let s := datePart 2 3 y month day wd ++ timePart 2 hours minutes seconds ms tz
    isIso s = true ∧ parseIso checked s = .ok ⟨[y, month, day, hours, minutes, seconds, ms], 0, false⟩ := by
  obtain ⟨k, rfl⟩ := Int.eq_ofNat_of_zero_le hms.1
  have htext : datePart 2 3 y month day wd ++ timePart 2 hours minutes seconds k tz = isoYear y ++
      (45 :: (printInt 2 false (month + 1) ++ 45 :: (printInt 2 false day ++ 84 :: (printInt 2 false hours ++
        58 :: (printInt 2 false minutes ++ 58 :: (printInt 2 false seconds ++ 46 :: (printInt 3 false k ++ [90]))))))) := by
    simp [datePart, timePart, isoYear, ascii]
  have hloop : isoLoop checked (ascii "--T::.") (45 :: (printInt 2 false (month + 1) ++ 45 :: (printInt 2 false day ++
      84 :: (printInt 2 false hours ++ 58 :: (printInt 2 false minutes ++ 58 :: (printInt 2 false seconds ++
        46 :: (printInt 3 false k ++ [90]))))))) = .ok ([month + 1, day, hours, minutes, seconds, (k : ℤ)], [90]) := by
    refine isoLoop_digits (by decide) (by omega) rfl ?_
    refine isoLoop_digits (by decide) hday rfl ?_
    refine isoLoop_digits (by decide) hhours rfl ?_
    refine isoLoop_digits (by decide) hminutes rfl ?_
    refine isoLoop_digits (by decide) hseconds rfl ?_
    exact isoLoop_milliseconds (by omega) rfl rfl
  have hchecked : checked (month + 1 - 1) = .ok month := by
    rw [add_sub_cancel_right]
    exact checked_eq (by omega) (by omega)
  rw [htext]
  refine ⟨isIso_isoYear y _, ?_⟩
  have hyear : ∀ rest, stringGetSignedDigits checked (isoYear y ++ 45 :: rest) = .ok (y, 45 :: rest) :=
    fun rest => stringGetSignedDigits_isoYear hy.1 hy.2 rfl
  rw [parseIso, hyear]
  simp only [bind, Except.bind, hloop, List.cons_append, List.headD_cons, hchecked]
  rfl

/-! ## The other formats -/

/-- A number does not start with a space. -/
theorem stringSkipSpaces_printInt (width : ℕ) (n : ℤ) (rest : List ℕ) :
    stringSkipSpaces (printInt width false n ++ rest) = printInt width false n ++ rest := by
  have hdigits : ∀ k m : ℕ, stringSkipSpaces (List.replicate k 48 ++ Atom.decimal m ++ rest) =
      List.replicate k 48 ++ Atom.decimal m ++ rest := by
    intro k m
    obtain ⟨s, hs, hne, hdigits, -⟩ := exists_digits k m
    obtain ⟨c, s, rfl⟩ := List.exists_cons_of_ne_nil hne
    have hc := isDigit_iff.mp (hdigits c List.mem_cons_self)
    have hspace : c ≠ ' '.toNat := by
      rintro rfl
      exact absurd hc.1 (by decide)
    rw [hs, stringSkipSpaces, List.cons_append, List.dropWhile_cons_of_neg (by simpa using hspace)]
  unfold printInt
  split
  · rfl
  · exact hdigits _ _

theorem stringSkipSpaces_space (s : List ℕ) : stringSkipSpaces (32 :: s) = stringSkipSpaces s := rfl

/-- The day of the month starts with a digit. -/
theorem head_printInt (width : ℕ) (hn : 0 ≤ n) (rest : List ℕ) :
    (printInt width false n ++ rest).head?.any isDigit = true := by
  rw [printInt, if_neg (Int.not_lt.mpr hn), if_neg Bool.false_ne_true]
  obtain ⟨s, hs, hne, hdigits, -⟩ := exists_digits (width - (Atom.decimal n.natAbs).length) n.natAbs
  obtain ⟨c, s, rfl⟩ := List.exists_cons_of_ne_nil hne
  have htext : ([] : List ℕ) ++ List.replicate (width - ([] : List ℕ).length - (Atom.decimal n.natAbs).length) 48 ++
      Atom.decimal n.natAbs = c :: s := hs
  rw [htext]
  exact hdigits c List.mem_cons_self

/-- The year, the clock and the zone are read. -/
theorem parseString_eq (hdate : dayAndMonth checked (stringSkipSpaces (stringSkipNonSpaces s)) =
      .ok ((day, month), 32 :: (printYear y ++ 32 :: (printInt 2 false hours ++ 58 :: (printInt 2 false minutes ++
        58 :: (printInt 2 false seconds ++ rest))))))
    (hy : -2 ^ 62 < y ∧ y < 2 ^ 62) (hhours : 0 ≤ hours ∧ hours < 2 ^ 62) (hminutes : 0 ≤ minutes ∧ minutes < 2 ^ 62)
    (hseconds : 0 ≤ seconds ∧ seconds < 2 ^ 62) (hrest : Stops rest) (hzone : findZone rest = .ok tz) :
    parseString checked s = .ok ⟨[y, month, day, hours, minutes, seconds, 0], tz, false⟩ := by
  have hyear : ∀ rest, stringGetSignedDigits checked (printYear y ++ 32 :: rest) = .ok (y, 32 :: rest) :=
    fun rest => stringGetSignedDigits_printInt _ false hy.1 hy.2 rfl
  have hhour : ∀ rest, stringGetDigits checked (printInt 2 false hours ++ 58 :: rest) = .ok (hours, 58 :: rest) :=
    fun rest => stringGetDigits_printInt 2 hhours.1 hhours.2 rfl
  have hminute : ∀ rest, stringGetDigits checked (printInt 2 false minutes ++ 58 :: rest) = .ok (minutes, 58 :: rest) :=
    fun rest => stringGetDigits_printInt 2 hminutes.1 hminutes.2 rfl
  have hsecond : stringGetDigits checked (printInt 2 false seconds ++ rest) = .ok (seconds, rest) :=
    stringGetDigits_printInt 2 hseconds.1 hseconds.2 hrest
  have hcolon : ∀ rest, skipColon (58 :: rest) = .ok rest := fun rest => rfl
  have hskip : ∀ rest, stringSkipSpaces (printYear y ++ rest) = printYear y ++ rest :=
    fun rest => stringSkipSpaces_printInt _ y rest
  rw [parseString, hdate]
  simp only [bind, Except.bind, stringSkipSpaces_space, hskip, hyear, stringSkipSpaces_printInt, hhour, hcolon, hminute,
    hsecond, hzone]
  rfl

/-- **The format of `toUTCString` is read.** -/
theorem parseString_utc {month : ℕ} (hwd : 0 ≤ wd ∧ wd < 7) (hmonth : month < 12) (hday : 0 ≤ day ∧ day < 2 ^ 62)
    (hy : -2 ^ 62 < y ∧ y < 2 ^ 62) (hhours : 0 ≤ hours ∧ hours < 2 ^ 62) (hminutes : 0 ≤ minutes ∧ minutes < 2 ^ 62)
    (hseconds : 0 ≤ seconds ∧ seconds < 2 ^ 62) :
    let s := datePart 0 3 y month day wd ++ timePart 0 hours minutes seconds ms tz
    isIso s = false ∧ parseString checked s = .ok ⟨[y, month, day, hours, minutes, seconds, 0], 0, false⟩ := by
  have htext : datePart 0 3 y month day wd ++ timePart 0 hours minutes seconds ms tz = printName dayNames wd ++
      44 :: 32 :: (printInt 2 false day ++ 32 :: (printName monthNames month ++ 32 :: (printYear y ++ 32 ::
        (printInt 2 false hours ++ 58 :: (printInt 2 false minutes ++ 58 :: (printInt 2 false seconds ++
          ascii " GMT")))))) := by
    simp [datePart, timePart, ascii]
  rw [htext]
  have hstops : Stops (ascii " GMT") := rfl
  have hzone : findZone (ascii " GMT") = .ok 0 := rfl
  refine ⟨isIso_printName hwd.1 hwd.2 _, parseString_eq ?_ hy hhours hminutes hseconds hstops hzone⟩
  have hskip : ∀ rest, stringSkipSpaces (stringSkipNonSpaces (44 :: 32 :: rest)) = stringSkipSpaces rest := fun _ => rfl
  have hdigits : ∀ rest, stringGetDigits checked (printInt 2 false day ++ 32 :: rest) = .ok (day, 32 :: rest) :=
    fun rest => stringGetDigits_printInt 2 hday.1 hday.2 rfl
  have hne : ∀ rest, printInt 2 false day ++ rest ≠ [] := by
    intro rest hnil
    have hhead := head_printInt 2 hday.1 rest
    rw [hnil] at hhead
    cases hhead
  rw [stringSkipNonSpaces_printName hwd.1 hwd.2, hskip, stringSkipSpaces_printInt, dayAndMonth, if_neg (hne _),
    if_pos (head_printInt 2 hday.1 _), hdigits]
  simp only [bind, Except.bind, stringGetMonth_space hmonth]
  rfl

/-- A zone is read. -/
theorem findZone_print {m : ℕ} {sgn : ℕ} (hm : m < 1440) (hsgn : sgn = '+'.toNat ∨ sgn = '-'.toNat) :
    findZone (ascii " GMT" ++ sgn :: (printInt 2 false (m / 60 : ℕ) ++ printInt 2 false (m % 60 : ℕ))) =
      .ok (if sgn = '-'.toNat then -(m : ℤ) else m) := by
  have hskip : ∀ s, findZone (ascii " GMT" ++ s) = findZone s := fun _ => rfl
  have hmm := stringGetFixedWidthDigits_printInt (m := m % 60) (by omega) []
  rw [List.append_nil] at hmm
  rw [hskip, findZone, stringGetFixedWidthDigits_printInt (by omega)]
  simp only [bind, Except.bind, hmm, zoneMinutes]
  split <;> congr 1 <;> push_cast <;> omega

/-- **The format of `toString` is read.** -/
theorem parseString_local {month : ℕ} (hwd : 0 ≤ wd ∧ wd < 7) (hmonth : month < 12) (hday : 0 ≤ day ∧ day < 2 ^ 62)
    (hy : -2 ^ 62 < y ∧ y < 2 ^ 62) (hhours : 0 ≤ hours ∧ hours < 2 ^ 62) (hminutes : 0 ≤ minutes ∧ minutes < 2 ^ 62)
    (hseconds : 0 ≤ seconds ∧ seconds < 2 ^ 62) (htz : |tz| < 1440) :
    let s := datePart 1 3 y month day wd ++ timePart 1 hours minutes seconds ms tz
    isIso s = false ∧ parseString checked s = .ok ⟨[y, month, day, hours, minutes, seconds, 0], tz, false⟩ := by
  obtain ⟨m, sgn, hm, hsgn, hzone, hvalue⟩ : ∃ m sgn : ℕ, m < 1440 ∧ (sgn = '+'.toNat ∨ sgn = '-'.toNat) ∧
      (if tz < 0 then ascii "-" else ascii "+") ++ printInt 2 false ((if tz < 0 then -tz else tz).tdiv 60) ++
        printInt 2 false ((if tz < 0 then -tz else tz).tmod 60) =
        sgn :: (printInt 2 false (m / 60 : ℕ) ++ printInt 2 false (m % 60 : ℕ)) ∧
      (if sgn = '-'.toNat then -(m : ℤ) else m) = tz := by
    rw [abs_lt] at htz
    refine ⟨tz.natAbs, if tz < 0 then '-'.toNat else '+'.toNat, by omega, ?_, ?_, ?_⟩
    · split
      · exact .inr rfl
      · exact .inl rfl
    · have habs : (if tz < 0 then -tz else tz) = tz.natAbs := by
        split <;> omega
      rw [habs]
      split <;> rfl
    · split <;> rename_i h
      · omega
      · rw [if_neg (by decide)]
        omega
  have htext : datePart 1 3 y month day wd ++ timePart 1 hours minutes seconds ms tz = printName dayNames wd ++
      32 :: (printName monthNames month ++ 32 :: (printInt 2 false day ++ 32 :: (printYear y ++ 32 ::
        (printInt 2 false hours ++ 58 :: (printInt 2 false minutes ++ 58 :: (printInt 2 false seconds ++
          (ascii " GMT" ++ sgn :: (printInt 2 false (m / 60 : ℕ) ++ printInt 2 false (m % 60 : ℕ))))))))) := by
    rw [← hzone]
    simp [datePart, timePart, ascii]
  have hparsed := hvalue ▸ findZone_print hm hsgn
  have hstops : ∀ s, Stops (ascii " GMT" ++ s) := fun _ => rfl
  rw [htext]
  refine ⟨isIso_printName hwd.1 hwd.2 _, parseString_eq ?_ hy hhours hminutes hseconds (hstops _) hparsed⟩
  have hskip : ∀ rest, stringSkipSpaces (stringSkipNonSpaces (32 :: (printName monthNames month ++ rest))) =
      printName monthNames month ++ rest := by
    intro rest
    interval_cases month <;> rfl
  have hhead : ∀ rest, printName monthNames month ++ rest ≠ [] ∧
      (printName monthNames month ++ rest).head?.any isDigit = false := by
    intro rest
    interval_cases month <;> exact ⟨by rintro ⟨⟩, rfl⟩
  have hdigits : ∀ rest, stringGetDigits checked (printInt 2 false day ++ 32 :: rest) = .ok (day, 32 :: rest) :=
    fun rest => stringGetDigits_printInt 2 hday.1 hday.2 rfl
  rw [stringSkipNonSpaces_printName hwd.1 hwd.2, hskip, dayAndMonth, if_neg (hhead _).1, (hhead _).2,
    stringGetMonth_printName hmonth]
  simp only [bind, Except.bind, stringSkipSpaces_space, stringSkipSpaces_printInt, hdigits]
  rfl

/-! ## There and back -/

variable {getTimezoneOffset : ℤ → ℤ} {t : ℤ}

/-- The text of a date, from the calendar. -/
def dateText (fmt : ℕ) (t tz : ℤ) : List ℕ :=
  let date := Date.ofDay (t / 86400000)
  let time := t % 86400000
  datePart fmt 3 date.year date.month date.day (weekDay (t / 86400000)) ++
    timePart fmt (time / 3600000) (time / 60000 % 60) (time / 1000 % 60) (time % 1000) tz

theorem getDateString_eq {fmt : ℕ} (ht : |t| ≤ 8640000000000000)
    (htz : tz = if fmt % 2 = 1 then -getTimezoneOffset t else 0) (hzone : |tz| ≤ 2 ^ 30) :
    ∃ n, ∀ fuel ≥ n, getDateString getTimezoneOffset fuel (.finite t) fmt 3 =
      some (.ok (dateText fmt (t + tz * 60000) tz)) := by
  have hlocal : tz = if decide (fmt % 2 = 1) = true then -getTimezoneOffset t else 0 := by
    simpa only [decide_eq_true_eq] using htz
  obtain ⟨n, hget⟩ := getDateFields_eq getTimezoneOffset ht hlocal hzone
  refine ⟨n, fun fuel hfuel => ?_⟩
  rw [getDateString, hget fuel hfuel false]
  have hnat : ∀ n : ℕ, trunc (n : ℚ) = n := fun n => by exact_mod_cast trunc_intCast n
  simp only [calendarFields, trunc_intCast, hnat, Option.bind_eq_bind, Option.bind_some]
  rfl

/-- What a parsed text gives. -/
theorem jsDateParse_eq {s : List ℕ} {iso : Bool} {date : Date} (hiso : isIso s = iso)
    (hparse : (if iso then parseIso checked s else parseString checked s) =
      .ok ⟨[date.year, date.month, date.day, hours, minutes, seconds, ms], tz, false⟩)
    (hdate : |date.dayNumber| ≤ 100001000) (hhours : 0 ≤ hours ∧ hours < 24) (hminutes : 0 ≤ minutes ∧ minutes < 60)
    (hseconds : 0 ≤ seconds ∧ seconds < 60) (hms : 0 ≤ ms ∧ ms < 1000) (htz : |tz| ≤ 2 ^ 30)
    (ht : t = date.dayNumber * 86400000 + (hours * 3600000 + minutes * 60000 + seconds * 1000 + ms)) :
    jsDateParse getTimezoneOffset s =
      some (if |t| ≤ 8640000000000000 then .finite (t - tz * 60000 : ℤ) else .nan) := by
  have hyear := year_bounds (hdate.trans (by decide))
  have hday : (date.day : ℤ) ≤ 31 := by
    have hle := date.le
    have hlength : monthLength date.year date.month ≤ 31 := by
      unfold monthLength
      split_ifs <;> decide
    omega
  have hmonth := date.month_lt
  have hfields : toFields [date.year, date.month, date.day, hours, minutes, seconds, ms] =
      ⟨date.year, date.month, date.day, hours, minutes, seconds, ms⟩ := by
    have hnearest : ∀ n : ℤ, |n| ≤ 2 ^ 53 → nearest n = n := fun n => nearest_intCast
    simp only [toFields, List.getD_cons_zero, List.getD_cons_succ]
    rw [hnearest _ (hyear.trans (by decide)), hnearest _ (abs_le.mpr (by omega)), hnearest _ (abs_le.mpr (by omega)),
      hnearest _ (abs_le.mpr (by omega)), hnearest _ (abs_le.mpr (by omega)), hnearest _ (abs_le.mpr (by omega)),
      hnearest _ (abs_le.mpr (by omega))]
    rfl
  have hset := setDateFields_date getTimezoneOffset date (hdate.trans (by decide)) (abs_le.mpr (by omega))
    (abs_le.mpr (by omega)) (abs_le.mpr (by omega)) (abs_le.mpr (by omega)) ht
    (by rw [abs_le] at hdate ⊢; omega)
  rw [jsDateParse, hiso, hparse]
  dsimp only
  rw [hfields, hset, timeClip_intCast, Option.map_some]
  rw [abs_le] at htz
  rw [double_intCast (abs_le.mpr (by omega))]
  split
  · rename_i hclip
    rw [abs_le] at hclip
    rw [Number.sub_intCast (abs_le.mpr (by omega))]
  · rfl

/-- The text of the format, once the printer has come to its end, is parsed as the value. -/
def ReadsAs (getTimezoneOffset : ℤ → ℤ) (t : ℤ) (fmt : ℕ) (r : Number) : Prop :=
  ∃ n, ∀ fuel ≥ n, ∃ s, getDateString getTimezoneOffset fuel (.finite t) fmt 3 = some (.ok s) ∧
    jsDateParse getTimezoneOffset s = some r

/-- Parsing inverts the printers: `toISOString` exactly, the others up to the second. -/
structure Inverts (getTimezoneOffset : ℤ → ℤ) (t : ℤ) : Prop where
  iso : ReadsAs getTimezoneOffset t 2 (.finite t)
  utc : ReadsAs getTimezoneOffset t 0 (.finite (t / 1000 * 1000 : ℤ))
  local_ : ReadsAs getTimezoneOffset t 1 (.finite (t / 1000 * 1000 : ℤ))

/-- What is parsed of a text, its milliseconds apart. -/
theorem jsDateParse_dateText {fmt : ℕ} (hlarge : |t| ≤ 8640000086400000)
    (hfmt : fmt = 0 ∧ tz = 0 ∨ fmt = 1 ∧ |tz| < 1440 ∨ fmt = 2 ∧ tz = 0) :
    jsDateParse getTimezoneOffset (dateText fmt t tz) =
      some (if |if fmt = 2 then t else t / 1000 * 1000| ≤ 8640000000000000 then
        .finite ((if fmt = 2 then t else t / 1000 * 1000) - tz * 60000 : ℤ) else .nan) := by
  rw [abs_le] at hlarge
  have hnumber := Date.dayNumber_ofDay (t / 86400000)
  have hmonth := (Date.ofDay (t / 86400000)).month_lt
  have hlength : (Date.ofDay (t / 86400000)).day < 2 ^ 62 := by
    have hle := (Date.ofDay (t / 86400000)).le
    have h31 : monthLength (Date.ofDay (t / 86400000)).year (Date.ofDay (t / 86400000)).month ≤ 31 := by
      unfold monthLength
      split_ifs <;> decide
    omega
  have hdate : |(Date.ofDay (t / 86400000)).dayNumber| ≤ 100001000 := by
    rw [abs_le]
    omega
  have hyear := abs_le.mp (year_bounds (hdate.trans (by decide)))
  have hweek : 0 ≤ weekDay (t / 86400000) ∧ weekDay (t / 86400000) < 7 := by
    rw [weekDay]
    omega
  rw [dateText]
  generalize Date.ofDay (t / 86400000) = date at *
  generalize weekDay (t / 86400000) = wd at *
  obtain ⟨hours, hhour⟩ : ∃ hours, t % 86400000 / 3600000 = hours := ⟨_, rfl⟩
  obtain ⟨minutes, hminute⟩ : ∃ minutes, t % 86400000 / 60000 % 60 = minutes := ⟨_, rfl⟩
  obtain ⟨seconds, hsecond⟩ : ∃ seconds, t % 86400000 / 1000 % 60 = seconds := ⟨_, rfl⟩
  obtain ⟨ms, hms⟩ : ∃ ms, t % 86400000 % 1000 = ms := ⟨_, rfl⟩
  rw [hhour, hminute, hsecond, hms]
  have hhours : 0 ≤ hours ∧ hours < 24 := by omega
  have hminutes : 0 ≤ minutes ∧ minutes < 60 := by omega
  have hseconds : 0 ≤ seconds ∧ seconds < 60 := by omega
  have hyears : -2 ^ 62 < date.year ∧ date.year < 2 ^ 62 := by omega
  have hdays : (0 : ℤ) ≤ date.day ∧ (date.day : ℤ) < 2 ^ 62 := by omega
  have hlt : ∀ n m : ℤ, 0 ≤ n ∧ n < m → m ≤ 60 → 0 ≤ n ∧ n < 2 ^ 62 := by omega
  have hfull : t = date.dayNumber * 86400000 + (hours * 3600000 + minutes * 60000 + seconds * 1000 + ms) := by omega
  have hfloor : t / 1000 * 1000 = date.dayNumber * 86400000 + (hours * 3600000 + minutes * 60000 + seconds * 1000 + 0) := by
    omega
  obtain ⟨rfl, rfl⟩ | ⟨rfl, htz⟩ | ⟨rfl, rfl⟩ := hfmt
  · have hparse : isIso (datePart 0 3 date.year date.month date.day wd ++ timePart 0 hours minutes seconds ms 0) =
        false ∧ parseString checked (datePart 0 3 date.year date.month date.day wd ++ timePart 0 hours minutes seconds ms 0) =
        .ok ⟨[date.year, date.month, date.day, hours, minutes, seconds, 0], 0, false⟩ :=
      parseString_utc hweek hmonth hdays hyears (hlt _ _ hhours (by decide)) (hlt _ _ hminutes (by decide))
        (hlt _ _ hseconds (by decide))
    exact jsDateParse_eq hparse.1 hparse.2 hdate hhours hminutes hseconds (by decide) (by decide) hfloor
  · have hparse : isIso (datePart 1 3 date.year date.month date.day wd ++ timePart 1 hours minutes seconds ms tz) =
        false ∧ parseString checked (datePart 1 3 date.year date.month date.day wd ++ timePart 1 hours minutes seconds ms tz) =
        .ok ⟨[date.year, date.month, date.day, hours, minutes, seconds, 0], tz, false⟩ :=
      parseString_local hweek hmonth hdays hyears (hlt _ _ hhours (by decide)) (hlt _ _ hminutes (by decide))
        (hlt _ _ hseconds (by decide)) htz
    exact jsDateParse_eq hparse.1 hparse.2 hdate hhours hminutes hseconds (by decide) (htz.le.trans (by decide)) hfloor
  · have hparse : isIso (datePart 2 3 date.year date.month date.day wd ++ timePart 2 hours minutes seconds ms 0) =
        true ∧ parseIso checked (datePart 2 3 date.year date.month date.day wd ++ timePart 2 hours minutes seconds ms 0) =
        .ok ⟨[date.year, date.month, date.day, hours, minutes, seconds, ms], 0, false⟩ :=
      parseIso_print hyears (by omega) hdays (hlt _ _ hhours (by decide)) (hlt _ _ hminutes (by decide))
        (hlt _ _ hseconds (by decide)) (by omega)
    exact jsDateParse_eq hparse.1 hparse.2 hdate hhours hminutes hseconds (by omega) (by decide) hfull

/-- The printer says what is parsed. -/
theorem readsAs_iff {fmt : ℕ} {r : Number} (ht : |t| ≤ 8640000000000000)
    (htz : tz = if fmt % 2 = 1 then -getTimezoneOffset t else 0) (hzone : |tz| < 1440) :
    ReadsAs getTimezoneOffset t fmt r ↔ jsDateParse getTimezoneOffset (dateText fmt (t + tz * 60000) tz) = some r := by
  obtain ⟨n, hprint⟩ := getDateString_eq ht htz (hzone.le.trans (by decide))
  constructor
  · rintro ⟨k, hreads⟩
    obtain ⟨s, hs, hparse⟩ := hreads (max n k) (le_max_right ..)
    rw [hprint _ (le_max_left ..)] at hs
    obtain rfl := Except.ok.inj (Option.some.inj hs)
    exact hparse
  · exact fun hparse => ⟨n, fun fuel hfuel => ⟨_, hprint fuel hfuel, hparse⟩⟩

/-- The local time is clipped before the zone is taken off. -/
theorem readsAs_local_iff (ht : |t| ≤ 8640000000000000) (hzone : |getTimezoneOffset t| < 1440) :
    ReadsAs getTimezoneOffset t 1 (.finite (t / 1000 * 1000 : ℤ)) ↔
      |t / 1000 * 1000 - getTimezoneOffset t * 60000| ≤ 8640000000000000 := by
  have hbounds := abs_le.mp ht
  have hzone' : |-getTimezoneOffset t| < 1440 := by rwa [abs_neg]
  have hzoneBounds := abs_lt.mp hzone
  have hlarge : |t + -getTimezoneOffset t * 60000| ≤ 8640000086400000 := by
    rw [abs_le]
    omega
  have hreads : ReadsAs getTimezoneOffset t 1 (.finite (t / 1000 * 1000 : ℤ)) ↔
      jsDateParse getTimezoneOffset (dateText 1 (t + -getTimezoneOffset t * 60000) (-getTimezoneOffset t)) =
        some (.finite (t / 1000 * 1000 : ℤ)) := readsAs_iff ht rfl hzone'
  have hfloor : (t + -getTimezoneOffset t * 60000) / 1000 * 1000 = t / 1000 * 1000 - getTimezoneOffset t * 60000 := by
    omega
  have hback : t / 1000 * 1000 - getTimezoneOffset t * 60000 - -getTimezoneOffset t * 60000 = t / 1000 * 1000 := by
    ring
  have hone : ∀ a b : ℤ, (if 1 = 2 then a else b) = b := fun a b => if_neg (by decide)
  rw [hreads, jsDateParse_dateText hlarge (.inr (.inl ⟨rfl, hzone'⟩)), hone, hfloor, hback, Option.some.injEq]
  constructor
  · intro h
    by_contra hclip
    rw [if_neg hclip] at h
    cases h
  · exact fun h => if_pos h

/-- **`Date.parse` inverts the printers where the local time is in the range of time values.** The texts of
`toISOString` and `toUTCString` are always inverted. -/
theorem inverts_iff (ht : |t| ≤ 8640000000000000) (hzone : |getTimezoneOffset t| < 1440) :
    (Inverts getTimezoneOffset t ↔ |t / 1000 * 1000 - getTimezoneOffset t * 60000| ≤ 8640000000000000) ∧
      ReadsAs getTimezoneOffset t 2 (.finite t) ∧ ReadsAs getTimezoneOffset t 0 (.finite (t / 1000 * 1000 : ℤ)) := by
  have hbounds := abs_le.mp ht
  have hlarge : |t + 0 * 60000| ≤ 8640000086400000 := by
    rw [abs_le]
    omega
  have hreads : ∀ fmt r, fmt % 2 = 0 → (ReadsAs getTimezoneOffset t fmt r ↔
      jsDateParse getTimezoneOffset (dateText fmt (t + 0 * 60000) 0) = some r) := by
    intro fmt r hfmt
    exact readsAs_iff ht (by rw [hfmt]; rfl) (by decide)
  have hiso : ReadsAs getTimezoneOffset t 2 (.finite t) := by
    rw [hreads 2 _ rfl, jsDateParse_dateText hlarge (.inr (.inr ⟨rfl, rfl⟩)), if_pos rfl, zero_mul, add_zero, sub_zero,
      if_pos ht]
  have hutc : ReadsAs getTimezoneOffset t 0 (.finite (t / 1000 * 1000 : ℤ)) := by
    have hsecond : |t / 1000 * 1000| ≤ 8640000000000000 := by
      rw [abs_le]
      omega
    rw [hreads 0 _ rfl, jsDateParse_dateText hlarge (.inl ⟨rfl, rfl⟩), zero_mul, add_zero, sub_zero]
    exact congrArg some (if_pos hsecond)
  have hlocal := readsAs_local_iff ht hzone
  exact ⟨⟨fun h => hlocal.mp h.local_, fun h => ⟨hiso, hutc, hlocal.mpr h⟩⟩, hiso, hutc⟩

theorem inverts_first : Inverts (fun _ => -1439) (-8640000000000000) :=
  (inverts_iff (by decide) (by decide)).1.mpr (by decide)

/-- In a zone to the east of Greenwich, the text of the last time value is not parsed. -/
theorem not_inverts_last : ¬Inverts (fun _ => -60) 8640000000000000 := fun h =>
  absurd ((readsAs_local_iff (by decide) (by decide)).mp h.local_) (by decide)

end QuickJs.JsDate
