import QuickJs.DateFields
import QuickJs.Decimal

/-!
# Dates as texts

`get_date_string` prints the fields of a date, `js_Date_parse` reads a text by two patterns. A text is the list of its
code units.
-/

namespace QuickJs.JsDate

open Rounding
open Atom

/-- The code units of an ASCII text. -/
def ascii (s : String) : List ℕ := s.toList.map Char.toNat

/-- `month_names`. -/
def monthNames : List ℕ := ascii "JanFebMarAprMayJunJulAugSepOctNovDec"

/-- `day_names`. -/
def dayNames : List ℕ := ascii "SunMonTueWedThuFriSat"

/-! ## Printing -/

/-- `snprintf` with `%0*d`, or `%+0*d`: the width counts the sign. -/
def printInt (width : ℕ) (plus : Bool) (n : ℤ) : List ℕ :=
  let sign := if n < 0 then ascii "-" else if plus then ascii "+" else []
  sign ++ List.replicate (width - sign.length - (decimal n.natAbs).length) 48 ++ decimal n.natAbs

/-- `snprintf` with `%.3s` of one of the names. -/
def printName (names : List ℕ) (i : ℤ) : List ℕ := (names.drop (i * 3).toNat).take 3

/-- The year, with four digits at least. -/
def printYear (y : ℤ) : List ℕ := printInt (4 + if y < 0 then 1 else 0) false y

/-- The date part of `get_date_string`. -/
def datePart (fmt part : ℕ) (y mon d wd : ℤ) : List ℕ :=
  if fmt = 0 then
    printName dayNames wd ++ ascii ", " ++ printInt 2 false d ++ ascii " " ++ printName monthNames mon ++ ascii " " ++
      printYear y ++ ascii " "
  else if fmt = 1 then
    printName dayNames wd ++ ascii " " ++ printName monthNames mon ++ ascii " " ++ printInt 2 false d ++ ascii " " ++
      printYear y ++ if part = 3 then ascii " " else []
  else if fmt = 2 then
    (if 0 ≤ y ∧ y ≤ 9999 then printInt 4 false y else printInt 7 true y) ++ ascii "-" ++ printInt 2 false (mon + 1) ++
      ascii "-" ++ printInt 2 false d ++ ascii "T"
  else if fmt = 3 then
    printInt 2 false (mon + 1) ++ ascii "/" ++ printInt 2 false d ++ ascii "/" ++ printYear y ++
      if part = 3 then ascii ", " else []
  else []

/-- The time part of `get_date_string`. -/
def timePart (fmt : ℕ) (h m s ms tz : ℤ) : List ℕ :=
  let clock := printInt 2 false h ++ ascii ":" ++ printInt 2 false m ++ ascii ":" ++ printInt 2 false s
  if fmt = 0 then clock ++ ascii " GMT"
  else if fmt = 1 then
    clock ++ ascii " GMT" ++ (if tz < 0 then ascii "-" else ascii "+") ++
      printInt 2 false ((if tz < 0 then -tz else tz).tdiv 60) ++ printInt 2 false ((if tz < 0 then -tz else tz).tmod 60)
  else if fmt = 2 then clock ++ ascii "." ++ printInt 3 false ms ++ ascii "Z"
  else if fmt = 3 then
    printInt 2 false ((h + 1).tmod 12 - 1) ++ ascii ":" ++ printInt 2 false m ++ ascii ":" ++ printInt 2 false s ++
      ascii " " ++ (if h < 12 then ascii "A" else ascii "P") ++ ascii "M"
  else []

/-- `get_date_string`: a text, or the message of a range error. `fmt` is 0 for `toUTCString`, 1 for `toString`, 2 for
`toISOString` and 3 for `toLocaleString`; `part` is 1 for the date, 2 for the time and 3 for both. -/
def getDateString (getTimezoneOffset : ℤ → ℤ) (fuel : ℕ) (dval : Number) (fmt part : ℕ) :
    Option (Except String (List ℕ)) := do
  match ← getDateFields getTimezoneOffset fuel dval (fmt % 2 = 1) false with
  | none => return if fmt = 2 then .error "Date value is NaN" else .ok (ascii "Invalid Date")
  | some f =>
    return .ok ((if part % 2 = 1 then datePart fmt part (trunc f.year) (trunc f.month) (trunc f.day) (trunc f.weekDay)
        else []) ++
      if part / 2 % 2 = 1 then
        timePart fmt (trunc f.hours) (trunc f.minutes) (trunc f.seconds) (trunc f.ms) (trunc f.tz)
      else [])

/-! ## Scanning -/

/-- Why the scanner stops: the text is no date, or a number overflows. A scanner returns the text after what it reads. -/
inductive Stop
  | invalid
  | overflow
  deriving DecidableEq

/-- The arithmetic of `int64_t`. -/
def checked (x : ℤ) : Except Stop ℤ :=
  match int64 x with
  | none => .error .overflow
  | some y => .ok y

def isDigit (c : ℕ) : Bool := 48 ≤ c && c ≤ 57

/-- `string_skip_spaces`. -/
def stringSkipSpaces (s : List ℕ) : List ℕ := s.dropWhile (· = ' '.toNat)

/-- `string_skip_non_spaces`. -/
def stringSkipNonSpaces (s : List ℕ) : List ℕ := s.dropWhile (· ≠ ' '.toNat)

section

-- the code computes with `checked`; the texts have their meaning for integers without a bound
variable (arith : ℤ → Except Stop ℤ)

/-- The loop of `string_get_digits`. -/
def digitsLoop : List ℕ → ℤ → Except Stop (ℤ × List ℕ)
  | [], v => .ok (v, [])
  | c :: s, v =>
    if isDigit c then do
      let v ← arith (v * 10)
      let v ← arith (v + c)
      let v ← arith (v - 48)
      digitsLoop s v
    else .ok (v, c :: s)

/-- `string_get_digits`. -/
def stringGetDigits (s : List ℕ) : Except Stop (ℤ × List ℕ) :=
  if s.head?.any isDigit then digitsLoop arith s 0 else .error .invalid

/-- `string_get_signed_digits`. -/
def stringGetSignedDigits : List ℕ → Except Stop (ℤ × List ℕ)
  | [] => .error .invalid
  | sgn :: s => do
    let (v, s) ← stringGetDigits arith (if sgn = '-'.toNat ∨ sgn = '+'.toNat then s else sgn :: s)
    return (if sgn = '-'.toNat then -v else v, s)

/-- `string_get_fixed_width_digits`, for a width without overflow. -/
def stringGetFixedWidthDigits : ℕ → List ℕ → ℤ → Except Stop (ℤ × List ℕ)
  | 0, s, v => .ok (v, s)
  | _ + 1, [], _ => .error .invalid
  | n + 1, c :: s, v => if isDigit c then stringGetFixedWidthDigits n s (v * 10 + c - 48) else .error .invalid

/-- The loop of `string_get_milliseconds`. -/
def millisecondsLoop : List ℕ → ℤ → ℤ → ℤ × List ℕ
  | [], _, ms => (ms, [])
  | c :: s, mul, ms =>
    if isDigit c then
      let ms := if mul = 1 ∧ 53 ≤ c then ms + 1 else ms
      let mul := mul.tdiv 10
      millisecondsLoop s mul (ms + (c - 48) * mul)
    else (ms, c :: s)

/-- `string_get_milliseconds`. -/
def stringGetMilliseconds (s : List ℕ) : Except Stop (ℤ × List ℕ) :=
  if s.head?.any isDigit then .ok (millisecondsLoop s 1000 0) else .error .invalid

/-- `find_abbrev`; its list of names is not used. -/
def findAbbrev (s : List ℕ) (count : ℕ) : Option ℕ :=
  if 3 ≤ s.length then (List.range count).find? fun n => s.take 3 == (monthNames.drop (n * 3)).take 3 else none

/-- `string_get_month`. -/
def stringGetMonth (s : List ℕ) : Except Stop (ℤ × List ℕ) :=
  match findAbbrev (stringSkipSpaces s) 12 with
  | none => .error .invalid
  | some n => .ok (n, (stringSkipSpaces s).drop 3)

/-! ## Parsing -/

/-- The fields after the year, each after its separator. -/
def isoLoop : List ℕ → List ℕ → Except Stop (List ℤ × List ℕ)
  | sep :: seps, c :: s =>
    if c = sep then do
      let (v, s) ← if sep = '.'.toNat then stringGetMilliseconds s else stringGetDigits arith s
      let (vs, s) ← isoLoop seps s
      return (v :: vs, s)
    else .ok ([], c :: s)
  | _, s => .ok ([], s)

/-- Hours and minutes of a zone. -/
def zoneMinutes (sgn : ℕ) (hh mm : ℤ) : ℤ := if sgn = '-'.toNat then -(hh * 60 + mm) else hh * 60 + mm

/-- The zone of a text in ISO format, and whether the time is local. -/
def isoZone (isLocal : Bool) : List ℕ → Except Stop (ℤ × Bool)
  | [] => .ok (0, isLocal)
  | sgn :: s =>
    if sgn = '+'.toNat ∨ sgn = '-'.toNat then
      if s.length ≠ 4 ∧ s.length ≠ 5 then .error .invalid
      else do
        let (hh, t) ← stringGetFixedWidthDigits 2 s 0
        let t ← if s.length = 5 then if t.head? = some ':'.toNat then .ok t.tail else .error .invalid else .ok t
        let (mm, t) ← stringGetFixedWidthDigits 2 t 0
        if t = [] then return (zoneMinutes sgn hh mm, false) else .error .invalid
    else if sgn = 'Z'.toNat ∧ s = [] then .ok (0, false)
    else .error .invalid

/-- What a text says: the fields, the zone, and whether the time is local. -/
structure Parsed where
  fields : List ℤ
  tz : ℤ
  isLocal : Bool

/-- The ISO format. Fields that are missing have the value 1, or 0 after the day. -/
def parseIso (s : List ℕ) : Except Stop Parsed := do
  let (year, s) ← stringGetSignedDigits arith s
  let (vs, s) ← isoLoop arith (ascii "--T::.") s
  let fields := vs ++ [1, 1, 0, 0, 0, 0].drop vs.length
  let month ← arith (fields.headD 0 - 1)
  let (tz, isLocal) ← isoZone (3 ≤ vs.length) s
  return ⟨year :: month :: fields.tail, tz, isLocal⟩

/-- The loop that looks for the zone. -/
def findZone : List ℕ → Except Stop ℤ
  | [] => .ok 0
  | sgn :: s =>
    if sgn = '+'.toNat ∨ sgn = '-'.toNat then do
      let (hh, s) ← stringGetFixedWidthDigits 2 s 0
      let (mm, _) ← stringGetFixedWidthDigits 2 s 0
      return zoneMinutes sgn hh mm
    else findZone s

/-- A colon. -/
def skipColon (s : List ℕ) : Except Stop (List ℕ) :=
  if s.head? = some ':'.toNat then .ok s.tail else .error .invalid

/-- The day and the month, in the order of the text. -/
def dayAndMonth (s : List ℕ) : Except Stop ((ℤ × ℤ) × List ℕ) :=
  if s = [] then .error .invalid
  else if s.head?.any isDigit then do
    let (day, s) ← stringGetDigits arith s
    let (month, s) ← stringGetMonth s
    return ((day, month), s)
  else do
    let (month, s) ← stringGetMonth s
    let (day, s) ← stringGetDigits arith (stringSkipSpaces s)
    return ((day, month), s)

/-- The format of `toString` or `toUTCString`. -/
def parseString (s : List ℕ) : Except Stop Parsed := do
  let ((day, month), s) ← dayAndMonth arith (stringSkipSpaces (stringSkipNonSpaces s))
  let (year, s) ← stringGetSignedDigits arith (stringSkipSpaces s)
  let (hours, s) ← stringGetDigits arith (stringSkipSpaces s)
  let (minutes, s) ← stringGetDigits arith (← skipColon s)
  let (seconds, s) ← stringGetDigits arith (← skipColon s)
  let tz ← findZone s
  return ⟨[year, month, day, hours, minutes, seconds, 0], tz, false⟩

end

/-- A text in ISO format starts with a year. -/
def isIso (s : List ℕ) : Bool := s.head?.any fun c => isDigit c || c = '+'.toNat || c = '-'.toNat

/-- The fields as doubles. -/
def toFields (fields : List ℤ) : Fields :=
  let field (i : ℕ) : ℚ := nearest (fields.getD i 0)
  ⟨field 0, field 1, field 2, field 3, field 4, field 5, field 6⟩

/-- `js_Date_parse`, for the code units of the text. -/
def jsDateParse (getTimezoneOffset : ℤ → ℤ) (s : List ℕ) : Option Number :=
  match if isIso s then parseIso checked s else parseString checked s with
  | .error .invalid => some .nan
  | .error .overflow => none
  | .ok ⟨fields, tz, isLocal⟩ =>
    (setDateFields getTimezoneOffset (toFields fields) isLocal).map fun d => d - double (tz * 60000 : ℤ)

end QuickJs.JsDate
