import QuickJs.DateRoundTrip

/-!
# The numbers that a date scanner reads

A scanner of 64 bits reads what a scanner without a bound reads, as long as no number is too large; the numbers that
it reads on the way are found in the text.
-/

namespace QuickJs.JsDate

/-- What the digits of a number must stay below. -/
def digitsLimit : ℤ := 2 ^ 63 - 48

/-- The number at the start of the text. -/
def number (s : List ℕ) : List ℤ := if s.head?.any isDigit then [digitsValue (s.takeWhile isDigit) 0] else []

/-- The number at the start of the text, after its sign. -/
def signedNumber : List ℕ → List ℤ
  | [] => []
  | sgn :: s => number (if sgn = '-'.toNat ∨ sgn = '+'.toNat then s else sgn :: s)

/-- The numbers that are found in what comes after a part of the text. -/
def after {α β : Type} (x : Except Stop (α × β)) (f : β → List ℤ) : List ℤ :=
  match x with
  | .ok (_, s) => f s
  | .error _ => []

/-- The numbers that follow the year in the ISO format. -/
def isoNumbers : List ℕ → List ℕ → List ℤ
  | sep :: seps, c :: s =>
    if c = sep then
      if sep = '.'.toNat then after (stringGetMilliseconds s) (isoNumbers seps)
      else number s ++ after (stringGetDigits .ok s) (isoNumbers seps)
    else []
  | _, _ => []

/-- The numbers after a colon. -/
def colonNumbers (f : List ℕ → List ℤ) (s : List ℕ) : List ℤ :=
  if s.head? = some ':'.toNat then number s.tail ++ after (stringGetDigits .ok s.tail) f else []

/-- The numbers after the day and the month. -/
def clockNumbers (s : List ℕ) : List ℤ :=
  signedNumber (stringSkipSpaces s) ++ after (stringGetSignedDigits .ok (stringSkipSpaces s)) fun s =>
    number (stringSkipSpaces s) ++ after (stringGetDigits .ok (stringSkipSpaces s))
      (colonNumbers (colonNumbers fun _ => []))

/-- The day of the month. -/
def dayNumbers (s : List ℕ) : List ℤ :=
  if s = [] then []
  else if s.head?.any isDigit then number s
  else after (stringGetMonth s) fun s => number (stringSkipSpaces s)

/-- The numbers that `js_Date_parse` reads, up to the place where it stops. -/
def numbersRead (s : List ℕ) : List ℤ :=
  if isIso s then signedNumber s ++ after (stringGetSignedDigits .ok s) (isoNumbers (ascii "--T::."))
  else
    let s := stringSkipSpaces (stringSkipNonSpaces s)
    dayNumbers s ++ after (dayAndMonth .ok s) clockNumbers

variable {α β γ : Type} {s : List ℕ} {v : ℤ} {ns ms : List ℤ}

/-! ## One number -/

theorem digitsLoop_ok (s : List ℕ) (v : ℤ) :
    digitsLoop .ok s v = .ok (digitsValue (s.takeWhile isDigit) v, s.dropWhile isDigit) := by
  induction s generalizing v with
  | nil => rfl
  | cons c s ih =>
    rw [digitsLoop]
    by_cases hc : isDigit c = true
    · have hassoc : v * 10 + (c : ℤ) - 48 = v * 10 + ((c : ℤ) - 48) := by omega
      rw [if_pos hc, List.takeWhile_cons_of_pos hc, List.dropWhile_cons_of_pos hc]
      simp only [bind, Except.bind, ih, hassoc]
      rfl
    · rw [if_neg hc, List.takeWhile_cons_of_neg hc, List.dropWhile_cons_of_neg hc]
      rfl

theorem mem_takeWhile_isDigit {c : ℕ} (h : c ∈ s.takeWhile isDigit) : isDigit c :=
  List.all_eq_true.mp List.all_takeWhile c h

theorem checked_overflow {x : ℤ} (h : 2 ^ 63 ≤ x) : checked x = .error .overflow := by
  have hint : int64 x = none := if_neg fun hx => absurd hx.2 (Int.not_lt.mpr h)
  rw [checked, hint]

/-- A number overflows if and only if it is too large. -/
theorem digitsLoop_checked (hv : 0 ≤ v) (hlimit : v < digitsLimit) : digitsLoop checked s v =
    if digitsValue (s.takeWhile isDigit) v < digitsLimit then digitsLoop .ok s v else .error .overflow := by
  induction s generalizing v with
  | nil => rw [List.takeWhile_nil, digitsValue, List.foldl_nil, if_pos hlimit]; rfl
  | cons c s ih =>
    by_cases hc : isDigit c = true
    · have hdigit := isDigit_iff.mp hc
      have hassoc : v * 10 + (c : ℤ) - 48 = v * 10 + ((c : ℤ) - 48) := by omega
      have hvalue : digitsValue ((c :: s).takeWhile isDigit) v =
          digitsValue (s.takeWhile isDigit) (v * 10 + ((c : ℤ) - 48)) := by
        rw [List.takeWhile_cons_of_pos hc]
        rfl
      have hle := le_digitsValue (fun d => mem_takeWhile_isDigit (s := s)) (show 0 ≤ v * 10 + ((c : ℤ) - 48) by omega)
      rw [hvalue, digitsLoop, digitsLoop, if_pos hc, if_pos hc]
      simp only [bind, Except.bind]
      rw [digitsLimit] at *
      by_cases hsmall : v * 10 + ((c : ℤ) - 48) < 2 ^ 63 - 48
      · rw [checked_eq (by omega) (by omega)]
        simp only
        rw [checked_eq (by omega) (by omega)]
        simp only
        rw [checked_eq (by omega) (by omega), hassoc]
        exact ih (by omega) hsmall
      · rw [if_neg (by omega)]
        by_cases hten : v * 10 < 2 ^ 63
        · rw [checked_eq (by omega) hten]
          simp only
          rw [checked_overflow (by omega)]
        · rw [checked_overflow (by omega)]
    · rw [List.takeWhile_cons_of_neg hc, digitsValue, List.foldl_nil, if_pos hlimit, digitsLoop, digitsLoop, if_neg hc,
        if_neg hc]

/-! ## Scanners that agree -/

/-- The scanner of 64 bits does what the scanner without a bound does, unless one of the numbers is too large. -/
structure Agrees (ns : List ℤ) (x y : Except Stop α) : Prop where
  valid : y ≠ .error .overflow
  eq : (∀ n ∈ ns, n < digitsLimit) → x = y
  overflow : (∃ n ∈ ns, digitsLimit ≤ n) → x = .error .overflow

theorem Agrees.refl {x : Except Stop α} (h : x ≠ .error .overflow) : Agrees [] x x :=
  ⟨h, fun _ => rfl, fun ⟨_, hn, _⟩ => absurd hn List.not_mem_nil⟩

/-- A part of the text is read, then the rest of it. -/
theorem Agrees.bind {x y : Except Stop (α × β)} (h : Agrees ns x y) {k l : α × β → Except Stop γ} {f : β → List ℤ}
    (hrest : ∀ a t, y = .ok (a, t) → Agrees (f t) (k (a, t)) (l (a, t))) :
    Agrees (ns ++ after y f) (x >>= k) (y >>= l) := by
  cases y with
  | error e =>
    have hnil : ns ++ after (.error e : Except Stop (α × β)) f = ns := List.append_nil ns
    have hvalid : e ≠ .overflow := fun he => h.valid (he ▸ rfl)
    rw [hnil]
    refine ⟨fun herr => hvalid (Except.error.inj herr), fun hns => ?_, fun hns => ?_⟩
    · rw [h.eq hns]
      rfl
    · rw [h.overflow hns]
      rfl
  | ok r =>
    obtain ⟨a, t⟩ := r
    have hr := hrest a t rfl
    refine ⟨hr.valid, fun hns => ?_, fun ⟨n, hn, hlarge⟩ => ?_⟩
    · rw [h.eq fun n hn => hns n (List.mem_append_left _ hn)]
      exact hr.eq fun n hn => hns n (List.mem_append_right _ hn)
    · by_cases hsmall : ∀ n ∈ ns, n < digitsLimit
      · rw [h.eq hsmall]
        have hmem := (List.mem_append.mp hn).resolve_left fun hin => absurd (hsmall n hin) (Int.not_lt.mpr hlarge)
        exact hr.overflow ⟨n, hmem, hlarge⟩
      · simp only [not_forall, Int.not_lt] at hsmall
        obtain ⟨m, hm, hm'⟩ := hsmall
        rw [h.overflow ⟨m, hm, hm'⟩]
        rfl

/-- What comes after has no numbers. -/
theorem Agrees.map_eq {x y : Except Stop α} (h : Agrees ns x y) {k l : α → Except Stop β}
    (hl : ∀ a, y = .ok a → l a ≠ .error .overflow)
    (hkl : ∀ a, y = .ok a → (∀ n ∈ ns, n < digitsLimit) → k a = l a) : Agrees ns (x >>= k) (y >>= l) := by
  cases y with
  | error e =>
    have hvalid : e ≠ .overflow := fun he => h.valid (he ▸ rfl)
    refine ⟨fun herr => hvalid (Except.error.inj herr), fun hns => ?_, fun hns => ?_⟩
    · rw [h.eq hns]
      rfl
    · rw [h.overflow hns]
      rfl
  | ok a =>
    refine ⟨hl a rfl, fun hns => ?_, fun hns => ?_⟩
    · rw [h.eq hns]
      exact hkl a rfl hns
    · rw [h.overflow hns]
      rfl

theorem Agrees.map {x y : Except Stop α} (h : Agrees ns x y) {k : α → Except Stop β}
    (hk : ∀ a, y = .ok a → k a ≠ .error .overflow) : Agrees ns (x >>= k) (y >>= k) := h.map_eq hk fun _ _ _ => rfl

theorem agrees_digits (s : List ℕ) : Agrees (number s) (stringGetDigits checked s) (stringGetDigits .ok s) := by
  rw [number, stringGetDigits, stringGetDigits]
  split
  · rw [digitsLoop_checked (le_refl 0) (by decide)]
    refine ⟨?_, fun hns => if_pos (hns _ List.mem_cons_self), ?_⟩
    · rw [digitsLoop_ok]
      rintro ⟨⟩
    · rintro ⟨n, hn, hlarge⟩
      rw [List.mem_singleton.mp hn] at hlarge
      exact if_neg (Int.not_lt.mpr hlarge)
  · exact .refl (by simp)

theorem agrees_signed (s : List ℕ) :
    Agrees (signedNumber s) (stringGetSignedDigits checked s) (stringGetSignedDigits .ok s) := by
  cases s with
  | nil => exact .refl nofun
  | cons sgn s => exact (agrees_digits _).map fun _ _ => nofun

theorem agrees_isoLoop (seps s : List ℕ) : Agrees (isoNumbers seps s) (isoLoop checked seps s) (isoLoop .ok seps s) := by
  induction seps generalizing s with
  | nil => exact .refl (by rintro ⟨⟩)
  | cons sep seps ih =>
    cases s with
    | nil => exact .refl (by rintro ⟨⟩)
    | cons c s =>
      have hrest : ∀ (v : ℤ) (t : List ℕ), Agrees (isoNumbers seps t)
          (isoLoop checked seps t >>= fun r => pure (v :: r.1, r.2)) (isoLoop .ok seps t >>= fun r => pure (v :: r.1, r.2)) :=
        fun v t => (ih t).map fun _ _ => by rintro ⟨⟩
      rw [isoNumbers, isoLoop, isoLoop]
      split
      · split
        · have hms : stringGetMilliseconds s ≠ .error .overflow := by
            rw [stringGetMilliseconds]
            split <;> rintro ⟨⟩
          exact (Agrees.refl hms).bind fun v t _ => hrest v t
        · exact (agrees_digits s).bind fun v t _ => hrest v t
      · exact .refl (by rintro ⟨⟩)

theorem agrees_colon {k l : ℤ × List ℕ → Except Stop γ} {f : List ℕ → List ℤ} (s : List ℕ)
    (hrest : ∀ v t, Agrees (f t) (k (v, t)) (l (v, t))) :
    Agrees (colonNumbers f s) (skipColon s >>= fun s => stringGetDigits checked s >>= k)
      (skipColon s >>= fun s => stringGetDigits .ok s >>= l) := by
  rw [colonNumbers, skipColon]
  split
  · exact (agrees_digits s.tail).bind fun v t _ => hrest v t
  · exact .refl nofun

theorem stringGetMonth_ne (s : List ℕ) : stringGetMonth s ≠ .error .overflow := by
  unfold stringGetMonth
  split <;> exact nofun

theorem agrees_dayAndMonth (s : List ℕ) : Agrees (dayNumbers s) (dayAndMonth checked s) (dayAndMonth .ok s) := by
  have hmonth : ∀ (s : List ℕ) (day : ℤ), (stringGetMonth s >>= fun r => (pure ((day, r.1), r.2) :
      Except Stop ((ℤ × ℤ) × List ℕ))) ≠ .error .overflow := by
    intro s day
    have hne := stringGetMonth_ne s
    cases h : stringGetMonth s with
    | error e =>
      rw [h] at hne
      exact fun heq => hne (congrArg Except.error (Except.error.inj heq))
    | ok r => rintro ⟨⟩
  rw [dayNumbers, dayAndMonth, dayAndMonth]
  split
  · exact .refl (by simp)
  split
  · exact (agrees_digits s).map fun r _ => hmonth r.2 r.1
  · exact (Agrees.refl (stringGetMonth_ne s)).bind fun month t _ => (agrees_digits (stringSkipSpaces t)).map
      fun _ _ => by rintro ⟨⟩

theorem stringGetFixedWidthDigits_ne (n : ℕ) (s : List ℕ) (v : ℤ) :
    stringGetFixedWidthDigits n s v ≠ .error .overflow := by
  induction n generalizing s v with
  | zero => rintro ⟨⟩
  | succ n ih =>
    cases s with
    | nil => rintro ⟨⟩
    | cons c s =>
      rw [stringGetFixedWidthDigits]
      split
      · exact ih _ _
      · rintro ⟨⟩

/-- A scanner that starts with another one does not overflow if neither does. -/
theorem bind_ne {x : Except Stop α} {k : α → Except Stop β} (hx : x ≠ .error .overflow)
    (hk : ∀ a, k a ≠ .error .overflow) : x >>= k ≠ .error .overflow := by
  cases x with
  | error e => exact fun heq => hx (congrArg Except.error (Except.error.inj heq))
  | ok a => exact hk a

theorem findZone_ne (s : List ℕ) : findZone s ≠ .error .overflow := by
  induction s with
  | nil => rintro ⟨⟩
  | cons c s ih =>
    rw [findZone]
    split
    · exact bind_ne (stringGetFixedWidthDigits_ne _ _ _) fun _ => bind_ne (stringGetFixedWidthDigits_ne _ _ _) fun _ => by rintro ⟨⟩
    · exact ih

theorem agrees_parseString (s : List ℕ) : Agrees (dayNumbers (stringSkipSpaces (stringSkipNonSpaces s)) ++
      after (dayAndMonth .ok (stringSkipSpaces (stringSkipNonSpaces s))) clockNumbers)
    (parseString checked s) (parseString .ok s) := by
  refine (agrees_dayAndMonth _).bind fun date t _ => ?_
  refine (agrees_signed _).bind fun year t _ => (agrees_digits _).bind fun hours t _ => ?_
  refine agrees_colon t fun minutes t => agrees_colon t fun seconds t => ?_
  exact .refl (bind_ne (findZone_ne t) fun _ => nofun)

/-! ## The ISO format -/

theorem isoZone_ne (isLocal : Bool) (s : List ℕ) : isoZone isLocal s ≠ .error .overflow := by
  cases s with
  | nil => exact nofun
  | cons sgn s =>
    have hminutes : ∀ (hh : ℤ) (t : List ℕ), (stringGetFixedWidthDigits 2 t 0 >>= fun r =>
        if r.2 = [] then pure (zoneMinutes sgn hh r.1, false) else .error .invalid) ≠ .error .overflow := by
      intro hh t
      refine bind_ne (stringGetFixedWidthDigits_ne _ _ _) fun r => ?_
      split <;> exact nofun
    rw [isoZone]
    split
    · split
      · exact nofun
      · refine bind_ne (stringGetFixedWidthDigits_ne _ _ _) fun r => ?_
        dsimp only
        split
        · split
          · exact hminutes r.1 _
          · exact nofun
        · exact hminutes r.1 _
    · split <;> exact nofun

/-- The month is one of the numbers that are read. -/
theorem isoLoop_month {sep : ℕ} {seps s t : List ℕ} {vs : List ℤ} (hsep : sep ≠ '.'.toNat)
    (h : isoLoop .ok (sep :: seps) s = .ok (vs, t)) :
    vs = [] ∨ ∃ n vs', vs = n :: vs' ∧ n ∈ isoNumbers (sep :: seps) s ∧ 0 ≤ n := by
  cases s with
  | nil =>
    cases h
    exact .inl rfl
  | cons c s =>
    rw [isoLoop] at h
    rw [isoNumbers]
    split at h
    · rename_i hc
      rw [stringGetDigits] at h
      rw [if_pos hc, if_neg hsep, number]
      split at h
      · rename_i hdigit
        rw [digitsLoop_ok] at h
        simp only [bind, Except.bind] at h
        have hpos : 0 ≤ digitsValue (s.takeWhile isDigit) 0 := le_digitsValue (fun c => mem_takeWhile_isDigit) (le_refl 0)
        cases hrest : isoLoop .ok seps (s.dropWhile isDigit) with
        | error e =>
          rw [hrest] at h
          cases h
        | ok r =>
          rw [hrest] at h
          cases h
          rw [if_pos hdigit]
          exact .inr ⟨_, _, rfl, List.mem_append_left _ List.mem_cons_self, hpos⟩
      · cases h
    · cases h
      exact .inl rfl

theorem agrees_parseIso (s : List ℕ) : Agrees
    (signedNumber s ++ after (stringGetSignedDigits .ok s) (isoNumbers (ascii "--T::.")))
    (parseIso checked s) (parseIso .ok s) := by
  refine (agrees_signed s).bind fun year t _ => (agrees_isoLoop _ t).map_eq (fun r _ => ?_) fun r hr hns => ?_
  · exact bind_ne nofun fun _ => bind_ne (isoZone_ne _ _) fun _ => nofun
  · -- the month is small
    obtain ⟨vs, u⟩ := r
    have hmonth : checked ((vs ++ [1, 1, 0, 0, 0, 0].drop vs.length).headD 0 - 1) =
        .ok ((vs ++ [1, 1, 0, 0, 0, 0].drop vs.length).headD 0 - 1) := by
      have hcases : vs = [] ∨ ∃ n vs', vs = n :: vs' ∧ n ∈ isoNumbers (ascii "--T::.") t ∧ 0 ≤ n :=
        isoLoop_month (by decide) hr
      obtain rfl | ⟨n, vs', rfl, hn, hpos⟩ := hcases
      · rfl
      · have hlt := hns n hn
        rw [digitsLimit] at hlt
        rw [List.cons_append, List.headD_cons]
        exact checked_eq (by omega) (by omega)
    dsimp only
    rw [hmonth]

/-- **The scanner overflows if and only if it reads a number that is too large.** -/
theorem agrees_parse (s : List ℕ) : Agrees (numbersRead s) (if isIso s then parseIso checked s else parseString checked s)
    (if isIso s then parseIso .ok s else parseString .ok s) := by
  rw [numbersRead]
  split
  · exact agrees_parseIso s
  · exact agrees_parseString s

end QuickJs.JsDate

/-!
## Date arithmetic with extreme numbers

`Date.UTC` and `Date.parse` give NaN or a time value in the range, as long as no number overflows on the way and the
zone does not lead out of the range.
-/

namespace QuickJs.JsDate

open Rounding
open Calendar

/-- The fields that `js_Date_UTC` fills from finite arguments. -/
def utcFields (args : List ℚ) : Fields :=
  let field (i : ℕ) (value : ℚ) : ℚ := ((args[i]?).map fun a => (trunc a : ℚ)).getD value
  let year := field 0 0
  ⟨if 0 ≤ year ∧ year < 100 then year + 1900 else year, field 1 0, field 2 1, field 3 0, field 4 0, field 5 0, field 6 0⟩

/-- The value of an argument that is finite. -/
def finiteValue : Number → Option ℚ
  | .nan => none
  | .finite q => some q

/-- `js_Date_UTC`, for arguments that are numbers. -/
def jsDateUtc (getTimezoneOffset : ℤ → ℤ) (args : List Number) : Option Number :=
  if args = [] then some .nan
  else
    match (args.take 7).mapM finiteValue with
    | none => some .nan
    | some values => setDateFields getTimezoneOffset (utcFields values) false

variable {getTimezoneOffset : ℤ → ℤ} {y : ℤ} {fields : Fields}

/-! ## The days of a year -/

theorem int64_eq_some {x z : ℤ} (h : int64 x = some z) : z = x ∧ -2 ^ 63 ≤ x ∧ x < 2 ^ 63 := by
  rw [int64] at h
  split at h
  · rename_i hx
    exact ⟨(Option.some.inj h).symm, hx⟩
  · cases h

theorem floorDiv_eq_some {a b q : ℤ} (hb : 0 < b) (h : floorDiv a b = some q) : q = a / b := by
  have hquot : (b * (a / b)).tdiv b = a / b := Int.mul_tdiv_cancel_left _ hb.ne'
  rw [floorDiv, sub_mathMod hb, int64] at h
  split at h
  · cases h
    exact hquot
  · cases h

/-- Where a sum of `days_from_year` overflows there is no result. -/
theorem daysFromYear_bounds {days : ℤ} (h : daysFromYear y = some days) :
    -25252216391113090 ≤ y ∧ y ≤ 25252216391117030 := by
  simp only [daysFromYear, Option.bind_eq_bind, Option.bind_eq_some_iff] at h
  obtain ⟨a, ha, b, hb, c, hc, d, hd, e, he, -⟩ := h
  obtain ⟨rfl, -, -⟩ := int64_eq_some ha
  obtain ⟨rfl, -, -⟩ := int64_eq_some hb
  obtain ⟨rfl, -, -⟩ := int64_eq_some hc
  obtain rfl := floorDiv_eq_some (by decide) hd
  obtain ⟨-, h₀, h₁⟩ := int64_eq_some he
  omega

theorem toInt64_eq_some {x : Number} {n : ℤ} (h : toInt64 x = some n) :
    ∃ q, x = .finite q ∧ n = trunc q ∧ -2 ^ 63 ≤ trunc q ∧ trunc q < 2 ^ 63 := by
  cases x with
  | nan => cases h
  | finite q =>
    obtain ⟨heq, hbounds⟩ := int64_eq_some h
    exact ⟨q, rfl, heq, hbounds⟩

/-- A year that does not fit has no time value. -/
theorem fits_of_setDateFields {isLocal : Bool} {r : Number}
    (h : setDateFields getTimezoneOffset fields isLocal = some r) : YearFits fields := by
  simp only [setDateFields, Option.bind_eq_bind, Option.bind_eq_some_iff] at h
  obtain ⟨n, hn, days, hdays, -⟩ := h
  obtain ⟨q, hq, rfl, -⟩ := toInt64_eq_some hn
  exact ⟨q, hq, daysFromYear_bounds hdays⟩

/-! ## Integers -/

/-- The fields are integers. -/
structure Fields.Integral (fields : Fields) : Prop where
  year : ∃ n : ℤ, fields.year = n
  month : ∃ n : ℤ, fields.month = n
  day : ∃ n : ℤ, fields.day = n
  hours : ∃ n : ℤ, fields.hours = n
  minutes : ∃ n : ℤ, fields.minutes = n
  seconds : ∃ n : ℤ, fields.seconds = n
  ms : ∃ n : ℤ, fields.ms = n

theorem integral_addMonths (y : ℤ) (count i : ℕ) {days : Number} (h : days.Integral) :
    (addMonths y count i days).Integral := by
  induction count generalizing i days with
  | zero => exact h
  | succ count ih => exact ih _ (h.add (Number.integral_intCast _))

theorem integral_finite {q : ℚ} (h : ∃ n : ℤ, q = n) : (Number.finite q).Integral := by
  rintro p hp
  cases hp
  exact h

/-- Fields that are integers have a time value that is one. -/
theorem Fields.Integral.dateValue (h : fields.Integral) : (dateValue fields).Integral := by
  cases hyear : yearOf fields with
  | nan =>
    rw [dateValue_of_nan hyear]
    exact nofun
  | finite q =>
    have hnat : ∀ n : ℕ, (OfNat.ofNat n : Number).Integral := fun n => integral_finite ⟨n, (Int.cast_natCast n).symm⟩
    rw [dateValue_of_year hyear]
    have hdays := integral_addMonths (trunc q) (monthOf fields) 0 (Number.integral_double (yearStart (trunc q)))
    have hday := (integral_finite h.day).sub (hnat 1)
    have htime := (((integral_finite h.hours).mul (hnat 3600000)).add ((integral_finite h.minutes).mul (hnat 60000))).add
      ((integral_finite h.seconds).mul (hnat 1000))
    exact ((hdays.add hday).mul (hnat 86400000)).add (htime.add (integral_finite h.ms))

/-! ## Results in the range -/

/-- The result is NaN, or a time value in the range that has the property; nothing overflows. -/
def Exact (result : Option Number) (Denotes : ℤ → Prop) : Prop :=
  ∃ r, result = some r ∧ (r = .nan ∨ ∃ t : ℤ, r = .finite t ∧ |t| ≤ 8640000000000000 ∧ Denotes t)

/-- The fields that integers as arguments denote. -/
def utcArguments (args : List ℤ) : Fields := utcFields ((args.take 7).map fun n : ℤ => (n : ℚ))

theorem integral_utcArguments (args : List ℤ) : (utcArguments args).Integral := by
  have hfield : ∀ (i : ℕ) (n : ℤ), ∃ m : ℤ,
      (((((args.take 7).map fun n : ℤ => (n : ℚ))[i]?).map fun a => (trunc a : ℚ)).getD n : ℚ) = m := by
    intro i n
    cases ((args.take 7).map fun n : ℤ => (n : ℚ))[i]? with
    | none => exact ⟨n, rfl⟩
    | some a => exact ⟨trunc a, rfl⟩
  have hzero : ∀ i : ℕ, ∃ m : ℤ,
      (((((args.take 7).map fun n : ℤ => (n : ℚ))[i]?).map fun a => (trunc a : ℚ)).getD 0 : ℚ) = m := by
    intro i
    have hi := hfield i 0
    rwa [Int.cast_zero] at hi
  have hday := hfield 2 1
  refine ⟨?_, hzero 1, hday, hzero 3, hzero 4, hzero 5, hzero 6⟩
  obtain ⟨n, hn⟩ := hzero 0
  simp only [utcArguments, utcFields, hn]
  split
  · exact ⟨n + 1900, by push_cast; rfl⟩
  · exact ⟨n, rfl⟩

theorem jsDateUtc_eq (args : List ℤ) : jsDateUtc getTimezoneOffset (args.map fun n : ℤ => .finite (n : ℚ)) =
    if args = [] then some .nan else setDateFields getTimezoneOffset (utcArguments args) false := by
  have hmap : ∀ l : List ℤ, (l.map fun n : ℤ => Number.finite (n : ℚ)).mapM finiteValue = some (l.map fun n : ℤ => (n : ℚ)) := by
    intro l
    induction l with
    | nil => rfl
    | cons n l ih =>
      rw [List.map_cons, List.mapM_cons, ih]
      rfl
  rw [jsDateUtc, ← List.map_take, hmap]
  simp only [List.map_eq_nil_iff]
  rfl

/-- A value of doubles is clipped. -/
theorem exact_timeClip {x : Number} (hx : x.Integral) : Exact (some (timeClip x)) fun t => x = .finite t := by
  cases x with
  | nan => exact ⟨_, rfl, .inl rfl⟩
  | finite q =>
    obtain ⟨n, rfl⟩ := hx q rfl
    refine ⟨_, rfl, ?_⟩
    rw [timeClip_intCast]
    split
    · exact .inr ⟨n, rfl, ‹_›, rfl⟩
    · exact .inl rfl

/-- `Date.UTC` is exact if and only if its year fits. -/
theorem exact_utc_iff (args : List ℤ) :
    Exact (jsDateUtc getTimezoneOffset (args.map fun n : ℤ => .finite (n : ℚ)))
      (fun t => dateValue (utcArguments args) = .finite t) ↔ args = [] ∨ YearFits (utcArguments args) := by
  rw [jsDateUtc_eq]
  by_cases hargs : args = []
  · rw [if_pos hargs]
    exact iff_of_true ⟨_, rfl, .inl rfl⟩ (.inl hargs)
  · rw [if_neg hargs, or_iff_right hargs]
    constructor
    · rintro ⟨r, hr, -⟩
      exact fits_of_setDateFields hr
    · intro hfits
      rw [setDateFields_of_fits getTimezoneOffset hfits]
      exact exact_timeClip (integral_utcArguments args).dateValue

/-! ## Texts -/

/-- What a text says, with numbers of any size. -/
def exactParse (s : List ℕ) : Except Stop Parsed := if isIso s then parseIso .ok s else parseString .ok s

/-- The time value of a text: that of its fields, which are local or have a zone. -/
def textValue (getTimezoneOffset : ℤ → ℤ) (p : Parsed) : Number :=
  match dateValue (toFields p.fields) with
  | .nan => .nan
  | .finite q =>
    (if p.isLocal then .finite q + .finite (getTimezoneOffset (trunc q) * 60000 : ℤ) else .finite q) -
      double (p.tz * 60000 : ℤ)

/-- The text is parsed without overflow, and its zone does not lead out of the range. -/
structure TextFits (p : Parsed) : Prop where
  year : YearFits (toFields p.fields)
  local_ : p.isLocal = true → ∃ q, dateValue (toFields p.fields) = .finite q ∧ -2 ^ 63 ≤ trunc q ∧ trunc q < 2 ^ 63
  zone : p.isLocal = false → ∀ t : ℤ, dateValue (toFields p.fields) = .finite t → |t| ≤ 8640000000000000 →
    |t - p.tz * 60000| ≤ 8640000000000000

theorem integral_toFields (l : List ℤ) : (toFields l).Integral :=
  ⟨exists_nearest_intCast _, exists_nearest_intCast _, exists_nearest_intCast _, exists_nearest_intCast _,
    exists_nearest_intCast _, exists_nearest_intCast _, exists_nearest_intCast _⟩

/-- What holds of every result of a scanner. -/
def Post {α : Type} (x : Except Stop α) (P : α → Prop) : Prop := ∀ a, x = .ok a → P a

theorem post_bind {α β : Type} {x : Except Stop α} {k : α → Except Stop β} {P : α → Prop} {Q : β → Prop}
    (hx : Post x P) (hk : ∀ a, P a → Post (k a) Q) : Post (x >>= k) Q := by
  cases x with
  | error e => exact nofun
  | ok a => exact hk a (hx a rfl)

theorem post_any {α : Type} (x : Except Stop α) : Post x fun _ => True := fun _ _ => trivial

/-- Two digits are below a hundred. -/
theorem post_fixedWidth (s : List ℕ) : Post (stringGetFixedWidthDigits 2 s 0) fun r => 0 ≤ r.1 ∧ r.1 < 100 := by
  rintro ⟨v, t⟩ h
  cases s with
  | nil => cases h
  | cons c s =>
    rw [stringGetFixedWidthDigits] at h
    split at h
    · rename_i hc
      cases s with
      | nil => cases h
      | cons d s =>
        rw [stringGetFixedWidthDigits] at h
        split at h
        · rename_i hd
          cases h
          have hc' := isDigit_iff.mp hc
          have hd' := isDigit_iff.mp hd
          constructor <;> dsimp only <;> omega
        · cases h
    · cases h

theorem abs_zoneMinutes {sgn : ℕ} {hh mm : ℤ} (hhh : 0 ≤ hh ∧ hh < 100) (hmm : 0 ≤ mm ∧ mm < 100) :
    |zoneMinutes sgn hh mm| < 6060 := by
  rw [zoneMinutes, abs_lt]
  split <;> omega

theorem post_findZone (s : List ℕ) : Post (findZone s) fun tz => |tz| < 6060 := by
  induction s with
  | nil =>
    intro tz h
    cases h
    decide
  | cons c s ih =>
    rw [findZone]
    split
    · refine post_bind (post_fixedWidth s) fun r hr => post_bind (post_fixedWidth r.2) fun q hq => ?_
      intro tz h
      cases h
      exact abs_zoneMinutes hr hq
    · exact ih

theorem post_isoZone (isLocal : Bool) (s : List ℕ) :
    Post (isoZone isLocal s) fun z => |z.1| < 6060 ∧ (z.2 = true → z.1 = 0) := by
  cases s with
  | nil =>
    intro z h
    cases h
    exact ⟨(by decide : |(0 : ℤ)| < 6060), fun _ => rfl⟩
  | cons sgn s =>
    have hminutes : ∀ (hh : ℤ) (t : List ℕ), 0 ≤ hh ∧ hh < 100 → Post (stringGetFixedWidthDigits 2 t 0 >>= fun r =>
        if r.2 = [] then pure (zoneMinutes sgn hh r.1, false) else .error .invalid)
        fun z => |z.1| < 6060 ∧ (z.2 = true → z.1 = 0) := by
      intro hh t hhh
      refine post_bind (post_fixedWidth t) fun r hr => ?_
      split
      · intro z h
        cases h
        exact ⟨abs_zoneMinutes hhh hr, nofun⟩
      · exact nofun
    rw [isoZone]
    split
    · split
      · exact nofun
      · refine post_bind (post_fixedWidth s) fun r hr => ?_
        dsimp only
        split
        · split
          · exact hminutes r.1 _ hr
          · exact nofun
        · exact hminutes r.1 _ hr
    · split
      · intro z h
        cases h
        exact ⟨(by decide : |(0 : ℤ)| < 6060), fun _ => rfl⟩
      · exact nofun

/-- The zone of a text is small; a local time has none. -/
theorem post_exactParse (s : List ℕ) : Post (exactParse s) fun p => |p.tz| < 6060 ∧ (p.isLocal = true → p.tz = 0) := by
  rw [exactParse]
  split
  · refine post_bind (post_any _) fun r _ => post_bind (post_any _) fun v _ => post_bind (post_any _) fun m _ => ?_
    refine post_bind (post_isoZone _ _) fun z hz => ?_
    intro p h
    cases h
    exact hz
  · refine post_bind (post_any _) fun r _ => post_bind (post_any _) fun v _ => post_bind (post_any _) fun m _ => ?_
    refine post_bind (post_any _) fun c _ => post_bind (post_any _) fun n _ => ?_
    refine post_bind (post_any _) fun d _ => post_bind (post_any _) fun q _ => ?_
    refine post_bind (post_findZone _) fun tz htz => ?_
    intro p h
    cases h
    exact ⟨htz, nofun⟩

/-- The zone is subtracted exactly from a time value. -/
theorem sub_zone {t tz : ℤ} (htz : |tz| < 6060) (ht : |t| ≤ 8640000000000000) :
    Number.finite t - double (tz * 60000 : ℤ) = .finite (t - tz * 60000 : ℤ) := by
  rw [abs_lt] at htz
  rw [abs_le] at ht
  rw [double_intCast (abs_le.mpr (by omega)), Number.sub_intCast (abs_le.mpr (by omega))]

theorem textValue_of_local {p : Parsed} {n : ℤ} (hlocal : p.isLocal = true) (h : dateValue (toFields p.fields) = .finite n) :
    textValue getTimezoneOffset p =
      (.finite n + .finite (getTimezoneOffset n * 60000 : ℤ)) - double (p.tz * 60000 : ℤ) := by
  unfold textValue
  rw [h]
  simp only
  rw [if_pos hlocal, trunc_intCast]

theorem textValue_of_zone {p : Parsed} {n : ℤ} (hlocal : p.isLocal = false) (h : dateValue (toFields p.fields) = .finite n) :
    textValue getTimezoneOffset p = .finite n - double (p.tz * 60000 : ℤ) := by
  unfold textValue
  rw [h]
  simp only
  rw [if_neg (by rw [hlocal]; exact Bool.false_ne_true)]

/-- What is parsed is the value of the text, unless the clip comes first. -/
theorem exact_parsed_iff {p : Parsed} (htz : |p.tz| < 6060) (hlocal : p.isLocal = true → p.tz = 0) :
    Exact ((setDateFields getTimezoneOffset (toFields p.fields) p.isLocal).map fun d => d - double (p.tz * 60000 : ℤ))
      (fun t => textValue getTimezoneOffset p = .finite t) ↔ TextFits p := by
  constructor
  · rintro ⟨r, hr, hcases⟩
    obtain ⟨c, hc, rfl⟩ := Option.map_eq_some_iff.mp hr
    have hfits := fits_of_setDateFields hc
    rw [setDateFields_of_fits getTimezoneOffset hfits] at hc
    refine ⟨hfits, fun hloc => ?_, fun hzone t ht hle => ?_⟩
    · rw [if_pos hloc] at hc
      obtain ⟨n, hn, -⟩ := Option.map_eq_some_iff.mp hc
      obtain ⟨q, hq, -, hbounds⟩ := toInt64_eq_some hn
      exact ⟨q, hq, hbounds⟩
    · rw [hzone, ht, timeClip_intCast, if_pos hle] at hc
      cases hc
      rw [sub_zone htz hle] at hcases
      obtain hnan | ⟨t', heq, hle', -⟩ := hcases
      · cases hnan
      · have hcast : t - p.tz * 60000 = t' := by exact_mod_cast Number.finite.inj heq
        rwa [hcast]
  · intro hfits
    rw [setDateFields_of_fits getTimezoneOffset hfits.year]
    have hint := (integral_toFields p.fields).dateValue
    cases hloc : p.isLocal with
    | false =>
      rw [if_neg Bool.false_ne_true, Option.map_some]
      refine ⟨_, rfl, ?_⟩
      cases hvalue : dateValue (toFields p.fields) with
      | nan => exact .inl rfl
      | finite q =>
        obtain ⟨t, rfl⟩ := hint q hvalue
        rw [timeClip_intCast]
        split
        · rename_i hle
          rw [sub_zone htz hle]
          exact .inr ⟨_, rfl, hfits.zone hloc t hvalue hle, (textValue_of_zone hloc hvalue).trans (sub_zone htz hle)⟩
        · exact .inl rfl
    | true =>
      obtain ⟨q, hq, h₀, h₁⟩ := hfits.local_ hloc
      obtain ⟨n, rfl⟩ := hint q hq
      have hcast : toInt64 (.finite n) = some n := by
        rw [toInt64, trunc_intCast]
        rw [trunc_intCast] at h₀ h₁
        exact int64_eq h₀ h₁
      have hx : (Number.finite n + .finite (getTimezoneOffset n * 60000 : ℤ)).Integral :=
        (Number.integral_intCast n).add (Number.integral_intCast _)
      have htext := @textValue_of_local getTimezoneOffset p n hloc hq
      have hzero : ∀ t : ℤ, |t| ≤ 8640000000000000 → Number.finite t - double (p.tz * 60000 : ℤ) = .finite t := by
        intro t hle
        rw [sub_zone htz hle, hlocal hloc, zero_mul, sub_zero]
      rw [hq, hcast, Option.map_some]
      refine ⟨_, rfl, ?_⟩
      rw [htext]
      cases hvalue : Number.finite n + .finite (getTimezoneOffset n * 60000 : ℤ) with
      | nan => exact .inl rfl
      | finite q =>
        obtain ⟨t, rfl⟩ := hx q hvalue
        rw [timeClip_intCast]
        split
        · rename_i hle
          exact .inr ⟨t, hzero t hle, hle, hzero t hle⟩
        · exact .inl rfl

/-- `Date.parse` is exact if and only if its numbers and what they say fit. -/
theorem exact_parse_iff (s : List ℕ) : Exact (jsDateParse getTimezoneOffset s)
      (fun t => ∃ p, exactParse s = .ok p ∧ textValue getTimezoneOffset p = .finite t) ↔
      (∀ n ∈ numbersRead s, n < digitsLimit) ∧ ∀ p, exactParse s = .ok p → TextFits p := by
  have hagrees : Agrees (numbersRead s) (if isIso s then parseIso checked s else parseString checked s) (exactParse s) :=
    agrees_parse s
  by_cases hsmall : ∀ n ∈ numbersRead s, n < digitsLimit
  · rw [jsDateParse, hagrees.eq hsmall, and_iff_right hsmall]
    cases hparse : exactParse s with
    | error e =>
      have hvalid : e = .invalid := by
        cases e with
        | invalid => rfl
        | overflow => exact absurd hparse hagrees.valid
      rw [hvalid]
      exact iff_of_true ⟨_, rfl, .inl rfl⟩ (by simp)
    | ok p =>
      obtain ⟨htz, hlocal⟩ := post_exactParse s p hparse
      have hiff := @exact_parsed_iff getTimezoneOffset p htz hlocal
      constructor
      · rintro ⟨r, hr, hcases⟩ q hq
        cases hq
        refine hiff.mp ⟨r, hr, hcases.imp_right ?_⟩
        rintro ⟨t, ht, hle, q, hq, hvalue⟩
        cases hq
        exact ⟨t, ht, hle, hvalue⟩
      · intro hfits
        obtain ⟨r, hr, hcases⟩ := hiff.mpr (hfits p rfl)
        refine ⟨r, hr, hcases.imp_right ?_⟩
        rintro ⟨t, ht, hle, hvalue⟩
        exact ⟨t, ht, hle, p, rfl, hvalue⟩
  · refine iff_of_false ?_ fun h => hsmall h.1
    rintro ⟨r, hr, -⟩
    simp only [not_forall, Int.not_lt] at hsmall
    obtain ⟨n, hn, hlarge⟩ := hsmall
    rw [jsDateParse, hagrees.overflow ⟨n, hn, hlarge⟩] at hr
    cases hr

/-! ## The two functions -/

/-- The time value of integers in the calendar. -/
def calendarValue (y month day hours minutes seconds ms : ℤ) : ℤ :=
  (yearStart (y + month / 12) + monthStart (y + month / 12) (month % 12).toNat + day - 1) * 86400000 +
    (hours * 3600000 + minutes * 60000 + seconds * 1000 + ms)

/-- No sum has more than 53 bits. -/
structure Small (y month day hours minutes seconds ms : ℤ) : Prop where
  year_le : |y| ≤ 2 ^ 43
  month_le : |month / 12| ≤ 2 ^ 43
  day_le : |day| ≤ 2 ^ 52
  hours_le : |hours| ≤ 2 ^ 28
  minutes_le : |minutes| ≤ 2 ^ 34
  seconds_le : |seconds| ≤ 2 ^ 40
  ms_le : |ms| ≤ 2 ^ 50
  days_le : |(yearStart (y + month / 12) + monthStart (y + month / 12) (month % 12).toNat + day - 1) * 86400000| ≤ 2 ^ 53
  sum_le : |calendarValue y month day hours minutes seconds ms| ≤ 2 ^ 53

/-- **Dates are exact or NaN if and only if nothing overflows and the zone stays in the range.** The value of fields is
that of the calendar as long as no sum is rounded. -/
theorem clipped_iff (getTimezoneOffset : ℤ → ℤ) (args : List ℤ) (s : List ℕ) :
    (Exact (jsDateUtc getTimezoneOffset (args.map fun n : ℤ => .finite (n : ℚ)))
      (fun t => dateValue (utcArguments args) = .finite t) ↔ args = [] ∨ YearFits (utcArguments args)) ∧
    (Exact (jsDateParse getTimezoneOffset s)
      (fun t => ∃ p, exactParse s = .ok p ∧ textValue getTimezoneOffset p = .finite t) ↔
        (∀ n ∈ numbersRead s, n < digitsLimit) ∧ ∀ p, exactParse s = .ok p → TextFits p) ∧
    ∀ y month day hours minutes seconds ms : ℤ, Small y month day hours minutes seconds ms →
      dateValue ⟨y, month, day, hours, minutes, seconds, ms⟩ =
        .finite (calendarValue y month day hours minutes seconds ms) := by
  refine ⟨exact_utc_iff args, exact_parse_iff s, fun y month day hours minutes seconds ms h => ?_⟩
  exact (dateValue_eq h.year_le h.month_le h.day_le h.hours_le h.minutes_le h.seconds_le h.ms_le rfl h.days_le rfl h.sum_le).2

/-- The year `2 ^ 60` overflows, so does a number of twenty digits, and a zone leads behind the last time value. -/
theorem not_clipped : (¬Exact (jsDateUtc (fun _ => 0) ([2 ^ 60].map fun n : ℤ => .finite (n : ℚ)))
      fun t => dateValue (utcArguments [2 ^ 60]) = .finite t) ∧
    (¬Exact (jsDateParse (fun _ => 0) (ascii "99999999999999999999"))
      fun t => ∃ p, exactParse (ascii "99999999999999999999") = .ok p ∧ textValue (fun _ => 0) p = .finite t) ∧
    jsDateParse (fun _ => 0) (ascii "+275760-09-13T00:00:00-00:01") = some (.finite (8640000000060000 : ℤ)) := by
  refine ⟨?_, ?_, ?_⟩
  · rw [exact_utc_iff]
    rintro (h | ⟨q, hq, -, hle⟩)
    · cases h
    · have hfields : utcArguments [2 ^ 60] = ⟨((2 ^ 60 : ℤ) : ℚ), ((0 : ℤ) : ℚ), 1, 0, 0, 0, 0⟩ := by
        norm_num [utcArguments, utcFields, trunc]
      have hbits : nearest ((1 : ℤ) * 2 ^ (60 : ℤ)) = (1 : ℤ) * 2 ^ (60 : ℤ) := nearest_of_bits (by decide) (by decide)
      have hyear : yearOf (utcArguments [2 ^ 60]) = .finite (2 ^ 60 : ℤ) := by
        have hsum : Number.finite (2 ^ 60 : ℤ) + .finite (0 : ℤ) = double ((1 : ℤ) * 2 ^ (60 : ℤ)) := by
          show double _ = double _
          norm_num
        have hlarge : |((1 : ℤ) : ℚ) * 2 ^ (60 : ℤ)| < 2 ^ 1024 := by
          refine lt_trans ?_ (pow_lt_pow_right₀ one_lt_two (by decide : 61 < 1024))
          norm_num
        rw [hfields, yearOf, floor_div_twelve (by decide), Int.zero_ediv, hsum, double, hbits, if_pos hlarge]
        norm_num
      rw [hyear] at hq
      cases hq
      exact absurd hle (by decide)
  · rw [exact_parse_iff]
    intro h
    exact absurd (h.1 99999999999999999999 (by decide)) (by decide)
  · obtain ⟨date, hyear, hmonth, hday, hnumber⟩ : ∃ date : Date, date.year = 275760 ∧ date.month = 8 ∧ date.day = 13 ∧
        date.dayNumber = 100000000 := ⟨⟨275760, 8, 13, by decide, by decide, by decide⟩, rfl, rfl, rfl, by decide⟩
    have hiso : isIso (ascii "+275760-09-13T00:00:00-00:01") = true := rfl
    have hparse : parseIso checked (ascii "+275760-09-13T00:00:00-00:01") =
        .ok ⟨[date.year, date.month, date.day, 0, 0, 0, 0], -1, false⟩ := by
      rw [hyear, hmonth, hday]
      rfl
    have hresult : jsDateParse (fun _ => 0) (ascii "+275760-09-13T00:00:00-00:01") = some
        (if |(8640000000000000 : ℤ)| ≤ 8640000000000000 then .finite (8640000000000000 - -1 * 60000 : ℤ) else .nan) :=
      jsDateParse_eq hiso hparse (by rw [hnumber]; decide) (by decide) (by decide) (by decide) (by decide) (by decide)
        (by rw [hnumber]; decide)
    rw [hresult]
    norm_num

end QuickJs.JsDate
