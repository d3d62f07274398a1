import QuickJs.JSString
import QuickJs.Utf8

/-!
# String buffers

A string that is being built: its characters, the room that is left, and whether an operation has failed. The
characters become wide when the first one of more than 8 bits arrives. An `int` wraps. What the allocator says is
the argument of an operation: NULL, or how many bytes it gives beyond those asked for.
-/

namespace QuickJs.JSString

/-- The value of an `int` that has wrapped. -/
def int32 (x : ℤ) : ℤ := Int.bmod x (2 ^ 32)

/-- `sizeof(JSString)`. -/
def sizeofJSString : ℤ := 16

/-- The bytes that a string of so many characters asks for. -/
def stringBytes (size : ℤ) (isWide : Bool) : ℤ :=
  if isWide then sizeofJSString + int32 (size * 2) else sizeofJSString + size + 1

/-- `js_malloc` and `js_realloc2`: a negative size is a very large one. Nor is there a string in less than its header. -/
def jsMalloc (bytes : ℤ) (answer : Option ℕ) : Option ℕ := if bytes < sizeofJSString then none else answer

/-- `StringBuffer`. `usable` is the size of its memory. -/
structure StringBuffer where
  str : Chars
  size : ℤ
  errorStatus : Bool
  usable : ℤ

namespace StringBuffer

def len (s : StringBuffer) : ℕ := s.str.len

def isWideChar (s : StringBuffer) : Bool := s.str.isWideChar

/-- `string_buffer_init2`. -/
def init2 (size : ℤ) (isWide : Bool) (answer : Option ℕ) : StringBuffer :=
  let str := if isWide then Chars.str16 [] else .str8 []
  match jsMalloc (stringBytes size isWide) answer with
  | none => ⟨str, 0, true, 0⟩
  | some slack => ⟨str, size, false, stringBytes size isWide + slack⟩

/-- `string_buffer_set_error`; the operation that has failed returns `false`. -/
def setError (s : StringBuffer) : Bool × StringBuffer :=
  (false, ⟨if s.isWideChar then .str16 [] else .str8 [], 0, true, 0⟩)

/-- `string_buffer_widen`. -/
def widen (s : StringBuffer) (size : ℤ) (answer : Option ℕ) : Bool × StringBuffer :=
  if s.errorStatus then (false, s)
  else
    match jsMalloc (stringBytes size true) answer with
    | none => s.setError
    | some slack => (true, { s with
        str := s.str.widen, size := int32 (size + slack / 2), usable := stringBytes size true + slack })

/-- `string_buffer_realloc`. -/
def realloc (s : StringBuffer) (newLen : ℤ) (c : ℕ) (answer : Option ℕ) : Bool × StringBuffer :=
  if s.errorStatus then (false, s)
  else if JS_STRING_LEN_MAX < newLen then s.setError
  else
    let newSize := min (max newLen ((int32 (s.size * 3)).tdiv 2)) JS_STRING_LEN_MAX
    if !s.isWideChar && 0x100 ≤ c then s.widen newSize answer
    else
      match jsMalloc (stringBytes newSize s.isWideChar) answer with
      | none => s.setError
      | some slack =>
        let room : ℤ := if s.isWideChar then slack / 2 else slack
        (true, { s with
          size := min (int32 (newSize + room)) JS_STRING_LEN_MAX
          usable := stringBytes newSize s.isWideChar + slack })

/-- Go on if the operation before did not fail. -/
def andThen (r : Bool × StringBuffer) (f : StringBuffer → Bool × StringBuffer) : Bool × StringBuffer :=
  if r.1 then f r.2 else r

def append8 (s : StringBuffer) (p : List UInt8) : Bool × StringBuffer := (true, { s with str := s.str.append8 p })

def append16 (s : StringBuffer) (p : List UInt16) : Bool × StringBuffer := (true, { s with str := s.str.append16 p })

/-- `string_buffer_putc_slow`. -/
def putcSlow (s : StringBuffer) (c : UInt16) (answer : Option ℕ) : Bool × StringBuffer :=
  andThen (if s.size ≤ s.len then s.realloc (s.len + 1) c.toNat answer else (true, s)) fun s =>
    if s.isWideChar || c.toNat < 0x100 then s.append16 [c]
    else andThen (s.widen s.size answer) fun s => s.append16 [c]

/-- `string_buffer_putc8`. -/
def putc8 (s : StringBuffer) (c : UInt8) (answer : Option ℕ) : Bool × StringBuffer :=
  andThen (if s.size ≤ s.len then s.realloc (s.len + 1) c.toNat answer else (true, s)) fun s => s.append8 [c]

/-- `string_buffer_putc16`. -/
def putc16 (s : StringBuffer) (c : UInt16) (answer : Option ℕ) : Bool × StringBuffer :=
  if s.len < s.size ∧ (s.isWideChar ∨ c.toNat < 0x100) then s.append16 [c] else s.putcSlow c answer

/-- `string_buffer_putc`, for a code point. -/
def putc (s : StringBuffer) (c : ℕ) (answer : ℕ → Option ℕ) : Bool × StringBuffer :=
  if 0x10000 ≤ c then
    let c := c - 0x10000
    andThen (s.putc16 (.ofNat (c / 2 ^ 10 + 0xd800)) (answer 0)) fun s =>
      s.putc16 (.ofNat (c % 2 ^ 10 + 0xdc00)) (answer 1)
  else s.putc16 (.ofNat c) (answer 0)

/-- `string_buffer_write8`. -/
def write8 (s : StringBuffer) (p : List UInt8) (answer : Option ℕ) : Bool × StringBuffer :=
  let newLen := int32 (s.len + p.length)
  andThen (if s.size < newLen then s.realloc newLen 0 answer else (true, s)) fun s => s.append8 p

/-- `string_buffer_write16`. -/
def write16 (s : StringBuffer) (p : List UInt16) (answer : Option ℕ) : Bool × StringBuffer :=
  let c := (p.map UInt16.toNat).foldr (· ||| ·) 0
  let newLen := int32 (s.len + p.length)
  andThen
    (if s.size < newLen then s.realloc newLen c answer
      else if !s.isWideChar && 0x100 ≤ c then s.widen s.size answer else (true, s))
    fun s => s.append16 p

/-- `string_buffer_concat`. -/
def concat (s : StringBuffer) (p : Chars) (start stop : ℕ) (answer : Option ℕ) : Bool × StringBuffer :=
  if stop ≤ start then (true, s)
  else
    match p with
    | .str16 t => s.write16 ((t.drop start).take (stop - start)) answer
    | .str8 t => s.write8 ((t.drop start).take (stop - start)) answer

/-- `string_buffer_concat_value`, for what `JS_ToString` makes of the value. -/
def concatValue (s : StringBuffer) (v : Option Chars) (answer : Option ℕ) : Bool × StringBuffer :=
  if s.errorStatus then (false, s)
  else
    match v with
    | none => s.setError
    | some p => s.concat p 0 p.len answer

/-- The loop of `string_buffer_fill`. -/
def fillLoop (c : UInt16) : ℕ → (ℕ → Option ℕ) → StringBuffer → Bool × StringBuffer
  | 0, _, s => (true, s)
  | count + 1, answer, s => andThen (s.putc16 c (answer 0)) (fillLoop c count fun i => answer (i + 1))

/-- `string_buffer_fill`. -/
def fill (s : StringBuffer) (c : UInt16) (count : ℕ) (answer : ℕ → Option ℕ) : Bool × StringBuffer :=
  let newLen := int32 (s.len + count)
  andThen (if s.size < newLen then s.realloc newLen c.toNat (answer 0) else (true, s))
    (fillLoop c count fun i => answer (i + 1))

variable {s s' : StringBuffer} {r : Bool × StringBuffer} {f : StringBuffer → Bool × StringBuffer}
  {us vs : List UInt16} {c : ℕ} {answer : Option ℕ}

/-! ## What the operations add -/

theorem units_init2 (size : ℤ) (isWide : Bool) (answer : Option ℕ) : (init2 size isWide answer).str.units = [] := by
  rw [init2]
  cases isWide <;> cases jsMalloc _ answer <;> rfl

/-- The operation has added the code units, or it has failed and the buffer knows it. -/
structure Adds (us : List UInt16) (s : StringBuffer) (r : Bool × StringBuffer) : Prop where
  failed : r.1 = false → r.2.errorStatus = true
  units : r.1 = true → r.2.str.units = s.str.units ++ us
  error : r.1 = true → r.2.errorStatus = s.errorStatus

/-- There is room for characters up to `c`, and the text is still there. -/
structure Grows (c : ℕ) (s : StringBuffer) (r : Bool × StringBuffer) : Prop extends Adds [] s r where
  wide : r.1 = true → s.isWideChar = true ∨ 0x100 ≤ c → r.2.isWideChar = true

theorem adds_setError (s : StringBuffer) : Adds us s s.setError := ⟨fun _ => rfl, nofun, nofun⟩

theorem Grows.refl (h : s.isWideChar = true ∨ c < 0x100) : Grows c s (true, s) where
  failed := nofun
  units _ := (List.append_nil _).symm
  error _ := rfl
  wide _ hc := hc.elim id fun hc => h.resolve_right (Nat.not_lt.mpr hc)

theorem grows_setError (s : StringBuffer) : Grows c s s.setError := ⟨adds_setError s, nofun⟩

theorem grows_failed (h : s.errorStatus = true) : Grows c s (false, s) := ⟨⟨fun _ => h, nofun, nofun⟩, nofun⟩

theorem grows_widen (s : StringBuffer) (size : ℤ) (answer : Option ℕ) : Grows c s (s.widen size answer) := by
  rw [widen]
  split
  · exact grows_failed ‹_›
  · split
    · exact grows_setError s
    · exact ⟨⟨nofun, fun _ => (List.append_nil _).symm, fun _ => rfl⟩, fun _ _ => rfl⟩

theorem grows_realloc (s : StringBuffer) (newLen : ℤ) (c : ℕ) (answer : Option ℕ) :
    Grows c s (s.realloc newLen c answer) := by
  rw [realloc]
  split
  · exact grows_failed ‹_›
  split
  · exact grows_setError s
  simp only
  split
  · exact grows_widen s _ answer
  · rename_i hwide
    split
    · exact grows_setError s
    · refine ⟨⟨nofun, fun _ => (List.append_nil _).symm, fun _ => rfl⟩, fun _ hc => ?_⟩
      simp only [Bool.and_eq_true, Bool.not_eq_true', decide_eq_true_eq, not_and, Nat.not_le] at hwide
      by_contra hnarrow
      exact Nat.not_lt.mpr (hc.resolve_left hnarrow) (hwide (Bool.eq_false_iff.mpr hnarrow))

/-- First one operation adds, then the other one. -/
theorem Adds.andThen (hr : Adds us s r) (hf : r.1 = true → Adds vs r.2 (f r.2)) :
    Adds (us ++ vs) s (StringBuffer.andThen r f) := by
  rw [StringBuffer.andThen]
  split
  · rename_i hok
    obtain ⟨hfailed, hunits, herror⟩ := hf hok
    refine ⟨hfailed, fun h => ?_, fun h => (herror h).trans (hr.error hok)⟩
    rw [hunits h, hr.units hok, List.append_assoc]
  · rename_i hok
    have hfalse : r.1 = false := Bool.eq_false_iff.mpr hok
    refine ⟨hr.failed, ?_, ?_⟩ <;> rw [hfalse] <;> exact nofun

theorem Grows.andThen (hr : Grows c s r) (hf : r.1 = true → Adds us r.2 (f r.2)) :
    Adds us s (StringBuffer.andThen r f) := hr.toAdds.andThen hf

theorem adds_append8 (s : StringBuffer) (p : List UInt8) : Adds (p.map UInt8.toUInt16) s (s.append8 p) :=
  ⟨nofun, fun _ => units_append8 p, fun _ => rfl⟩

theorem adds_append16 (h : s.isWideChar = true ∨ ∀ u ∈ us, u.toNat < 0x100) : Adds us s (s.append16 us) :=
  ⟨nofun, fun _ => units_append16 h, fun _ => rfl⟩

theorem Adds.refl (s : StringBuffer) : Adds [] s (true, s) := ⟨nofun, fun _ => (List.append_nil _).symm, fun _ => rfl⟩

/-- The memory grows if it has to. -/
theorem adds_grow (s : StringBuffer) (cond : Prop) [Decidable cond] (newLen : ℤ) (c : ℕ) (answer : Option ℕ) :
    Adds [] s (if cond then s.realloc newLen c answer else (true, s)) := by
  split
  · exact (grows_realloc s newLen c answer).toAdds
  · exact .refl s

theorem adds_putc8 (s : StringBuffer) (c : UInt8) (answer : Option ℕ) : Adds [c.toUInt16] s (s.putc8 c answer) :=
  (adds_grow s _ _ _ answer).andThen fun _ => adds_append8 _ [c]

/-- A character goes where there is room for it. -/
theorem adds_push (s : StringBuffer) (c : UInt16) (answer : Option ℕ) :
    Adds [c] s (if s.isWideChar || c.toNat < 0x100 then s.append16 [c]
      else StringBuffer.andThen (s.widen s.size answer) fun s => s.append16 [c]) := by
  split
  · rename_i h
    simp only [Bool.or_eq_true, decide_eq_true_eq] at h
    exact adds_append16 (h.imp_right fun hc u hu => List.mem_singleton.mp hu ▸ hc)
  · rename_i h
    simp only [Bool.or_eq_true, decide_eq_true_eq, not_or, Nat.not_lt] at h
    have hgrows := grows_widen (c := c.toNat) s s.size answer
    exact hgrows.andThen fun hok => adds_append16 (.inl (hgrows.wide hok (.inr h.2)))

theorem adds_putcSlow (s : StringBuffer) (c : UInt16) (answer : Option ℕ) : Adds [c] s (s.putcSlow c answer) :=
  (adds_grow s _ _ _ answer).andThen fun _ => adds_push _ c answer

theorem adds_putc16 (s : StringBuffer) (c : UInt16) (answer : Option ℕ) : Adds [c] s (s.putc16 c answer) := by
  rw [putc16]
  split
  · rename_i h
    exact adds_append16 (h.2.imp_right fun hc u hu => List.mem_singleton.mp hu ▸ hc)
  · exact adds_putcSlow s c answer

/-- A code point adds its code units. -/
theorem adds_putc (s : StringBuffer) (c : ℕ) (answer : ℕ → Option ℕ) :
    Adds (Utf8.stringBufferPutc c) s (s.putc c answer) := by
  rw [putc, Utf8.stringBufferPutc]
  split
  · exact (adds_putc16 s _ (answer 0)).andThen fun _ => adds_putc16 _ _ (answer 1)
  · exact adds_putc16 s _ (answer 0)

/-- All characters are as small as the bits that they have together. -/
theorem lt_of_or_lt {p : List UInt16} (h : (p.map UInt16.toNat).foldr (· ||| ·) 0 < 0x100) : ∀ u ∈ p, u.toNat < 0x100 := by
  induction p with
  | nil => exact nofun
  | cons u p ih =>
    intro v hv
    cases hv with
    | head => exact Nat.lt_of_le_of_lt Nat.left_le_or h
    | tail _ hv => exact ih (Nat.lt_of_le_of_lt Nat.right_le_or h) v hv

theorem adds_write8 (s : StringBuffer) (p : List UInt8) (answer : Option ℕ) :
    Adds (p.map UInt8.toUInt16) s (s.write8 p answer) := by
  rw [write8]
  exact (adds_grow s _ _ _ answer).andThen fun _ => adds_append8 _ p

theorem adds_write16 (s : StringBuffer) (p : List UInt16) (answer : Option ℕ) : Adds p s (s.write16 p answer) := by
  have hsmall := lt_of_or_lt (p := p)
  rw [write16]
  generalize (p.map UInt16.toNat).foldr (· ||| ·) 0 = c at hsmall
  have hgrows : Grows c s (if s.size < int32 (s.len + p.length) then s.realloc (int32 (s.len + p.length)) c answer
      else if !s.isWideChar && 0x100 ≤ c then s.widen s.size answer else (true, s)) := by
    split
    · exact grows_realloc s _ c answer
    split
    · exact grows_widen s _ answer
    · rename_i h
      simp only [Bool.and_eq_true, Bool.not_eq_true', decide_eq_true_eq, not_and, Nat.not_le] at h
      exact .refl ((Bool.eq_false_or_eq_true s.isWideChar).imp_right h)
  refine hgrows.andThen fun hok => adds_append16 ?_
  by_cases hc : c < 0x100
  · exact .inr (hsmall hc)
  · exact .inl (hgrows.wide hok (.inr (Nat.le_of_not_lt hc)))

theorem adds_concat (s : StringBuffer) (p : Chars) (start stop : ℕ) (answer : Option ℕ) :
    Adds ((p.units.drop start).take (stop - start)) s (s.concat p start stop answer) := by
  unfold concat
  split
  · rename_i h
    rw [Nat.sub_eq_zero_of_le h]
    exact .refl s
  · cases p with
    | str8 t =>
      have hmap : ((t.drop start).take (stop - start)).map UInt8.toUInt16 =
          ((t.map UInt8.toUInt16).drop start).take (stop - start) := by
        rw [List.map_take, List.map_drop]
      exact hmap ▸ adds_write8 s _ answer
    | str16 t => exact adds_write16 s _ answer

theorem adds_concatValue (s : StringBuffer) (v : Option Chars) (answer : Option ℕ) :
    Adds ((v.map Chars.units).getD []) s (s.concatValue v answer) := by
  unfold concatValue
  split
  · exact ⟨fun _ => ‹_›, nofun, nofun⟩
  · cases v with
    | none => exact adds_setError s
    | some p =>
      have h := adds_concat s p 0 p.len answer
      rw [List.drop_zero, Nat.sub_zero, List.take_of_length_le (length_units p).le] at h
      exact h

theorem adds_fillLoop (c : UInt16) (count : ℕ) (answer : ℕ → Option ℕ) (s : StringBuffer) :
    Adds (List.replicate count c) s (fillLoop c count answer s) := by
  induction count generalizing answer s with
  | zero => exact .refl s
  | succ count ih =>
    exact (adds_putc16 s c (answer 0)).andThen fun _ => ih _ _

theorem adds_fill (s : StringBuffer) (c : UInt16) (count : ℕ) (answer : ℕ → Option ℕ) :
    Adds (List.replicate count c) s (s.fill c count answer) := by
  exact (adds_grow s _ _ _ _).andThen fun _ => adds_fillLoop c count _ _

/-! ## The limit -/

/-- What is too long for the limit is too long for the room that the buffer has. -/
def Fits (s : StringBuffer) (n : ℕ) : Prop := s.len + n ≤ JS_STRING_LEN_MAX ∨ s.size < s.len + n

/-- The text so far is not too long. -/
def Within (s : StringBuffer) : Prop := s.errorStatus = false → s.len ≤ JS_STRING_LEN_MAX

theorem int32_eq {x : ℤ} (h₀ : 0 ≤ x) (h : x < 2 ^ 31) : int32 x = x := Int.bmod_eq_of_le (by omega) (by omega)

theorem realloc_too_long {newLen : ℤ} (h : JS_STRING_LEN_MAX < newLen) : (s.realloc newLen c answer).1 = false := by
  rw [realloc]
  split <;> rfl

/-- An operation that asks for too much room fails. -/
theorem andThen_too_long {newLen : ℤ} {cond : Prop} [Decidable cond] (hcond : cond) (h : JS_STRING_LEN_MAX < newLen)
    {t : Bool × StringBuffer} : (StringBuffer.andThen (if cond then s.realloc newLen c answer else t) f).1 = false := by
  have hfalse : (s.realloc newLen c answer).1 = false := realloc_too_long h
  rw [if_pos hcond, StringBuffer.andThen, if_neg (by rw [hfalse]; exact Bool.false_ne_true)]
  exact hfalse

/-- One of the operations that add to a string. -/
inductive Put
  | putc8 (c : UInt8)
  | putc16 (c : UInt16)
  | write8 (p : List UInt8)
  | write16 (p : List UInt16)
  | concat (p : Chars) (start stop : ℕ)
  | concatValue (v : Option Chars)
  | fill (c : UInt16) (count : ℕ)

/-- Perform it. -/
def Put.apply (s : StringBuffer) (answer : ℕ → Option ℕ) : Put → Bool × StringBuffer
  | putc8 c => s.putc8 c (answer 0)
  | putc16 c => s.putc16 c (answer 0)
  | write8 p => s.write8 p (answer 0)
  | write16 p => s.write16 p (answer 0)
  | concat p start stop => s.concat p start stop (answer 0)
  | concatValue v => s.concatValue v (answer 0)
  | fill c count => s.fill c count answer

/-- What it is given to add. -/
def Put.units : Put → List UInt16
  | putc8 c => [c.toUInt16]
  | putc16 c => [c]
  | write8 p => p.map UInt8.toUInt16
  | write16 p => p
  | concat p start stop => (p.units.drop start).take (stop - start)
  | concatValue v => (v.map Chars.units).getD []
  | fill c count => List.replicate count c

theorem Put.adds (o : Put) (s : StringBuffer) (answer : ℕ → Option ℕ) : Adds o.units s (o.apply s answer) := by
  cases o with
  | putc8 c => exact adds_putc8 s c _
  | putc16 c => exact adds_putc16 s c _
  | write8 p => exact adds_write8 s p _
  | write16 p => exact adds_write16 s p _
  | concat p start stop => exact adds_concat s p start stop _
  | concatValue v => exact adds_concatValue s v _
  | fill c count => exact adds_fill s c count answer

theorem write8_too_long {p : List UInt8} (hlen : (s.len + p.length : ℤ) < 2 ^ 31) (hsize : s.size < s.len + p.length)
    (h : JS_STRING_LEN_MAX < s.len + p.length) : (s.write8 p answer).1 = false := by
  have hint : int32 (s.len + p.length) = s.len + p.length := int32_eq (by omega) hlen
  rw [write8, hint]
  exact andThen_too_long hsize (by exact_mod_cast h)

theorem write16_too_long {p : List UInt16} (hlen : (s.len + p.length : ℤ) < 2 ^ 31) (hsize : s.size < s.len + p.length)
    (h : JS_STRING_LEN_MAX < s.len + p.length) : (s.write16 p answer).1 = false := by
  have hint : int32 (s.len + p.length) = s.len + p.length := int32_eq (by omega) hlen
  rw [write16, hint]
  exact andThen_too_long hsize (by exact_mod_cast h)

theorem concat_too_long {p : Chars} {start stop n : ℕ} (hn : n = ((p.units.drop start).take (stop - start)).length)
    (hs : s.len ≤ JS_STRING_LEN_MAX) (hlen : (s.len + n : ℤ) < 2 ^ 31) (hsize : s.size < s.len + n)
    (h : JS_STRING_LEN_MAX < s.len + n) : (s.concat p start stop answer).1 = false := by
  unfold concat
  split
  · rename_i hle
    rw [Nat.sub_eq_zero_of_le hle, List.take_zero, List.length_nil] at hn
    omega
  · cases p with
    | str8 t =>
      have hlength : n = ((t.drop start).take (stop - start)).length := by
        rw [hn, Chars.units, ← List.map_drop, ← List.map_take, List.length_map]
      rw [hlength] at hlen hsize h
      exact write8_too_long hlen hsize h
    | str16 t =>
      rw [hn] at hlen hsize h
      exact write16_too_long hlen hsize h

/-- A text that gets too long fails where it does not fit either. -/
theorem Put.too_long (o : Put) {answer : ℕ → Option ℕ} (hs : s.len ≤ JS_STRING_LEN_MAX)
    (hn : o.units.length ≤ JS_STRING_LEN_MAX) (hsize : s.size < s.len + o.units.length)
    (h : JS_STRING_LEN_MAX < s.len + o.units.length) : (o.apply s answer).1 = false := by
  have hlen : (s.len + o.units.length : ℤ) < 2 ^ 31 := by
    rw [JS_STRING_LEN_MAX] at hs hn
    omega
  cases o with
  | putc8 c =>
    have hcond : s.size ≤ s.len := Int.lt_add_one_iff.mp hsize
    exact andThen_too_long hcond (by exact_mod_cast h)
  | putc16 c =>
    have hcond : s.size ≤ s.len := Int.lt_add_one_iff.mp hsize
    rw [Put.apply, StringBuffer.putc16, if_neg fun hlt => absurd hlt.1 (Int.not_lt.mpr hcond)]
    exact andThen_too_long hcond (by exact_mod_cast h)
  | write8 p =>
    simp only [Put.units, List.length_map] at hlen hsize h
    exact write8_too_long hlen hsize h
  | write16 p => exact write16_too_long hlen hsize h
  | concat p start stop => exact concat_too_long rfl hs hlen hsize h
  | concatValue v =>
    rw [Put.apply]
    unfold StringBuffer.concatValue
    split
    · rfl
    · cases v with
      | none => rfl
      | some p =>
        refine concat_too_long ?_ hs hlen hsize h
        rw [List.drop_zero, Nat.sub_zero, List.take_of_length_le (length_units p).le]
        rfl
  | fill c count =>
    simp only [Put.units, List.length_replicate] at hlen hsize h
    have hint : int32 (s.len + count) = s.len + count := int32_eq (by omega) hlen
    rw [Put.apply, StringBuffer.fill, hint]
    exact andThen_too_long hsize (by exact_mod_cast h)

/-- **The limit is kept** where the room of the buffer does not reach past it. -/
theorem Put.within (o : Put) {answer : ℕ → Option ℕ} (hs : s.Within) (hn : o.units.length ≤ JS_STRING_LEN_MAX)
    (hfits : s.Fits o.units.length) : (o.apply s answer).2.Within := by
  intro herr
  have hadds := o.adds s answer
  have hok : (o.apply s answer).1 = true := by
    by_contra hfalse
    rw [hadds.failed (Bool.eq_false_iff.mpr hfalse)] at herr
    cases herr
  have hlen : (o.apply s answer).2.len = s.len + o.units.length := by
    rw [len, Chars.len, hadds.units hok, List.length_append]
    rfl
  have hle := hs ((hadds.error hok).symm.trans herr)
  by_contra hlong
  rw [hlen] at hlong
  have hfalse : (o.apply s answer).1 = false := o.too_long hle hn (hfits.resolve_left hlong) (Nat.lt_of_not_le hlong)
  rw [hok] at hfalse
  cases hfalse

end StringBuffer

end QuickJs.JSString
