import QuickJs.CString

/-!
# The conversion to UTF-8 and back

What `JS_ToCStringLen2` writes is read again by `JS_NewStringLen`, as long as the sizes that the two functions compute
are sizes of an `int`.
-/

namespace QuickJs.JSString

open Utf8
open NewString

/-- How many bytes a string has in UTF-8. -/
def utf8Bytes (s : List UInt16) : ℕ :=
  ((codePoints s).map fun c => if c < 0x80 then 1 else if c < 0x800 then 2 else if c < 0x10000 then 3 else 4).sum

/-- The sizes that the conversions compute do not overflow. -/
def Counted : Chars → Prop
  | .str8 _ => True
  | .str16 s => 3 * s.length < 2 ^ 31 ∧ ((∀ u ∈ s, u.toNat < 0x100) ∨ utf8Bytes s < 2 ^ 30)

/-- Where the allocator gives memory, however much beyond what is asked for, the text of the string is read as the
string. -/
def Restored (str : Chars) : Prop :=
  ∀ (slack : ℕ) (slacks : ℕ → ℕ), ∃ buf str', jsToCStringLen2 str false (some slack) = some buf ∧
    jsNewStringLen buf (fun i => some (slacks i)) = some str' ∧ str'.units = str.units

variable {size : ℤ} {slack n : ℕ} {slacks : ℕ → ℕ} {answer : ℕ → Option ℕ} {us vs : List UInt16} {buf : List Char}

/-! ## Memory -/

theorem jsMalloc_narrow (h₀ : 0 ≤ size) : jsMalloc (stringBytes size false) (some slack) = some slack := by
  rw [jsMalloc, stringBytes, if_neg Bool.false_ne_true, if_neg (by omega)]

theorem jsMalloc_wide (h₀ : 0 ≤ size) (h : size < 2 ^ 30) :
    jsMalloc (stringBytes size true) (some slack) = some slack := by
  have hint : int32 (size * 2) = size * 2 := StringBuffer.int32_eq (by omega) (by omega)
  rw [jsMalloc, stringBytes, if_neg (by omega)]

/-- The value of an `int` that has wrapped once. -/
theorem int32_wrapped {x : ℤ} (h₀ : 2 ^ 31 ≤ x) (h : x < 2 ^ 32) : int32 x = x - 2 ^ 32 := by
  have hshift : Int.bmod x (2 ^ 32) = Int.bmod (x - (2 ^ 32 : ℕ)) (2 ^ 32) := (Int.sub_bmod_right x (2 ^ 32)).symm
  rw [int32, hshift]
  exact Int.bmod_eq_of_le (by omega) (by omega)

theorem jsMalloc_overflow (h₀ : 2 ^ 30 ≤ size) (h : size < 2 ^ 31) (answer : Option ℕ) :
    jsMalloc (stringBytes size true) answer = none := by
  have hint : int32 (size * 2) = size * 2 - 2 ^ 32 := int32_wrapped (by omega) (by omega)
  rw [jsMalloc, stringBytes, if_pos rfl, if_pos (by omega)]

namespace StringBuffer

variable {b : StringBuffer} {c : UInt16}

/-! ## One character -/

theorem putc8_eq (b : StringBuffer) (c : UInt8) (answer : Option ℕ) : b.putc8 c answer = b.putc16 c.toUInt16 answer := by
  have hsmall : c.toUInt16.toNat < 0x100 := c.toNat_lt
  have happend : ∀ b : StringBuffer, b.append16 [c.toUInt16] = b.append8 [c] := by
    rintro ⟨str, size, errorStatus, usable⟩
    cases str with
    | str8 s => rw [append16, Chars.append16, List.map_singleton, UInt8.toUInt8_toUInt16]; rfl
    | str16 s => rfl
  rw [putc8, putc16, putcSlow]
  simp only [hsmall, or_true, and_true, decide_true, Bool.or_true, happend]
  by_cases hfull : b.size ≤ b.len
  · rw [if_pos hfull, if_neg (Int.not_lt.mpr hfull), if_pos hfull]
    rfl
  · rw [if_neg hfull, if_pos (Int.not_le.mp hfull)]
    rfl

/-- The buffer stays in error. -/
theorem error_putc16 (h : b.errorStatus = true) (a : Option ℕ) : (b.putc16 c a).2.errorStatus = true := by
  have hadds := adds_putc16 b c a
  cases hok : (b.putc16 c a).1 with
  | false => exact hadds.failed hok
  | true => exact (hadds.error hok).trans h

/-- A wide buffer grows while it is within the limit. -/
theorem realloc_wide (hok : b.errorStatus = false) (hwide : b.isWideChar = true)
    (h : b.len + 1 ≤ JS_STRING_LEN_MAX) (c slack : ℕ) :
    ∃ size usable, b.realloc (b.len + 1) c (some slack) = (true, { b with size := size, usable := usable }) := by
  rw [realloc, hok, if_neg Bool.false_ne_true, if_neg (by omega), hwide]
  simp only
  rw [jsMalloc_wide (by rw [JS_STRING_LEN_MAX] at *; omega) (by rw [JS_STRING_LEN_MAX] at *; omega)]
  exact ⟨_, _, rfl⟩

/-- The characters to come find room. -/
structure Room (n : ℕ) (us : List UInt16) (b : StringBuffer) : Prop where
  ok : b.errorStatus = false
  within : b.len + us.length ≤ JS_STRING_LEN_MAX
  room : b.isWideChar = true ∨ b.size = n ∧ b.len + us.length ≤ n ∧ (n < 2 ^ 30 ∨ ∀ u ∈ us, u.toNat < 0x100)

/-- The operation succeeds, and the buffer is wide or has kept its room. -/
theorem Room.putc16_ok (h : Room n (c :: us) b) (slack : ℕ) : (b.putc16 c (some slack)).1 = true ∧
    ((b.putc16 c (some slack)).2.isWideChar = true ∨
      c.toNat < 0x100 ∧ b.isWideChar = false ∧ (b.putc16 c (some slack)).2 = (b.append16 [c]).2) := by
  obtain ⟨hok, hwithin, hroom⟩ := h
  rw [List.length_cons] at hwithin hroom
  have hput : ∀ b : StringBuffer, b.isWideChar = true → (b.append16 [c]).2.isWideChar = true := by
    rintro ⟨str, size, errorStatus, usable⟩ hwide
    cases str with
    | str8 s => cases hwide
    | str16 s => rfl
  rw [putc16]
  split
  · rename_i hfast
    refine ⟨rfl, ?_⟩
    by_cases hwide : b.isWideChar = true
    · exact .inl (hput b hwide)
    · exact .inr ⟨hfast.2.resolve_left hwide, Bool.eq_false_iff.mpr hwide, rfl⟩
  · rename_i hslow
    rw [not_and_or, not_or, Int.not_lt, Nat.not_lt] at hslow
    by_cases hwide : b.isWideChar = true
    · have hfull : b.size ≤ b.len := hslow.resolve_right fun h => h.1 hwide
      obtain ⟨size, usable, heq⟩ := realloc_wide hok hwide (by omega) c.toNat slack
      have hwide' : ({ b with size := size, usable := usable } : StringBuffer).isWideChar = true := hwide
      rw [putcSlow, if_pos hfull, heq, StringBuffer.andThen]
      simp only [hwide']
      exact ⟨rfl, .inl (hput _ hwide')⟩
    · -- there is room, but the characters must become wide
      obtain ⟨hsize, hlen, hcount⟩ := hroom.resolve_left hwide
      have hspace : ¬b.size ≤ b.len := by omega
      have hlarge : 0x100 ≤ c.toNat := (hslow.resolve_left hspace).2
      have hn : n < 2 ^ 30 := hcount.resolve_right fun h => absurd (h c List.mem_cons_self) (Nat.not_lt.mpr hlarge)
      have hcond : (b.isWideChar || decide (c.toNat < 0x100)) = false := by
        rw [Bool.eq_false_iff.mpr hwide, decide_eq_false (Nat.not_lt.mpr hlarge), Bool.or_self]
      rw [putcSlow, if_neg hspace, StringBuffer.andThen]
      simp only [hcond]
      rw [widen, hok, jsMalloc_wide (by omega) (by omega)]
      exact ⟨rfl, .inl (hput _ rfl)⟩

theorem Room.putc16 (h : Room n (c :: us) b) (slack : ℕ) : Room n us (b.putc16 c (some slack)).2 ∧
    (b.putc16 c (some slack)).2.str.units = b.str.units ++ [c] := by
  obtain ⟨hok, hwide⟩ := h.putc16_ok slack
  have hadds := adds_putc16 b c (some slack)
  have hlen : (b.putc16 c (some slack)).2.len = b.len + 1 := by
    rw [len, Chars.len, hadds.units hok, List.length_append]
    rfl
  refine ⟨⟨(hadds.error hok).trans h.ok, ?_, ?_⟩, hadds.units hok⟩
  · have hwithin := h.within
    rw [List.length_cons] at hwithin
    omega
  · refine hwide.imp_right fun hroom => ?_
    obtain ⟨hsmall, hnarrow, heq⟩ := hroom
    obtain ⟨hsize, hle, hcount⟩ := h.room.resolve_left (hnarrow ▸ Bool.false_ne_true)
    rw [List.length_cons] at hle
    refine ⟨?_, by omega, hcount.imp_right fun hall u hu => hall u (List.mem_cons_of_mem _ hu)⟩
    rw [heq]
    exact hsize

/-- **Characters that have room are added.** -/
theorem Room.putUnits (h : Room n us b) (slacks : ℕ → ℕ) :
    (b.putUnits us fun i => some (slacks i)).errorStatus = false ∧
      (b.putUnits us fun i => some (slacks i)).str.units = b.str.units ++ us := by
  induction us generalizing b slacks with
  | nil => exact ⟨h.ok, (List.append_nil _).symm⟩
  | cons c us ih =>
    obtain ⟨hroom, hunits⟩ := h.putc16 (slacks 0)
    have hrest := ih hroom fun i => slacks (i + 1)
    rw [hunits, List.append_assoc] at hrest
    exact hrest

/-! ## Too many bytes -/

theorem putUnits_of_error (h : b.errorStatus = true) (us : List UInt16) (answer : ℕ → Option ℕ) :
    (b.putUnits us answer).errorStatus = true := by
  induction us generalizing b answer with
  | nil => exact h
  | cons c us ih => exact ih (error_putc16 h _) _

/-- A buffer that would have too many bytes when it is wide. -/
structure Narrow (n : ℕ) (us : List UInt16) (b : StringBuffer) : Prop where
  narrow : b.isWideChar = false
  size : b.size = n
  room : b.len + us.length ≤ n

/-- A small character goes to its place. -/
theorem Narrow.putc16 (h : Narrow n (c :: us) b) (hc : c.toNat < 0x100) (answer : Option ℕ) :
    Narrow n us (b.putc16 c answer).2 := by
  obtain ⟨hnarrow, hsize, hroom⟩ := h
  rw [List.length_cons] at hroom
  have hspace : b.len < b.size := by omega
  rw [StringBuffer.putc16, if_pos ⟨hspace, .inr hc⟩]
  have hlen : (b.append16 [c]).2.len = b.len + 1 := by
    have hunits := units_append16 (p := b.str) (t := [c]) (.inr fun u hu => List.mem_singleton.mp hu ▸ hc)
    exact (congrArg List.length hunits).trans List.length_append
  refine ⟨?_, hsize, by omega⟩
  obtain ⟨str, size, errorStatus, usable⟩ := b
  cases str with
  | str8 s => rfl
  | str16 s => cases hnarrow

/-- **The first large character fails**: the number of bytes has overflowed. -/
theorem Narrow.error_putUnits (h : Narrow n us b) (h₀ : 2 ^ 30 ≤ n) (hn : n < 2 ^ 31)
    (hlarge : ∃ u ∈ us, 0x100 ≤ u.toNat) (answer : ℕ → Option ℕ) : (b.putUnits us answer).errorStatus = true := by
  induction us generalizing b answer with
  | nil =>
    obtain ⟨u, hu, -⟩ := hlarge
    cases hu
  | cons c us ih =>
    by_cases hc : c.toNat < 0x100
    · have hlarge' : ∃ u ∈ us, 0x100 ≤ u.toNat := by
        obtain ⟨u, hu, h256⟩ := hlarge
        cases hu with
        | head => omega
        | tail _ hu => exact ⟨u, hu, h256⟩
      exact ih (h.putc16 hc _) hlarge' _
    · obtain ⟨hnarrow, hsize, hroom⟩ := h
      rw [List.length_cons] at hroom
      have hspace : ¬b.size ≤ b.len := by omega
      have hcond : (b.isWideChar || decide (c.toNat < 0x100)) = false := by
        rw [hnarrow, decide_eq_false hc, Bool.or_self]
      refine putUnits_of_error ?_ us _
      rw [StringBuffer.putc16, if_neg fun h => absurd h.2 (not_or.mpr ⟨hnarrow ▸ Bool.false_ne_true, hc⟩), putcSlow,
        if_neg hspace, StringBuffer.andThen]
      simp only [hcond]
      have herror : (b.widen b.size (answer 0)).1 = false ∧ (b.widen b.size (answer 0)).2.errorStatus = true := by
        rw [widen]
        split
        · exact ⟨rfl, ‹_›⟩
        · rw [jsMalloc_overflow (by omega) (by omega)]
          exact ⟨rfl, rfl⟩
      rw [StringBuffer.andThen, herror.1]
      exact herror.2

/-! ## The loop over a text -/

theorem putUnits_append (b : StringBuffer) (us vs : List UInt16) (answer : ℕ → Option ℕ) :
    b.putUnits (us ++ vs) answer = (b.putUnits us answer).putUnits vs fun i => answer (i + us.length) := by
  induction us generalizing b answer with
  | nil => rfl
  | cons c us ih => exact ih _ _

/-- The loop adds what the text decodes to. -/
theorem newStringLoop_eq (buf : List Char) (answer : ℕ → Option ℕ) (b : StringBuffer) :
    newStringLoop buf answer b = b.putUnits ((decode buf).map .ofNat) answer := by
  induction buf using decode.induct generalizing answer b with
  | case1 => rw [newStringLoop, decode_nil]; rfl
  | case2 c p ih =>
    rw [newStringLoop, ih, decode_cons, List.map_append, putUnits_append, List.length_map]
    split
    · rename_i hc
      have hc' : UInt8.toUInt16 (.ofNat c.toNat) = .ofNat c.toNat := UInt8.toUInt16_ofNat' (Nat.lt_trans hc (by decide))
      rw [putc8_eq, hc', decodeStep, if_pos hc]
      rfl
    · rfl

end StringBuffer

open StringBuffer

/-! ## Reading a text -/

/-- The bytes before the loop are the code units. -/
theorem decode_takeWhile (buf : List Char) : decode buf = (buf.takeWhile (·.toNat < 128)).map Char.toNat ++
    decode (buf.drop (buf.takeWhile (·.toNat < 128)).length) := by
  induction buf with
  | nil => rfl
  | cons c p ih =>
    by_cases hc : c.toNat < 128
    · rw [decode_ascii hc, List.takeWhile_cons_of_pos (by simpa using hc), List.map_cons, List.length_cons,
        List.drop_succ_cons, List.cons_append, ← ih]
    · rw [List.takeWhile_cons_of_neg (by simpa using hc)]
      rfl

/-- Small bytes are the code units of the string that they fill. -/
theorem map_bytes {p : List Char} (h : ∀ c ∈ p, c.toNat < 128) :
    (p.map fun c => UInt8.ofNat c.toNat).map UInt8.toUInt16 = (p.map Char.toNat).map UInt16.ofNat := by
  rw [List.map_map, List.map_map]
  refine List.map_congr_left fun c hc => ?_
  exact UInt8.toUInt16_ofNat' (Nat.lt_trans (h c hc) (by decide))

theorem lt_of_mem_takeWhile {c : Char} (h : c ∈ buf.takeWhile (·.toNat < 128)) : c.toNat < 128 :=
  of_decide_eq_true (List.all_eq_true.mp List.all_takeWhile c h)

theorem map_ofNat_toNat (us : List UInt16) : (us.map UInt16.toNat).map UInt16.ofNat = us := by
  rw [List.map_map]
  exact (List.map_congr_left fun u _ => UInt16.ofNat_toNat).trans (List.map_id us)

theorem init2_ok (h₀ : 0 ≤ size) (slack : ℕ) :
    StringBuffer.init2 size false (some slack) = ⟨.str8 [], size, false, stringBytes size false + slack⟩ := by
  rw [StringBuffer.init2, jsMalloc_narrow h₀]
  rfl

/-- Bytes that have room go to their place. -/
theorem write8_ok {b : StringBuffer} {p : List UInt8} (hroom : b.len + p.length ≤ b.size) (hsize : b.size < 2 ^ 31)
    (answer : Option ℕ) : b.write8 p answer = b.append8 p := by
  have hint : int32 (b.len + p.length) = b.len + p.length := int32_eq (by omega) (by omega)
  rw [write8, hint, if_neg (Int.not_lt.mpr hroom), StringBuffer.andThen, if_pos rfl]

/-- The first bytes are the first code units. -/
theorem start_append (hdecode : decode buf = us.map UInt16.toNat) :
    (((buf.takeWhile (·.toNat < 128)).map fun c => UInt8.ofNat c.toNat).map UInt8.toUInt16) ++
      (decode (buf.drop (buf.takeWhile (·.toNat < 128)).length)).map .ofNat = us := by
  rw [map_bytes fun c => lt_of_mem_takeWhile, ← List.map_append, ← decode_takeWhile, hdecode, map_ofNat_toNat]

section

variable (hdecode : decode buf = us.map UInt16.toNat) (hbuf : buf.length < 2 ^ 31) (hlen : us.length ≤ JS_STRING_LEN_MAX)

include hdecode hbuf hlen

/-- What is not ASCII is read by the loop. -/
theorem jsNewStringLen_loop
    (hpart : (buf.takeWhile (·.toNat < 128)).length ≠ buf.length) (slacks : ℕ → ℕ) :
    ∃ (b : StringBuffer) (vs : List UInt16),
      jsNewStringLen buf (fun i => some (slacks i)) = (b.putUnits vs fun i => some (slacks (i + 2))).finish ∧
      b.errorStatus = false ∧ b.isWideChar = false ∧ b.size = buf.length ∧ b.str.units ++ vs = us := by
  have hstart := start_append hdecode
  have hle : (buf.takeWhile (·.toNat < 128)).length ≤ buf.length := (List.takeWhile_prefix _).length_le
  have hunits : (buf.takeWhile (·.toNat < 128)).length ≤ us.length := by
    rw [← hstart, List.length_append, List.length_map, List.length_map]
    exact Nat.le_add_right _ _
  have hint : int32 buf.length = buf.length := int32_eq (by omega) (by omega)
  refine ⟨⟨.str8 ((buf.takeWhile (·.toNat < 128)).map fun c => .ofNat c.toNat), buf.length, false,
    stringBytes buf.length false + slacks 0⟩, _, ?_, rfl, rfl, rfl, hstart⟩
  rw [jsNewStringLen, if_neg (by omega), if_neg hpart, hint, init2_ok (Int.natCast_nonneg _)]
  simp only
  rw [write8_ok, newStringLoop_eq]
  · rfl
  · show ((0 : ℕ) : ℤ) + _ ≤ (buf.length : ℤ)
    rw [List.length_map]
    omega
  · show (buf.length : ℤ) < 2 ^ 31
    omega

/-- **A text that decodes to the code units is read as them.** -/
theorem jsNewStringLen_exact
    (hwide : buf.length < 2 ^ 30 ∨ ∀ u ∈ us, u.toNat < 0x100) (slacks : ℕ → ℕ) :
    ∃ str', jsNewStringLen buf (fun i => some (slacks i)) = some str' ∧ str'.units = us := by
  by_cases hpart : (buf.takeWhile (·.toNat < 128)).length = buf.length
  · -- the text is ASCII
    have hall : buf.takeWhile (·.toNat < 128) = buf := (List.takeWhile_prefix _).eq_of_length hpart
    have hstart := start_append hdecode
    rw [hall, List.drop_length, decode_nil, List.map_nil, List.append_nil] at hstart
    have hshort : buf.length ≤ JS_STRING_LEN_MAX := by
      rw [← hstart, List.length_map, List.length_map] at hlen
      exact hlen
    rw [jsNewStringLen, hall, if_neg (Nat.not_lt.mpr hshort), if_pos rfl, jsNewString8]
    split
    · rename_i hempty
      exact ⟨_, rfl, by rw [← hstart, hempty]; rfl⟩
    · rw [jsMalloc_narrow (Int.natCast_nonneg _)]
      exact ⟨_, rfl, hstart⟩
  · obtain ⟨b, vs, heq, hok, hnarrow, hsize, hvs⟩ := jsNewStringLen_loop hdecode hbuf hlen hpart slacks
    have hbvs : b.len + vs.length = us.length := by
      rw [← hvs, List.length_append]
      rfl
    have hbytes : us.length ≤ buf.length := by
      have hle := length_decode_le buf
      rwa [hdecode, List.length_map] at hle
    have hroom : Room buf.length vs b := ⟨hok, by omega, .inr ⟨hsize, by omega, hwide.imp_right fun h u hu =>
      h u (hvs ▸ List.mem_append_right _ hu)⟩⟩
    obtain ⟨herror, hunits⟩ := hroom.putUnits fun i => slacks (i + 2)
    rw [heq, finish, herror, if_neg Bool.false_ne_true]
    rw [hvs] at hunits
    split
    · rename_i hempty
      refine ⟨_, rfl, ?_⟩
      rw [← hunits]
      exact (List.eq_nil_of_length_eq_zero hempty).symm
    · exact ⟨_, rfl, hunits⟩

/-- **A large character after too many bytes makes the call fail.** -/
theorem jsNewStringLen_overflow
    (h₀ : 2 ^ 30 ≤ buf.length)
    (hlarge : ∃ u ∈ us, 0x100 ≤ u.toNat) (slacks : ℕ → ℕ) :
    jsNewStringLen buf (fun i => some (slacks i)) = none := by
  have hpart : (buf.takeWhile (·.toNat < 128)).length ≠ buf.length := by
    intro hpart
    have hall : buf.takeWhile (·.toNat < 128) = buf := (List.takeWhile_prefix _).eq_of_length hpart
    have hstart := start_append hdecode
    rw [hall, List.drop_length, decode_nil, List.map_nil, List.append_nil] at hstart
    rw [← hstart, List.length_map, List.length_map, JS_STRING_LEN_MAX] at hlen
    omega
  obtain ⟨b, vs, heq, hok, hnarrow, hsize, hvs⟩ := jsNewStringLen_loop hdecode hbuf hlen hpart slacks
  have hbvs : b.len + vs.length = us.length := by
    rw [← hvs, List.length_append]
    rfl
  have hnarrow' : Narrow buf.length vs b := ⟨hnarrow, hsize, by rw [JS_STRING_LEN_MAX] at hlen; omega⟩
  have hlarge' : ∃ u ∈ vs, 0x100 ≤ u.toNat := by
    obtain ⟨u, hu, h256⟩ := hlarge
    rw [← hvs] at hu
    refine ⟨u, (List.mem_append.mp hu).resolve_left fun hsmall => ?_, h256⟩
    -- the characters so far are narrow
    obtain ⟨str, size, errorStatus, usable⟩ := b
    cases str with
    | str16 s => cases hnarrow
    | str8 s =>
      obtain ⟨d, -, rfl⟩ := List.mem_map.mp hsmall
      exact Nat.not_lt.mpr h256 d.toNat_lt
  rw [heq, finish, hnarrow'.error_putUnits h₀ hbuf hlarge', if_pos rfl]

end

/-! ## The number of bytes -/

theorem length_utf8Of16 (s : List UInt16) : (utf8Of16 false s).length = utf8Bytes s := by
  rw [utf8Of16_false, jsToCString, List.length_flatMap]
  refine congrArg List.sum (List.map_congr_left fun c hc => ?_)
  exact length_unicodeToUtf8 (le_of_mem_codePoints hc)

/-- A code unit has at most three bytes. -/
theorem utf8Bytes_le (s : List UInt16) : utf8Bytes s ≤ 3 * s.length := by
  have hone : ∀ u : UInt16, (if u.toNat < 0x80 then 1 else if u.toNat < 0x800 then 2
      else if u.toNat < 0x10000 then 3 else 4) ≤ 3 := by
    intro u
    have hu := u.toNat_lt
    split_ifs <;> omega
  have hfour : ∀ c : ℕ, (if c < 0x80 then 1 else if c < 0x800 then 2 else if c < 0x10000 then 3 else 4) ≤ 4 := by
    intro c
    split_ifs <;> omega
  rw [utf8Bytes]
  induction s using codePoints.induct with
  | case1 => exact Nat.zero_le _
  | case2 u =>
    exact hone u
  | case3 u v s h ih =>
    have hpair := hfour (u.toNat % 1024 * 1024 + v.toNat % 1024 + 0x10000)
    rw [codePoints, if_pos h, List.map_cons, List.sum_cons, List.length_cons, List.length_cons]
    omega
  | case4 u v s h ih =>
    have hu := hone u
    rw [codePoints, if_neg h, List.map_cons, List.sum_cons, List.length_cons]
    omega

theorem length_utf8Of8 (s : List UInt8) : (utf8Of8 s).length = s.length + s.countP (0x80 ≤ ·.toNat) := by
  induction s with
  | nil => rfl
  | cons c s ih =>
    rw [utf8Of8, List.flatMap_cons, List.length_append, List.countP_cons, List.length_cons]
    rw [utf8Of8] at ih
    by_cases hc : c.toNat < 0x80
    · have hc' : decide (0x80 ≤ c.toNat) = false := decide_eq_false (Nat.not_le.mpr hc)
      rw [if_pos hc, hc', List.length_singleton, if_neg Bool.false_ne_true]
      omega
    · have hc' : decide (0x80 ≤ c.toNat) = true := decide_eq_true (Nat.le_of_not_lt hc)
      rw [if_neg hc, hc', if_pos rfl]
      show 2 + _ = _
      omega

/-- Where no byte counts twice, the characters are the text. -/
theorem utf8Of8_ascii {s : List UInt8} (h : s.countP (0x80 ≤ ·.toNat) = 0) : s.map (byte ·.toNat) = utf8Of8 s := by
  rw [List.map_eq_flatMap]
  refine List.flatMap_congr fun c hc => ?_
  have hsmall := List.countP_eq_zero.mp h c hc
  rw [if_pos (by simpa using hsmall)]

/-! ## There and back -/

theorem jsToCStringLen2_str8 {s : List UInt8} (h : s.length ≤ JS_STRING_LEN_MAX) (slack : ℕ) :
    jsToCStringLen2 (.str8 s) false (some slack) = some (utf8Of8 s) := by
  have hcount : s.countP (0x80 ≤ ·.toNat) ≤ s.length := List.countP_le_length
  rw [jsToCStringLen2]
  split
  · rename_i hzero
    rw [utf8Of8_ascii hzero]
  · rw [JS_STRING_LEN_MAX] at h
    rw [int32_eq (by omega) (by omega), jsMalloc_narrow (by omega)]
    rfl

theorem jsToCStringLen2_str16 {s : List UInt16} (h : 3 * s.length < 2 ^ 31) (slack : ℕ) :
    jsToCStringLen2 (.str16 s) false (some slack) = some (utf8Of16 false s) := by
  rw [jsToCStringLen2, int32_eq (by omega) (by omega), jsMalloc_narrow (by omega)]
  rfl

theorem jsToCStringLen2_overflow {s : List UInt16} (h : s.length ≤ JS_STRING_LEN_MAX) (h₀ : 2 ^ 31 ≤ 3 * s.length)
    (cesu8 : Bool) (answer : Option ℕ) : jsToCStringLen2 (.str16 s) cesu8 answer = none := by
  rw [JS_STRING_LEN_MAX] at h
  have hint : int32 (s.length * 3) = s.length * 3 - 2 ^ 32 := int32_wrapped (by omega) (by omega)
  rw [jsToCStringLen2, jsMalloc, stringBytes, if_neg Bool.false_ne_true, if_pos (by omega)]
  rfl

/-- A text has the code units of its string, and its length is an `int`. -/
theorem decode_of_jsToCStringLen2 {str : Chars} (h : str.len ≤ JS_STRING_LEN_MAX)
    (htext : jsToCStringLen2 str false (some slack) = some buf) :
    decode buf = str.units.map UInt16.toNat ∧ buf.length < 2 ^ 31 := by
  cases str with
  | str8 s =>
    rw [Chars.len, Chars.units, List.length_map] at h
    have hcount : s.countP (0x80 ≤ ·.toNat) ≤ s.length := List.countP_le_length
    obtain rfl := Option.some.inj ((jsToCStringLen2_str8 h slack).symm.trans htext)
    rw [decode_utf8Of8, length_utf8Of8, Chars.units, List.map_map]
    refine ⟨rfl, ?_⟩
    rw [JS_STRING_LEN_MAX] at h
    omega
  | str16 s =>
    by_cases hthree : 3 * s.length < 2 ^ 31
    · obtain rfl := Option.some.inj ((jsToCStringLen2_str16 hthree slack).symm.trans htext)
      rw [length_utf8Of16]
      exact ⟨decode_utf8Of16 s, (utf8Bytes_le s).trans_lt hthree⟩
    · have hmax : s.length ≤ JS_STRING_LEN_MAX := h
      rw [jsToCStringLen2_overflow hmax (Nat.le_of_not_lt hthree)] at htext
      cases htext

theorem restored_str8 {s : List UInt8} (h : s.length ≤ JS_STRING_LEN_MAX) : Restored (.str8 s) := by
  intro slack slacks
  have htext := jsToCStringLen2_str8 h slack
  have hlen : (Chars.str8 s).len ≤ JS_STRING_LEN_MAX := by
    rwa [Chars.len, Chars.units, List.length_map]
  obtain ⟨hdecode, hbuf⟩ := decode_of_jsToCStringLen2 hlen htext
  have hsmall : ∀ u ∈ s.map UInt8.toUInt16, u.toNat < 0x100 := by
    intro u hu
    obtain ⟨c, -, rfl⟩ := List.mem_map.mp hu
    exact c.toNat_lt
  obtain ⟨str', hnew, hunits⟩ := jsNewStringLen_exact hdecode hbuf hlen (.inr hsmall) slacks
  exact ⟨_, str', htext, hnew, hunits⟩

theorem restored_str16_iff {s : List UInt16} (h : s.length ≤ JS_STRING_LEN_MAX) :
    Restored (.str16 s) ↔ Counted (.str16 s) := by
  by_cases hthree : 3 * s.length < 2 ^ 31
  · have htext := jsToCStringLen2_str16 hthree
    have hlen : (Chars.str16 s).len ≤ JS_STRING_LEN_MAX := h
    obtain ⟨hdecode, hbuf⟩ := decode_of_jsToCStringLen2 hlen (htext 0)
    rw [Counted, and_iff_right hthree, or_comm]
    constructor
    · intro hrestored
      by_contra hcounted
      simp only [not_or, Nat.not_lt, not_forall] at hcounted
      obtain ⟨hlong, u, hu, hlarge⟩ := hcounted
      obtain ⟨buf, str', hbytes, hnew, -⟩ := hrestored 0 fun _ => 0
      obtain rfl := Option.some.inj ((htext 0).symm.trans hbytes)
      rw [← length_utf8Of16] at hlong
      rw [jsNewStringLen_overflow hdecode hbuf h hlong ⟨u, hu, hlarge⟩] at hnew
      cases hnew
    · intro hcounted slack slacks
      rw [← length_utf8Of16] at hcounted
      obtain ⟨str', hnew, hunits⟩ := jsNewStringLen_exact hdecode hbuf h hcounted slacks
      exact ⟨_, str', htext slack, hnew, hunits⟩
  · refine iff_of_false (fun hrestored => ?_) fun hcounted => hthree hcounted.1
    obtain ⟨buf, -, hbytes, -⟩ := hrestored 0 fun _ => 0
    rw [jsToCStringLen2_overflow h (Nat.le_of_not_lt hthree)] at hbytes
    cases hbytes

/-- **The conversion loses nothing where its sizes do not overflow**, and `unicode_from_utf8` accepts what
`unicode_to_utf8` produces, and no other text. -/
theorem restored_iff (str : Chars) (h : str.len ≤ JS_STRING_LEN_MAX) : (Restored str ↔ Counted str) ∧
    ∀ (maxLen c : ℕ) (p rest : List Char), 1 ≤ maxLen → (unicodeFromUtf8Len maxLen p = some (c, rest) ↔
      c < 2 ^ 31 ∧ p = unicodeToUtf8 c ++ rest ∧ (unicodeToUtf8 c).length ≤ maxLen) := by
  refine ⟨?_, fun maxLen c p rest hmax => unicodeFromUtf8Len_eq_some hmax⟩
  cases str with
  | str8 s =>
    have hlen : s.length ≤ JS_STRING_LEN_MAX := by
      rwa [Chars.len, Chars.units, List.length_map] at h
    exact iff_of_true (restored_str8 hlen) trivial
  | str16 s => exact restored_str16_iff h

theorem restored_surrogates : Restored (.str16 [0xde00, 0xd83d, 0xde00, 0x41]) ∧
    unicodeFromUtf8Len 3 (unicodeToUtf8 0x20ac ++ [byte 0x41]) = some (0x20ac, [byte 0x41]) := by
  obtain ⟨hiff, haccepts⟩ := restored_iff (.str16 [0xde00, 0xd83d, 0xde00, 0x41]) (by decide)
  exact ⟨hiff.mpr ⟨by decide, .inr (by decide)⟩, (haccepts 3 0x20ac _ _ (by decide)).mpr ⟨by decide, rfl, by decide⟩⟩

/-- Three times the length is no `int`: the string cannot be converted. -/
theorem not_restored_long : ¬Restored (.str16 (List.replicate 715827883 0x4e00)) := by
  have hlen : (List.replicate 715827883 (0x4e00 : UInt16)).length = 715827883 := List.length_replicate
  generalize List.replicate 715827883 (0x4e00 : UInt16) = s at hlen
  have hmax : s.length ≤ JS_STRING_LEN_MAX := by
    rw [JS_STRING_LEN_MAX]
    omega
  intro hrestored
  have hcounted := (restored_str16_iff hmax).mp hrestored
  have hthree : 3 * s.length < 2 ^ 31 := hcounted.1
  omega

end QuickJs.JSString
