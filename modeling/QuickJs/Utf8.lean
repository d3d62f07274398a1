import Mathlib.Data.Char
import Mathlib.Tactic.NormNum
import Mathlib.Tactic.Ring

/-!
# UTF-8

The encoding of a code point and its inverse. A byte is the character with its number. The
surrogates are code points like any others, and the functions also know the sequences of five and
six bytes, whose code points are beyond `0x10FFFF`.
-/

namespace QuickJs.Utf8

/-- The byte with a number. -/
def byte (n : ℕ) : Char := Char.ofNat n

/-- `unicode_to_utf8`. -/
def unicodeToUtf8 (c : ℕ) : List Char :=
  if c < 0x80 then [byte c]
  else if c < 0x800 then [byte (0xc0 + c / 64), byte (0x80 + c % 64)]
  else if c < 0x10000 then
    [byte (0xe0 + c / 4096), byte (0x80 + c / 64 % 64), byte (0x80 + c % 64)]
  else if c < 0x200000 then
    [byte (0xf0 + c / 262144), byte (0x80 + c / 4096 % 64), byte (0x80 + c / 64 % 64), byte (0x80 + c % 64)]
  else if c < 0x4000000 then
    [byte (0xf8 + c / 16777216), byte (0x80 + c / 262144 % 64), byte (0x80 + c / 4096 % 64),
      byte (0x80 + c / 64 % 64), byte (0x80 + c % 64)]
  else if c < 0x80000000 then
    [byte (0xfc + c / 1073741824), byte (0x80 + c / 16777216 % 64), byte (0x80 + c / 262144 % 64),
      byte (0x80 + c / 4096 % 64), byte (0x80 + c / 64 % 64), byte (0x80 + c % 64)]
  else []

/-- How many bytes follow the first one, the bits the first one carries (`utf8_first_code_mask`),
and the least code point that needs so many (`utf8_min_code`). -/
def firstByte (c : ℕ) : Option (ℕ × ℕ × ℕ) :=
  if c < 0xc0 then none
  else if c < 0xe0 then some (1, c % 32, 0x80)
  else if c < 0xf0 then some (2, c % 16, 0x800)
  else if c < 0xf8 then some (3, c % 8, 0x10000)
  else if c < 0xfc then some (4, c % 4, 0x200000)
  else if c < 0xfe then some (5, c % 2, 0x4000000)
  else none

/-- Add the bits of the bytes that follow. -/
def nextBytes : ℕ → ℕ → List Char → Option (ℕ × List Char)
  | 0, c, p => some (c, p)
  | _ + 1, _, [] => none
  | n + 1, c, b :: p =>
    if 0x80 ≤ b.toNat ∧ b.toNat < 0xc0 then nextBytes n (c * 64 + b.toNat % 64) p else none

/-- `unicode_from_utf8`, with `UTF8_CHAR_LEN_MAX` for the greatest length. -/
def unicodeFromUtf8 : List Char → Option (ℕ × List Char)
  | [] => none
  | c :: p =>
    if c.toNat < 0x80 then some (c.toNat, p)
    else match firstByte c.toNat with
      | none => none
      | some (n, bits, least) => (nextBytes n bits p).filter fun r => least ≤ r.1

/-- The code units that `string_buffer_putc` adds to a string: a surrogate pair from `0x10000` on. -/
def stringBufferPutc (c : ℕ) : List UInt16 :=
  if 0x10000 ≤ c then
    [UInt16.ofNat ((c - 0x10000) / 1024 + 0xd800), UInt16.ofNat ((c - 0x10000) % 1024 + 0xdc00)]
  else [UInt16.ofNat c]

variable {c n bits b : ℕ} {p rest : List Char}

theorem toNat_byte (h : n < 256) : (byte n).toNat = n := by
  rw [byte, Char.ofNat, dif_pos (.inl (by omega))]
  rfl

theorem byte_toNat (c : Char) : byte c.toNat = c := Char.ofNat_toNat c

/-- What is written as it is. -/
theorem unicodeToUtf8_ascii (h : c < 0x80) : unicodeToUtf8 c = [byte c] := if_pos h

/-- The first byte of what is not ASCII is not ASCII either. -/
theorem exists_unicodeToUtf8_eq (h : 0x80 ≤ c) (hc : c ≤ 0x10ffff) :
    ∃ d q, unicodeToUtf8 c = d :: q ∧ 0x80 ≤ d.toNat := by
  rw [unicodeToUtf8, if_neg (by omega)]
  by_cases h2 : c < 0x800
  · rw [if_pos h2]
    exact ⟨_, _, rfl, by rw [toNat_byte (by omega)]; omega⟩
  by_cases h3 : c < 0x10000
  · rw [if_neg h2, if_pos h3]
    exact ⟨_, _, rfl, by rw [toNat_byte (by omega)]; omega⟩
  · rw [if_neg h2, if_neg h3, if_pos (by omega)]
    exact ⟨_, _, rfl, by rw [toNat_byte (by omega)]; omega⟩

/-- The last bytes of a code point: each carries six bits. -/
def lastBytes : ℕ → ℕ → List Char
  | 0, _ => []
  | n + 1, c => byte (0x80 + c / 64 ^ n % 64) :: lastBytes n c

theorem length_lastBytes (n c : ℕ) : (lastBytes n c).length = n := by
  induction n with
  | zero => rfl
  | succ n ih => rw [lastBytes, List.length_cons, ih]

/-- The bytes that follow. -/
theorem nextBytes_lastBytes (n bits c : ℕ) :
    nextBytes n bits (lastBytes n c ++ rest) = some (bits * 64 ^ n + c % 64 ^ n, rest) := by
  induction n generalizing bits with
  | zero => rw [Nat.pow_zero, Nat.mod_one, Nat.mul_one]; rfl
  | succ n ih =>
    have hb : (0x80 + c / 64 ^ n % 64) % 64 = c / 64 ^ n % 64 := by omega
    have hmod : c % 64 ^ (n + 1) = c % 64 ^ n + 64 ^ n * (c / 64 ^ n % 64) := Nat.mod_mul
    rw [lastBytes, List.cons_append, nextBytes, toNat_byte (by omega), if_pos (by omega), hb, ih, hmod]
    congr 2
    ring

variable {r d least : ℕ}

/-- The bytes that follow, read backwards. -/
theorem nextBytes_eq_some (h : nextBytes n bits p = some (r, rest)) :
    r / 64 ^ n = bits ∧ p = lastBytes n r ++ rest := by
  induction n generalizing bits p with
  | zero =>
    obtain ⟨rfl, rfl⟩ := Prod.mk.inj (Option.some.inj h)
    exact ⟨Nat.div_one _, rfl⟩
  | succ n ih =>
    cases p with
    | nil => cases h
    | cons d q =>
      rw [nextBytes] at h
      split at h
      · obtain ⟨hdiv, rfl⟩ := ih h
        have hd : 0x80 + (bits * 64 + d.toNat % 64) % 64 = d.toNat := by omega
        rw [Nat.pow_succ, ← Nat.div_div_eq_div_mul, lastBytes, hdiv, hd, byte_toNat]
        exact ⟨by omega, rfl⟩
      · cases h

/-- A sequence that decodes. -/
theorem unicodeFromUtf8_cons (hd : 0x80 ≤ d) (h256 : d < 256)
    (hfirst : firstByte d = some (n, bits, least))
    (hnext : nextBytes n bits p = some (r, rest)) (hr : least ≤ r) :
    unicodeFromUtf8 (byte d :: p) = some (r, rest) := by
  have hfilter : (some (r, rest)).filter (fun r => decide (least ≤ r.1)) = some (r, rest) := by
    simp [hr]
  rw [unicodeFromUtf8, toNat_byte h256, if_neg (by omega), hfirst]
  exact (congrArg _ hnext).trans hfilter

/-- The first byte of a sequence. -/
theorem firstByte_cases (h : firstByte d = some (n, bits, least)) :
    (n = 1 ∧ d = 0xc0 + bits ∧ bits < 32 ∧ least = 0x80) ∨
      (n = 2 ∧ d = 0xe0 + bits ∧ bits < 16 ∧ least = 0x800) ∨
        (n = 3 ∧ d = 0xf0 + bits ∧ bits < 8 ∧ least = 0x10000) ∨
          (n = 4 ∧ d = 0xf8 + bits ∧ bits < 4 ∧ least = 0x200000) ∨
            (n = 5 ∧ d = 0xfc + bits ∧ bits < 2 ∧ least = 0x4000000) := by
  unfold firstByte at h
  repeat' split at h
  all_goals cases h
  · exact .inl ⟨rfl, by omega, by omega, rfl⟩
  · exact .inr (.inl ⟨rfl, by omega, by omega, rfl⟩)
  · exact .inr (.inr (.inl ⟨rfl, by omega, by omega, rfl⟩))
  · exact .inr (.inr (.inr (.inl ⟨rfl, by omega, by omega, rfl⟩)))
  · exact .inr (.inr (.inr (.inr ⟨rfl, by omega, by omega, rfl⟩)))

/-- The first byte tells the length. -/
theorem unicodeToUtf8_of_firstByte (h : firstByte d = some (n, c / 64 ^ n, least)) (hle : least ≤ c) :
    c < 0x80000000 ∧ unicodeToUtf8 c = byte d :: lastBytes n c := by
  obtain ⟨rfl, rfl, hbits, rfl⟩ | ⟨rfl, rfl, hbits, rfl⟩ | ⟨rfl, rfl, hbits, rfl⟩ | ⟨rfl, rfl, hbits, rfl⟩ |
    ⟨rfl, rfl, hbits, rfl⟩ := firstByte_cases h
  · rw [unicodeToUtf8, if_neg (by omega), if_pos (by omega)]
    exact ⟨by omega, by norm_num [lastBytes]⟩
  · rw [unicodeToUtf8, if_neg (by omega), if_neg (by omega), if_pos (by omega)]
    exact ⟨by omega, by norm_num [lastBytes]⟩
  · rw [unicodeToUtf8, if_neg (by omega), if_neg (by omega), if_neg (by omega), if_pos (by omega)]
    exact ⟨by omega, by norm_num [lastBytes]⟩
  · rw [unicodeToUtf8, if_neg (by omega), if_neg (by omega), if_neg (by omega), if_neg (by omega), if_pos (by omega)]
    exact ⟨by omega, by norm_num [lastBytes]⟩
  · rw [unicodeToUtf8, if_neg (by omega), if_neg (by omega), if_neg (by omega), if_neg (by omega),
      if_neg (by omega), if_pos (by omega)]
    exact ⟨by omega, by norm_num [lastBytes]⟩

/-- What is not ASCII has a first byte. -/
theorem exists_firstByte (h1 : 0x80 ≤ c) (h : c < 0x80000000) :
    ∃ d n least, 0x80 ≤ d ∧ d < 256 ∧ firstByte d = some (n, c / 64 ^ n, least) ∧ least ≤ c := by
  by_cases h2 : c < 0x800
  · exact ⟨0xc0 + c / 64, 1, 0x80, by omega, by omega, by grind [firstByte], h1⟩
  by_cases h3 : c < 0x10000
  · exact ⟨0xe0 + c / 4096, 2, 0x800, by omega, by omega, by grind [firstByte], by omega⟩
  by_cases h4 : c < 0x200000
  · exact ⟨0xf0 + c / 262144, 3, 0x10000, by omega, by omega, by grind [firstByte], by omega⟩
  by_cases h5 : c < 0x4000000
  · exact ⟨0xf8 + c / 16777216, 4, 0x200000, by omega, by omega, by grind [firstByte], by omega⟩
  · exact ⟨0xfc + c / 1073741824, 5, 0x4000000, by omega, by omega, by grind [firstByte], by omega⟩

/-- What has been encoded is decoded. -/
theorem unicodeFromUtf8_encoded (h : c < 0x80000000) :
    unicodeFromUtf8 (unicodeToUtf8 c ++ rest) = some (c, rest) := by
  by_cases h1 : c < 0x80
  · rw [unicodeToUtf8_ascii h1, List.singleton_append, unicodeFromUtf8, toNat_byte (by omega), if_pos h1]
  obtain ⟨d, n, least, hd, h256, hfirst, hle⟩ := exists_firstByte (Nat.le_of_not_lt h1) h
  have hnext : nextBytes n (c / 64 ^ n) (lastBytes n c ++ rest) = _ := nextBytes_lastBytes n (c / 64 ^ n) c
  rw [Nat.div_add_mod'] at hnext
  rw [(unicodeToUtf8_of_firstByte hfirst hle).2]
  exact unicodeFromUtf8_cons hd h256 hfirst hnext hle

theorem unicodeFromUtf8_unicodeToUtf8 (h : c ≤ 0x10ffff) :
    unicodeFromUtf8 (unicodeToUtf8 c ++ rest) = some (c, rest) := unicodeFromUtf8_encoded (by omega)

/-- What is decoded is the encoding: there is no second one. -/
theorem encoded_of_unicodeFromUtf8 (h : unicodeFromUtf8 p = some (c, rest)) :
    c < 0x80000000 ∧ p = unicodeToUtf8 c ++ rest := by
  cases p with
  | nil => cases h
  | cons d q =>
    rw [unicodeFromUtf8] at h
    split at h
    · rename_i hd
      obtain ⟨rfl, rfl⟩ := Prod.mk.inj (Option.some.inj h)
      rw [unicodeToUtf8_ascii hd, byte_toNat]
      exact ⟨by omega, rfl⟩
    · split at h
      · cases h
      · rename_i n bits least hfirst
        obtain ⟨hnext, hle⟩ := Option.filter_eq_some_iff.mp h
        obtain ⟨rfl, rfl⟩ := nextBytes_eq_some hnext
        obtain ⟨hlt, henc⟩ := unicodeToUtf8_of_firstByte hfirst (of_decide_eq_true hle)
        rw [henc, byte_toNat]
        exact ⟨hlt, rfl⟩

theorem eq_of_unicodeFromUtf8 (h : unicodeFromUtf8 p = some (c, rest)) : p = unicodeToUtf8 c ++ rest :=
  (encoded_of_unicodeFromUtf8 h).2

end QuickJs.Utf8
