import QuickJs.StringBuffer
import QuickJs.NewString
import QuickJs.Utf16

/-!
# Strings as UTF-8 texts

`JS_ToCStringLen2` writes a string as UTF-8, `JS_NewStringLen` reads a text into a string buffer. Lone surrogates have
a sequence of three bytes like other characters.
-/

namespace QuickJs.Utf8

/-- `unicode_from_utf8`: no sequence is longer than `maxLen`. -/
def unicodeFromUtf8Len (maxLen : ℕ) : List Char → Option (ℕ × List Char)
  | [] => none
  | c :: p =>
    if c.toNat < 0x80 then some (c.toNat, p)
    else match firstByte c.toNat with
      | none => none
      | some (n, bits, least) =>
        if maxLen - 1 < n then none else (nextBytes n bits p).filter fun r => least ≤ r.1

end QuickJs.Utf8

namespace QuickJs.JSString

open Utf8
open NewString

/-- The loop of `JS_ToCStringLen2` over characters of 8 bits. -/
def utf8Of8 (s : List UInt8) : List Char :=
  s.flatMap fun c =>
    if c.toNat < 0x80 then [byte c.toNat] else [byte (0xc0 + c.toNat / 64), byte (0x80 + c.toNat % 64)]

/-- The loop of `JS_ToCStringLen2` over characters of 16 bits. -/
def utf8Of16 (cesu8 : Bool) : List UInt16 → List Char
  | [] => []
  | [c] => unicodeToUtf8 c.toNat
  | c :: c₁ :: s =>
    if (0xd800 ≤ c.toNat ∧ c.toNat < 0xdc00) ∧ cesu8 = false ∧ 0xdc00 ≤ c₁.toNat ∧ c₁.toNat < 0xe000 then
      unicodeToUtf8 (c.toNat % 1024 * 1024 + c₁.toNat % 1024 + 0x10000) ++ utf8Of16 cesu8 s
    else unicodeToUtf8 c.toNat ++ utf8Of16 cesu8 (c₁ :: s)

/-- `JS_ToCStringLen2` of a string; none when it throws. -/
def jsToCStringLen2 (str : Chars) (cesu8 : Bool) (answer : Option ℕ) : Option (List Char) :=
  match str with
  | .str8 s =>
    let count := s.countP (0x80 ≤ ·.toNat)
    if count = 0 then some (s.map (byte ·.toNat))
    else (jsMalloc (stringBytes (int32 (s.length + count)) false) answer).map fun _ => utf8Of8 s
  | .str16 s => (jsMalloc (stringBytes (int32 (s.length * 3)) false) answer).map fun _ => utf8Of16 cesu8 s

/-- `js_new_string8`. -/
def jsNewString8 (buf : List UInt8) (answer : Option ℕ) : Option Chars :=
  if buf = [] then some (.str8 [])
  else (jsMalloc (stringBytes buf.length false) answer).map fun _ => .str8 buf

namespace StringBuffer

/-- The string that `string_buffer_end` returns. -/
def finish (s : StringBuffer) : Option Chars :=
  if s.errorStatus then none else if s.len = 0 then some (.str8 []) else some s.str

/-- Add characters one after the other, whatever the operations return. -/
def putUnits : List UInt16 → (ℕ → Option ℕ) → StringBuffer → StringBuffer
  | [], _, b => b
  | c :: us, answer, b => putUnits us (fun i => answer (i + 1)) (b.putc16 c (answer 0)).2

/-- The loop of `JS_NewStringLen`. -/
def newStringLoop : List Char → (ℕ → Option ℕ) → StringBuffer → StringBuffer
  | [], _, b => b
  | c :: p, answer, b =>
    newStringLoop (decodeStep c p).2 (fun i => answer (i + (decodeStep c p).1.length))
      (if c.toNat < 128 then (b.putc8 (.ofNat c.toNat) (answer 0)).2
        else putUnits ((decodeStep c p).1.map .ofNat) answer b)
termination_by p => p.length
decreasing_by exact length_decodeStep_lt c p

end StringBuffer

/-- `JS_NewStringLen`; none when it throws. -/
def jsNewStringLen (buf : List Char) (answer : ℕ → Option ℕ) : Option Chars :=
  let start := buf.takeWhile (·.toNat < 128)
  if JS_STRING_LEN_MAX < start.length then none
  else if start.length = buf.length then jsNewString8 (buf.map (.ofNat ·.toNat)) (answer 0)
  else
    let b := StringBuffer.init2 (int32 buf.length) false (answer 0)
    if b.errorStatus then none
    else
      let b := (b.write8 (start.map (.ofNat ·.toNat)) (answer 1)).2
      (StringBuffer.newStringLoop (buf.drop start.length) (fun i => answer (i + 2)) b).finish

end QuickJs.JSString

namespace QuickJs.Utf8

variable {c maxLen : ℕ} {p rest : List Char}

/-- The limit counts the bytes of the sequence. -/
theorem unicodeFromUtf8Len_iff (hmax : 1 ≤ maxLen) : unicodeFromUtf8Len maxLen p = some (c, rest) ↔
    unicodeFromUtf8 p = some (c, rest) ∧ p.length ≤ rest.length + maxLen := by
  cases p with
  | nil => simp [unicodeFromUtf8Len, unicodeFromUtf8]
  | cons d p =>
    rw [unicodeFromUtf8Len, unicodeFromUtf8]
    split
    · rw [iff_self_and]
      rintro heq
      cases heq
      rw [List.length_cons]
      omega
    · cases firstByte d.toNat with
      | none => simp
      | some r =>
        obtain ⟨n, bits, least⟩ := r
        have hlength : (nextBytes n bits p).filter (fun r => least ≤ r.1) = some (c, rest) →
            rest.length + n = p.length := by
          intro h
          exact NewString.length_nextBytes (Option.filter_eq_some_iff.mp h).1
        simp only [List.length_cons]
        split
        · refine iff_of_false (by simp) fun h => ?_
          have hlen := hlength h.1
          omega
        · rw [iff_self_and]
          intro h
          have hlen := hlength h
          omega

/-- **`unicode_from_utf8` accepts exactly what `unicode_to_utf8` produces.** -/
theorem unicodeFromUtf8Len_eq_some (hmax : 1 ≤ maxLen) : unicodeFromUtf8Len maxLen p = some (c, rest) ↔
    c < 2 ^ 31 ∧ p = unicodeToUtf8 c ++ rest ∧ (unicodeToUtf8 c).length ≤ maxLen := by
  rw [unicodeFromUtf8Len_iff hmax]
  constructor
  · rintro ⟨h, hlen⟩
    obtain ⟨hc, heq⟩ := encoded_of_unicodeFromUtf8 h
    rw [heq, List.length_append] at hlen
    exact ⟨hc, heq, by omega⟩
  · rintro ⟨hc, rfl, hlen⟩
    rw [List.length_append]
    exact ⟨unicodeFromUtf8_encoded hc, by omega⟩

end QuickJs.Utf8

namespace QuickJs.JSString

open Utf8
open NewString

variable {s : List UInt16} {c : ℕ} {answer : Option ℕ}

/-! ## The text of a string -/

theorem utf8Of16_false (s : List UInt16) : utf8Of16 false s = jsToCString s := by
  rw [jsToCString]
  induction s using codePoints.induct with
  | case1 => rfl
  | case2 u => rw [utf8Of16, codePoints, List.flatMap_singleton]
  | case3 u v s h ih =>
    rw [utf8Of16, if_pos ⟨h.1, rfl, h.2⟩, codePoints, if_pos h, List.flatMap_cons, ih]
  | case4 u v s h ih =>
    rw [utf8Of16, if_neg fun h' => h ⟨h'.1, h'.2.2⟩, codePoints, if_neg h, List.flatMap_cons, ih]

theorem utf8Of8_eq (s : List UInt8) : utf8Of8 s = (s.map UInt8.toNat).flatMap unicodeToUtf8 := by
  rw [utf8Of8, List.flatMap_map]
  congr 1
  funext c
  have hc := c.toNat_lt
  rw [unicodeToUtf8]
  split
  · rfl
  · rw [if_pos (by omega)]

/-- The text decodes to the code units. -/
theorem decode_utf8Of16 (s : List UInt16) : decode (utf8Of16 false s) = s.map UInt16.toNat := by
  rw [utf8Of16_false, jsToCString, decode_flatMap _ fun n => le_of_mem_codePoints, ← List.map_flatMap,
    flatMap_codePoints]

theorem decode_utf8Of8 (s : List UInt8) : decode (utf8Of8 s) = s.map UInt8.toNat := by
  have hput : ∀ n ∈ s.map UInt8.toNat, (stringBufferPutc n).map UInt16.toNat = [n] := by
    intro n hn
    obtain ⟨c, -, rfl⟩ := List.mem_map.mp hn
    have hc := c.toNat_lt
    rw [stringBufferPutc, if_neg (by omega), List.map_singleton, toNat_ofNat_unit (by omega)]
  have hmax : ∀ n ∈ s.map UInt8.toNat, n ≤ 0x10ffff := by
    intro n hn
    obtain ⟨c, -, rfl⟩ := List.mem_map.mp hn
    have hc := c.toNat_lt
    omega
  rw [utf8Of8_eq, decode_flatMap _ hmax, List.flatMap_congr hput, List.flatMap_singleton']

end QuickJs.JSString
