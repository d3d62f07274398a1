import QuickJs.CString

/-!
# URIs and escapes

The functions `encodeURI`, `decodeURI`, their variants for components, `escape` and `unescape`. Each goes once through
the characters of a string and writes to a string buffer; what it writes does not depend on the buffer, whose operations
may fail. The encoder of URIs writes UTF-8 in escapes of two digits; the decoder checks it, and keeps the escapes of
reserved characters unless the whole is a component.
-/

namespace QuickJs.Uri

open JSString

/-- What is written to the buffer by one call. -/
inductive Write
  | putc16 (c : UInt16)
  | write8 (p : List UInt8)
  | putc (c : ℕ)

/-- The code units that are written. -/
def Write.units : Write → List UInt16
  | putc16 c => [c]
  | write8 p => p.map UInt8.toUInt16
  | putc c => Utf8.stringBufferPutc c

/-- The call; two answers of the allocator are enough. -/
def Write.apply (b : StringBuffer) (answer : ℕ → Option ℕ) : Write → Bool × StringBuffer
  | putc16 c => b.putc16 c (answer 0)
  | write8 p => b.write8 p (answer 0)
  | putc c => b.putc c answer

/-- The calls one after the other, whatever they return. -/
def writeAll : List Write → (ℕ → Option ℕ) → StringBuffer → StringBuffer
  | [], _, b => b
  | w :: ws, answer, b => writeAll ws (fun i => answer (i + 2)) (w.apply b answer).2

/-- The exceptions: a `URIError`, or what the buffer has thrown. -/
inductive Exn
  | uriError (msg : String)
  | buffer

/-- The buffer is made with some room and filled, unless there is an error. -/
def build (size : ℕ) (ws : Except String (List Write)) (answer : ℕ → Option ℕ) : Except Exn Chars :=
  match ws with
  | .error msg => .error (.uriError msg)
  | .ok ws =>
    match (writeAll ws (fun i => answer (i + 1)) (.init2 size false (answer 0))).finish with
    | none => .error .buffer
    | some str => .ok str

/-! ## Characters -/

/-- `'%'` -/
def percent : UInt16 := 37

/-- The characters of a literal. -/
def charsOf (s : String) : List ℕ := s.toList.map Char.toNat

/-- `isURIReserved` -/
def isURIReserved (c : ℕ) : Bool := c < 0x100 && c ∈ charsOf ";/?:@&=+$,#"

/-- `isUnescaped` -/
def isUnescaped (c : ℕ) : Bool :=
  c < 0x100 && c ∈ charsOf "ABCDEFGHIJKLMNOPQRSTUVWXYZabcdefghijklmnopqrstuvwxyz0123456789@*_+-./"

/-- `isURIUnescaped` -/
def isURIUnescaped (c : ℕ) (isComponent : Bool) : Bool :=
  c < 0x100 && (0x61 ≤ c && c ≤ 0x7a || 0x41 ≤ c && c ≤ 0x5a || 0x30 ≤ c && c ≤ 0x39 || c ∈ charsOf "-_.!~*'()" ||
    !isComponent && isURIReserved c)

/-- `hex[d & 15]` -/
def hexDigit (d : ℕ) : UInt8 := .ofNat ((charsOf "0123456789ABCDEF").getD (d &&& 15) 0)

/-- `from_hex` -/
def fromHex (c : ℕ) : Option ℕ :=
  if 48 ≤ c ∧ c ≤ 57 then some (c - 48)
  else if 65 ≤ c ∧ c ≤ 70 then some (c - 65 + 10)
  else if 97 ≤ c ∧ c ≤ 102 then some (c - 97 + 10)
  else none

/-- `string_get_hex`: the first `n` characters are there. -/
def stringGetHex : ℕ → ℕ → List UInt16 → Option ℕ
  | 0, c, _ => some c
  | _ + 1, _, [] => none
  | n + 1, c, u :: s => (fromHex u.toNat).bind fun h => stringGetHex n (c <<< 4 ||| h) s

/-- `encodeURI_hex` -/
def encodeURIHex (c : ℕ) : Write :=
  .write8 (37 :: (if 256 ≤ c then [117, hexDigit (c >>> 12), hexDigit (c >>> 8)] else []) ++
    [hexDigit (c >>> 4), hexDigit c])

/-! ## `encodeURI` -/

/-- A code point in UTF-8. -/
def encodePoint (c : ℕ) : List Write :=
  if c < 0x80 then [encodeURIHex c]
  else
    (if c < 0x800 then [encodeURIHex (c >>> 6 ||| 0xc0)]
      else
        (if c < 0x10000 then [encodeURIHex (c >>> 12 ||| 0xe0)]
          else [encodeURIHex (c >>> 18 ||| 0xf0), encodeURIHex (c >>> 12 &&& 0x3f ||| 0x80)]) ++
        [encodeURIHex (c >>> 6 &&& 0x3f ||| 0x80)]) ++
      [encodeURIHex (c &&& 0x3f ||| 0x80)]

/-- The loop of `js_global_encodeURI`. -/
def encodeLoop (isComponent : Bool) : List UInt16 → Except String (List Write)
  | [] => .ok []
  | u :: s =>
    let c := u.toNat
    if isURIUnescaped c isComponent then (encodeLoop isComponent s).map (.putc16 u :: ·)
    else if 0xdc00 ≤ c ∧ c ≤ 0xdfff then .error "invalid character"
    else if 0xd800 ≤ c ∧ c ≤ 0xdbff then
      match s with
      | [] => .error "expecting surrogate pair"
      | v :: s =>
        let c1 := v.toNat
        if c1 < 0xdc00 ∨ 0xdfff < c1 then .error "expecting surrogate pair"
        else (encodeLoop isComponent s).map (encodePoint (((c &&& 0x3ff) <<< 10 ||| c1 &&& 0x3ff) + 0x10000) ++ ·)
    else (encodeLoop isComponent s).map (encodePoint c ++ ·)

/-- `js_global_encodeURI` -/
def jsGlobalEncodeURI (isComponent : Bool) (p : Chars) (answer : ℕ → Option ℕ) : Except Exn Chars :=
  build p.len (encodeLoop isComponent p.units) answer

/-! ## `decodeURI` -/

/-- `hex_decode`, for the characters from `k` on. -/
def hexDecode (s : List UInt16) : Except String ℕ :=
  if s.head? ≠ some percent then .error "expecting %"
  else
    match if 2 < s.length then stringGetHex 2 0 s.tail else none with
    | none => .error "expecting hex digit"
    | some c => .ok c

/-- How many bytes follow the first one, the least code point for so many, and the bits of the first one. -/
def leadByte (c : ℕ) : ℕ × ℕ × ℕ :=
  if 0xc0 ≤ c ∧ c ≤ 0xdf then (1, 0x80, c &&& 0x1f)
  else if 0xe0 ≤ c ∧ c ≤ 0xef then (2, 0x800, c &&& 0xf)
  else if 0xf0 ≤ c ∧ c ≤ 0xf7 then (3, 0x10000, c &&& 0x7)
  else (0, 1, 0)

/-- The bytes that follow. -/
def decodeTail : ℕ → ℕ → List UInt16 → Except String (ℕ × List UInt16)
  | 0, c, s => .ok (c, s)
  | n + 1, c, s =>
    match hexDecode s with
    | .error msg => .error msg
    | .ok c1 =>
      if c1 &&& 0xc0 ≠ 0x80 then .ok (0, s.drop 3) else decodeTail n (c <<< 6 ||| c1 &&& 0x3f) (s.drop 3)

/-- An iteration of `js_global_decodeURI`: the code point to be put, and what is left of the string. -/
def decodeStep (isComponent : Bool) (u : UInt16) (rest : List UInt16) : Except String (ℕ × List UInt16) :=
  if u = percent then
    match hexDecode (u :: rest) with
    | .error msg => .error msg
    | .ok c =>
      if c < 0x80 then
        if !isComponent && isURIReserved c then .ok (percent.toNat, rest) else .ok (c, rest.drop 2)
      else
        let lead := leadByte c
        match decodeTail lead.1 lead.2.2 (rest.drop 2) with
        | .error msg => .error msg
        | .ok (c, s) =>
          if c < lead.2.1 ∨ 0x10ffff < c ∨ 0xd800 ≤ c ∧ c < 0xe000 then .error "malformed UTF-8" else .ok (c, s)
  else .ok (u.toNat, rest)

theorem length_drop_le (n : ℕ) (s : List UInt16) : (s.drop n).length ≤ s.length := by
  rw [List.length_drop]
  exact Nat.sub_le ..

theorem length_decodeTail {n c r : ℕ} {s t : List UInt16} (h : decodeTail n c s = .ok (r, t)) : t.length ≤ s.length := by
  induction n generalizing c s with
  | zero =>
    cases h
    exact Nat.le_refl _
  | succ n ih =>
    rw [decodeTail] at h
    split at h
    · cases h
    · split at h
      · cases h
        exact length_drop_le ..
      · exact Nat.le_trans (ih h) (length_drop_le ..)

theorem length_decodeStep {isComponent : Bool} {u : UInt16} {rest t : List UInt16} {c : ℕ}
    (h : decodeStep isComponent u rest = .ok (c, t)) : t.length ≤ rest.length := by
  rw [decodeStep] at h
  split at h
  · split at h
    · cases h
    split at h
    · split at h <;> cases h
      · exact Nat.le_refl _
      · exact length_drop_le ..
    · dsimp only at h
      split at h
      · cases h
      · rename_i htail
        split at h <;> cases h
        exact Nat.le_trans (length_decodeTail htail) (length_drop_le ..)
  · cases h
    exact Nat.le_refl _

/-- The loop of `js_global_decodeURI`. -/
def decodeLoop (isComponent : Bool) : List UInt16 → Except String (List ℕ)
  | [] => .ok []
  | u :: rest =>
    match _h : decodeStep isComponent u rest with
    | .error msg => .error msg
    | .ok (c, s) => (decodeLoop isComponent s).map (c :: ·)
termination_by s => s.length
decreasing_by exact Nat.lt_succ_of_le (length_decodeStep ‹_›)

/-- `js_global_decodeURI` -/
def jsGlobalDecodeURI (isComponent : Bool) (p : Chars) (answer : ℕ → Option ℕ) : Except Exn Chars :=
  build 0 ((decodeLoop isComponent p.units).map (·.map .putc)) answer

/-! ## `escape` and `unescape` -/

/-- `js_global_escape` -/
def jsGlobalEscape (p : Chars) (answer : ℕ → Option ℕ) : Except Exn Chars :=
  build p.len (.ok (p.units.map fun u => if isUnescaped u.toNat then .putc16 u else encodeURIHex u.toNat)) answer

/-- An iteration of `js_global_unescape`: the code unit to be put, and what is left of the string. -/
def unescapeStep (u : UInt16) (rest : List UInt16) : UInt16 × List UInt16 :=
  if u = percent then
    match if 5 ≤ rest.length ∧ rest.head? = some 117 then stringGetHex 4 0 rest.tail else none with
    | some n => (.ofNat n, rest.drop 5)
    | none =>
      match if 2 ≤ rest.length then stringGetHex 2 0 rest else none with
      | some n => (.ofNat n, rest.drop 2)
      | none => (u, rest)
  else (u, rest)

theorem length_unescapeStep (u : UInt16) (rest : List UInt16) : (unescapeStep u rest).2.length ≤ rest.length := by
  rw [unescapeStep]
  split
  · split
    · exact length_drop_le ..
    split
    · exact length_drop_le ..
    · exact Nat.le_refl _
  · exact Nat.le_refl _

/-- The loop of `js_global_unescape`. -/
def unescapeLoop : List UInt16 → List UInt16
  | [] => []
  | u :: rest => (unescapeStep u rest).1 :: unescapeLoop (unescapeStep u rest).2
termination_by s => s.length
decreasing_by exact Nat.lt_succ_of_le (length_unescapeStep u rest)

/-- `js_global_unescape` -/
def jsGlobalUnescape (p : Chars) (answer : ℕ → Option ℕ) : Except Exn Chars :=
  build 0 (.ok ((unescapeLoop p.units).map .putc16)) answer

end QuickJs.Uri
