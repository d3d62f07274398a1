import QuickJs.UriCodec

/-!
# URIs are decoded to what was encoded

An escape of two digits is a byte. The encoder writes the UTF-8 of each code point, and the decoder reads the bytes as
`unicode_from_utf8` does; so it takes the bytes of a code point that is no surrogate in their shortest form and no
others.
-/

namespace QuickJs.Uri

open JSString Utf8

variable {b c d n r : ℕ} {bs cs : List ℕ} {s t rest : List UInt16} {u : UInt16} {isComponent : Bool}

/-! ## Hexadecimal digits -/

theorem fromHex_hexDigit (d : ℕ) : fromHex (hexDigit d).toUInt16.toNat = some (d % 16) := by
  have hand : d &&& 15 = d % 16 := Nat.and_two_pow_sub_one_eq_mod d 4
  have hlt : d % 16 < 16 := Nat.mod_lt _ (by decide)
  rw [hexDigit, hand]
  generalize d % 16 = k at hlt
  revert k
  decide +kernel

theorem lt_of_fromHex {h : ℕ} (hh : fromHex c = some h) : h < 16 := by
  rw [fromHex] at hh
  split_ifs at hh <;> cases hh <;> omega

theorem shiftLeft_or {h : ℕ} (hh : h < 16) : c <<< 4 ||| h = c * 16 + h := by
  rw [Nat.shiftLeft_eq, Nat.mul_comm]
  exact (Nat.two_pow_add_eq_or_of_lt (i := 4) hh c).symm

theorem stringGetHex_cons (d n c : ℕ) (s : List UInt16) :
    stringGetHex (n + 1) c ((hexDigit d).toUInt16 :: s) = stringGetHex n (c * 16 + d % 16) s := by
  rw [stringGetHex, fromHex_hexDigit, Option.bind_some, shiftLeft_or (Nat.mod_lt _ (by decide))]

/-- The escape of a byte. -/
def escaped (b : ℕ) : List UInt16 := [percent, (hexDigit (b >>> 4)).toUInt16, (hexDigit b).toUInt16]

theorem units_encodeURIHex (hb : b < 256) : (encodeURIHex b).units = escaped b := by
  rw [encodeURIHex, if_neg (Nat.not_le_of_lt hb)]
  rfl

theorem hexDecode_escaped (hb : b < 256) (rest : List UInt16) : hexDecode (escaped b ++ rest) = .ok b := by
  have hshift : b >>> 4 = b / 16 := Nat.shiftRight_eq_div_pow b 4
  have hsum : (0 * 16 + b / 16 % 16) * 16 + b % 16 = b := by omega
  have hhex : stringGetHex 2 0 (escaped b ++ rest).tail = some b := by
    show stringGetHex 2 0 ((hexDigit (b >>> 4)).toUInt16 :: (hexDigit b).toUInt16 :: rest) = some b
    rw [stringGetHex_cons, stringGetHex_cons, hshift, hsum]
    rfl
  have hlen : 2 < (escaped b ++ rest).length := by
    rw [List.length_append]
    exact Nat.lt_add_right _ (by decide : 2 < 3)
  have hhead : (escaped b ++ rest).head? = some percent := rfl
  rw [hexDecode, if_neg (not_not.mpr hhead), if_pos hlen, hhex]

/-- A number read from two digits is a byte. -/
theorem lt_of_hexDecode (h : hexDecode s = .ok b) : b < 256 := by
  rw [hexDecode] at h
  split at h
  · cases h
  split at h
  · cases h
  · rename_i hhex
    cases h
    split at hhex
    · match hs : s.tail with
      | [] | [_] =>
        rw [hs] at hhex
        simp [stringGetHex] at hhex
      | x :: y :: _ =>
        rw [hs] at hhex
        obtain ⟨h1, hh1, hhex⟩ := Option.bind_eq_some_iff.mp hhex
        obtain ⟨h2, hh2, hhex⟩ := Option.bind_eq_some_iff.mp hhex
        cases hhex
        have hlt1 := lt_of_fromHex hh1
        have hlt2 := lt_of_fromHex hh2
        rw [shiftLeft_or hlt2, shiftLeft_or hlt1]
        omega
    · cases hhex

/-! ## Bytes -/

/-- The string begins with the escapes of some bytes. -/
def Escapes : List ℕ → List UInt16 → List UInt16 → Prop
  | [], s, rest => s = rest
  | b :: bs, s, rest => hexDecode s = .ok b ∧ Escapes bs (s.drop 3) rest

theorem escapes_flatMap (h : ∀ b ∈ bs, b < 256) (rest : List UInt16) : Escapes bs (bs.flatMap escaped ++ rest) rest := by
  induction bs with
  | nil => rfl
  | cons b bs ih =>
    obtain ⟨hb, hbs⟩ := List.forall_mem_cons.mp h
    exact ⟨hexDecode_escaped hb _, ih hbs⟩

/-- The UTF-8 bytes of a code point. -/
def utf8 (c : ℕ) : List ℕ := (unicodeToUtf8 c).map Char.toNat

theorem and_c0 (hb : b < 256) : b &&& 0xc0 = 0x80 ↔ 0x80 ≤ b ∧ b < 0xc0 := by
  revert b
  decide +kernel

theorem and_3f (b : ℕ) : b &&& 0x3f = b % 64 := Nat.and_two_pow_sub_one_eq_mod b 6

theorem shiftLeft_or_and (c b : ℕ) : c <<< 6 ||| b &&& 0x3f = c * 64 + b % 64 := by
  rw [and_3f, Nat.shiftLeft_eq, Nat.mul_comm]
  exact (Nat.two_pow_add_eq_or_of_lt (i := 6) (Nat.mod_lt _ (by decide)) c).symm

/-- The decoder takes the bytes that `unicode_from_utf8` takes. -/
theorem decodeTail_of_nextBytes (hbs : ∀ b ∈ bs, b < 256) (h : nextBytes n c (bs.map byte) = some (r, []))
    (hs : Escapes bs s rest) : decodeTail n c s = .ok (r, rest) := by
  induction n generalizing c bs s with
  | zero =>
    cases bs with
    | nil =>
      cases h
      exact congrArg (fun s => Except.ok (r, s)) hs
    | cons b bs => cases h
  | succ n ih =>
    cases bs with
    | nil => cases h
    | cons b bs =>
      obtain ⟨hb, hbs⟩ := List.forall_mem_cons.mp hbs
      rw [List.map_cons, nextBytes, toNat_byte hb] at h
      split at h
      · rename_i hrange
        rw [decodeTail, hs.1]
        dsimp only
        rw [if_neg (not_not.mpr ((and_c0 hb).mpr hrange)), shiftLeft_or_and]
        exact ih hbs h hs.2
      · cases h

/-- And no others, unless the result is zero. -/
theorem exists_nextBytes (h : decodeTail n c s = .ok (r, rest)) (hr : r ≠ 0) :
    ∃ bs, (∀ b ∈ bs, b < 256) ∧ nextBytes n c (bs.map byte) = some (r, []) ∧ Escapes bs s rest := by
  induction n generalizing c s with
  | zero =>
    cases h
    exact ⟨[], nofun, rfl, rfl⟩
  | succ n ih =>
    rw [decodeTail] at h
    split at h
    · cases h
    · rename_i b hb
      have hlt := lt_of_hexDecode hb
      split at h
      · cases h
        exact absurd rfl hr
      · rename_i hrange
        rw [shiftLeft_or_and] at h
        obtain ⟨bs, hbs, hnext, hs⟩ := ih h
        refine ⟨b :: bs, List.forall_mem_cons.mpr ⟨hlt, hbs⟩, ?_, hb, hs⟩
        rw [List.map_cons, nextBytes, toNat_byte hlt, if_pos ((and_c0 hlt).mp (not_not.mp hrange))]
        exact hnext

/-- What the decoder does with the first byte of a sequence. -/
theorem leadByte_eq (hd : d < 256) : leadByte d = ((firstByte d).filter (·.2.2 ≤ 0x10ffff)).elim (0, 1, 0)
    fun first => (first.1, first.2.2, first.2.1) := by
  revert d
  decide +kernel

/-! ## Reading -/

/-- What a string of escapes says. A sequence that begins with a byte that is not ASCII is the shortest form of a code
point that is no surrogate. -/
inductive Reads (isComponent : Bool) : List UInt16 → List ℕ → Prop
  | nil : Reads isComponent [] []
  | unit {u : UInt16} {s : List UInt16} {cs : List ℕ} : u ≠ percent → Reads isComponent s cs →
      Reads isComponent (u :: s) (u.toNat :: cs)
  | ascii {c : ℕ} {s : List UInt16} {cs : List ℕ} : hexDecode s = .ok c → c < 0x80 →
      (!isComponent && isURIReserved c) = false → Reads isComponent (s.drop 3) cs → Reads isComponent s (c :: cs)
  | reserved {c : ℕ} {s : List UInt16} {cs : List ℕ} : hexDecode (percent :: s) = .ok c → c < 0x80 →
      (!isComponent && isURIReserved c) = true → Reads isComponent s cs →
      Reads isComponent (percent :: s) (percent.toNat :: cs)
  | scalar {c : ℕ} {s t : List UInt16} {cs : List ℕ} : 0x80 ≤ c → Scalar c → Escapes (utf8 c) s t →
      Reads isComponent t cs → Reads isComponent s (c :: cs)

theorem toNat_map_byte (hbs : ∀ b ∈ bs, b < 256) : (bs.map byte).map Char.toNat = bs := by
  rw [List.map_map]
  refine (List.map_congr_left fun b hb => ?_).trans (List.map_id bs)
  exact toNat_byte (hbs b hb)

theorem head_of_hexDecode (h : hexDecode s = .ok b) : ∃ rest, s = percent :: rest := by
  rw [hexDecode] at h
  split at h
  · cases h
  · rename_i hhead
    match s, not_not.mp hhead with
    | _ :: rest, h => exact ⟨rest, congrArg (· :: rest) (Option.some.inj h)⟩

/-- A sequence of bytes that is accepted. -/
theorem escapes_of_decodeTail (hb : hexDecode (u :: s) = .ok b) (hlead : 0x80 ≤ b)
    (htail : decodeTail (leadByte b).1 (leadByte b).2.2 (s.drop 2) = .ok (c, t))
    (hok : ¬(c < (leadByte b).2.1 ∨ 0x10ffff < c ∨ 0xd800 ≤ c ∧ c < 0xe000)) :
    0x80 ≤ c ∧ Scalar c ∧ Escapes (utf8 c) (u :: s) t := by
  have hlt := lt_of_hexDecode hb
  rw [leadByte_eq hlt] at htail hok
  match hfirst : (firstByte b).filter (·.2.2 ≤ 0x10ffff) with
  | none =>
    rw [hfirst] at htail hok
    cases htail
    exact absurd (.inl Nat.zero_lt_one) hok
  | some (n, bits, least) =>
    rw [hfirst] at htail hok
    replace hfirst := (Option.filter_eq_some_iff.mp hfirst).1
    dsimp only [Option.elim_some] at htail hok
    have hleast : 0x80 ≤ least := by
      have := firstByte_cases hfirst
      omega
    obtain ⟨bs, hbs, hnext, hs⟩ := exists_nextBytes htail (by omega)
    have hfrom := unicodeFromUtf8_cons hlead hlt hfirst hnext (by omega)
    have hutf8 : utf8 c = b :: bs := by
      have heq := eq_of_unicodeFromUtf8 hfrom
      rw [List.append_nil] at heq
      rw [utf8, ← heq, List.map_cons, toNat_byte hlt, toNat_map_byte hbs]
    refine ⟨by omega, ⟨by omega, by omega⟩, ?_⟩
    rw [hutf8]
    exact ⟨hb, hs⟩

theorem lt_of_mem_utf8 (hc : c ≤ 0x10ffff) (hb : b ∈ utf8 c) : b < 256 := by
  obtain ⟨d, hd, rfl⟩ := List.mem_map.mp hb
  have hbyte : ∀ n, n < 256 → (byte n).toNat < 256 := fun n hn => (toNat_byte hn).trans_lt hn
  rw [unicodeToUtf8] at hd
  split_ifs at hd <;> (try omega) <;> simp only [List.mem_cons, List.not_mem_nil, or_false] at hd <;>
    rcases hd with rfl | rfl | rfl | rfl <;> exact hbyte _ (by omega)

/-- The shortest form of a code point is accepted. -/
theorem decodeTail_of_escapes (h0 : 0x80 ≤ c) (hc : Scalar c) (hs : Escapes (utf8 c) (u :: s) t) :
    ∃ b, hexDecode (u :: s) = .ok b ∧ 0x80 ≤ b ∧
      decodeTail (leadByte b).1 (leadByte b).2.2 (s.drop 2) = .ok (c, t) ∧ (leadByte b).2.1 ≤ c := by
  have hfrom : unicodeFromUtf8 (unicodeToUtf8 c ++ []) = some (c, []) := unicodeFromUtf8_unicodeToUtf8 hc.1
  obtain ⟨d, q, hdq, hd⟩ := exists_unicodeToUtf8_eq h0 hc.1
  have hbytes : ∀ b ∈ utf8 c, b < 256 := fun b hb => lt_of_mem_utf8 hc.1 hb
  rw [utf8, hdq] at hs hbytes
  obtain ⟨hlt, hbs⟩ := List.forall_mem_cons.mp hbytes
  rw [List.append_nil, hdq, unicodeFromUtf8, if_neg (Nat.not_lt.mpr hd)] at hfrom
  refine ⟨d.toNat, hs.1, hd, ?_⟩
  split at hfrom
  · cases hfrom
  · rename_i n bits least hfirst
    obtain ⟨hnext, hle⟩ := Option.filter_eq_some_iff.mp hfrom
    have hleast : least ≤ c := of_decide_eq_true hle
    have hfilter : (firstByte d.toNat).filter (·.2.2 ≤ 0x10ffff) = some (n, bits, least) :=
      Option.filter_eq_some_iff.mpr ⟨hfirst, decide_eq_true (Nat.le_trans hleast hc.1)⟩
    have hmap : (q.map Char.toNat).map byte = q := by
      rw [List.map_map]
      exact (List.map_congr_left fun d _ => byte_toNat d).trans (List.map_id q)
    rw [leadByte_eq hlt, hfilter]
    exact ⟨decodeTail_of_nextBytes hbs (hmap.symm ▸ hnext) hs.2, hleast⟩

theorem decodeLoop_cons (u : UInt16) (rest : List UInt16) : decodeLoop isComponent (u :: rest) =
    match decodeStep isComponent u rest with
    | .error msg => .error msg
    | .ok (c, s) => (decodeLoop isComponent s).map (c :: ·) := by
  rw [decodeLoop]
  cases decodeStep isComponent u rest <;> rfl

/-- What one iteration reads. -/
theorem decodeStep_reads (h : decodeStep isComponent u s = .ok (c, t)) (ht : Reads isComponent t cs) :
    Reads isComponent (u :: s) (c :: cs) := by
  rw [decodeStep] at h
  split at h
  · subst u
    split at h
    · cases h
    · rename_i b hb
      split at h
      · rename_i hascii
        split at h <;> cases h
        · exact .reserved hb hascii ‹_› ht
        · exact .ascii hb hascii (Bool.eq_false_iff.mpr ‹_›) ht
      · rename_i hlead
        dsimp only at h
        split at h
        · cases h
        · rename_i htail
          split at h <;> cases h
          obtain ⟨h0, hc, hs⟩ := escapes_of_decodeTail hb (Nat.le_of_not_lt hlead) htail ‹_›
          exact .scalar h0 hc hs ht
  · cases h
    exact .unit ‹_› ht

theorem reads_of_decodeLoop {s : List UInt16} {cs : List ℕ} (h : decodeLoop isComponent s = .ok cs) :
    Reads isComponent s cs := by
  induction s using (measure List.length).wf.induction generalizing cs with | _ s ih
  cases s with
  | nil =>
    rw [decodeLoop] at h
    cases h
    exact .nil
  | cons u rest =>
    rw [decodeLoop_cons] at h
    split at h
    · cases h
    · rename_i c t hstep
      cases hloop : decodeLoop isComponent t with
      | error e => cases hloop ▸ h
      | ok ds =>
        rw [hloop] at h
        cases h
        exact decodeStep_reads hstep (ih t (Nat.lt_succ_of_le (length_decodeStep hstep)) hloop)

theorem decodeLoop_of_step (hstep : decodeStep isComponent u s = .ok (c, t)) (ht : decodeLoop isComponent t = .ok cs) :
    decodeLoop isComponent (u :: s) = .ok (c :: cs) := by
  rw [decodeLoop_cons, hstep]
  dsimp only
  rw [ht]
  rfl

theorem decodeLoop_of_reads (h : Reads isComponent s cs) : decodeLoop isComponent s = .ok cs := by
  induction h with
  | nil => rw [decodeLoop]
  | unit hu _ ih =>
    refine decodeLoop_of_step ?_ ih
    rw [decodeStep, if_neg hu]
  | ascii hb hascii hkeep _ ih =>
    obtain ⟨rest, rfl⟩ := head_of_hexDecode hb
    refine decodeLoop_of_step ?_ ih
    rw [decodeStep, hb]
    dsimp only
    rw [if_pos hascii, if_neg (Bool.eq_false_iff.mp hkeep)]
    rfl
  | reserved hb hascii hkeep _ ih =>
    refine decodeLoop_of_step ?_ ih
    rw [decodeStep, if_pos rfl, hb]
    dsimp only
    rw [if_pos hascii, if_pos hkeep]
  | @scalar c s t _ h0 hc hs _ ih =>
    obtain ⟨b, rest, hbs⟩ : ∃ b rest, utf8 c = b :: rest := by
      obtain ⟨d, q, hdq, -⟩ := exists_unicodeToUtf8_eq h0 hc.1
      exact ⟨d.toNat, q.map Char.toNat, by rw [utf8, hdq, List.map_cons]⟩
    have hhead := hs
    rw [hbs] at hhead
    obtain ⟨rest, rfl⟩ := head_of_hexDecode hhead.1
    obtain ⟨b, hb, hlead, htail, hleast⟩ := decodeTail_of_escapes h0 hc hs
    refine decodeLoop_of_step ?_ ih
    rw [decodeStep, if_pos rfl, hb]
    dsimp only
    rw [if_neg (Nat.not_lt.mpr hlead), htail]
    dsimp only
    rw [if_neg]
    have hmax := hc.1
    have hsurrogate := hc.2
    omega

/-- **The decoder accepts** the strings that say something, and those only. -/
theorem decodeLoop_iff : decodeLoop isComponent s = .ok cs ↔ Reads isComponent s cs :=
  ⟨reads_of_decodeLoop, decodeLoop_of_reads⟩

/-! ## Writing -/

/-- What the calls write. -/
def written (ws : List Write) : List UInt16 := ws.flatMap Write.units

theorem written_cons (w : Write) (ws : List Write) : written (w :: ws) = w.units ++ written ws := List.flatMap_cons ..

/-- What a code point is encoded to. -/
def encoded (isComponent : Bool) (c : ℕ) : List UInt16 :=
  if isURIUnescaped c isComponent then [.ofNat c] else (utf8 c).flatMap escaped

theorem lt_of_isURIUnescaped (h : isURIUnescaped c isComponent = true) : c < 0x100 := by
  rw [isURIUnescaped, Bool.and_eq_true] at h
  exact of_decide_eq_true h.1

theorem or_eq_add {k m : ℕ} (hc : c < 2 ^ k) (hm : 2 ^ k ∣ m) : c ||| m = m + c := by
  obtain ⟨q, rfl⟩ := hm
  rw [Nat.or_comm]
  exact (Nat.two_pow_add_eq_or_of_lt hc q).symm

/-- The escapes of a code point are those of its UTF-8. -/
theorem written_encodePoint (hc : c ≤ 0x10ffff) : written (encodePoint c) = (utf8 c).flatMap escaped := by
  have hunits : ∀ b, b < 256 → (encodeURIHex b).units = escaped b := fun b hb => units_encodeURIHex hb
  have hand : ∀ m, m &&& 0x3f ||| 0x80 = 0x80 + m % 64 := fun m => by
    rw [and_3f]
    exact or_eq_add (k := 6) (Nat.mod_lt _ (by decide)) (by decide)
  have hshift6 : c >>> 6 = c / 64 := Nat.shiftRight_eq_div_pow c 6
  have hshift12 : c >>> 12 = c / 4096 := Nat.shiftRight_eq_div_pow c 12
  have hshift18 : c >>> 18 = c / 262144 := Nat.shiftRight_eq_div_pow c 18
  rw [written, encodePoint, utf8, unicodeToUtf8]
  by_cases h1 : c < 0x80
  · rw [if_pos h1, if_pos h1, List.map_cons, toNat_byte (by omega), List.flatMap_cons, hunits c (by omega)]
    rfl
  by_cases h2 : c < 0x800
  · rw [if_neg h1, if_neg h1, if_pos h2, if_pos h2, hshift6, or_eq_add (k := 5) (by omega) (by decide), hand]
    simp only [List.singleton_append, List.map_cons, List.map_nil, List.flatMap_cons, List.flatMap_nil]
    rw [toNat_byte (by omega), toNat_byte (by omega), hunits _ (by omega), hunits _ (by omega)]
  by_cases h3 : c < 0x10000
  · rw [if_neg h1, if_neg h1, if_neg h2, if_neg h2, if_pos h3, if_pos h3, hshift12, hshift6,
      or_eq_add (k := 4) (by omega) (by decide), hand, hand]
    simp only [List.cons_append, List.nil_append, List.map_cons, List.map_nil, List.flatMap_cons, List.flatMap_nil]
    rw [toNat_byte (by omega), toNat_byte (by omega), toNat_byte (by omega), hunits _ (by omega), hunits _ (by omega),
      hunits _ (by omega)]
  · rw [if_neg h1, if_neg h1, if_neg h2, if_neg h2, if_neg h3, if_neg h3, if_pos (by omega), hshift18, hshift12, hshift6,
      or_eq_add (k := 3) (by omega) (by decide), hand, hand, hand]
    simp only [List.cons_append, List.nil_append, List.map_cons, List.map_nil, List.flatMap_cons, List.flatMap_nil]
    rw [toNat_byte (by omega), toNat_byte (by omega), toNat_byte (by omega), toNat_byte (by omega), hunits _ (by omega),
      hunits _ (by omega), hunits _ (by omega), hunits _ (by omega)]

/-- A string without lone surrogates. -/
def WellFormed (s : List UInt16) : Prop := ∀ c ∈ codePoints s, Scalar c

/-- The code point of a pair. -/
theorem pair_eq (a b : ℕ) : (((a &&& 0x3ff) <<< 10 ||| b &&& 0x3ff) + 0x10000) = a % 1024 * 1024 + b % 1024 + 0x10000 := by
  have hand : ∀ m, m &&& 0x3ff = m % 1024 := fun m => Nat.and_two_pow_sub_one_eq_mod m 10
  have hor : 2 ^ 10 * (a % 1024) + b % 1024 = 2 ^ 10 * (a % 1024) ||| b % 1024 :=
    Nat.two_pow_add_eq_or_of_lt (Nat.mod_lt _ (by decide)) _
  rw [hand, hand, Nat.shiftLeft_eq, Nat.mul_comm (a % 1024), ← hor]

/-- The encoder writes the code points of a string one after the other. -/
theorem encodeLoop_wellFormed (isComponent : Bool) (hs : WellFormed s) :
    ∃ ws, encodeLoop isComponent s = .ok ws ∧ written ws = (codePoints s).flatMap (encoded isComponent) := by
  have unit : ∀ (u : UInt16) (s : List UInt16), Scalar u.toNat →
      (∃ ws, encodeLoop isComponent s = .ok ws ∧ written ws = (codePoints s).flatMap (encoded isComponent)) →
      ∃ ws, encodeLoop isComponent (u :: s) = .ok ws ∧
        written ws = (u.toNat :: codePoints s).flatMap (encoded isComponent) := by
    intro u s hu ⟨ws, hws, hwritten⟩
    have hsurrogate := hu.2
    unfold encodeLoop
    dsimp only
    rw [hws, List.flatMap_cons, encoded]
    split
    · refine ⟨_, rfl, ?_⟩
      rw [← hwritten, UInt16.ofNat_toNat]
      rfl
    · rw [if_neg (by omega), if_neg (by omega)]
      refine ⟨_, rfl, ?_⟩
      rw [written, List.flatMap_append, ← hwritten, ← written_encodePoint hu.1]
      rfl
  induction s using codePoints.induct with
  | case1 => exact ⟨[], rfl, rfl⟩
  | case2 u => exact unit u [] (hs _ (List.mem_singleton.mpr rfl)) ⟨[], rfl, rfl⟩
  | case3 u v s hpair ih =>
    rw [WellFormed, codePoints, if_pos hpair] at hs
    obtain ⟨hscalar, hs⟩ := List.forall_mem_cons.mp hs
    obtain ⟨ws, hws, hwritten⟩ := ih hs
    have hu : ¬ isURIUnescaped u.toNat isComponent = true := fun h => by
      have := lt_of_isURIUnescaped h
      omega
    have hpoint : ¬ isURIUnescaped (u.toNat % 1024 * 1024 + v.toNat % 1024 + 0x10000) isComponent = true := fun h => by
      have := lt_of_isURIUnescaped h
      omega
    rw [codePoints, if_pos hpair, List.flatMap_cons, encoded, if_neg hpoint, encodeLoop.eq_def]
    dsimp only
    rw [if_neg hu, if_neg (by omega), if_pos (by omega), if_neg (by omega), hws, pair_eq]
    refine ⟨_, rfl, ?_⟩
    rw [written, List.flatMap_append, ← hwritten, ← written_encodePoint hscalar.1]
    rfl
  | case4 u v s hpair ih =>
    rw [WellFormed, codePoints, if_neg hpair] at hs
    obtain ⟨hscalar, hs⟩ := List.forall_mem_cons.mp hs
    rw [codePoints, if_neg hpair]
    exact unit u (v :: s) hscalar (ih hs)

theorem ne_percent (h : isURIUnescaped c isComponent = true) : UInt16.ofNat c ≠ percent := by
  have hnot : ∀ isComponent, isURIUnescaped 37 isComponent = false := by decide +kernel
  intro heq
  have hc : c = 37 := by
    rw [← toNat_ofNat_unit (Nat.lt_trans (lt_of_isURIUnescaped h) (by decide)), heq]
    rfl
  rw [hc, hnot] at h
  cases h

/-- What is encoded is read. -/
theorem reads_encoded (hc : Scalar c) (ht : Reads isComponent t cs) :
    Reads isComponent (encoded isComponent c ++ t) (c :: cs) := by
  rw [encoded]
  split
  · rename_i h
    have hlt := lt_of_isURIUnescaped h
    have hunit := Reads.unit (ne_percent h) ht
    rw [toNat_ofNat_unit (by omega)] at hunit
    exact hunit
  · rename_i h
    by_cases h0 : c < 0x80
    · have hutf8 : utf8 c = [c] := by
        rw [utf8, unicodeToUtf8_ascii h0, List.map_singleton, toNat_byte (by omega)]
      have hkeep : (!isComponent && isURIReserved c) = false := by
        rw [isURIUnescaped, Bool.and_eq_true, not_and, Bool.or_eq_true, not_or] at h
        exact Bool.eq_false_iff.mpr (h (decide_eq_true (by omega))).2
      rw [hutf8]
      exact .ascii (hexDecode_escaped (by omega) t) h0 hkeep ht
    · exact .scalar (Nat.le_of_not_lt h0) hc (escapes_flatMap (fun b hb => lt_of_mem_utf8 hc.1 hb) t) ht

/-- **The decoder reads what the encoder has written.** -/
theorem decodeLoop_encoded (hs : ∀ c ∈ cs, Scalar c) :
    decodeLoop isComponent (cs.flatMap (encoded isComponent)) = .ok cs := by
  refine decodeLoop_iff.mpr ?_
  induction cs with
  | nil => exact .nil
  | cons c cs ih =>
    obtain ⟨hc, hcs⟩ := List.forall_mem_cons.mp hs
    exact reads_encoded hc (ih hcs)

/-! ## `escape` -/

theorem hexDigit_ne (d : ℕ) : (hexDigit d).toUInt16 ≠ 117 := by
  have hand : d &&& 15 = d % 16 := Nat.and_two_pow_sub_one_eq_mod d 4
  have hlt : d % 16 < 16 := Nat.mod_lt _ (by decide)
  rw [hexDigit, hand]
  generalize d % 16 = k at hlt
  revert k
  decide +kernel

theorem unescapeLoop_cons (u : UInt16) (rest : List UInt16) :
    unescapeLoop (u :: rest) = (unescapeStep u rest).1 :: unescapeLoop (unescapeStep u rest).2 := by
  rw [unescapeLoop]

/-- An escape is read as one code unit. -/
theorem unescapeLoop_encodeURIHex (u : UInt16) (t : List UInt16) :
    unescapeLoop ((encodeURIHex u.toNat).units ++ t) = u :: unescapeLoop t := by
  have hlt : u.toNat < 65536 := u.toNat_lt
  have hshift4 : u.toNat >>> 4 = u.toNat / 16 := Nat.shiftRight_eq_div_pow _ 4
  have hshift8 : u.toNat >>> 8 = u.toNat / 256 := Nat.shiftRight_eq_div_pow _ 8
  have hshift12 : u.toNat >>> 12 = u.toNat / 4096 := Nat.shiftRight_eq_div_pow _ 12
  have hstep : ∃ rest, (encodeURIHex u.toNat).units ++ t = percent :: rest ∧ unescapeStep percent rest = (u, t) := by
    by_cases hbyte : u.toNat < 256
    · refine ⟨_, congrArg (· ++ t) (units_encodeURIHex hbyte), ?_⟩
      have hsum : (0 * 16 + u.toNat / 16 % 16) * 16 + u.toNat % 16 = u.toNat := by omega
      rw [unescapeStep, if_pos rfl, if_neg fun h => hexDigit_ne _ (Option.some.inj h.2)]
      dsimp only [List.cons_append, List.append_eq, List.nil_append, List.length_cons]
      rw [if_pos (Nat.le_add_left 2 t.length), stringGetHex_cons, stringGetHex_cons, hshift4, hsum, stringGetHex]
      dsimp only
      rw [UInt16.ofNat_toNat]
      rfl
    · have hsum : (((0 * 16 + u.toNat / 4096 % 16) * 16 + u.toNat / 256 % 16) * 16 + u.toNat / 16 % 16) * 16 +
          u.toNat % 16 = u.toNat := by omega
      refine ⟨117 :: (hexDigit (u.toNat >>> 12)).toUInt16 :: (hexDigit (u.toNat >>> 8)).toUInt16 ::
        (hexDigit (u.toNat >>> 4)).toUInt16 :: (hexDigit u.toNat).toUInt16 :: t, ?_, ?_⟩
      · rw [encodeURIHex, if_pos (Nat.le_of_not_lt hbyte)]
        rfl
      · rw [unescapeStep, if_pos rfl, if_pos ⟨Nat.le_add_left .., rfl⟩, List.tail_cons, stringGetHex_cons, stringGetHex_cons,
          stringGetHex_cons, stringGetHex_cons, hshift4, hshift8, hshift12, hsum, stringGetHex]
        dsimp only
        rw [UInt16.ofNat_toNat]
        rfl
  obtain ⟨rest, hrest, hunescape⟩ := hstep
  rw [hrest, unescapeLoop_cons, hunescape]

theorem percent_of_isUnescaped (h : isUnescaped u.toNat = true) : u ≠ percent := by
  rintro rfl
  exact absurd h (by decide +kernel)

/-- **What is escaped is unescaped**, whatever the code units are. -/
theorem unescapeLoop_escape (s : List UInt16) :
    unescapeLoop (written (s.map fun u => if isUnescaped u.toNat then .putc16 u else encodeURIHex u.toNat)) = s := by
  induction s with
  | nil =>
    rw [List.map_nil, written, List.flatMap_nil, unescapeLoop]
  | cons u s ih =>
    rw [List.map_cons, written_cons]
    split
    · rename_i h
      rw [Write.units, List.singleton_append, unescapeLoop_cons, unescapeStep, if_neg (percent_of_isUnescaped h), ih]
    · rw [unescapeLoop_encodeURIHex, ih]

end QuickJs.Uri
