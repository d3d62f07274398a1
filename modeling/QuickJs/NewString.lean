import QuickJs.Atom
import QuickJs.Utf8

/-!
# Strings from UTF-8

`JS_NewStringLen` decodes a buffer of UTF-8 into UTF-16 code units. It reads the surrogates like
other code points, and replaces what it cannot decode by one `0xfffd` for each run of bytes that it
skips.
-/

namespace QuickJs.NewString

open Utf8

/-- Is this one of the bytes that follow the first one of a sequence? -/
def isNextByte (c : Char) : Bool := 0x80 ≤ c.toNat && c.toNat < 0xc0

/-- The bytes after an invalid sequence. -/
def skipInvalid (p : List Char) : List Char :=
  match p.dropWhile isNextByte with
  | [] => []
  | _ :: q => q.dropWhile isNextByte

/-- A round of the loop of `JS_NewStringLen`: the code units it adds and the bytes it leaves. -/
def decodeStep (c : Char) (p : List Char) : List ℕ × List Char :=
  if c.toNat < 128 then ([c.toNat], p)
  else match unicodeFromUtf8 (c :: p) with
    | none => ([0xfffd], skipInvalid (c :: p))
    | some (n, rest) =>
      if n ≤ 0x10ffff then ((stringBufferPutc n).map UInt16.toNat, rest)
      else ([0xfffd], skipInvalid (c :: p))

variable {c : Char} {p rest : List Char} {n bits : ℕ}

/-! ## Progress -/

theorem length_nextBytes {r : ℕ} (h : nextBytes n bits p = some (r, rest)) : rest.length + n = p.length := by
  rw [(nextBytes_eq_some h).2, List.length_append, length_lastBytes, Nat.add_comm]

theorem length_skipInvalid_le : (skipInvalid (c :: p)).length ≤ p.length := by
  have hle : ∀ q : List Char, (q.dropWhile isNextByte).length ≤ q.length :=
    fun q => (List.dropWhile_suffix _).length_le
  rw [skipInvalid]
  by_cases hc : isNextByte c
  · -- the first byte is one of those that follow
    rw [List.dropWhile_cons_of_pos hc]
    cases hq : p.dropWhile isNextByte with
    | nil => exact Nat.zero_le _
    | cons d q =>
      have hp := hle p
      rw [hq] at hp
      exact Nat.le_trans (hle q) (Nat.le_of_succ_le hp)
  · rw [List.dropWhile_cons_of_neg hc]
    exact hle p

theorem length_stringBufferPutc (n : ℕ) : (stringBufferPutc n).length = if 0x10000 ≤ n then 2 else 1 := by
  unfold stringBufferPutc
  split <;> rfl

theorem length_unicodeToUtf8 (h : n ≤ 0x10ffff) : (unicodeToUtf8 n).length =
    if n < 0x80 then 1 else if n < 0x800 then 2 else if n < 0x10000 then 3 else 4 := by
  unfold unicodeToUtf8
  repeat' split
  all_goals first | rfl | omega

/-- A code point has at most as many code units as bytes. -/
theorem length_putc_le (h : n ≤ 0x10ffff) : (stringBufferPutc n).length ≤ (unicodeToUtf8 n).length := by
  rw [length_stringBufferPutc, length_unicodeToUtf8 h]
  repeat' split
  all_goals omega

/-- It has fewer unless it is ASCII. -/
theorem length_putc_lt (h : n ≤ 0x10ffff) (h80 : 0x80 ≤ n) :
    (stringBufferPutc n).length < (unicodeToUtf8 n).length := by
  rw [length_stringBufferPutc, length_unicodeToUtf8 h]
  repeat' split
  all_goals omega

theorem decodeStep_ne_nil (c : Char) (p : List Char) : (decodeStep c p).1 ≠ [] := by
  have hputc : ∀ n, (stringBufferPutc n).map UInt16.toNat ≠ [] := by
    intro n hn
    have hlen := length_stringBufferPutc n
    rw [List.map_eq_nil_iff.mp hn] at hlen
    split at hlen <;> cases hlen
  unfold decodeStep
  split
  · exact List.cons_ne_nil _ _
  · split
    · exact List.cons_ne_nil _ _
    · split
      · exact hputc _
      · exact List.cons_ne_nil _ _

/-- A round adds at most as many code units as it reads bytes. -/
theorem length_decodeStep_le (c : Char) (p : List Char) :
    (decodeStep c p).1.length + (decodeStep c p).2.length ≤ p.length + 1 := by
  have hskip : [0xfffd].length + (skipInvalid (c :: p)).length ≤ p.length + 1 := by
    have hle := length_skipInvalid_le (c := c) (p := p)
    rw [List.length_singleton]
    omega
  unfold decodeStep
  split
  · rw [List.length_singleton, Nat.add_comm]
  · split
    · exact hskip
    · rename_i n rest hn
      split
      · rename_i hmax
        have hlen := congrArg List.length (eq_of_unicodeFromUtf8 hn)
        have hle := length_putc_le hmax
        simp only [List.length_cons, List.length_append] at hlen
        simp only [List.length_map]
        omega
      · exact hskip

theorem length_decodeStep_lt (c : Char) (p : List Char) : (decodeStep c p).2.length < p.length + 1 := by
  have hle := length_decodeStep_le c p
  have hpos := List.length_pos_iff.mpr (decodeStep_ne_nil c p)
  omega

/-! ## The text -/

/-- The loop of `JS_NewStringLen`: the code units of the text. -/
def decode : List Char → List ℕ
  | [] => []
  | c :: p => (decodeStep c p).1 ++ decode (decodeStep c p).2
termination_by p => p.length
decreasing_by exact length_decodeStep_lt c p

@[simp] theorem decode_nil : decode [] = [] := by rw [decode]

theorem decode_cons (c : Char) (p : List Char) :
    decode (c :: p) = (decodeStep c p).1 ++ decode (decodeStep c p).2 := by rw [decode]

theorem decode_ascii (h : c.toNat < 128) : decode (c :: p) = c.toNat :: decode p := by
  rw [decode_cons, decodeStep, if_pos h, List.singleton_append]

theorem decode_eq_nil : decode p = [] ↔ p = [] := by
  cases p with
  | nil => simp
  | cons c p => simp [decode_cons, decodeStep_ne_nil]

theorem length_decode_le (p : List Char) : (decode p).length ≤ p.length := by
  induction p using decode.induct with
  | case1 => simp
  | case2 c p ih =>
    have hle := length_decodeStep_le c p
    rw [decode_cons, List.length_append, List.length_cons]
    omega

/-- The encoding of a code point is decoded. -/
theorem decode_unicodeToUtf8 (h : n ≤ 0x10ffff) :
    decode (unicodeToUtf8 n ++ p) = (stringBufferPutc n).map UInt16.toNat ++ decode p := by
  by_cases h80 : n < 0x80
  · have hn : (byte n).toNat = n := toNat_byte (by omega)
    have hunit : (UInt16.ofNat n).toNat = n := by
      rw [UInt16.toNat_ofNat']
      omega
    rw [unicodeToUtf8_ascii h80, List.singleton_append, decode_ascii (by omega), hn,
      stringBufferPutc, if_neg (by omega), List.map_singleton, hunit, List.singleton_append]
  · obtain ⟨d, q, hd, h128⟩ := exists_unicodeToUtf8_eq (Nat.le_of_not_lt h80) h
    have hcode : unicodeFromUtf8 (unicodeToUtf8 n ++ p) = some (n, p) :=
      unicodeFromUtf8_unicodeToUtf8 h
    rw [hd, List.cons_append] at hcode
    have hstep : decodeStep d (q ++ p) = ((stringBufferPutc n).map UInt16.toNat, p) := by
      rw [decodeStep, if_neg (Nat.not_lt.mpr h128), hcode]
      simp only [if_pos h]
    rw [hd, List.cons_append, decode_cons, hstep]

/-- **Decoding inverts the encoding**: the text of encoded code points is their UTF-16. -/
theorem decode_flatMap (cs : List ℕ) (h : ∀ n ∈ cs, n ≤ 0x10ffff) :
    decode (cs.flatMap unicodeToUtf8) = cs.flatMap fun n => (stringBufferPutc n).map UInt16.toNat := by
  induction cs with
  | nil => simp
  | cons n cs ih =>
    obtain ⟨hn, hcs⟩ := List.forall_mem_cons.mp h
    rw [List.flatMap_cons, decode_unicodeToUtf8 hn, ih hcs, List.flatMap_cons]

/-- Only ASCII has its bytes for code units. -/
theorem decode_eq_bytes_iff (h : ∀ c ∈ p, c.toNat < 256) :
    decode p = p.map Char.toNat ↔ ∀ c ∈ p, c.toNat < 128 := by
  induction p with
  | nil => simp
  | cons c p ih =>
    obtain ⟨hc, hp⟩ := List.forall_mem_cons.mp h
    rw [List.forall_mem_cons, List.map_cons]
    by_cases h128 : c.toNat < 128
    · rw [decode_ascii h128, List.cons.injEq, ih hp]
      exact and_congr_left fun _ => iff_of_true rfl h128
    refine iff_of_false (fun heq => ?_) fun hall => h128 hall.1
    have hreplaced : ∀ q, [0xfffd] ++ decode q ≠ c.toNat :: p.map Char.toNat := by
      intro q hq
      have hhead := (List.cons.inj hq).1
      omega
    rw [decode_cons, decodeStep, if_neg h128] at heq
    split at heq
    · exact hreplaced _ heq
    · rename_i n rest hn
      split at heq
      · -- a sequence has more bytes than code units
        rename_i hmax
        have hbytes := eq_of_unicodeFromUtf8 hn
        have h80 : 0x80 ≤ n := by
          by_contra hlt
          rw [unicodeToUtf8_ascii (by omega)] at hbytes
          have hcn := congrArg Char.toNat (List.cons.inj hbytes).1
          rw [toNat_byte (by omega)] at hcn
          omega
        have hlen := congrArg List.length heq
        have hlen' := congrArg List.length hbytes
        simp only [List.length_append, List.length_map, List.length_cons] at hlen hlen'
        have hlt := length_putc_lt hmax h80
        have hle := length_decode_le rest
        omega
      · exact hreplaced _ heq

end QuickJs.NewString
