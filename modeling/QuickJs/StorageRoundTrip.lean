import QuickJs.StorageValue

/-!
# Stored values come back

What is stored of a value, and fetched again, is the value, unless the type it is stored with has no room for it.
-/

namespace QuickJs.StoredValue

open Storage
open ByteBuffer
open Rounding
open JSString (Chars jsToCStringLen2 jsNewStringLen)

/-- The value alone: numbers are doubles, all NaNs are one, strings have their code units. -/
def Value.normal : Value → Value
  | int n => float64 (Double.ofInt32 n)
  | float64 d => float64 (jsToFloat64 d)
  | string s => string (.str16 s.units)
  | v => v

/-- Strings and buffers have a length that the engine allows. -/
def Value.Valid : Value → Prop
  | string s => s.len ≤ JSString.JS_STRING_LEN_MAX
  | arrayBuffer (some bytes) => bytes.length < 2 ^ 31
  | _ => True

/-- The next element is read. -/
def dbFetchField (mathMode : Bool) (answer : ℕ → Option ℕ) (buf : List UInt8) : Option (Option Value × List UInt8) :=
  (hasNext buf).map fun (e, rest) => (dbFetchValue mathMode e answer, rest)

/-- What is stored for a value is fetched as another, and what follows is left; strings find memory. -/
def FetchedAs (mathMode : Bool) (v w : Value) : Prop :=
  ∀ (slack : ℕ) (slacks : ℕ → ℕ) (rest : List UInt8), ∃ bytes v', dbStoreField v (some slack) = some bytes ∧
    dbFetchField mathMode (fun i => some (slacks i)) (bytes ++ rest) = some (some v', rest) ∧ v'.normal = w.normal

/-- The time of a date in units of 100 ns is an `int64_t`; neither it nor its distances from the two epochs need
rounding. -/
def DateKept (q : ℚ) : Prop :=
  ∃ ticks : ℤ, q * 10000 = ticks ∧ -2 ^ 63 ≤ ticks ∧ ticks + epochTicks < 2 ^ 63 ∧
    double ticks = .finite ticks ∧ double (ticks + epochTicks : ℤ) = .finite (ticks + epochTicks : ℤ) ∧
    double (q + 11644473600) = .finite (q + 11644473600) ∧ double q = .finite q

/-- The value has room in the type that it is stored with, which keeps it apart from null. -/
def Kept (mathMode : Bool) : Value → Prop
  | .undefined => False
  | .null | .bool _ | .int _ | .float64 _ | .entity .. => True
  | .bigInt n => (-2 ^ 63 ≤ n ∧ n < 2 ^ 63) ∧ (mathMode = true → n < -MAX_SAFE_INTEGER ∨ MAX_SAFE_INTEGER < n)
  | .string s => s.units ≠ [] ∧ JSString.Counted s
  | .date ms => ∃ q, ms = .finite q ∧ DateKept q
  | .arrayBuffer data => ∃ bytes, data = some bytes ∧ bytes ≠ []

variable {mathMode : Bool} {v w : Value} {t : DybaseType} {value rest bytes : List UInt8} {n : ℤ}
  {answer : ℕ → Option ℕ} {text : List Char}

/-! ## Texts as bytes -/

theorem utf8_bytesOf (h : ∀ c ∈ text, c.toNat < 256) : Atom.utf8 (bytesOf text) = text := by
  rw [Atom.utf8, bytesOf, List.map_map]
  conv_rhs => rw [← List.map_id text]
  refine List.map_congr_left fun c hc => ?_
  have hbyte : (UInt8.ofNat c.toNat).toNat = c.toNat := by
    rw [UInt8.toNat_ofNat', Nat.mod_eq_of_lt (h c hc)]
  rw [Function.comp_apply, hbyte, Utf8.byte_toNat]
  rfl

theorem length_bytesOf (text : List Char) : (bytesOf text).length = text.length := List.length_map ..

variable {c slack : ℕ} {d : Char} {q : ℚ} {vals : List Value}

/-- UTF-8 is made of bytes. -/
theorem lt_of_mem_unicodeToUtf8 (h : d ∈ Utf8.unicodeToUtf8 c) : d.toNat < 256 := by
  have hbyte : ∀ k < 256, (Utf8.byte k).toNat < 256 := fun k hk => by rwa [Utf8.toNat_byte hk]
  unfold Utf8.unicodeToUtf8 at h
  split_ifs at h <;> simp only [List.mem_cons, List.not_mem_nil, or_false] at h
  · rw [h]
    exact hbyte _ (by omega)
  · rcases h with rfl | rfl <;> exact hbyte _ (by omega)
  · rcases h with rfl | rfl | rfl <;> exact hbyte _ (by omega)
  · rcases h with rfl | rfl | rfl | rfl <;> exact hbyte _ (by omega)
  · rcases h with rfl | rfl | rfl | rfl | rfl <;> exact hbyte _ (by omega)
  · rcases h with rfl | rfl | rfl | rfl | rfl | rfl <;> exact hbyte _ (by omega)

theorem lt_of_mem_flatMap {cs : List ℕ} (h : d ∈ cs.flatMap Utf8.unicodeToUtf8) : d.toNat < 256 := by
  obtain ⟨c, -, hd⟩ := List.mem_flatMap.mp h
  exact lt_of_mem_unicodeToUtf8 hd

/-- What `JS_ToCStringLen2` returns is made of bytes. -/
theorem lt_of_jsToCStringLen2 {s : Chars} (hlen : s.len ≤ JSString.JS_STRING_LEN_MAX)
    (h : jsToCStringLen2 s false (some slack) = some text) : ∀ c ∈ text, c.toNat < 256 := by
  cases s with
  | str8 s =>
    rw [Chars.len, Chars.units, List.length_map] at hlen
    obtain rfl := Option.some.inj ((JSString.jsToCStringLen2_str8 hlen slack).symm.trans h)
    rw [JSString.utf8Of8_eq]
    exact fun c => lt_of_mem_flatMap
  | str16 s =>
    by_cases hthree : 3 * s.length < 2 ^ 31
    · obtain rfl := Option.some.inj ((JSString.jsToCStringLen2_str16 hthree slack).symm.trans h)
      rw [JSString.utf8Of16_false]
      exact fun c => lt_of_mem_flatMap
    · have hmax : s.length ≤ JSString.JS_STRING_LEN_MAX := hlen
      rw [JSString.jsToCStringLen2_overflow hmax (Nat.le_of_not_lt hthree)] at h
      cases h

/-! ## Numbers -/

theorem jsToFloat64_idem (d : UInt64) : jsToFloat64 (jsToFloat64 d) = jsToFloat64 d := by
  rw [jsToFloat64]
  split
  · rename_i hnan
    rw [jsToFloat64] at hnan ⊢
    split
    · rfl
    · rename_i hnan'
      rw [if_neg hnan'] at hnan
      exact absurd hnan hnan'
  · rfl

theorem normal_jsNewFloat64 (d : UInt64) : (jsNewFloat64 d).normal = .float64 (jsToFloat64 d) := by
  rw [jsNewFloat64]
  split
  · rename_i heq
    have hnan : Double.isnan d = false := heq ▸ Double.isnan_ofInt32 _
    rw [Value.normal, ← heq, jsToFloat64, hnan, if_neg Bool.false_ne_true]
  · exact congrArg Value.float64 (jsToFloat64_idem d)

/-- A date that has room. -/
theorem dateOfTicks_dateTicks (h : DateKept q) : dateOfTicks (dateTicks (.finite q)) = .finite q ∧
    Fits 8 (dateTicks (.finite q)) := by
  obtain ⟨ticks, hq, hlo, hhi, hticks, hsum, hshift, hdouble⟩ := h
  have hepoch : epochTicks = 116444736000000 := rfl
  have hmul : Number.finite q * 10000 = .finite ticks := by
    have hexact : Number.finite q * 10000 = double (q * 10000) := rfl
    rw [hexact, hq, hticks]
  have hint : JsDate.toInt64 (.finite (ticks : ℚ)) = some ticks := by
    rw [JsDate.toInt64, trunc_intCast, JsDate.int64, if_pos ⟨hlo, by omega⟩]
  have hdate : dateTicks (.finite q) = ticks + epochTicks := by
    rw [dateTicks, hmul, hint, Option.getD_some, wrap, Int.bmod_eq_of_le] <;> omega
  refine ⟨?_, ?_⟩
  · have hdiv : ((ticks + epochTicks : ℤ) : ℚ) / 10000 = q + 11644473600 := by
      rw [hepoch]
      push_cast
      linarith
    have hquot : Number.finite ((ticks + epochTicks : ℤ) : ℚ) / 10000 = .finite (q + 11644473600) := by
      have hexact : Number.finite ((ticks + epochTicks : ℤ) : ℚ) / 10000 =
        double (((ticks + epochTicks : ℤ) : ℚ) / 10000) := rfl
      rw [hexact, hdiv, hshift]
    have hback : Number.finite (q + 11644473600) - 11644473600 = double (q + 11644473600 - 11644473600) := rfl
    rw [dateOfTicks, hdate, hsum, hquot, hback, add_sub_cancel_right, hdouble]
  · exact ⟨by omega, by omega⟩

/-- Whole milliseconds of some centuries have room. -/
theorem dateKept_intCast {ms : ℤ} (h : |625 * ms| < 2 ^ 53) (h' : |625 * (ms + 11644473600)| < 2 ^ 53) :
    DateKept ms := by
  have hlarge : ∀ m : ℤ, |625 * m| < 2 ^ 53 → double (10000 * m : ℤ) = .finite (10000 * m : ℤ) := by
    intro m hm
    have hcast : ((10000 * m : ℤ) : ℚ) = (625 * m : ℤ) * 2 ^ (4 : ℤ) := by
      push_cast
      ring
    have hnear : nearest (10000 * m : ℤ) = (10000 * m : ℤ) := by
      rw [hcast]
      exact nearest_of_bits hm (by norm_num)
    have hlt : |((10000 * m : ℤ) : ℚ)| < 2 ^ 1024 := by
      have hle : |10000 * m| < 2 ^ 57 := by
        rw [abs_lt] at hm ⊢
        omega
      have hcast' : |((10000 * m : ℤ) : ℚ)| < 2 ^ 57 := by exact_mod_cast hle
      exact hcast'.trans (pow_lt_pow_right₀ one_lt_two (by norm_num))
    rw [double, hnear, if_pos hlt]
  have hepoch : epochTicks = 116444736000000 := rfl
  have hsum : 10000 * ms + epochTicks = 10000 * (ms + 11644473600) := by omega
  rw [abs_lt] at h h'
  refine ⟨10000 * ms, by push_cast; ring, by omega, by omega, hlarge ms (abs_lt.mpr h), ?_, ?_, ?_⟩
  · rw [hsum]
    exact hlarge _ (abs_lt.mpr h')
  · have hcast : (ms : ℚ) + 11644473600 = ((ms + 11644473600 : ℤ) : ℚ) := by push_cast; rfl
    rw [hcast]
    exact double_intCast (abs_le.mpr ⟨by omega, by omega⟩)
  · exact double_intCast (abs_le.mpr ⟨by omega, by omega⟩)

/-! ## Values -/

/-- What is stored as a piece of memory of a fixed size. -/
theorem fetchedAs_fixed {m : Data} {l : ℤ} (ht : dbSizeofType t ≠ 0) (hsize : dbSizeofType t ≤ m.memory.length)
    (hstore : ∀ answer, (dbTransform v answer).1 = ⟨m, some t, l⟩)
    (hfetch : ∀ answer, ∃ v', dbFetchValue mathMode ⟨t.code, m.memory.take (dbSizeofType t), 0⟩ answer = some v' ∧
      v'.normal = w.normal) : FetchedAs mathMode v w := by
  intro slack slacks rest
  obtain ⟨v', hv', hnormal⟩ := hfetch fun i => some (slacks i)
  refine ⟨setElement t m.memory l, v', ?_, ?_, hnormal⟩
  · rw [dbStoreField, hstore]
    rfl
  · rw [dbFetchField, hasNext_fixed ht hsize]
    exact congrArg (fun v => some (v, rest)) hv'

/-- The memory of a union. -/
theorem take_memory_four (n : ℤ) (m : ℤ) : (ofInt 4 n ++ ofInt 4 m).take 4 = ofInt 4 n :=
  List.take_left' (length_ofInt 4 n)

theorem length_memory (n : ℤ) (m : ℤ) : (ofInt 4 n ++ ofInt 4 m).length = 8 := by
  rw [List.length_append, length_ofInt, length_ofInt]

theorem take_ofInt_eight (n : ℤ) : (ofInt 8 n).take 8 = ofInt 8 n := List.take_of_length_le (length_ofInt 8 n).le

theorem fetchedAs_bool (b : Bool) : FetchedAs mathMode (.bool b) (.bool b) := by
  have hbit : ∀ b : Bool, decide (toInt ((Data.i (if b then 1 else 0)).memory.take 1) ≠ 0) = b := by decide
  refine fetchedAs_fixed (t := .bool) (l := 0) (m := .i (if b then 1 else 0)) (by decide) ?_ (fun _ => rfl)
    fun _ => ⟨_, rfl, congrArg Value.bool (hbit b)⟩
  exact (by decide : 1 ≤ 8).trans (length_memory _ 0).ge

theorem fetchedAs_int (n : Int32) : FetchedAs mathMode (.int n) (.int n) := by
  refine fetchedAs_fixed (t := .int) (l := 0) (m := .i n.toInt) (by decide) ?_ (fun _ => rfl) fun answer => ⟨.int n, ?_, rfl⟩
  · exact (by decide : 4 ≤ 8).trans (length_memory _ 0).ge
  · have hlo := n.le_toInt
    have hhi := n.toInt_lt
    have hfits : Fits 4 n.toInt := ⟨by omega, by omega⟩
    have hread : dbFetchValue mathMode ⟨DybaseType.int.code, (ofInt 4 n.toInt ++ ofInt 4 0).take 4, 0⟩ answer =
      some (.int (.ofInt (toInt ((ofInt 4 n.toInt ++ ofInt 4 0).take 4)))) := rfl
    exact hread.trans (by rw [take_memory_four, toInt_ofInt hfits, Int32.ofInt_toInt])

theorem fetchedAs_float64 (d : UInt64) : FetchedAs mathMode (.float64 d) (.float64 d) := by
  refine fetchedAs_fixed (t := .real) (l := 0) (m := .d (jsToFloat64 d)) (by decide) ?_ (fun _ => rfl)
    fun answer => ⟨jsNewFloat64 (jsToFloat64 d), ?_, ?_⟩
  · exact (length_ofInt 8 _).ge
  · have hread : dbFetchValue mathMode ⟨DybaseType.real.code, (ofInt 8 (jsToFloat64 d).toNat).take 8, 0⟩ answer =
      some (jsNewFloat64 (.ofNat (toNat ((ofInt 8 (jsToFloat64 d).toNat).take 8)))) := rfl
    have hlt : (jsToFloat64 d).toNat < 256 ^ 8 := (jsToFloat64 d).toNat_lt
    exact hread.trans (by rw [take_ofInt_eight, toNat_ofInt hlt, UInt64.ofNat_toNat])
  · rw [normal_jsNewFloat64, jsToFloat64_idem]
    rfl

theorem fetchedAs_entity (kind : EntityKind) (oid : UInt32) :
    FetchedAs mathMode (.entity kind oid) (.entity kind oid) := by
  have hlt : oid.toNat < 256 ^ 4 := oid.toNat_lt
  have hsize : 4 ≤ (Data.oid oid.toNat).memory.length := (by decide : 4 ≤ 8).trans (length_memory _ 0).ge
  have hread : UInt32.ofNat (toNat ((Data.oid oid.toNat).memory.take 4)) = oid := by
    rw [Data.memory, take_memory_four, toNat_ofInt hlt, UInt32.ofNat_toNat]
  cases kind with
  | object =>
    exact fetchedAs_fixed (t := .objectRef) (l := 0) (by decide) hsize (fun _ => rfl)
      fun _ => ⟨_, congrArg (fun oid => some (Value.entity .object oid)) hread, rfl⟩
  | array =>
    exact fetchedAs_fixed (t := .arrayRef) (l := 0) (by decide) hsize (fun _ => rfl)
      fun _ => ⟨_, congrArg (fun oid => some (Value.entity .array oid)) hread, rfl⟩
  | index =>
    exact fetchedAs_fixed (t := .indexRef) (l := 0) (by decide) hsize (fun _ => rfl)
      fun _ => ⟨_, congrArg (fun oid => some (Value.entity .index oid)) hread, rfl⟩

/-- What is stored as a number of 64 bits. -/
theorem fetchedAs_bigInt (n : ℤ) : FetchedAs mathMode (.bigInt n) (jsNewBigInt64 mathMode (wrap n)) := by
  refine fetchedAs_fixed (t := .long) (l := 0) (m := .i64 (wrap n)) (by decide) ?_ (fun _ => rfl) fun answer => ⟨_, ?_, rfl⟩
  · exact (length_ofInt 8 _).ge
  · have hbound : -2 ^ 63 ≤ wrap n ∧ wrap n < 2 ^ 63 := by
      exact ⟨Int.le_bmod (by decide), Int.bmod_lt (by decide)⟩
    have hfits : Fits 8 (wrap n) := ⟨by omega, by omega⟩
    have hread : dbFetchValue mathMode ⟨DybaseType.long.code, (ofInt 8 (wrap n)).take 8, 0⟩ answer =
      some (jsNewBigInt64 mathMode (toInt ((ofInt 8 (wrap n)).take 8))) := rfl
    exact hread.trans (by rw [take_ofInt_eight, toInt_ofInt hfits])

theorem fetchedAs_date (h : DateKept q) : FetchedAs mathMode (.date (.finite q)) (.date (.finite q)) := by
  obtain ⟨hdate, hfits⟩ := dateOfTicks_dateTicks h
  refine fetchedAs_fixed (t := .date) (l := 0) (m := .i64 (dateTicks (.finite q))) (by decide) ?_ (fun _ => rfl)
    fun answer => ⟨_, ?_, rfl⟩
  · exact (length_ofInt 8 _).ge
  · have hread : dbFetchValue mathMode ⟨DybaseType.date.code, (ofInt 8 (dateTicks (.finite q))).take 8, 0⟩ answer =
      some (.date (dateOfTicks (toInt ((ofInt 8 (dateTicks (.finite q))).take 8)))) := rfl
    exact hread.trans (by rw [take_ofInt_eight, toInt_ofInt hfits, hdate])

/-- Null is the empty text. -/
theorem fetchedAs_null (hstore : ∀ slack, (dbTransform v (some slack)).1 = ⟨.s [], some .chars, 0⟩) :
    FetchedAs mathMode v .null := by
  intro slack slacks rest
  refine ⟨setElement .chars [] 0, .null, ?_, ?_, rfl⟩
  · rw [dbStoreField, hstore]
    rfl
  · rw [dbFetchField, hasNext_bytes (.inl rfl) rfl le_rfl (by decide)]
    rfl

theorem int32_length (h : text.length < 2 ^ 31) : JSString.int32 text.length = text.length :=
  JSString.StringBuffer.int32_eq (by omega) (by omega)

/-- A text that is not empty is read from its bytes. -/
theorem dbFetchField_text (hbytes : ∀ c ∈ text, c.toNat < 256) (hlen : text.length < 2 ^ 31) (hne : text ≠ []) :
    dbFetchField mathMode answer (setElement .chars (bytesOf text) (JSString.int32 text.length) ++ rest) =
      some ((jsNewStringLen text answer).map .string, rest) := by
  have hlength : (bytesOf text).length = ((text.length : ℤ)).toNat := length_bytesOf text
  have hzero : (text.length : ℤ) ≠ 0 := by exact_mod_cast (List.length_pos_of_ne_nil hne).ne'
  rw [dbFetchField, int32_length hlen, hasNext_bytes (.inl rfl) hlength (by omega) (by omega)]
  have hread : dbFetchValue mathMode ⟨DybaseType.chars.code, bytesOf text, text.length⟩ answer =
      (jsNewStringLen text answer).map .string := by
    rw [dbFetchValue, utf8_bytesOf hbytes]
    exact if_neg hzero
  exact congrArg (fun v => some (v, rest)) hread

/-- What is stored for a string whose text can be made. -/
theorem dbStoreField_string {s : Chars} (h : jsToCStringLen2 s false (some slack) = some text) :
    dbStoreField (.string s) (some slack) =
      some (setElement .chars (bytesOf text) (JSString.int32 text.length)) := by
  simp only [dbStoreField, dbTransform, h, Option.map_some, Data.memory]

theorem dbStoreField_arrayBuffer (bytes : List UInt8) (answer : Option ℕ) :
    dbStoreField (.arrayBuffer (some bytes)) answer =
      some (setElement .bytes bytes (JSString.int32 bytes.length)) := by
  simp only [dbStoreField, dbTransform, Option.map_some, Data.memory]

theorem fetchedAs_string {s : Chars} (hlen : s.len ≤ JSString.JS_STRING_LEN_MAX) (hne : s.units ≠ [])
    (hcounted : JSString.Restored s) : FetchedAs mathMode (.string s) (.string s) := by
  intro slack slacks rest
  obtain ⟨text, str', htext, hnew, hunits⟩ := hcounted slack slacks
  obtain ⟨hdecode, hlength⟩ := JSString.decode_of_jsToCStringLen2 hlen htext
  have hnil : text ≠ [] := by
    rintro rfl
    exact hne (List.map_eq_nil_iff.mp (hdecode.symm.trans NewString.decode_nil))
  refine ⟨_, .string str', dbStoreField_string htext, ?_, ?_⟩
  · rw [dbFetchField_text (lt_of_jsToCStringLen2 hlen htext) hlength hnil, hnew]
    rfl
  · rw [Value.normal, Value.normal, hunits]

theorem fetchedAs_arrayBuffer (hlen : bytes.length < 2 ^ 31) (hne : bytes ≠ []) :
    FetchedAs mathMode (.arrayBuffer (some bytes)) (.arrayBuffer (some bytes)) := by
  intro slack slacks rest
  have hint : JSString.int32 bytes.length = bytes.length := JSString.StringBuffer.int32_eq (by omega) (by omega)
  have hlength : bytes.length = ((bytes.length : ℤ)).toNat := rfl
  have hzero : (bytes.length : ℤ) ≠ 0 := by exact_mod_cast (List.length_pos_of_ne_nil hne).ne'
  refine ⟨_, .arrayBuffer (some bytes), dbStoreField_arrayBuffer bytes _, ?_, rfl⟩
  rw [dbFetchField, hint, hasNext_bytes (.inr rfl) hlength (by omega) (by omega)]
  have hread : dbFetchValue mathMode ⟨DybaseType.bytes.code, bytes, bytes.length⟩ (fun i => some (slacks i)) =
      some (.arrayBuffer (some bytes)) := by
    have hcopy : jsNewArrayBufferCopy bytes bytes.length = some (.arrayBuffer (some bytes)) := if_neg (by omega)
    exact (if_neg hzero).trans hcopy
  exact congrArg (fun v => some (v, rest)) hread

/-- **A value that has room comes back.** -/
theorem Kept.fetchedAs (h : Kept mathMode v) (hvalid : v.Valid) : FetchedAs mathMode v v := by
  cases v with
  | null => exact fetchedAs_null fun _ => rfl
  | undefined => exact h.elim
  | bool b => exact fetchedAs_bool b
  | int n => exact fetchedAs_int n
  | float64 d => exact fetchedAs_float64 d
  | bigInt n =>
    obtain ⟨hrange, hmode⟩ := h
    have hwrap : wrap n = n := by
      rw [wrap, Int.bmod_eq_of_le] <;> omega
    have hnew : jsNewBigInt64 mathMode n = .bigInt n := by
      refine if_neg fun ⟨hmath, hsafe⟩ => ?_
      have houtside := hmode hmath
      omega
    have hfetched : FetchedAs mathMode (.bigInt n) (jsNewBigInt64 mathMode (wrap n)) := fetchedAs_bigInt n
    rwa [hwrap, hnew] at hfetched
  | string s =>
    have hrestored : JSString.Restored s := by
      cases s with
      | str8 s =>
        rw [Value.Valid, Chars.len, Chars.units, List.length_map] at hvalid
        exact JSString.restored_str8 hvalid
      | str16 s => exact (JSString.restored_str16_iff hvalid).mpr h.2
    exact fetchedAs_string hvalid h.1 hrestored
  | date ms =>
    obtain ⟨q, rfl, hq⟩ := h
    exact fetchedAs_date hq
  | arrayBuffer data =>
    obtain ⟨bytes, rfl, hne⟩ := h
    exact fetchedAs_arrayBuffer hvalid hne
  | entity kind oid => exact fetchedAs_entity kind oid

/-- Two values that one is fetched as are the same. -/
theorem FetchedAs.unique {w' : Value} (h : FetchedAs mathMode v w) (h' : FetchedAs mathMode v w') :
    w.normal = w'.normal := by
  obtain ⟨bytes, u, hbytes, hfetch, hu⟩ := h 0 (fun _ => 0) []
  obtain ⟨bytes', u', hbytes', hfetch', hu'⟩ := h' 0 (fun _ => 0) []
  obtain rfl := Option.some.inj (hbytes.symm.trans hbytes')
  cases hfetch.symm.trans hfetch'
  exact hu.symm.trans hu'

/-! ## What has no room -/

/-- A string that comes back is restored by the conversion. -/
theorem FetchedAs.restored {s : Chars} (h : FetchedAs mathMode (.string s) (.string s))
    (hlen : s.len ≤ JSString.JS_STRING_LEN_MAX) : s.units ≠ [] ∧ JSString.Restored s := by
  have hnull : ∀ slack, jsToCStringLen2 s false (some slack) = none ∨
      jsToCStringLen2 s false (some slack) = some [] → False := by
    intro slack hempty
    obtain ⟨bytes, u, hbytes, hfetch, hu⟩ := h slack (fun _ => 0) []
    have hstore : dbStoreField (.string s) (some slack) = some (setElement .chars [] 0) := by
      rcases hempty with hempty | hempty <;> rw [dbStoreField, dbTransform, hempty] <;> rfl
    obtain rfl := Option.some.inj (hbytes.symm.trans hstore)
    rw [dbFetchField, hasNext_bytes (.inl rfl) rfl le_rfl (by decide)] at hfetch
    cases hfetch
    cases hu
  have htext : ∀ slack, ∃ c text, jsToCStringLen2 s false (some slack) = some (c :: text) := by
    intro slack
    cases heq : jsToCStringLen2 s false (some slack) with
    | none => exact (hnull slack (.inl heq)).elim
    | some text =>
      cases text with
      | nil => exact (hnull slack (.inr heq)).elim
      | cons c text => exact ⟨c, text, rfl⟩
  constructor
  · intro hnil
    obtain ⟨c, text, heq⟩ := htext 0
    obtain ⟨hdecode, -⟩ := JSString.decode_of_jsToCStringLen2 hlen heq
    rw [hnil, List.map_nil, NewString.decode_eq_nil] at hdecode
    cases hdecode
  · intro slack slacks
    obtain ⟨c, text, heq⟩ := htext slack
    obtain ⟨-, hlength⟩ := JSString.decode_of_jsToCStringLen2 hlen heq
    obtain ⟨bytes, u, hbytes, hfetch, hu⟩ := h slack slacks []
    have hstored := Option.some.inj (hbytes.symm.trans (dbStoreField_string heq))
    rw [hstored, dbFetchField_text (lt_of_jsToCStringLen2 hlen heq) hlength (List.cons_ne_nil c text)] at hfetch
    obtain ⟨str', hstr', rfl⟩ := Option.map_eq_some_iff.mp (Prod.mk.inj (Option.some.inj hfetch)).1
    exact ⟨_, str', heq, hstr', Chars.str16.inj (Value.string.inj hu)⟩

/-- **Only a value that has room comes back**, dates apart, some of which are rounded to themselves. -/
theorem fetchedAs_iff_kept (hvalid : v.Valid) (hdate : ∀ ms, v ≠ .date ms) : FetchedAs mathMode v v ↔ Kept mathMode v := by
  refine ⟨fun h => ?_, fun h => h.fetchedAs hvalid⟩
  cases v with
  | null => trivial
  | undefined =>
    have hnull := h.unique (fetchedAs_null fun _ => rfl)
    cases hnull
  | bool b => trivial
  | int n => trivial
  | float64 d => trivial
  | bigInt n =>
    have hnew := h.unique (fetchedAs_bigInt n)
    rw [jsNewBigInt64] at hnew
    split at hnew
    · rw [jsNewInt64] at hnew
      split at hnew <;> cases hnew
    · rename_i hunsafe
      have hwrap : n = wrap n := Value.bigInt.inj hnew
      have hbound : -2 ^ 63 ≤ wrap n ∧ wrap n < 2 ^ 63 := by
        exact ⟨Int.le_bmod (by decide), Int.bmod_lt (by decide)⟩
      rw [← hwrap] at hbound hunsafe
      refine ⟨hbound, fun hmath => ?_⟩
      rw [not_and] at hunsafe
      have houtside := hunsafe hmath
      omega
  | string s =>
    obtain ⟨hne, hrestored⟩ := h.restored hvalid
    refine ⟨hne, ?_⟩
    cases s with
    | str8 s => trivial
    | str16 s => exact (JSString.restored_str16_iff hvalid).mp hrestored
  | date ms => exact absurd rfl (hdate ms)
  | arrayBuffer data =>
    cases data with
    | none =>
      obtain ⟨bytes, u, hbytes, -⟩ := h 0 (fun _ => 0) []
      cases hbytes
    | some bytes =>
      refine ⟨bytes, rfl, ?_⟩
      rintro rfl
      obtain ⟨bytes, u, hbytes, hfetch, hu⟩ := h 0 (fun _ => 0) []
      obtain rfl := Option.some.inj (hbytes.symm.trans (dbStoreField_arrayBuffer [] _))
      have hnext : hasNext (setElement .bytes [] (JSString.int32 0) ++ []) = some (⟨DybaseType.bytes.code, [], 0⟩, []) :=
        hasNext_bytes (.inr rfl) rfl le_rfl (by decide)
      rw [List.length_nil, Nat.cast_zero, dbFetchField, hnext] at hfetch
      cases hfetch
      cases hu
  | entity kind oid => trivial

/-- What is stored for `undefined` comes back as null. -/
theorem fetchedAs_undefined : ¬ FetchedAs false .undefined .undefined := by
  have hvalid : Value.Valid .undefined := trivial
  exact fun h => (fetchedAs_iff_kept hvalid (by rintro _ ⟨⟩)).mp h

/-! ## Arrays -/

/-- **The elements of an array come back** in their order. -/
theorem fetchElements_storeElements (hkept : ∀ v ∈ vals, Kept mathMode v ∧ v.Valid)
    (rest : List UInt8) (slack : ℕ → ℕ) (slacks : ℕ → ℕ → ℕ) : ∃ (bytes : List UInt8) (vals' : List Value),
      storeElements (fun i => some (slack i)) vals = some bytes ∧
      fetchElements mathMode vals.length (fun i j => some (slacks i j)) (bytes ++ rest) = some (vals'.map some) ∧
      vals'.map Value.normal = vals.map Value.normal := by
  induction vals generalizing slack slacks with
  | nil => exact ⟨[], [], rfl, rfl, rfl⟩
  | cons v vals ih =>
    obtain ⟨⟨hv, hvalid⟩, hvals⟩ := List.forall_mem_cons.mp hkept
    obtain ⟨bytes, vals', hstore, hfetch, hnormal⟩ := ih hvals (fun i => slack (i + 1)) fun i => slacks (i + 1)
    obtain ⟨first, v', hfirst, hread, hsame⟩ := hv.fetchedAs hvalid (slack 0) (slacks 0) (bytes ++ rest)
    obtain ⟨⟨e, buf⟩, hnext, heq⟩ := Option.map_eq_some_iff.mp hread
    obtain ⟨hvalue, hbuf⟩ := Prod.mk.inj heq
    obtain rfl : buf = bytes ++ rest := hbuf
    refine ⟨first ++ bytes, v' :: vals', ?_, ?_, ?_⟩
    · rw [storeElements, hfirst, hstore]
      rfl
    · rw [List.append_assoc, List.length_cons, fetchElements, hnext, Option.bind_eq_bind, Option.bind_some]
      dsimp only
      rw [hfetch, List.map_cons, ← hvalue]
      rfl
    · rw [List.map_cons, List.map_cons, hsame, hnormal]

/-- **An array comes back** from the bytes that it is stored as, whatever follows them. -/
theorem dbFetchArrayData_dbStoreArrayData (hkept : ∀ v ∈ vals, Kept mathMode v ∧ v.Valid)
    (hlen : vals.length < 2 ^ 31) (slack : ℕ → ℕ) (slacks : ℕ → ℕ → ℕ) : ∃ (bytes : List UInt8) (vals' : List Value),
      dbStoreArrayData vals (fun i => some (slack i)) = some bytes ∧
      dbFetchArrayData mathMode (fun i j => some (slacks i j)) (bytes ++ rest) = some (vals'.map some) ∧
      vals'.map Value.normal = vals.map Value.normal := by
  obtain ⟨bytes, vals', hstore, hfetch, hnormal⟩ := fetchElements_storeElements hkept rest slack slacks
  refine ⟨setElement .array [] vals.length ++ bytes, vals', ?_, ?_, hnormal⟩
  · rw [dbStoreArrayData, hstore]
    rfl
  · rw [dbFetchArrayData, List.append_assoc, hasNext_length (.inl rfl) (Int.natCast_nonneg _) (by omega),
      Option.bind_eq_bind]
    exact hfetch

/-- An array of a null, a number and a large integer; another byte follows. -/
theorem array_comesBack : ∃ (bytes : List UInt8) (vals' : List Value),
    dbStoreArrayData [.null, .int 7, .bigInt (2 ^ 60)] (fun _ => some 0) = some bytes ∧
    dbFetchArrayData false (fun _ _ => some 0) (bytes ++ [5]) = some (vals'.map some) ∧
    vals'.map Value.normal = [.null, .int 7, .bigInt (2 ^ 60)].map Value.normal :=
  dbFetchArrayData_dbStoreArrayData (by simp [Kept, Value.Valid]) (by simp) (fun _ => 0) fun _ _ => 0

/-! ## Keys -/

/-- A key has characters of 16 bits, none of them 0, and is not empty; `db_store_atom` has room for it, unless it is
returned as it is, which ASCII strings are. -/
structure Spelled (str : Atom.JSString) : Prop where
  ne_nil : str.chars ≠ []
  units : ∀ c ∈ str.chars, c ≠ 0 ∧ c < 2 ^ 16
  length_le : str.chars.length ≤ JSString.JS_STRING_LEN_MAX
  room : str.isWideChar = false ∧ (∀ c ∈ str.chars, c < 0x80) ∨
    (str.chars.dropLast.flatMap Utf8.unicodeToUtf8).length < 1024 - 2 - 6

/-- The text of a key that is no tagged integer is spelled. -/
def KeyKept (s : Atom.JSRuntime) (atom : ℕ) : Prop :=
  atom < Atom.jsAtomTagInt → ∀ str, s.atom atom = some str → Spelled str

section

variable {s : Atom.JSRuntime} {atom : ℕ} {str : Atom.JSString} {key : List ℕ}

theorem foldl_or_lt_iff {k a : ℕ} {l : List ℕ} : l.foldl (· ||| ·) a < 2 ^ k ↔ a < 2 ^ k ∧ ∀ c ∈ l, c < 2 ^ k := by
  induction l generalizing a with
  | nil => simp
  | cons c l ih =>
    rw [List.foldl_cons, ih, List.forall_mem_cons, ← and_assoc]
    refine and_congr_left fun _ => ⟨fun h => ?_, fun h => Nat.or_lt_two_pow h.1 h.2⟩
    exact ⟨Nat.left_le_or.trans_lt h, Nat.right_le_or.trans_lt h⟩

/-- ASCII is its own UTF-8. -/
theorem map_byte_ascii (h : ∀ c ∈ key, c < 0x80) : key.map Utf8.byte = key.flatMap Utf8.unicodeToUtf8 := by
  rw [List.map_eq_flatMap]
  exact List.flatMap_congr fun c hc => (Utf8.unicodeToUtf8_ascii (h c hc)).symm

/-- The loop ends early only when the buffer is full before the last character. -/
theorem atomChars_eq {bufSize n : ℕ} (h : n + (key.dropLast.flatMap Utf8.unicodeToUtf8).length < bufSize - 6) :
    atomChars bufSize n key = key.flatMap Utf8.unicodeToUtf8 := by
  induction key generalizing n with
  | nil => rfl
  | cons c key ih =>
    rw [atomChars, if_neg (by omega), List.flatMap_cons]
    cases key with
    | nil => rfl
    | cons d key =>
      rw [List.dropLast_cons_cons, List.flatMap_cons, List.length_append] at h
      rw [ih (by omega)]

theorem ne_zero_of_mem_unicodeToUtf8 (hc : c ≠ 0) (h16 : c < 2 ^ 16)
    (h : d ∈ Utf8.unicodeToUtf8 c) : d.toNat ≠ 0 := by
  have hbyte : ∀ k, 0 < k → k < 256 → (Utf8.byte k).toNat ≠ 0 := fun k hk hlt => by
    rw [Utf8.toNat_byte hlt]
    exact hk.ne'
  unfold Utf8.unicodeToUtf8 at h
  split_ifs at h <;> simp only [List.mem_cons, List.not_mem_nil, or_false] at h
  · rw [h]
    exact hbyte _ (by omega) (by omega)
  · rcases h with rfl | rfl <;> exact hbyte _ (by omega) (by omega)
  · rcases h with rfl | rfl | rfl <;> exact hbyte _ (by omega) (by omega)
  all_goals omega

theorem length_flatMap_le (key : List ℕ) (h : ∀ c ∈ key, c < 2 ^ 16) :
    (key.flatMap Utf8.unicodeToUtf8).length ≤ 3 * key.length := by
  induction key with
  | nil => exact Nat.zero_le _
  | cons c key ih =>
    obtain ⟨hc, hkey⟩ := List.forall_mem_cons.mp h
    have hle := ih hkey
    rw [List.flatMap_cons, List.length_append, List.length_cons, NewString.length_unicodeToUtf8 (by omega)]
    split_ifs <;> omega

/-- What is read of the UTF-8 of code units. -/
theorem decode_units (h : ∀ c ∈ key, c < 2 ^ 16) :
    NewString.decode (key.flatMap Utf8.unicodeToUtf8) = key := by
  have hput : ∀ c ∈ key, (Utf8.stringBufferPutc c).map UInt16.toNat = [c] := by
    intro c hc
    have hlt := h c hc
    rw [Utf8.stringBufferPutc, if_neg (by omega), List.map_singleton, Utf8.toNat_ofNat_unit hlt]
  have hmax : ∀ c ∈ key, c ≤ 0x10ffff := fun c hc => by
    have hlt := h c hc
    omega
  rw [NewString.decode_flatMap _ hmax, List.flatMap_congr hput, List.flatMap_singleton']

/-- The digits of a number. -/
theorem decimal_digits {n : ℕ} (hn : n < 10 ^ 10) :
    (∀ c ∈ Atom.decimal n, 48 ≤ c ∧ c < 58) ∧ (Atom.decimal n).length ≤ 10 := by
  rw [Atom.decimal]
  split
  · simp
  · have hlength : (Nat.digits 10 n).length ≤ 10 := (Nat.digits_length_le_iff (by decide) n).mpr hn
    refine ⟨fun c hc => ?_, by rwa [List.length_map, List.length_reverse]⟩
    obtain ⟨d, hd, rfl⟩ := List.mem_map.mp hc
    have hlt := Nat.digits_lt_base (by decide) (List.mem_reverse.mp hd)
    omega

/-- What a key is stored as: its code units in UTF-8. -/
structure Written (s : Atom.JSRuntime) (atom : ℕ) (key : List ℕ) : Prop where
  text : jsAtomGetStr s (1024 - 2) atom = key.flatMap Utf8.unicodeToUtf8
  ne_nil : key ≠ []
  units : ∀ c ∈ key, c ≠ 0 ∧ c < 2 ^ 16
  length_lt : (key.flatMap Utf8.unicodeToUtf8).length < 2 ^ 31

theorem written_tagged {n : ℕ} (hn : n < 2 ^ 31) : Written s (Atom.jsAtomTagInt + n) (Atom.decimal n) := by
  obtain ⟨hdigits, hlength⟩ := decimal_digits (hn.trans (by decide) : n < 10 ^ 10)
  have hascii : ∀ c ∈ Atom.decimal n, c < 0x80 := fun c hc => by
    have hdigit := hdigits c hc
    omega
  have hunits : ∀ c ∈ Atom.decimal n, c ≠ 0 ∧ c < 2 ^ 16 := fun c hc => by
    have hdigit := hdigits c hc
    omega
  refine ⟨?_, Atom.decimal_ne_nil n, hunits, ?_⟩
  · rw [jsAtomGetStr, if_pos (Nat.le_add_right _ _), Nat.add_sub_cancel_left, ← map_byte_ascii hascii]
    exact List.take_of_length_le (by rw [List.length_map]; omega)
  · have hle := length_flatMap_le _ fun c hc => (hunits c hc).2
    omega

theorem written_of_spelled (h : Spelled str) (hatom : s.atom atom = some str) (h0 : atom ≠ 0)
    (htag : atom < Atom.jsAtomTagInt) : Written s atom str.chars := by
  have hall : ∀ c ∈ str.chars, c < 2 ^ 16 := fun c hc => (h.units c hc).2
  have hascii : str.chars.foldl (· ||| ·) 0 < 0x80 ↔ ∀ c ∈ str.chars, c < 0x80 :=
    (foldl_or_lt_iff (k := 7)).trans (and_iff_right (by decide))
  refine ⟨?_, h.ne_nil, h.units, ?_⟩
  · rw [jsAtomGetStr, if_neg (Nat.not_le.mpr htag), if_neg h0, hatom]
    dsimp only
    split
    · rename_i hnarrow
      exact map_byte_ascii (hascii.mp hnarrow.2)
    · rename_i hcopied
      refine atomChars_eq ?_
      rw [zero_add]
      exact h.room.resolve_left fun hnarrow => hcopied ⟨hnarrow.1, hascii.mpr hnarrow.2⟩
  · rcases h.room with ⟨-, hsmall⟩ | hroom
    · have hmax := h.length_le
      rw [← map_byte_ascii hsmall, List.length_map]
      rw [JSString.JS_STRING_LEN_MAX] at hmax
      omega
    · -- one character more than what is within the room
      obtain ⟨front, last, heq⟩ := List.eq_nil_or_concat str.chars |>.resolve_left h.ne_nil
      have hlast : last < 2 ^ 16 := hall last (by rw [heq]; simp)
      rw [heq, List.concat_eq_append, List.dropLast_concat] at hroom
      have hbytes := NewString.length_unicodeToUtf8 (n := last) (by omega)
      rw [heq, List.concat_eq_append, List.flatMap_append, List.length_append, List.flatMap_singleton, hbytes]
      split_ifs <;> omega

/-- A key that is kept is written in UTF-8. -/
theorem KeyKept.written (h : KeyKept s atom) (hkey : Atom.stringAtom s atom = some key) (h0 : s.atom 0 = none) :
    Written s atom key := by
  rw [Atom.stringAtom] at hkey
  split at hkey
  · rename_i htag
    split at hkey
    · rename_i hlt
      obtain rfl := Option.some.inj hkey
      obtain ⟨n, rfl⟩ := Nat.exists_eq_add_of_le htag
      rw [Nat.add_sub_cancel_left]
      refine written_tagged ?_
      rw [Atom.jsAtomTagInt] at hlt
      omega
    · cases hkey
  · rename_i htag
    obtain ⟨str, hatom, hkey⟩ := Option.bind_eq_some_iff.mp hkey
    split at hkey
    · obtain rfl := Option.some.inj hkey
      have hne : atom ≠ 0 := by
        rintro rfl
        rw [h0] at hatom
        cases hatom
      exact written_of_spelled (h (Nat.lt_of_not_le htag) str hatom) hatom hne (Nat.lt_of_not_le htag)
    · cases hkey

/-- The element of a key. -/
theorem Written.hasNext (h : Written s atom key) : hasNext (dbStoreAtom s atom ++ rest) =
    some (⟨DybaseType.chars.code, bytesOf (key.flatMap Utf8.unicodeToUtf8),
      (key.flatMap Utf8.unicodeToUtf8).length⟩, rest) := by
  have hstrlen : (key.flatMap Utf8.unicodeToUtf8).takeWhile (fun c => decide (c.toNat ≠ 0)) =
      key.flatMap Utf8.unicodeToUtf8 := by
    rw [List.takeWhile_eq_self_iff]
    intro d hd
    obtain ⟨c, hc, hd⟩ := List.mem_flatMap.mp hd
    exact decide_eq_true (ne_zero_of_mem_unicodeToUtf8 (h.units c hc).1 (h.units c hc).2 hd)
  have hlength : (bytesOf (key.flatMap Utf8.unicodeToUtf8)).length =
      ((key.flatMap Utf8.unicodeToUtf8).length : ℤ).toNat := length_bytesOf _
  have hlt := h.length_lt
  rw [dbStoreAtom, h.text, hstrlen, int32_length hlt]
  exact hasNext_bytes (.inl rfl) hlength (by omega) (by omega)

/-- **A key that is kept comes back** as an atom, of whatever runtime, unless a narrow atom has its bytes for
characters. -/
theorem Written.fetchAtom {predefined emptyString : ℕ} {w : Atom.World} {alloc : Atom.AllocLen}
    (h : Written s atom key) (hw : Atom.Ready predefined emptyString w)
    (hspell : ¬Atom.Misspelled w.rt (bytesOf (key.flatMap Utf8.unicodeToUtf8))) (hfresh : alloc.Fresh w.rt) :
    ∃ e, Storage.hasNext (dbStoreAtom s atom ++ rest) = some (e, rest) ∧
      ((dbFetchAtom predefined emptyString w.rt e alloc).2 ≠ 0 →
        Atom.stringAtom (dbFetchAtom predefined emptyString w.rt e alloc).1
          (dbFetchAtom predefined emptyString w.rt e alloc).2 = some key) := by
  refine ⟨_, h.hasNext, ?_⟩
  have hne : ((key.flatMap Utf8.unicodeToUtf8).length : ℤ) ≠ 0 := by
    have hpos : key.flatMap Utf8.unicodeToUtf8 ≠ [] := fun hnil => h.ne_nil <| by
      rw [← decode_units fun c hc => (h.units c hc).2, hnil, NewString.decode_nil]
    exact_mod_cast (List.length_pos_of_ne_nil hpos).ne'
  rw [dbFetchAtom, if_neg hne]
  have hinterns := Atom.jsNewAtomLen_spec hw.inv.table hw.inv.counted hw.empty hfresh hspell
  have hdecode : NewString.decode (Atom.utf8 (bytesOf (key.flatMap Utf8.unicodeToUtf8))) = key := by
    rw [utf8_bytesOf fun c => lt_of_mem_flatMap, decode_units fun c hc => (h.units c hc).2]
  rw [hdecode] at hinterns
  exact hinterns.atom

end

/-! ## The storage -/

/-- **Stored values come back** if they have room; undefined comes back as null, a string that is too long for
`JS_ToCStringLen` is reported. A key that is kept comes back as an atom of its characters. -/
theorem stored_comesBack (mathMode : Bool) :
    (∀ v : Value, v.Valid → Kept mathMode v → FetchedAs mathMode v v) ∧ FetchedAs mathMode .undefined .null ∧
    (∀ (s : List UInt16) (answer : Option ℕ), s.length ≤ JSString.JS_STRING_LEN_MAX → 2 ^ 31 ≤ 3 * s.length →
      (dbTransform (.string (.str16 s)) answer).2 = true) ∧
    ∀ (s w : Atom.World) (predefined emptyString atom : ℕ) (key : List ℕ) (alloc : Atom.AllocLen) (rest : List UInt8),
      Atom.Ready predefined emptyString s → Atom.Ready predefined emptyString w →
      Atom.stringAtom s.rt atom = some key → KeyKept s.rt atom →
      ¬Atom.Misspelled w.rt (bytesOf (key.flatMap Utf8.unicodeToUtf8)) → alloc.Fresh w.rt →
      ∃ e, hasNext (dbStoreAtom s.rt atom ++ rest) = some (e, rest) ∧
        ((dbFetchAtom predefined emptyString w.rt e alloc).2 ≠ 0 →
          Atom.stringAtom (dbFetchAtom predefined emptyString w.rt e alloc).1
            (dbFetchAtom predefined emptyString w.rt e alloc).2 = some key) := by
  refine ⟨fun v hvalid hkept => hkept.fetchedAs hvalid, fetchedAs_null fun _ => rfl, fun s answer hlen hlong => ?_,
    fun s w predefined emptyString atom key alloc rest hs hw hkey hkept hspell hfresh => ?_⟩
  · have htext := JSString.jsToCStringLen2_overflow hlen hlong false answer
    rw [dbTransform, htext]
  · have hnull : s.rt.atom 0 = none := by
      cases hatom : s.rt.atom 0 with
      | none => rfl
      | some a => exact absurd (hs.inv.table.atom_lt hatom).1 (Nat.lt_irrefl 0)
    exact (hkept.written hkey hnull).fetchAtom hw hspell hfresh

theorem stored_date : FetchedAs false (.date (.finite (1700000000000 : ℤ))) (.date (.finite (1700000000000 : ℤ))) ∧
    FetchedAs false (.string (.str16 [0x20ac, 0xd800])) (.string (.str16 [0x20ac, 0xd800])) ∧
    FetchedAs false .undefined .null := by
  obtain ⟨hvalues, hundefined, -⟩ := stored_comesBack false
  refine ⟨hvalues _ trivial ⟨_, rfl, dateKept_intCast (by norm_num) (by norm_num)⟩, hvalues _ ?_ ?_, hundefined⟩
  · show [0x20ac, 0xd800].length ≤ _
    decide
  · exact ⟨by decide, by decide, .inr (by decide)⟩

/-- Undefined comes back as null, and nothing is reported. -/
theorem not_stored_undefined : ¬∀ v : Value, v.Valid →
    (∀ slack, (dbTransform v (some slack)).2 = true) ∨ FetchedAs false v v := by
  intro h
  rcases h .undefined trivial with hreported | hback
  · exact Bool.false_ne_true (hreported 0)
  · have hnull := hback.unique (fetchedAs_null fun _ => rfl)
    cases hnull

end QuickJs.StoredValue
