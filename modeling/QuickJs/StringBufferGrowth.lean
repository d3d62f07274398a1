import QuickJs.CStringExact

/-!
# String buffers with enough memory

Where the allocator gives what it is asked for, an operation on a string buffer succeeds as long as the string stays
within the limit. A narrow buffer must not have more room than the limit, for it is made wide with the room it has.
-/

namespace QuickJs.JSString.StringBuffer

variable {s : StringBuffer} {r : Bool × StringBuffer} {f : StringBuffer → Bool × StringBuffer}

/-- The buffer has not failed and can be made wide. -/
structure Ready (s : StringBuffer) : Prop where
  ok : s.errorStatus = false
  narrow : s.isWideChar = true ∨ s.size ≤ JS_STRING_LEN_MAX

/-- The operation succeeds. -/
structure Succeeds (r : Bool × StringBuffer) : Prop where
  ok : r.1 = true
  ready : Ready r.2

theorem Succeeds.andThen (hr : Succeeds r) (hf : Succeeds (f r.2)) : Succeeds (StringBuffer.andThen r f) := by
  rw [StringBuffer.andThen, if_pos hr.ok]
  exact hf

section

variable (h : Ready s)

include h

theorem Ready.succeeds : Succeeds (true, s) := ⟨rfl, h⟩

theorem Ready.append8 (p : List UInt8) : Succeeds (s.append8 p) := by
  refine ⟨rfl, h.ok, h.narrow.imp_left fun hwide => ?_⟩
  rw [isWideChar] at hwide
  cases hstr : s.str with
  | str8 t =>
    rw [hstr] at hwide
    cases hwide
  | str16 t =>
    rw [StringBuffer.append8, hstr]
    rfl

theorem Ready.append16 (p : List UInt16) : Succeeds (s.append16 p) := by
  refine ⟨rfl, h.ok, h.narrow.imp_left fun hwide => ?_⟩
  rw [isWideChar] at hwide
  cases hstr : s.str with
  | str8 t =>
    rw [hstr] at hwide
    cases hwide
  | str16 t =>
    rw [StringBuffer.append16, hstr]
    rfl

theorem Ready.widen {size : ℤ} (h₀ : 0 ≤ size) (hsize : size ≤ JS_STRING_LEN_MAX) (slack : ℕ) :
    Succeeds (s.widen size (some slack)) := by
  have hmalloc : jsMalloc (stringBytes size true) (some slack) = some slack :=
    jsMalloc_wide h₀ (by rw [JS_STRING_LEN_MAX] at hsize; omega)
  rw [StringBuffer.widen, h.ok, hmalloc]
  exact ⟨rfl, rfl, .inl rfl⟩

/-- The memory grows to a length within the limit. -/
theorem Ready.realloc {newLen : ℤ} (h₀ : 0 ≤ newLen) (hlen : newLen ≤ JS_STRING_LEN_MAX) (c slack : ℕ) :
    Succeeds (s.realloc newLen c (some slack)) := by
  rw [StringBuffer.realloc, h.ok, if_neg Bool.false_ne_true, if_neg (Int.not_lt.mpr hlen)]
  dsimp only
  generalize hsize : min (max newLen ((int32 (s.size * 3)).tdiv 2)) (JS_STRING_LEN_MAX : ℤ) = newSize
  have hmax : newSize ≤ JS_STRING_LEN_MAX := hsize ▸ min_le_right _ _
  have hzero : 0 ≤ newSize := hsize ▸ le_min (le_max_of_le_left h₀) (h₀.trans hlen)
  split
  · exact h.widen hzero hmax slack
  · have hmalloc : jsMalloc (stringBytes newSize s.isWideChar) (some slack) = some slack := by
      cases s.isWideChar with
      | false => exact jsMalloc_narrow hzero
      | true => exact jsMalloc_wide hzero (by rw [JS_STRING_LEN_MAX] at hmax; omega)
    rw [hmalloc]
    exact ⟨rfl, rfl, .inr (min_le_right _ _)⟩

/-- The memory grows if it has to. -/
theorem Ready.grow (cond : Prop) [Decidable cond] {newLen : ℤ} (h₀ : 0 ≤ newLen)
    (hlen : newLen ≤ JS_STRING_LEN_MAX) (c slack : ℕ) :
    Succeeds (if cond then s.realloc newLen c (some slack) else (true, s)) := by
  split
  · exact h.realloc h₀ hlen c slack
  · exact h.succeeds

/-- A character of more than 8 bits finds a wide buffer when the memory has grown for it. -/
theorem Ready.putcSlow (hlen : s.len + 1 ≤ JS_STRING_LEN_MAX) (c : UInt16) (slack : ℕ) :
    Succeeds (s.putcSlow c (some slack)) := by
  rw [StringBuffer.putcSlow]
  have hpush : ∀ t : StringBuffer, Ready t → (¬(t.isWideChar || c.toNat < 0x100) = true → 0 ≤ t.size) →
      Succeeds (if t.isWideChar || c.toNat < 0x100 then t.append16 [c]
        else StringBuffer.andThen (t.widen t.size (some slack)) fun s => s.append16 [c]) := by
    intro t ht hzero
    split
    · exact ht.append16 [c]
    · rename_i hnarrow
      have hsize := ht.narrow.resolve_left fun hwide => hnarrow (by rw [hwide]; rfl)
      have hwiden := ht.widen (hzero hnarrow) hsize slack
      exact hwiden.andThen (hwiden.ready.append16 [c])
  by_cases hfull : s.size ≤ s.len
  · have hmax : (s.len + 1 : ℤ) ≤ JS_STRING_LEN_MAX := by exact_mod_cast hlen
    have hgrow := h.realloc (by omega) hmax c.toNat slack
    rw [if_pos hfull]
    refine hgrow.andThen (hpush _ hgrow.ready fun hnarrow => absurd ?_ hnarrow)
    by_cases hc : c.toNat < 0x100
    · rw [decide_eq_true hc, Bool.or_true]
    · rw [(grows_realloc s (s.len + 1) c.toNat (some slack)).wide hgrow.ok (.inr (Nat.le_of_not_lt hc)), Bool.true_or]
  · rw [if_neg hfull]
    exact h.succeeds.andThen (hpush s h fun _ => by omega)

theorem Ready.putc16 (hlen : s.len + 1 ≤ JS_STRING_LEN_MAX) (c : UInt16) (slack : ℕ) :
    Succeeds (s.putc16 c (some slack)) := by
  rw [StringBuffer.putc16]
  split
  · exact h.append16 [c]
  · exact h.putcSlow hlen c slack

theorem Ready.write8 {p : List UInt8} (hlen : s.len + p.length ≤ JS_STRING_LEN_MAX) (slack : ℕ) :
    Succeeds (s.write8 p (some slack)) := by
  have hint : int32 (s.len + p.length) = s.len + p.length :=
    int32_eq (by omega) (by rw [JS_STRING_LEN_MAX] at hlen; omega)
  have hmax : (s.len + p.length : ℤ) ≤ JS_STRING_LEN_MAX := by exact_mod_cast hlen
  have hgrow := h.grow (s.size < s.len + p.length) (by omega) hmax 0 slack
  rw [StringBuffer.write8, hint]
  exact hgrow.andThen (hgrow.ready.append8 p)

/-- Both halves of a surrogate pair find room. -/
theorem Ready.putc {c : ℕ} (hlen : s.len + (Utf8.stringBufferPutc c).length ≤ JS_STRING_LEN_MAX)
    (slacks : ℕ → ℕ) : Succeeds (s.putc c fun i => some (slacks i)) := by
  rw [Utf8.stringBufferPutc] at hlen
  rw [StringBuffer.putc]
  split at hlen
  · rename_i hpair
    rw [if_pos hpair]
    have hfirst := h.putc16 (Nat.le_of_succ_le hlen) (.ofNat ((c - 0x10000) / 2 ^ 10 + 0xd800)) (slacks 0)
    refine hfirst.andThen (hfirst.ready.putc16 ?_ _ _)
    rw [len, Chars.len, (adds_putc16 s _ _).units hfirst.ok, List.length_append, List.length_singleton]
    exact hlen
  · rename_i hunit
    rw [if_neg hunit]
    exact h.putc16 hlen _ _

theorem Ready.putc8 (hlen : s.len + 1 ≤ JS_STRING_LEN_MAX) (c : UInt8) (slack : ℕ) :
    Succeeds (s.putc8 c (some slack)) := by
  have hmax : (s.len + 1 : ℤ) ≤ JS_STRING_LEN_MAX := by exact_mod_cast hlen
  have hgrow := h.grow (s.size ≤ s.len) (by omega) hmax c.toNat slack
  exact hgrow.andThen (hgrow.ready.append8 [c])

theorem Ready.write16 {p : List UInt16} (hlen : s.len + p.length ≤ JS_STRING_LEN_MAX) (slack : ℕ) :
    Succeeds (s.write16 p (some slack)) := by
  have hint : int32 (s.len + p.length) = s.len + p.length :=
    int32_eq (by omega) (by rw [JS_STRING_LEN_MAX] at hlen; omega)
  have hmax : (s.len + p.length : ℤ) ≤ JS_STRING_LEN_MAX := by exact_mod_cast hlen
  rw [StringBuffer.write16, hint]
  generalize (p.map UInt16.toNat).foldr (· ||| ·) 0 = c
  have hgrow : Succeeds (if s.size < s.len + p.length then s.realloc (s.len + p.length) c (some slack)
      else if !s.isWideChar && 0x100 ≤ c then s.widen s.size (some slack) else (true, s)) := by
    split
    · exact h.realloc (by omega) hmax c slack
    split
    · rename_i hfits hwide
      have hnarrow : s.isWideChar ≠ true := by
        intro htrue
        rw [htrue] at hwide
        cases hwide
      exact h.widen (by omega) (h.narrow.resolve_left hnarrow) slack
    · exact h.succeeds
  exact hgrow.andThen (hgrow.ready.append16 p)

theorem Ready.concat {p : Chars} {start stop : ℕ} (hlen : s.len + (stop - start) ≤ JS_STRING_LEN_MAX)
    (slack : ℕ) : Succeeds (s.concat p start stop (some slack)) := by
  unfold StringBuffer.concat
  split
  · exact h.succeeds
  · cases p with
    | str8 t => exact h.write8 (by rw [List.length_take]; omega) slack
    | str16 t => exact h.write16 (by rw [List.length_take]; omega) slack

theorem Ready.concatValue {p : Chars} (hlen : s.len + p.len ≤ JS_STRING_LEN_MAX) (slack : ℕ) :
    Succeeds (s.concatValue (some p) (some slack)) := by
  rw [StringBuffer.concatValue, h.ok]
  exact h.concat hlen slack

end

theorem ready_init2 (slack : ℕ) : Ready (init2 0 false (some slack)) := by
  exact ⟨rfl, .inr (Int.natCast_nonneg _)⟩

end QuickJs.JSString.StringBuffer
