import QuickJs.StringBufferGrowth
import QuickJs.UriExact

/-!
# The codecs of URIs and escapes are inverse

What is encoded is decoded again, and what is escaped is unescaped. A function fails where there is no memory for its
result, or where the result is too long; the buffer keeps its error to the end, so it is never a part of the result
that is returned.
-/

namespace QuickJs.Uri

open JSString Utf8 StringBuffer

variable {b : StringBuffer} {w : Write} {ws : List Write} {size : ℕ} {s t : List UInt16} {cs : List ℕ} {c : ℕ}
  {isComponent : Bool}

/-! ## The buffer -/

theorem adds_apply (w : Write) (b : StringBuffer) (answer : ℕ → Option ℕ) : Adds w.units b (w.apply b answer) := by
  cases w with
  | putc16 c => exact adds_putc16 b c _
  | write8 p => exact adds_write8 b p _
  | putc c => exact adds_putc b c answer

variable {answer : ℕ → Option ℕ} {p : Chars}

/-- What a call adds, unless the buffer has failed. -/
theorem units_apply (h : (w.apply b answer).2.errorStatus = false) :
    b.errorStatus = false ∧ (w.apply b answer).2.str.units = b.str.units ++ w.units := by
  have hadds := adds_apply w b answer
  cases hok : (w.apply b answer).1 with
  | false => exact absurd (hadds.failed hok) (Bool.eq_false_iff.mp h)
  | true => exact ⟨(hadds.error hok).symm.trans h, hadds.units hok⟩

theorem units_writeAll (h : (writeAll ws answer b).errorStatus = false) :
    b.errorStatus = false ∧ (writeAll ws answer b).str.units = b.str.units ++ written ws := by
  induction ws generalizing answer b with
  | nil => exact ⟨h, (List.append_nil _).symm⟩
  | cons w ws ih =>
    obtain ⟨happly, hunits⟩ := ih h
    obtain ⟨hb, hw⟩ := units_apply happly
    refine ⟨hb, ?_⟩
    rw [writeAll, hunits, hw, List.append_assoc, written_cons]

theorem succeeds_apply (hb : Ready b) (hlen : b.len + w.units.length ≤ JS_STRING_LEN_MAX) (slacks : ℕ → ℕ) :
    Succeeds (w.apply b fun i => some (slacks i)) := by
  cases w with
  | putc16 c => exact hb.putc16 hlen c _
  | write8 p =>
    rw [Write.units, List.length_map] at hlen
    exact hb.write8 hlen _
  | putc c => exact hb.putc hlen slacks

theorem ready_writeAll (hb : Ready b) (hlen : b.len + (written ws).length ≤ JS_STRING_LEN_MAX) (slacks : ℕ → ℕ) :
    Ready (writeAll ws (fun i => some (slacks i)) b) := by
  induction ws generalizing slacks b with
  | nil => exact hb
  | cons w ws ih =>
    rw [written_cons, List.length_append, ← Nat.add_assoc] at hlen
    have happly := (succeeds_apply hb (Nat.le_of_add_right_le hlen) slacks).ready
    refine ih happly ?_ _
    rw [len, Chars.len, (units_apply happly.ok).2, List.length_append]
    exact hlen

theorem finish_eq_some (h : b.finish = some p) : b.errorStatus = false ∧ p.units = b.str.units := by
  rw [finish] at h
  split at h
  · cases h
  · rename_i hok
    refine ⟨Bool.eq_false_iff.mpr hok, ?_⟩
    split at h <;> cases h
    · rename_i hlen
      exact (List.eq_nil_of_length_eq_zero hlen).symm
    · rfl

/-! ## The functions -/

/-- The function returns the code units, or there is no memory for them. -/
structure Gives (us : List UInt16) (run : (ℕ → Option ℕ) → Except Exn Chars) : Prop where
  returned : ∀ answer p, run answer = .ok p → p.units = us
  thrown : ∀ answer e, run answer = .error e → e = .buffer
  granted : us.length ≤ JS_STRING_LEN_MAX → ∀ slacks : ℕ → ℕ, ∃ p, run (fun i => some (slacks i)) = .ok p

theorem gives_build (hsize : size ≤ (written ws).length) : Gives (written ws) (build size (.ok ws)) where
  returned answer p h := by
    rw [build] at h
    split at h <;> cases h
    rename_i hfinish
    obtain ⟨hok, hunits⟩ := finish_eq_some hfinish
    rw [hunits, (units_writeAll hok).2, units_init2, List.nil_append]
  thrown answer e h := by
    rw [build] at h
    split at h <;> cases h
    rfl
  granted hlen slacks := by
    have hinit : Ready (.init2 size false (some (slacks 0))) := by
      rw [init2_ok (Int.natCast_nonneg size)]
      exact ⟨rfl, .inr (Int.ofNat_le.mpr (Nat.le_trans hsize hlen))⟩
    have hlen : (StringBuffer.init2 size false (some (slacks 0))).len + (written ws).length ≤ JS_STRING_LEN_MAX := by
      rwa [len, Chars.len, units_init2, List.length_nil, Nat.zero_add]
    have hready := ready_writeAll hinit hlen fun i => slacks (i + 1)
    rw [build]
    rw [finish, hready.ok, if_neg Bool.false_ne_true]
    split
    · rename_i hnone
      split at hnone <;> cases hnone
    · exact ⟨_, rfl⟩

theorem length_written_le (h : ∀ w ∈ ws, 1 ≤ w.units.length) : ws.length ≤ (written ws).length := by
  induction ws with
  | nil => exact Nat.le_refl _
  | cons w ws ih =>
    obtain ⟨hw, hws⟩ := List.forall_mem_cons.mp h
    rw [written_cons, List.length_append, List.length_cons, Nat.add_comm]
    exact Nat.add_le_add hw (ih hws)

theorem length_encodeURIHex (c : ℕ) : 1 ≤ (encodeURIHex c).units.length := by
  exact Nat.le_add_left ..

theorem length_escaped (bs : List ℕ) : bs.length ≤ (bs.flatMap escaped).length := by
  induction bs with
  | nil => exact Nat.le_refl _
  | cons b bs ih =>
    rw [List.flatMap_cons, List.length_append, List.length_cons, Nat.add_comm]
    exact Nat.add_le_add (by decide : 1 ≤ 3) ih

/-- A code point does not get shorter. -/
theorem length_encoded (hc : Scalar c) : (stringBufferPutc c).length ≤ (encoded isComponent c).length := by
  rw [encoded]
  split
  · rename_i h
    have hlt := lt_of_isURIUnescaped h
    rw [stringBufferPutc, if_neg (by omega)]
  · have hbytes : (stringBufferPutc c).length ≤ (utf8 c).length := by
      have hmax := hc.1
      rw [utf8, List.length_map, unicodeToUtf8, stringBufferPutc]
      split_ifs <;> simp only [List.length_cons] <;> omega
    exact Nat.le_trans hbytes (length_escaped _)

theorem length_flatMap_encoded (isComponent : Bool) (hs : ∀ c ∈ cs, Scalar c) :
    (cs.flatMap stringBufferPutc).length ≤ (cs.flatMap (encoded isComponent)).length := by
  induction cs with
  | nil => exact Nat.le_refl _
  | cons c cs ih =>
    obtain ⟨hc, hcs⟩ := List.forall_mem_cons.mp hs
    rw [List.flatMap_cons, List.flatMap_cons, List.length_append, List.length_append]
    exact Nat.add_le_add (length_encoded hc) (ih hcs)

theorem gives_encode (isComponent : Bool) (hp : WellFormed p.units) :
    Gives ((codePoints p.units).flatMap (encoded isComponent)) (jsGlobalEncodeURI isComponent p) := by
  obtain ⟨ws, hws, hwritten⟩ := encodeLoop_wellFormed isComponent hp
  have hlen : p.len ≤ (written ws).length := by
    have h := length_flatMap_encoded isComponent hp
    rw [flatMap_codePoints, ← hwritten] at h
    exact h
  have hgives := gives_build hlen
  rw [hwritten, ← hws] at hgives
  exact hgives

theorem written_putc (cs : List ℕ) : written (cs.map .putc) = cs.flatMap stringBufferPutc := by
  rw [written, List.flatMap_map]
  rfl

theorem gives_decode (h : Reads isComponent p.units cs) :
    Gives (cs.flatMap stringBufferPutc) (jsGlobalDecodeURI isComponent p) := by
  have hgives : Gives (written (cs.map .putc)) (build 0 _) := gives_build (Nat.zero_le _)
  have hrun : jsGlobalDecodeURI isComponent p = build 0 (.ok (cs.map .putc)) := by
    funext answer
    rw [jsGlobalDecodeURI, decodeLoop_of_reads h]
    rfl
  rwa [hrun, ← written_putc]

/-- What says nothing is an error. -/
theorem uriError_of_not_reads (h : ∀ cs, ¬Reads isComponent p.units cs) :
    ∃ msg, ∀ answer, jsGlobalDecodeURI isComponent p answer = .error (.uriError msg) := by
  match hloop : decodeLoop isComponent p.units with
  | .ok cs => exact absurd (reads_of_decodeLoop hloop) (h cs)
  | .error msg =>
    refine ⟨msg, fun answer => ?_⟩
    rw [jsGlobalDecodeURI, hloop]
    rfl

theorem gives_escape (p : Chars) : Gives
    (written (p.units.map fun u => if isUnescaped u.toNat then .putc16 u else encodeURIHex u.toNat)) (jsGlobalEscape p) := by
  refine gives_build (Nat.le_trans (Nat.le_of_eq (List.length_map _).symm) (length_written_le ?_))
  intro w hw
  obtain ⟨u, -, rfl⟩ := List.mem_map.mp hw
  split
  · exact Nat.le_refl _
  · exact length_encodeURIHex _

theorem written_putc16 (s : List UInt16) : written (s.map .putc16) = s := by
  rw [written, List.flatMap_map]
  exact List.flatMap_singleton' s

theorem gives_unescape (p : Chars) : Gives (unescapeLoop p.units) (jsGlobalUnescape p) := by
  have hgives : Gives (written ((unescapeLoop p.units).map .putc16)) (build 0 _) := gives_build (Nat.zero_le _)
  rwa [written_putc16] at hgives

/-- **The codecs are inverse**: a string without lone surrogates comes back from its encoding, any string comes back
from its escape, and what the decoder accepts beyond ASCII is the shortest form of a code point that is no surrogate. -/
theorem uri_codecs :
    (∀ (isComponent : Bool) (p : Chars), WellFormed p.units → ∃ us, Gives us (jsGlobalEncodeURI isComponent p) ∧
      ∀ q : Chars, q.units = us → Gives p.units (jsGlobalDecodeURI isComponent q)) ∧
    (∀ p : Chars, ∃ us, Gives us (jsGlobalEscape p) ∧
      ∀ q : Chars, q.units = us → Gives p.units (jsGlobalUnescape q)) ∧
    ∀ (isComponent : Bool) (p : Chars),
      (∃ cs, Reads isComponent p.units cs ∧ Gives (cs.flatMap stringBufferPutc) (jsGlobalDecodeURI isComponent p)) ∨
        (∀ cs, ¬Reads isComponent p.units cs) ∧
          ∃ msg, ∀ answer, jsGlobalDecodeURI isComponent p answer = .error (.uriError msg) := by
  refine ⟨fun isComponent p hp => ⟨_, gives_encode isComponent hp, fun q hq => ?_⟩,
    fun p => ⟨_, gives_escape p, fun q hq => ?_⟩, fun isComponent p => ?_⟩
  · have hreads : Reads isComponent q.units (codePoints p.units) := by
      rw [hq]
      exact reads_of_decodeLoop (decodeLoop_encoded hp)
    have hgives := gives_decode hreads
    rwa [flatMap_codePoints] at hgives
  · have hgives := gives_unescape q
    rwa [hq, unescapeLoop_escape] at hgives
  · by_cases h : ∃ cs, Reads isComponent p.units cs
    · obtain ⟨cs, hcs⟩ := h
      exact .inl ⟨cs, hcs, gives_decode hcs⟩
    · have hnone := not_exists.mp h
      exact .inr ⟨hnone, uriError_of_not_reads hnone⟩

end QuickJs.Uri
