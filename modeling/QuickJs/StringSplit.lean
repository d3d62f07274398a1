import QuickJs.StringBufferGrowth
import QuickJs.StringSearch

/-!
# `split` and `join`

`js_string_split` cuts a string at the occurrences of a separator; the bounds of its loop count an empty separator as
one that must lie inside of the string. `js_array_join` puts the pieces together again. What the allocator says is the
argument of each step.
-/

namespace QuickJs.JSString

open Occurrence

/-- `js_new_string16` -/
def jsNewString16 (buf : List UInt16) (answer : Option ℕ) : Option Chars :=
  (jsMalloc (stringBytes buf.length true) answer).map fun _ => .str16 buf

/-- `js_sub_string` -/
def jsSubString (p : Chars) (start stop : ℕ) (answer : Option ℕ) : Option Chars :=
  if start = 0 ∧ stop = p.len then some p
  else
    match p with
    | .str8 s => jsNewString8 (slice s start stop) answer
    | .str16 s =>
      if start < stop then
        let c := ((slice s start stop).map UInt16.toNat).foldr (· ||| ·) 0
        if 0xff < c then jsNewString16 (slice s start stop) answer
        else jsNewString8 ((slice s start stop).map UInt16.toUInt8) answer
      else jsNewString8 [] answer

/-- The label `add_tail` of `js_string_split`. -/
def addTail (sp : Chars) (p : ℕ) (a : List Chars) (answer : ℕ → Option ℕ) : Option (List Chars) :=
  match jsSubString sp p sp.len (answer 0), answer 1 with
  | some t, some _ => some (a ++ [t])
  | _, _ => none

/-- `!r`, for the length `r` of the separator -/
def notLen (rp : Chars) : ℕ := if rp.len = 0 then 1 else 0

theorem notLen_add_len (rp : Chars) : 1 ≤ notLen rp + rp.len := by
  unfold notLen
  split
  · omega
  · omega

/-- The loop of `js_string_split`, for the array that there is so far. -/
def splitLoop (sp rp : Chars) (lim p : ℕ) (a : List Chars) (answer : ℕ → Option ℕ) : Option (List Chars) :=
  if ((p + notLen rp : ℕ) : ℤ) ≤ sp.len - rp.len - notLen rp then
    match _h : stringIndexof sp rp (p + notLen rp) with
    | none => addTail sp p a answer
    | some e =>
      match jsSubString sp p e (answer 0), answer 1 with
      | some t, some _ =>
        if (a ++ [t]).length = lim then some (a ++ [t])
        else splitLoop sp rp lim (e + rp.len) (a ++ [t]) fun i => answer (i + 2)
      | _, _ => none
  else addTail sp p a answer
termination_by sp.len - p
decreasing_by
  have hle := ((stringIndexof_finds sp rp _).first e _h).le
  have hlen := notLen_add_len rp
  omega

/-- `js_string_split`, for a separator that is a string or `undefined`. -/
def jsStringSplit (sp : Chars) (separator : Option Chars) (limit : Option ℕ) (answer : ℕ → Option ℕ) :
    Option (List Chars) :=
  match answer 0 with
  | none => none
  | some _ =>
    let lim := limit.getD 0xffffffff
    let answer := fun i => answer (i + 1)
    if lim = 0 then some []
    else
      match separator with
      | none => addTail sp 0 [] answer
      | some rp =>
        if sp.len = 0 then if rp.len ≠ 0 then addTail sp 0 [] answer else some []
        else splitLoop sp rp lim 0 [] answer

variable {p sp rp : Chars} {a a' : List Chars} {t : Chars} {lim i j : ℕ} {answer : Option ℕ}

theorem slice_map {α β : Type} (f : α → β) (s : List α) (i j : ℕ) : (slice s i j).map f = slice (s.map f) i j := by
  rw [slice, slice, List.map_take, List.map_drop]

theorem units_jsNewString8 {buf : List UInt8} (h : jsNewString8 buf answer = some t) :
    t.units = buf.map UInt8.toUInt16 := by
  unfold jsNewString8 at h
  split at h
  · rename_i hnil
    rw [← Option.some.inj h, hnil]
    rfl
  · obtain ⟨_, -, rfl⟩ := Option.map_eq_some_iff.mp h
    rfl

theorem units_jsNewString16 {buf : List UInt16} (h : jsNewString16 buf answer = some t) : t.units = buf := by
  obtain ⟨_, -, rfl⟩ := Option.map_eq_some_iff.mp h
  rfl

/-- Characters of 16 bits that fit into 8 are kept. -/
theorem map_toUInt8 {s : List UInt16} (h : (s.map UInt16.toNat).foldr (· ||| ·) 0 < 0x100) :
    (s.map UInt16.toUInt8).map UInt8.toUInt16 = s := by
  have happend := units_append16 (p := .str8 []) (t := s) (.inr (StringBuffer.lt_of_or_lt h))
  exact happend

theorem units_jsSubString (hij : i ≤ j) (hj : j ≤ p.len) (h : jsSubString p i j answer = some t) :
    t.units = slice p.units i j := by
  unfold jsSubString at h
  split at h
  · rename_i hall
    obtain ⟨rfl, rfl⟩ := hall
    rw [← Option.some.inj h, slice, List.drop_zero, Nat.sub_zero, ← length_units, List.take_length]
  · cases p with
    | str8 s =>
      rw [units_jsNewString8 h, slice_map]
      rfl
    | str16 s =>
      dsimp only at h
      split at h
      · split at h
        · exact units_jsNewString16 h
        · rw [units_jsNewString8 h]
          exact map_toUInt8 (by omega)
      · rename_i hlt
        rw [units_jsNewString8 h, slice, Nat.sub_eq_zero_of_le (Nat.le_of_not_lt hlt)]
        rfl

theorem addTail_eq_some {q : ℕ} {answer : ℕ → Option ℕ} (hq : q ≤ sp.len) (h : addTail sp q a answer = some a') :
    a'.map Chars.units = a.map Chars.units ++ [sp.units.drop q] := by
  unfold addTail at h
  split at h
  · rename_i t _ ht _
    have hslice : slice sp.units q sp.len = sp.units.drop q := by
      rw [slice, ← length_units, ← List.length_drop, List.take_length]
    rw [← Option.some.inj h, List.map_append, List.map_singleton, units_jsSubString hq (Nat.le_refl _) ht, hslice]
  · cases h

/-- What is found ends in time. -/
theorem end_le {q e : ℕ} (hcond : ((q + notLen rp : ℕ) : ℤ) ≤ sp.len - rp.len - notLen rp)
    (hfirst : First rp.units sp.units (q + notLen rp) e) : e + rp.len + notLen rp ≤ sp.len := by
  by_cases hzero : rp.len = 0
  · -- the empty separator is found where the search begins
    have hleast : e = q + notLen rp := by
      refine Nat.le_antisymm (Nat.le_of_not_lt fun hlt => ?_) hfirst.le
      have hnil : rp.units = [] := List.eq_nil_of_length_eq_zero hzero
      exact hfirst.least _ (Nat.le_refl _) hlt (hnil ▸ occursAt_nil _ _)
    omega
  · have hend := hfirst.occurs.length_le (ne_nil_of_pos (Nat.pos_of_ne_zero hzero))
    rw [notLen, if_neg hzero]
    exact hend

/-- **The loop cuts the pieces**, as many as the limit allows. -/
theorem splitLoop_pieces {q : ℕ} {answer : ℕ → Option ℕ} (hq : q ≤ sp.len) (hlim : a.length < lim)
    (h : splitLoop sp rp lim q a answer = some a') :
    ∃ ps, Pieces rp.units sp.units q ps ∧ a'.map Chars.units = a.map Chars.units ++ ps.take (lim - a.length) := by
  have htail : ∀ {q a answer}, q ≤ sp.len → a.length < lim → addTail sp q a answer = some a' →
      (∀ e, q + skip rp.units ≤ e → e + rp.len + skip rp.units ≤ sp.len → ¬OccursAt rp.units sp.units e) →
      ∃ ps, Pieces rp.units sp.units q ps ∧ a'.map Chars.units = a.map Chars.units ++ ps.take (lim - a.length) := by
    intro q a answer hq hlim h hnone
    refine ⟨_, .last hnone, ?_⟩
    rw [addTail_eq_some hq h, List.take_of_length_le (by rw [List.length_singleton]; omega)]
  fun_induction splitLoop sp rp lim q a answer with
  | case1 q a answer hcond hnone =>
    exact htail hq hlim h fun e he _ => (stringIndexof_finds sp rp _).absent hnone e he
  | case2 q a answer hcond e hsome t _ _ ht hfull =>
    have hfirst : First rp.units sp.units (q + skip rp.units) e := (stringIndexof_finds sp rp _).first e hsome
    have hend := end_le hcond hfirst
    have hle : q ≤ e := Nat.le_of_add_right_le hfirst.le
    obtain ⟨ps, hps⟩ := exists_pieces rp.units sp.units (e + rp.len)
    have hone : lim - a.length = 1 := by
      rw [List.length_append, List.length_singleton] at hfull
      omega
    refine ⟨_, .cut hfirst hend hps, ?_⟩
    rw [← Option.some.inj h, List.map_append, List.map_singleton, units_jsSubString hle (by omega) ht, hone,
      List.take_succ_cons, List.take_zero]
  | case3 q a answer hcond e hsome t _ _ ht hfull ih =>
    have hfirst : First rp.units sp.units (q + skip rp.units) e := (stringIndexof_finds sp rp _).first e hsome
    have hend := end_le hcond hfirst
    have hle : q ≤ e := Nat.le_of_add_right_le hfirst.le
    have hlength : (a ++ [t]).length = a.length + 1 := List.length_append
    obtain ⟨ps, hps, hunits⟩ := ih (by omega) (by omega) h
    have hone : lim - a.length = lim - (a ++ [t]).length + 1 := by omega
    refine ⟨_, .cut hfirst hend hps, ?_⟩
    rw [hunits, List.map_append, List.map_singleton, units_jsSubString hle (by omega) ht, hone, List.take_succ_cons,
      List.append_assoc, List.singleton_append]
  | case4 => cases h
  | case5 q a answer hcond =>
    have hskip : skip rp.units = notLen rp := rfl
    exact htail hq hlim h fun e he hend _ => hcond (by omega)

/-- The pieces of a string that `split` returns: an empty string has none if the separator is empty too. -/
def Split (sp rp : Chars) (ps : List (List UInt16)) : Prop :=
  if sp.len = 0 ∧ rp.len = 0 then ps = [] else Pieces rp.units sp.units 0 ps

theorem Split.intercalate {ps : List (List UInt16)} (h : Split sp rp ps) : rp.units.intercalate ps = sp.units := by
  unfold Split at h
  split at h
  · rename_i hzero
    rw [h, List.eq_nil_of_length_eq_zero hzero.1]
    rfl
  · rw [h.intercalate, List.drop_zero]

theorem Split.length_le {ps : List (List UInt16)} (h : Split sp rp ps) : ps.length ≤ sp.len + 1 := by
  unfold Split at h
  split at h
  · rw [h]
    exact Nat.zero_le _
  · exact h.length_le (Nat.zero_le _)

theorem split_empty (h : sp.len = 0 ∧ rp.len = 0) : Split sp rp [] := by
  unfold Split
  rw [if_pos h]

theorem split_pieces {ps : List (List UInt16)} (h : ¬(sp.len = 0 ∧ rp.len = 0)) (hps : Pieces rp.units sp.units 0 ps) :
    Split sp rp ps := by
  unfold Split
  rwa [if_neg h]

theorem exists_split (sp rp : Chars) : ∃ ps, Split sp rp ps := by
  by_cases h : sp.len = 0 ∧ rp.len = 0
  · exact ⟨[], split_empty h⟩
  · obtain ⟨ps, hps⟩ := exists_pieces rp.units sp.units 0
    exact ⟨ps, split_pieces h hps⟩

/-- **`split` returns the pieces up to the limit.** -/
theorem jsStringSplit_pieces {limit : Option ℕ} {answer : ℕ → Option ℕ}
    (h : jsStringSplit sp (some rp) limit answer = some a) :
    ∃ ps, Split sp rp ps ∧ a.map Chars.units = ps.take (limit.getD 0xffffffff) := by
  unfold jsStringSplit at h
  split at h
  · cases h
  dsimp only at h
  by_cases hlim : limit.getD 0xffffffff = 0
  · obtain ⟨ps, hps⟩ := exists_split sp rp
    rw [if_pos hlim] at h
    rw [← Option.some.inj h, hlim]
    exact ⟨ps, hps, rfl⟩
  rw [if_neg hlim] at h
  split at h
  · rename_i hs
    split at h
    · rename_i hr
      have htail : Pieces rp.units sp.units 0 [sp.units.drop 0] := by
        refine .last fun e _ hend _ => ?_
        rw [length_units, length_units] at hend
        omega
      refine ⟨_, split_pieces (fun hzero => hr hzero.2) htail, ?_⟩
      rw [addTail_eq_some (Nat.zero_le _) h, List.take_of_length_le (by rw [List.length_singleton]; omega)]
      rfl
    · rename_i hr
      rw [← Option.some.inj h]
      exact ⟨[], split_empty ⟨hs, not_not.mp hr⟩, List.take_nil.symm⟩
  · rename_i hs
    obtain ⟨ps, hps, hunits⟩ := splitLoop_pieces (Nat.zero_le _) (Nat.pos_of_ne_zero hlim) h
    exact ⟨ps, split_pieces (fun hzero => hs hzero.1) hps, hunits⟩

/-! ### Where there is memory -/

/-- The allocator always gives memory. -/
def Gives (answer : ℕ → Option ℕ) : Prop := ∀ n, ∃ slack, answer n = some slack

theorem jsSubString_isSome (hj : j ≤ p.len) (hp : p.len ≤ JS_STRING_LEN_MAX) (slack : ℕ) :
    (jsSubString p i j (some slack)).isSome = true := by
  have h8 : ∀ buf : List UInt8, (jsNewString8 buf (some slack)).isSome = true := by
    intro buf
    unfold jsNewString8
    split
    · rfl
    · rw [jsMalloc_narrow (Int.natCast_nonneg _)]
      rfl
  unfold jsSubString
  split
  · rfl
  · cases p with
    | str8 s => exact h8 _
    | str16 s =>
      dsimp only
      split
      · split
        · have hlen : (slice s i j).length ≤ s.length := by
            rw [slice, List.length_take, List.length_drop]
            omega
          have hs : s.length ≤ JS_STRING_LEN_MAX := hp
          rw [JS_STRING_LEN_MAX] at hs
          rw [jsNewString16, jsMalloc_wide (Int.natCast_nonneg _) (by omega)]
          rfl
        · exact h8 _
      · exact h8 _

theorem addTail_isSome (hsp : sp.len ≤ JS_STRING_LEN_MAX) (q : ℕ) (a : List Chars) {answer : ℕ → Option ℕ}
    (hanswer : Gives answer) : (addTail sp q a answer).isSome = true := by
  obtain ⟨slack, h0⟩ := hanswer 0
  obtain ⟨slack', h1⟩ := hanswer 1
  obtain ⟨t, ht⟩ := Option.isSome_iff_exists.mp (jsSubString_isSome (i := q) (Nat.le_refl _) hsp slack)
  rw [addTail, h0, h1, ht]
  rfl

theorem splitLoop_isSome (hsp : sp.len ≤ JS_STRING_LEN_MAX) (q : ℕ) (a : List Chars) {answer : ℕ → Option ℕ}
    (hanswer : Gives answer) : (splitLoop sp rp lim q a answer).isSome = true := by
  fun_induction splitLoop sp rp lim q a answer with
  | case1 q a answer hcond hnone => exact addTail_isSome hsp q a hanswer
  | case2 => rfl
  | case3 q a answer hcond e hsome t _ _ ht hfull ih => exact ih fun n => hanswer (n + 2)
  | case4 q a answer hcond e hsome hfail =>
    have hend := end_le hcond ((stringIndexof_finds sp rp _).first e hsome)
    obtain ⟨slack, h0⟩ := hanswer 0
    obtain ⟨slack', h1⟩ := hanswer 1
    obtain ⟨t, ht⟩ := Option.isSome_iff_exists.mp (jsSubString_isSome (i := q) (j := e) (by omega) hsp slack)
    exact (hfail t slack' (h0 ▸ ht) h1).elim
  | case5 q a answer hcond => exact addTail_isSome hsp q a hanswer

/-- `split` of a string returns when there is memory. -/
theorem jsStringSplit_isSome (hsp : sp.len ≤ JS_STRING_LEN_MAX) (separator : Option Chars) (limit : Option ℕ)
    {answer : ℕ → Option ℕ} (hanswer : Gives answer) :
    (jsStringSplit sp separator limit answer).isSome = true := by
  obtain ⟨slack, h0⟩ := hanswer 0
  have hrest : Gives fun n => answer (n + 1) := fun n => hanswer (n + 1)
  unfold jsStringSplit
  rw [h0]
  dsimp only
  split
  · rfl
  cases separator with
  | none => exact addTail_isSome hsp 0 [] hrest
  | some rp =>
    dsimp only
    split
    · split
      · exact addTail_isSome hsp 0 [] hrest
      · rfl
    · exact splitLoop_isSome hsp 0 [] hrest

/-! ## `join` -/

/-- The separator of `js_array_join` goes into the buffer: a comma, a narrow character, or a string. -/
def putSeparator (sep : Option Chars) (b : StringBuffer) (answer : Option ℕ) : StringBuffer :=
  match sep with
  | none => (b.putc8 0x2c answer).2
  | some (.str8 [c]) => (b.putc8 c answer).2
  | some p => (b.concat p 0 p.len answer).2

/-- The loop of `js_array_join`; an element that is null or undefined is `none`. -/
def joinLoop (sep : Option Chars) (first : Bool) : List (Option Chars) → (ℕ → Option ℕ) → StringBuffer →
    Option StringBuffer
  | [], _, b => some b
  | el :: els, answer, b =>
    let b := if first then b else putSeparator sep b (answer 0)
    match el with
    | none => joinLoop sep false els (fun i => answer (i + 2)) b
    | some v =>
      let r := b.concatValue (some v) (answer 1)
      if r.1 then joinLoop sep false els (fun i => answer (i + 2)) r.2 else none

/-- `js_array_join`, for an array of strings -/
def jsArrayJoin (els : List (Option Chars)) (sep : Option Chars) (answer : ℕ → Option ℕ) : Option Chars :=
  (joinLoop sep true els (fun i => answer (i + 1)) (.init2 0 false (answer 0))).bind StringBuffer.finish

namespace StringBuffer

variable {b b' : StringBuffer} {us vs : List UInt16} {r : Bool × StringBuffer}

/-- The buffer has the text, or an operation has failed. -/
def Holds (b : StringBuffer) (us : List UInt16) : Prop := b.errorStatus = false → b.str.units = us

theorem Holds.adds (h : b.Holds us) (hr : Adds vs b r) : r.2.Holds (us ++ vs) := by
  intro hok
  have htrue : r.1 = true := by
    by_contra hfalse
    rw [hr.failed (Bool.eq_false_iff.mpr hfalse)] at hok
    cases hok
  rw [hr.units htrue, h ((hr.error htrue).symm.trans hok)]

theorem holds_init2 (size : ℤ) (isWide : Bool) (answer : Option ℕ) : (init2 size isWide answer).Holds [] :=
  fun _ => units_init2 size isWide answer

theorem Holds.finish {t : Chars} (h : b.Holds us) (ht : b.finish = some t) : t.units = us := by
  unfold StringBuffer.finish at ht
  split at ht
  · cases ht
  · rename_i hok
    have hus := h (Bool.eq_false_iff.mpr hok)
    split at ht
    · rename_i hzero
      rw [← Option.some.inj ht, ← hus]
      exact (List.eq_nil_of_length_eq_zero hzero).symm
    · rw [← Option.some.inj ht]
      exact hus

/-- The buffer has the text and can take more. -/
structure Full (b : StringBuffer) (us : List UInt16) : Prop where
  ready : Ready b
  units : b.str.units = us

theorem Full.len (h : b.Full us) : b.len = us.length := congrArg List.length h.units

theorem Full.adds (h : b.Full us) (hr : Adds vs b r) (hs : Succeeds r) : r.2.Full (us ++ vs) :=
  ⟨hs.ready, (hr.units hs.ok).trans (congrArg (· ++ vs) h.units)⟩

theorem full_init2 (slack : ℕ) : (init2 0 false (some slack)).Full [] := ⟨ready_init2 slack, units_init2 0 false _⟩

theorem Full.finish (h : b.Full us) : ∃ t, b.finish = some t ∧ t.units = us := by
  have hholds : b.Holds us := fun _ => h.units
  have hsome : b.finish.isSome = true := by
    rw [StringBuffer.finish, h.ready.ok, if_neg Bool.false_ne_true]
    split
    · rfl
    · rfl
  obtain ⟨t, ht⟩ := Option.isSome_iff_exists.mp hsome
  exact ⟨t, ht, hholds.finish ht⟩

theorem adds_concat_all (b : StringBuffer) (p : Chars) (answer : Option ℕ) :
    Adds p.units b (b.concat p 0 p.len answer) := by
  have h := adds_concat b p 0 p.len answer
  rwa [List.drop_zero, Nat.sub_zero, ← length_units, List.take_length] at h

end StringBuffer

/-- What the separator is. -/
def separatorUnits (sep : Option Chars) : List UInt16 := (sep.map Chars.units).getD [0x2c]

theorem holds_putSeparator {b : StringBuffer} {us : List UInt16} (h : b.Holds us) (sep : Option Chars)
    (answer : Option ℕ) : (putSeparator sep b answer).Holds (us ++ separatorUnits sep) := by
  unfold putSeparator
  split
  · exact h.adds (StringBuffer.adds_putc8 b 0x2c answer)
  · exact h.adds (StringBuffer.adds_putc8 b _ answer)
  · exact h.adds (StringBuffer.adds_concat_all b _ answer)

theorem joinLoop_holds {sep : Option Chars} {els : List Chars} {answer : ℕ → Option ℕ} {b b' : StringBuffer}
    {us : List UInt16} (hb : b.Holds us) (h : joinLoop sep false (els.map some) answer b = some b') :
    b'.Holds (us ++ (els.map fun v => separatorUnits sep ++ v.units).flatten) := by
  induction els generalizing answer b us with
  | nil =>
    rw [← Option.some.inj h, List.map_nil, List.flatten_nil, List.append_nil]
    exact hb
  | cons v els ih =>
    rw [List.map_cons, joinLoop, if_neg Bool.false_ne_true] at h
    split at h
    · have hput := (holds_putSeparator hb sep (answer 0)).adds (StringBuffer.adds_concatValue _ (some v) (answer 1))
      have hrest := ih hput h
      rw [List.map_cons, List.flatten_cons, ← List.append_assoc, ← List.append_assoc]
      exact hrest
    · cases h

theorem full_putSeparator {b : StringBuffer} {us : List UInt16} (h : b.Full us) (sep : Option Chars) (slack : ℕ)
    (hlen : us.length + (separatorUnits sep).length ≤ JS_STRING_LEN_MAX) :
    (putSeparator sep b (some slack)).Full (us ++ separatorUnits sep) := by
  rw [← h.len] at hlen
  unfold putSeparator
  split
  · exact h.adds (StringBuffer.adds_putc8 b 0x2c _) (h.ready.putc8 hlen _ _)
  · exact h.adds (StringBuffer.adds_putc8 b _ _) (h.ready.putc8 hlen _ _)
  · exact h.adds (StringBuffer.adds_concat_all b _ _) (h.ready.concat hlen _)

/-- A value is added after the text that there is. -/
theorem full_concatValue {b : StringBuffer} {us : List UInt16} (h : b.Full us) (v : Chars) (slack : ℕ)
    (hlen : us.length + v.len ≤ JS_STRING_LEN_MAX) :
    (b.concatValue (some v) (some slack)).1 = true ∧ (b.concatValue (some v) (some slack)).2.Full (us ++ v.units) := by
  rw [← h.len] at hlen
  have hs := h.ready.concatValue hlen slack
  exact ⟨hs.ok, h.adds (StringBuffer.adds_concatValue b (some v) _) hs⟩

theorem joinLoop_full {sep : Option Chars} {els : List Chars} {answer : ℕ → Option ℕ}
    (hanswer : Gives answer) {b : StringBuffer} {us : List UInt16} (hb : b.Full us)
    (hlen : us.length + (els.map fun v => separatorUnits sep ++ v.units).flatten.length ≤ JS_STRING_LEN_MAX) :
    ∃ b', joinLoop sep false (els.map some) answer b = some b' ∧
      b'.Full (us ++ (els.map fun v => separatorUnits sep ++ v.units).flatten) := by
  induction els generalizing answer b us with
  | nil => exact ⟨b, rfl, by rw [List.map_nil, List.flatten_nil, List.append_nil]; exact hb⟩
  | cons v els ih =>
    obtain ⟨slack, h0⟩ := hanswer 0
    obtain ⟨slack', h1⟩ := hanswer 1
    rw [List.map_cons, List.flatten_cons, List.length_append, List.length_append] at hlen
    have hsep := full_putSeparator hb sep slack (by omega)
    obtain ⟨hok, hput⟩ := full_concatValue hsep v slack' (by rw [List.length_append, ← length_units]; omega)
    have hrest : Gives fun n => answer (n + 2) := fun n => hanswer (n + 2)
    obtain ⟨b', hb', hfull⟩ := ih hrest hput
      (by rw [List.length_append, List.length_append]; omega)
    refine ⟨b', ?_, ?_⟩
    · rw [List.map_cons, joinLoop, if_neg Bool.false_ne_true, h0, h1, if_pos hok]
      exact hb'
    · rw [List.map_cons, List.flatten_cons, ← List.append_assoc, ← List.append_assoc]
      exact hfull

theorem intercalate_cons_flatten (sep v : List UInt16) (vs : List (List UInt16)) :
    sep.intercalate (v :: vs) = v ++ (vs.map fun w => sep ++ w).flatten := by
  induction vs generalizing v with
  | nil => rw [List.intercalate_singleton, List.map_nil, List.flatten_nil, List.append_nil]
  | cons w vs ih => rw [List.intercalate_cons_cons, ih, List.map_cons, List.flatten_cons, List.append_assoc,
      List.append_assoc]

/-- **`join` puts the separator between the elements.** -/
theorem jsArrayJoin_units {els : List Chars} {sep : Option Chars} {answer : ℕ → Option ℕ} {t : Chars}
    (h : jsArrayJoin (els.map some) sep answer = some t) :
    t.units = (separatorUnits sep).intercalate (els.map Chars.units) := by
  obtain ⟨b, hb, ht⟩ := Option.bind_eq_some_iff.mp h
  have hinit := StringBuffer.holds_init2 0 false (answer 0)
  cases els with
  | nil =>
    rw [← Option.some.inj hb] at ht
    exact hinit.finish ht
  | cons v els =>
    rw [List.map_cons, joinLoop, if_pos rfl] at hb
    split at hb
    · have hput := hinit.adds (StringBuffer.adds_concatValue _ (some v) (answer (1 + 1)))
      rw [(joinLoop_holds hput hb).finish ht, List.map_cons, intercalate_cons_flatten, List.map_map]
      rfl
    · cases hb

/-- `join` returns when there is memory and the text is within the limit. -/
theorem jsArrayJoin_isSome {els : List Chars} {sep : Option Chars} {answer : ℕ → Option ℕ}
    (hanswer : Gives answer)
    (hlen : ((separatorUnits sep).intercalate (els.map Chars.units)).length ≤ JS_STRING_LEN_MAX) :
    (jsArrayJoin (els.map some) sep answer).isSome = true := by
  obtain ⟨slack, h0⟩ := hanswer 0
  obtain ⟨slack', h2⟩ := hanswer (1 + 1)
  have hinit := StringBuffer.full_init2 slack
  unfold jsArrayJoin
  cases els with
  | nil =>
    rw [h0]
    rfl
  | cons v els =>
    rw [List.map_cons, intercalate_cons_flatten, List.length_append, List.map_map] at hlen
    have hv : v.units.length = v.len := rfl
    obtain ⟨hok, hput⟩ := full_concatValue hinit v slack' (by rw [List.length_nil]; omega)
    have hrest : Gives fun n => answer (n + 2 + 1) := fun n => hanswer (n + 2 + 1)
    obtain ⟨b', hb', hfull⟩ := joinLoop_full hrest hput hlen
    obtain ⟨t, ht, -⟩ := hfull.finish
    rw [List.map_cons, joinLoop, if_pos rfl, h0, h2, if_pos hok, hb', Option.bind_some, ht]
    rfl

end QuickJs.JSString
