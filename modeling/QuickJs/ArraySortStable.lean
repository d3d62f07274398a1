import QuickJs.ArraySort

/-!
# When `Array.prototype.sort` is a stable sort

The slots are permuted by whatever the comparison function answers, and put in order when it is
consistent. They are what the array holds afterwards unless the comparison function has changed an
element that stays in its place.
-/

namespace QuickJs.ArraySort

open Exchange Rqsort

variable {α σ : Type} {so : Sorter α σ} {len : ℕ} {w : World α σ} {elements : ℕ → Option (Value α)}

/-! ## Writing back -/

theorem writeAll_apply (v : Option (Value α)) (i count x : ℕ) :
    writeAll v i count elements x = if i ≤ x ∧ x < i + count then v else elements x := by
  induction count generalizing i elements with
  | zero => rw [if_neg (by omega), writeAll]
  | succ count ih =>
    rw [writeAll, ih, Function.update_apply]
    by_cases hx : x = i
    · rw [if_neg (by omega), if_pos hx, if_pos (by omega)]
    · have hiff : i + 1 ≤ x ∧ x < i + 1 + count ↔ i ≤ x ∧ x < i + (count + 1) := by omega
      simp only [hiff, if_neg hx]

variable {array : List (ValueSlot α)} {count : ℕ} {ap : ValueSlot α}

variable {n i : ℕ} {array' : List (ValueSlot α)} {psc : Context α σ} {c : ℤ} {bp a b : ValueSlot α}
  {text : α → List ℕ} {β γ : Type}

theorem writeSlots_of_not_mem {x : ℕ}
    (h : x < n ∨ n + array.length ≤ x) : writeSlots n array elements x = elements x := by
  induction array generalizing n elements with
  | nil => rfl
  | cons slot array ih =>
    rw [List.length_cons] at h
    rw [writeSlots, ih (by omega)]
    split
    · rfl
    · exact Function.update_of_ne (by omega) ..

theorem writeSlots_apply (h : i < array.length) : writeSlots n array elements (n + i) =
      if (array[i]).pos = n + i then elements (n + i) else some (.defined (array[i]).val) := by
  induction array generalizing n i elements with
  | nil => cases h
  | cons slot array ih =>
    rw [writeSlots]
    cases i with
    | zero =>
      simp only [Nat.add_zero, List.getElem_cons_zero]
      rw [writeSlots_of_not_mem (.inl (Nat.lt_succ_self n))]
      split
      · rfl
      · exact Function.update_self ..
    | succ i =>
      have hn : n + (i + 1) = n + 1 + i := by omega
      rw [hn, ih (Nat.lt_of_succ_lt_succ h), List.getElem_cons_succ]
      split
      · split
        · rfl
        · exact Function.update_of_ne (by omega) ..
      · rfl

/-- What the array holds at the index `i` after the slots have been written. -/
def written (elements : ℕ → Option (Value α)) (array : List (ValueSlot α)) (i : ℕ)
    (h : i < array.length) : Option (Value α) :=
  if (array[i]).pos = i then elements i else some (.defined (array[i]).val)

theorem writeBack_apply (h : i < array.length) :
    writeBack array count len elements i = written elements array i h := by
  have hslot : writeSlots 0 array elements (0 + i) = _ := writeSlots_apply h
  rw [Nat.zero_add] at hslot
  rw [writeBack, writeAll_apply, if_neg (by omega), writeAll_apply, if_neg (by omega), hslot, written]

/-- The end of the array is right whatever the comparison function did. -/
theorem laid_writeBack_iff (hlen : array'.length = array.length) :
    Laid array' count len (writeBack array count len elements) ↔
      ∀ i (h : i < array.length) (h' : i < array'.length),
        written elements array i h = some (.defined (array'[i]).val) := by
  constructor
  · intro hl i h h'
    rw [← writeBack_apply h, hl.defined i h']
  · intro hw
    refine ⟨fun i h' => ?_, fun i hi hc => ?_, fun i hi hc => ?_⟩
    · have h : i < array.length := hlen ▸ h'
      rw [writeBack_apply h, hw i h h']
    · rw [writeBack, writeAll_apply, if_neg (by omega), writeAll_apply, if_pos (by omega)]
    · rw [writeBack, writeAll_apply, if_pos (by omega)]

/-! ## The slots -/

theorem map_getD_range (array : List (ValueSlot α)) (slot : ValueSlot α) :
    (List.range array.length).map (fun i => array.getD i slot) = array := by
  refine List.ext_getElem (by simp) fun i h h' => ?_
  simp [List.getElem?_eq_getElem h']

theorem slotString_exception (ap : ValueSlot α) (psc : Context α σ) :
    (slotString so ap psc).2.exception = psc.exception := by
  unfold slotString
  split <;> rfl

theorem slotString_ne_none (h : ∀ x w, (so.toString x w).1 ≠ none) (ap : ValueSlot α)
    (psc : Context α σ) : (slotString so ap psc).1 ≠ none := by
  unfold slotString
  split
  · exact Option.some_ne_none _
  · exact h _ _

variable [DecidableEq α]

/-- **Whatever the comparison function answers, the slots are permuted.** -/
theorem sortSlots_perm (array : List (ValueSlot α)) (psc : Context α σ) :
    (sortSlots so array psc).1.Perm array := by
  cases array with
  | nil => exact .refl _
  | cons slot array =>
    have hsteps : Steps (jsArrayCmpGeneric so) 0 (slot :: array).length _ _ :=
      rqsort_steps (slot :: array).length ⟨fun i => (slot :: array).getD i slot, psc⟩
    have hperm := hsteps.perm
    rwa [map_getD_range] at hperm

/-- A property of the context that the comparison keeps. -/
theorem sortSlots_context {P : Context α σ → Prop}
    (hP : ∀ ap bp psc, P psc → P (jsArrayCmpGeneric so ap bp psc).2)
    (h : P psc) :
    P (sortSlots so array psc).2 := by
  cases array with
  | nil => exact h
  | cons slot array => exact (rqsort_steps _ _).world hP h

theorem jsArrayCmpGeneric_exception (h : so.NoThrow) (ap bp : ValueSlot α) (psc : Context α σ)
    (hp : psc.exception = false) : (jsArrayCmpGeneric so ap bp psc).2.exception = false := by
  rw [jsArrayCmpGeneric, if_neg (by simp [hp])]
  unfold Sorter.NoThrow at h
  cases hm : so.method with
  | some call =>
    simp only [hm] at h ⊢
    split
    · exact hp
    · split
      · rename_i hc
        exact absurd (congrArg Prod.fst hc) (h _ _ _)
      · exact hp
  | none =>
    simp only [hm] at h ⊢
    split
    · rename_i ha
      exact absurd (congrArg Prod.fst ha) (slotString_ne_none h ap psc)
    · rename_i psca ha
      have hae : psca.exception = false :=
        (congrArg (·.2.exception) ha).symm.trans ((slotString_exception ap psc).trans hp)
      split
      · rename_i hb
        exact absurd (congrArg Prod.fst hb) (slotString_ne_none h bp psca)
      · rename_i hb
        exact (congrArg (·.2.exception) hb).symm.trans ((slotString_exception bp psca).trans hae)

/-! ## A consistent comparison -/

section Order

variable {le : α → α → Prop} {values : List α} {array : List (ValueSlot α)}

omit [DecidableEq α] in
/-- A tie is decided by the places. -/
theorem cmpResult_nonpos (hle : c ≤ 0 ↔ le ap.val bp.val)
    (hge : 0 ≤ c ↔ le bp.val ap.val) : cmpResult c ap bp ≤ 0 ↔ Before le ap bp := by
  unfold cmpResult Before cmpSame
  rw [← hle, ← hge]
  split <;> omega

omit [DecidableEq α] in
theorem cmpResult_nonneg (hle : c ≤ 0 ↔ le ap.val bp.val)
    (hge : 0 ≤ c ↔ le bp.val ap.val) : 0 ≤ cmpResult c ap bp ↔ Before le bp ap := by
  unfold cmpResult Before cmpSame
  rw [← hle, ← hge]
  split <;> omega

omit [DecidableEq α] in
theorem before_trans (hle : TotalPreorder le values) {c : ValueSlot α} (ha : a.val ∈ values)
    (hb : b.val ∈ values) (hc : c.val ∈ values) (hab : Before le a b) (hbc : Before le b c) :
    Before le a c := by
  refine ⟨hle.trans _ ha _ hb _ hc hab.1 hbc.1, fun hca => ?_⟩
  have hba := hle.trans _ hb _ hc _ ha hbc.1 hca
  have hcb := hle.trans _ hc _ ha _ hb hca hab.1
  exact Nat.le_trans (hab.2 hba) (hbc.2 hcb)

theorem sign_nonpos (val : ℤ) : val.sign ≤ 0 ↔ val ≤ 0 := by
  rcases Int.lt_trichotomy val 0 with h | h | h
  · rw [Int.sign_eq_neg_one_of_neg h]
    omega
  · rw [h, Int.sign_zero]
  · rw [Int.sign_eq_one_of_pos h]
    omega

theorem sign_nonneg (val : ℤ) : 0 ≤ val.sign ↔ 0 ≤ val := by
  rcases Int.lt_trichotomy val 0 with h | h | h
  · rw [Int.sign_eq_neg_one_of_neg h]
    omega
  · rw [h, Int.sign_zero]
  · rw [Int.sign_eq_one_of_pos h]
    omega

/-- A comparison function that decides an order. -/
theorem agrees_method {call : α → α → World α σ → Option ℤ × World α σ}
    (hm : so.method = some call) (hc : so.Consistent le values)
    (hvals : ∀ slot ∈ array, slot.val ∈ values) :
    Agrees (jsArrayCmpGeneric so) (Before le) (· ∈ array) (·.exception = false) := by
  have hdec := hc.decides
  simp only [Sorter.Decides, hm] at hdec
  have hrefl : ∀ slot ∈ array, le slot.val slot.val := fun slot hs =>
    (hc.preorder.total _ (hvals slot hs) _ (hvals slot hs)).elim id id
  -- the comparison of two slots is the result of some number
  have hcmp : ∀ ap bp psc, ap ∈ array → bp ∈ array → psc.exception = false → ∃ c : ℤ,
      (jsArrayCmpGeneric so ap bp psc).1 = cmpResult c ap bp ∧
      (c ≤ 0 ↔ le ap.val bp.val) ∧ (0 ≤ c ↔ le bp.val ap.val) ∧
      (jsArrayCmpGeneric so ap bp psc).2.exception = false := by
    intro ap bp psc ha hb hp
    rw [jsArrayCmpGeneric, if_neg (by simp [hp])]
    simp only [hm]
    by_cases hsame : ap.val = bp.val
    · refine ⟨0, ?_, ?_, ?_, ?_⟩
      · rw [if_pos hsame]
        rfl
      · rw [← hsame]
        exact iff_of_true (Int.le_refl 0) (hrefl ap ha)
      · rw [← hsame]
        exact iff_of_true (Int.le_refl 0) (hrefl ap ha)
      · rw [if_pos hsame]
        exact hp
    · obtain ⟨val, hval, hle, hge⟩ := hdec _ (hvals ap ha) _ (hvals bp hb) psc.world
      rw [if_neg hsame]
      rcases hcall : call ap.val bp.val psc.world with ⟨r, w⟩
      rw [hcall] at hval
      obtain rfl : r = some val := hval
      exact ⟨val.sign, rfl, (sign_nonpos val).trans hle, (sign_nonneg val).trans hge, hp⟩
  refine ⟨fun a b c ha hb hc' => before_trans hc.preorder (hvals a ha) (hvals b hb) (hvals c hc'),
    fun ap bp psc ha hb hp => ?_, fun ap bp psc ha hb hp => ?_, fun ap bp psc ha hb hp => ?_⟩
  · obtain ⟨c, hres, hle, hge, -⟩ := hcmp ap bp psc ha hb hp
    rw [hres]
    exact cmpResult_nonpos hle hge
  · obtain ⟨c, hres, hle, hge, -⟩ := hcmp ap bp psc ha hb hp
    rw [hres]
    exact cmpResult_nonneg hle hge
  · obtain ⟨c, -, -, -, hkeep⟩ := hcmp ap bp psc ha hb hp
    exact hkeep

/-- The strings kept so far are those of the values. -/
structure Strings (text : α → List ℕ) (array : List (ValueSlot α)) (psc : Context α σ) : Prop where
  exception : psc.exception = false
  str : ∀ slot ∈ array, ∀ str, psc.str slot.pos = some str → str = text slot.val

omit [DecidableEq α] in
theorem slotString_spec
    (htext : ∀ x ∈ values, ∀ w, (so.toString x w).1 = some (text x))
    (hvals : ∀ slot ∈ array, slot.val ∈ values)
    (hpos : ∀ a ∈ array, ∀ b ∈ array, a.pos = b.pos → a = b) (ha : ap ∈ array)
    (h : Strings text array psc) :
    ∃ psc', slotString so ap psc = (some (text ap.val), psc') ∧ Strings text array psc' := by
  unfold slotString
  cases hstr : psc.str ap.pos with
  | some str => exact ⟨psc, by rw [h.str ap ha str hstr], h⟩
  | none =>
    have hres := htext _ (hvals ap ha) psc.world
    refine ⟨_, Prod.ext hres rfl, h.exception, fun slot hs str hslot => ?_⟩
    by_cases hsame : slot.pos = ap.pos
    · obtain rfl := hpos slot hs ap ha hsame
      simp only [Function.update_self] at hslot
      exact Option.some.inj (hslot.symm.trans hres)
    · simp only [Function.update_of_ne hsame] at hslot
      exact h.str slot hs str hslot

/-- The comparison of the strings, if the conversion to a string is consistent. -/
theorem agrees_toString (hm : so.method = none)
    (htext : ∀ x ∈ values, ∀ w, (so.toString x w).1 = some (text x))
    (hle : ∀ x ∈ values, ∀ y ∈ values, (jsStringCompare (text x) (text y) ≤ 0 ↔ le x y) ∧
      (0 ≤ jsStringCompare (text x) (text y) ↔ le y x))
    (horder : TotalPreorder le values) (hvals : ∀ slot ∈ array, slot.val ∈ values)
    (hpos : ∀ a ∈ array, ∀ b ∈ array, a.pos = b.pos → a = b) :
    Agrees (jsArrayCmpGeneric so) (Before le) (· ∈ array) (Strings text array) := by
  have hcmp : ∀ ap bp psc, ap ∈ array → bp ∈ array → Strings text array psc →
      (jsArrayCmpGeneric so ap bp psc).1 = cmpResult (jsStringCompare (text ap.val) (text bp.val)) ap bp ∧
      Strings text array (jsArrayCmpGeneric so ap bp psc).2 := by
    intro ap bp psc ha hb hp
    obtain ⟨psca, hsa, hpa⟩ := slotString_spec htext hvals hpos ha hp
    obtain ⟨pscb, hsb, hpb⟩ := slotString_spec htext hvals hpos hb hpa
    rw [jsArrayCmpGeneric, if_neg (by simp [hp.exception])]
    simp only [hm, hsa, hsb]
    exact ⟨trivial, hpb⟩
  refine ⟨fun a b c ha hb hc' => before_trans horder (hvals a ha) (hvals b hb) (hvals c hc'),
    fun ap bp psc ha hb hp => ?_, fun ap bp psc ha hb hp => ?_,
    fun ap bp psc ha hb hp => (hcmp ap bp psc ha hb hp).2⟩
  · obtain ⟨hl, hg⟩ := hle _ (hvals ap ha) _ (hvals bp hb)
    rw [(hcmp ap bp psc ha hb hp).1]
    exact cmpResult_nonpos hl hg
  · obtain ⟨hl, hg⟩ := hle _ (hvals ap ha) _ (hvals bp hb)
    rw [(hcmp ap bp psc ha hb hp).1]
    exact cmpResult_nonneg hl hg

/-- **A consistent comparison puts the slots in order.** -/
theorem sortSlots_sorted (hc : so.Consistent le values) (hvals : ∀ slot ∈ array, slot.val ∈ values)
    (hpos : ∀ a ∈ array, ∀ b ∈ array, a.pos = b.pos → a = b) (w : World α σ) :
    (sortSlots so array ⟨false, fun _ => none, w⟩).1.Pairwise (Before le) := by
  obtain ⟨I, hI, hagrees⟩ : ∃ I : Context α σ → Prop, I ⟨false, fun _ => none, w⟩ ∧
      Agrees (jsArrayCmpGeneric so) (Before le) (· ∈ array) I := by
    cases hm : so.method with
    | some call => exact ⟨(·.exception = false), rfl, agrees_method hm hc hvals⟩
    | none =>
      have hdec := hc.decides
      simp only [Sorter.Decides, hm] at hdec
      obtain ⟨text, htext, hle⟩ := hdec
      exact ⟨_, ⟨rfl, fun _ _ _ h => by cases h⟩, agrees_toString hm htext hle hc.preorder hvals hpos⟩
  cases array with
  | nil => exact .nil
  | cons slot array =>
    have hsound : Sound (· ∈ slot :: array) I
        ⟨fun i => (slot :: array).getD i slot, ⟨false, fun _ => none, w⟩⟩ := by
      refine ⟨fun i => ?_, hI⟩
      simp only [List.getD_eq_getElem?_getD]
      cases hi : (slot :: array)[i]? with
      | none => exact List.mem_cons_self ..
      | some b => exact List.mem_of_getElem? hi
    have hsorted := rqsort_sorted hagrees hsound (slot :: array).length
    refine List.pairwise_iff_getElem.mpr fun i j hi hj hij => ?_
    simp only [sortSlots, List.length_map, List.length_range] at hi hj
    simp only [sortSlots, List.getElem_map, List.getElem_range]
    exact hsorted i j (Nat.zero_le _) hij hj

end Order

/-! ## The elements that are read -/

omit [DecidableEq α] in
theorem mem_gather {slot : ValueSlot α} :
    slot ∈ gather elements len ↔ slot.pos < len ∧ elements slot.pos = some (.defined slot.val) := by
  have hslot : ∀ i, slotAt elements i = some slot ↔ slot.pos = i ∧ elements i = some (.defined slot.val) := by
    intro i
    unfold slotAt
    split
    · rename_i v hv
      rw [hv, Option.some.injEq, Option.some.injEq, Value.defined.injEq]
      constructor
      · rintro rfl
        exact ⟨rfl, rfl⟩
      · rintro ⟨rfl, rfl⟩
        rfl
    · rename_i hne
      refine iff_of_false nofun ?_
      rintro ⟨-, h⟩
      exact hne _ h
  simp only [gather, List.mem_filterMap, List.mem_range, hslot]
  constructor
  · rintro ⟨i, hi, rfl, h⟩
    exact ⟨hi, h⟩
  · rintro ⟨hi, h⟩
    exact ⟨_, hi, rfl, h⟩

omit [DecidableEq α] in
/-- A slot is known by its place. -/
theorem gather_pos (ha : a ∈ gather elements len) (hb : b ∈ gather elements len)
    (h : a.pos = b.pos) : a = b := by
  have hval := (mem_gather.mp ha).2.symm.trans (h ▸ (mem_gather.mp hb).2)
  obtain ⟨v, p⟩ := a
  obtain ⟨v', p'⟩ := b
  obtain rfl : v = v' := Value.defined.inj (Option.some.inj hval)
  obtain rfl : p = p' := h
  rfl

omit [DecidableEq α] in
/-- There is one list of the slots in order. -/
theorem eq_of_before {le : α → α → Prop} {l l' : List (ValueSlot α)}
    (hl : l.Perm (gather elements len)) (hl' : l'.Perm (gather elements len))
    (h : l.Pairwise (Before le)) (h' : l'.Pairwise (Before le)) : l = l' := by
  refine (hl.trans hl'.symm).eq_of_pairwise (fun a b ha hb hab hba => ?_) h h'
  exact gather_pos (hl.mem_iff.mp ha) (hl'.mem_iff.mp hb)
    (Nat.le_antisymm (hab.2 hba.1) (hba.2 hab.1))

/-! ## The elements that stay in place -/

/-- The slots that have not moved. -/
def inPlace (array : List (ValueSlot α)) : List (ValueSlot α) :=
  (array.zipIdx.filter fun x => x.1.pos = x.2).map Prod.fst

/-- When the slots are written back, the array still holds the elements of those that have not
moved: these elements on the whole, and each in its place if the comparison is consistent. -/
structure Undisturbed (so : Sorter α σ) (len : ℕ) (w : World α σ) : Prop where
  perm : ((inPlace (sortRead so len w).1).map fun slot =>
      (sortRead so len w).2.world.elements slot.pos).Perm
    ((inPlace (sortRead so len w).1).map fun slot => some (.defined slot.val))
  own : (∃ le, so.Consistent le ((gather w.elements len).map ValueSlot.val)) →
    ∀ slot ∈ inPlace (sortRead so len w).1,
      (sortRead so len w).2.world.elements slot.pos = some (.defined slot.val)

/-- What the array holds where the slots have been written. -/
def writtenList (elements : ℕ → Option (Value α)) (array : List (ValueSlot α)) :
    List (Option (Value α)) :=
  array.zipIdx.map fun x => if x.1.pos = x.2 then elements x.1.pos else some (.defined x.1.val)

omit [DecidableEq α] in
theorem laid_iff :
    Laid array' count len (writeBack array count len elements) ∧ array'.length = array.length ↔
      writtenList elements array = array'.map fun slot => some (.defined slot.val) := by
  have hget : ∀ i (h : i < array.length) (h' : i < (writtenList elements array).length),
      (writtenList elements array)[i] = written elements array i h := by
    intro i h h'
    simp only [writtenList, List.getElem_map, List.getElem_zipIdx, Nat.zero_add, written]
    split
    · rename_i hpos
      rw [hpos]
    · rfl
  have hlen : (writtenList elements array).length = array.length := by
    rw [writtenList, List.length_map, List.length_zipIdx]
  constructor
  · rintro ⟨hlaid, hlen'⟩
    refine List.ext_getElem (by rw [hlen, List.length_map, hlen']) fun i h h' => ?_
    have hi : i < array.length := hlen ▸ h
    rw [hget i hi, (laid_writeBack_iff hlen').mp hlaid i hi (hlen'.symm ▸ hi), List.getElem_map]
  · intro heq
    have hlen' : array'.length = array.length := by
      rw [← hlen, heq, List.length_map]
    refine ⟨(laid_writeBack_iff hlen').mpr fun i hi hi' => ?_, hlen'⟩
    have h : i < (writtenList elements array).length := hlen.symm ▸ hi
    rw [← hget i hi h]
    simp only [heq, List.getElem_map]

omit [DecidableEq α] in
/-- A map that differs from another one on some elements only. -/
theorem map_ite_perm_iff (p : β → Prop) [DecidablePred p] (f g : β → γ) (l : List β) :
    (l.map fun x => if p x then f x else g x).Perm (l.map g) ↔
      ((l.filter p).map f).Perm ((l.filter p).map g) := by
  have hsplit : ∀ h : β → γ, (l.map h).Perm
      ((l.filter p).map h ++ (l.filter fun x => !decide (p x)).map h) := by
    intro h
    rw [← List.map_append]
    exact ((List.filter_append_perm _ l).map h).symm
  have hin : (l.filter p).map (fun x => if p x then f x else g x) = (l.filter p).map f :=
    List.map_congr_left fun x hx => if_pos (of_decide_eq_true (List.mem_filter.mp hx).2)
  have hout : (l.filter fun x => !decide (p x)).map (fun x => if p x then f x else g x) =
      (l.filter fun x => !decide (p x)).map g :=
    List.map_congr_left fun x hx => if_neg (by simpa using (List.mem_filter.mp hx).2)
  have hleft := hsplit fun x => if p x then f x else g x
  rw [hin, hout] at hleft
  exact (hleft.congr_left _).trans (((hsplit g).congr_right _).trans (List.perm_append_right_iff _))

omit [DecidableEq α] in
theorem map_val_eq_zipIdx (array : List (ValueSlot α)) :
    (array.map fun slot => some (Value.defined slot.val)) =
      array.zipIdx.map fun x => some (Value.defined x.1.val) := by
  conv_lhs => rw [← List.zipIdx_map_fst 0 array, List.map_map]
  rfl

omit [DecidableEq α] in
/-- Only the slots that have not moved can make a difference. -/
theorem writtenList_perm_iff (array : List (ValueSlot α)) :
    (writtenList elements array).Perm (array.map fun slot => some (.defined slot.val)) ↔
      ((inPlace array).map fun slot => elements slot.pos).Perm
        ((inPlace array).map fun slot => some (.defined slot.val)) := by
  rw [map_val_eq_zipIdx, inPlace, List.map_map, List.map_map]
  exact map_ite_perm_iff (fun x : ValueSlot α × ℕ => x.1.pos = x.2) _ _ _

omit [DecidableEq α] in
theorem writtenList_eq_iff (array : List (ValueSlot α)) :
    (writtenList elements array = array.map fun slot => some (.defined slot.val)) ↔
      ∀ slot ∈ inPlace array, elements slot.pos = some (.defined slot.val) := by
  have hmem : ∀ slot, slot ∈ inPlace array ↔ ∃ x ∈ array.zipIdx, x.1.pos = x.2 ∧ x.1 = slot := by
    intro slot
    simp only [inPlace, List.mem_map, List.mem_filter, decide_eq_true_eq, and_assoc]
  rw [map_val_eq_zipIdx, writtenList, List.map_inj_left]
  constructor
  · intro h slot hslot
    obtain ⟨x, hx, hpos, rfl⟩ := (hmem slot).mp hslot
    exact (if_pos hpos).symm.trans (h x hx)
  · intro h x hx
    split
    · rename_i hpos
      exact h x.1 ((hmem _).mpr ⟨x, hx, hpos, rfl⟩)
    · rfl

/-- A permutation of the values is one of the slots. -/
theorem exists_perm_map {f : β → γ} {l : List β} {l' : List γ} (h : l'.Perm (l.map f)) :
    ∃ m : List β, m.Perm l ∧ l' = m.map f := by
  have hval : List.Forall₂ (fun y x => y = f x) (l.map f) l :=
    List.forall₂_map_left_iff.mpr (List.forall₂_same.mpr fun _ _ => rfl)
  obtain ⟨m, hm, hperm⟩ := List.perm_comp_forall₂ h hval
  exact ⟨m, hperm, List.forall₂_eq_eq_eq ▸ List.forall₂_map_right_iff.mpr hm⟩

/-! ## The result -/

theorem sortRead_exception (h : so.NoThrow) (len : ℕ) (w : World α σ) :
    (sortRead so len w).2.exception = false :=
  sortSlots_context (fun ap bp psc => jsArrayCmpGeneric_exception h ap bp psc) rfl

theorem jsArraySort_eq (h : so.NoThrow) (len : ℕ) (w : World α σ) :
    jsArraySort so len w = (true, { (sortRead so len w).2.world with
      elements := writeBack (sortRead so len w).1 (undefinedCount w.elements len) len
        (sortRead so len w).2.world.elements }) := by
  have hne : ¬(sortRead so len w).2.exception = true := by
    rw [sortRead_exception h]
    exact Bool.false_ne_true
  exact if_neg hne

/-- A consistent comparison puts what has been read in order. -/
theorem sortRead_sorted {le : α → α → Prop}
    (hc : so.Consistent le ((gather w.elements len).map ValueSlot.val)) :
    (sortRead so len w).1.Pairwise (Before le) :=
  sortSlots_sorted hc (fun _ hs => List.mem_map_of_mem hs) (fun _ ha _ hb => gather_pos ha hb) w

theorem StableSort.undisturbed (h : StableSort so len w.elements (writeBack (sortRead so len w).1
      (undefinedCount w.elements len) len (sortRead so len w).2.world.elements)) :
    Undisturbed so len w := by
  obtain ⟨array, hperm, hlaid, hsorted⟩ := h
  have hsort : (sortRead so len w).1.Perm (gather w.elements len) := sortSlots_perm _ _
  have hwritten := laid_iff.mp ⟨hlaid, (hperm.trans hsort.symm).length_eq⟩
  constructor
  · rw [← writtenList_perm_iff, hwritten]
    exact (hperm.trans hsort.symm).map _
  · rintro ⟨le, hc⟩
    have heq := eq_of_before hperm hsort (hsorted le hc) (sortRead_sorted hc)
    exact (writtenList_eq_iff _).mp (heq ▸ hwritten)

theorem Undisturbed.stableSort (h : Undisturbed so len w) :
    StableSort so len w.elements (writeBack (sortRead so len w).1
      (undefinedCount w.elements len) len (sortRead so len w).2.world.elements) := by
  have hsort : (sortRead so len w).1.Perm (gather w.elements len) := sortSlots_perm _ _
  by_cases hex : ∃ le, so.Consistent le ((gather w.elements len).map ValueSlot.val)
  · exact ⟨(sortRead so len w).1, hsort, (laid_iff.mpr ((writtenList_eq_iff _).mpr (h.own hex))).1,
      fun le hc => sortRead_sorted hc⟩
  · -- any arrangement will do
    obtain ⟨array, hperm, heq⟩ := exists_perm_map
      (((writtenList_perm_iff _).mpr h.perm).trans (hsort.map _))
    exact ⟨array, hperm, (laid_iff.mpr heq).1, fun le hc => absurd ⟨le, hc⟩ hex⟩

/-- No call changes the elements of the array. -/
def Sorter.Leaves (so : Sorter α σ) : Prop :=
  match so.method with
  | some call => ∀ x y w, (call x y w).2.elements = w.elements
  | none => ∀ x w, (so.toString x w).2.elements = w.elements

omit [DecidableEq α] in
theorem slotString_elements (h : ∀ x w, (so.toString x w).2.elements = w.elements)
    (ap : ValueSlot α) (psc : Context α σ) :
    (slotString so ap psc).2.world.elements = psc.world.elements := by
  unfold slotString
  split
  · rfl
  · exact h _ _

theorem jsArrayCmpGeneric_elements (h : so.Leaves) (ap bp : ValueSlot α) (psc : Context α σ) :
    (jsArrayCmpGeneric so ap bp psc).2.world.elements = psc.world.elements := by
  unfold jsArrayCmpGeneric Sorter.Leaves at *
  split
  · rfl
  cases hm : so.method with
  | some call =>
    simp only [hm] at h ⊢
    split
    · rfl
    · have hcall := h ap.val bp.val psc.world
      split
      · rename_i hc
        exact (congrArg (·.2.elements) hc).symm.trans hcall
      · rename_i hc
        exact (congrArg (·.2.elements) hc).symm.trans hcall
  | none =>
    simp only [hm] at h ⊢
    have ha := slotString_elements h ap psc
    split
    · rename_i hc
      exact (congrArg (·.2.world.elements) hc).symm.trans ha
    · rename_i psca hc
      have hae : psca.world.elements = psc.world.elements :=
        (congrArg (·.2.world.elements) hc).symm.trans ha
      have hb := (slotString_elements h bp psca).trans hae
      split
      · rename_i hc
        exact (congrArg (·.2.world.elements) hc).symm.trans hb
      · rename_i hc
        exact (congrArg (·.2.world.elements) hc).symm.trans hb

/-- A comparison function that leaves the array alone disturbs nothing. -/
theorem Undisturbed.of_leaves (h : so.Leaves) (len : ℕ) (w : World α σ) : Undisturbed so len w := by
  have helements : (sortRead so len w).2.world.elements = w.elements :=
    sortSlots_context (P := (·.world.elements = w.elements))
      (fun ap bp psc hp => (jsArrayCmpGeneric_elements h ap bp psc).trans hp) rfl
  have hown : ∀ slot ∈ inPlace (sortRead so len w).1,
      (sortRead so len w).2.world.elements slot.pos = some (.defined slot.val) := by
    intro slot hslot
    obtain ⟨x, hx, rfl⟩ := List.mem_map.mp hslot
    have hmem : x.1 ∈ (sortRead so len w).1 :=
      List.fst_mem_of_mem_zipIdx (List.mem_filter.mp hx).1
    rw [helements]
    exact (mem_gather.mp ((sortSlots_perm _ _).mem_iff.mp hmem)).2
  exact ⟨.of_eq (List.map_congr_left hown), fun _ => hown⟩

/-- **When the sort is stable**: no exception is thrown, and the array is sorted unless the
comparison function has disturbed an element that stays in its place. -/
theorem jsArraySort_stable_iff (so : Sorter α σ) (h : so.NoThrow) (len : ℕ) (w : World α σ) :
    (jsArraySort so len w).1 = true ∧
      (StableSort so len w.elements (jsArraySort so len w).2.elements ↔ Undisturbed so len w) := by
  rw [jsArraySort_eq h]
  exact ⟨rfl, StableSort.undisturbed, Undisturbed.stableSort⟩

/-- A comparison function that leaves the array alone. -/
def subtract : Sorter ℤ Unit where
  method := some fun x y w => (some (x - y), w)
  toString _ w := (none, w)

/-- The array `[3, , undefined, 1]`. -/
def holed : World ℤ Unit where
  elements i := match i with
    | 0 => some (.defined 3)
    | 2 => some .undefined
    | 3 => some (.defined 1)
    | _ => none
  rest := ()

theorem subtract_stable : (jsArraySort subtract 4 holed).1 = true ∧
    StableSort subtract 4 holed.elements (jsArraySort subtract 4 holed).2.elements := by
  obtain ⟨hok, hiff⟩ := jsArraySort_stable_iff subtract (fun _ _ _ => Option.some_ne_none _) 4 holed
  exact ⟨hok, hiff.mpr (.of_leaves (show subtract.Leaves from fun _ _ _ => rfl) 4 holed)⟩

/-- A comparison function that writes to the array: `(x, y) => { a[0] = 99; return x - y }`. -/
def subtractAndWrite : Sorter ℤ Unit where
  method := some fun x y w =>
    (some (x - y), { w with elements := Function.update w.elements 0 (some (.defined 99)) })
  toString _ w := (none, w)

/-- The array `[1, 2]`. -/
def oneTwo : World ℤ Unit where
  elements i := if i < 2 then some (.defined (i + 1)) else none
  rest := ()

/-- The first element is in its place, and 99 stays there. -/
theorem subtractAndWrite_elements :
    (jsArraySort subtractAndWrite 2 oneTwo).2.elements 0 = some (.defined 99) := by
  have hloop : ∀ s : Memory (ValueSlot ℤ) (Context ℤ Unit),
      rqsort (jsArrayCmpGeneric subtractAndWrite) 2 s =
        insertionSort (jsArrayCmpGeneric subtractAndWrite) 0 1 s := by
    intro s
    rw [rqsort, if_neg (by decide), rqsortLoop, if_neg (by decide), rqsortLoop]
    rfl
  have hgather : gather oneTwo.elements 2 = [⟨1, 0⟩, ⟨2, 1⟩] := by decide
  let s := insertionSort (jsArrayCmpGeneric subtractAndWrite) 0 1
    ⟨fun i => [⟨1, 0⟩, ⟨2, 1⟩].getD i ⟨1, 0⟩, ⟨false, fun _ => none, oneTwo⟩⟩
  have hsort : sortRead subtractAndWrite 2 oneTwo = ((List.range 2).map s.elem, s.world) := by
    have hlen : [(⟨1, 0⟩ : ValueSlot ℤ), ⟨2, 1⟩].length = 2 := rfl
    rw [sortRead, hgather, sortSlots, hlen, hloop]
  rw [jsArraySort, hsort]
  rfl

theorem subtractAndWrite_not_stable : ¬∀ (so : Sorter ℤ Unit) (len : ℕ) (w : World ℤ Unit),
    so.NoThrow → StableSort so len w.elements (jsArraySort so len w).2.elements := by
  intro h
  obtain ⟨array, hperm, hlaid, -⟩ := h subtractAndWrite 2 oneTwo fun _ _ _ => Option.some_ne_none _
  have hlen : array.length = 2 := hperm.length_eq
  have hfirst := hlaid.defined 0 (by omega)
  rw [subtractAndWrite_elements] at hfirst
  have hval : (array[0]).val = 99 := (Value.defined.inj (Option.some.inj hfirst)).symm
  -- but 99 was not read
  have hread := (mem_gather.mp (hperm.mem_iff.mp (List.getElem_mem (by omega : 0 < array.length)))).2
  simp only [oneTwo] at hread
  split at hread
  · have h99 := Value.defined.inj (Option.some.inj hread)
    omega
  · cases hread

end QuickJs.ArraySort
