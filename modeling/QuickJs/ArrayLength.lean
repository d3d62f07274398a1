import QuickJs.Shape
import Mathlib

/-!
# The length of an array

A shorter length removes the elements above it, either one index after the other or in one pass over
the property table. A deletion may compact the table, which moves entries to positions that the pass
has left behind: such an entry stays, whatever its index.
-/

namespace QuickJs.ArrayLength

open Shape (configurable jsUndefined JSValue Result)

/-! ## Arrays -/

/-- Atoms are interned, so that two indices with one value are one atom. -/
inductive JSAtom
  /-- `JS_ATOM_NULL`, the atom of a deleted property -/
  | null
  /-- what `JS_AtomIsArrayIndex` accepts -/
  | index (idx : ℕ)
  | name (n : ℕ)
  deriving DecidableEq

/-- An entry of the table with its value: `JSShapeProperty` and `JSProperty`. -/
structure JSProperty where
  atom : JSAtom
  flags : BitVec 6
  value : JSValue
  deriving DecidableEq

/-- What a deletion leaves of an entry. -/
def JSProperty.deleted : JSProperty := ⟨.null, 0, jsUndefined⟩

def JSProperty.isLive (pr : JSProperty) : Bool := pr.atom ≠ .null

/-- The entries that have not been deleted. -/
def liveOf (prop : List JSProperty) : List JSProperty := prop.filter JSProperty.isLive

/-- An array that is not a fast array. The first entry of the table, `length`, is apart: it is not
configurable and no index. Entries are found through the hash table of the shape; every allocation
succeeds. -/
structure JSArray where
  lengthWritable : Bool
  length : ℕ
  /-- the table, from its second entry -/
  prop : List JSProperty
  deletedPropCount : ℕ
  deriving DecidableEq

namespace JSArray

def propCount (a : JSArray) : ℕ := a.prop.length + 1

/-- The own properties but `length`. -/
def live (a : JSArray) : List JSProperty := liveOf a.prop

/-- `compact_properties`. -/
def compactProperties (a : JSArray) : JSArray := { a with prop := a.live, deletedPropCount := 0 }

end JSArray

/-- The test of `delete_property` for too many deleted properties. -/
def shouldCompact (deleted count : ℕ) : Bool := 8 ≤ deleted && count / 2 ≤ deleted

namespace JSArray

/-- An entry is given up: the end of `delete_property`. -/
def giveUp (a : JSArray) (h : ℕ) : JSArray :=
  let a' := { a with prop := a.prop.set h .deleted, deletedPropCount := a.deletedPropCount + 1 }
  if shouldCompact a'.deletedPropCount a.propCount then a'.compactProperties else a'

/-- `delete_property`. -/
def deleteProperty (a : JSArray) (atom : JSAtom) : Bool × JSArray :=
  match a.prop.findIdx? (·.atom = atom) with
  | none => (true, a)
  | some h =>
    if (a.prop[h]?).any (configurable ·.flags) then (true, a.giveUp h) else (false, a)

/-- The loop over the indices from `cur_len` down, and where it stops. -/
def removeLast (len : ℕ) : ℕ → JSArray → ℕ × JSArray
  | 0, a => (0, a)
  | curLen + 1, a =>
    if len < curLen + 1 then
      match a.deleteProperty (.index curLen) with
      | (true, a) => removeLast len curLen a
      | (false, a) => (curLen + 1, a)
    else (curLen + 1, a)

end JSArray

/-- The first pass over the table: the length at which an element that is not configurable stops. -/
def lastFixed (len : ℕ) (prop : List JSProperty) : ℕ :=
  prop.foldl (fun curLen pr => match pr.atom with
    | .index idx => if curLen ≤ idx && !configurable pr.flags then idx + 1 else curLen
    | _ => curLen) len

/-- The test of the second pass. -/
def JSProperty.beyond (curLen : ℕ) (pr : JSProperty) : Bool :=
  match pr.atom with
  | .index idx => curLen ≤ idx
  | _ => false

namespace JSArray

/-- One step of the second pass. -/
def removeAt (curLen : ℕ) (a : JSArray) (i : ℕ) : JSArray :=
  match a.prop[i]? with
  | none => a
  | some pr => if pr.beyond curLen then (a.deleteProperty pr.atom).2 else a

/-- The second pass over the table. It ends where the table does, wherever that is by then. -/
def removeAll (curLen : ℕ) (a : JSArray) : JSArray :=
  (List.range' 0 a.prop.length).foldl (removeAt curLen) a

/-- `set_array_length`, once the length has been converted; `throws` is whether the flags ask for
an exception. -/
def setArrayLength (a : JSArray) (len : ℕ) (throws : Bool) : Result × JSArray :=
  let failed : Result := if throws then .exception else .false
  if a.lengthWritable then
    let (curLen, a') :=
      if len < a.length then
        if a.length - len ≤ a.propCount then a.removeLast len a.length
        else (lastFixed len a.prop, a.removeAll (lastFixed len a.prop))
      else (len, a)
    (if len < curLen then failed else .true, { a' with length := curLen })
  else (failed, a)

end JSArray

/-! ## What has to hold -/

/-- Exactly the elements from `n` on are gone, and nothing else has changed. -/
def KeepsBelow (n : ℕ) (a a' : JSArray) : Prop :=
  ∀ pr, pr ∈ a'.live ↔ pr ∈ a.live ∧ pr.beyond n = false

/-- The length has been set, or an element that is not configurable has stopped it. -/
def LengthSet (a : JSArray) (len : ℕ) (r : Result × JSArray) : Prop :=
  (r.1 = .true → r.2.length = len ∧ KeepsBelow len a r.2) ∧
    (r.1 ≠ .true → a.lengthWritable → ∃ pr ∈ a.live, ∃ idx, pr.atom = .index idx ∧ len ≤ idx ∧
      configurable pr.flags = false ∧ r.2.length = idx + 1 ∧ KeepsBelow (idx + 1) a r.2)

/-- In a pass over the rest of a table no entry to remove is skipped. `gap` is how many of the
entries passed so far have been given up. -/
def NothingSkipped (curLen gap deleted count : ℕ) (rest : List JSProperty) : Prop :=
  match rest with
  | [] => True
  | pr :: rest =>
    if pr.beyond curLen then
      if shouldCompact (deleted + 1) count then
        (∀ pr ∈ (liveOf rest).take (gap + 1), pr.beyond curLen = false) ∧
          NothingSkipped curLen 0 0 (count - (deleted + 1)) ((liveOf rest).drop (gap + 1))
      else NothingSkipped curLen (gap + 1) (deleted + 1) count rest
    else NothingSkipped curLen (if pr.isLive then gap else gap + 1) deleted count rest
  termination_by rest.length
  decreasing_by
    · have hle : (liveOf rest).length ≤ rest.length := List.length_filter_le _ _
      rw [List.length_drop, List.length_cons]
      omega
    · exact Nat.lt_succ_self _
    · exact Nat.lt_succ_self _

/-- The condition for `set_array_length`: nothing is skipped where it passes the table, and no element
is at the length or above where it does not. -/
def JSArray.Removable (a : JSArray) (len : ℕ) : Prop :=
  if a.lengthWritable then
    if len < a.length ∧ a.propCount < a.length - len then
      NothingSkipped (lastFixed len a.prop) 0 a.deletedPropCount a.propCount a.prop
    else ∀ pr ∈ a.live, pr.beyond (max len a.length) = false
  else True

/-- The table of an array: no property is there twice, and what has been deleted is counted. -/
structure JSArray.Valid (a : JSArray) : Prop where
  distinct : a.prop.Pairwise fun pr pr' => pr.isLive → pr.atom ≠ pr'.atom
  deleted : a.deletedPropCount = a.prop.countP (!·.isLive)

/-- An array in its slow representation. -/
structure SlowArray extends JSArray where
  valid : toJSArray.Valid

variable {a a' : JSArray} {pre post prop : List JSProperty} {pr : JSProperty} {n len curLen : ℕ}

/-! ## Tables -/

/-- `JSArray.Valid.distinct` -/
abbrev Distinct (prop : List JSProperty) : Prop :=
  prop.Pairwise fun pr pr' => pr.isLive → pr.atom ≠ pr'.atom

theorem mem_liveOf : pr ∈ liveOf prop ↔ pr ∈ prop ∧ pr.isLive := List.mem_filter

theorem liveOf_append : liveOf (pre ++ post) = liveOf pre ++ liveOf post := List.filter_append ..

theorem liveOf_liveOf : liveOf (liveOf prop) = liveOf prop := by
  rw [liveOf, liveOf, List.filter_filter]
  exact List.filter_congr fun pr _ => Bool.and_self _

theorem isLive_of_beyond (h : pr.beyond n = true) : pr.isLive = true := by
  rw [JSProperty.beyond] at h
  rw [JSProperty.isLive]
  split at h
  · rename_i idx hatom
    rw [hatom]
    rfl
  · cases h

theorem countP_liveOf : (liveOf prop).countP (!·.isLive) = 0 := by
  refine List.countP_eq_zero.mpr fun pr hpr => ?_
  rw [(mem_liveOf.mp hpr).2]
  exact Bool.false_ne_true

theorem countP_cons (h : pr.isLive) : (pr :: prop).countP (!·.isLive) = prop.countP (!·.isLive) := by
  refine List.countP_cons_of_neg ?_
  rw [h]
  exact Bool.false_ne_true

/-- What is not live has been deleted. -/
theorem length_liveOf : (liveOf prop).length + prop.countP (!·.isLive) = prop.length := by
  rw [liveOf, ← List.countP_eq_length_filter, List.length_eq_countP_add_countP JSProperty.isLive]
  refine congrArg _ (List.countP_congr fun pr _ => ?_)
  rw [Bool.not_eq_true', decide_eq_true_eq, Bool.not_eq_true]

theorem Distinct.not_mem (h : Distinct (pre ++ pr :: post)) (hpr : pr.isLive) :
    (∀ pr' ∈ pre, pr'.atom ≠ pr.atom) ∧ ∀ pr' ∈ post, pr'.atom ≠ pr.atom := by
  obtain ⟨-, hpost, hcross⟩ := List.pairwise_append.mp h
  refine ⟨fun pr' hpr' heq => ?_, fun pr' hpr' heq => ?_⟩
  · have hlive : pr'.isLive := by
      rw [JSProperty.isLive, heq]
      exact hpr
    exact hcross pr' hpr' pr List.mem_cons_self hlive heq
  · exact List.rel_of_pairwise_cons hpost hpr' hpr heq.symm

theorem Distinct.deleted (h : Distinct (pre ++ pr :: post)) : Distinct (pre ++ .deleted :: post) := by
  obtain ⟨hpre, hpost, hcross⟩ := List.pairwise_append.mp h
  refine List.pairwise_append.mpr ⟨hpre, List.pairwise_cons.mpr ⟨fun _ _ hlive => ?_, hpost.of_cons⟩,
    fun pr' hpr' pr'' hpr'' hlive => ?_⟩
  · cases hlive
  · rcases List.mem_cons.mp hpr'' with rfl | hpr''
    · exact of_decide_eq_true hlive
    · exact hcross pr' hpr' pr'' (List.mem_cons_of_mem _ hpr'') hlive

/-! ## `delete_property` -/

/-- A live entry goes. -/
def Without (a : JSArray) (atom : JSAtom) (a' : JSArray) : Prop :=
  a'.Valid ∧ a'.lengthWritable = a.lengthWritable ∧ a'.length = a.length ∧
    ∀ pr, pr ∈ a'.live ↔ pr ∈ a.live ∧ pr.atom ≠ atom

/-- An entry is given up; the table is compacted after that, or stays. -/
theorem giveUp_eq (a : JSArray) (hprop : a.prop = pre ++ pr :: post) : a.giveUp pre.length =
      if shouldCompact (a.deletedPropCount + 1) a.propCount then
        { a with prop := liveOf pre ++ liveOf post, deletedPropCount := 0 }
      else { a with prop := pre ++ .deleted :: post, deletedPropCount := a.deletedPropCount + 1 } := by
  have hset : a.prop.set pre.length .deleted = pre ++ .deleted :: post := by
    rw [hprop, List.set_append_right _ _ (Nat.le_refl _), Nat.sub_self, List.set_cons_zero]
  rw [JSArray.giveUp, hset]
  split
  · rw [JSArray.compactProperties, JSArray.live, liveOf_append]
    rfl
  · rfl

theorem Valid.giveUp (h : a.Valid) (hprop : a.prop = pre ++ pr :: post) (hlive : pr.isLive) :
    Without a pr.atom (a.giveUp pre.length) := by
  obtain ⟨hdistinct, hdeleted⟩ := h
  rw [hprop] at hdistinct hdeleted
  obtain ⟨hpre, hpost⟩ := Distinct.not_mem hdistinct hlive
  have hdistinct' := Distinct.deleted hdistinct
  have hmem (pr' : JSProperty) :
      pr' ∈ liveOf pre ++ liveOf post ↔ pr' ∈ a.live ∧ pr'.atom ≠ pr.atom := by
    rw [JSArray.live, hprop, ← liveOf_append, mem_liveOf, mem_liveOf, List.mem_append, List.mem_append,
      List.mem_cons]
    constructor
    · rintro ⟨hpr' | hpr', hlive'⟩
      · exact ⟨⟨.inl hpr', hlive'⟩, hpre pr' hpr'⟩
      · exact ⟨⟨.inr (.inr hpr'), hlive'⟩, hpost pr' hpr'⟩
    · rintro ⟨⟨hpr' | rfl | hpr', hlive'⟩, hne⟩
      · exact ⟨.inl hpr', hlive'⟩
      · exact absurd rfl hne
      · exact ⟨.inr hpr', hlive'⟩
  rw [giveUp_eq a hprop]
  split
  · refine ⟨⟨?_, ?_⟩, rfl, rfl, fun pr' => ?_⟩
    · rw [← liveOf_append]
      exact (hdistinct.sublist ((List.Sublist.refl pre).append (List.sublist_cons_self pr post))).filter _
    · rw [← liveOf_append, countP_liveOf]
    · exact Iff.trans (by rw [JSArray.live, liveOf_append, liveOf_liveOf, liveOf_liveOf]) (hmem pr')
  · refine ⟨⟨hdistinct', ?_⟩, rfl, rfl, fun pr' => ?_⟩
    · rw [hdeleted, List.countP_append, List.countP_append, countP_cons hlive, List.countP_cons_of_pos rfl]
      rfl
    · refine Iff.trans ?_ (hmem pr')
      rw [JSArray.live, liveOf_append, liveOf, liveOf, liveOf, List.filter_cons_of_neg Bool.false_ne_true]

/-- `delete_property` of a property that is there. -/
theorem deleteProperty_of_eq (h : a.Valid) (hprop : a.prop = pre ++ pr :: post) (hlive : pr.isLive) :
    a.deleteProperty pr.atom = if configurable pr.flags then (true, a.giveUp pre.length) else (false, a) := by
  obtain ⟨hpre, -⟩ := Distinct.not_mem (hprop ▸ h.distinct) hlive
  have hfind : a.prop.findIdx? (·.atom = pr.atom) = some pre.length := by
    have hnone : pre.findIdx? (·.atom = pr.atom) = none :=
      List.findIdx?_eq_none_iff.mpr fun pr' hpr' => decide_eq_false (hpre pr' hpr')
    rw [hprop, List.findIdx?_append, hnone, List.findIdx?_cons, if_pos (decide_eq_true rfl),
      Option.none_or, Option.map_some, Nat.zero_add]
  have hget : a.prop[pre.length]? = some pr := by
    rw [hprop, List.getElem?_append_right (Nat.le_refl _), Nat.sub_self, List.getElem?_cons_zero]
  rw [JSArray.deleteProperty, hfind]
  dsimp only
  rw [hget, Option.any_some]

theorem deleteProperty_of_not_mem {atom : JSAtom} (h : ∀ pr ∈ a.prop, pr.atom ≠ atom) :
    a.deleteProperty atom = (true, a) := by
  have hfind : a.prop.findIdx? (·.atom = atom) = none :=
    List.findIdx?_eq_none_iff.mpr fun pr hpr => decide_eq_false (h pr hpr)
  rw [JSArray.deleteProperty, hfind]

/-- What `delete_property` does with an index. -/
theorem deleteProperty_index (h : a.Valid) (idx : ℕ) :
    (∃ a', a.deleteProperty (.index idx) = (true, a') ∧ Without a (.index idx) a') ∨
      a.deleteProperty (.index idx) = (false, a) ∧
        ∃ pr ∈ a.live, pr.atom = .index idx ∧ configurable pr.flags = false := by
  by_cases hmem : ∃ pr ∈ a.prop, pr.atom = .index idx
  · obtain ⟨pr, hpr, hatom⟩ := hmem
    obtain ⟨pre, post, hprop⟩ := List.append_of_mem hpr
    have hlive : pr.isLive := by
      rw [JSProperty.isLive, hatom]
      rfl
    have hdelete := deleteProperty_of_eq h hprop hlive
    rw [hatom] at hdelete
    cases hconf : configurable pr.flags with
    | true =>
      rw [hconf] at hdelete
      exact .inl ⟨_, hdelete, hatom ▸ Valid.giveUp h hprop hlive⟩
    | false =>
      rw [hconf] at hdelete
      exact .inr ⟨hdelete, pr, mem_liveOf.mpr ⟨hpr, hlive⟩, hatom, hconf⟩
  · refine .inl ⟨a, deleteProperty_of_not_mem fun pr hpr hatom => hmem ⟨pr, hpr, hatom⟩, h, rfl, rfl,
      fun pr => (and_iff_left_of_imp fun hpr hatom => hmem ⟨pr, (mem_liveOf.mp hpr).1, hatom⟩).symm⟩

/-! ## Index after index -/

theorem beyond_eq_false : pr.beyond n = false ↔ ∀ idx, pr.atom = .index idx → idx < n := by
  rw [JSProperty.beyond]
  split
  · rename_i idx hatom
    rw [decide_eq_false_iff_not, Nat.not_le]
    constructor
    · intro hlt idx' hatom'
      cases hatom.symm.trans hatom'
      exact hlt
    · exact fun h => h idx hatom
  · rename_i hno
    exact iff_of_true rfl fun idx hatom => absurd hatom (hno idx)

/-- The loop has removed what is between where it stopped and where it began. -/
theorem removeLast_spec (h : a.Valid) (hle : len ≤ curLen) : ∃ n a', a.removeLast len curLen = (n, a') ∧
    len ≤ n ∧ n ≤ curLen ∧ a'.lengthWritable = a.lengthWritable ∧
    (∀ pr, pr ∈ a'.live ↔ pr ∈ a.live ∧ ∀ idx, pr.atom = .index idx → n ≤ idx → curLen ≤ idx) ∧
    (len < n → ∃ pr ∈ a.live, pr.atom = .index (n - 1) ∧ configurable pr.flags = false) := by
  induction curLen generalizing a with
  | zero =>
    exact ⟨0, a, rfl, hle, Nat.le_refl _, rfl,
      fun pr => (and_iff_left fun _ _ h => h).symm, fun hlt => absurd hlt (Nat.not_lt_zero _)⟩
  | succ curLen ih =>
    have hkeep (pr : JSProperty) :
        pr ∈ a.live ↔ pr ∈ a.live ∧ ∀ idx, pr.atom = .index idx → curLen + 1 ≤ idx → curLen + 1 ≤ idx :=
      (and_iff_left fun _ _ h => h).symm
    rw [JSArray.removeLast]
    split
    · rename_i hlt
      rcases deleteProperty_index h curLen with ⟨a₁, hdelete, h₁, hwritable, -, hlive⟩ | ⟨hdelete, hfixed⟩
      · rw [hdelete]
        obtain ⟨n, a', heq, hlen, hn, hwritable', hlive', hfixed⟩ := ih h₁ (Nat.le_of_lt_succ hlt)
        refine ⟨n, a', heq, hlen, Nat.le_succ_of_le hn, hwritable'.trans hwritable, fun pr => ?_,
          fun hlt => ?_⟩
        · rw [hlive', hlive, and_assoc]
          refine and_congr_right fun _ => ?_
          constructor
          · rintro ⟨hne, hbelow⟩ idx hatom hidx
            have hcur := hbelow idx hatom hidx
            refine Nat.lt_of_le_of_ne hcur fun heq => hne ?_
            rw [hatom, heq]
          · intro hbelow
            refine ⟨fun hatom => ?_, fun idx hatom hidx => Nat.le_of_succ_le (hbelow idx hatom hidx)⟩
            exact Nat.not_succ_le_self _ (hbelow curLen hatom hn)
        · obtain ⟨pr, hpr, hatom, hconf⟩ := hfixed hlt
          exact ⟨pr, ((hlive pr).mp hpr).1, hatom, hconf⟩
      · rw [hdelete]
        exact ⟨curLen + 1, a, rfl, hle, Nat.le_refl _, rfl, hkeep, fun _ => hfixed⟩
    · exact ⟨curLen + 1, a, rfl, hle, Nat.le_refl _, rfl, hkeep, fun hlt => absurd hlt ‹_›⟩

/-! ## The two passes -/

theorem beyond_mono {m : ℕ} (hle : m ≤ n) (h : pr.beyond n = true) : pr.beyond m = true := by
  rw [JSProperty.beyond] at h ⊢
  split at h
  · exact decide_eq_true (Nat.le_trans hle (of_decide_eq_true h))
  · cases h

/-- Where the first pass stands after the first entry. -/
theorem lastFixed_cons (pr : JSProperty) (prop : List JSProperty) (len : ℕ) : ∃ len₁,
    lastFixed len (pr :: prop) = lastFixed len₁ prop ∧ len ≤ len₁ ∧
    (pr.beyond len₁ → configurable pr.flags = true) ∧
    (len₁ = len ∨ ∃ idx, pr.atom = .index idx ∧ len ≤ idx ∧ configurable pr.flags = false ∧
      len₁ = idx + 1) := by
  rw [lastFixed, List.foldl_cons]
  split
  · rename_i idx hatom
    split
    · rename_i htest
      rw [Bool.and_eq_true, decide_eq_true_eq, Bool.not_eq_true'] at htest
      refine ⟨idx + 1, rfl, Nat.le_succ_of_le htest.1, fun hbeyond => ?_,
        .inr ⟨idx, hatom, htest.1, htest.2, rfl⟩⟩
      rw [JSProperty.beyond, hatom, decide_eq_true_eq] at hbeyond
      exact absurd hbeyond (Nat.not_succ_le_self idx)
    · rename_i htest
      refine ⟨len, rfl, Nat.le_refl _, fun hbeyond => ?_, .inl rfl⟩
      rw [JSProperty.beyond, hatom] at hbeyond
      dsimp only at hbeyond
      rw [hbeyond, Bool.true_and, Bool.not_eq_true', Bool.not_eq_false] at htest
      exact htest
  · rename_i hno
    refine ⟨len, rfl, Nat.le_refl _, fun hbeyond => ?_, .inl rfl⟩
    have hnot : pr.beyond len = false := beyond_eq_false.mpr fun idx hatom => absurd hatom (hno idx)
    cases hnot.symm.trans hbeyond

theorem lastFixed_spec (prop : List JSProperty) (len : ℕ) : len ≤ lastFixed len prop ∧
    (∀ pr ∈ prop, pr.beyond (lastFixed len prop) → configurable pr.flags = true) ∧
    (lastFixed len prop = len ∨ ∃ pr ∈ prop, ∃ idx, pr.atom = .index idx ∧ len ≤ idx ∧
      configurable pr.flags = false ∧ lastFixed len prop = idx + 1) := by
  induction prop generalizing len with
  | nil => exact ⟨Nat.le_refl _, nofun, .inl rfl⟩
  | cons pr prop ih =>
    obtain ⟨len₁, heq, hle, hpr, hwhere⟩ := lastFixed_cons pr prop len
    obtain ⟨hle', hprop, hwhere'⟩ := ih len₁
    rw [heq]
    refine ⟨Nat.le_trans hle hle', List.forall_mem_cons.mpr ⟨fun h => hpr (beyond_mono hle' h), hprop⟩, ?_⟩
    rcases hwhere' with hsame | ⟨pr', hpr', idx, hatom, hidx, hconf, hlast⟩
    · rw [hsame]
      refine hwhere.imp_right fun ⟨idx, hidx⟩ => ⟨pr, List.mem_cons_self, idx, hidx⟩
    · exact .inr ⟨pr', List.mem_cons_of_mem _ hpr', idx, hatom, Nat.le_trans hle hidx, hconf, hlast⟩

/-- What is beyond a length is live. -/
theorem forall_liveOf : (∀ pr ∈ liveOf prop, pr.beyond n = false) ↔ ∀ pr ∈ prop, pr.beyond n = false := by
  refine ⟨fun h pr hpr => ?_, fun h pr hpr => h pr (mem_liveOf.mp hpr).1⟩
  cases hbeyond : pr.beyond n with
  | false => rfl
  | true => rw [← hbeyond, h pr (mem_liveOf.mpr ⟨hpr, isLive_of_beyond hbeyond⟩)]

/-- Where the second pass goes on after a deletion: if the table has been compacted, some entries
that it has not seen are before that position now. -/
theorem giveUp_rest (h : a.Valid) (hprop : a.prop = pre ++ pr :: post) (hlive : pr.isLive) :
    ((∀ pr ∈ (a.giveUp pre.length).prop.take (pre.length + 1), pr.beyond curLen = false) ∧
      NothingSkipped curLen (((a.giveUp pre.length).prop.take (pre.length + 1)).countP (!·.isLive))
        (a.giveUp pre.length).deletedPropCount (a.giveUp pre.length).propCount
        ((a.giveUp pre.length).prop.drop (pre.length + 1))) ↔
    (∀ pr ∈ pre, pr.beyond curLen = false) ∧ if shouldCompact (a.deletedPropCount + 1) a.propCount then
        (∀ pr ∈ (liveOf post).take (pre.countP (!·.isLive) + 1), pr.beyond curLen = false) ∧
          NothingSkipped curLen 0 0 (a.propCount - (a.deletedPropCount + 1))
            ((liveOf post).drop (pre.countP (!·.isLive) + 1))
      else
        NothingSkipped curLen (pre.countP (!·.isLive) + 1) (a.deletedPropCount + 1) a.propCount post := by
  have hcount : (liveOf pre).length + pre.countP (!·.isLive) = pre.length := length_liveOf
  rw [giveUp_eq a hprop]
  split
  · have htake : (liveOf pre ++ liveOf post).take (pre.length + 1) =
        liveOf pre ++ (liveOf post).take (pre.countP (!·.isLive) + 1) := by
      rw [List.take_append, List.take_of_length_le (by omega)]
      congr 2
      omega
    have hdrop : (liveOf pre ++ liveOf post).drop (pre.length + 1) =
        (liveOf post).drop (pre.countP (!·.isLive) + 1) := by
      rw [List.drop_append, List.drop_of_length_le (by omega), List.nil_append]
      congr 1
      omega
    have hgap : (liveOf pre ++ (liveOf post).take (pre.countP (!·.isLive) + 1)).countP (!·.isLive) = 0 := by
      rw [List.countP_append, countP_liveOf, Nat.zero_add]
      exact Nat.eq_zero_of_le_zero (countP_liveOf ▸ (List.take_sublist _ _).countP_le)
    have hsize : (liveOf pre ++ liveOf post).length + 1 = a.propCount - (a.deletedPropCount + 1) := by
      have hcount' : (liveOf post).length + post.countP (!·.isLive) = post.length := length_liveOf
      rw [JSArray.propCount, h.deleted, hprop, List.countP_append, countP_cons hlive, List.length_append, List.length_append, List.length_cons]
      omega
    rw [htake, hdrop, hgap, List.forall_mem_append, forall_liveOf, JSArray.propCount, hsize, and_assoc]
  · have htake : (pre ++ .deleted :: post).take (pre.length + 1) = pre ++ [.deleted] := by
      rw [List.take_append, List.take_of_length_le (Nat.le_succ _), Nat.add_sub_cancel_left]
      rfl
    have hdrop : (pre ++ .deleted :: post).drop (pre.length + 1) = post := by
      rw [List.drop_append, List.drop_of_length_le (Nat.le_succ _), Nat.add_sub_cancel_left]
      rfl
    have hsize : (pre ++ .deleted :: post : List JSProperty).length + 1 = a.propCount := by
      rw [JSArray.propCount, hprop, List.length_append, List.length_append, List.length_cons, List.length_cons]
    have hdeleted : JSProperty.deleted.beyond curLen = false := rfl
    rw [htake, hdrop, List.forall_mem_append, List.forall_mem_singleton, and_iff_left hdeleted,
      List.countP_append, JSArray.propCount, hsize]
    exact Iff.rfl

theorem length_giveUp_le (hprop : a.prop = pre ++ pr :: post) :
    (a.giveUp pre.length).prop.length ≤ a.prop.length := by
  have hpre : (liveOf pre).length ≤ pre.length := List.length_filter_le _ _
  have hpost : (liveOf post).length ≤ post.length := List.length_filter_le _ _
  rw [giveUp_eq a hprop, hprop, List.length_append, List.length_cons]
  split
  · rw [List.length_append]
    omega
  · rw [List.length_append, List.length_cons]

/-- The second pass from some position. -/
theorem removeAt_spec {i : ℕ} (h : a.Valid) (hn : a.prop.length ≤ i + n)
    (hconf : ∀ pr ∈ a.prop, pr.beyond curLen → configurable pr.flags = true) :
    let r := (List.range' i n).foldl (JSArray.removeAt curLen) a
    r.lengthWritable = a.lengthWritable ∧
    (∀ pr ∈ r.live, pr ∈ a.live) ∧
    (∀ pr ∈ a.live, pr.beyond curLen = false → pr ∈ r.live) ∧
    ((∀ pr ∈ r.live, pr.beyond curLen = false) ↔ (∀ pr ∈ a.prop.take i, pr.beyond curLen = false) ∧
        NothingSkipped curLen ((a.prop.take i).countP (!·.isLive)) a.deletedPropCount a.propCount
          (a.prop.drop i)) := by
  induction n generalizing a i with
  | zero =>
    rw [Nat.add_zero] at hn
    rw [List.take_of_length_le hn, List.drop_of_length_le hn, NothingSkipped]
    exact ⟨rfl, fun _ => id, fun _ h _ => h, forall_liveOf.trans (and_iff_left trivial).symm⟩
  | succ n ih =>
    rw [List.range'_succ, List.foldl_cons]
    cases hget : a.prop[i]? with
    | none =>
      have hi : a.prop.length ≤ i := List.getElem?_eq_none_iff.mp hget
      have hsame : a.removeAt curLen i = a := by rw [JSArray.removeAt, hget]
      have h' := ih (i := i + 1) h (by omega) hconf
      rw [List.take_of_length_le (Nat.le_succ_of_le hi), List.drop_of_length_le (Nat.le_succ_of_le hi)] at h'
      rw [hsame, List.take_of_length_le hi, List.drop_of_length_le hi]
      exact h'
    | some pr =>
      obtain ⟨pre, post, hprop, rfl⟩ : ∃ pre post, a.prop = pre ++ pr :: post ∧ pre.length = i := by
        obtain ⟨hlt, hget⟩ := List.getElem?_eq_some_iff.mp hget
        refine ⟨a.prop.take i, a.prop.drop (i + 1), ?_, List.length_take_of_le (Nat.le_of_lt hlt)⟩
        rw [← hget, ← List.drop_eq_getElem_cons hlt, List.take_append_drop]
      have htake : a.prop.take pre.length = pre := by rw [hprop, List.take_left]
      have hdrop : a.prop.drop pre.length = pr :: post := by rw [hprop, List.drop_left]
      rw [htake, hdrop, NothingSkipped]
      cases hbeyond : pr.beyond curLen with
      | false =>
        have hsame : a.removeAt curLen pre.length = a := by
          rw [JSArray.removeAt, hget]
          dsimp only
          rw [hbeyond, if_neg Bool.false_ne_true]
        obtain ⟨hwritable, hsub, hkeep, hiff⟩ := ih (i := pre.length + 1) h (by omega) hconf
        rw [hsame]
        refine ⟨hwritable, hsub, hkeep, hiff.trans ?_⟩
        have htake' : a.prop.take (pre.length + 1) = pre ++ [pr] := by
          rw [hprop, List.take_append, List.take_of_length_le (Nat.le_succ _), Nat.add_sub_cancel_left]
          rfl
        have hdrop' : a.prop.drop (pre.length + 1) = post := by
          rw [← List.drop_drop, hdrop, List.drop_one, List.tail_cons]
        rw [htake', hdrop', List.forall_mem_append, List.forall_mem_singleton,
          and_iff_left hbeyond, List.countP_append, List.countP_singleton]
        cases pr.isLive <;> exact Iff.rfl
      | true =>
        have hlive := isLive_of_beyond hbeyond
        have hpr : pr ∈ a.prop := hprop ▸ List.mem_append_right _ List.mem_cons_self
        have hremove : a.removeAt curLen pre.length = a.giveUp pre.length := by
          rw [JSArray.removeAt, hget]
          dsimp only
          rw [hbeyond, if_pos rfl, deleteProperty_of_eq h hprop hlive, if_pos (hconf pr hpr hbeyond)]
        obtain ⟨h₁, hwritable₁, -, hlive₁⟩ := Valid.giveUp h hprop hlive
        have hconf₁ : ∀ pr ∈ (a.giveUp pre.length).prop, pr.beyond curLen → configurable pr.flags = true := by
          intro pr' hpr' hbeyond'
          have hmem := (hlive₁ pr').mp (mem_liveOf.mpr ⟨hpr', isLive_of_beyond hbeyond'⟩)
          exact hconf pr' (mem_liveOf.mp hmem.1).1 hbeyond'
        have hlen := length_giveUp_le hprop
        obtain ⟨hwritable, hsub, hkeep, hiff⟩ := ih (i := pre.length + 1) h₁ (by omega) hconf₁
        rw [hremove]
        refine ⟨hwritable.trans hwritable₁, fun pr' hpr' => ((hlive₁ pr').mp (hsub pr' hpr')).1,
          fun pr' hpr' hnot => ?_, hiff.trans (giveUp_rest h hprop hlive)⟩
        refine hkeep pr' ((hlive₁ pr').mpr ⟨hpr', fun hatom => ?_⟩) hnot
        rw [JSProperty.beyond, hatom, ← JSProperty.beyond, hbeyond] at hnot
        cases hnot

/-! ## The length is set -/

theorem lengthSet_iff_keepsBelow {failed : Result} (hfailed : failed ≠ .true) (hwritable : a.lengthWritable)
    (hle : len ≤ n)
    (hfixed : len < n → ∃ pr ∈ a.live, pr.atom = .index (n - 1) ∧ configurable pr.flags = false) :
    LengthSet a len (if len < n then failed else .true, { a' with length := n }) ↔ KeepsBelow n a a' := by
  split
  · rename_i hlt
    obtain ⟨pr, hpr, hatom, hconf⟩ := hfixed hlt
    constructor
    · intro h
      obtain ⟨-, -, idx, -, -, -, hlength, hkeeps⟩ := h.2 hfailed hwritable
      rw [← hlength] at hkeeps
      exact hkeeps
    · intro hkeeps
      refine ⟨fun htrue => absurd htrue hfailed, fun _ _ =>
        ⟨pr, hpr, n - 1, hatom, by omega, hconf, ?_, ?_⟩⟩ <;> rw [Nat.sub_add_cancel (by omega)]
      exact hkeeps
  · rename_i hnot
    cases Nat.le_antisymm hle (Nat.not_lt.mp hnot)
    exact ⟨fun h => (h.1 rfl).2, fun hkeeps => ⟨fun _ => ⟨rfl, hkeeps⟩, fun hno => absurd rfl hno⟩⟩

/-- Of the elements from `curLen` on, none is removed index after index. -/
theorem keepsBelow_removeLast (hle : n ≤ curLen)
    (hlive : ∀ pr, pr ∈ a'.live ↔ pr ∈ a.live ∧ ∀ idx, pr.atom = .index idx → n ≤ idx → curLen ≤ idx) :
    KeepsBelow n a a' ↔ ∀ pr ∈ a.live, pr.beyond curLen = false := by
  constructor
  · intro hkeeps pr hpr
    refine beyond_eq_false.mpr fun idx hatom => Nat.lt_of_not_le fun hidx => ?_
    have hpr' : pr ∈ a'.live := (hlive pr).mpr ⟨hpr, fun idx' hatom' _ => by
      cases hatom.symm.trans hatom'
      exact hidx⟩
    have hlt := beyond_eq_false.mp ((hkeeps pr).mp hpr').2 idx hatom
    omega
  · intro hnone pr
    rw [hlive]
    refine and_congr_right fun hpr => ?_
    rw [beyond_eq_false]
    refine forall₂_congr fun idx hatom => ?_
    have hlt := beyond_eq_false.mp (hnone pr hpr) idx hatom
    omega

theorem keepsBelow_removeAll (h : a.Valid)
    (hconf : ∀ pr ∈ a.prop, pr.beyond curLen → configurable pr.flags = true) :
    KeepsBelow curLen a (a.removeAll curLen) ↔
      NothingSkipped curLen 0 a.deletedPropCount a.propCount a.prop := by
  obtain ⟨-, hsub, hkeep, hiff⟩ := removeAt_spec (i := 0) h (Nat.zero_add _).ge hconf
  rw [List.take_zero, List.drop_zero, List.countP_nil, and_iff_right nofun] at hiff
  rw [← hiff]
  constructor
  · exact fun hkeeps pr hpr => ((hkeeps pr).mp hpr).2
  · exact fun hnone pr => ⟨fun hpr => ⟨hsub pr hpr, hnone pr hpr⟩, fun hpr => hkeep pr hpr.1 hpr.2⟩

/-- `set_array_length` does what it is for exactly if no element is above the length already and,
where the table is passed instead of the indices, no element to remove is skipped. -/
theorem setArrayLength_iff (a : SlowArray) (len : ℕ) (throws : Bool) :
    LengthSet a.toJSArray len (a.setArrayLength len throws) ↔ a.Removable len := by
  have hfailed : (if throws then .exception else .false : Result) ≠ .true := by
    cases throws <;> nofun
  rw [JSArray.setArrayLength, JSArray.Removable]
  cases hwritable : a.lengthWritable with
  | false =>
    exact iff_of_true ⟨fun htrue => absurd htrue hfailed,
      fun _ hyes => absurd (hwritable.symm.trans hyes) Bool.false_ne_true⟩ trivial
  | true =>
    rw [if_pos rfl, if_pos rfl]
    by_cases hlt : len < a.length
    · rw [if_pos hlt]
      by_cases hcount : a.length - len ≤ a.propCount
      · obtain ⟨n, a', heq, hle, hn, -, hlive, hfixed⟩ := removeLast_spec a.valid (Nat.le_of_lt hlt)
        rw [if_pos hcount, heq, lengthSet_iff_keepsBelow hfailed hwritable hle hfixed,
          keepsBelow_removeLast hn hlive, if_neg fun h => Nat.not_lt.mpr hcount h.2,
          Nat.max_eq_right (Nat.le_of_lt hlt)]
      · obtain ⟨hle, hconf, hwhere⟩ := lastFixed_spec a.prop len
        have hpass : len < a.length ∧ a.propCount < a.length - len := ⟨hlt, Nat.not_le.mp hcount⟩
        rw [if_pos hpass, if_neg hcount, lengthSet_iff_keepsBelow hfailed hwritable hle,
          keepsBelow_removeAll a.valid hconf]
        intro hlt'
        rcases hwhere with heq | ⟨pr, hpr, idx, hatom, -, hconf, heq⟩
        · exact absurd heq.symm (Nat.ne_of_lt hlt')
        · refine ⟨pr, mem_liveOf.mpr ⟨hpr, ?_⟩, ?_, hconf⟩
          · rw [JSProperty.isLive, hatom]
            rfl
          · rw [hatom, heq, Nat.add_sub_cancel]
    · have hpass : ¬(len < a.length ∧ a.propCount < a.length - len) := fun h => hlt h.1
      rw [if_neg hpass, if_neg hlt, Nat.max_eq_left (Nat.not_lt.mp hlt),
        lengthSet_iff_keepsBelow hfailed hwritable (Nat.le_refl len) fun h => absurd h (Nat.lt_irrefl _)]
      exact ⟨fun hkeeps pr hpr => ((hkeeps pr).mp hpr).2,
        fun hnone pr => (and_iff_left_of_imp (hnone pr)).symm⟩

/-- Nine elements a thousand apart, with nothing else in the table. -/
def thousands : SlowArray where
  lengthWritable := true
  length := 9001
  prop := (List.range 9).map fun i => ⟨.index (1000 * (i + 1)), Shape.jsPropCWE, i⟩
  deletedPropCount := 0
  valid := ⟨by decide, by decide⟩

/-- `a.length = 0` leaves the last of nine elements. -/
theorem setArrayLength_not_lengthSet :
    ¬∀ (a : SlowArray) len throws, LengthSet a.toJSArray len (a.setArrayLength len throws) := by
  intro h
  have h := ((h thousands 0 false).1 (by decide)).2 ⟨.index 9000, Shape.jsPropCWE, 8⟩
  exact absurd (h.mp (by decide)).2 (by decide)

end QuickJs.ArrayLength
