import QuickJs.StringSearch

/-!
# `split` at a regular expression

`js_regexp_Symbol_split` asks a sticky copy of the expression at one position after the other. A match that does not end
where the last one did cuts the subject; what lies between, and the captures, are the elements. But each capture is made
a string, also that of a group that has not matched.
-/

namespace QuickJs.RegExpSplit

open JSString Occurrence

/-- A string, or `undefined`. -/
abbrev Element := Option (List UInt16)

/-- What `exec` returns, and the `lastIndex` that it leaves. -/
structure Match where
  lastIndex : ℕ
  captures : List Element

/-- A sticky expression: what it finds at a position does not end before. -/
structure Splitter where
  exec : ℕ → Option Match
  le : ∀ {q m}, exec q = some m → q ≤ m.lastIndex

/-- `JS_ToStringFree` -/
def jsToString : Element → List UInt16
  | some s => s
  | none => "undefined".toList.map fun c => c.toNat.toUInt16

/-- The loop over the captures, for the array so far. Is the limit reached? -/
def captureLoop (lim : ℕ) : List Element → List Element → List Element × Bool
  | [], a => (a, false)
  | z :: zs, a =>
    let a := a ++ [some (jsToString z)]
    if a.length = lim then (a, true) else captureLoop lim zs a

theorem lt_stringAdvanceIndex (p : Chars) (q : ℕ) (unicode : Bool) : q < stringAdvanceIndex p q unicode := by
  unfold stringAdvanceIndex
  dsimp only
  split
  · exact Nat.lt_succ_self q
  · split
    · exact Nat.lt_succ_self q
    · split <;> omega

/-- The loop of `js_regexp_Symbol_split`, with `add_tail`. -/
def splitLoop (splitter : Splitter) (strp : Chars) (unicodeMatching : Bool) (lim p q : ℕ) (a : List Element) :
    List Element :=
  if q < strp.len then
    match _h : splitter.exec q with
    | none => splitLoop splitter strp unicodeMatching lim p (stringAdvanceIndex strp q unicodeMatching) a
    | some z =>
      let e := min z.lastIndex strp.len
      if e = p then splitLoop splitter strp unicodeMatching lim p (stringAdvanceIndex strp q unicodeMatching) a
      else
        let a := a ++ [some (slice strp.units p q)]
        if a.length = lim then a
        else
          let r := captureLoop lim z.captures a
          if r.2 then r.1 else splitLoop splitter strp unicodeMatching lim e e r.1
  else a ++ [some (slice strp.units (min p strp.len) strp.len)]
termination_by 2 * (strp.len - q) + if p = q then 0 else 1
decreasing_by
  · have hlt := lt_stringAdvanceIndex strp q unicodeMatching
    split <;> split <;> omega
  · have hlt := lt_stringAdvanceIndex strp q unicodeMatching
    split <;> split <;> omega
  · have hle := splitter.le _h
    rw [if_pos True.intro]
    split <;> omega

/-- The splitter that the constructor of the species makes is sticky. -/
def splitterOf (construct : List Char → Splitter) (flags : List Char) : Splitter :=
  construct (if flags.contains 'y' then flags else flags ++ ['y'])

def limitOf (limit : Option UInt32) : ℕ := (limit.getD 0xffffffff).toNat

/-- `js_regexp_Symbol_split` -/
def jsRegexpSymbolSplit (construct : List Char → Splitter) (flags : List Char) (strp : Chars) (limit : Option UInt32) :
    List Element :=
  let unicodeMatching := flags.contains 'u'
  let splitter := splitterOf construct flags
  let lim := limitOf limit
  if lim = 0 then []
  else if strp.len = 0 then
    match splitter.exec 0 with
    | none => [some (slice strp.units 0 0)]
    | some _ => []
  else splitLoop splitter strp unicodeMatching lim 0 0 []

/-! ## Cuts -/

/-- `AdvanceStringIndex` -/
def advance (s : List UInt16) (unicode : Bool) (q : ℕ) : ℕ :=
  let c := (s.getD q 0).toNat
  let c1 := (s.getD (q + 1) 0).toNat
  if unicode ∧ q + 1 < s.length ∧ (0xd800 ≤ c ∧ c < 0xdc00) ∧ 0xdc00 ≤ c1 ∧ c1 < 0xe000 then q + 2 else q + 1

/-- A match at which the subject is cut. -/
structure Cut where
  start : ℕ
  stop : ℕ
  captures : List Element

/-- The cuts from `q` on, where the last one ends at `p`. -/
inductive Cuts (x : Splitter) (s : List UInt16) (unicode : Bool) : ℕ → ℕ → List Cut → Prop
  | last {p q : ℕ} : s.length ≤ q → Cuts x s unicode p q []
  | pass {p q : ℕ} {cs : List Cut} : q < s.length → (∀ m, x.exec q = some m → min m.lastIndex s.length = p) →
      Cuts x s unicode p (advance s unicode q) cs → Cuts x s unicode p q cs
  | cut {p q : ℕ} {m : Match} {cs : List Cut} : q < s.length → x.exec q = some m → min m.lastIndex s.length ≠ p →
      Cuts x s unicode (min m.lastIndex s.length) (min m.lastIndex s.length) cs →
      Cuts x s unicode p q (⟨q, min m.lastIndex s.length, m.captures⟩ :: cs)

/-- The pieces from `p` on, and the captures between them. -/
def elements (s : List UInt16) (p : ℕ) : List Cut → List Element
  | [] => [some (s.drop p)]
  | c :: cs => some (slice s p c.start) :: (c.captures ++ elements s c.stop cs)

/-- The pieces and what is between them, in turn. -/
def weave : List (List UInt16) → List (List UInt16) → List UInt16
  | p :: ps, t :: ts => p ++ (t ++ weave ps ts)
  | ps, _ => ps.flatten

/-- What `split` has to return. -/
def Right (x : Splitter) (s : List UInt16) (unicode : Bool) (limit : Option UInt32) (a : List Element) : Prop :=
  if s = [] ∧ (x.exec 0).isSome then a = []
  else ∃ cs, Cuts x s unicode 0 0 cs ∧ a = (elements s 0 cs).take (limitOf limit) ∧
    (limit = none → (∀ c ∈ cs, c.captures = []) →
      ∃ ps : List (List UInt16), a = ps.map some ∧ weave ps (cs.map fun c => slice s c.start c.stop) = s)

/-- Each group whose capture is among the elements up to the limit has matched. -/
def Matched (x : Splitter) (s : List UInt16) (unicode : Bool) (limit : Option UInt32) : Prop :=
  (s = [] ∧ (x.exec 0).isSome) ∨ ∃ cs, Cuts x s unicode 0 0 cs ∧ none ∉ (elements s 0 cs).take (limitOf limit)

variable {x : Splitter} {s : List UInt16} {unicode : Bool} {lim p q : ℕ} {cs : List Cut} {a : List Element}

theorem stringAdvanceIndex_eq (strp : Chars) (unicode : Bool) (q : ℕ) :
    stringAdvanceIndex strp q unicode = advance strp.units unicode q := by
  unfold stringAdvanceIndex advance
  cases strp with
  | str8 s =>
    have hnarrow : ((Chars.str8 s).units.getD q 0).toNat < 256 := by
      rw [Chars.units, show (0 : UInt16) = UInt8.toUInt16 0 from rfl, List.getD_map]
      exact UInt8.toNat_lt _
    rw [if_neg (by omega)]
  | str16 s =>
    have hunits : (Chars.str16 s).units = s := rfl
    simp only [hunits, Bool.or_eq_true, Bool.not_eq_true', decide_eq_true_eq]
    split
    · rename_i hno
      refine (if_neg fun hpair => ?_).symm
      rcases hno with hno | hno
      · cases hno.symm.trans hpair.1
      · omega
    · rename_i hyes
      obtain ⟨hunicode, -⟩ := not_or.mp hyes
      refine if_congr ?_ rfl rfl
      rw [Bool.not_eq_false] at hunicode
      tauto

theorem lt_advance (s : List UInt16) (unicode : Bool) (q : ℕ) : q < advance s unicode q := by
  unfold advance
  dsimp only
  split <;> omega

/-- Every subject has its cuts. -/
theorem exists_cuts (x : Splitter) (s : List UInt16) (unicode : Bool) (p q : ℕ) : ∃ cs, Cuts x s unicode p q cs := by
  by_cases hq : s.length ≤ q
  · exact ⟨[], .last hq⟩
  replace hq := Nat.lt_of_not_le hq
  by_cases hpass : ∀ m, x.exec q = some m → min m.lastIndex s.length = p
  · have hlt := lt_advance s unicode q
    obtain ⟨cs, hcs⟩ := exists_cuts x s unicode p (advance s unicode q)
    exact ⟨cs, .pass hq hpass hcs⟩
  · obtain ⟨m, hm, hne⟩ : ∃ m, x.exec q = some m ∧ min m.lastIndex s.length ≠ p := by
      simpa only [not_forall, exists_prop] using hpass
    have hle := x.le hm
    obtain ⟨cs, hcs⟩ := exists_cuts x s unicode (min m.lastIndex s.length) (min m.lastIndex s.length)
    exact ⟨_, .cut hq hm hne hcs⟩
termination_by 2 * (s.length - q) + if p = q then 0 else 1
decreasing_by
  · split <;> split <;> omega
  · rw [if_pos True.intro]
    split <;> omega

/-! ## The array -/

def asString (z : Element) : Element := some (jsToString z)

theorem captureLoop_eq (zs : List Element) (h : a.length < lim) :
    captureLoop lim zs a = (a ++ (zs.map asString).take (lim - a.length), decide (lim ≤ a.length + zs.length)) := by
  induction zs generalizing a with
  | nil => simp [captureLoop]; omega
  | cons z zs ih =>
    unfold captureLoop
    dsimp only
    have hlen : (a ++ [some (jsToString z)]).length = a.length + 1 := List.length_append
    have hsub : lim - a.length = lim - (a.length + 1) + 1 := by omega
    rw [List.map_cons, hsub, List.length_cons, hlen]
    split
    · rename_i hfull
      rw [hfull, Nat.sub_self]
      exact Prod.ext rfl (decide_eq_true (by omega)).symm
    · rw [ih (by omega), hlen, List.append_assoc]
      exact Prod.ext rfl (decide_eq_decide.mpr (by omega))

/-- **The loop returns the elements**, each made a string, up to the limit. -/
theorem splitLoop_cuts {strp : Chars} (h : Cuts x strp.units unicode p q cs) (hp : p ≤ strp.len)
    (ha : a.length < lim) :
    splitLoop x strp unicode lim p q a = a ++ ((elements strp.units p cs).map asString).take (lim - a.length) := by
  induction h generalizing a with
  | @last p q hq =>
    have hdrop : slice strp.units (min p strp.len) strp.len = strp.units.drop p := by
      rw [Nat.min_eq_left hp, slice, ← length_units, ← List.length_drop, List.take_length]
    replace hq : ¬q < strp.len := Nat.not_lt.mpr hq
    rw [splitLoop, if_neg hq, hdrop, elements, List.map_singleton,
      List.take_of_length_le (by rw [List.length_singleton]; omega)]
    rfl
  | @pass p q cs hq hpass _ ih =>
    replace hq : q < strp.len := hq
    rw [← ih hp ha, splitLoop, if_pos hq]
    split
    · rw [stringAdvanceIndex_eq]
    · rename_i m hm
      have he : min m.lastIndex strp.len = p := hpass m hm
      rw [if_pos he, stringAdvanceIndex_eq]
  | @cut p q m cs hq hm hne _ ih =>
    have hlen : (a ++ [some (slice strp.units p q)]).length = a.length + 1 := List.length_append
    have hsub : lim - a.length = lim - (a.length + 1) + 1 := by omega
    rw [length_units] at hq hne ih ⊢
    rw [splitLoop, if_pos hq]
    split
    · rename_i hnone
      cases hnone.symm.trans hm
    rename_i z hz
    cases hz.symm.trans hm
    dsimp only
    rw [if_neg hne, hlen, elements, List.map_cons, List.map_append, hsub, List.take_succ_cons, List.take_append,
      List.length_map]
    split
    · rename_i hfull
      rw [hfull, Nat.sub_self, Nat.zero_sub]
      rfl
    rw [captureLoop_eq m.captures (by omega), hlen]
    have hmap : (m.captures.map asString).length = m.captures.length := List.length_map _
    by_cases hfull : lim ≤ a.length + 1 + m.captures.length
    · rw [if_pos (decide_eq_true hfull), Nat.sub_eq_zero_of_le (show lim - (a.length + 1) ≤ m.captures.length by omega),
        List.take_zero, List.append_nil, List.append_assoc]
      rfl
    · rw [if_neg (by rw [decide_eq_true_eq]; exact hfull), List.take_of_length_le (by omega),
        ih (Nat.min_le_right _ _) (by rw [List.length_append]; omega), List.length_append, hlen, hmap,
        Nat.sub_add_eq]
      simp only [List.append_assoc]
      rfl

theorem none_notMem_map (l : List Element) : none ∉ l.map asString := by
  rintro h
  obtain ⟨z, -, hz⟩ := List.mem_map.mp h
  cases hz

theorem map_asString {l : List Element} (h : none ∉ l) : l.map asString = l := by
  refine (List.map_congr_left fun z hz => ?_).trans (List.map_id l)
  cases z with
  | none => exact absurd hz h
  | some t => rfl

/-- Without captures the pieces and the matches are the subject. -/
theorem weave_cuts (h : Cuts x s unicode p q cs) (hpq : p ≤ q) (hcaptures : ∀ c ∈ cs, c.captures = []) :
    ∃ ps : List (List UInt16), elements s p cs = ps.map some ∧ ps.length ≤ s.length - p + 1 ∧
      weave ps (cs.map fun c => slice s c.start c.stop) = s.drop p := by
  induction h with
  | @last p q _ => exact ⟨[s.drop p], rfl, Nat.le_add_left _ _, List.append_nil (s.drop p)⟩
  | @pass p q cs _ _ _ ih =>
    have hlt := lt_advance s unicode q
    exact ih (by omega) hcaptures
  | @cut p q m cs hq hm hne _ ih =>
    have hle := x.le hm
    obtain ⟨hnil, hcaptures⟩ := List.forall_mem_cons.mp hcaptures
    obtain ⟨ps, hps, hlen, hweave⟩ := ih (Nat.le_refl _) hcaptures
    refine ⟨slice s p q :: ps, ?_, ?_, ?_⟩
    · rw [elements, hps, hnil]
      rfl
    · rw [List.length_cons]
      omega
    · rw [List.map_cons, weave, hweave]
      dsimp only
      rw [slice_append_drop (by omega), slice_append_drop hpq]

section
variable {construct : List Char → Splitter} {flags : List Char} {strp : Chars} {limit : Option UInt32}

theorem jsRegexpSymbolSplit_cuts (hfirst : ¬(strp.units = [] ∧ ((splitterOf construct flags).exec 0).isSome))
    (h : Cuts (splitterOf construct flags) strp.units (flags.contains 'u') 0 0 cs) :
    jsRegexpSymbolSplit construct flags strp limit = ((elements strp.units 0 cs).take
      (limitOf limit)).map asString := by
  unfold jsRegexpSymbolSplit
  dsimp only
  rw [List.map_take]
  split
  · rename_i hzero
    rw [hzero, List.take_zero]
  rename_i hpos
  split
  · rename_i hempty
    have hnil : strp.units = [] := List.eq_nil_of_length_eq_zero hempty
    cases h with
    | last =>
      have hone : (elements strp.units 0 []).map asString = [some (slice strp.units 0 0)] := by rw [hnil]; rfl
      rw [hone, List.take_of_length_le (Nat.pos_of_ne_zero hpos)]
      split
      · rfl
      · rename_i hm
        exact absurd ⟨hnil, Option.isSome_of_eq_some hm⟩ hfirst
    | pass hq => rw [hnil] at hq; cases hq
    | cut hq => rw [hnil] at hq; cases hq
  · exact splitLoop_cuts h (Nat.zero_le _) (Nat.pos_of_ne_zero hpos)

theorem jsRegexpSymbolSplit_empty (hfirst : strp.units = [] ∧ ((splitterOf construct flags).exec 0).isSome) :
    jsRegexpSymbolSplit construct flags strp limit = [] := by
  obtain ⟨m, hm⟩ := Option.isSome_iff_exists.mp hfirst.2
  have hempty : strp.len = 0 := congrArg List.length hfirst.1
  unfold jsRegexpSymbolSplit
  dsimp only
  rw [hm, if_pos hempty, ite_self]

/-- **`split` is right exactly when each group has matched** whose capture is returned. -/
theorem jsRegexpSymbolSplit_iff (construct : List Char → Splitter) (flags : List Char) (strp : Chars)
    (limit : Option UInt32) (hlen : strp.len ≤ JS_STRING_LEN_MAX) :
    Right (splitterOf construct flags) strp.units (flags.contains 'u') limit
        (jsRegexpSymbolSplit construct flags strp limit) ↔
      Matched (splitterOf construct flags) strp.units (flags.contains 'u') limit := by
  unfold Right Matched
  split
  · rename_i hfirst
    exact iff_of_true (jsRegexpSymbolSplit_empty hfirst) (.inl hfirst)
  rename_i hfirst
  rw [or_iff_right hfirst]
  refine exists_congr fun cs => and_congr_right fun hcs => ?_
  rw [jsRegexpSymbolSplit_cuts hfirst hcs]
  constructor
  · rintro ⟨h, -⟩
    rw [← h]
    exact none_notMem_map _
  · intro h
    refine ⟨map_asString h, fun hlimit hcaptures => ?_⟩
    obtain ⟨ps, hps, hpslen, hweave⟩ := weave_cuts hcs (Nat.le_refl 0) hcaptures
    rw [length_units] at hpslen
    refine ⟨ps, ?_, hweave⟩
    have hall : (ps.map some).length ≤ limitOf none := by
      rw [List.length_map, show limitOf none = 2 ^ 32 - 1 from rfl]
      rw [JS_STRING_LEN_MAX] at hlen
      omega
    rw [map_asString h, hlimit, hps, List.take_of_length_le hall]

end

/-- `/(x)?b/`, on a text whose `b` is at 1. -/
def optionalGroup : Splitter where
  exec q := if q = 1 then some ⟨2, [none]⟩ else none
  le := by
    intro q m h
    obtain ⟨rfl, hm⟩ := Option.ite_none_right_eq_some.mp h
    cases hm
    exact Nat.le_succ 1

theorem jsRegexpSymbolSplit_iff_example :
    Right (splitterOf (fun _ => optionalGroup) []) [97, 98] false (some 2)
        (jsRegexpSymbolSplit (fun _ => optionalGroup) [] (.str8 [97, 98]) (some 2)) ↔
      Matched (splitterOf (fun _ => optionalGroup) []) [97, 98] false (some 2) :=
  jsRegexpSymbolSplit_iff (fun _ => optionalGroup) [] (.str8 [97, 98]) (some 2) (by decide)

theorem cuts_optionalGroup (h : Cuts optionalGroup [97, 98] false 0 0 cs) : cs = [⟨1, 2, [none]⟩] := by
  cases h with
  | last h => cases h
  | cut _ hm => cases hm
  | pass _ _ h =>
    cases h with
    | last h => exact absurd h (by decide)
    | pass _ hpass => cases hpass _ rfl
    | cut _ hm _ h =>
      cases hm
      cases h with
      | last => rfl
      | pass h => exact absurd h (by decide)
      | cut h => exact absurd h (by decide)

/-- The group that has not matched is returned as the text `undefined`. -/
theorem jsRegexpSymbolSplit_wrong : ¬Right (splitterOf (fun _ => optionalGroup) []) [97, 98] false none
      (jsRegexpSymbolSplit (fun _ => optionalGroup) [] (.str8 [97, 98]) none) := by
  rintro ⟨cs, hcs, heq, -⟩
  obtain rfl := cuts_optionalGroup hcs
  have hsplit : jsRegexpSymbolSplit (fun _ => optionalGroup) [] (.str8 [97, 98]) none = _ :=
    jsRegexpSymbolSplit_cuts (fun h => by cases h.1) hcs
  have hmem : none ∈ (elements [97, 98] 0 [⟨1, 2, [none]⟩]).take (limitOf none) := by
    exact List.mem_cons_of_mem _ List.mem_cons_self
  rw [← heq, hsplit] at hmem
  exact none_notMem_map _ hmem

end QuickJs.RegExpSplit
