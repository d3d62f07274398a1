import QuickJs.StringSplit

/-!
# `replace` and `replaceAll`

`js_string_replace` for strings: the search string is looked for with `string_indexof`, from the end of the last match
on, and each match becomes what `js_string___GetSubstitution` makes of the replacement. An empty search string matches
before each character and at the end.
-/

namespace QuickJs.JSString

open Occurrence

/-- Is it a digit? -/
def isDigit (c : ℕ) : Bool := 0x30 ≤ c && c ≤ 0x39

/-- What `js_string___GetSubstitution` gets beside the replacement: the captures and the named captures are `none` where
they are undefined. A named capture is looked up by its name, and the lookup may throw. -/
structure Match where
  matched : Chars
  str : Chars
  position : ℕ
  captures : Option (List (Option Chars))
  namedCaptures : Option (Chars → Option (Option Chars))

def Match.capturesLen (m : Match) : ℕ := (m.captures.map List.length).getD 0

/-- The label `norep`: the text itself, from `$` at `j0` up to `j`. -/
def norep (rp : Chars) (j0 j : ℕ) (answer : ℕ → Option ℕ) (b : StringBuffer) : Option (ℕ × StringBuffer) :=
  some (j, (b.concat rp j0 j (answer 1)).2)

/-- A value of a capture that is not undefined is added. -/
def putCapture (capture : Option Chars) (j : ℕ) (answer : ℕ → Option ℕ) (b : StringBuffer) :
    Option (ℕ × StringBuffer) :=
  match capture with
  | none => some (j, b)
  | some s =>
    let r := b.concatValue (some s) (answer 1)
    if r.1 then some (j, r.2) else none

/-- The body of the loop of `js_string___GetSubstitution`, for the `$` at `j0`: where to go on. -/
def substitute (m : Match) (rp : Chars) (j0 : ℕ) (answer : ℕ → Option ℕ) (b : StringBuffer) :
    Option (ℕ × StringBuffer) :=
  let c := stringGet rp (j0 + 1)
  let j := j0 + 2
  if c = 0x24 then some (j, (b.putc8 0x24 (answer 1)).2)
  else if c = 0x26 then
    let r := b.concatValue (some m.matched) (answer 1)
    if r.1 then some (j, r.2) else none
  else if c = 0x60 then some (j, (b.concat m.str 0 m.position (answer 1)).2)
  else if c = 0x27 then some (j, (b.concat m.str (m.position + m.matched.len) m.str.len (answer 1)).2)
  else if isDigit c then
    let k := c - 0x30
    let k1 := k * 10 + stringGet rp j - 0x30
    let two := j < rp.len && isDigit (stringGet rp j) && 1 ≤ k1 && k1 < m.capturesLen
    let k := if two then k1 else k
    let j := if two then j + 1 else j
    if 1 ≤ k && k < m.capturesLen then putCapture ((m.captures.getD [])[k]?.join) j answer b
    else norep rp j0 j answer b
  else
    match m.namedCaptures with
    | none => norep rp j0 j answer b
    | some lookup =>
      if c = 0x3c then
        match stringIndexofChar rp 0x3e j with
        | none => norep rp j0 j answer b
        | some k => (jsSubString rp j k (answer 2)).bind fun name =>
            (lookup name).bind fun capture => putCapture capture (k + 1) answer b
      else norep rp j0 j answer b

variable {answer : ℕ → Option ℕ} {b : StringBuffer} {endOfLastMatch : ℕ} {isFirst : Bool}

theorem lt_of_putCapture {capture : Option Chars} {j0 j k : ℕ} {b' : StringBuffer}
    (hk : j0 < k) (h : putCapture capture k answer b = some (j, b')) : j0 < j := by
  unfold putCapture at h
  split at h
  · obtain ⟨rfl, -⟩ := Prod.mk.injEq .. ▸ Option.some.inj h
    exact hk
  · dsimp only at h
    split at h
    · obtain ⟨rfl, -⟩ := Prod.mk.injEq .. ▸ Option.some.inj h
      exact hk
    · cases h

/-- The loop goes on behind the `$`. -/
theorem lt_of_substitute {m : Match} {rp : Chars} {j0 j : ℕ} {b' : StringBuffer}
    (h : substitute m rp j0 answer b = some (j, b')) : j0 < j := by
  have hlt : ∀ {k : ℕ} {r : StringBuffer}, j0 < k → some (k, r) = some (j, b') → j0 < j := by
    intro k r hk heq
    obtain ⟨rfl, -⟩ := Prod.mk.injEq .. ▸ Option.some.inj heq
    exact hk
  have hvalue : ∀ {k : ℕ} {r : Bool × StringBuffer}, j0 < k →
      (if r.1 then some (k, r.2) else none) = some (j, b') → j0 < j := by
    intro k r hk heq
    split at heq
    · exact hlt hk heq
    · cases heq
  have hrep : ∀ {k : ℕ}, j0 < k → norep rp j0 k answer b = some (j, b') → j0 < j := fun hk heq => hlt hk heq
  unfold substitute at h
  dsimp only at h
  split at h
  · exact hlt (by omega) h
  split at h
  · exact hvalue (by omega) h
  split at h
  · exact hlt (by omega) h
  split at h
  · exact hlt (by omega) h
  split at h
  · split at h
    · split at h
      · exact lt_of_putCapture (by omega) h
      · exact hrep (by omega) h
    · split at h
      · exact lt_of_putCapture (by omega) h
      · exact hrep (by omega) h
  split at h
  · exact hrep (by omega) h
  split at h
  · split at h
    · exact hrep (by omega) h
    · rename_i k hk
      obtain ⟨name, -, hname⟩ := Option.bind_eq_some_iff.mp h
      obtain ⟨capture, -, hcapture⟩ := Option.bind_eq_some_iff.mp hname
      have hle := (stringIndexofChar_some hk).1
      exact lt_of_putCapture (by omega) hcapture
  · exact hrep (by omega) h

/-- The loop of `js_string___GetSubstitution`. -/
def substitutionLoop (m : Match) (rp : Chars) (i : ℕ) (answer : ℕ → ℕ → Option ℕ) (b : StringBuffer) :
    Option StringBuffer :=
  match _h : stringIndexofChar rp 0x24 i with
  | none => some (b.concat rp i rp.len (answer 0 0)).2
  | some j0 =>
    if rp.len ≤ j0 + 1 then some (b.concat rp i rp.len (answer 0 0)).2
    else
      match _h' : substitute m rp j0 (answer 0) (b.concat rp i j0 (answer 0 0)).2 with
      | none => none
      | some (j, b) => substitutionLoop m rp j (fun n => answer (n + 1)) b
termination_by rp.len - i
decreasing_by
  have hj0 := stringIndexofChar_some _h
  have hj := lt_of_substitute _h'
  omega

/-- `js_string___GetSubstitution` -/
def getSubstitution (m : Match) (rp : Chars) (answer : ℕ → ℕ → Option ℕ) : Option Chars :=
  (substitutionLoop m rp 0 (fun n => answer (n + 1)) (.init2 0 false (answer 0 0))).bind StringBuffer.finish

/-- The value that replaces: a function, by the text that it makes of a position, or a string. -/
inductive Replacement
  | function (call : ℕ → Option Chars)
  | string (rep : Chars)

/-- `repl_str` -/
def replacementAt (replaceValue : Replacement) (sp searchp : Chars) (pos : ℕ) (answer : ℕ → ℕ → Option ℕ) :
    Option Chars :=
  match replaceValue with
  | .function call => call pos
  | .string rep => getSubstitution ⟨searchp, sp, pos, none, none⟩ rep answer

/-- Where the next match is. -/
def nextPos (sp searchp : Chars) (endOfLastMatch : ℕ) (isFirst : Bool) : Option ℕ :=
  if searchp.len = 0 then
    if isFirst then some 0 else if sp.len ≤ endOfLastMatch then none else some (endOfLastMatch + 1)
  else stringIndexof sp searchp endOfLastMatch

/-- Behind the first match, the next one moves on and lies in the string. -/
theorem nextPos_false {sp searchp : Chars} {pos : ℕ}
    (h : nextPos sp searchp endOfLastMatch false = some pos) :
    endOfLastMatch ≤ pos ∧ endOfLastMatch < pos + searchp.len ∧ pos + searchp.len ≤ sp.len := by
  unfold nextPos at h
  split at h
  · rw [if_neg Bool.false_ne_true] at h
    split at h
    · cases h
    · rw [← Option.some.inj h]
      omega
  · rename_i hlen
    have hfirst := (stringIndexof_finds sp searchp endOfLastMatch).first pos h
    have hend := (stringGet_of_occursAt (Nat.pos_of_ne_zero hlen) hfirst.occurs).1
    have hle := hfirst.le
    omega

/-- The loop of `js_string_replace`. -/
def replaceLoop (sp searchp : Chars) (replaceValue : Replacement) (isReplaceAll : Bool) (endOfLastMatch : ℕ)
    (isFirst : Bool) (answer : ℕ → ℕ → ℕ → Option ℕ) (b : StringBuffer) : Option Chars :=
  match _h : nextPos sp searchp endOfLastMatch isFirst with
  | none => if isFirst then some sp else (b.concat sp endOfLastMatch sp.len (answer 0 0 0)).2.finish
  | some pos =>
    match replacementAt replaceValue sp searchp pos fun n => answer 0 (n + 1) with
    | none => none
    | some repl =>
      let b := (b.concat sp endOfLastMatch pos (answer 0 0 0)).2
      let b := (b.concatValue (some repl) (answer 0 0 1)).2
      if isReplaceAll then
        replaceLoop sp searchp replaceValue isReplaceAll (pos + searchp.len) false (fun n => answer (n + 1)) b
      else (b.concat sp (pos + searchp.len) sp.len (answer 0 0 2)).2.finish
termination_by (if isFirst then 1 else 0, sp.len - endOfLastMatch)
decreasing_by
  cases isFirst with
  | true => exact Prod.Lex.left _ _ Nat.one_pos
  | false =>
    refine Prod.Lex.right _ ?_
    have hpos := nextPos_false _h
    omega

/-- `js_string_replace`, for strings -/
def jsStringReplace (sp searchp : Chars) (replaceValue : Replacement) (isReplaceAll : Bool)
    (answer : ℕ → ℕ → ℕ → Option ℕ) : Option Chars :=
  replaceLoop sp searchp replaceValue isReplaceAll 0 true (fun n => answer (n + 1)) (.init2 0 false (answer 0 0 0))

variable {sp searchp rep : Chars} {t : Chars}

theorem indexof_dollar (h : (0x24 : UInt16) ∉ rep.units) : stringIndexofChar rep 0x24 0 = none := by
  rw [stringIndexofChar_eq, Option.map_eq_none_iff, List.findIdx?_eq_none_iff]
  intro u hu
  rw [beq_eq_false_iff_ne]
  intro heq
  have hdollar : u = 0x24 := UInt16.toNat_inj.mp heq
  exact h (hdollar ▸ hu)

section

variable (hrep : (0x24 : UInt16) ∉ rep.units)

include hrep

/-- Without a `$`, the replacement is what it is. -/
theorem substitutionLoop_plain (m : Match) (answer : ℕ → ℕ → Option ℕ)
    (b : StringBuffer) : substitutionLoop m rep 0 answer b = some (b.concat rep 0 rep.len (answer 0 0)).2 := by
  have hnone := indexof_dollar hrep
  unfold substitutionLoop
  split
  · rfl
  · rename_i hsome
    rw [hnone] at hsome
    cases hsome

theorem getSubstitution_units {m : Match} {answer : ℕ → ℕ → Option ℕ}
    (h : getSubstitution m rep answer = some t) : t.units = rep.units := by
  rw [getSubstitution, substitutionLoop_plain hrep] at h
  exact ((StringBuffer.holds_init2 0 false _).adds (StringBuffer.adds_concat_all _ rep _)).finish h

theorem getSubstitution_isSome (hlen : rep.len ≤ JS_STRING_LEN_MAX) (m : Match)
    {answer : ℕ → ℕ → Option ℕ} (hanswer : ∀ i, Gives (answer i)) : (getSubstitution m rep answer).isSome = true := by
  obtain ⟨slack, h0⟩ := hanswer 0 0
  obtain ⟨slack', h1⟩ := hanswer (0 + 1) 0
  have hinit := StringBuffer.full_init2 slack
  have hfull := hinit.adds (StringBuffer.adds_concat_all _ rep (some slack'))
    (hinit.ready.concat (by rw [hinit.len]; exact (Nat.zero_add _).trans_le hlen) slack')
  obtain ⟨t, ht, -⟩ := hfull.finish
  rw [getSubstitution, substitutionLoop_plain hrep, Option.bind_some, h0, h1, ht]
  rfl

theorem replacementAt_units {pos : ℕ} {answer : ℕ → ℕ → Option ℕ}
    (h : replacementAt (.string rep) sp searchp pos answer = some t) : t.units = rep.units :=
  getSubstitution_units (m := ⟨searchp, sp, pos, none, none⟩) hrep h

end

/-- What the search for a string that is not empty says about the pieces. -/
theorem nextPos_pieces (hlen : 0 < searchp.len) : (nextPos sp searchp endOfLastMatch isFirst = none →
      Pieces searchp.units sp.units endOfLastMatch [sp.units.drop endOfLastMatch]) ∧
    ∀ pos, nextPos sp searchp endOfLastMatch isFirst = some pos →
      First searchp.units sp.units (endOfLastMatch + skip searchp.units) pos ∧
        pos + searchp.units.length + skip searchp.units ≤ sp.units.length := by
  have hskip : skip searchp.units = 0 := if_neg (Nat.ne_of_gt hlen)
  have hpos : nextPos sp searchp endOfLastMatch isFirst = stringIndexof sp searchp endOfLastMatch :=
    if_neg (Nat.ne_of_gt hlen)
  have hfinds := stringIndexof_finds sp searchp endOfLastMatch
  rw [hpos, hskip]
  refine ⟨fun hnone => .last fun e he _ => hfinds.absent hnone e (Nat.le_of_add_right_le he), fun pos hsome => ?_⟩
  have hfirst := hfinds.first pos hsome
  exact ⟨hfirst, hfirst.occurs.length_le (ne_nil_of_pos hlen)⟩

/-- The rest of the string is added. -/
theorem adds_rest (b : StringBuffer) (p : Chars) (i : ℕ) (answer : Option ℕ) :
    StringBuffer.Adds (p.units.drop i) b (b.concat p i p.len answer) := by
  have h := StringBuffer.adds_concat b p i p.len answer
  rwa [← length_units, ← List.length_drop, List.take_length] at h

/-- **Each match of the pieces becomes the replacement.** -/
theorem replaceLoop_units (hlen : 0 < searchp.len) (hrep : (0x24 : UInt16) ∉ rep.units)
    {answer : ℕ → ℕ → ℕ → Option ℕ} {us : List UInt16} (hb : b.Holds us)
    (hfirst : isFirst = true → endOfLastMatch = 0 ∧ us = [])
    (h : replaceLoop sp searchp (.string rep) true endOfLastMatch isFirst answer b = some t) :
    ∃ ps, Pieces searchp.units sp.units endOfLastMatch ps ∧ t.units = us ++ rep.units.intercalate ps := by
  fun_induction replaceLoop sp searchp (.string rep) true endOfLastMatch isFirst answer b generalizing us with
  | case1 endOfLastMatch answer b hnone =>
    obtain ⟨rfl, rfl⟩ := hfirst rfl
    refine ⟨_, (nextPos_pieces hlen).1 hnone, ?_⟩
    rw [← Option.some.inj h, List.intercalate_singleton]
    rfl
  | case2 endOfLastMatch isFirst answer b hnone =>
    refine ⟨_, (nextPos_pieces hlen).1 hnone, ?_⟩
    rw [List.intercalate_singleton]
    exact (hb.adds (adds_rest b sp endOfLastMatch _)).finish h
  | case3 => cases h
  | case4 endOfLastMatch isFirst answer b pos hsome repl hrepl _ _ _ =>
    rename_i ih
    obtain ⟨hpos, hend⟩ := (nextPos_pieces hlen).2 pos hsome
    have hunits := replacementAt_units hrep hrepl
    have hput := (hb.adds (StringBuffer.adds_concat b sp endOfLastMatch pos (answer 0 0 0))).adds
      (StringBuffer.adds_concatValue _ (some repl) (answer 0 0 1))
    obtain ⟨ps, hps, ht⟩ := ih hput nofun h
    refine ⟨_, .cut hpos hend hps, ?_⟩
    rw [ht, List.intercalate_cons_of_ne_nil hps.ne_nil, ← hunits, List.append_assoc, List.append_assoc,
      List.append_assoc]
    rfl
  | case5 =>
    rename_i hnot
    exact absurd rfl hnot

/-- Where there is memory and the text is within the limit, the loop returns. -/
theorem replaceLoop_isSome (hlen : 0 < searchp.len) (hrep : (0x24 : UInt16) ∉ rep.units)
    (hmax : rep.len ≤ JS_STRING_LEN_MAX) {answer : ℕ → ℕ → ℕ → Option ℕ}
    (hanswer : ∀ i j, Gives (answer i j)) {us : List UInt16} (hb : b.Full us)
    {ps : List (List UInt16)} (hps : Pieces searchp.units sp.units endOfLastMatch ps)
    (hlimit : us.length + (rep.units.intercalate ps).length ≤ JS_STRING_LEN_MAX) :
    (replaceLoop sp searchp (.string rep) true endOfLastMatch isFirst answer b).isSome = true := by
  fun_induction replaceLoop sp searchp (.string rep) true endOfLastMatch isFirst answer b generalizing us ps with
  | case1 => rfl
  | case2 endOfLastMatch isFirst answer b hnone =>
    obtain ⟨slack, h0⟩ := hanswer 0 0 0
    rw [hps.unique ((nextPos_pieces hlen).1 hnone), List.intercalate_singleton, ← hb.len, List.length_drop] at hlimit
    obtain ⟨t, ht, -⟩ := (hb.adds (adds_rest b sp endOfLastMatch (some slack)) (hb.ready.concat hlimit slack)).finish
    rw [h0, ht]
    rfl
  | case3 endOfLastMatch isFirst answer b pos hsome hrepl =>
    have hsub := getSubstitution_isSome hrep hmax ⟨searchp, sp, pos, none, none⟩ fun i => hanswer 0 (i + 1)
    rw [replacementAt] at hrepl
    rw [hrepl] at hsub
    cases hsub
  | case4 endOfLastMatch isFirst answer b pos hsome repl hrepl _ _ _ =>
    rename_i ih
    obtain ⟨hpos, hend⟩ := (nextPos_pieces hlen).2 pos hsome
    obtain ⟨ps', hps'⟩ := exists_pieces searchp.units sp.units (pos + searchp.len)
    obtain ⟨slack, h0⟩ := hanswer 0 0 0
    obtain ⟨slack', h1⟩ := hanswer 0 0 1
    have hunits := replacementAt_units hrep hrepl
    have hrepl' : repl.len = rep.units.length := congrArg List.length hunits
    rw [hps.unique (.cut hpos hend hps'), List.intercalate_cons_of_ne_nil hps'.ne_nil, List.length_append,
      List.length_append] at hlimit
    have hslice : (slice sp.units endOfLastMatch pos).length = pos - endOfLastMatch := by
      rw [slice, List.length_take, List.length_drop]
      omega
    have hcut := hb.adds (StringBuffer.adds_concat b sp endOfLastMatch pos (some slack))
      (hb.ready.concat (by rw [hb.len]; omega) slack)
    obtain ⟨-, hput⟩ := full_concatValue hcut repl slack' (by
      rw [List.length_append, List.length_take]
      omega)
    rw [← h0, ← h1] at hput
    refine ih (fun i j => hanswer (i + 1) j) hput hps' ?_
    rw [List.length_append, List.length_append, hunits, List.length_take]
    omega
  | case5 =>
    rename_i hnot
    exact absurd rfl hnot

/-! ## The three functions agree -/

/-- What `split`, `join` and `replaceAll` have to do with each other, and with the search. -/
structure Agree (s sep r : Chars) : Prop where
  found : ∀ start, Finds s sep start (stringIndexof s sep start)
  /-- what has been split is put together again -/
  joined : ∀ answer answer' a t, jsStringSplit s (some sep) none answer = some a →
    jsArrayJoin (a.map some) (some sep) answer' = some t → t.units = s.units
  /-- and with another separator all matches are replaced -/
  replaced : sep.len ≠ 0 → (0x24 : UInt16) ∉ r.units → ∀ answer answer' answer'' a t u,
    jsStringSplit s (some sep) none answer = some a → jsArrayJoin (a.map some) (some r) answer' = some t →
    jsStringReplace s sep (.string r) true answer'' = some u → u.units = t.units
  /-- the functions return when there is memory and the text is within the limit -/
  split : ∀ answer, Gives answer → ∃ a, jsStringSplit s (some sep) none answer = some a ∧
    ∀ answer', Gives answer' → (jsArrayJoin (a.map some) (some sep) answer').isSome = true ∧
      ((r.units.intercalate (a.map Chars.units)).length ≤ JS_STRING_LEN_MAX →
        (jsArrayJoin (a.map some) (some r) answer').isSome = true ∧
          (sep.len ≠ 0 → (0x24 : UInt16) ∉ r.units → ∀ answer'', (∀ i j, Gives (answer'' i j)) →
            (jsStringReplace s sep (.string r) true answer'').isSome = true))

/-- Without a limit, `split` returns all the pieces. -/
theorem jsStringSplit_all {s sep : Chars} (hs : s.len ≤ JS_STRING_LEN_MAX) {a : List Chars}
    (h : jsStringSplit s (some sep) none answer = some a) : Split s sep (a.map Chars.units) := by
  obtain ⟨ps, hps, hunits⟩ := jsStringSplit_pieces h
  have hle := hps.length_le
  rw [JS_STRING_LEN_MAX] at hs
  rw [Option.getD_none, List.take_of_length_le (by omega)] at hunits
  exact hunits ▸ hps

theorem Split.pieces {s sep : Chars} {ps : List (List UInt16)} (h : Split s sep ps) (hsep : sep.len ≠ 0) :
    Pieces sep.units s.units 0 ps := by
  unfold Split at h
  rwa [if_neg fun hzero => hsep hzero.2] at h

/-- **`split`, `join` and `replaceAll` agree**, for strings of either width. -/
theorem split_join_replaceAll (s sep r : Chars) (hs : s.len ≤ JS_STRING_LEN_MAX) (hr : r.len ≤ JS_STRING_LEN_MAX) :
    Agree s sep r where
  found := stringIndexof_finds s sep
  joined _ _ _ _ hsplit hjoin := by
    rw [jsArrayJoin_units hjoin]
    exact (jsStringSplit_all hs hsplit).intercalate
  replaced hsep hrep _ _ answer'' _ _ _ hsplit hjoin hreplace := by
    have hinit := StringBuffer.holds_init2 0 false (answer'' 0 0 0)
    obtain ⟨ps, hps, hunits⟩ := replaceLoop_units (Nat.pos_of_ne_zero hsep) hrep hinit (fun _ => ⟨rfl, rfl⟩) hreplace
    rw [hunits, jsArrayJoin_units hjoin, hps.unique ((jsStringSplit_all hs hsplit).pieces hsep)]
    rfl
  split answer hanswer := by
    obtain ⟨a, ha⟩ := Option.isSome_iff_exists.mp (jsStringSplit_isSome hs (some sep) none hanswer)
    have hsplit := jsStringSplit_all hs ha
    refine ⟨a, ha, fun answer' hanswer' => ⟨jsArrayJoin_isSome hanswer' ?_, fun hlimit =>
      ⟨jsArrayJoin_isSome hanswer' hlimit, fun hsep hrep answer'' hanswer'' => ?_⟩⟩⟩
    · rw [separatorUnits, Option.map_some, Option.getD_some, hsplit.intercalate]
      exact hs
    · obtain ⟨slack, h0⟩ := hanswer'' 0 0 0
      have hinit := StringBuffer.full_init2 slack
      rw [← h0] at hinit
      exact replaceLoop_isSome (Nat.pos_of_ne_zero hsep) hrep hr (fun i j => hanswer'' (i + 1) j) hinit
        (hsplit.pieces hsep) (by rwa [List.length_nil, Nat.zero_add])

/-- A wide string, a narrow separator and a narrow replacement. -/
theorem split_join_replaceAll_example : Agree (.str16 [0x3b1, 0x2c, 0x2c, 0x62]) (.str8 [0x2c]) (.str8 [0x3b]) :=
  split_join_replaceAll _ _ _ (by decide) (by decide)

end QuickJs.JSString
