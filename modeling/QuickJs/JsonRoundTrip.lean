import QuickJs.Decimal
import QuickJs.Utf16
import QuickJs.JsonExact

/-!
# `JSON.stringify`

The text of a tree of plain data: no value of it has a `toJSON` function, none is reached twice,
and there is no replacer. The properties of an object are in the order that `js_object_keys` lists
them in.
-/

namespace QuickJs.Json

open Atom Utf8

/-- `lre_is_space`. -/
def lreIsSpace (c : ℕ) : Bool :=
  [(0x0009, 0x000d), (0x0020, 0x0020), (0x00a0, 0x00a0), (0x1680, 0x1680), (0x2000, 0x200a),
    (0x2028, 0x2029), (0x202f, 0x202f), (0x205f, 0x205f), (0x3000, 0x3000), (0xfeff, 0xfeff)].any
    fun r => r.1 ≤ c && c ≤ r.2

/-- A digit of `%04x`. -/
def hexDigit (d : ℕ) : Char := Char.ofNat (if d < 10 then d + 48 else d + 87)

/-- `%04x` of a code unit. -/
def hexText (c : ℕ) : List Char :=
  [hexDigit (c / 4096 % 16), hexDigit (c / 256 % 16), hexDigit (c / 16 % 16), hexDigit (c % 16)]

/-- What `JS_ToQuotedString` puts for a character. -/
def quoteCharacter (c : ℕ) : List UInt16 :=
  if c = 9 then units ['\\', 't']
  else if c = 13 then units ['\\', 'r']
  else if c = 10 then units ['\\', 'n']
  else if c = 8 then units ['\\', 'b']
  else if c = 12 then units ['\\', 'f']
  else if c = 0x22 ∨ c = 0x5c then units ['\\', byte c]
  else if c < 32 ∨ 0xd800 ≤ c ∧ c < 0xe000 then units ('\\' :: 'u' :: hexText c)
  else stringBufferPutc c

/-- `JS_ToQuotedString`. -/
def jsToQuotedString (s : List UInt16) : List UInt16 :=
  units ['"'] ++ (codePoints s).flatMap quoteCharacter ++ units ['"']

/-- The text of a number, `snprintf` with `%d`. -/
def intText (i : Int32) : List Char :=
  (if i.toInt < 0 then ['-'] else []) ++ (decimal i.toInt.natAbs).map Char.ofNat

/-- A line break and the indentation, when there is a gap. -/
def newLine (gap indent : List UInt16) : List UInt16 :=
  if gap.isEmpty then [] else units ['\n'] ++ indent

/-- The comma in front of all items but the first. -/
def comma (first : Bool) : List UInt16 := if first then [] else units [',']

mutual

/-- `js_json_to_str`. -/
def jsJsonToStr (gap : List UInt16) : Tree Int32 → List UInt16 → List UInt16
  | .null, _ => units ['n', 'u', 'l', 'l']
  | .bool b, _ => units (if b then ['t', 'r', 'u', 'e'] else ['f', 'a', 'l', 's', 'e'])
  | .number i, _ => units (intText i)
  | .string s, _ => jsToQuotedString s
  | .array items, indent =>
    units ['['] ++ elementsToStr gap (indent ++ gap) items true ++
      (if items.isEmpty then [] else newLine gap indent) ++ units [']']
  | .object props, indent =>
    units ['{'] ++ membersToStr gap (indent ++ gap) props true ++
      (if props.isEmpty then [] else newLine gap indent) ++ units ['}']

/-- The loop over the elements of an array. -/
def elementsToStr (gap indent : List UInt16) : List (Tree Int32) → Bool → List UInt16
  | [], _ => []
  | v :: vs, first =>
    comma first ++ newLine gap indent ++ jsJsonToStr gap v indent ++ elementsToStr gap indent vs false

/-- The loop over the properties of an object. -/
def membersToStr (gap indent : List UInt16) : List (List UInt16 × Tree Int32) → Bool → List UInt16
  | [], _ => []
  | (prop, v) :: ps, first =>
    comma first ++ newLine gap indent ++ jsToQuotedString prop ++ units [':'] ++
      (if gap.isEmpty then [] else units [' ']) ++ jsJsonToStr gap v indent ++
      membersToStr gap indent ps false

end

/-- `JS_JSONStringify`, with a string for the space: the gap is its first ten code units. -/
def jsJSONStringify (v : Tree Int32) (space : List UInt16) : List UInt16 :=
  jsJsonToStr (space.take 10) v []

end QuickJs.Json

/-!
## JSON texts go round

What `JSON.stringify` writes is a text of the standard grammar, and it denotes the tree that it was
written for. So `JSON.parse` gives the tree back.
-/

namespace QuickJs.Json

open Atom Utf8

section Numbers

variable {δ : Type} {D : Doubles δ} {n e : ℕ} {s t : List Char}

/-- The double that an integer is. -/
def Doubles.ofInt32 (D : Doubles δ) (i : Int32) : δ :=
  if i.toInt < 0 then D.neg (D.ofUint64 i.toInt.natAbs) else D.ofUint64 i.toInt.natAbs

theorem accumulate_append (hs : ∀ c ∈ s, c.isDigit) :
    accumulate (s ++ t) n e = accumulate t (accumulate s n e).1 (accumulate s n e).2 := by
  induction s generalizing n e with
  | nil => rfl
  | cons c s ih =>
    obtain ⟨hc, hs⟩ := List.forall_mem_cons.mp hs
    rw [List.cons_append, accumulate, accumulate, if_neg (not_not_intro hc)]
    split
    · exact ih hs
    · exact ih hs

/-- Leading zeros count for nothing. -/
theorem accumulate_dropWhile : accumulate (s.dropWhile (· = '0')) 0 0 = accumulate s 0 0 := by
  induction s with
  | nil => rfl
  | cons c s ih =>
    by_cases hc : c = '0'
    · subst hc
      rw [List.dropWhile_cons_of_pos rfl, ih]
      rfl
    · rw [List.dropWhile_cons_of_neg (by simpa using hc)]

theorem digit_char {d : ℕ} (hd : d < 10) :
    (Char.ofNat (d + 48)).isDigit = true ∧ (Char.ofNat (d + 48)).toNat - '0'.toNat = d := by
  interval_cases d
  all_goals exact ⟨rfl, rfl⟩

theorem accumulate_digit {d : ℕ} (hd : d < 10) (hn : n ≤ (2 ^ 64 - 1 - 9) / 10) :
    accumulate [Char.ofNat (d + 48)] n 0 = (n * 10 + d, 0) := by
  obtain ⟨hdigit, hvalue⟩ := digit_char hd
  rw [accumulate, if_neg (not_not_intro hdigit), if_pos hn, hvalue]
  rfl

/-- A decimal text is an integer part, and it is read as the number it was written for. -/
theorem decimal_spec (hn : n ≤ 2 ^ 31) : IntegerPart ((decimal n).map Char.ofNat) ∧
      accumulate ((decimal n).map Char.ofNat) 0 0 = (n, 0) := by
  induction n using Nat.strong_induction_on with
  | _ n ih =>
    by_cases hlt : n < 10
    · have htext : (decimal n).map Char.ofNat = [Char.ofNat (n + 48)] := by
        rw [decimal_of_lt hlt]
        rfl
      rw [htext, accumulate_digit hlt (by omega), Nat.zero_add]
      refine ⟨⟨⟨List.cons_ne_nil _ _, fun c hc => ?_⟩, fun hhead => ?_⟩, rfl⟩
      · rw [List.mem_singleton.mp hc]
        exact (digit_char hlt).1
      · rw [Option.some.inj hhead]
    · have hdiv : n = n / 10 * 10 + n % 10 := by omega
      have hmod : n % 10 < 10 := Nat.mod_lt _ (by decide)
      obtain ⟨⟨⟨hne, hdigits⟩, hzero⟩, hvalue⟩ := ih (n / 10) (by omega) (by omega)
      have htext : (decimal n).map Char.ofNat =
          (decimal (n / 10)).map Char.ofNat ++ [Char.ofNat (n % 10 + 48)] := by
        conv_lhs => rw [hdiv, decimal_snoc (by omega) hmod, List.map_append]
        rfl
      refine ⟨⟨⟨?_, ?_⟩, ?_⟩, ?_⟩
      · rw [htext]
        exact List.append_ne_nil_of_left_ne_nil hne _
      · rw [htext]
        intro c hc
        obtain hc | hc := List.mem_append.mp hc
        · exact hdigits c hc
        · rw [List.mem_singleton.mp hc]
          exact (digit_char hmod).1
      · -- the first digit is the one of a number that is not zero
        intro hhead
        rw [htext, List.head?_append_of_ne_nil _ hne] at hhead
        rw [hzero hhead] at hvalue
        have h0 : n / 10 = 0 := (congrArg Prod.fst hvalue).symm
        omega
      · rw [htext, accumulate_append hdigits, hvalue, accumulate_digit hmod (by omega), ← hdiv]

theorem natAbs_le (i : Int32) : i.toInt.natAbs ≤ 2 ^ 31 := by
  have hle := i.le_toInt
  have hlt := i.toInt_lt
  omega

theorem intText_numeral (i : Int32) : Numeral (intText i) := by
  obtain ⟨hint, _⟩ := decimal_spec (natAbs_le i)
  refine ⟨if i.toInt < 0 then ['-'] else [], _, [], [], ?_, ?_, hint, .inl rfl, .inl rfl⟩
  · rw [List.append_nil, List.append_nil]
    rfl
  · split
    · exact .inr rfl
    · exact .inl rfl

theorem intText_ascii (i : Int32) : (intText i).all fun c => c.toNat < 0x80 := by
  obtain ⟨⟨⟨_, hdigits⟩, _⟩, _⟩ := decimal_spec (natAbs_le i)
  rw [intText, List.all_append, Bool.and_eq_true]
  constructor
  · split
    · rfl
    · rfl
  · rw [List.all_eq_true]
    intro c hc
    have hdigit := hdigits c hc
    rw [Char.isDigit, Bool.and_eq_true, decide_eq_true_iff, decide_eq_true_iff] at hdigit
    have hle : c.toNat ≤ 57 := UInt32.le_iff_toNat_le.mp hdigit.2
    exact decide_eq_true (by omega)

theorem jsStrtod_neg (hvalue : accumulate s 0 0 = (n, 0)) :
    jsStrtod D ('-' :: s) false = D.neg (D.ofUint64 n) := by
  rw [jsStrtod]
  simp [accumulate_dropWhile, hvalue]

theorem jsStrtod_digits (hvalue : accumulate s 0 0 = (n, 0)) (hs : s.head? ≠ some '-') :
    jsStrtod D s false = D.ofUint64 n := by
  rw [jsStrtod]
  simp [accumulate_dropWhile, hvalue, hs]

/-- The text of a number is read as this number. -/
theorem scanned_intText (i : Int32) : scanned D.numbers (intText i) = D.ofInt32 i := by
  obtain ⟨⟨⟨_, hdigits⟩, _⟩, hvalue⟩ := decimal_spec (natAbs_le i)
  have hfloat := isFloat_of_digits hdigits
  rw [Doubles.ofInt32, intText]
  split
  · have hsign : isFloat (['-'] ++ (decimal i.toInt.natAbs).map Char.ofNat) = false := by
      rw [isFloat_append, hfloat]
      rfl
    rw [scanned, hsign]
    exact jsStrtod_neg hvalue
  · have hhead : ((decimal i.toInt.natAbs).map Char.ofNat).head? ≠ some '-' := by
      intro hhead
      cases hdigits '-' (List.mem_of_mem_head? hhead)
    rw [List.nil_append, scanned, hfloat]
    exact jsStrtod_digits hvalue hhead

end Numbers

section Strings

variable {c : ℕ} {s : List UInt16}

theorem hexDigit_spec {d : ℕ} (hd : d < 16) : fromHex (hexDigit d) = some d ∧ (hexDigit d).toNat < 0x80 := by
  interval_cases d
  all_goals exact ⟨rfl, by decide⟩

theorem hexFrom_hexText (hc : c < 0x10000) : hexFrom 0 (hexText c) = some c := by
  have hdigit : ∀ a, fromHex (hexDigit (a % 16)) = some (a % 16) :=
    fun a => (hexDigit_spec (Nat.mod_lt _ (by decide))).1
  have hsum : (((0 * 16 + c / 4096 % 16) * 16 + c / 256 % 16) * 16 + c / 16 % 16) * 16 + c % 16 =
      c := by omega
  simp only [hexText, hexFrom, hdigit, Option.bind_some, hsum]

theorem hexText_ascii : (hexText c).all fun d => d.toNat < 0x80 := by
  have hdigit : ∀ a, (hexDigit (a % 16)).toNat < 0x80 :=
    fun a => (hexDigit_spec (Nat.mod_lt _ (by decide))).2
  simp [hexText, hdigit]

/-- What is put for a character stands for it. -/
theorem quoteCharacter_spec (hc : c ≤ 0x10ffff) :
    ∃ k, Renders (quoteCharacter c) k ∧ Character k (stringBufferPutc c) := by
  rw [quoteCharacter]
  split
  · subst c
    exact ⟨_, .units rfl, .short (by decide)⟩
  split
  · subst c
    exact ⟨_, .units rfl, .short (by decide)⟩
  split
  · subst c
    exact ⟨_, .units rfl, .short (by decide)⟩
  split
  · subst c
    exact ⟨_, .units rfl, .short (by decide)⟩
  split
  · subst c
    exact ⟨_, .units rfl, .short (by decide)⟩
  split
  · rename_i hself
    obtain rfl | rfl := hself
    · exact ⟨_, .units rfl, .short (by decide)⟩
    · exact ⟨_, .units rfl, .short (by decide)⟩
  split
  · exact ⟨_, .units (List.all_cons.trans hexText_ascii), .hex rfl (hexFrom_hexText (by omega))⟩
  · exact ⟨_, .scalar ⟨hc, by omega⟩, .plain (by omega) hc (by omega) (by omega)⟩

theorem quoteCharacters_spec (cs : List ℕ) (hcs : ∀ c ∈ cs, c ≤ 0x10ffff) :
    ∃ k, Renders (cs.flatMap quoteCharacter) k ∧
      Characters Lexicon.standard k (cs.flatMap stringBufferPutc) := by
  induction cs with
  | nil => exact ⟨[], .nil, .nil⟩
  | cons c cs ih =>
    obtain ⟨hc, hcs⟩ := List.forall_mem_cons.mp hcs
    obtain ⟨k, hk, hchar⟩ := quoteCharacter_spec hc
    obtain ⟨l, hl, hchars⟩ := ih hcs
    exact ⟨k ++ l, hk.append hl, .cons hchar hchars⟩

/-- A quoted string is a string of the grammar, with the same code units. -/
theorem jsToQuotedString_spec :
    ∃ k, Renders (jsToQuotedString s) ('"' :: k ++ ['"']) ∧ Characters Lexicon.standard k s := by
  obtain ⟨k, hk, hchars⟩ := quoteCharacters_spec (codePoints s) fun c => le_of_mem_codePoints
  rw [flatMap_codePoints] at hchars
  have hquote : Renders (units ['"']) ['"'] := .units rfl
  exact ⟨k, (hquote.append hk).append hquote, hchars⟩

end Strings

section Trees

variable {α β δ : Type}

mutual

/-- The tree with other numbers in it. -/
def Tree.map (f : α → β) : Tree α → Tree β
  | .null => .null
  | .bool b => .bool b
  | .number d => .number (f d)
  | .string s => .string s
  | .array items => .array (mapItems f items)
  | .object props => .object (mapProps f props)

def mapItems (f : α → β) : List (Tree α) → List (Tree β)
  | [] => []
  | v :: vs => v.map f :: mapItems f vs

def mapProps (f : α → β) : List (List UInt16 × Tree α) → List (List UInt16 × Tree β)
  | [] => []
  | (name, v) :: ps => (name, v.map f) :: mapProps f ps

end

/-- No object has two properties of one name. -/
inductive Tree.Distinct : Tree α → Prop
  | null : Tree.Distinct .null
  | bool {b : Bool} : Tree.Distinct (.bool b)
  | number {d : α} : Tree.Distinct (.number d)
  | string {s : List UInt16} : Tree.Distinct (.string s)
  | array {items : List (Tree α)} : (∀ v ∈ items, v.Distinct) → Tree.Distinct (.array items)
  | object {props : List (List UInt16 × Tree α)} : (props.map Prod.fst).Nodup →
      (∀ p ∈ props, p.2.Distinct) → Tree.Distinct (.object props)

theorem defineProperty_of_notMem {props : List (List UInt16 × α)} {p : List UInt16 × α}
    (h : p.1 ∉ props.map Prod.fst) : defineProperty props p = props ++ [p] := by
  induction props with
  | nil => rfl
  | cons q props ih =>
    rw [List.map_cons, List.mem_cons, not_or] at h
    rw [defineProperty, if_neg (Ne.symm h.1), ih h.2]
    rfl

/-- Properties with different names stay as they are. -/
theorem properties_of_nodup {ps : List (List UInt16 × α)} (h : (ps.map Prod.fst).Nodup) :
    properties ps = ps := by
  suffices hfold : ∀ props, ((props ++ ps).map Prod.fst).Nodup →
      ps.foldl defineProperty props = props ++ ps from hfold [] h
  clear h
  induction ps with
  | nil => exact fun props _ => (List.append_nil props).symm
  | cons p ps ih =>
    intro props hnodup
    have hnotMem : p.1 ∉ props.map Prod.fst := by
      rw [List.map_append, List.nodup_append] at hnodup
      exact fun hmem => hnodup.2.2 _ hmem _ List.mem_cons_self rfl
    have hsplit : props ++ p :: ps = props ++ [p] ++ ps := by
      rw [List.append_assoc]
      rfl
    rw [hsplit] at hnodup ⊢
    rw [List.foldl_cons, defineProperty_of_notMem hnotMem, ih _ hnodup]

theorem keys_mapProps {f : α → β} {ps : List (List UInt16 × Tree α)} :
    (mapProps f ps).map Prod.fst = ps.map Prod.fst := by
  induction ps with
  | nil => rfl
  | cons p ps ih =>
    rw [mapProps, List.map_cons, List.map_cons, ih]

variable {D : Doubles δ} {gap indent closing : List UInt16} {c g w : List Char}

theorem white_nil : White [] := nofun

theorem newLine_spec (gap : List UInt16) (hindent : Renders indent w) (hw : White w) :
    ∃ x, Renders (newLine gap indent) x ∧ White x := by
  rw [newLine]
  split
  · exact ⟨[], .nil, nofun⟩
  · refine ⟨_, (Renders.units rfl).append hindent, ?_⟩
    exact List.forall_mem_cons.mpr ⟨.inr (.inl rfl), hw⟩

/-- The text of a value, wherever it is indented. -/
def Written (D : Doubles δ) (gap : List UInt16) (v : Tree Int32) : Prop :=
  ∀ {indent w}, Renders indent w → White w → ∃ x, Renders (jsJsonToStr gap v indent) x ∧
    Derives Lexicon.standard (scanned D.numbers) (.value (v.map D.ofInt32)) x

def commaText (first : Bool) : List Char := if first then [] else [',']

theorem comma_spec (first : Bool) : Renders (comma first) (commaText first) := by
  cases first with
  | true => exact .nil
  | false => exact .units rfl

/-- The elements of an array, with the line break behind the last one. -/
theorem elementsToStr_spec {items : List (Tree Int32)} (hitems : ∀ v ∈ items, Written D gap v)
    (hne : items ≠ []) (hindent : Renders indent w) (hw : White w)
    (hclosing : Renders closing c) (hc : White c) (first : Bool) :
    ∃ x, Renders (elementsToStr gap indent items first ++ closing) (commaText first ++ x) ∧
      Derives Lexicon.standard (scanned D.numbers) (.elements (mapItems D.ofInt32 items)) x := by
  obtain ⟨l, hl, hlw⟩ := newLine_spec gap hindent hw
  induction items generalizing first with
  | nil => exact absurd rfl hne
  | cons v vs ih =>
    obtain ⟨hv, hvs⟩ := List.forall_mem_cons.mp hitems
    obtain ⟨x, hx, hvalue⟩ := hv hindent hw
    have hhead := ((comma_spec first).append hl).append hx
    rw [elementsToStr]
    cases vs with
    | nil =>
      refine ⟨l ++ x ++ c, ?_, .lastElement (.element hlw hvalue hc)⟩
      rw [elementsToStr, List.append_nil]
      simpa only [List.append_assoc] using hhead.append hclosing
    | cons v' vs =>
      obtain ⟨y, hy, helements⟩ := ih hvs (List.cons_ne_nil _ _) false
      have helement := Derives.element hlw hvalue white_nil
      rw [List.append_nil] at helement
      refine ⟨l ++ x ++ ',' :: y, ?_, .elements helement helements⟩
      have hall : Renders _ (commaText first ++ l ++ x ++ ([','] ++ y)) := hhead.append hy
      simpa only [List.append_assoc, List.singleton_append] using hall

/-- The properties of an object. -/
theorem membersToStr_spec {props : List (List UInt16 × Tree Int32)}
    (hprops : ∀ p ∈ props, Written D gap p.2) (hne : props ≠ []) (hindent : Renders indent w)
    (hw : White w) (hclosing : Renders closing c) (hc : White c) (first : Bool) :
    ∃ x, Renders (membersToStr gap indent props first ++ closing) (commaText first ++ x) ∧
      Derives Lexicon.standard (scanned D.numbers) (.members (mapProps D.ofInt32 props)) x := by
  obtain ⟨l, hl, hlw⟩ := newLine_spec gap hindent hw
  obtain ⟨b, hb, hbw⟩ : ∃ b, Renders (if gap.isEmpty then [] else units [' ']) b ∧ White b := by
    split
    · exact ⟨[], .nil, nofun⟩
    · exact ⟨[' '], .units rfl, List.forall_mem_singleton.mpr (.inr (.inr (.inl rfl)))⟩
  induction props generalizing first with
  | nil => exact absurd rfl hne
  | cons p ps ih =>
    obtain ⟨name, v⟩ := p
    obtain ⟨hv, hps⟩ := List.forall_mem_cons.mp hprops
    obtain ⟨x, hx, hvalue⟩ := hv hindent hw
    obtain ⟨k, hk, hname⟩ := jsToQuotedString_spec (s := name)
    have hcolon : Renders (units [':']) [':'] := .units rfl
    have hhead := (((((comma_spec first).append hl).append hk).append hcolon).append hb).append hx
    rw [membersToStr]
    cases ps with
    | nil =>
      have hmember := Derives.member hlw hname white_nil (.element hbw hvalue hc)
      refine ⟨_, ?_, .lastMember hmember⟩
      rw [membersToStr]
      simpa only [List.append_assoc, List.cons_append, List.nil_append] using hhead.append hclosing
    | cons p ps =>
      obtain ⟨y, hy, hmembers⟩ := ih hps (List.cons_ne_nil _ _) false
      have hmember := Derives.member hlw hname white_nil
        (.element hbw hvalue white_nil)
      refine ⟨_, ?_, .members hmember hmembers⟩
      have hall : Renders _ (commaText first ++ l ++ ('"' :: k ++ ['"']) ++ [':'] ++ b ++ x ++
        ([','] ++ y)) := hhead.append hy
      simpa only [List.append_assoc, List.cons_append, List.nil_append] using hall

theorem closing_spec (gap : List UInt16) (empty : Bool) (hindent : Renders indent w) (hw : White w) :
    ∃ x, Renders (if empty then [] else newLine gap indent) x ∧ White x := by
  split
  · exact ⟨[], .nil, nofun⟩
  · exact newLine_spec gap hindent hw

/-- The text of a tree denotes it. -/
theorem Tree.Distinct.written {v : Tree Int32} (hv : v.Distinct) (hgap : Renders gap g)
    (hg : White g) : Written D gap v := by
  induction hv with
  | null => exact fun _ _ => ⟨_, .units rfl, .null⟩
  | @bool b =>
    intro indent w _ _
    cases b with
    | true => exact ⟨_, .units rfl, .true⟩
    | false => exact ⟨_, .units rfl, .false⟩
  | @number i =>
    intro indent w _ _
    have hnumber : Derives Lexicon.standard (scanned D.numbers) _ (intText i) :=
      .number (intText_numeral i)
    rw [scanned_intText] at hnumber
    exact ⟨_, .units (intText_ascii i), hnumber⟩
  | string =>
    intro indent w _ _
    obtain ⟨k, hk, hs⟩ := jsToQuotedString_spec
    exact ⟨_, hk, .string hs⟩
  | @array items _ ih =>
    intro indent w hindent hw
    obtain ⟨c, hclosing, hc⟩ := closing_spec gap items.isEmpty hindent hw
    have hopen : Renders (units ['[']) ['['] := .units rfl
    have hclose : Renders (units [']']) [']'] := .units rfl
    rw [jsJsonToStr]
    cases items with
    | nil => exact ⟨_, (hopen.append hclosing).append hclose, .emptyArray hc⟩
    | cons v vs =>
      obtain ⟨x, hx, helements⟩ := elementsToStr_spec ih (List.cons_ne_nil v vs)
        (hindent.append hgap) (hw.append hg) hclosing hc true
      refine ⟨_, ?_, .array helements⟩
      have hall : Renders _ ('[' :: x ++ [']']) := (hopen.append hx).append hclose
      simpa only [List.append_assoc] using hall
  | @object props hnodup _ ih =>
    intro indent w hindent hw
    obtain ⟨c, hclosing, hc⟩ := closing_spec gap props.isEmpty hindent hw
    have hopen : Renders (units ['{']) ['{'] := .units rfl
    have hclose : Renders (units ['}']) ['}'] := .units rfl
    rw [jsJsonToStr]
    cases props with
    | nil => exact ⟨_, (hopen.append hclosing).append hclose, .emptyObject hc⟩
    | cons p ps =>
      obtain ⟨x, hx, hmembers⟩ := membersToStr_spec ih (List.cons_ne_nil p ps)
        (hindent.append hgap) (hw.append hg) hclosing hc true
      have hobject := Derives.object hmembers
      rw [properties_of_nodup (by rw [keys_mapProps]; exact hnodup)] at hobject
      refine ⟨_, ?_, hobject⟩
      have hall : Renders _ ('{' :: x ++ ['}']) := (hopen.append hx).append hclose
      simpa only [List.append_assoc] using hall

end Trees

section RoundTrip

variable {δ : Type}

/-- A code unit of JSON white space. -/
def isJsonSpace (u : UInt16) : Bool := u = 0x20 || u = 9 || u = 10 || u = 13

theorem jsonSpace_renders {gap : List UInt16} (h : gap.all isJsonSpace) : ∃ g, Renders gap g ∧ White g := by
  induction gap with
  | nil => exact ⟨[], .nil, nofun⟩
  | cons u gap ih =>
    rw [List.all_cons, Bool.and_eq_true] at h
    obtain ⟨g, hg, hwhite⟩ := ih h.2
    obtain ⟨c, hc, hcwhite⟩ : ∃ c, units [c] = [u] ∧ IsWhite c ∧ c.toNat < 0x80 := by
      simp only [isJsonSpace, Bool.or_eq_true, decide_eq_true_iff] at h
      obtain ((rfl | rfl) | rfl) | rfl := h.1
      · exact ⟨' ', rfl, by decide⟩
      · exact ⟨'\t', rfl, by decide⟩
      · exact ⟨'\n', rfl, by decide⟩
      · exact ⟨'\r', rfl, by decide⟩
    have hone : Renders (units [c]) [c] := .units (by simpa using hcwhite.2)
    rw [hc] at hone
    exact ⟨c :: g, hone.append hg, List.forall_mem_cons.mpr ⟨hcwhite.1, hwhite⟩⟩

/-- What `JSON.stringify` writes, `JSON.parse` reads. Of the gap the first ten code units are used,
and they are JSON white space. -/
theorem jsonStringify_roundTrip (D : Doubles δ) (v : Tree Int32) (space : List UInt16)
    (hv : v.Distinct) (hspace : (space.take 10).all isJsonSpace) :
    jsParseJSON D.numbers (jsToCString (jsJSONStringify v space)) = .ok (v.map D.ofInt32) := by
  obtain ⟨g, hgap, hg⟩ := jsonSpace_renders hspace
  obtain ⟨x, hx, hvalue⟩ := hv.written (D := D) hgap hg .nil nofun
  rw [jsJSONStringify, hx.jsToCString]
  have helement := Derives.element white_nil hvalue white_nil
  rw [List.append_nil] at helement
  exact jsParseJSON_complete helement.wide

/-- The doubles that are integers. -/
def Doubles.integers : Doubles ℤ :=
  ⟨fun n => n, fun d e => d * 10 ^ e, fun d => -d, fun _ => 0, 0, 0⟩

/-- An object with a lone surrogate for a name and an array in it, indented with tabs. -/
theorem jsonStringify_roundTrip_example : jsParseJSON Doubles.integers.numbers (jsToCString (jsJSONStringify
        (.object [([0xd800], .array [.number (-12), .null])]) [9])) =
      .ok (.object [([0xd800], .array [.number (-12), .null])]) :=
  jsonStringify_roundTrip Doubles.integers (.object [([0xd800], .array [.number (-12), .null])]) [9]
    (.object (List.nodup_singleton _) (List.forall_mem_singleton.mpr (.array
      (List.forall_mem_cons.mpr ⟨.number, List.forall_mem_singleton.mpr .null⟩)))) rfl

/-- With a vertical tab for the gap, which is white space but not to JSON, the text is refused. -/
theorem jsonStringify_not_roundTrip :
    ¬ ∀ (δ : Type) (D : Doubles δ) (v : Tree Int32) (space : List UInt16), v.Distinct →
      (space.all fun u => lreIsSpace u.toNat) →
      jsParseJSON D.numbers (jsToCString (jsJSONStringify v space)) = .ok (v.map D.ofInt32) := by
  intro h
  have hok := h ℤ Doubles.integers (.array [.null]) [11]
    (.array (List.forall_mem_singleton.mpr .null)) rfl
  cases hok

end RoundTrip

end QuickJs.Json
