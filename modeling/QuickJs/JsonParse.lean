import QuickJs.JsonNumber
import QuickJs.JsonString

/-!
# `JSON.parse`

The parser of JSON texts. What it accepts is a text of the grammar over the wide lexicon, with the
value that the grammar gives, and it comes to an end on every text.
-/

namespace QuickJs.Json

open Rounds

section Parser

variable {δ α β : Type} (N : Numbers δ)

/-- A token that is out of place. -/
def unexpectedToken (s : JSParseState δ) : Failure :=
  .syntaxError ("unexpected token: '" ++ String.ofList (s.ptr.take (s.ptr.length - s.bufPtr.length)) ++ "'")

/-- `json_parse_expect`. -/
def jsonParseExpect (s : JSParseState δ) (tok : Char) : Except Failure (JSParseState δ) :=
  if s.token.isChar tok then jsonNextToken N s.bufPtr
  else .error (.syntaxError ("expecting '" ++ String.singleton tok ++ "'"))

/-- A round of the two loops of `json_parse_value`: an item, and whether a comma follows. -/
def itemRound (item : JSParseState δ → Except Failure (α × JSParseState δ)) (define : β → α → β)
    (s : JSParseState δ × β) :
    Except Failure ((JSParseState δ × β) ⊕ (JSParseState δ × β)) := do
  let (a, t) ← item s.1
  let val := define s.2 a
  if t.token.isChar ',' then
    let t ← jsonNextToken N t.bufPtr
    .ok (.inl (t, val))
  else .ok (.inr (t, val))

/-- The items up to a closing bracket: none when it stands here. -/
def jsonParseItems (item : JSParseState δ → Except Failure (α × JSParseState δ))
    (define : β → α → β) (close : Char) (n : ℕ) (s : JSParseState δ) (val : β) :
    Except Failure (JSParseState δ × β) :=
  if s.token.isChar close then .ok (s, val)
  else loop (itemRound N item define) .outOfSteps n (s, val)

/-- A member of an object. -/
def jsonParseMember (value : JSParseState δ → Except Failure (Tree δ × JSParseState δ))
    (s : JSParseState δ) : Except Failure ((List UInt16 × Tree δ) × JSParseState δ) :=
  match s.token with
  | .string propName => do
    let s ← jsonNextToken N s.bufPtr
    let s ← jsonParseExpect N s ':'
    let (propVal, s) ← value s
    .ok ((propName, propVal), s)
  | _ => .error (.syntaxError "expecting property name")

/-- `json_parse_value`. -/
def jsonParseValue : ℕ → JSParseState δ → Except Failure (Tree δ × JSParseState δ)
  | 0, _ => .error .outOfSteps
  | n + 1, s =>
    match s.token with
    | .char c =>
      if c = '{' then do
        let t ← jsonNextToken N s.bufPtr
        let (t, props) ←
          jsonParseItems N (jsonParseMember N (jsonParseValue n)) defineProperty '}' n t []
        let t ← jsonParseExpect N t '}'
        .ok (.object props, t)
      else if c = '[' then do
        let t ← jsonNextToken N s.bufPtr
        let (t, items) ← jsonParseItems N (jsonParseValue n) (fun l v => l ++ [v]) ']' n t []
        let t ← jsonParseExpect N t ']'
        .ok (.array items, t)
      else .error (unexpectedToken s)
    | .string u => do
      let t ← jsonNextToken N s.bufPtr
      .ok (.string u, t)
    | .number d => do
      let t ← jsonNextToken N s.bufPtr
      .ok (.number d, t)
    | .ident name =>
      if name = ['f', 'a', 'l', 's', 'e'] ∨ name = ['t', 'r', 'u', 'e'] then do
        let t ← jsonNextToken N s.bufPtr
        .ok (.bool (name = ['t', 'r', 'u', 'e']), t)
      else if name = ['n', 'u', 'l', 'l'] then do
        let t ← jsonNextToken N s.bufPtr
        .ok (.null, t)
      else .error (unexpectedToken s)
    | .eof => .error (.syntaxError "unexpected end of input")

/-- `JS_ParseJSON`. -/
def jsParseJSON (buf : List Char) : Except Failure (Tree δ) := do
  let s ← jsonNextToken N buf
  let (val, s) ← jsonParseValue N (buf.length + 1) s
  match s.token with
  | .eof => .ok val
  | _ => .error (.syntaxError "unexpected data at the end")

end Parser

variable {δ : Type} {N : Numbers δ} {c : Char} {p rest w k name : List Char} {u : List UInt16}

section Tokens

/-- What a token stands for in the text: it begins at `ptr`, and `rest` follows. -/
def Spells (N : Numbers δ) (ptr rest : List Char) : Token δ → Prop
  | .eof => ptr = [] ∧ rest = []
  | .char c => ptr = c :: rest
  | .string u => ∃ k, Characters Lexicon.wide k u ∧ ptr = '"' :: k ++ '"' :: rest
  | .number d => ∃ k, WideNumeral k ∧ ptr = k ++ rest ∧ k ≠ [] ∧
      (startsExponent rest = false → d = scanned N k)
  | .ident name => ptr = name ++ rest ∧ name ≠ []

def JSParseState.Sound (N : Numbers δ) (s : JSParseState δ) : Prop :=
  Spells N s.ptr s.bufPtr s.token

variable {s t : JSParseState δ} {token : Token δ}

theorem Token.isChar_iff : token.isChar c = true ↔ token = .char c := by
  cases token with
  | char d => simp [Token.isChar]
  | eof => simp [Token.isChar]
  | string u => simp [Token.isChar]
  | number d => simp [Token.isChar]
  | ident name => simp [Token.isChar]

theorem scanToken_sound (h : scanToken N c p = .ok (token, rest)) : Spells N (c :: p) rest token := by
  rw [scanToken] at h
  split at h
  · subst c
    obtain ⟨⟨u, r⟩, hstring, h⟩ := bind_eq_ok h
    obtain ⟨rfl, rfl⟩ := Prod.mk.inj (Except.ok.inj h)
    obtain ⟨k, hk, rfl⟩ := jsParseString_sound hstring
    exact ⟨k, hk, rfl⟩
  split at h
  · obtain ⟨rfl, rfl⟩ := Prod.mk.inj (Except.ok.inj h)
    refine ⟨?_, List.cons_ne_nil _ _⟩
    rw [List.cons_append, List.takeWhile_append_dropWhile]
  split at h
  · rename_i hnumber
    obtain ⟨rfl, rfl⟩ := Prod.mk.inj (Except.ok.inj h)
    obtain ⟨k, hk, heq, hne, hvalue⟩ := jsAtof_sound hnumber rfl
    exact ⟨k, hk, heq, hne, hvalue⟩
  split at h
  · cases h
  · obtain ⟨rfl, rfl⟩ := Prod.mk.inj (Except.ok.inj h)
    exact rfl

/-- The token behind white space. -/
theorem jsonNextToken_sound (h : jsonNextToken N p = .ok s) : s.Sound N ∧ ∃ w, White w ∧ p = w ++ s.ptr := by
  induction p with
  | nil =>
    obtain rfl := Except.ok.inj h
    exact ⟨⟨rfl, rfl⟩, [], nofun, rfl⟩
  | cons c p ih =>
    rw [jsonNextToken] at h
    split at h
    · rename_i hc
      obtain ⟨hs, w, hw, rfl⟩ := ih h
      exact ⟨hs, c :: w, List.forall_mem_cons.mpr ⟨hc, hw⟩, rfl⟩
    · obtain ⟨⟨token, r⟩, hscan, h⟩ := bind_eq_ok h
      obtain rfl := Except.ok.inj h
      exact ⟨scanToken_sound hscan, [], nofun, rfl⟩

theorem jsonNextToken_ne_outOfSteps : jsonNextToken N p ≠ .error .outOfSteps := by
  induction p with
  | nil => exact nofun
  | cons c p ih =>
    rw [jsonNextToken]
    split
    · exact ih
    · refine bind_ne_error ?_ fun _ _ => nofun
      rw [scanToken]
      split
      · exact bind_ne_error jsParseString_ne_outOfSteps fun _ _ => nofun
      split
      · exact nofun
      split
      · exact nofun
      split
      · exact nofun
      · exact nofun

theorem jsonNextToken_white (hw : White w) : jsonNextToken N (w ++ p) = jsonNextToken N p := by
  induction w with
  | nil => rfl
  | cons c w ih =>
    obtain ⟨hc, hw⟩ := List.forall_mem_cons.mp hw
    rw [List.cons_append, jsonNextToken, if_pos hc, ih hw]

def Token.isIdent : Token δ → Bool
  | .ident _ => true
  | _ => false

/-- An `e` begins a name. -/
theorem startsExponent_of_token (h : jsonNextToken N p = .ok s) (hs : s.token.isIdent = false) :
    startsExponent p = false := by
  by_contra hp
  rw [Bool.not_eq_false] at hp
  cases p with
  | nil => cases hp
  | cons c p =>
    have hc : c = 'e' ∨ c = 'E' := by simpa [startsExponent] using hp
    obtain rfl | rfl := hc
    all_goals
      obtain rfl := Except.ok.inj h
      cases hs

/-- The tokens of one character. -/
theorem jsonNextToken_char (hc : c ∈ ['{', '}', '[', ']', ':', ',']) :
    jsonNextToken N (c :: p) = .ok ⟨.char c, c :: p, p⟩ := by
  simp only [List.mem_cons, List.not_mem_nil, or_false] at hc
  rcases hc with rfl | rfl | rfl | rfl | rfl | rfl
  all_goals rfl

theorem jsonNextToken_string (hk : Characters Lexicon.wide k u) : jsonNextToken N ('"' :: k ++ '"' :: rest) =
      .ok ⟨.string u, '"' :: k ++ '"' :: rest, rest⟩ := by
  rw [List.cons_append, jsonNextToken, scanToken, jsParseString_complete hk]
  rfl

theorem isAlpha_of_isDigit (hc : c.isDigit) : c.isAlpha = false := by
  rw [Char.isDigit, Bool.and_eq_true, decide_eq_true_iff, decide_eq_true_iff] at hc
  have hle : c.val.toNat ≤ 57 := UInt32.le_iff_toNat_le.mp hc.2
  have hupper : ¬ c.val ≥ 'A'.val := by
    intro h
    have h : 65 ≤ c.val.toNat := UInt32.le_iff_toNat_le.mp h
    omega
  have hlower : ¬ c.val ≥ 'a'.val := by
    intro h
    have h : 97 ≤ c.val.toNat := UInt32.le_iff_toNat_le.mp h
    omega
  rw [Char.isAlpha, Char.isUpper, Char.isLower, decide_eq_false fun h => hupper h.1, decide_eq_false hlower]
  rfl

theorem jsonNextToken_number (hk : WideNumeral k) (hrest : Delimited rest) :
    jsonNextToken N (k ++ rest) = .ok ⟨.number (scanned N k), k ++ rest, rest⟩ := by
  obtain ⟨c, p, heq, hstart, hvalue⟩ := jsAtof_complete (N := N) hk hrest
  have hc : c = '-' ∨ c.isDigit = true := by
    obtain ⟨h, _⟩ | ⟨h, _⟩ := startsNumber_cases hstart
    · exact .inl h
    · exact .inr h
  have hne : ∀ d : Char, d ≠ '-' → d.isDigit = false → c ≠ d := by
    rintro d hd hdigit rfl
    rw [hdigit] at hc
    simp [hd] at hc
  have hwhite : ¬ IsWhite c := by
    rintro (h | h | h | h)
    all_goals exact hne _ (by decide) (by decide) h
  have hid : isIdStart c = false := by
    rw [isIdStart, decide_eq_false (hne '_' (by decide) rfl),
      decide_eq_false (hne '$' (by decide) rfl), Bool.or_false, Bool.or_false]
    obtain rfl | hdigit := hc
    · rfl
    · exact isAlpha_of_isDigit hdigit
  rw [heq, jsonNextToken, if_neg hwhite, scanToken, if_neg (hne _ (by decide) (by decide)), hid,
    if_pos hstart, hvalue]
  rfl

theorem jsonNextToken_ident (hc : isIdStart c) (hname : name.all isIdContinue)
    (hwhite : ¬ IsWhite c) (hquote : c ≠ '"') (hrest : Delimited rest) :
    jsonNextToken N (c :: name ++ rest) = .ok ⟨.ident (c :: name), c :: name ++ rest, rest⟩ := by
  obtain ⟨htake, hdrop⟩ := takeWhile_of_stop (List.all_eq_true.mp hname) (hrest.head?_any (by decide))
  rw [List.cons_append, jsonNextToken, if_neg hwhite, scanToken, if_neg hquote, if_pos hc, htake, hdrop]
  rfl

end Tokens

section Soundness

variable {α β : Type} {s t : JSParseState δ} {a : α} {v : Tree δ} {n : ℕ}

/-- A parser of a phrase: what it takes of the text derives the phrase, once it is known that no
name follows. -/
def Takes (N : Numbers δ) (phrase : α → Phrase δ)
    (parse : JSParseState δ → Except Failure (α × JSParseState δ)) : Prop :=
  ∀ s a t, s.Sound N → parse s = .ok (a, t) → t.Sound N ∧ ∃ x, s.ptr = x ++ t.ptr ∧ x ≠ [] ∧
    (t.token.isIdent = false → Derives Lexicon.wide (scanned N) (phrase a) x)

theorem White.append {w w' : List Char} (h : White w) (h' : White w') : White (w ++ w') :=
  List.forall_mem_append.mpr ⟨h, h'⟩

section White

variable {L : Lexicon} {denoted : List Char → δ} {x : List Char} {vs : List (Tree δ)}
  {m : List UInt16 × Tree δ} {ps : List (List UInt16 × Tree δ)}

theorem Derives.white_element (hw : White w) (h : Derives L denoted (.element v) x) :
    Derives L denoted (.element v) (w ++ x) := by
  cases h with
  | @element w0 s w' _ hw0 hs hw' =>
    have hx := Derives.element (hw.append hw0) hs hw'
    simpa only [List.append_assoc] using hx

theorem Derives.white_elements (hw : White w) (h : Derives L denoted (.elements vs) x) :
    Derives L denoted (.elements vs) (w ++ x) := by
  cases h with
  | lastElement h => exact .lastElement (h.white_element hw)
  | elements h hs =>
    rw [← List.append_assoc]
    exact .elements (h.white_element hw) hs

theorem Derives.white_member (hw : White w) (h : Derives L denoted (.member m) x) :
    Derives L denoted (.member m) (w ++ x) := by
  cases h with
  | member hw0 hk hw' hv =>
    have hx := Derives.member (hw.append hw0) hk hw' hv
    simpa only [List.append_assoc] using hx

theorem Derives.white_members (hw : White w) (h : Derives L denoted (.members ps) x) :
    Derives L denoted (.members ps) (w ++ x) := by
  cases h with
  | lastMember h => exact .lastMember (h.white_member hw)
  | members h hs =>
    rw [← List.append_assoc]
    exact .members (h.white_member hw) hs

end White

/-- A token of one character. -/
theorem JSParseState.Sound.char (hs : s.Sound N) (hc : s.token.isChar c) : s.ptr = c :: s.bufPtr := by
  rw [JSParseState.Sound, Token.isChar_iff.mp hc] at hs
  exact hs

theorem isIdent_of_isChar (hc : s.token.isChar c) : s.token.isIdent = false := by
  rw [Token.isChar_iff.mp hc]
  rfl

theorem jsonParseExpect_sound (hs : s.Sound N) (h : jsonParseExpect N s c = .ok t) :
    s.token.isChar c ∧ t.Sound N ∧ ∃ w, White w ∧ s.ptr = c :: w ++ t.ptr := by
  rw [jsonParseExpect] at h
  split at h
  · rename_i hc
    obtain ⟨ht, w, hw, hp⟩ := jsonNextToken_sound h
    refine ⟨hc, ht, w, hw, ?_⟩
    rw [hs.char hc, hp]
    rfl
  · cases h

/-- What a round does that goes on. -/
theorem itemRound_eq_inl {item : JSParseState δ → Except Failure (α × JSParseState δ)}
    {define : β → α → β} {b b' : β} (h : itemRound N item define (s, b) = .ok (.inl (t, b'))) :
    ∃ a r, item s = .ok (a, r) ∧ r.token.isChar ',' ∧ jsonNextToken N r.bufPtr = .ok t ∧ b' = define b a := by
  obtain ⟨⟨a, r⟩, hparse, h⟩ := bind_eq_ok h
  dsimp only at h
  split at h
  · rename_i hcomma
    obtain ⟨r', hnext, h⟩ := bind_eq_ok h
    obtain ⟨rfl, rfl⟩ := Prod.mk.inj (Sum.inl.inj (Except.ok.inj h))
    exact ⟨a, r, hparse, hcomma, hnext, rfl⟩
  · cases h

/-- And what the last round does. -/
theorem itemRound_eq_inr {item : JSParseState δ → Except Failure (α × JSParseState δ)}
    {define : β → α → β} {b b' : β} (h : itemRound N item define (s, b) = .ok (.inr (t, b'))) :
    ∃ a, item s = .ok (a, t) ∧ b' = define b a := by
  obtain ⟨⟨a, r⟩, hparse, h⟩ := bind_eq_ok h
  dsimp only at h
  split at h
  · obtain ⟨r', _, h⟩ := bind_eq_ok h
    cases h
  · obtain ⟨rfl, rfl⟩ := Prod.mk.inj (Sum.inr.inj (Except.ok.inj h))
    exact ⟨a, hparse, rfl⟩

/-- The items of a list: there are none, or there are commas between them. -/
theorem jsonParseItems_sound {one : α → Phrase δ} {many : List α → Phrase δ}
    {item : JSParseState δ → Except Failure (α × JSParseState δ)} {define : β → α → β} {b b' : β}
    (hlast : ∀ {a x}, Derives Lexicon.wide (scanned N) (one a) x →
      Derives Lexicon.wide (scanned N) (many [a]) x)
    (hcons : ∀ {a as x y}, Derives Lexicon.wide (scanned N) (one a) x →
      Derives Lexicon.wide (scanned N) (many as) y →
      Derives Lexicon.wide (scanned N) (many (a :: as)) (x ++ ',' :: y))
    (hwhite : ∀ {w as x}, White w → Derives Lexicon.wide (scanned N) (many as) x →
      Derives Lexicon.wide (scanned N) (many as) (w ++ x))
    (hitem : Takes N one item) (hs : s.Sound N)
    (h : jsonParseItems N item define c n s b = .ok (t, b')) :
    (t = s ∧ b' = b) ∨ t.Sound N ∧ ∃ as x, b' = as.foldl define b ∧ s.ptr = x ++ t.ptr ∧
      (t.token.isIdent = false → Derives Lexicon.wide (scanned N) (many as) x) := by
  rw [jsonParseItems] at h
  split at h
  · obtain ⟨rfl, rfl⟩ := Prod.mk.inj (Except.ok.inj h)
    exact .inl ⟨rfl, rfl⟩
  right
  refine loop_rule (P := fun s => s.1.Sound N) (Q := fun s t => t.1.Sound N ∧ ∃ as x,
    t.2 = as.foldl define s.2 ∧ s.1.ptr = x ++ t.1.ptr ∧
      (t.1.token.isIdent = false → Derives Lexicon.wide (scanned N) (many as) x)) ?_ ?_ hs h
  · rintro ⟨s, b⟩ ⟨s', b'⟩ ⟨t, c⟩ hs hround
    obtain ⟨a, r, hparse, hcomma, hnext, rfl⟩ := itemRound_eq_inl hround
    obtain ⟨hr, x, hx, _, hderives⟩ := hitem s a r hs hparse
    obtain ⟨hs', w, hw, hbuf⟩ := jsonNextToken_sound hnext
    refine ⟨hs', ?_⟩
    rintro ⟨ht, as, y, hfold, hy, hmany⟩
    have hy : s'.ptr = y ++ t.ptr := hy
    refine ⟨ht, a :: as, x ++ ',' :: (w ++ y), hfold, ?_, ?_⟩
    · simp only [hx, hr.char hcomma, hbuf, hy, List.append_assoc, List.cons_append]
    · exact fun hident => hcons (hderives (isIdent_of_isChar hcomma)) (hwhite hw (hmany hident))
  · rintro ⟨s, b⟩ ⟨t, c⟩ hs hround
    obtain ⟨a, hparse, rfl⟩ := itemRound_eq_inr hround
    obtain ⟨ht, x, hx, _, hderives⟩ := hitem s a t hs hparse
    exact ⟨ht, [a], x, rfl, hx, fun hident => hlast (hderives hident)⟩

theorem jsonParseMember_sound {value : JSParseState δ → Except Failure (Tree δ × JSParseState δ)}
    (hvalue : Takes N .element value) : Takes N .member (jsonParseMember N value) := by
  intro s m t hs h
  rw [jsonParseMember] at h
  split at h
  · rename_i name htoken
    obtain ⟨s1, hnext, h⟩ := bind_eq_ok h
    obtain ⟨s2, hcolon, h⟩ := bind_eq_ok h
    obtain ⟨⟨v, s3⟩, hv, h⟩ := bind_eq_ok h
    obtain ⟨rfl, rfl⟩ := Prod.mk.inj (Except.ok.inj h)
    rw [JSParseState.Sound, htoken] at hs
    obtain ⟨k, hk, hptr⟩ := hs
    obtain ⟨hs1, w, hw, hbuf⟩ := jsonNextToken_sound hnext
    obtain ⟨_, hs2, w', hw', hptr1⟩ := jsonParseExpect_sound hs1 hcolon
    obtain ⟨hs3, x, hx, _, hderives⟩ := hvalue s2 v s3 hs2 hv
    refine ⟨hs3, [] ++ '"' :: k ++ '"' :: w ++ ':' :: (w' ++ x), ?_, nofun, fun hident => ?_⟩
    · simp only [hptr, hbuf, hptr1, hx, List.append_assoc, List.cons_append, List.nil_append]
    · exact .member nofun hk hw ((hderives hident).white_element hw')
  · cases h

/-- A value of one token, with the white space behind it. -/
theorem Takes.ofToken {x : List Char} (hptr : s.ptr = x ++ s.bufPtr) (hx : x ≠ [])
    (hnext : jsonNextToken N s.bufPtr = .ok t)
    (hv : t.token.isIdent = false → Derives Lexicon.wide (scanned N) (.value v) x) :
    t.Sound N ∧ ∃ x, s.ptr = x ++ t.ptr ∧ x ≠ [] ∧
      (t.token.isIdent = false → Derives Lexicon.wide (scanned N) (.element v) x) := by
  obtain ⟨ht, w, hw, hbuf⟩ := jsonNextToken_sound hnext
  refine ⟨ht, x ++ w, ?_, List.append_ne_nil_of_left_ne_nil hx w, fun hident => ?_⟩
  · rw [hptr, hbuf, List.append_assoc]
  · exact .element (w := []) nofun (hv hident) hw

/-- An array or an object: `t` is behind the opening bracket, `r` at the closing one. -/
theorem Takes.ofBrackets {o : Char} {r : JSParseState δ} {w' : List Char}
    (hs : s.Sound N) (ho : s.token.isChar o) (hbuf : s.bufPtr = w' ++ r.ptr) (hr : r.Sound N)
    (hclose : jsonParseExpect N r c = .ok t)
    (hv : r.token.isIdent = false → Derives Lexicon.wide (scanned N) (.value v) (o :: w' ++ [c])) :
    t.Sound N ∧ ∃ x, s.ptr = x ++ t.ptr ∧ x ≠ [] ∧
      (t.token.isIdent = false → Derives Lexicon.wide (scanned N) (.element v) x) := by
  obtain ⟨hc, ht, w, hw, hptr⟩ := jsonParseExpect_sound hr hclose
  refine ⟨ht, o :: w' ++ [c] ++ w, ?_, List.cons_ne_nil _ _, fun _ => ?_⟩
  · simp only [hs.char ho, hbuf, hptr, List.append_assoc, List.cons_append, List.nil_append]
  · exact .element (w := []) nofun (hv (isIdent_of_isChar hc)) hw

theorem foldl_append {l vs : List (Tree δ)} : vs.foldl (fun l v => l ++ [v]) l = l ++ vs := by
  induction vs generalizing l with
  | nil => exact (List.append_nil l).symm
  | cons v vs ih =>
    rw [List.foldl_cons, ih, List.append_assoc]
    rfl

theorem jsonParseValue_sound (n : ℕ) : Takes N .element (jsonParseValue N n) := by
  induction n with
  | zero => exact fun s v t _ h => nomatch h
  | succ n ih =>
    intro s v t hs h
    rw [jsonParseValue] at h
    split at h
    · rename_i c htoken
      have hc : s.token.isChar c := Token.isChar_iff.mpr htoken
      split at h
      · subst c
        obtain ⟨r, hnext, h⟩ := bind_eq_ok h
        obtain ⟨hr, w, hw, hbuf⟩ := jsonNextToken_sound hnext
        obtain ⟨⟨q, props⟩, hitems, h⟩ := bind_eq_ok h
        obtain ⟨t', hclose, h⟩ := bind_eq_ok h
        obtain ⟨rfl, rfl⟩ := Prod.mk.inj (Except.ok.inj h)
        obtain ⟨rfl, rfl⟩ | ⟨hq, ms, x, rfl, hx, hmembers⟩ := jsonParseItems_sound .lastMember
          .members Derives.white_members (jsonParseMember_sound ih) hr hitems
        · exact Takes.ofBrackets hs hc hbuf hr hclose fun _ => .emptyObject hw
        · rw [hx, ← List.append_assoc] at hbuf
          exact Takes.ofBrackets hs hc hbuf hq hclose fun hident =>
            .object ((hmembers hident).white_members hw)
      split at h
      · subst c
        obtain ⟨r, hnext, h⟩ := bind_eq_ok h
        obtain ⟨hr, w, hw, hbuf⟩ := jsonNextToken_sound hnext
        obtain ⟨⟨q, items⟩, hitems, h⟩ := bind_eq_ok h
        obtain ⟨t', hclose, h⟩ := bind_eq_ok h
        obtain ⟨rfl, rfl⟩ := Prod.mk.inj (Except.ok.inj h)
        obtain ⟨rfl, rfl⟩ | ⟨hq, vs, x, rfl, hx, helements⟩ := jsonParseItems_sound .lastElement
          .elements Derives.white_elements ih hr hitems
        · exact Takes.ofBrackets hs hc hbuf hr hclose fun _ => .emptyArray hw
        · rw [hx, ← List.append_assoc] at hbuf
          refine Takes.ofBrackets hs hc hbuf hq hclose fun hident => ?_
          rw [foldl_append]
          exact .array ((helements hident).white_elements hw)
      · cases h
    · rename_i u htoken
      obtain ⟨t', hnext, h⟩ := bind_eq_ok h
      obtain ⟨rfl, rfl⟩ := Prod.mk.inj (Except.ok.inj h)
      rw [JSParseState.Sound, htoken] at hs
      obtain ⟨k, hk, hptr⟩ := hs
      refine Takes.ofToken (x := '"' :: k ++ ['"']) ?_ (List.cons_ne_nil _ _) hnext
        fun _ => .string hk
      simp only [hptr, List.append_assoc, List.cons_append, List.nil_append]
    · rename_i d htoken
      obtain ⟨t', hnext, h⟩ := bind_eq_ok h
      obtain ⟨rfl, rfl⟩ := Prod.mk.inj (Except.ok.inj h)
      rw [JSParseState.Sound, htoken] at hs
      obtain ⟨k, hk, hptr, hne, hvalue⟩ := hs
      refine Takes.ofToken hptr hne hnext fun hident => ?_
      rw [hvalue (startsExponent_of_token hnext hident)]
      exact .number hk
    · rename_i name htoken
      rw [JSParseState.Sound, htoken] at hs
      obtain ⟨hptr, hne⟩ := hs
      split at h
      · rename_i hname
        obtain ⟨t', hnext, h⟩ := bind_eq_ok h
        obtain ⟨rfl, rfl⟩ := Prod.mk.inj (Except.ok.inj h)
        refine Takes.ofToken hptr hne hnext fun _ => ?_
        obtain rfl | rfl := hname
        · exact .false
        · exact .true
      split at h
      · obtain ⟨t', hnext, h⟩ := bind_eq_ok h
        obtain ⟨rfl, rfl⟩ := Prod.mk.inj (Except.ok.inj h)
        subst name
        exact Takes.ofToken hptr hne hnext fun _ => .null
      · cases h
    · cases h

/-- An accepted text is derived. -/
theorem jsParseJSON_sound {text : List Char} (h : jsParseJSON N text = .ok v) :
    Derives Lexicon.wide (scanned N) (.element v) text := by
  obtain ⟨s, hnext, h⟩ := bind_eq_ok h
  obtain ⟨⟨v', t⟩, hparse, h⟩ := bind_eq_ok h
  dsimp only at h
  split at h
  · rename_i heof
    obtain rfl := Except.ok.inj h
    obtain ⟨hs, w, hw, rfl⟩ := jsonNextToken_sound hnext
    obtain ⟨ht, x, hx, _, hderives⟩ := jsonParseValue_sound _ s v' t hs hparse
    rw [JSParseState.Sound, heof] at ht
    rw [ht.1, List.append_nil] at hx
    rw [hx]
    have hident : t.token.isIdent = false := by
      rw [heof]
      rfl
    exact (hderives hident).white_element hw
  · cases h

end Soundness

section Termination

variable {α β : Type} {s t : JSParseState δ} {n : ℕ}

theorem jsonParseExpect_ne_outOfSteps : jsonParseExpect N s c ≠ .error .outOfSteps := by
  rw [jsonParseExpect]
  split
  · exact jsonNextToken_ne_outOfSteps
  · exact nofun

theorem jsonParseItems_ne_outOfSteps {one : α → Phrase δ}
    {item : JSParseState δ → Except Failure (α × JSParseState δ)} {define : β → α → β} {b : β}
    (htakes : Takes N one item)
    (hitem : ∀ s, s.Sound N → s.ptr.length < n → item s ≠ .error .outOfSteps)
    (hs : s.Sound N) (hn : s.ptr.length < n) :
    jsonParseItems N item define c n s b ≠ .error .outOfSteps := by
  rw [jsonParseItems]
  split
  · exact nofun
  refine loop_ne_outOfSteps (P := fun s => s.1.Sound N) (fun s => s.1.ptr.length) ?_ ?_ hs hn
  · intro s hs hn
    refine bind_ne_error (hitem s.1 hs hn) fun r _ => ?_
    dsimp only
    split
    · exact bind_ne_error jsonNextToken_ne_outOfSteps fun _ _ => nofun
    · exact nofun
  · rintro ⟨s, b⟩ ⟨t, b'⟩ hs hround
    obtain ⟨a, r, hparse, hcomma, hnext, rfl⟩ := itemRound_eq_inl hround
    obtain ⟨hr, x, hx, _, _⟩ := htakes s a r hs hparse
    obtain ⟨ht, w, _, hbuf⟩ := jsonNextToken_sound hnext
    refine ⟨ht, ?_⟩
    simp only [hx, hr.char hcomma, hbuf, List.length_append, List.length_cons]
    omega

/-- With as many rounds as there is text, the parser comes to an end. -/
theorem jsonParseValue_ne_outOfSteps (hs : s.Sound N) (hn : s.ptr.length < n) :
    jsonParseValue N n s ≠ .error .outOfSteps := by
  induction n generalizing s with
  | zero => exact absurd hn (Nat.not_lt_zero _)
  | succ n ih =>
    -- behind an opening bracket there is less text
    have hinner : ∀ {o t}, s.token.isChar o → jsonNextToken N s.bufPtr = .ok t →
        t.Sound N ∧ t.ptr.length < n := by
      intro o t ho hnext
      obtain ⟨ht, w, _, hbuf⟩ := jsonNextToken_sound hnext
      refine ⟨ht, ?_⟩
      simp only [hs.char ho, hbuf, List.length_append, List.length_cons] at hn
      omega
    have hmember : ∀ s : JSParseState δ, s.Sound N → s.ptr.length < n →
        jsonParseMember N (jsonParseValue N n) s ≠ .error .outOfSteps := by
      intro s hs hn
      rw [jsonParseMember]
      split
      · rename_i name htoken
        refine bind_ne_error jsonNextToken_ne_outOfSteps fun s1 hnext => ?_
        refine bind_ne_error jsonParseExpect_ne_outOfSteps fun s2 hcolon => ?_
        obtain ⟨hs1, w, _, hbuf⟩ := jsonNextToken_sound hnext
        obtain ⟨_, hs2, w', _, hptr1⟩ := jsonParseExpect_sound hs1 hcolon
        rw [JSParseState.Sound, htoken] at hs
        obtain ⟨k, _, hptr⟩ := hs
        simp only [hptr, hbuf, hptr1, List.length_append, List.length_cons] at hn
        exact bind_ne_error (ih hs2 (by omega)) fun _ _ => nofun
      · exact nofun
    rw [jsonParseValue]
    split
    · rename_i c htoken
      have hc : s.token.isChar c := Token.isChar_iff.mpr htoken
      split
      · refine bind_ne_error jsonNextToken_ne_outOfSteps fun t hnext => ?_
        obtain ⟨ht, hlt⟩ := hinner hc hnext
        refine bind_ne_error (jsonParseItems_ne_outOfSteps
          (jsonParseMember_sound (jsonParseValue_sound n)) hmember ht hlt) fun _ _ => ?_
        exact bind_ne_error jsonParseExpect_ne_outOfSteps fun _ _ => nofun
      split
      · refine bind_ne_error jsonNextToken_ne_outOfSteps fun t hnext => ?_
        obtain ⟨ht, hlt⟩ := hinner hc hnext
        refine bind_ne_error (jsonParseItems_ne_outOfSteps
          (jsonParseValue_sound n) (fun s hs hn => ih hs hn) ht hlt) fun _ _ => ?_
        exact bind_ne_error jsonParseExpect_ne_outOfSteps fun _ _ => nofun
      · exact nofun
    · exact bind_ne_error jsonNextToken_ne_outOfSteps fun _ _ => nofun
    · exact bind_ne_error jsonNextToken_ne_outOfSteps fun _ _ => nofun
    · split
      · exact bind_ne_error jsonNextToken_ne_outOfSteps fun _ _ => nofun
      split
      · exact bind_ne_error jsonNextToken_ne_outOfSteps fun _ _ => nofun
      · exact nofun
    · exact nofun

theorem jsParseJSON_ne_outOfSteps {text : List Char} : jsParseJSON N text ≠ .error .outOfSteps := by
  refine bind_ne_error jsonNextToken_ne_outOfSteps fun s hnext => ?_
  obtain ⟨hs, w, _, rfl⟩ := jsonNextToken_sound hnext
  have hlt : s.ptr.length < (w ++ s.ptr).length + 1 := by
    rw [List.length_append]
    omega
  refine bind_ne_error (jsonParseValue_ne_outOfSteps hs hlt) fun r _ => ?_
  dsimp only
  split
  · exact nofun
  · exact nofun

end Termination

end QuickJs.Json
