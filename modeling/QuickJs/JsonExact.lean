import QuickJs.JsonParse

/-!
# `JSON.parse` against the standard

Every text over the wide lexicon is accepted, so that the parser accepts these texts and no others.
It is exact on the texts that use no more than the standard allows.
-/

namespace QuickJs.Json

open Rounds

variable {δ : Type} {N : Numbers δ} {c : Char} {p rest w k name : List Char} {u : List UInt16}

variable {phrase : Phrase δ}

variable {ptr : List Char} {item : JSParseState δ → Except Failure (α × JSParseState δ)}
  {define : β → α → β} {b : β}

section Completeness

variable {α β : Type} {s t : JSParseState δ} {a : α} {as : List α} {x y : List Char} {n : ℕ}

/-- A parser reads a text: it stops at the token behind it. -/
def Reads (N : Numbers δ) (parse : ℕ → JSParseState δ → Except Failure (α × JSParseState δ))
    (a : α) (x : List Char) : Prop :=
  ∀ n rest t, Delimited rest → jsonNextToken N rest = .ok t → (x ++ rest).length < n →
    ∃ s, jsonNextToken N (x ++ rest) = .ok s ∧ parse n s = .ok (a, t)

/-- The loop reads the items up to the closing bracket. -/
def ReadsAll (N : Numbers δ) (parse : ℕ → JSParseState δ → Except Failure (α × JSParseState δ))
    (close : Char) (as : List α) (x : List Char) : Prop :=
  ∀ n m rest, (x ++ close :: rest).length < n → (x ++ close :: rest).length < m →
    ∃ s, jsonNextToken N (x ++ close :: rest) = .ok s ∧ s.token.isChar close = false ∧
      ∀ {β : Type} (define : β → α → β) (b : β),
        loop (itemRound N (parse m) define) .outOfSteps n (s, b) =
          .ok (⟨.char close, close :: rest, rest⟩, as.foldl define b)

theorem delimited_cons (hc : c ∈ [',', ']', '}']) : Delimited (c :: rest) := by
  intro d hd
  obtain rfl := Option.some.inj hd
  simp only [List.mem_cons, List.not_mem_nil, or_false] at hc
  exact .inr hc

theorem delimited_white (hw : White w) (hrest : Delimited rest) : Delimited (w ++ rest) := by
  cases w with
  | nil => exact hrest
  | cons c w =>
    intro d hd
    obtain rfl := Option.some.inj hd
    exact .inl (hw c List.mem_cons_self)

variable {parse : ℕ → JSParseState δ → Except Failure (α × JSParseState δ)} {close : Char}

theorem Reads.last (hclose : close ∈ [']', '}'])
    (hfirst : ∀ {n s r}, parse n s = .ok r → s.token.isChar close = false)
    (h : Reads N parse a x) : ReadsAll N parse close [a] x := by
  intro n m rest hn hm
  have hmem : close ∈ [',', ']', '}'] := List.mem_cons_of_mem _ hclose
  have hnext : jsonNextToken N (close :: rest) = .ok ⟨.char close, close :: rest, rest⟩ := by
    apply jsonNextToken_char
    simp only [List.mem_cons] at hclose ⊢
    tauto
  obtain ⟨s, hs, hparse⟩ := h m _ _ (delimited_cons hmem) hnext hm
  refine ⟨s, hs, hfirst hparse, ?_⟩
  intro β define b
  cases n with
  | zero => exact absurd hn (Nat.not_lt_zero _)
  | succ n =>
    apply loop_inr
    have hcomma : (Token.char close : Token δ).isChar ',' = false := by
      simp only [List.mem_cons, List.not_mem_nil, or_false] at hclose
      rcases hclose with rfl | rfl
      · rfl
      · rfl
    rw [itemRound, hparse]
    simp [hcomma, bind, Except.bind]

theorem Reads.cons (hfirst : ∀ {n s r}, parse n s = .ok r → s.token.isChar close = false)
    (h : Reads N parse a x) (hs : ReadsAll N parse close as y) :
    ReadsAll N parse close (a :: as) (x ++ ',' :: y) := by
  intro n m rest hn hm
  rw [List.append_assoc] at hn hm ⊢
  have hnext : jsonNextToken N (',' :: (y ++ close :: rest)) =
      .ok ⟨.char ',', ',' :: (y ++ close :: rest), y ++ close :: rest⟩ :=
    jsonNextToken_char (by decide)
  obtain ⟨s, hs0, hparse⟩ := h m _ _ (delimited_cons (by decide)) hnext hm
  refine ⟨s, hs0, hfirst hparse, ?_⟩
  intro β define b
  cases n with
  | zero => exact absurd hn (Nat.not_lt_zero _)
  | succ n =>
    simp only [List.length_append, List.length_cons] at hn hm
    obtain ⟨s', hs', _, hloop⟩ := hs n m rest
      (by simp only [List.length_append, List.length_cons]; omega)
      (by simp only [List.length_append, List.length_cons]; omega)
    have hround : itemRound N (parse m) define (s, b) = .ok (.inl (s', define b a)) := by
      rw [itemRound, hparse]
      simp [hs', Token.isChar, bind, Except.bind]
    rw [loop_inl hround, hloop]
    rfl

/-- What the parser does with a text of a phrase. -/
def Phrase.Read (N : Numbers δ) : Phrase δ → List Char → Prop
  | .value v, x => Reads N (jsonParseValue N) v x
  | .element v, x => Reads N (jsonParseValue N) v x
  | .elements vs, x => ReadsAll N (jsonParseValue N) ']' vs x
  | .member m, x => Reads N (fun n => jsonParseMember N (jsonParseValue N n)) m x
  | .members ms, x => ReadsAll N (fun n => jsonParseMember N (jsonParseValue N n)) '}' ms x

theorem jsonParseValue_first {r : Tree δ × JSParseState δ} (h : jsonParseValue N n s = .ok r) :
    s.token.isChar ']' = false := by
  cases n with
  | zero => cases h
  | succ n =>
    by_contra hc
    rw [Bool.not_eq_false, Token.isChar_iff] at hc
    rw [jsonParseValue, hc] at h
    cases h

theorem jsonParseMember_first {r : (List UInt16 × Tree δ) × JSParseState δ}
    {value : JSParseState δ → Except Failure (Tree δ × JSParseState δ)}
    (h : jsonParseMember N value s = .ok r) : s.token.isChar '}' = false := by
  by_contra hc
  rw [Bool.not_eq_false, Token.isChar_iff] at hc
  rw [jsonParseMember, hc] at h
  cases h

theorem jsonParseExpect_char :
    jsonParseExpect N ⟨.char c, ptr, rest⟩ c = jsonNextToken N rest :=
  if_pos (Token.isChar_iff.mpr rfl)

theorem jsonParseItems_close
    :
    jsonParseItems N item define c n ⟨.char c, ptr, rest⟩ b = .ok (⟨.char c, ptr, rest⟩, b) :=
  if_pos (Token.isChar_iff.mpr rfl)

theorem jsonParseItems_loop
    (h : s.token.isChar c = false) :
    jsonParseItems N item define c n s b = loop (itemRound N item define) .outOfSteps n (s, b) :=
  if_neg (Bool.eq_false_iff.mp h)

theorem Reads.bracket {v : Tree δ} {o : Char} (ho : o ∈ ['{', '['])
    (h : ∀ n rest t, (y ++ c :: rest).length < n → jsonNextToken N rest = .ok t →
      jsonParseValue N (n + 1) ⟨.char o, o :: (y ++ c :: rest), y ++ c :: rest⟩ = .ok (v, t)) :
    Reads N (jsonParseValue N) v (o :: y ++ [c]) := by
  intro n rest t _ hnext hn
  simp only [List.append_assoc] at hn ⊢
  have ho : o ∈ ['{', '}', '[', ']', ':', ','] := by
    simp only [List.mem_cons] at ho ⊢
    tauto
  refine ⟨_, jsonNextToken_char ho, ?_⟩
  cases n with
  | zero => exact absurd hn (Nat.not_lt_zero _)
  | succ n => exact h n rest t (Nat.lt_of_succ_lt_succ hn) hnext

theorem jsonNextToken_close (hclose : c ∈ [']', '}']) (hw : White w) :
    jsonNextToken N (w ++ c :: rest) = .ok ⟨.char c, c :: rest, rest⟩ := by
  rw [jsonNextToken_white hw]
  apply jsonNextToken_char
  simp only [List.mem_cons] at hclose ⊢
  tauto

/-- A value of one token. -/
theorem Reads.token {v : Tree δ} (token : Token δ) (hnext : ∀ rest, Delimited rest →
      jsonNextToken N (x ++ rest) = .ok ⟨token, x ++ rest, rest⟩)
    (hparse : ∀ n rest t, jsonNextToken N rest = .ok t →
      jsonParseValue N (n + 1) ⟨token, x ++ rest, rest⟩ = .ok (v, t)) :
    Reads N (jsonParseValue N) v x := by
  intro n rest t hrest ht hn
  refine ⟨_, hnext rest hrest, ?_⟩
  cases n with
  | zero => exact absurd hn (Nat.not_lt_zero _)
  | succ n => exact hparse n rest t ht

/-- The parser reads what is derived. -/
theorem Derives.read (h : Derives Lexicon.wide (scanned N) phrase x) : phrase.Read N x := by
  induction h with
  | null =>
    refine Reads.token (.ident ['n', 'u', 'l', 'l']) (fun rest hrest =>
      jsonNextToken_ident rfl (by decide) (by decide) (by decide) hrest) fun n rest t ht => ?_
    rw [jsonParseValue]
    simp [ht, bind, Except.bind]
  | true =>
    refine Reads.token (.ident ['t', 'r', 'u', 'e']) (fun rest hrest =>
      jsonNextToken_ident rfl (by decide) (by decide) (by decide) hrest) fun n rest t ht => ?_
    rw [jsonParseValue]
    simp [ht, bind, Except.bind]
  | false =>
    refine Reads.token (.ident ['f', 'a', 'l', 's', 'e']) (fun rest hrest =>
      jsonNextToken_ident rfl (by decide) (by decide) (by decide) hrest) fun n rest t ht => ?_
    rw [jsonParseValue]
    simp [ht, bind, Except.bind]
  | @string k u hk =>
    refine Reads.token (.string u) (fun rest _ => ?_) fun n rest t ht => ?_
    · simp only [List.append_assoc]
      exact jsonNextToken_string hk
    · rw [jsonParseValue]
      simp [ht, bind, Except.bind]
  | @number k hk =>
    refine Reads.token (.number (scanned N k)) (fun rest hrest =>
      jsonNextToken_number hk hrest) fun n rest t ht => ?_
    rw [jsonParseValue]
    simp [ht, bind, Except.bind]
  | emptyArray hw =>
    refine Reads.bracket (by decide) fun n rest t _ ht => ?_
    rw [jsonParseValue]
    simp [jsonNextToken_close (c := ']') (by decide) hw, jsonParseItems_close,
      jsonParseExpect_char, ht, bind, Except.bind]
  | @array y vs _ ih =>
    refine Reads.bracket (by decide) fun n rest t hn ht => ?_
    obtain ⟨s, hs, hclose, hloop⟩ := ih n n rest hn hn
    have hitems := hloop (fun l v => l ++ [v]) []
    rw [foldl_append] at hitems
    rw [jsonParseValue]
    simp [hs, jsonParseItems_loop hclose, hitems, jsonParseExpect_char, ht, bind, Except.bind]
  | emptyObject hw =>
    refine Reads.bracket (by decide) fun n rest t _ ht => ?_
    rw [jsonParseValue]
    simp [jsonNextToken_close (c := '}') (by decide) hw, jsonParseItems_close,
      jsonParseExpect_char, ht, bind, Except.bind]
  | @object y ms _ ih =>
    refine Reads.bracket (by decide) fun n rest t hn ht => ?_
    obtain ⟨s, hs, hclose, hloop⟩ := ih n n rest hn hn
    rw [jsonParseValue]
    simp [hs, jsonParseItems_loop hclose, hloop, properties, jsonParseExpect_char, ht, bind, Except.bind]
  | @element w y w' v hw _ hw' ih =>
    intro n rest t hrest ht hn
    have hnext : jsonNextToken N (w' ++ rest) = .ok t := by
      rw [jsonNextToken_white hw', ht]
    simp only [List.append_assoc] at hn ⊢
    rw [jsonNextToken_white hw]
    apply ih n _ t (delimited_white hw' hrest) hnext
    rw [List.length_append] at hn
    omega
  | lastElement _ ih => exact Reads.last (by decide) jsonParseValue_first ih
  | elements _ _ ih ihs => exact Reads.cons jsonParseValue_first ih ihs
  | @member w k w' y name v hw hk hw' _ ih =>
    intro n rest t hrest ht hn
    simp only [List.append_assoc] at hn ⊢
    obtain ⟨s, hs, hparse⟩ := ih n rest t hrest ht (by
      simp only [List.length_append, List.length_cons] at hn ⊢
      omega)
    refine ⟨_, (jsonNextToken_white hw).trans (jsonNextToken_string hk), ?_⟩
    have hcolon : jsonNextToken N (w' ++ ':' :: (y ++ rest)) =
        .ok ⟨.char ':', ':' :: (y ++ rest), y ++ rest⟩ := by
      rw [jsonNextToken_white hw']
      exact jsonNextToken_char (by decide)
    rw [jsonParseMember]
    simp [hcolon, jsonParseExpect_char, hs, hparse, bind, Except.bind]
  | lastMember _ ih => exact Reads.last (by decide) jsonParseMember_first ih
  | members _ _ ih ihs => exact Reads.cons jsonParseMember_first ih ihs

/-- A derived text is accepted, with its value. -/
theorem jsParseJSON_complete {v : Tree δ} (h : Derives Lexicon.wide (scanned N) (.element v) x) :
    jsParseJSON N x = .ok v := by
  have hread : Reads N (jsonParseValue N) v x := h.read
  obtain ⟨s, hs, hparse⟩ := hread (x.length + 1) [] ⟨.eof, [], []⟩ nofun rfl (by simp)
  rw [List.append_nil] at hs
  rw [jsParseJSON, hs]
  simp [hparse, bind, Except.bind]

end Completeness

section Standard

variable {D : Doubles δ} {x : List Char} {v : Tree δ}

/-- The parser accepts the grammar over the wide lexicon. -/
theorem jsParseJSON_eq_ok : jsParseJSON N x = .ok v ↔ Derives Lexicon.wide (scanned N) (.element v) x :=
  ⟨jsParseJSON_sound, jsParseJSON_complete⟩

theorem Numeral.wide {s : List Char} (h : Numeral s) : WideNumeral s := by
  obtain ⟨sign, int, frac, exp, heq, rfl | rfl, hint, hfrac, hexp⟩ := h
  · exact ⟨[], int, frac, exp, heq, .inl ⟨rfl, hint⟩, .inl hfrac, hexp⟩
  · exact ⟨['-'], int, frac, exp, heq, .inr ⟨rfl, hint.1⟩, .inl hfrac, hexp⟩

theorem Characters.wide (h : Characters Lexicon.standard k u) : Characters Lexicon.wide k u := by
  induction h with
  | nil => exact .nil
  | cons hs _ ih => exact .cons (.inl hs) ih

/-- A text of a phrase of the same kind, with a value of its own. -/
def Phrase.Derivable (L : Lexicon) (denoted : List Char → δ) : Phrase δ → List Char → Prop
  | .value _, x => ∃ v, Derives L denoted (.value v) x
  | .element _, x => ∃ v, Derives L denoted (.element v) x
  | .elements _, x => ∃ vs, Derives L denoted (.elements vs) x
  | .member _, x => ∃ m, Derives L denoted (.member m) x
  | .members _, x => ∃ ms, Derives L denoted (.members ms) x

/-- The texts of the standard are among the texts of the wide lexicon, whatever a number denotes. -/
theorem Derives.derivable {denoted denoted' : List Char → δ} (h : Derives Lexicon.standard denoted phrase x) :
    phrase.Derivable Lexicon.wide denoted' x := by
  induction h with
  | null => exact ⟨_, .null⟩
  | true => exact ⟨_, .true⟩
  | false => exact ⟨_, .false⟩
  | string hs => exact ⟨_, .string hs.wide⟩
  | number hs => exact ⟨_, .number (Numeral.wide hs)⟩
  | emptyArray hw => exact ⟨_, .emptyArray hw⟩
  | array _ ih =>
    obtain ⟨vs, h⟩ := ih
    exact ⟨_, .array h⟩
  | emptyObject hw => exact ⟨_, .emptyObject hw⟩
  | object _ ih =>
    obtain ⟨ms, h⟩ := ih
    exact ⟨_, .object h⟩
  | element hw _ hw' ih =>
    obtain ⟨v, h⟩ := ih
    exact ⟨_, .element hw h hw'⟩
  | lastElement _ ih =>
    obtain ⟨v, h⟩ := ih
    exact ⟨_, .lastElement h⟩
  | elements _ _ ih ihs =>
    obtain ⟨v, h⟩ := ih
    obtain ⟨vs, hs⟩ := ihs
    exact ⟨_, .elements h hs⟩
  | member hw hk hw' _ ih =>
    obtain ⟨v, h⟩ := ih
    exact ⟨_, .member hw hk.wide hw' h⟩
  | lastMember _ ih =>
    obtain ⟨m, h⟩ := ih
    exact ⟨_, .lastMember h⟩
  | members _ _ ih ihs =>
    obtain ⟨m, h⟩ := ih
    obtain ⟨ms, hs⟩ := ihs
    exact ⟨_, .members h hs⟩

/-- And with the values of the standard when these are the ones that the scanner gives. -/
theorem Derives.wide {denoted : List Char → δ}
    (h : Derives Lexicon.standard denoted phrase x) : Derives Lexicon.wide denoted phrase x := by
  induction h with
  | null => exact .null
  | true => exact .true
  | false => exact .false
  | string hs => exact .string hs.wide
  | number hs => exact .number (Numeral.wide hs)
  | emptyArray hw => exact .emptyArray hw
  | array _ ih => exact .array ih
  | emptyObject hw => exact .emptyObject hw
  | object _ ih => exact .object ih
  | element hw _ hw' ih => exact .element hw ih hw'
  | lastElement _ ih => exact .lastElement ih
  | elements _ _ ih ihs => exact .elements ih ihs
  | member hw hk hw' _ ih => exact .member hw hk.wide hw' ih
  | lastMember _ ih => exact .lastMember ih
  | members _ _ ih ihs => exact .members ih ihs

/-- A text of the standard has one value: the one that the parser finds when the scanner values the
numbers as the standard does. -/
theorem Derives.value_unique {denoted : List Char → δ} {v' : Tree δ}
    (h : Derives Lexicon.standard denoted (.element v) x)
    (h' : Derives Lexicon.standard denoted (.element v') x) : v = v' := by
  let N : Numbers δ := ⟨fun s _ => denoted s, fun _ => denoted [], denoted []⟩
  have hv : jsParseJSON N x = .ok v := jsParseJSON_complete h.wide
  have hv' : jsParseJSON N x = .ok v' := jsParseJSON_complete h'.wide
  exact Except.ok.inj (hv.symm.trans hv')

/-- `JSON.parse` does on a text what the standard says: it comes to an end, and it succeeds exactly
with the value of the text. A number denotes the double that `strtod` finds for it. -/
def Exact (D : Doubles δ) (text : List Char) : Prop :=
  jsParseJSON D.numbers text ≠ .error .outOfSteps ∧ ∀ v, jsParseJSON D.numbers text = .ok v ↔
      Derives Lexicon.standard D.strtod (.element v) text

/-- The parser is exact on a text if and only if, in case the scanners can make a value of it, they
make it with the escapes and numerals of the standard, and of the numbers what they denote. -/
theorem parseJSON_exact_iff {text : List Char} :
    Exact D text ↔ ∀ v, Derives Lexicon.wide (scanned D.numbers) (.element v) text →
      Derives Lexicon.standard D.strtod (.element v) text := by
  constructor
  · intro h v hv
    exact (h.2 v).mp (jsParseJSON_complete hv)
  · intro h
    refine ⟨jsParseJSON_ne_outOfSteps, fun v => ⟨fun hv => h v (jsParseJSON_sound hv), ?_⟩⟩
    intro hv
    obtain ⟨v', hv'⟩ : (Phrase.element v).Derivable Lexicon.wide (scanned D.numbers) text :=
      hv.derivable
    obtain rfl := hv.value_unique (h v' hv')
    exact jsParseJSON_complete hv'

end Standard

section Point

variable {denoted : List Char → δ} {x y : List Char}

def NoFinalPoint (x : List Char) : Prop := x.getLast? ≠ some '.'

theorem NoFinalPoint.append (hx : NoFinalPoint x) (hy : NoFinalPoint y) : NoFinalPoint (x ++ y) := by
  rw [NoFinalPoint, List.getLast?_append]
  cases hlast : y.getLast? with
  | none => exact hx
  | some c =>
    rw [NoFinalPoint, hlast] at hy
    exact hy

theorem noFinalPoint_of_notMem (h : '.' ∉ x) : NoFinalPoint x :=
  fun hlast => h (List.mem_of_getLast? hlast)

theorem noFinalPoint_digits (h : ∀ c ∈ x, c.isDigit) : NoFinalPoint x := by
  apply noFinalPoint_of_notMem
  intro hc
  cases h '.' hc

theorem noFinalPoint_numeral (h : Numeral x) : NoFinalPoint x := by
  obtain ⟨sign, int, frac, exp, rfl, hsign, hint, hfrac, hexp⟩ := h
  refine .append (.append (.append ?_ (noFinalPoint_digits hint.1.2)) ?_) ?_
  · obtain rfl | rfl := hsign
    · exact nofun
    · exact noFinalPoint_of_notMem (by decide)
  · obtain rfl | ⟨t, rfl, ht⟩ := hfrac
    · exact nofun
    · cases t with
      | nil => exact absurd rfl ht.1
      | cons c t =>
        rw [NoFinalPoint, List.getLast?_cons_cons]
        exact noFinalPoint_digits ht.2
  · obtain rfl | ⟨e, sign, t, rfl, he, hsign, ht⟩ := hexp
    · exact nofun
    · have he : NoFinalPoint [e] := by
        obtain rfl | rfl := he
        · exact noFinalPoint_of_notMem (by decide)
        · exact noFinalPoint_of_notMem (by decide)
      have hsign : NoFinalPoint sign := by
        obtain rfl | rfl | rfl := hsign
        · exact nofun
        · exact noFinalPoint_of_notMem (by decide)
        · exact noFinalPoint_of_notMem (by decide)
      exact (he.append hsign).append (noFinalPoint_digits ht.2)

theorem noFinalPoint_white (h : White w) : NoFinalPoint w := by
  apply noFinalPoint_of_notMem
  intro hc
  exact absurd (h '.' hc) (by decide)

theorem noFinalPoint_concat (hc : c ≠ '.') : NoFinalPoint (x ++ [c]) := by
  rw [NoFinalPoint, List.getLast?_concat]
  exact fun h => hc (Option.some.inj h)

/-- No text of the standard ends with a point. -/
theorem Derives.noFinalPoint (h : Derives Lexicon.standard denoted phrase x) : NoFinalPoint x := by
  have hcomma : ∀ {y}, NoFinalPoint y → NoFinalPoint (',' :: y) :=
    fun hy => .append (x := [',']) (noFinalPoint_of_notMem (by decide)) hy
  induction h with
  | null => exact noFinalPoint_of_notMem (by decide)
  | true => exact noFinalPoint_of_notMem (by decide)
  | false => exact noFinalPoint_of_notMem (by decide)
  | string _ => exact noFinalPoint_concat (by decide)
  | number hs => exact noFinalPoint_numeral hs
  | emptyArray _ => exact noFinalPoint_concat (by decide)
  | array _ _ => exact noFinalPoint_concat (by decide)
  | emptyObject _ => exact noFinalPoint_concat (by decide)
  | object _ _ => exact noFinalPoint_concat (by decide)
  | element hw _ hw' ih => exact ((noFinalPoint_white hw).append ih).append (noFinalPoint_white hw')
  | lastElement _ ih => exact ih
  | elements _ _ ih ihs => exact ih.append (hcomma ihs)
  | @member w k w' s _ _ _ _ _ _ ih =>
    have heq : w ++ '"' :: k ++ '"' :: w' ++ ':' :: s = (w ++ '"' :: k ++ '"' :: w' ++ [':']) ++ s := by
      simp
    rw [heq]
    exact (noFinalPoint_concat (by decide)).append ih
  | lastMember _ ih => exact ih
  | members _ _ ih ihs => exact ih.append (hcomma ihs)

end Point

/-- `1.` is taken for a number. -/
theorem parseJSON_not_exact : ¬ ∀ (δ : Type) (D : Doubles δ) (text : List Char), Exact D text := by
  intro h
  let D : Doubles Unit := ⟨fun _ => (), fun _ _ => (), fun _ => (), fun _ => (), (), ()⟩
  have hexact : Exact D ['1', '.'] := h Unit D ['1', '.']
  have hparse : jsParseJSON D.numbers ['1', '.'] = .ok (.number ()) := rfl
  exact ((hexact.2 _).mp hparse).noFinalPoint rfl

end QuickJs.Json
