import QuickJs.Debugger
import QuickJs.Framing

/-!
# The lines that `ParseCommand` takes

The comment in `ParseCommand` gives a grammar: a break command is the word, the name of a file, a colon and a line. The
name ends for the parser at its first colon, and the line is read by `std::stoi`, which takes white space and a sign
before the digits and anything behind them, and only numbers of 31 bits. What follows the last word of a command is never
looked at, and a variable may have no name.
-/

namespace QuickJs.Debugger

/-! ## The grammar -/

/-- White space, as for `std::isspace`. -/
def isSpace (c : Char) : Bool := c = ' ' || 9 ≤ c.toNat && c.toNat ≤ 13

/-- The name of a file or of a variable. -/
structure IsName (s : Str) : Prop where
  nonempty : s ≠ []
  clean : ∀ c ∈ s, isSpace c = false

/-- A line number, written with digits. -/
structure IsLine (s : Str) : Prop where
  nonempty : s ≠ []
  digit : ∀ c ∈ s, c.isDigit
  lt : Nat.ofDigitChars 10 s 0 < 2 ^ 32

/-- `break:="break" | "b" filename ":" line` -/
def IsBreak (text : Str) : Prop :=
  ∃ word ∈ ["break".toList, "b".toList], ∃ n fileName line, IsName fileName ∧ IsLine line ∧
    text = word ++ List.replicate (n + 1) ' ' ++ fileName ++ ':' :: line

/-- `read:="read" | "r" variableName` -/
def IsRead (text : Str) : Prop :=
  ∃ word ∈ ["read".toList, "r".toList], ∃ n variableName, IsName variableName ∧
    text = word ++ List.replicate (n + 1) ' ' ++ variableName

/-- `command:=break|read|stop|continue` -/
def IsCommand (text : Str) : Prop :=
  IsBreak text ∨ IsRead text ∨ text ∈ ["stop".toList, "s".toList] ∨ text ∈ ["continue".toList, "c".toList]

/-- The break command for a line of a file. -/
def breakText (fileName : Str) (line : ℕ) : Str := "break ".toList ++ fileName ++ ":".toList ++ (toString line).toList

/-- A break command is queued as it is; outside of the grammar nothing is queued. -/
def Meets (text : Str) : Prop :=
  (∀ fileName line, IsName fileName → line < 2 ^ 32 → text = breakText fileName line →
    parseCommand text = .push (.breakLine (.ofNat 32 line) fileName)) ∧
  (¬IsCommand text → ∀ c, parseCommand text ≠ .push c)

/-- The first word asks for something to be queued: it always is for `read` and `continue`; for `break`, the next word has
a colon, and `std::stoi` makes a number other than -1 of what follows the first one. -/
def Taken (text : Str) : Prop :=
  (readWord text).1 ∈ ["read".toList, "r".toList, "continue".toList, "c".toList] ∨
    (readWord text).1 ∈ ["break".toList, "b".toList] ∧ ∃ fileName lineStr n, ':' ∉ fileName ∧
      (readWord (eatSpace (readWord text).2)).1 = fileName ++ ':' :: lineStr ∧ stoi lineStr = some n ∧ n ≠ -1

/-! ## Words -/

variable {s cs : Str} {c : Char} {n : ℕ} {fileName lineStr text : Str}

theorem clean_of_all (h : (s.all fun c => !isSpace c) = true) : ∀ c ∈ s, isSpace c = false := fun c hc =>
  (Bool.not_eq_true' _).mp (List.all_eq_true.mp h c hc)

variable {rest point : Str}

theorem span_append {p : Char → Bool} (h : ∀ c ∈ s, p c = true) (hrest : ∀ c ∈ rest.head?, p c = false) :
    (s ++ rest).span p = (s, rest) := by
  rw [List.span_eq_takeWhile_dropWhile, List.takeWhile_append_of_pos h, List.dropWhile_append_of_pos h]
  cases rest with
  | nil => rw [List.takeWhile_nil, List.dropWhile_nil, List.append_nil]
  | cons c rest =>
    have hc := hrest c rfl
    rw [List.takeWhile_cons_of_neg (by simp [hc]), List.dropWhile_cons_of_neg (by simp [hc]), List.append_nil]

/-- A word ends at a space or at the end of the text. -/
theorem readWord_append (h : ∀ c ∈ s, isSpace c = false) (hrest : ∀ c ∈ rest.head?, c = ' ') :
    readWord (s ++ rest) = (s, rest) := by
  refine span_append (fun c hc => ?_) fun c hc => ?_
  · have hspace := h c hc
    simp only [isSpace, Bool.or_eq_false_iff] at hspace
    have hnl : c ≠ '\n' := by
      rintro rfl
      simp at hspace
    simp [hspace.1, hnl]
  · simp [hrest c hc]

/-! ## Numbers -/

theorem digits_eq (h : ∀ c ∈ cs, c.isDigit) (found : Option ℕ) :
    digits cs n found = if cs = [] then found else some (Nat.ofDigitChars 10 cs n) := by
  induction cs generalizing n found with
  | nil => rfl
  | cons c cs ih =>
    obtain ⟨hc, hcs⟩ := List.forall_mem_cons.mp h
    rw [digits, if_pos hc, ih hcs, if_neg (List.cons_ne_nil _ _), Nat.ofDigitChars_cons]
    split
    · rename_i hnil
      rw [hnil, Nat.ofDigitChars_nil]
    · rfl

theorem toNat_of_isDigit (h : c.isDigit) : 48 ≤ c.toNat ∧ c.toNat ≤ 57 := by
  simp only [Char.isDigit, Bool.and_eq_true, decide_eq_true_eq] at h
  exact ⟨UInt32.le_iff_toNat_le.mp h.1, UInt32.le_iff_toNat_le.mp h.2⟩

theorem ne_of_isDigit {d : Char} (h : c.isDigit) (hd : d.toNat < 48) : c ≠ d := by
  rintro rfl
  exact absurd hd (Nat.not_lt_of_le (toNat_of_isDigit h).1)

/-- Digits are read as their number if it fits. -/
theorem stoi_digits (hne : cs ≠ []) (h : ∀ c ∈ cs, c.isDigit) :
    stoi cs = if Nat.ofDigitChars 10 cs 0 < 2 ^ 31 then some (Nat.ofDigitChars 10 cs 0 : ℤ) else none := by
  obtain ⟨c, rest, rfl⟩ := List.exists_cons_of_ne_nil hne
  have hc := h c List.mem_cons_self
  have hrange := toNat_of_isDigit hc
  have hdrop : (c :: rest).dropWhile (fun c => c = ' ' || 9 ≤ c.toNat && c.toNat ≤ 13) = c :: rest := by
    have hne' : c ≠ ' ' := ne_of_isDigit hc (by decide)
    refine List.dropWhile_cons_of_neg ?_
    simp [hne']
    omega
  rw [stoi, hdrop]
  split
  · rename_i heq
    exact absurd (List.cons.inj heq).1 (ne_of_isDigit hc (by decide))
  · rename_i heq
    exact absurd (List.cons.inj heq).1 (ne_of_isDigit hc (by decide))
  · rw [digits_eq h]
    generalize Nat.ofDigitChars 10 (c :: rest) 0 = n
    refine Option.filter_some.trans ?_
    by_cases hn : n < 2 ^ 31
    · rw [if_pos hn, if_pos]
      simp only [Bool.and_eq_true, decide_eq_true_eq]
      omega
    · rw [if_neg hn, if_neg]
      simp only [Bool.and_eq_true, decide_eq_true_eq]
      omega

theorem toList_toString (n : ℕ) : (toString n).toList = Nat.toDigits 10 n := by
  rw [Nat.toString_eq_repr, Nat.toList_repr]

/-! ## Break commands -/

/-- The name and the line are cut at the first colon. -/
theorem parseBreak_eq (hword : readWord text = (point, rest)) (hpoint : point = fileName ++ ':' :: lineStr)
    (hfile : ':' ∉ fileName) :
    parseBreak text = if (stoi lineStr).getD (-1) = -1 then .nothing
      else .push (.breakLine (.ofInt 32 ((stoi lineStr).getD (-1))) fileName) := by
  have hspan : point.span (· ≠ ':') = (fileName, ':' :: lineStr) := by
    rw [hpoint]
    refine span_append (fun c hc => ?_) fun c hc => ?_
    · exact decide_eq_true fun heq => hfile (heq ▸ hc)
    · cases hc
      rfl
  rw [parseBreak, hword]
  dsimp only
  rw [hspan]

/-- A point without a colon leads to nothing. -/
theorem parseBreak_nothing (hword : readWord text = (point, rest)) (hpoint : ':' ∉ point) :
    parseBreak text = .nothing := by
  have hspan : point.span (· ≠ ':') = (point, []) := by
    have hsplit : (point ++ []).span (· ≠ ':') = (point, []) := span_append
      (fun c hc => decide_eq_true fun heq => hpoint (heq ▸ hc)) nofun
    rwa [List.append_nil] at hsplit
  rw [parseBreak, hword]
  dsimp only
  rw [hspan]

/-- The first colon of a word. -/
theorem exists_colon (h : ':' ∈ point) : ∃ fileName lineStr, ':' ∉ fileName ∧ point = fileName ++ ':' :: lineStr := by
  obtain ⟨fileName, lineStr, rfl, hfile⟩ := List.eq_append_cons_of_mem h
  exact ⟨fileName, lineStr, hfile, rfl⟩

/-! ## Commands -/

/-- What `ParseCommand` queues is asked for by the first word. -/
theorem parseCommand_push_iff (text : Str) : (∃ c, parseCommand text = .push c) ↔ Taken text := by
  rw [Taken, parseCommand]
  generalize readWord text = r
  obtain ⟨word, line⟩ := r
  dsimp only
  by_cases hbreak : word = "break".toList ∨ word = "b".toList
  · have hmem : word ∈ ["break".toList, "b".toList] := by simpa using hbreak
    have hno : word ∉ ["read".toList, "r".toList, "continue".toList, "c".toList] := by
      rcases hbreak with rfl | rfl <;> decide
    rw [if_pos hbreak, or_iff_right hno, and_iff_right hmem]
    generalize hpoint : readWord (eatSpace line) = r
    obtain ⟨point, rest⟩ := r
    dsimp only
    by_cases hcolon : ':' ∈ point
    · obtain ⟨fileName, lineStr, hfile, heq⟩ := exists_colon hcolon
      rw [parseBreak_eq hpoint heq hfile]
      constructor
      · rintro ⟨c, hc⟩
        split at hc
        · cases hc
        · rename_i hne
          cases hn : stoi lineStr with
          | none => exact absurd (by rw [hn]; rfl) hne
          | some n =>
            rw [hn] at hne
            exact ⟨fileName, lineStr, n, hfile, heq, hn, hne⟩
      · rintro ⟨fileName', lineStr', n, hfile', heq', hn, hne⟩
        -- the first colon is at one place
        obtain ⟨rfl, rfl⟩ := Framing.eq_of_append_cons hfile hfile' (heq.symm.trans heq')
        rw [hn, Option.getD_some, if_neg hne]
        exact ⟨_, rfl⟩
    · rw [parseBreak_nothing hpoint hcolon]
      refine iff_of_false (fun ⟨c, hc⟩ => nomatch hc) ?_
      rintro ⟨fileName, lineStr, n, -, heq, -⟩
      rw [heq] at hcolon
      exact hcolon (by simp)
  · have hno : word ∉ ["break".toList, "b".toList] := by simpa using hbreak
    have hleft : ∀ {p q : Prop}, (p ∨ word ∈ ["break".toList, "b".toList] ∧ q) ↔ p := or_iff_left fun h => hno h.1
    rw [if_neg hbreak, hleft]
    by_cases hstop : word = "stop".toList ∨ word = "s".toList
    · rw [if_pos hstop]
      refine iff_of_false (fun ⟨c, hc⟩ => nomatch hc) ?_
      rcases hstop with rfl | rfl <;> decide
    rw [if_neg hstop]
    by_cases hread : word = "read".toList ∨ word = "r".toList
    · rw [if_pos hread]
      refine iff_of_true ⟨_, rfl⟩ ?_
      rcases hread with rfl | rfl <;> decide
    rw [if_neg hread]
    by_cases hcontinue : word = "continue".toList ∨ word = "c".toList
    · rw [if_pos hcontinue]
      refine iff_of_true ⟨_, rfl⟩ ?_
      rcases hcontinue with rfl | rfl <;> decide
    rw [if_neg hcontinue]
    refine iff_of_false (fun ⟨c, hc⟩ => nomatch hc) ?_
    simp only [List.mem_cons, List.not_mem_nil, or_false, not_or] at hread hcontinue ⊢
    exact ⟨hread.1, hread.2, hcontinue.1, hcontinue.2⟩

theorem isSpace_eq_false_of_isDigit (h : c.isDigit) : isSpace c = false := by
  have hrange := toNat_of_isDigit h
  have hne : c ≠ ' ' := ne_of_isDigit h (by decide)
  simp [isSpace, hne]
  omega

theorem isDigit_of_mem_toString {line : ℕ} (h : c ∈ (toString line).toList) : c.isDigit := by
  rw [toList_toString] at h
  exact Nat.isDigit_of_mem_toDigits (by decide) (by decide) h

/-- The word after `break` is the whole of the name, the colon and the line. -/
theorem parseCommand_breakText (hfile : IsName fileName) (line : ℕ) :
    parseCommand (breakText fileName line) = parseBreak (fileName ++ ':' :: (toString line).toList) ∧
      readWord (fileName ++ ':' :: (toString line).toList) = (fileName ++ ':' :: (toString line).toList, []) := by
  have hclean : ∀ c ∈ fileName ++ ':' :: (toString line).toList, isSpace c = false := by
    intro c hc
    rcases List.mem_append.mp hc with hc | hc
    · exact hfile.clean c hc
    · rcases List.mem_cons.mp hc with rfl | hc
      · rfl
      · exact isSpace_eq_false_of_isDigit (isDigit_of_mem_toString hc)
  have hpoint : readWord (_ ++ []) = _ := readWord_append hclean nofun
  rw [List.append_nil] at hpoint
  refine ⟨?_, hpoint⟩
  have hword : readWord (breakText fileName line) = ("break".toList, ' ' :: (fileName ++ ':' :: (toString line).toList)) := by
    have hbreak : "break ".toList = "break".toList ++ [' '] := by decide +kernel
    have hcolon : ":".toList = [':'] := by decide +kernel
    have htext : breakText fileName line = "break".toList ++ ' ' :: (fileName ++ ':' :: (toString line).toList) := by
      unfold breakText
      generalize (toString line).toList = digits
      simp only [hbreak, hcolon, List.append_assoc, List.cons_append, List.nil_append]
    rw [htext]
    exact readWord_append (clean_of_all (by decide +kernel)) fun c hc => (Option.some.inj hc).symm
  have hspace : eatSpace (' ' :: (fileName ++ ':' :: (toString line).toList)) = fileName ++ ':' :: (toString line).toList := by
    obtain ⟨c, cs, rfl⟩ := List.exists_cons_of_ne_nil hfile.nonempty
    have hc := hfile.clean c List.mem_cons_self
    have hne : c ≠ ' ' := by
      rintro rfl
      cases hc
    have hstop : ¬decide (c = ' ') = true := by simp [hne]
    exact (List.dropWhile_cons_of_pos (by decide)).trans (List.dropWhile_cons_of_neg hstop)
  rw [parseCommand, hword]
  dsimp only
  rw [if_pos (.inl rfl), hspace]

/-- A break command is queued as it is if its file name has no colon and its line has 31 bits. -/
theorem parseCommand_break_iff (hfile : IsName fileName) {line : ℕ} :
    parseCommand (breakText fileName line) = .push (.breakLine (.ofNat 32 line) fileName) ↔
      ':' ∉ fileName ∧ line < 2 ^ 31 := by
  obtain ⟨hparse, hword⟩ := parseCommand_breakText hfile line
  rw [hparse]
  by_cases hcolon : ':' ∈ fileName
  · obtain ⟨before, behind, hbefore, rfl⟩ := exists_colon hcolon
    rw [parseBreak_eq hword (by rw [List.append_assoc, List.cons_append]) hbefore]
    refine iff_of_false (fun h => ?_) fun h => h.1 hcolon
    split at h
    · cases h
    · -- the name is cut
      have hname : before = before ++ ':' :: behind := by
        injection h with h
        injection h with _ h
      simp at hname
  · have hne : (toString line).toList ≠ [] := by
      rw [toList_toString]
      exact Nat.toDigits_ne_nil
    have hstoi := stoi_digits hne fun c hc => isDigit_of_mem_toString hc
    rw [toList_toString, Nat.ofDigitChars_ten_toDigits, ← toList_toString] at hstoi
    rw [parseBreak_eq hword rfl hcolon, hstoi, and_iff_right hcolon]
    by_cases hlt : line < 2 ^ 31
    · rw [if_pos hlt, Option.getD_some, if_neg (by omega)]
      exact iff_of_true (by rw [BitVec.ofInt_natCast]) hlt
    · rw [if_neg hlt]
      exact iff_of_false (fun h => nomatch h) hlt

/-- **When a text is parsed as the grammar says**: if it is a break command, its file name has no colon and its line has
31 bits; if it is no command at all, its first word does not ask for something to be queued. -/
theorem parseCommand_meets_iff (text : Str) : Meets text ↔
    (∀ fileName line, IsName fileName → line < 2 ^ 32 → text = breakText fileName line → ':' ∉ fileName ∧ line < 2 ^ 31) ∧
      (¬IsCommand text → ¬Taken text) := by
  refine and_congr ⟨fun h fileName line hfile hline htext => ?_, fun h fileName line hfile hline htext => ?_⟩ ?_
  · have hparse := h fileName line hfile hline htext
    rw [htext] at hparse
    exact (parseCommand_break_iff hfile).mp hparse
  · rw [htext]
    exact (parseCommand_break_iff hfile).mpr (h fileName line hfile hline htext)
  · rw [← parseCommand_push_iff, not_exists]

/-- The drive of a file name is taken for the whole of it. -/
theorem not_meets_drive : ¬∀ text, Meets text := by
  intro hall
  have hfile : IsName "C:/main.js".toList := ⟨by decide +kernel, clean_of_all (by decide +kernel)⟩
  have hparse := (hall (breakText "C:/main.js".toList 12)).1 _ 12 hfile (by decide) rfl
  revert hparse
  decide +kernel

end QuickJs.Debugger
