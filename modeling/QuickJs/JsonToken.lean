import QuickJs.JsonGrammar
import QuickJs.Rounds

/-!
# The tokens of `JSON.parse`

`json_next_token` without the extended flag, and the scanners of JavaScript that it calls. The
text is a list of bytes that ends where `buf_end` is, and the zero byte that follows is the missing
head of the list. The arithmetic of doubles is a parameter. The line numbers, which only a
backtrace shows, and the failures for want of memory or stack are left out.
-/

namespace QuickJs.Json

open Utf8 Rounds

inductive Failure where
  /-- The loops of the model have been given too few rounds. -/
  | outOfSteps
  | syntaxError (message : String)

/-- The arithmetic of doubles that a number is read with. -/
structure Doubles (δ : Type) where
  ofUint64 : ℕ → δ
  /-- `d * pow(10, e)` -/
  mulPow10 : δ → ℕ → δ
  neg : δ → δ
  /-- The C function of this name. -/
  strtod : List Char → δ
  infinity : δ
  nan : δ

section Escapes

/-- The digits of an escape of a fixed length. -/
def hexFixed : ℕ → ℕ → List Char → Option (ℕ × List Char)
  | 0, c, p => some (c, p)
  | _ + 1, _, [] => none
  | n + 1, c, d :: p => (fromHex d).bind fun h => hexFixed n (c * 16 + h) p

/-- The digits of an escape in braces, up to the closing one. -/
def hexBraced : ℕ → List Char → Option (ℕ × List Char)
  | _, [] => none
  | c, d :: p => (fromHex d).bind fun h =>
    if 0x10ffff < c * 16 + h then none
    else match p with
      | '}' :: rest => some (c * 16 + h, rest)
      | p => hexBraced (c * 16 + h) p

/-- A legacy octal escape, of up to three digits. -/
def octal (c : ℕ) (p : List Char) : ℕ × List Char :=
  match p with
  | [] => (c, p)
  | d :: q =>
    if ¬ ('0' ≤ d ∧ d ≤ '7') then (c, p)
    else
      let c := c * 8 + (d.toNat - '0'.toNat)
      if 32 ≤ c then (c, q)
      else match q with
        | [] => (c, q)
        | e :: r => if ¬ ('0' ≤ e ∧ e ≤ '7') then (c, q) else (c * 8 + (e.toNat - '0'.toNat), r)

inductive Escape where
  | malformed
  | unknown
  | char (c : ℕ) (rest : List Char)

def Escape.ofOption : Option (ℕ × List Char) → Escape
  | none => .malformed
  | some (c, rest) => .char c rest

/-- `lre_parse_escape`, with `TRUE` for `allow_utf16`. -/
def lreParseEscape : List Char → Escape
  | [] => .unknown
  | c :: p =>
    if c = 'b' then .char 8 p
    else if c = 'f' then .char 12 p
    else if c = 'n' then .char 10 p
    else if c = 'r' then .char 13 p
    else if c = 't' then .char 9 p
    else if c = 'v' then .char 11 p
    else if c = 'x' ∨ c = 'u' then
      match p with
      | '{' :: q => .ofOption (hexBraced 0 q)
      | p => .ofOption (hexFixed (if c = 'x' then 2 else 4) 0 p)
    else if '0' ≤ c ∧ c ≤ '7' then
      let (v, rest) := octal (c.toNat - '0'.toNat) p
      .char v rest
    else .unknown

end Escapes

section Strings

/-- A code point that is not ASCII. -/
def scanUtf8 (p : List Char) : Except Failure (ℕ × List Char) :=
  match unicodeFromUtf8 p with
  | some (c, rest) =>
    if 0x10ffff < c then .error (.syntaxError "invalid UTF-8 sequence") else .ok (c, rest)
  | none => .error (.syntaxError "invalid UTF-8 sequence")

/-- What follows a backslash: the code units that it adds to the string, and the rest. -/
def scanEscape : List Char → Except Failure (List UInt16 × List Char)
  | [] => .error (.syntaxError "unexpected end of string")
  | c :: p =>
    if c.toNat = 0 ∨ c = '\'' ∨ c = '"' ∨ c = '\\' then .ok (stringBufferPutc c.toNat, p)
    else if c = '\r' then
      match p with
      | '\n' :: q => .ok ([], q)
      | p => .ok ([], p)
    else if c = '\n' then .ok ([], p)
    else if c.isDigit then .error (.syntaxError "malformed escape sequence in string literal")
    else if 0x80 ≤ c.toNat then do
      let (c, rest) ← scanUtf8 (c :: p)
      if c = 0x2028 ∨ c = 0x2029 then .ok ([], rest) else .ok (stringBufferPutc c, rest)
    else match lreParseEscape (c :: p) with
      | .malformed => .error (.syntaxError "malformed escape sequence in string literal")
      | .unknown => .ok (stringBufferPutc c.toNat, p)
      | .char c rest => .ok (stringBufferPutc c, rest)

/-- What the loop of `js_parse_string` takes in one round: the code units that it adds to the
string, or nothing at the closing quote. There is no `cur_func` in JSON. -/
def scanCharacter : List Char → Except Failure (Option (List UInt16) × List Char)
  | [] => .error (.syntaxError "unexpected end of string")
  | c :: p =>
    if c.toNat < 0x20 then .error (.syntaxError "invalid character in a JSON string")
    else if c = '"' then .ok (none, p)
    else if c = '\\' then do
      let (units, rest) ← scanEscape p
      .ok (some units, rest)
    else if 0x80 ≤ c.toNat then do
      let (c, rest) ← scanUtf8 (c :: p)
      .ok (some (stringBufferPutc c), rest)
    else .ok (some (stringBufferPutc c.toNat), p)

/-- A round of `js_parse_string`: what is still to be read, and the string so far. -/
def stringRound (s : List Char × List UInt16) :
    Except Failure ((List Char × List UInt16) ⊕ (List UInt16 × List Char)) := do
  match ← scanCharacter s.1 with
  | (none, rest) => .ok (.inr (s.2, rest))
  | (some units, rest) => .ok (.inl (rest, s.2 ++ units))

/-- `js_parse_string`, behind a double quote. -/
def jsParseString (p : List Char) : Except Failure (List UInt16 × List Char) :=
  loop stringRound .outOfSteps (p.length + 1) (p, [])

end Strings

section Numbers

def nextIsDigit (p : List Char) : Bool := p.head?.any Char.isDigit

/-- The digits of an integer: the ones beyond `n_max` are only counted. -/
def accumulate : List Char → ℕ → ℕ → ℕ × ℕ
  | [], n, e => (n, e)
  | c :: p, n, e =>
    if ¬ c.isDigit then (n, e)
    else if n ≤ (2 ^ 64 - 1 - 9) / 10 then accumulate p (n * 10 + (c.toNat - '0'.toNat)) e
    else accumulate p n (e + 1)

/-- `js_strtod`, with radix 10. -/
def jsStrtod {δ : Type} (D : Doubles δ) (p : List Char) (isFloat : Bool) : δ :=
  if isFloat then D.strtod p
  else
    let isNeg := p.head? = some '-'
    let p := if isNeg then p.tail else p
    let (n, intExp) := accumulate (p.dropWhile (· = '0')) 0 0
    let d := D.ofUint64 n
    let d := if intExp ≠ 0 then D.mulPow10 d intExp else d
    if isNeg then D.neg d else d

/-- How the scanner of numbers values what it has scanned. -/
structure Numbers (δ : Type) where
  /-- `js_strtod` of the text and of `is_float` -/
  strtod : List Char → Bool → δ
  infinity : Bool → δ
  nan : δ

/-- The scanner values with doubles. -/
def Doubles.numbers {δ : Type} (D : Doubles δ) : Numbers δ :=
  ⟨jsStrtod D, fun isNeg => if isNeg then D.neg D.infinity else D.infinity, D.nan⟩

/-- The point and the digits behind it, and the rest. -/
def scanFraction (int p : List Char) : List Char × List Char :=
  match p with
  | '.' :: q =>
    if int ≠ [] ∨ nextIsDigit q then
      ('.' :: q.takeWhile Char.isDigit, q.dropWhile Char.isDigit)
    else ([], p)
  | p => ([], p)

/-- The sign of an exponent. -/
def exponentSign : List Char → List Char
  | '+' :: _ => ['+']
  | '-' :: _ => ['-']
  | _ => []

def startsExponent (p : List Char) : Bool := p.head?.any fun e => e = 'e' || e = 'E'

/-- The exponent, when it has digits, and the rest. -/
def scanExponent (p : List Char) : List Char × List Char :=
  match p with
  | [] => ([], p)
  | e :: q =>
    let sign := exponentSign q
    let q := q.drop sign.length
    if nextIsDigit q then
      (e :: sign ++ q.takeWhile Char.isDigit, q.dropWhile Char.isDigit)
    else ([], p)

/-- The digits of a number with the point and the exponent, whether they make a float, and the
rest. An `e` makes a float even when no digit follows it. -/
def scanDecimal (p : List Char) : List Char × Bool × List Char :=
  let int := p.takeWhile Char.isDigit
  let (frac, q) := scanFraction int (p.dropWhile Char.isDigit)
  if int ++ frac ≠ [] ∧ startsExponent q then
    let (exp, rest) := scanExponent q
    (int ++ frac ++ exp, true, rest)
  else (int ++ frac, frac ≠ [], q)

/-- `js_atof`, with radix 10 and no flags. -/
def jsAtof {δ : Type} (N : Numbers δ) (str : List Char) : δ × List Char :=
  let isNeg := str.head? = some '-'
  let signed := isNeg ∨ str.head? = some '+'
  let p := if signed then str.tail else str
  if (signed ∨ p.head? ≠ some '0') ∧ "Infinity".toList <+: p then (N.infinity isNeg, p.drop 8)
  else
    let (num, isFloat, rest) := scanDecimal p
    if num = [] then (N.nan, rest)
    else (N.strtod (if isNeg then '-' :: num else num) isFloat, rest)

end Numbers

section Tokens

inductive Token (δ : Type) where
  | eof
  | char (c : Char)
  | string (units : List UInt16)
  | number (d : δ)
  | ident (name : List Char)

def Token.isChar {δ : Type} (c : Char) : Token δ → Bool
  | .char d => d = c
  | _ => false

/-- The state of the parser: the current token, where it begins, and what follows it. -/
structure JSParseState (δ : Type) where
  token : Token δ
  ptr : List Char
  bufPtr : List Char

def isIdStart (c : Char) : Bool := c.isAlpha || c = '_' || c = '$'

/-- `lre_id_continue_table_ascii`. -/
def isIdContinue (c : Char) : Bool := c.isAlpha || c.isDigit || c = '_' || c = '$'

/-- Whether a number begins here. -/
def startsNumber (c : Char) (p : List Char) : Bool :=
  if c = '0' then !nextIsDigit p
  else if c = '-' then nextIsDigit p
  else c.isDigit

variable {δ : Type} (N : Numbers δ)

/-- The token that begins with a character. -/
def scanToken (c : Char) (p : List Char) : Except Failure (Token δ × List Char) :=
  if c = '"' then do
    let (units, rest) ← jsParseString p
    .ok (.string units, rest)
  else if isIdStart c then
    -- `json_parse_ident`
    .ok (.ident (c :: p.takeWhile isIdContinue), p.dropWhile isIdContinue)
  else if startsNumber c p then
    let (d, rest) := jsAtof N (c :: p)
    .ok (.number d, rest)
  else if 128 ≤ c.toNat then .error (.syntaxError "unexpected character")
  else .ok (.char c, p)

/-- `json_next_token`. -/
def jsonNextToken : List Char → Except Failure (JSParseState δ)
  | [] => .ok ⟨.eof, [], []⟩
  | c :: p =>
    if IsWhite c then jsonNextToken p
    else do
      let (token, rest) ← scanToken N c p
      .ok ⟨token, c :: p, rest⟩

end Tokens

end QuickJs.Json
