import Mathlib.Data.List.Basic
import QuickJs.Utf8

/-!
# The JSON grammar

The grammar of JSON texts over two lexicons: the one of the standard, and the wider one that the
scanners of `JSON.parse` accept, since they are the scanners of JavaScript. The phrases above the
lexicon (values, elements, members) are the same for both.
-/

namespace QuickJs.Json

open Utf8

/-- The value of a JSON text. The properties of an object are in the order of their definition. -/
inductive Tree (δ : Type) where
  | null
  | bool (b : Bool)
  | number (d : δ)
  | string (units : List UInt16)
  | array (items : List (Tree δ))
  | object (props : List (List UInt16 × Tree δ))

/-- Define a property: a value that the name has already is replaced where it stands. -/
def defineProperty {α : Type} :
    List (List UInt16 × α) → List UInt16 × α → List (List UInt16 × α)
  | [], p => [p]
  | q :: props, p => if q.1 = p.1 then p :: props else q :: defineProperty props p

/-- The properties that the members of an object define. -/
def properties {α : Type} (members : List (List UInt16 × α)) : List (List UInt16 × α) :=
  members.foldl defineProperty []

/-- `from_hex`. -/
def fromHex (c : Char) : Option ℕ :=
  if '0' ≤ c ∧ c ≤ '9' then some (c.toNat - '0'.toNat)
  else if 'A' ≤ c ∧ c ≤ 'F' then some (c.toNat - 'A'.toNat + 10)
  else if 'a' ≤ c ∧ c ≤ 'f' then some (c.toNat - 'a'.toNat + 10)
  else none

/-- The number that hexadecimal digits write, when they stand after a number. -/
def hexFrom : ℕ → List Char → Option ℕ
  | v, [] => some v
  | v, c :: s => (fromHex c).bind fun h => hexFrom (v * 16 + h) s

/-- The two classes of lexemes that have an inner structure: a character of a string, with its
code units, and a number. -/
structure Lexicon where
  character : List Char → List UInt16 → Prop
  numeral : List Char → Prop

section Standard

/-- JSON white space. -/
def IsWhite (c : Char) : Prop := c = '\r' ∨ c = '\n' ∨ c = ' ' ∨ c = '\t'

instance (c : Char) : Decidable (IsWhite c) :=
  inferInstanceAs (Decidable (c = '\r' ∨ c = '\n' ∨ c = ' ' ∨ c = '\t'))

def White (s : List Char) : Prop := ∀ c ∈ s, IsWhite c

/-- The short escapes. -/
def shortEscapes : List (Char × ℕ) :=
  [('"', 0x22), ('\\', 0x5c), ('/', 0x2f), ('b', 8), ('f', 12), ('n', 10), ('r', 13), ('t', 9)]

/-- A character of a string. -/
inductive Character : List Char → List UInt16 → Prop
  | plain {c : ℕ} : 0x20 ≤ c → c ≤ 0x10ffff → c ≠ 0x22 → c ≠ 0x5c →
      Character (unicodeToUtf8 c) (stringBufferPutc c)
  | short {e : Char} {c : ℕ} : (e, c) ∈ shortEscapes → Character ['\\', e] (stringBufferPutc c)
  | hex {h : List Char} {c : ℕ} : h.length = 4 → hexFrom 0 h = some c →
      Character ('\\' :: 'u' :: h) (stringBufferPutc c)

def Digits (s : List Char) : Prop := s ≠ [] ∧ ∀ c ∈ s, c.isDigit

/-- What stands before the point: no zero in front of another digit. -/
def IntegerPart (s : List Char) : Prop := Digits s ∧ (s.head? = some '0' → s = ['0'])

def Fraction (s : List Char) : Prop := s = [] ∨ ∃ t, s = '.' :: t ∧ Digits t

def Exponent (s : List Char) : Prop :=
  s = [] ∨ ∃ e sign t, s = e :: sign ++ t ∧ (e = 'e' ∨ e = 'E') ∧
    (sign = [] ∨ sign = ['+'] ∨ sign = ['-']) ∧ Digits t

def Numeral (s : List Char) : Prop :=
  ∃ sign int frac exp, s = sign ++ int ++ frac ++ exp ∧ (sign = [] ∨ sign = ['-']) ∧
    IntegerPart int ∧ Fraction frac ∧ Exponent exp

/-- The lexicon of the standard. -/
def Lexicon.standard : Lexicon := ⟨Character, Numeral⟩

end Standard

section Wide

/-- The escapes that are not in the standard, and that the string scanner takes all the same. -/
inductive ExtraCharacter : List Char → List UInt16 → Prop
  | verticalTab : ExtraCharacter ['\\', 'v'] (stringBufferPutc 11)
  | itself {c : Char} : c.toNat < 0x80 → ¬ c.isDigit →
      c ∉ ['"', '\\', '/', 'b', 'f', 'n', 'r', 't', 'v', 'x', 'u', '\r', '\n'] →
      ExtraCharacter ['\\', c] (stringBufferPutc c.toNat)
  | newline {s : List Char} : s ∈ [['\n'], ['\r'], ['\r', '\n']] → ExtraCharacter ('\\' :: s) []
  | separator {c : ℕ} : c ∈ [0x2028, 0x2029] → ExtraCharacter ('\\' :: unicodeToUtf8 c) []
  | decoded {c : ℕ} : 0x80 ≤ c → c ≤ 0x10ffff → c ∉ [0x2028, 0x2029] →
      ExtraCharacter ('\\' :: unicodeToUtf8 c) (stringBufferPutc c)
  | hex {h : List Char} {c : ℕ} : h.length = 2 → hexFrom 0 h = some c →
      ExtraCharacter ('\\' :: 'x' :: h) (stringBufferPutc c)
  | braced {x : Char} {h : List Char} {c : ℕ} : x = 'x' ∨ x = 'u' → h ≠ [] →
      hexFrom 0 h = some c → c ≤ 0x10ffff →
      ExtraCharacter ('\\' :: x :: '{' :: h ++ ['}']) (stringBufferPutc c)

/-- A number as the number scanner takes it: behind a minus sign it may begin with zeros, and
there need not be a digit behind the point. -/
def WideNumeral (s : List Char) : Prop :=
  ∃ sign int frac exp, s = sign ++ int ++ frac ++ exp ∧
    (sign = [] ∧ IntegerPart int ∨ sign = ['-'] ∧ Digits int) ∧
    (Fraction frac ∨ frac = ['.']) ∧ Exponent exp

/-- The lexicon of the scanners. -/
def Lexicon.wide : Lexicon := ⟨fun s u => Character s u ∨ ExtraCharacter s u, WideNumeral⟩

end Wide

/-- What stands between the quotes of a string. -/
inductive Characters (L : Lexicon) : List Char → List UInt16 → Prop
  | nil : Characters L [] []
  | cons {s t : List Char} {u v : List UInt16} : L.character s u → Characters L t v →
      Characters L (s ++ t) (u ++ v)

/-- The phrases of the grammar. An element is a value with white space around it. -/
inductive Phrase (δ : Type) where
  | value (v : Tree δ)
  | element (v : Tree δ)
  | elements (vs : List (Tree δ))
  | member (p : List UInt16 × Tree δ)
  | members (ps : List (List UInt16 × Tree δ))

/-- The texts of a phrase. What a number denotes is a parameter. -/
inductive Derives {δ : Type} (L : Lexicon) (denoted : List Char → δ) : Phrase δ → List Char → Prop
  | null : Derives L denoted (.value .null) ['n', 'u', 'l', 'l']
  | true : Derives L denoted (.value (.bool true)) ['t', 'r', 'u', 'e']
  | false : Derives L denoted (.value (.bool false)) ['f', 'a', 'l', 's', 'e']
  | string {s : List Char} {u : List UInt16} : Characters L s u →
      Derives L denoted (.value (.string u)) ('"' :: s ++ ['"'])
  | number {s : List Char} : L.numeral s → Derives L denoted (.value (.number (denoted s))) s
  | emptyArray {w : List Char} : White w → Derives L denoted (.value (.array [])) ('[' :: w ++ [']'])
  | array {s : List Char} {vs : List (Tree δ)} : Derives L denoted (.elements vs) s →
      Derives L denoted (.value (.array vs)) ('[' :: s ++ [']'])
  | emptyObject {w : List Char} : White w → Derives L denoted (.value (.object [])) ('{' :: w ++ ['}'])
  | object {s : List Char} {ps : List (List UInt16 × Tree δ)} : Derives L denoted (.members ps) s →
      Derives L denoted (.value (.object (properties ps))) ('{' :: s ++ ['}'])
  | element {w s w' : List Char} {v : Tree δ} : White w → Derives L denoted (.value v) s →
      White w' → Derives L denoted (.element v) (w ++ s ++ w')
  | lastElement {s : List Char} {v : Tree δ} : Derives L denoted (.element v) s →
      Derives L denoted (.elements [v]) s
  | elements {s t : List Char} {v : Tree δ} {vs : List (Tree δ)} :
      Derives L denoted (.element v) s → Derives L denoted (.elements vs) t →
      Derives L denoted (.elements (v :: vs)) (s ++ ',' :: t)
  | member {w k w' s : List Char} {name : List UInt16} {v : Tree δ} : White w →
      Characters L k name → White w' → Derives L denoted (.element v) s →
      Derives L denoted (.member (name, v)) (w ++ '"' :: k ++ '"' :: w' ++ ':' :: s)
  | lastMember {s : List Char} {p : List UInt16 × Tree δ} : Derives L denoted (.member p) s →
      Derives L denoted (.members [p]) s
  | members {s t : List Char} {p : List UInt16 × Tree δ} {ps : List (List UInt16 × Tree δ)} :
      Derives L denoted (.member p) s → Derives L denoted (.members ps) t →
      Derives L denoted (.members (p :: ps)) (s ++ ',' :: t)

end QuickJs.Json
