import Mathlib

/-!
# The parser of JSX expressions

`js_parse_jsx_expr` in a build without the shortcuts of Sciter. An element that contains an element calls the
parser again: the calls that have not returned are on a stack, and a step is one round of a loop, or what comes
before or after the loops. The rest of the parser is a parameter: the tokens and the text between the tags, the
expressions in braces and in templates, and the memory.
-/

namespace QuickJs.Jsx

/-- `JSAtom`; `JS_ATOM_NULL` is 0. -/
abbrev Atom := ℕ

/-- What a name stands for besides. -/
inductive Word
  | name
  | null
  | false_
  | true_
  /-- another keyword -/
  | keyword
  deriving DecidableEq

/-- `JSToken`. -/
inductive Token
  | eof
  | char (c : Char)
  | ident (atom : Atom) (word : Word)
  | string
  | template
  | number
  | other (val : ℕ)
  | error
  deriving DecidableEq

/-- `token_is_ident`. -/
def Token.isIdent : Token → Bool
  | ident _ _ => true
  | _ => false

/-- The instructions that the parser emits. Those of an expression are `other`, or set the name of a function or of
a class; the class was defined `back` instructions before. -/
inductive Instr
  | getVar (a : Atom)
  | scopeGetVar (a : Atom)
  | pushConst
  | pushAtomValue (a : Atom)
  | object
  | null
  | pushFalse
  | pushTrue
  | drop
  | copyDataProperties (mask : ℕ)
  | defineField (a : Atom)
  | setName (a : Atom)
  | defineClass (a : Atom)
  | setClassName (back : ℕ)
  | arrayFrom (n : ℕ)
  | call (n : ℕ)
  | other (pop push : ℕ)
  deriving DecidableEq

/-- What an instruction adds to the height of the stack. -/
def Instr.effect : Instr → ℤ
  | getVar _ | scopeGetVar _ | pushConst | pushAtomValue _ | object | null | pushFalse | pushTrue => 1
  | drop | defineField _ => -1
  | copyDataProperties _ | setName _ | defineClass _ | setClassName _ => 0
  | arrayFrom n => 1 - n
  | call n => -n
  | other pop push => push - pop

def effect (code : List Instr) : ℤ := (code.map Instr.effect).sum

/-- The text before the next tag or brace. -/
inductive Text
  /-- none, or spaces -/
  | blank
  /-- a string that is an atom -/
  | atom (a : Atom)
  /-- a string that is a number -/
  | constant

/-- What comes of an expression: the code, the token after it, and the rest. -/
structure Parsed (ω : Type) where
  ok : Bool
  code : List Instr
  token : Token
  world : ω

/-- What is left of the input: twice the bytes, and the token that is being looked at. -/
def left (remaining : ℕ) (token : Token) : ℕ := 2 * remaining + if token = .eof then 0 else 1

/-- The rest of the parser. A token takes bytes from the input unless the input is at its end; `none` is an error.
A text ends before a byte that starts a token, an expression takes no bytes back, and leaves one value. -/
structure Scanner (ω : Type) where
  remaining : ω → ℕ
  /-- `next_token`, or `next_web_token` -/
  nextToken : Bool → ω → Option Token × ω
  /-- `js_parse_string` up to `<` -/
  text : ω → Option Text × ω
  /-- `*s->buf_ptr == '/'` -/
  slashNext : ω → Bool
  /-- `js_parse_assign_expr` from the token on -/
  assignExpr : Token → ω → Parsed ω
  /-- `js_parse_template` -/
  template : Token → ω → Parsed ω
  /-- there is no memory for a constant -/
  allocFails : ω → Bool × ω
  /-- the name starts with a capital letter -/
  isComponent : Atom → Bool
  atomGetStr : Atom → String
  nextToken_some {web : Bool} {w w' : ω} {tok : Token} : nextToken web w = (some tok, w') →
    remaining w' < remaining w ∨ remaining w' = 0 ∧ remaining w = 0 ∧ tok = .eof
  nextToken_none {web : Bool} {w w' : ω} : nextToken web w = (none, w') → remaining w' ≤ remaining w
  text_some {w w' : ω} {t : Text} : text w = (some t, w') → 0 < remaining w' ∧ remaining w' ≤ remaining w
  text_none {w w' : ω} : text w = (none, w') → remaining w' ≤ remaining w
  assignExpr_le (tok : Token) (w : ω) : remaining (assignExpr tok w).world ≤ remaining w
  assignExpr_ok {tok : Token} {w : ω} : (assignExpr tok w).ok →
    left (remaining (assignExpr tok w).world) (assignExpr tok w).token ≤ left (remaining w) tok ∧
    effect (assignExpr tok w).code = 1
  template_le (tok : Token) (w : ω) : remaining (template tok w).world ≤ remaining w
  template_ok {tok : Token} {w : ω} : (template tok w).ok →
    left (remaining (template tok w).world) (template tok w).token ≤ left (remaining w) tok ∧
    effect (template tok w).code = 1
  alloc_remaining (w : ω) : remaining (allocFails w).2 = remaining w

/-- `JSParseState`, and the exception that has been thrown. `refs` counts for each atom how often the parser has
taken it as the name of an attribute, less how often it has released it. -/
structure JSParseState (ω : Type) where
  world : ω
  token : Token
  code : List Instr
  refs : Atom → ℤ
  exception : Option String

/-- The variables of a call. -/
structure Locals where
  tagAtom : Atom
  attrName : Atom
  kidsCount : ℕ
  tokenRead : Bool

structure Activation (ω : Type) extends JSParseState ω, Locals

/-- A part of the parser; it fails with the message of its error. -/
abbrev Parse (ω : Type) (α : Type) := EStateM String (Activation ω) α

/-- Where a call goes on. -/
inductive Phase
  /-- the name of the tag -/
  | tag
  /-- the loop of the attributes -/
  | attrs
  /-- the loop of the children -/
  | kids
  /-- `GENERATE_KIDS` -/
  | close
  deriving DecidableEq

/-- How a round ends. -/
inductive Next
  | phase (p : Phase)
  /-- with a call of the parser for an element that is a child -/
  | nested
  /-- with `return 0` -/
  | done

variable {ω : Type} (sc : Scanner ω)

/-! ## The operations of the parser -/

/-- The message if no other one has been chosen. -/
def invalidJsx : String := "invalid JSX expression"

def nextToken (web : Bool) : Parse ω Unit := fun a =>
  match sc.nextToken web a.world with
  | (some tok, w) => .ok () { a with world := w, token := tok }
  | (none, w) => .error invalidJsx { a with world := w, token := .error }

/-- `js_parse_string`, which leaves a token, too. -/
def text : Parse ω Text := fun a =>
  match sc.text a.world with
  | (some t, w) => .ok t { a with world := w, token := .string }
  | (none, w) => .error invalidJsx { a with world := w }

def parsed (f : Token → ω → Parsed ω) : Parse ω Unit := fun a =>
  let r := f a.token a.world
  let a := { a with world := r.world, token := r.token, code := a.code ++ r.code }
  if r.ok then .ok () a else .error invalidJsx a

def assignExpr : Parse ω Unit := parsed sc.assignExpr

def template : Parse ω Unit := parsed sc.template

def alloc : Parse ω Unit := fun a =>
  match sc.allocFails a.world with
  | (true, w) => .error invalidJsx { a with world := w }
  | (false, w) => .ok () { a with world := w }

/-- `emit_op` and what follows it. -/
def emit (i : Instr) : Parse ω Unit := modify fun a => { a with code := a.code ++ [i] }

/-- `emit_push_const`, for a value that is not an atom. -/
def emitPushConst : Parse ω Unit := do
  alloc sc
  emit .pushConst

/-- The name of a class in its definition. -/
def Instr.renameClass (name : Atom) : Instr → Instr
  | defineClass _ => defineClass name
  | i => i

/-- `set_object_name` for the code so far. -/
def renameLast (name : Atom) (code : List Instr) : List Instr :=
  match code.getLast? with
  | some (.setName _) => code.dropLast ++ [.setName name]
  | some (.setClassName back) => code.modify (code.length - 1 - back) (Instr.renameClass name)
  | _ => code

def setObjectName (name : Atom) : Parse ω Unit := modify fun a => { a with code := renameLast name a.code }

/-- One more reference, or one less, to an atom; `JS_ATOM_NULL` has none. -/
def addRef (name : Atom) (d : ℤ) (refs : Atom → ℤ) : Atom → ℤ :=
  if name = 0 then refs else Function.update refs name (refs name + d)

/-- `JS_DupAtom` for the name of an attribute. -/
def dupAttrName (name : Atom) : Parse ω Unit :=
  modify fun a => { a with attrName := name, refs := addRef name 1 a.refs }

/-- `JS_FreeAtom(s->ctx, attr_name)`. The variable keeps its value. -/
def freeAttrName : Parse ω Unit := modify fun a => { a with refs := addRef a.attrName (-1) a.refs }

/-- The token that has to be there, and is left there. -/
def expect (c : Char) (message : String) : Parse ω Unit := do
  if (← get).token = .char c then pure () else throw message

/-! ## The parts of `js_parse_jsx_expr` -/

/-- `JS_ATOM_JSX`. -/
def jsAtomJSX : Atom := 187

def setTagAtom (atom : Atom) : Parse ω Unit := modify fun a => { a with tagAtom := atom }

def setTokenRead (b : Bool) : Parse ω Unit := modify fun a => { a with tokenRead := b }

/-- A component is a variable, another tag is a string. -/
def emitTag (atom : Atom) : Parse ω Unit :=
  if sc.isComponent atom then emit (.scopeGetVar atom) else emitPushConst sc

/-- Up to the loop of the attributes. -/
def parseTag : Parse ω Next := do
  nextToken sc true
  match (← get).token with
  | .ident atom _ =>
    setTagAtom atom
    emit (.getVar jsAtomJSX)
    emitTag sc atom
    nextToken sc true
    emit .object
    pure (.phase .attrs)
  | _ => throw "Expecting tag name"

/-- The value of an attribute, after `=`. -/
def parseAttrValue : Parse ω Unit := do
  match (← get).token with
  | .string => emitPushConst sc
  | .template =>
    template sc
    setTokenRead true
  | .char '{' =>
    nextToken sc false
    assignExpr sc
    expect '}' "expecting '\x7d'"
  | .number => emitPushConst sc
  | .ident _ .false_ => emit .pushFalse
  | .ident _ .true_ => emit .pushTrue
  | .ident _ .null => emit .null
  | _ => throw "bad attribute value"

/-- The field that gets the value. -/
def defineAttr : Parse ω Unit := do
  setObjectName (← get).attrName
  emit (.defineField (← get).attrName)
  freeAttrName
  if (← get).tokenRead then pure () else nextToken sc true

/-- The value of an attribute, which may be missing: an empty string. -/
def parseAttrInit : Parse ω Unit := do
  if (← get).token = .char '=' then
    setTokenRead false
    nextToken sc false
    parseAttrValue sc
  else
    setTokenRead true
    emitPushConst sc

/-- An attribute after its name. -/
def parseAttrRest : Parse ω Next := do
  parseAttrInit sc
  defineAttr sc
  pure (.phase .attrs)

/-- The fields of an object in braces. -/
def parseSpread : Parse ω Next := do
  nextToken sc false
  assignExpr sc
  expect '}' "expecting '\x7d'"
  emit .null
  emit (.copyDataProperties 6)
  emit .drop
  emit .drop
  nextToken sc true
  pure (.phase .attrs)

/-- A round of the loop of the attributes. -/
def parseAttr : Parse ω Next := do
  match (← get).token with
  | .char '>' => pure (.phase .kids)
  | .char '/' =>
    nextToken sc false
    expect '>' "expecting '>'"
    pure (.phase .close)
  | .char '{' => parseSpread sc
  | .ident atom _ =>
    dupAttrName atom
    nextToken sc false
    parseAttrRest sc
  | _ => parseAttrRest sc

def addKid : Parse ω Unit := modify fun a => { a with kidsCount := a.kidsCount + 1 }

/-- The text of a child. -/
def emitText : Text → Parse ω Unit
  | .blank => pure ()
  | .atom a => do
    alloc sc
    emit (.pushAtomValue a)
    addKid
  | .constant => do
    alloc sc
    emitPushConst sc
    addKid

/-- `</`: the tag at the end. -/
def parseTail : Parse ω Next := do
  nextToken sc false
  nextToken sc true
  match (← get).token with
  | .ident atom _ =>
    let tagAtom := (← get).tagAtom
    if atom ≠ tagAtom then
      throw ("head <" ++ sc.atomGetStr tagAtom ++ "> and tail </" ++ sc.atomGetStr atom ++ "> tags do not match")
    else
      nextToken sc false
      expect '>' "expecting '>' in tail tag"
      pure (.phase .close)
  | _ => pure (.phase .kids)

/-- A round of the loop of the children. -/
def parseKid : Parse ω Next := do
  emitText sc (← text sc)
  nextToken sc false
  match (← get).token with
  | .char '<' => if sc.slashNext (← get).world then parseTail sc else pure .nested
  | .char '{' =>
    nextToken sc false
    assignExpr sc
    expect '}' "expected '\x7d'"
    addKid
    pure (.phase .kids)
  | _ => pure (.phase .kids)

/-- The token after the outermost element. -/
def afterElement (level : ℕ) : Parse ω Unit := if level = 0 then nextToken sc false else pure ()

/-- After the loops. `emit_u16` keeps 16 bits of the count. -/
def parseClose (level : ℕ) : Parse ω Next := do
  emit (.arrayFrom ((← get).kidsCount % 2 ^ 16))
  emit (.call 3)
  afterElement sc level
  pure .done

/-! ## The machine -/

/-- A call that has not returned. -/
structure Frame extends Locals where
  phase : Phase

/-- The parser with its calls, the innermost one first. -/
structure Machine (ω : Type) extends JSParseState ω where
  frames : List Frame
  /-- whether the outermost call has returned 0 -/
  result : Option Bool

/-- A round of the innermost call, with so many calls around it. -/
def round (phase : Phase) (level : ℕ) : Parse ω Next :=
  match phase with
  | .tag => parseTag sc
  | .attrs => parseAttr sc
  | .kids => parseKid sc
  | .close => parseClose sc level

def newFrame : Frame := ⟨⟨0, 0, 0, false⟩, .tag⟩

/-- A call returns. The caller does not look at what it returns. -/
def Machine.return (s : JSParseState ω) (ok : Bool) : List Frame → Machine ω
  | [] => ⟨s, [], some ok⟩
  | f :: fs => ⟨s, { f with kidsCount := f.kidsCount + 1 } :: fs, none⟩

def Machine.step (m : Machine ω) : Machine ω :=
  match m.frames with
  | [] => m
  | f :: fs =>
    match round sc f.phase fs.length ⟨m.toJSParseState, f.toLocals⟩ with
    | .ok (.phase p) a => ⟨a.toJSParseState, ⟨a.toLocals, p⟩ :: fs, none⟩
    | .ok .nested a => ⟨a.toJSParseState, newFrame :: ⟨a.toLocals, .kids⟩ :: fs, none⟩
    | .ok .done a => .return a.toJSParseState true fs
    -- `js_parse_error`
    | .error message a => .return { a.toJSParseState with exception := some message } false fs

/-- The outermost call, when `<` has been read. -/
def Machine.start (w : ω) (code : List Instr) : Machine ω :=
  ⟨⟨w, .char '<', code, fun _ => 0, none⟩, [newFrame], none⟩

/-- After some steps. -/
def Machine.run (m : Machine ω) (n : ℕ) : Machine ω := (Machine.step sc)^[n] m

end QuickJs.Jsx
