import QuickJs.StringBuffer
import QuickJs.Run
import Mathlib.Data.List.Count

/-!
# Programs that build strings

The strings that a program holds, counted references to them, and the buffers that it fills. `JS_ConcatString` takes
two references and may append to the first string in place. `Spec` says what the operations are for: values that are
lists of code units.
-/

namespace QuickJs.JSString

/-! ## Concatenation -/

/-- The characters of `JS_ConcatString1`: wide as soon as one string is wide. -/
def Chars.append : Chars → Chars → Chars
  | str8 s, str8 t => str8 (s ++ t)
  | p, q => str16 (p.units ++ q.units)

/-- `JSString`. `usable` is the size of its memory. -/
structure Cell where
  chars : Chars
  refCount : ℕ
  usable : ℤ

/-- `JS_ConcatString1`. -/
def jsConcatString1 (p₁ p₂ : Chars) (answer : Option ℕ) : Option Cell :=
  let len := p₁.len + p₂.len
  if JS_STRING_LEN_MAX < len then none
  else
    let isWide := p₁.isWideChar || p₂.isWideChar
    (jsMalloc (stringBytes len isWide) answer).map fun slack => ⟨p₁.append p₂, 1, stringBytes len isWide + slack⟩

/-- The bytes of the two strings together, as `JS_ConcatString` counts them in a `size_t`. -/
def concatBytes (p₁ p₂ : Chars) : ℤ :=
  let len := int32 (p₁.len + p₂.len)
  (sizeofJSString + int32 (if p₂.isWideChar then len * 2 else len) + 1 - if p₁.isWideChar then 1 else 0) % 2 ^ 64

/-- The second string goes into the memory of the first one. -/
def inPlace (p₁ p₂ : Cell) : Bool :=
  p₁.refCount == 1 && p₁.chars.isWideChar == p₂.chars.isWideChar && concatBytes p₁.chars p₂.chars ≤ p₁.usable

/-! ## The state of a program -/

structure State where
  cells : List Cell
  /-- the references that the program holds -/
  refs : List (Option ℕ)
  bufs : List (Option StringBuffer)

namespace State

def empty : State := ⟨[], [], []⟩

/-- The cell of a reference. -/
def cell (s : State) (a : ℕ) : Option Cell := (s.refs[a]?.join).bind (s.cells[·]?)

/-- Change the count of a cell, as `JS_DupValue` and `JS_FreeValue` do. -/
def recount (cells : List Cell) (c : ℕ) (f : ℕ → ℕ) : List Cell :=
  cells.modify c fun p => { p with refCount := f p.refCount }

/-- Give a reference back. -/
def free (s : State) (a : ℕ) : State :=
  match s.refs[a]?.join with
  | none => s
  | some c => { s with cells := recount s.cells c (· - 1), refs := s.refs.set a none }

/-- One more reference to the same string. -/
def dup (s : State) (a : ℕ) : State :=
  match s.refs[a]?.join with
  | none => s
  | some c => { s with cells := recount s.cells c (· + 1), refs := s.refs ++ [some c] }

/-- A reference is returned. -/
def move (s : State) (a : ℕ) : State := { s with refs := s.refs.set a none ++ [s.refs[a]?.join] }

/-- A new string is returned. -/
def push (s : State) (p : Cell) : State := { s with cells := s.cells ++ [p], refs := s.refs ++ [some s.cells.length] }

/-- An exception is returned. -/
def fail (s : State) : State := { s with refs := s.refs ++ [none] }

/-- Write over the characters of the string of a reference. -/
def setChars (s : State) (a : ℕ) (chars : Chars) : State :=
  match s.refs[a]?.join with
  | none => s
  | some c => { s with cells := s.cells.modify c fun p => { p with chars } }

/-- `JS_ConcatString`; both references are given up. -/
def jsConcatString (s : State) (a b : ℕ) (answer : Option ℕ) : Option (Bool × State) := do
  let p₁ ← s.cell a
  let p₂ ← s.cell b
  if a = b then none
  else if p₂.chars.len = 0 then some (true, (s.free b).move a)
  else if inPlace p₁ p₂ then some (true, ((s.free b).setChars a (p₁.chars.append p₂.chars)).move a)
  else
    match jsConcatString1 p₁.chars p₂.chars answer with
    | none => some (false, ((s.free b).free a).fail)
    | some p => some (true, ((s.free b).free a).push p)

/-- `string_buffer_end`. The empty string is the one of an atom, which refers to it as well; where `js_realloc_rt`
fails the memory stays as it is. -/
def stringBufferEnd (s : State) (b : ℕ) (answer : Option ℕ) : Option (Bool × State) := do
  let buf ← s.bufs[b]?.join
  let t := { s with bufs := s.bufs.set b none }
  if buf.errorStatus then some (false, t.fail)
  else if buf.len = 0 then some (true, t.push ⟨.str8 [], 2, stringBytes 0 false⟩)
  else
    let bytes := stringBytes buf.len buf.isWideChar
    let usable :=
      if buf.len < buf.size then ((jsMalloc bytes answer).map fun slack => bytes + slack).getD buf.usable
      else buf.usable
    some (true, t.push ⟨buf.str, 1, usable⟩)

end State

/-- What a program does with strings. -/
inductive Op
  /-- a string that another function has made -/
  | newString (p : Cell)
  | init2 (size : ℤ) (isWide : Bool) (answer : Option ℕ)
  | put (b : ℕ) (o : StringBuffer.Put) (answer : ℕ → Option ℕ)
  | stringBufferEnd (b : ℕ) (answer : Option ℕ)
  | jsConcatString (a b : ℕ) (answer : Option ℕ)
  | dup (a : ℕ)
  | free (a : ℕ)

/-- A step, and whether it has succeeded. What a string or a buffer is given is the contents of a string. -/
def State.step (s : State) : Op → Option (Bool × State)
  | .newString p => if p.chars.len ≤ JS_STRING_LEN_MAX ∧ p.refCount ≠ 0 then some (true, s.push p) else none
  | .init2 size isWide answer =>
    let buf := StringBuffer.init2 size isWide answer
    some (!buf.errorStatus, { s with bufs := s.bufs ++ [some buf] })
  | .put b o answer => do
    let buf ← s.bufs[b]?.join
    if o.units.length ≤ JS_STRING_LEN_MAX then
      let r := o.apply buf answer
      some (r.1, { s with bufs := s.bufs.set b (some r.2) })
    else none
  | .stringBufferEnd b answer => s.stringBufferEnd b answer
  | .jsConcatString a b answer => s.jsConcatString a b answer
  | .dup a => (s.cell a).map fun _ => (true, s.dup a)
  | .free a => (s.cell a).map fun _ => (true, s.free a)

/-! ## The values that they stand for -/

/-- Values and texts that are being built; none after an exception, or when they are given up. -/
structure Spec where
  values : List (Option (List UInt16))
  texts : List (Option (List UInt16))

namespace Spec

def empty : Spec := ⟨[], []⟩

def value (t : Spec) (a : ℕ) : Option (List UInt16) := t.values[a]?.join

def text (t : Spec) (b : ℕ) : Option (List UInt16) := t.texts[b]?.join

/-- A step that succeeds or fails. -/
def step (t : Spec) (ok : Bool) : Op → Spec
  | .newString p => { t with values := t.values ++ [some p.chars.units] }
  | .init2 _ _ _ => { t with texts := t.texts ++ [if ok then some [] else none] }
  | .put b o _ => { t with texts := t.texts.set b (if ok then (t.text b).map (· ++ o.units) else none) }
  | .stringBufferEnd b _ =>
    { values := t.values ++ [if ok then t.text b else none], texts := t.texts.set b none }
  | .jsConcatString a b _ =>
    let result := do
      let s₁ ← t.value a
      let s₂ ← t.value b
      some (s₁ ++ s₂)
    { t with values := (t.values.set b none).set a none ++ [if ok then result else none] }
  | .dup a => { t with values := t.values ++ [t.value a] }
  | .free a => { t with values := t.values.set a none }

end Spec

/-- A step of the code and of what it stands for. -/
def step (j : State × Spec) (o : Op) : Option (State × Spec) :=
  (j.1.step o).map fun r => (r.2, j.2.step r.1 o)

namespace State

variable {s : State} {a b c d : ℕ} {p : Cell} {f : ℕ → ℕ} {chars : Chars} {cells : List Cell}

/-! ## References -/

/-- The count of a cell. -/
def countOf (cells : List Cell) (c : ℕ) : ℕ := (cells[c]?.map (·.refCount)).getD 0

/-- What the string of a cell says. -/
def unitsOf (cells : List Cell) (c : ℕ) : Option (List UInt16) := cells[c]?.map (·.chars.units)

/-- The program does not hold more references to a string than are counted. -/
def Inv (s : State) : Prop := ∀ c, s.refs.count (some c) ≤ countOf s.cells c

/-- What the references of the program say. -/
def values (s : State) : List (Option (List UInt16)) := s.refs.map (·.bind (unitsOf s.cells))

/-- The texts of the buffers. -/
def texts (s : State) : List (Option (List UInt16)) :=
  s.bufs.map (·.bind fun buf => if buf.errorStatus then none else some buf.str.units)

/-- A reference counts. -/
theorem Inv.lt (h : s.Inv) (ha : some c ∈ s.refs) : c < s.cells.length := by
  have hpos := Nat.lt_of_lt_of_le (List.count_pos_iff.mpr ha) (h c)
  by_contra hge
  rw [countOf, List.getElem?_eq_none (Nat.le_of_not_lt hge)] at hpos
  exact Nat.lt_irrefl 0 hpos

theorem unitsOf_recount : unitsOf (recount cells c f) = unitsOf cells := by
  funext d
  simp only [unitsOf, recount, List.getElem?_modify]
  cases cells[d]? with
  | none => rfl
  | some p => by_cases h : c = d <;> simp [h]

theorem countOf_recount (hc : c < cells.length) :
    countOf (recount cells c f) d = if c = d then f (countOf cells d) else countOf cells d := by
  simp only [countOf, recount, List.getElem?_modify]
  by_cases h : c = d
  · subst h
    simp [List.getElem?_eq_getElem hc]
  · simp only [h]
    cases cells[d]? <;> rfl

/-- A reference given up is counted no more. -/
theorem count_set_none (ha : s.refs[a]? = some (some c)) :
    (s.refs.set a none).count (some d) = s.refs.count (some d) - if c = d then 1 else 0 := by
  obtain ⟨hlt, heq⟩ := List.getElem?_eq_some_iff.mp ha
  rw [List.count, List.countP_set hlt, heq]
  by_cases h : c = d <;> simp

theorem free_eq (ha : s.refs[a]? = some (some c)) :
    s.free a = { s with cells := recount s.cells c (· - 1), refs := s.refs.set a none } := by
  simp only [State.free, ha, Option.join_some]

theorem Inv.free (h : s.Inv) (ha : s.refs[a]? = some (some c)) : (s.free a).Inv := by
  intro d
  have hd := h d
  rw [free_eq ha, count_set_none ha, countOf_recount (h.lt (List.mem_of_getElem? ha))]
  split <;> omega

theorem values_free (ha : s.refs[a]? = some (some c)) : (s.free a).values = s.values.set a none := by
  rw [free_eq ha, values, unitsOf_recount, List.map_set]
  rfl

theorem Inv.dup (h : s.Inv) (ha : s.refs[a]? = some (some c)) : (s.dup a).Inv := by
  intro d
  have hd := h d
  have hdup : s.dup a = { s with cells := recount s.cells c (· + 1), refs := s.refs ++ [some c] } := by
    simp only [State.dup, ha, Option.join_some]
  rw [hdup, countOf_recount (h.lt (List.mem_of_getElem? ha))]
  by_cases hcd : c = d
  · subst hcd
    simpa using hd
  · simpa [hcd] using hd

theorem values_dup (ha : s.refs[a]? = some (some c)) : (s.dup a).values = s.values ++ [s.values[a]?.join] := by
  have hdup : s.dup a = { s with cells := recount s.cells c (· + 1), refs := s.refs ++ [some c] } := by
    simp only [State.dup, ha, Option.join_some]
  rw [hdup, values, unitsOf_recount, List.map_append, values, List.getElem?_map, ha]
  rfl

theorem Inv.move (h : s.Inv) (ha : s.refs[a]? = some (some c)) : (s.move a).Inv := by
  intro d
  have hd := h d
  have hmem := List.count_pos_iff.mpr (List.mem_of_getElem? ha)
  rw [State.move, List.count_append, count_set_none ha, ha]
  by_cases hcd : c = d
  · subst hcd
    simp only [Option.join_some, List.count_singleton_self, if_true]
    omega
  · simpa [hcd] using hd

theorem values_move : (s.move a).values = s.values.set a none ++ [s.values[a]?.join] := by
  rw [values, move, List.map_append, List.map_set, values, List.getElem?_map]
  cases s.refs[a]? <;> rfl

theorem Inv.push (h : s.Inv) (hp : p.refCount ≠ 0) : (s.push p).Inv := by
  intro d
  have hd := h d
  rw [State.push, List.count_append]
  rcases Nat.lt_trichotomy d s.cells.length with hlt | heq | hgt
  · rw [countOf, List.getElem?_append_left hlt, List.count_eq_zero_of_not_mem (l := [some s.cells.length])]
    · exact hd
    · simpa using hlt.ne
  · subst heq
    rw [countOf, List.getElem?_eq_none (Nat.le_refl _)] at hd
    rw [countOf, List.getElem?_concat_length, List.count_singleton_self, Nat.le_zero.mp hd]
    exact Nat.pos_of_ne_zero hp
  · rw [countOf, List.getElem?_eq_none hgt.le] at hd
    rw [Nat.le_zero.mp hd, List.count_eq_zero_of_not_mem (by simpa using hgt.ne')]
    exact Nat.zero_le _

theorem values_push (h : s.Inv) : (s.push p).values = s.values ++ [some p.chars.units] := by
  have hold : ∀ r ∈ s.refs, r.bind (unitsOf (s.cells ++ [p])) = r.bind (unitsOf s.cells) := by
    intro r hr
    cases r with
    | none => rfl
    | some c =>
      show unitsOf _ c = unitsOf _ c
      rw [unitsOf, List.getElem?_append_left (h.lt hr), unitsOf]
  rw [values, push, List.map_append, List.map_congr_left hold, values]
  simp [unitsOf]

theorem Inv.fail (h : s.Inv) : s.fail.Inv := by
  intro d
  have hd := h d
  rw [State.fail]
  simpa using hd

theorem values_fail : s.fail.values = s.values ++ [none] := by
  rw [values, fail, List.map_append]
  rfl

theorem setChars_eq (ha : s.refs[a]? = some (some c)) :
    s.setChars a chars = { s with cells := s.cells.modify c fun p => { p with chars } } := by
  simp only [setChars, ha, Option.join_some]

theorem Inv.setChars (h : s.Inv) (ha : s.refs[a]? = some (some c)) : (s.setChars a chars).Inv := by
  intro d
  have hd := h d
  rw [setChars_eq ha]
  simp only [countOf, List.getElem?_modify] at hd ⊢
  cases hcell : s.cells[d]? with
  | none => simpa [hcell] using hd
  | some p => by_cases hcd : c = d <;> simpa [hcell, hcd] using hd

/-- A string with one reference is written over: no other value changes. -/
theorem values_setChars (h : s.Inv) (ha : s.refs[a]? = some (some c)) (hone : countOf s.cells c = 1) :
    (s.setChars a chars).values = s.values.set a (some chars.units) := by
  have hc := h.lt (List.mem_of_getElem? ha)
  -- nobody else refers to the string
  have hother : ∀ k, k ≠ a → s.refs[k]? ≠ some (some c) := by
    intro k hk hck
    have hcount := count_set_none (d := c) ha
    have hle := h c
    have hmem : some c ∈ s.refs.set a none :=
      List.mem_of_getElem? ((List.getElem?_set_ne hk.symm).trans hck)
    have hpos := List.count_pos_iff.mpr hmem
    rw [if_pos rfl] at hcount
    omega
  rw [setChars_eq ha]
  refine List.ext_getElem? fun k => ?_
  simp only [values, List.getElem?_map]
  by_cases hk : k = a
  · subst hk
    have hlt : k < (List.map (fun x => x.bind (unitsOf s.cells)) s.refs).length := by
      rw [List.length_map]
      exact (List.getElem?_eq_some_iff.mp ha).1
    rw [List.getElem?_set_self hlt, ha]
    simp [unitsOf, List.getElem?_eq_getElem hc]
  · rw [List.getElem?_set_ne (Ne.symm hk), List.getElem?_map]
    cases hr : s.refs[k]? with
    | none => rfl
    | some r =>
      cases r with
      | none => rfl
      | some d =>
        have hcd : c ≠ d := fun hcd => hother k hk (hcd ▸ hr)
        simp [hcd, unitsOf]

theorem cell_eq_some : s.cell a = some p ↔ ∃ c, s.refs[a]? = some (some c) ∧ s.cells[c]? = some p := by
  rw [cell, Option.bind_eq_some_iff]
  simp only [Option.join_eq_some_iff]

/-- The value of a reference. -/
theorem value_of_cell (h : s.cell a = some p) : s.values[a]? = some (some p.chars.units) := by
  obtain ⟨c, ha, hc⟩ := cell_eq_some.mp h
  rw [values, List.getElem?_map, ha]
  simp [unitsOf, hc]

/-- A reference that is not given up. -/
theorem refs_free (ha : s.refs[a]? = some (some c)) (hb : s.refs[b]? = some (some d)) (hab : a ≠ b) :
    (s.free b).refs[a]? = some (some c) := by
  rw [free_eq hb, List.getElem?_set_ne hab.symm, ha]

/-- Giving up another reference leaves a string with one reference as it is. -/
theorem countOf_free (h : s.Inv) (ha : s.refs[a]? = some (some c)) (hb : s.refs[b]? = some (some d)) (hab : a ≠ b)
    (hone : countOf s.cells c = 1) : countOf (s.free b).cells c = 1 := by
  have hpos := Nat.lt_of_lt_of_le (List.count_pos_iff.mpr (List.mem_of_getElem? (refs_free ha hb hab))) (h.free hb c)
  have hlt := h.lt (List.mem_of_getElem? hb)
  rw [free_eq hb, countOf_recount hlt] at hpos ⊢
  split at hpos <;> rename_i hdc
  · omega
  · rw [if_neg hdc, hone]

end State

/-! ## What a program sees -/

/-- No value is longer than a string may be. -/
def Limited (l : List (Option (List UInt16))) : Prop := ∀ us, some us ∈ l → us.length ≤ JS_STRING_LEN_MAX

variable {l : List (Option (List UInt16))} {x : Option (List UInt16)} {k : ℕ}

theorem Limited.append (h : Limited l) (hx : ∀ us, x = some us → us.length ≤ JS_STRING_LEN_MAX) : Limited (l ++ [x]) := by
  intro us hus
  rcases List.mem_append.mp hus with hl | hx'
  · exact h us hl
  · exact hx us (List.mem_singleton.mp hx').symm

theorem Limited.set (h : Limited l) (hx : ∀ us, x = some us → us.length ≤ JS_STRING_LEN_MAX) : Limited (l.set k x) := by
  intro us hus
  rcases List.mem_or_eq_of_mem_set hus with hl | hx'
  · exact h us hl
  · exact hx us hx'.symm

theorem Limited.set_none (h : Limited l) : Limited (l.set k none) := h.set nofun

theorem Limited.value (h : Limited l) {us : List UInt16} (hus : l[k]? = some (some us)) :
    us.length ≤ JS_STRING_LEN_MAX := h us (List.mem_of_getElem? hus)

/-- The code shows the values, and none is too long. -/
structure Shows (s : State) (t : Spec) : Prop where
  inv : s.Inv
  values : s.values = t.values
  texts : s.texts = t.texts
  limited : Limited s.values
  textsLimited : Limited s.texts

/-- The room that an operation finds does not reach past the limit where the operation writes: a buffer that is too
small for what is too long, a string in place of which there is no room for what is too long. -/
def Fits (j : State × Spec) : Op → Prop
  | .put b o _ => ∀ buf, j.1.bufs[b]? = some (some buf) → buf.Fits o.units.length
  | .jsConcatString a b _ => ∀ p₁ p₂, j.1.cell a = some p₁ → j.1.cell b = some p₂ → inPlace p₁ p₂ = true →
      p₁.chars.len + p₂.chars.len ≤ JS_STRING_LEN_MAX
  | _ => True

theorem units_append (p q : Chars) : (p.append q).units = p.units ++ q.units := by
  cases p <;> cases q <;> simp [Chars.append, Chars.units]

theorem jsConcatString1_eq_some {p q : Chars} {answer : Option ℕ} {r : Cell} (h : jsConcatString1 p q answer = some r) :
    r.chars = p.append q ∧ r.refCount = 1 ∧ p.len + q.len ≤ JS_STRING_LEN_MAX := by
  rw [jsConcatString1] at h
  split at h
  · cases h
  · rename_i hle
    obtain ⟨slack, -, rfl⟩ := Option.map_eq_some_iff.mp h
    exact ⟨rfl, rfl, Nat.le_of_not_lt hle⟩

/-! ## The steps -/

variable {s s' : State} {t : Spec} {a b : ℕ} {ok : Bool}

theorem Shows.value (h : Shows s t) {p : Cell} (hp : s.cell a = some p) : t.value a = some p.chars.units := by
  rw [Spec.value, ← h.values, State.value_of_cell hp, Option.join_some]

/-- The text of a buffer. -/
theorem Shows.text (h : Shows s t) {buf : StringBuffer} (hbuf : s.bufs[b]? = some (some buf)) :
    t.text b = if buf.errorStatus then none else some buf.str.units := by
  rw [Spec.text, ← h.texts, State.texts, List.getElem?_map, hbuf]
  rfl

/-- The buffer keeps the limit. -/
theorem Shows.within (h : Shows s t) {buf : StringBuffer} (hbuf : s.bufs[b]? = some (some buf)) : buf.Within := by
  intro herr
  refine h.textsLimited _ (List.mem_of_getElem? (i := b) ?_)
  rw [State.texts, List.getElem?_map, hbuf]
  simp [herr]

theorem State.texts_free (s : State) (a : ℕ) : (s.free a).texts = s.texts := by
  rw [State.free]
  split <;> rfl

theorem State.texts_dup (s : State) (a : ℕ) : (s.dup a).texts = s.texts := by
  rw [State.dup]
  split <;> rfl

/-- The steps of `JS_ConcatString`. -/
theorem State.jsConcatString_eq_some {answer : Option ℕ} (hs : s.jsConcatString a b answer = some (ok, s')) :
    ∃ p₁ p₂, s.cell a = some p₁ ∧ s.cell b = some p₂ ∧ a ≠ b ∧
      (p₂.chars.len = 0 ∧ ok = true ∧ s' = (s.free b).move a ∨
        inPlace p₁ p₂ = true ∧ ok = true ∧ s' = ((s.free b).setChars a (p₁.chars.append p₂.chars)).move a ∨
        ok = false ∧ s' = ((s.free b).free a).fail ∨
        ∃ p, jsConcatString1 p₁.chars p₂.chars answer = some p ∧ ok = true ∧ s' = ((s.free b).free a).push p) := by
  simp only [State.jsConcatString, Option.bind_eq_bind, Option.bind_eq_some_iff] at hs
  obtain ⟨p₁, hp₁, p₂, hp₂, hs⟩ := hs
  refine ⟨p₁, p₂, hp₁, hp₂, ?_⟩
  split at hs
  · cases hs
  rename_i hab
  refine ⟨hab, ?_⟩
  split at hs
  · cases hs
    exact .inl ⟨‹_›, rfl, rfl⟩
  split at hs
  · cases hs
    exact .inr (.inl ⟨‹_›, rfl, rfl⟩)
  split at hs
  · cases hs
    exact .inr (.inr (.inl ⟨rfl, rfl⟩))
  · cases hs
    exact .inr (.inr (.inr ⟨_, ‹_›, rfl, rfl⟩))

/-- `JS_ConcatString`: the values of the two references give way to the value of both together. -/
theorem Shows.jsConcatString (h : Shows s t) {answer : Option ℕ} (hfits : Fits (s, t) (.jsConcatString a b answer))
    (hs : s.jsConcatString a b answer = some (ok, s')) : Shows s' (t.step ok (.jsConcatString a b answer)) := by
  obtain ⟨p₁, p₂, hp₁, hp₂, hab, hcases⟩ := State.jsConcatString_eq_some hs
  obtain ⟨c₁, ha, hc₁⟩ := State.cell_eq_some.mp hp₁
  obtain ⟨c₂, hb, hc₂⟩ := State.cell_eq_some.mp hp₂
  have hle₁ := h.limited.value (State.value_of_cell hp₁)
  have haB := State.refs_free ha hb hab
  have hinvB := h.inv.free hb
  have hvaluesB := State.values_free hb
  have hvalB : (s.free b).values[a]?.join = some p₁.chars.units := by
    rw [hvaluesB, List.getElem?_set_ne (Ne.symm hab), State.value_of_cell hp₁, Option.join_some]
  -- what is left to show of each case
  have hshows : s'.Inv → s'.texts = s.texts →
      s'.values = (s.values.set b none).set a none ++ [if ok then some (p₁.chars.units ++ p₂.chars.units) else none] →
      (ok = true → p₁.chars.len + p₂.chars.len ≤ JS_STRING_LEN_MAX) → Shows s' (t.step ok (.jsConcatString a b answer)) := by
    intro hinv htexts hvalues hlen
    have hlimited : Limited s'.values := by
      rw [hvalues]
      refine h.limited.set_none.set_none.append fun us hus => ?_
      cases ok with
      | false => cases hus
      | true =>
        cases hus
        rw [List.length_append]
        exact hlen rfl
    refine ⟨hinv, ?_, htexts.trans h.texts, hlimited, htexts ▸ h.textsLimited⟩
    rw [hvalues, h.values]
    simp only [Spec.step, h.value hp₁, h.value hp₂]
    rfl
  obtain ⟨hempty, rfl, rfl⟩ | ⟨hplace, rfl, rfl⟩ | ⟨rfl, rfl⟩ | ⟨p, hp, rfl, rfl⟩ := hcases
  · -- the first string is the result
    have hnil : p₂.chars.units = [] := List.eq_nil_of_length_eq_zero hempty
    refine hshows (hinvB.move haB) (State.texts_free s b) ?_ fun _ => by rw [hempty]; exact hle₁
    rw [State.values_move, hvalB, hvaluesB, hnil, List.append_nil]
    rfl
  · -- in place: nobody else refers to the first string
    have hone : State.countOf s.cells c₁ = 1 := by
      simp only [inPlace, Bool.and_eq_true, beq_iff_eq] at hplace
      rw [State.countOf, hc₁]
      exact hplace.1.1
    have hset : ((s.free b).setChars a (p₁.chars.append p₂.chars)).values =
        (s.free b).values.set a (some (p₁.chars.append p₂.chars).units) :=
      State.values_setChars hinvB haB (State.countOf_free h.inv ha hb hab hone)
    have hrefs : ((s.free b).setChars a (p₁.chars.append p₂.chars)).refs[a]? = some (some c₁) := by
      rw [State.setChars_eq haB]
      exact haB
    refine hshows ((hinvB.setChars haB).move hrefs) ?_ ?_ fun _ => hfits p₁ p₂ hp₁ hp₂ hplace
    · rw [State.setChars_eq haB]
      exact State.texts_free s b
    · have hlt : a < (s.values.set b none).length := by
        rw [List.length_set]
        exact (List.getElem?_eq_some_iff.mp (State.value_of_cell hp₁)).1
      rw [State.values_move, hset, hvaluesB, List.set_set, List.getElem?_set_self hlt, units_append]
      rfl
  · -- no memory, or too long
    refine hshows (hinvB.free haB).fail ((State.texts_free _ a).trans (State.texts_free s b)) ?_ nofun
    rw [State.values_fail, State.values_free haB, hvaluesB]
    rfl
  · -- a new string
    obtain ⟨hchars, hcount, hlen⟩ := jsConcatString1_eq_some hp
    have hinv := hinvB.free haB
    refine hshows (hinv.push (by rw [hcount]; decide)) ((State.texts_free _ a).trans (State.texts_free s b)) ?_ fun _ => hlen
    rw [State.values_push hinv, State.values_free haB, hvaluesB, hchars, units_append]
    rfl

/-- An operation on a buffer adds to its text. -/
theorem Shows.put (h : Shows s t) {o : StringBuffer.Put} {answer : ℕ → Option ℕ} {buf : StringBuffer}
    (hbuf : s.bufs[b]? = some (some buf)) (hlen : o.units.length ≤ JS_STRING_LEN_MAX) (hfits : buf.Fits o.units.length) :
    Shows { s with bufs := s.bufs.set b (some (o.apply buf answer).2) }
      (t.step (o.apply buf answer).1 (.put b o answer)) := by
  have hadds := o.adds buf answer
  have hwithin : (o.apply buf answer).2.Within := o.within (h.within hbuf) hlen hfits
  generalize o.apply buf answer = r at hadds hwithin
  have htexts : ({ s with bufs := s.bufs.set b (some r.2) } : State).texts =
      s.texts.set b (if r.2.errorStatus then none else some r.2.str.units) := by
    rw [State.texts, List.map_set]
    rfl
  refine ⟨h.inv, h.values, ?_, h.limited, ?_⟩
  · rw [htexts, h.texts]
    simp only [Spec.step, h.text hbuf]
    cases hok : r.1 with
    | false => rw [hadds.failed hok]; rfl
    | true =>
      rw [hadds.error hok, hadds.units hok]
      cases buf.errorStatus <;> rfl
  · rw [htexts]
    refine h.textsLimited.set fun us hus => ?_
    split at hus
    · cases hus
    · cases hus
      exact hwithin (Bool.eq_false_iff.mpr ‹_›)

/-- The end of a buffer makes its text a value. -/
theorem Shows.stringBufferEnd (h : Shows s t) {answer : Option ℕ} (hs : s.stringBufferEnd b answer = some (ok, s')) :
    Shows s' (t.step ok (.stringBufferEnd b answer)) := by
  simp only [State.stringBufferEnd, Option.bind_eq_bind, Option.bind_eq_some_iff] at hs
  obtain ⟨buf, hbuf, hs⟩ := hs
  rw [Option.join_eq_some_iff] at hbuf
  have htext := h.text hbuf
  have htexts : ({ s with bufs := s.bufs.set b none } : State).texts = t.texts.set b none := by
    rw [← h.texts, State.texts, List.map_set]
    rfl
  have hlimited : Limited (t.texts.set b none) := h.texts ▸ h.textsLimited.set_none
  -- the new string
  have hpush : ∀ p : Cell, p.refCount ≠ 0 → buf.errorStatus = false → p.chars.units = buf.str.units →
      Shows (({ s with bufs := s.bufs.set b none } : State).push p) (t.step true (.stringBufferEnd b answer)) := by
    intro p hcount herr hunits
    have hinv : ({ s with bufs := s.bufs.set b none } : State).Inv := h.inv
    have hvalues : (({ s with bufs := s.bufs.set b none } : State).push p).values = s.values ++ [some buf.str.units] :=
      (State.values_push hinv).trans (by rw [hunits]; rfl)
    refine ⟨hinv.push hcount, ?_, htexts, ?_, htexts.symm ▸ hlimited⟩
    · rw [hvalues, h.values]
      simp only [Spec.step, htext, herr]
      rfl
    · rw [hvalues]
      refine h.limited.append fun us hus => ?_
      cases hus
      exact h.within hbuf herr
  split at hs
  · cases hs
    refine ⟨State.Inv.fail (s := { s with bufs := s.bufs.set b none }) h.inv, ?_, htexts, ?_, htexts.symm ▸ hlimited⟩
    · exact State.values_fail.trans (congrArg (· ++ [none]) h.values)
    · exact State.values_fail.symm ▸ h.limited.append nofun
  rename_i herr
  have herr := Bool.eq_false_iff.mpr herr
  split at hs
  · rename_i hempty
    cases hs
    exact hpush _ (by decide) herr (List.eq_nil_of_length_eq_zero hempty).symm
  · cases hs
    exact hpush _ Nat.one_ne_zero herr rfl

/-- **Every step shows the values** that it stands for, and keeps the limit. -/
theorem Shows.step (h : Shows s t) {o : Op} (hfits : Fits (s, t) o) (hs : s.step o = some (ok, s')) :
    Shows s' (t.step ok o) := by
  cases o with
  | newString p =>
    rw [State.step] at hs
    split at hs
    · rename_i hp
      cases hs
      refine ⟨h.inv.push hp.2, ?_, h.texts, ?_, h.textsLimited⟩
      · rw [State.values_push h.inv, h.values]
        rfl
      · rw [State.values_push h.inv]
        refine h.limited.append fun us hus => ?_
        cases hus
        exact hp.1
    · cases hs
  | init2 size isWide answer =>
    cases hs
    have hempty := StringBuffer.units_init2 size isWide answer
    have htexts : ({ s with bufs := s.bufs ++ [some (StringBuffer.init2 size isWide answer)] } : State).texts =
        s.texts ++ [if (StringBuffer.init2 size isWide answer).errorStatus then none else some []] := by
      rw [State.texts, List.map_append, ← hempty]
      rfl
    refine ⟨h.inv, h.values, ?_, h.limited, ?_⟩
    · rw [htexts, h.texts]
      cases (StringBuffer.init2 size isWide answer).errorStatus <;> rfl
    · rw [htexts]
      refine h.textsLimited.append fun us hus => ?_
      split at hus
      · cases hus
      · cases hus
        exact Nat.zero_le _
  | put b o answer =>
    simp only [State.step, Option.bind_eq_bind, Option.bind_eq_some_iff] at hs
    obtain ⟨buf, hbuf, hs⟩ := hs
    rw [Option.join_eq_some_iff] at hbuf
    split at hs
    · cases hs
      exact h.put hbuf ‹_› (hfits buf hbuf)
    · cases hs
  | stringBufferEnd b answer => exact h.stringBufferEnd hs
  | jsConcatString a b answer => exact h.jsConcatString hfits hs
  | dup a =>
    obtain ⟨p, hp, heq⟩ := Option.map_eq_some_iff.mp hs
    cases heq
    obtain ⟨c, ha, hc⟩ := State.cell_eq_some.mp hp
    have hdup := State.values_dup ha
    rw [State.value_of_cell hp, Option.join_some] at hdup
    refine ⟨h.inv.dup ha, ?_, ?_, ?_, ?_⟩
    · rw [hdup, h.values]
      simp only [Spec.step, h.value hp]
    · rw [State.texts_dup, h.texts]
      rfl
    · rw [hdup]
      refine h.limited.append fun us hus => ?_
      cases hus
      exact h.limited.value (State.value_of_cell hp)
    · exact (State.texts_dup s a).symm ▸ h.textsLimited
  | free a =>
    obtain ⟨p, hp, heq⟩ := Option.map_eq_some_iff.mp hs
    cases heq
    obtain ⟨c, ha, hc⟩ := State.cell_eq_some.mp hp
    refine ⟨h.inv.free ha, ?_, ?_, ?_, ?_⟩
    · rw [State.values_free ha, h.values]
      rfl
    · rw [State.texts_free, h.texts]
      rfl
    · exact State.values_free ha ▸ h.limited.set_none
    · exact (State.texts_free s a).symm ▸ h.textsLimited

/-! ## Runs -/

/-- What a program may rely on: its values are those that the operations are for, whatever the widths; none is longer
than the limit; and `js_string_compare` orders them. -/
structure Right (j : State × Spec) : Prop where
  values : j.1.values = j.2.values
  texts : j.1.texts = j.2.texts
  limited : Limited j.2.values ∧ Limited j.2.texts
  orders : ∀ a b p q, j.1.cell a = some p → j.1.cell b = some q → ∃ u v, j.2.value a = some u ∧ j.2.value b = some v ∧
    Orders (jsStringCompare p.chars q.chars) u v

/-- **Strings are right in every run** whose operations find room for nothing that is too long. -/
theorem right_of_reachable (j : State × Spec) (h : Run.Reachable (· = (State.empty, Spec.empty)) step Fits j) :
    Right j := by
  have hshows : Shows j.1 j.2 := by
    refine h.invariant (I := fun j => Shows j.1 j.2) ?_ ?_
    · rintro j rfl
      exact ⟨fun c => Nat.zero_le _, rfl, rfl, nofun, nofun⟩
    · rintro ⟨s, t⟩ o j hj hfits hstep
      obtain ⟨⟨ok, s'⟩, hs, rfl⟩ := Option.map_eq_some_iff.mp hstep
      exact hj.step hfits hs
  refine ⟨hshows.values, hshows.texts, ⟨hshows.values ▸ hshows.limited, hshows.texts ▸ hshows.textsLimited⟩, ?_⟩
  intro a b p q hp hq
  exact ⟨_, _, hshows.value hp, hshows.value hq, orders_jsStringCompare p.chars q.chars⟩

/-- A wide string is appended to one of 8 bits. -/
theorem right_concat : ∃ j, Run.exec step (State.empty, Spec.empty)
    [.newString ⟨.str8 [97], 1, 32⟩, .newString ⟨.str16 [0x263a], 1, 32⟩, .jsConcatString 0 1 (some 0)] = some j ∧
      j.2.values = [none, none, some [97, 0x263a]] ∧ Right j := by
  have halong : Run.Along step Fits (State.empty, Spec.empty)
      [.newString ⟨.str8 [97], 1, 32⟩, .newString ⟨.str16 [0x263a], 1, 32⟩, .jsConcatString 0 1 (some 0)] := by
    refine ⟨trivial, fun j hj => ⟨trivial, fun j' hj' => ⟨?_, fun _ _ => trivial⟩⟩⟩
    cases hj
    cases hj'
    intro p₁ p₂ h₁ h₂ hplace
    cases h₁
    cases h₂
    cases hplace
  exact ⟨_, rfl, rfl, right_of_reachable _ (halong.reachable (.init rfl) rfl)⟩

/-- Two new strings, the second one in the memory of the first one. -/
theorem reachable_inPlace {p q : Cell} (hp : p.chars.len ≤ JS_STRING_LEN_MAX ∧ p.refCount ≠ 0)
    (hq : q.chars.len ≤ JS_STRING_LEN_MAX ∧ q.refCount ≠ 0) (hne : q.chars.len ≠ 0) (hplace : inPlace p q = true) :
    ∃ j, Run.Reachable (· = (State.empty, Spec.empty)) step (fun _ _ => True) j ∧
      j.2.values = [none, none, some (p.chars.units ++ q.chars.units)] := by
  have hnew : step (State.empty, Spec.empty) (.newString p) =
      some (State.empty.push p, Spec.empty.step true (.newString p)) := by
    rw [step, State.step, if_pos hp]
    rfl
  have hnew' : step (State.empty.push p, Spec.empty.step true (.newString p)) (.newString q) =
      some ((State.empty.push p).push q, (Spec.empty.step true (.newString p)).step true (.newString q)) := by
    rw [step, State.step, if_pos hq]
    rfl
  have hcode : ((State.empty.push p).push q).jsConcatString 0 1 none =
      some (true, (((State.empty.push p).push q).free 1 |>.setChars 0 (p.chars.append q.chars)).move 0) := by
    show (if 0 = 1 then none else if q.chars.len = 0 then _ else if inPlace p q then _ else _) = _
    rw [if_neg (by decide), if_neg hne, if_pos hplace]
  have hconcat : step ((State.empty.push p).push q, (Spec.empty.step true (.newString p)).step true (.newString q))
      (.jsConcatString 0 1 none) = some ((((State.empty.push p).push q).free 1 |>.setChars 0 (p.chars.append q.chars)).move 0,
        ((Spec.empty.step true (.newString p)).step true (.newString q)).step true (.jsConcatString 0 1 none)) := by
    rw [step, State.step, hcode]
    rfl
  exact ⟨_, .step (.step (.step (.init rfl) trivial hnew) trivial hnew') trivial hconcat, rfl⟩

/-- A string of the greatest length is appended to in place. -/
theorem not_right_inPlace : ∃ j, Run.Reachable (· = (State.empty, Spec.empty)) step (fun _ _ => True) j ∧ ¬Right j := by
  obtain ⟨s, hs⟩ : ∃ s : List UInt8, s.length = JS_STRING_LEN_MAX := ⟨List.replicate _ 97, List.length_replicate⟩
  have hlen : (Chars.str8 s).len = JS_STRING_LEN_MAX := by rw [Chars.len, Chars.units, List.length_map, hs]
  have hplace : inPlace ⟨.str8 s, 1, 2 ^ 30 + 4080⟩ ⟨.str8 [98], 1, 32⟩ = true := by
    have hbytes : concatBytes (.str8 s) (.str8 [98]) = 2 ^ 30 + 17 := by
      rw [concatBytes, hlen]
      rfl
    show (_ && decide (concatBytes (.str8 s) (.str8 [98]) ≤ 2 ^ 30 + 4080)) = true
    rw [hbytes]
    rfl
  obtain ⟨j, hj, hvalues⟩ := reachable_inPlace ⟨hlen.le, Nat.one_ne_zero⟩ ⟨by decide, Nat.one_ne_zero⟩ (by decide) hplace
  refine ⟨j, hj, fun hright => ?_⟩
  have hlimited := hright.limited.1
  rw [hvalues] at hlimited
  have hlong := hlimited _ (.tail _ (.tail _ (.head _)))
  rw [List.length_append, length_units, hlen] at hlong
  exact absurd hlong (by decide)

end QuickJs.JSString
