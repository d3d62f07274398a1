import QuickJs.JsxProgress

/-!
# The code of an element

The code of an element leaves one value: three values for the function, the tag and the object, no value for an
attribute, one for a child, and the instructions that make one of all these. The names in the code play no part,
they may be set afterwards.

That holds in a run in which no element inside of another one fails, no element has too many children, and the name
of an attribute is not looked at when there is none.
-/

namespace QuickJs.Jsx

open Hoare

/-! ## Code without names -/

/-- The instruction with another name. -/
def Instr.erase : Instr → Instr
  | setName _ => setName 0
  | defineClass _ => defineClass 0
  | i => i

def skeleton (code : List Instr) : List Instr := code.map Instr.erase

theorem skeleton_append (c l : List Instr) : skeleton (c ++ l) = skeleton c ++ skeleton l := List.map_append

theorem Instr.effect_erase (i : Instr) : i.erase.effect = i.effect := by
  cases i <;> rfl

theorem effect_skeleton (code : List Instr) : effect (skeleton code) = effect code := by
  rw [effect, skeleton, List.map_map]
  congr 1
  exact List.map_congr_left fun i _ => i.effect_erase

theorem effect_nil : effect [] = 0 := rfl

theorem effect_append (c l : List Instr) : effect (c ++ l) = effect c + effect l := by
  rw [effect, effect, effect, List.map_append, List.sum_append]

/-- Pieces that have the same effect. -/
theorem effect_flatten {d : ℤ} {ls : List (List Instr)} (h : ∀ l ∈ ls, effect l = d) :
    effect ls.flatten = ls.length * d := by
  induction ls with
  | nil => simp [effect_nil]
  | cons l ls ih =>
    rw [List.flatten_cons, effect_append, h l List.mem_cons_self, ih fun l' hl' => h l' (List.mem_cons_of_mem l hl'),
      List.length_cons]
    push_cast
    ring

theorem erase_renameClass (name : Atom) (i : Instr) : (i.renameClass name).erase = i.erase := by
  cases i <;> rfl

theorem skeleton_modify (code : List Instr) (n : ℕ) (name : Atom) :
    skeleton (code.modify n (Instr.renameClass name)) = skeleton code := by
  induction code generalizing n with
  | nil => simp
  | cons i code ih =>
    cases n with
    | zero => simp [skeleton, erase_renameClass]
    | succ n =>
      rw [List.modify_succ_cons, skeleton, List.map_cons]
      exact congrArg _ (ih n)

/-- To set the name of a function changes nothing else. -/
theorem skeleton_renameLast (name : Atom) (code : List Instr) : skeleton (renameLast name code) = skeleton code := by
  rw [renameLast]
  split
  · rename_i a hlast
    have hcode : code.dropLast ++ [.setName a] = code := List.dropLast_append_getLast? _ hlast
    conv_rhs => rw [← hcode]
    rw [skeleton_append, skeleton_append]
    rfl
  · exact skeleton_modify code _ name
  · rfl

/-- The code of an element: the function, the tag and the object; the attributes; the children; and the call. -/
def Element (code : List Instr) : Prop :=
  ∃ (head : List Instr) (attrs kids : List (List Instr)), code = head ++ attrs.flatten ++ kids.flatten ++ [.arrayFrom kids.length, .call 3] ∧
    effect head = 3 ∧ (∀ l ∈ attrs, effect l = 0) ∧ ∀ l ∈ kids, effect l = 1

theorem Element.effect {code : List Instr} (h : Element code) : effect code = 1 := by
  obtain ⟨head, attrs, kids, rfl, hhead, hattrs, hkids⟩ := h
  have hend : Jsx.effect [.arrayFrom kids.length, .call 3] = 1 - kids.length - 3 := by
    simp [Jsx.effect, Instr.effect]
    ring
  rw [effect_append, effect_append, effect_append, hhead, effect_flatten hattrs, effect_flatten hkids, hend]
  ring

/-! ## What the parts of the parser emit -/

variable {ω α β : Type} {sc : Scanner ω} {c : List Instr} {r : Atom → ℤ} {name : Atom} {k : ℕ} {d d' : ℤ}

/-- The state of a call between its parts: the code without names, the references to the names of attributes, and
the variables that matter. -/
structure At (c : List Instr) (r : Atom → ℤ) (name : Atom) (k : ℕ) (a : Activation ω) : Prop where
  code : skeleton a.code = c
  refs : a.refs = r
  attrName : a.attrName = name
  kidsCount : a.kidsCount = k
  exception : a.exception = none

/-- A part that emits code of effect `d`. Where it fails, no reference has been taken. -/
def Emits (d : ℤ) (x : Parse ω α) : Prop :=
  ∀ c r name k, Triple (At c r name k) x (fun _ a => ∃ l, effect l = d ∧ At (c ++ l) r name k a)
    (fun _ a => a.refs = r)

/-- A part that emits no code. -/
def Silent (x : Parse ω α) : Prop :=
  ∀ c r name k, Triple (At c r name k) x (fun _ => At c r name k) (fun _ a => a.refs = r)

/-- A part that emits the code of some children and counts them. -/
def EmitsKids (x : Parse ω α) : Prop :=
  ∀ c r name k, Triple (At c r name k) x
    (fun _ a => ∃ kids : List (List Instr), (∀ l ∈ kids, effect l = 1) ∧
      At (c ++ kids.flatten) r name (k + kids.length) a)
    (fun _ a => a.refs = r)

variable {x : Parse ω α}

theorem Silent.emits (h : Silent x) : Emits 0 x := fun c r name k =>
  (h c r name k).mono (fun _ h => h) (fun _ _ h => ⟨[], rfl, by rwa [List.append_nil]⟩) fun _ _ h => h

theorem Silent.emitsKids (h : Silent x) : EmitsKids x := fun c r name k =>
  (h c r name k).mono (fun _ h => h) (fun _ _ h => ⟨[], nofun, by simpa using h⟩) fun _ _ h => h

theorem Silent.bind {f : α → Parse ω β} (hx : Silent x) (hf : ∀ b, Silent (f b)) :
    Silent (x >>= f) := fun c r name k => (hx c r name k).bind fun b => hf b c r name k

/-- The code of one part after the code of another. -/
theorem Emits.bind {e i : ℤ} {f : α → Parse ω β} (hd : d + i = e) (hx : Emits d x)
    (hf : ∀ b, Emits i (f b)) : Emits e (x >>= f) := by
  subst hd
  refine fun c r name k => (hx c r name k).bind fun b a h => ?_
  obtain ⟨l, hl, h⟩ := h
  refine (hf b _ r name k).mono (fun _ h => h) (fun _ _ h => ?_) (fun _ _ h => h) a h
  obtain ⟨l', hl', h⟩ := h
  exact ⟨l ++ l', by rw [effect_append, hl, hl'], by rwa [← List.append_assoc]⟩

theorem EmitsKids.bind {f : α → Parse ω β} (hx : EmitsKids x) (hf : ∀ b, EmitsKids (f b)) :
    EmitsKids (x >>= f) := by
  refine fun c r name k => (hx c r name k).bind fun b a h => ?_
  obtain ⟨kids, hkids, h⟩ := h
  refine (hf b _ r name _).mono (fun _ h => h) (fun _ _ h => ?_) (fun _ _ h => h) a h
  obtain ⟨kids', hkids', h⟩ := h
  refine ⟨kids ++ kids', fun l hl => (List.mem_append.mp hl).elim (hkids l) (hkids' l), ?_⟩
  rwa [List.flatten_append, ← List.append_assoc, List.length_append, ← Nat.add_assoc]

theorem Silent.pure (b : α) : Silent (pure b : Parse ω α) := fun _ _ _ _ => Triple.pure fun _ h => h

theorem Silent.throw (message : String) : Silent (throw message : Parse ω α) :=
  fun _ _ _ _ => Triple.throw fun _ h => h.refs

theorem Silent.get {f : Activation ω → Parse ω β} (hf : ∀ a, Silent (f a)) : Silent (get >>= f) :=
  fun c r name k => Triple.get fun a h => (hf a c r name k).from h

theorem Emits.get {f : Activation ω → Parse ω β} (hf : ∀ a, Emits d (f a)) : Emits d (get >>= f) :=
  fun c r name k => Triple.get fun a h => (hf a c r name k).from h

theorem silent_nextToken (web : Bool) : Silent (nextToken sc web) := by
  intro c r name k a h
  rw [nextToken]
  cases sc.nextToken web a.world with
  | mk tok w =>
    cases tok with
    | none => exact h.refs
    | some tok => exact ⟨h.code, h.refs, h.attrName, h.kidsCount, h.exception⟩

theorem silent_text : Silent (text sc) := by
  intro c r name k a h
  rw [text]
  cases sc.text a.world with
  | mk t w =>
    cases t with
    | none => exact h.refs
    | some t => exact ⟨h.code, h.refs, h.attrName, h.kidsCount, h.exception⟩

theorem silent_alloc : Silent (alloc sc) := by
  intro c r name k a h
  rw [alloc]
  cases sc.allocFails a.world with
  | mk fails w =>
    cases fails with
    | true => exact h.refs
    | false => exact ⟨h.code, h.refs, h.attrName, h.kidsCount, h.exception⟩

theorem silent_expect (ch : Char) (message : String) : Silent (expect (ω := ω) ch message) := by
  refine Silent.get fun a => ?_
  split
  · exact .pure ()
  · exact .throw message

theorem silent_setTokenRead (b : Bool) : Silent (setTokenRead (ω := ω) b) :=
  fun _ _ _ _ => Triple.modify fun _ h => ⟨h.code, h.refs, h.attrName, h.kidsCount, h.exception⟩

theorem silent_setTagAtom (atom : Atom) : Silent (setTagAtom (ω := ω) atom) :=
  fun _ _ _ _ => Triple.modify fun _ h => ⟨h.code, h.refs, h.attrName, h.kidsCount, h.exception⟩

theorem silent_setObjectName (name : Atom) : Silent (setObjectName (ω := ω) name) :=
  fun _ _ _ _ => Triple.modify fun a h =>
    ⟨(skeleton_renameLast name a.code).trans h.code, h.refs, h.attrName, h.kidsCount, h.exception⟩

theorem emits_emit (i : Instr) : Emits i.effect (emit (ω := ω) i) := by
  refine fun c r name k => Triple.modify fun a h => ⟨[i.erase], ?_, ?_, h.refs, h.attrName, h.kidsCount, h.exception⟩
  · simp [effect, i.effect_erase]
  · rw [skeleton_append, h.code]
    rfl

theorem emits_emitPushConst : Emits 1 (emitPushConst sc) :=
  .bind (zero_add 1) silent_alloc.emits fun _ => emits_emit .pushConst

theorem emits_parsed {f : Token → ω → Parsed ω} (hf : ∀ {tok w}, (f tok w).ok → effect (f tok w).code = 1) :
    Emits 1 (parsed f) := by
  intro c r name k a h
  rw [parsed]
  cases hr : (f a.token a.world).ok with
  | false => exact h.refs
  | true =>
    refine ⟨skeleton (f a.token a.world).code, ?_, ?_, h.refs, h.attrName, h.kidsCount, h.exception⟩
    · rw [effect_skeleton, hf hr]
    · rw [skeleton_append, h.code]

theorem emits_assignExpr : Emits 1 (assignExpr sc) := emits_parsed fun h => (sc.assignExpr_ok h).2

theorem emits_template : Emits 1 (template sc) := emits_parsed fun h => (sc.template_ok h).2

/-- A part that counts one child and emits nothing. -/
def Counts (x : Parse ω α) : Prop :=
  ∀ c r name k, Triple (At c r name k) x (fun _ => At c r name (k + 1)) (fun _ a => a.refs = r)

theorem counts_addKid : Counts (addKid (ω := ω)) := fun _ _ _ _ => Triple.modify fun _ h =>
  ⟨h.code, h.refs, h.attrName, congrArg (· + 1) h.kidsCount, h.exception⟩

theorem Silent.counts {f : α → Parse ω β} (hx : Silent x) (hf : ∀ b, Counts (f b)) :
    Counts (x >>= f) := fun c r name k => (hx c r name k).bind fun b => hf b c r name k

theorem Counts.silent {f : α → Parse ω β} (hx : Counts x) (hf : ∀ b, Silent (f b)) :
    Counts (x >>= f) := fun c r name k => (hx c r name k).bind fun b => hf b c r name (k + 1)

/-- The code of a child, and the child is counted. -/
theorem Emits.counts {f : α → Parse ω β} (hx : Emits 1 x) (hf : ∀ b, Counts (f b)) : EmitsKids (x >>= f) := by
  refine fun c r name k => (hx c r name k).bind fun b a h => ?_
  obtain ⟨l, hl, h⟩ := h
  refine (hf b _ r name k).mono (fun _ h => h) (fun _ _ h => ?_) (fun _ _ h => h) a h
  exact ⟨[l], fun l' hl' => by rw [List.mem_singleton.mp hl', hl], by simpa using h⟩

theorem Silent.emits_bind {f : α → Parse ω β} (hx : Silent x) (hf : ∀ b, Emits d (f b)) :
    Emits d (x >>= f) := .bind (zero_add d) hx.emits hf

theorem Emits.bind_silent {f : α → Parse ω β} (hx : Emits d x) (hf : ∀ b, Silent (f b)) :
    Emits d (x >>= f) := .bind (add_zero d) hx fun b => (hf b).emits

theorem emits_emitTag (atom : Atom) : Emits 1 (emitTag sc atom) := by
  rw [emitTag]
  split
  · exact emits_emit (.scopeGetVar atom)
  · exact emits_emitPushConst

theorem emits_parseTag : Emits 3 (parseTag sc) := by
  refine (silent_nextToken true).emits_bind fun _ => Emits.get fun a => ?_
  split
  · refine (silent_setTagAtom _).emits_bind fun _ => ?_
    refine .bind (i := 2) (by decide) (emits_emit (.getVar jsAtomJSX)) fun _ => ?_
    refine .bind (i := 1) (by decide) (emits_emitTag _) fun _ => (silent_nextToken true).emits_bind fun _ => ?_
    exact (emits_emit .object).bind_silent fun _ => .pure _
  · exact fun c r name k => Triple.throw fun _ h => h.refs

theorem emits_parseAttrValue : Emits 1 (parseAttrValue sc) := by
  refine Emits.get fun a => ?_
  split
  · exact emits_emitPushConst
  · exact emits_template.bind_silent fun _ => silent_setTokenRead true
  · exact (silent_nextToken false).emits_bind fun _ => emits_assignExpr.bind_silent fun _ => silent_expect _ _
  · exact emits_emitPushConst
  · exact emits_emit .pushFalse
  · exact emits_emit .pushTrue
  · exact emits_emit .null
  · exact fun c r name k => Triple.throw fun _ h => h.refs

theorem emits_parseAttrInit : Emits 1 (parseAttrInit sc) := by
  refine Emits.get fun a => ?_
  split
  · exact (silent_setTokenRead false).emits_bind fun _ => (silent_nextToken false).emits_bind fun _ =>
      emits_parseAttrValue
  · exact (silent_setTokenRead true).emits_bind fun _ => emits_emitPushConst

theorem emits_parseSpread : Emits 0 (parseSpread sc) := by
  refine (silent_nextToken false).emits_bind fun _ => .bind (i := -1) (by decide) emits_assignExpr fun _ => ?_
  refine (silent_expect _ _).emits_bind fun _ => .bind (i := -2) (by decide) (emits_emit .null) fun _ => ?_
  refine .bind (i := -2) (by decide) (emits_emit (.copyDataProperties 6)) fun _ => ?_
  refine .bind (i := -1) (by decide) (emits_emit .drop) fun _ => (emits_emit .drop).bind_silent fun _ => ?_
  exact (silent_nextToken true).bind fun _ => .pure _

/-- The field takes the value, and the name is released. -/
theorem defineAttr_at (c : List Instr) (r : Atom → ℤ) (name : Atom) (k : ℕ) :
    Triple (At c r name k) (defineAttr sc)
      (fun _ a => ∃ l, effect l = -1 ∧ At (c ++ l) (addRef name (-1) r) name k a)
      (fun _ a => a.refs = addRef name (-1) r) := by
  let field : List Instr := [.defineField name]
  refine Triple.get fun a h => Triple.from (P := At c r name k) ?_ h
  refine Triple.bind (Q := fun _ => At c r name k)
    (fun a h => silent_setObjectName _ c r name k a h) fun _ => ?_
  refine Triple.get fun a h => Triple.from (P := At c r name k) ?_ h
  rw [h.attrName]
  refine Triple.bind (Q := fun _ => At (c ++ field) r name k) (Triple.modify fun a h => ?_) fun _ => ?_
  · exact ⟨by rw [skeleton_append, h.code]; rfl, h.refs, h.attrName, h.kidsCount, h.exception⟩
  refine Triple.bind (Q := fun _ => At (c ++ field) (addRef name (-1) r) name k)
    (Triple.modify fun a h => ?_) fun _ => ?_
  · exact ⟨h.code, by rw [← h.refs, ← h.attrName], h.attrName, h.kidsCount, h.exception⟩
  refine Triple.get fun a h => Triple.from (P := At (c ++ field) (addRef name (-1) r) name k) ?_ h
  have hnext : Silent (if a.tokenRead = true then pure () else nextToken sc true) := by
    split
    · exact .pure ()
    · exact silent_nextToken true
  exact (hnext _ _ _ _).mono (fun _ h => h) (fun _ _ h => ⟨field, rfl, h⟩) fun _ _ h => h

/-- An attribute whose name may have been taken adds no value, and the name is released. -/
theorem parseAttrRest_at (c : List Instr) (r : Atom → ℤ) (name : Atom) (k : ℕ) :
    Triple (At c r name k) (parseAttrRest sc)
      (fun _ a => ∃ l, effect l = 0 ∧ At (c ++ l) (addRef name (-1) r) name k a)
      (fun _ a => a.refs = r ∨ a.refs = addRef name (-1) r) := by
  refine Triple.bind ((emits_parseAttrInit c r name k).mono (fun _ h => h) (fun _ _ h => h) fun _ _ h => .inl h)
    fun _ a h => ?_
  obtain ⟨l, hl, h⟩ := h
  refine Triple.bind ((defineAttr_at (c ++ l) r name k).mono (fun _ h => h) (fun _ _ h => h) fun _ _ h => .inr h)
    (fun _ => Triple.pure fun a h => ?_) a h
  obtain ⟨l', hl', h⟩ := h
  exact ⟨l ++ l', by rw [effect_append, hl, hl']; rfl, by rwa [← List.append_assoc]⟩

/-- A token that ends a tag, or starts an attribute that has a name or none in the source. -/
def Token.startsAttr : Token → Bool
  | char '>' | char '/' | char '{' | ident _ _ => true
  | _ => false

theorem addRef_cancel (name : Atom) (r : Atom → ℤ) : addRef name (-1) (addRef name 1 r) = r := by
  rw [addRef, addRef]
  split
  · rfl
  · funext a
    by_cases ha : a = name
    · simp
    · simp

/-- A round of the loop of the attributes leaves the stack and the references as they are. -/
theorem parseAttr_at (tok : Token) (c : List Instr) (r : Atom → ℤ) (name : Atom) (k : ℕ)
    (hname : tok.startsAttr = true ∨ name = 0) :
    Triple (fun a => a.token = tok ∧ At c r name k a) (parseAttr sc)
      (fun _ a => ∃ l name', effect l = 0 ∧ At (c ++ l) r name' k a)
      (fun _ a => tok.isIdent = false → a.refs = r) := by
  have hsilent (a : Activation ω) (h : At c r name k a) :
      ∃ l name', effect l = 0 ∧ At (c ++ l) r name' k a := ⟨[], name, rfl, by rwa [List.append_nil]⟩
  refine Triple.get fun a ha => ?_
  obtain ⟨htok, h⟩ := ha
  rw [htok]
  refine Triple.from ?_ h
  split
  · exact Triple.pure hsilent
  · have hclose : Silent (nextToken sc false >>= fun _ => expect '>' "expecting '>'" >>= fun _ =>
        (pure (.phase .close) : Parse ω Next)) :=
      (silent_nextToken false).bind fun _ => (silent_expect _ _).bind fun _ => .pure _
    exact (hclose c r name k).mono (fun _ h => h) (fun _ => hsilent) fun _ _ h _ => h
  · refine (emits_parseSpread c r name k).mono (fun _ h => h) (fun _ a h => ?_) fun _ _ h _ => h
    obtain ⟨l, hl, h⟩ := h
    exact ⟨l, name, hl, h⟩
  · rename_i atom word
    refine Triple.bind (Q := fun _ => At c (addRef atom 1 r) atom k) (Triple.modify fun a h => ?_) fun _ => ?_
    · exact ⟨h.code, by rw [← h.refs], rfl, h.kidsCount, h.exception⟩
    refine Triple.bind ((silent_nextToken false c (addRef atom 1 r) atom k).mono (fun _ h => h) (fun _ _ h => h)
      fun _ _ _ h => by cases h) fun _ => ?_
    refine (parseAttrRest_at c (addRef atom 1 r) atom k).mono (fun _ h => h) (fun _ a h => ?_) fun _ _ _ h => by cases h
    obtain ⟨l, hl, h⟩ := h
    rw [addRef_cancel] at h
    exact ⟨l, atom, hl, h⟩
  · rename_i hgt hslash hbrace hident
    have hzero : name = 0 := by
      refine hname.resolve_left fun h => ?_
      unfold Token.startsAttr at h
      split at h
      · exact hgt rfl
      · exact hslash rfl
      · exact hbrace rfl
      · exact hident _ _ rfl
      · cases h
    have hrefs : addRef name (-1) r = r := by rw [addRef, if_pos hzero]
    refine (parseAttrRest_at c r name k).mono (fun _ h => h) (fun _ a h => ?_) fun _ _ h _ => ?_
    · obtain ⟨l, hl, h⟩ := h
      rw [hrefs] at h
      exact ⟨l, name, hl, h⟩
    · exact h.elim id fun h => h.trans hrefs

theorem emitsKids_emitText (t : Text) : EmitsKids (emitText sc t) := by
  cases t with
  | blank => exact (Silent.pure ()).emitsKids
  | atom a => exact silent_alloc.emitsKids.bind fun _ => (emits_emit (.pushAtomValue a)).counts fun _ => counts_addKid
  | constant => exact silent_alloc.emitsKids.bind fun _ => emits_emitPushConst.counts fun _ => counts_addKid

theorem silent_parseTail : Silent (parseTail sc) := by
  refine (silent_nextToken false).bind fun _ => (silent_nextToken true).bind fun _ => Silent.get fun a => ?_
  split
  · refine Silent.get fun a => ?_
    dsimp only
    split
    · exact .throw _
    · exact (silent_nextToken false).bind fun _ => (silent_expect _ _).bind fun _ => .pure _
  · exact .pure _

theorem EmitsKids.get {f : Activation ω → Parse ω β} (hf : ∀ a, EmitsKids (f a)) : EmitsKids (get >>= f) :=
  fun c r name k => Triple.get fun a h => (hf a c r name k).from h

/-- A round of the loop of the children counts the values that it adds. -/
theorem emitsKids_parseKid : EmitsKids (parseKid sc) := by
  refine silent_text.emitsKids.bind fun t => (emitsKids_emitText t).bind fun _ => ?_
  refine (silent_nextToken false).emitsKids.bind fun _ => EmitsKids.get fun a => ?_
  split
  · refine EmitsKids.get fun a => ?_
    split
    · exact silent_parseTail.emitsKids
    · exact (Silent.pure _).emitsKids
  · refine (silent_nextToken false).emitsKids.bind fun _ => emits_assignExpr.counts fun _ => ?_
    exact (silent_expect _ _).counts fun _ => counts_addKid.silent fun _ => .pure _
  · exact (Silent.pure _).emitsKids

/-- The call of the function, with the children in an array. -/
theorem parseClose_at (level : ℕ) (c : List Instr) (r : Atom → ℤ) (name : Atom) (k : ℕ) :
    Triple (At c r name k) (parseClose sc level)
      (fun _ => At (c ++ [.arrayFrom (k % 2 ^ 16), .call 3]) r name k) (fun _ a => a.refs = r) := by
  refine Triple.get fun a h => Triple.from (P := At c r name k) ?_ h
  rw [h.kidsCount]
  refine Triple.bind (Q := fun _ => At (c ++ [.arrayFrom (k % 2 ^ 16)]) r name k) (Triple.modify fun a h => ?_)
    fun _ => ?_
  · exact ⟨by rw [skeleton_append, h.code]; rfl, h.refs, h.attrName, h.kidsCount, h.exception⟩
  refine Triple.bind (Q := fun _ => At (c ++ [.arrayFrom (k % 2 ^ 16), .call 3]) r name k)
    (Triple.modify fun a h => ?_) fun _ => ?_
  · exact ⟨by rw [skeleton_append, h.code, List.append_assoc]; rfl, h.refs, h.attrName, h.kidsCount, h.exception⟩
  have hafter : Silent (afterElement sc level) := by
    rw [afterElement]
    split
    · exact silent_nextToken false
    · exact .pure ()
  exact (hafter.bind fun _ => .pure _) _ r name k

/-! ## Rounds -/

/-- The code that a call has emitted so far, and the count of its children. -/
def Part (p : Phase) (k : ℕ) (l : List Instr) : Prop :=
  match p with
  | .tag => l = [] ∧ k = 0
  | .attrs => ∃ (head : List Instr) (attrs : List (List Instr)), l = head ++ attrs.flatten ∧ effect head = 3 ∧
      (∀ a ∈ attrs, effect a = 0) ∧ k = 0
  | .kids | .close => ∃ (head : List Instr) (attrs kids : List (List Instr)),
      l = head ++ attrs.flatten ++ kids.flatten ∧ effect head = 3 ∧ (∀ a ∈ attrs, effect a = 0) ∧
      (∀ a ∈ kids, effect a = 1) ∧ k = kids.length

/-- The references that are held between the rounds. -/
def noRefs : Atom → ℤ := fun _ => 0

/-- A call after a round: what it has emitted behind the code `outer` of the calls around it. -/
structure After (outer : List Instr) (good : ℕ → List Instr → Prop) (a : Activation ω) : Prop where
  code : ∃ l, skeleton a.code = outer ++ l ∧ good a.kidsCount l
  refs : a.refs = noRefs
  exception : a.exception = none

/-- What a round leaves behind. -/
def RoundEnd (outer : List Instr) (next : Next) (a : Activation ω) : Prop :=
  match next with
  | .phase p => After outer (Part p) a
  | .nested => After outer (Part .kids) a
  | .done => After outer (fun _ => Element) a

variable {outer : List Instr} {l : List Instr}

theorem At.after {g : ℕ → List Instr → Prop} {a : Activation ω} (h : At (outer ++ l) noRefs name k a)
    (hl : g k l) : After outer g a := ⟨⟨l, h.code, h.kidsCount ▸ hl⟩, h.refs, h.exception⟩

theorem roundEnd_parseTag (hl : Part .tag k l) :
    Triple (At (outer ++ l) noRefs name k) (parseTag sc) (RoundEnd outer) (fun _ a => a.refs = noRefs) := by
  obtain ⟨rfl, rfl⟩ := hl
  intro a h
  have hemits : Emits 3 (parseTag sc) := emits_parseTag
  have hspec := ((hemits _ _ name 0).and (parseTag_spec (a.left sc) (sc.remaining a.world))) a
    ⟨h, Nat.le_refl _, Nat.le_refl _⟩
  generalize parseTag sc a = o at hspec
  cases o with
  | error message a' => exact hspec.1
  | ok next a' =>
    obtain ⟨⟨head, hhead, h⟩, rfl, -⟩ := hspec
    rw [List.append_nil] at h
    exact h.after (g := Part .attrs) ⟨head, [], by simp, hhead, nofun, rfl⟩

theorem part_kids (h : Part .attrs k l) : Part .kids k l ∧ Part .close k l := by
  obtain ⟨head, attrs, rfl, hhead, hattrs, rfl⟩ := h
  exact ⟨⟨head, attrs, [], by simp, hhead, hattrs, nofun, rfl⟩, ⟨head, attrs, [], by simp, hhead, hattrs, nofun, rfl⟩⟩

theorem parseAttr_next : Triple (fun _ => True) (parseAttr sc)
      (fun next _ => next = .phase .attrs ∨ next = .phase .kids ∨ next = .phase .close) (fun _ _ => True) := by
  have hrest : Triple (fun _ => True) (parseAttrRest sc)
      (fun next _ => next = .phase .attrs ∨ next = .phase .kids ∨ next = .phase .close) (fun _ _ => True) :=
    (Triple.trivial _).bind fun _ => (Triple.trivial _).bind fun _ => Triple.pure fun _ _ => .inl rfl
  refine Triple.get fun a _ => Triple.from (P := fun _ => True) ?_ True.intro
  split
  · exact Triple.pure fun _ _ => .inr (.inl rfl)
  · exact (Triple.trivial _).bind fun _ => (Triple.trivial _).bind fun _ => Triple.pure fun _ _ => .inr (.inr rfl)
  · refine (Triple.trivial _).bind fun _ => (Triple.trivial _).bind fun _ => (Triple.trivial _).bind fun _ => ?_
    refine (Triple.trivial _).bind fun _ => (Triple.trivial _).bind fun _ => (Triple.trivial _).bind fun _ => ?_
    exact (Triple.trivial _).bind fun _ => (Triple.trivial _).bind fun _ => Triple.pure fun _ _ => .inl rfl
  · exact (Triple.trivial _).bind fun _ => (Triple.trivial _).bind fun _ => hrest.mono (fun _ _ => True.intro)
      (fun _ _ h => h) fun _ _ h => h
  · exact hrest

theorem roundEnd_parseAttr {tok : Token} (hl : Part .attrs k l) (hname : tok.startsAttr = true ∨ name = 0) :
    Triple (fun a => a.token = tok ∧ At (outer ++ l) noRefs name k a) (parseAttr sc) (RoundEnd outer)
      (fun _ a => tok.isIdent = false → a.refs = noRefs) := by
  obtain ⟨head, attrs, rfl, hhead, hattrs, rfl⟩ := hl
  have hpart (attr : List Instr) (hattr : effect attr = 0) : Part .attrs 0 (head ++ attrs.flatten ++ attr) := by
    refine ⟨head, attrs ++ [attr], by simp, hhead, fun a ha => ?_, rfl⟩
    rcases List.mem_append.mp ha with ha | ha
    · exact hattrs a ha
    · rw [List.mem_singleton.mp ha, hattr]
  refine ((parseAttr_at tok _ noRefs name 0 hname).and parseAttr_next).mono (fun _ h => ⟨h, True.intro⟩)
    (fun next a h => ?_) fun _ _ h => h.1
  obtain ⟨⟨attr, name', hattr, h⟩, hnext⟩ := h
  rw [List.append_assoc] at h
  have hkids := part_kids (hpart attr hattr)
  rcases hnext with rfl | rfl | rfl
  · exact h.after (g := Part .attrs) (hpart attr hattr)
  · exact h.after (g := Part .kids) hkids.1
  · exact h.after (g := Part .close) hkids.2

theorem roundEnd_parseKid (hl : Part .kids k l) :
    Triple (At (outer ++ l) noRefs name k) (parseKid sc) (RoundEnd outer) (fun _ a => a.refs = noRefs) := by
  obtain ⟨head, attrs, kids, rfl, hhead, hattrs, hkids, rfl⟩ := hl
  intro a h
  have hemits : EmitsKids (parseKid sc) := emitsKids_parseKid
  have hspec := ((hemits _ _ name kids.length).and (parseKid_spec (sc.remaining a.world))) a
    ⟨h, Nat.le_succ _⟩
  generalize parseKid sc a = o at hspec
  cases o with
  | error message a' => exact hspec.1
  | ok next a' =>
    obtain ⟨⟨kids', hkids', h⟩, hnext, -⟩ := hspec
    have hpart : Part .kids (kids.length + kids'.length) (head ++ attrs.flatten ++ kids.flatten ++ kids'.flatten) :=
      ⟨head, attrs, kids ++ kids', by simp, hhead, hattrs,
        fun a ha => (List.mem_append.mp ha).elim (hkids a) (hkids' a), by simp⟩
    rw [List.append_assoc] at h
    rcases hnext with rfl | rfl | rfl
    · exact h.after (g := Part .kids) hpart
    · exact h.after (g := Part .close) hpart
    · exact h.after (g := Part .kids) hpart

theorem roundEnd_parseClose {level : ℕ} (hl : Part .close k l) (hk : k < 2 ^ 16) :
    Triple (At (outer ++ l) noRefs name k) (parseClose sc level) (RoundEnd outer) (fun _ a => a.refs = noRefs) := by
  obtain ⟨head, attrs, kids, rfl, hhead, hattrs, hkids, rfl⟩ := hl
  intro a h
  have hclose := @parseClose_at _ sc level (outer ++ (head ++ attrs.flatten ++ kids.flatten)) noRefs name kids.length
  have hspec := (hclose.and
    (parseClose_spec level (a.left sc) (sc.remaining a.world))) a ⟨h, Nat.le_refl _, Nat.le_refl _⟩
  generalize parseClose sc level a = o at hspec
  cases o with
  | error message a' => exact hspec.1
  | ok next a' =>
    obtain ⟨h, rfl, -⟩ := hspec
    rw [Nat.mod_eq_of_lt hk, List.append_assoc] at h
    exact h.after (g := fun _ => Element) ⟨head, attrs, kids, rfl, hhead, hattrs, hkids⟩

/-! ## Runs -/

/-- The code of the calls that have not returned, the innermost one last. -/
def Pieces (pre : List Instr) : List Frame → List Instr → Prop
  | [], c => c = pre
  | f :: fs, c => ∃ outer part, c = outer ++ part ∧ Part f.phase f.kidsCount part ∧ Pieces pre fs outer

/-- What holds between the rounds of a run. -/
structure Inv (pre : List Instr) (m : Machine ω) : Prop where
  waiting : Waiting m
  refs : m.refs = noRefs
  running : m.result = none → m.exception = none ∧ Pieces pre m.frames (skeleton m.code)
  returned : m.result = some true → m.exception = none ∧ ∃ l, skeleton m.code = pre ++ l ∧ Element l
  halted : m.result ≠ none → m.frames = []

/-- The round that comes next does not go wrong: an attribute has a name, or none has had one before; no call fails
inside of another one, and none while it holds the name of an attribute; and there are not too many children. -/
structure Careful (sc : Scanner ω) (m : Machine ω) (f : Frame) (fs : List Frame) : Prop where
  name : f.phase = .attrs → m.token.startsAttr = true ∨ f.attrName = 0
  fails : ∀ message a, round sc f.phase fs.length ⟨m.toJSParseState, f.toLocals⟩ = .error message a →
    fs = [] ∧ (f.phase = .attrs → m.token.isIdent = false)
  count : f.phase = .close → f.kidsCount < 2 ^ 16

variable {m : Machine ω} {f : Frame} {fs : List Frame} {pre : List Instr}

/-- The end of a round of the innermost call. -/
theorem roundEnd_round (hcareful : Careful sc m f fs) (hpart : Part f.phase f.kidsCount l)
    (hcode : skeleton m.code = outer ++ l) (hrefs : m.refs = noRefs) (hexception : m.exception = none) :
    Triple (· = ⟨m.toJSParseState, f.toLocals⟩) (round sc f.phase fs.length) (RoundEnd outer)
      (fun _ a => (f.phase = .attrs → m.token.isIdent = false) → a.refs = noRefs) := by
  have hat : At (outer ++ l) noRefs f.attrName f.kidsCount ⟨m.toJSParseState, f.toLocals⟩ :=
    ⟨hcode, hrefs, rfl, rfl, hexception⟩
  have hcount := hcareful.count
  have hname := hcareful.name
  generalize f.phase = phase at *
  cases phase with
  | tag => exact ((roundEnd_parseTag hpart).from hat).mono (fun _ h => h) (fun _ _ h => h) fun _ _ h _ => h
  | attrs =>
    exact ((roundEnd_parseAttr hpart (hname rfl)).from ⟨rfl, hat⟩).mono (fun _ h => h) (fun _ _ h => h)
      fun _ _ h hident => h (hident rfl)
  | kids => exact ((roundEnd_parseKid hpart).from hat).mono (fun _ h => h) (fun _ _ h => h) fun _ _ h _ => h
  | close =>
    exact ((roundEnd_parseClose hpart (hcount rfl)).from hat).mono (fun _ h => h) (fun _ _ h => h) fun _ _ h _ => h

/-- An element that is a child is counted where it returns. -/
theorem Inv.return {s : JSParseState ω} (hfs : ∀ g ∈ fs, g.phase = .kids) (hpieces : Pieces pre fs outer)
    (hcode : skeleton s.code = outer ++ l) (hl : Element l) (hrefs : s.refs = noRefs) (hexception : s.exception = none) :
    Inv pre (Machine.return s true fs) := by
  cases fs with
  | nil =>
    exact ⟨nofun, hrefs, nofun, fun _ => ⟨hexception, l, hpieces ▸ hcode, hl⟩, fun _ => rfl⟩
  | cons g fs =>
    obtain ⟨outer', part, rfl, hpart, hpieces⟩ := hpieces
    have hg : g.phase = .kids := hfs g List.mem_cons_self
    refine ⟨fun g' hg' => hfs g' (List.mem_cons_of_mem g hg'), hrefs, fun _ => ⟨hexception, outer', part ++ l, ?_, ?_, hpieces⟩,
      nofun, fun h => absurd rfl h⟩
    · rw [← List.append_assoc]
      exact hcode
    · rw [hg] at hpart
      obtain ⟨head, attrs, kids, rfl, hhead, hattrs, hkids, hcount⟩ := hpart
      rw [show ({ g with kidsCount := g.kidsCount + 1 } : Frame).phase = .kids from hg]
      refine ⟨head, attrs, kids ++ [l], by simp, hhead, hattrs, fun a ha => ?_, by simp [hcount]⟩
      rcases List.mem_append.mp ha with ha | ha
      · exact hkids a ha
      · rw [List.mem_singleton.mp ha, hl.effect]

theorem Inv.step (h : Inv pre m) (hcareful : ∀ f fs, m.frames = f :: fs → Careful sc m f fs) :
    Inv pre (m.step sc) := by
  cases hm : m.frames with
  | nil =>
    rw [Machine.step, hm]
    exact h
  | cons f fs =>
    have hcareful := hcareful f fs hm
    have hresult : m.result = none := by
      by_contra hne
      rw [h.halted hne] at hm
      cases hm
    have hfs := h.waiting
    obtain ⟨hexception, hpieces⟩ := h.running hresult
    rw [Waiting, hm] at hfs
    rw [hm] at hpieces
    obtain ⟨outer, l, hcode, hpart, hpieces⟩ := hpieces
    have hround := roundEnd_round hcareful hpart hcode h.refs hexception _ rfl
    have hfails := hcareful.fails
    rw [Machine.step, hm]
    dsimp only
    generalize round sc f.phase fs.length ⟨m.toJSParseState, f.toLocals⟩ = o at hround hfails
    cases o with
    | error message a =>
      obtain ⟨rfl, hident⟩ := hfails message a rfl
      exact ⟨by rintro _ ⟨⟩, hround hident, by rintro ⟨⟩, by rintro ⟨⟩, fun _ => rfl⟩
    | ok next a =>
      cases next with
      | phase p =>
        obtain ⟨⟨l', hl', hpart'⟩, hrefs, hexception⟩ := hround
        exact ⟨hfs, hrefs, fun _ => ⟨hexception, outer, l', hl', hpart', hpieces⟩, by simp, fun h => absurd rfl h⟩
      | nested =>
        obtain ⟨⟨l', hl', hpart'⟩, hrefs, hexception⟩ := hround
        refine ⟨fun g hg => ?_, hrefs, fun _ => ⟨hexception, outer ++ l', [], ?_, ⟨rfl, rfl⟩, ?_⟩, by simp,
          fun h => absurd rfl h⟩
        · rcases List.mem_cons.mp hg with rfl | hg
          · rfl
          · exact hfs g hg
        · rw [List.append_nil]
          exact hl'
        · exact ⟨outer, l', rfl, hpart', hpieces⟩
      | done =>
        obtain ⟨⟨l', hl', helement⟩, hrefs, hexception⟩ := hround
        exact Inv.return hfs hpieces hl' helement hrefs hexception

/-- What the parser promises: the names of attributes that it has taken are released, an element leaves one value and
says how many children it has, and the parser does not succeed after a failure. -/
structure Balanced (code : List Instr) (m : Machine ω) : Prop where
  refs : m.refs = noRefs
  returned : m.result = some true → effect m.code = effect code + 1 ∧
    ∃ l, skeleton m.code = skeleton code ++ l ∧ Element l
  failed : m.exception ≠ none → m.result = some false

theorem Inv.balanced {code : List Instr} (h : Inv (skeleton code) m) : Balanced code m where
  refs := h.refs
  returned hm := by
    obtain ⟨-, l, hl, helement⟩ := h.returned hm
    refine ⟨?_, l, hl, helement⟩
    rw [← effect_skeleton, hl, effect_append, effect_skeleton, helement.effect]
  failed hm := by
    match hresult : m.result with
    | none => exact absurd (h.running hresult).1 hm
    | some true => exact absurd (h.returned hresult).1 hm
    | some false => rfl

/-- In a run in which no round goes wrong, what the parser promises holds after every round. -/
theorem balanced_of_careful (sc : Scanner ω) (w : ω) (code : List Instr) (n : ℕ)
    (hcareful : ∀ i < n, ∀ f fs, ((Machine.start w code).run sc i).frames = f :: fs →
      Careful sc ((Machine.start w code).run sc i) f fs) :
    Balanced code ((Machine.start w code).run sc n) := by
  suffices h : Inv (skeleton code) ((Machine.start w code).run sc n) from h.balanced
  induction n with
  | zero =>
    refine ⟨nofun, rfl, fun _ => ⟨rfl, skeleton code, [], ?_, ⟨rfl, rfl⟩, rfl⟩, nofun, fun h => absurd rfl h⟩
    rw [List.append_nil]
    rfl
  | succ n ih =>
    rw [run_succ]
    exact (ih fun i hi => hcareful i (Nat.lt_succ_of_lt hi)).step (hcareful n (Nat.lt_succ_self n))

/-- `<a b="x">{1}</a>` after the first `<`. -/
def goodTokens : List Token :=
  [.ident 1000 .name, .ident 1001 .name, .char '=', .string, .char '>', .char '{', .number, .char '}', .char '<',
    .char '/', .ident 1000 .name, .char '>']

theorem balanced_good : ((Machine.start goodTokens []).run tokenScanner 6).result = some true ∧
    Balanced [] ((Machine.start goodTokens []).run tokenScanner 6) := by
  refine ⟨rfl, balanced_of_careful tokenScanner goodTokens [] 6 fun i hi f fs hf => ?_⟩
  obtain rfl | rfl | rfl | rfl | rfl | rfl : i = 0 ∨ i = 1 ∨ i = 2 ∨ i = 3 ∨ i = 4 ∨ i = 5 := by omega
  all_goals
    obtain ⟨rfl, rfl⟩ := List.cons.inj hf
    exact ⟨by decide, nofun, by decide⟩

/-- `<a><b =;</a>` after the first `<`. -/
def failingTokens : List Token :=
  [.ident 1000 .name, .char '>', .char '<', .ident 1001 .name, .char '=', .char ';', .char '<', .char '/',
    .ident 1000 .name, .char '>']

/-- The inner element of `<a><b =;</a>` fails, and the outer one succeeds with three values. In `<a b="x" ="y">` the name
of the first attribute is released twice, and it is not released at all where `<a b=;` fails. -/
theorem not_balanced : (((Machine.start failingTokens []).run tokenScanner 7).result = some true ∧
      ((Machine.start failingTokens []).run tokenScanner 7).exception = some "bad attribute value" ∧
      effect ((Machine.start failingTokens []).run tokenScanner 7).code = 3) ∧
    ((Machine.start [.ident 1000 .name, .ident 1001 .name, .char '=', .string, .char '=', .string, .char '>']
      []).run tokenScanner 3).refs 1001 = -1 ∧
    ((Machine.start [.ident 1000 .name, .ident 1001 .name, .char '=', .char ';'] []).run tokenScanner 2).result =
      some false ∧
    ((Machine.start [.ident 1000 .name, .ident 1001 .name, .char '=', .char ';'] []).run tokenScanner 2).refs 1001 = 1 :=
  ⟨⟨rfl, rfl, rfl⟩, rfl, rfl, rfl⟩

end QuickJs.Jsx
