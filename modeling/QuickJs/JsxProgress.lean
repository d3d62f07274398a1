import QuickJs.Hoare
import QuickJs.JsxParser

/-!
# The parser goes on

A round of the loop of the children takes something from the input, or returns. So does a round of the loop of the
attributes, unless it starts at a token that is neither the end of the tag nor the start of an attribute: that one
is taken for an attribute without a name and without a value, and nothing is read.
-/

namespace QuickJs.Jsx

open Hoare

variable {ω : Type} {sc : Scanner ω} {n r : ℕ} {a a' : Activation ω}

/-- What is left of the input. -/
def Activation.left (sc : Scanner ω) (a : Activation ω) : ℕ := Jsx.left (sc.remaining a.world) a.token

/-- At most so much is left of the input, and so many bytes. -/
structure Within (sc : Scanner ω) (n r : ℕ) (a : Activation ω) : Prop where
  left : a.left sc ≤ n
  remaining : sc.remaining a.world ≤ r

/-- What a failure leaves. -/
def Within' (sc : Scanner ω) (r : ℕ) (_ : String) (a : Activation ω) : Prop := sc.remaining a.world ≤ r

/-- A part of the parser that puts nothing back. -/
def Keeps (sc : Scanner ω) {α : Type} (x : Parse ω α) : Prop :=
  ∀ n r, Triple (Within sc n r) x (fun _ => Within sc n r) (Within' sc r)

variable {α β : Type}

theorem Keeps.bind {x : Parse ω α} {f : α → Parse ω β} (hx : Keeps sc x) (hf : ∀ b, Keeps sc (f b)) :
    Keeps sc (x >>= f) := fun n r => (hx n r).bind fun b => hf b n r

theorem Keeps.pure (b : α) : Keeps sc (pure b : Parse ω α) := fun _ _ => Triple.pure fun _ h => h

theorem Keeps.throw (message : String) : Keeps sc (throw message : Parse ω α) :=
  fun _ _ => Triple.throw fun _ h => h.remaining

theorem Keeps.get {f : Activation ω → Parse ω β} (hf : ∀ a, Keeps sc (f a)) : Keeps sc (get >>= f) :=
  fun n r => Triple.get fun a h => (hf a n r).from h

/-- A part of the parser that does not touch the input. -/
theorem Keeps.modify {f : Activation ω → Activation ω} (hw : ∀ a, (f a).world = a.world)
    (ht : ∀ a, (f a).token = a.token) : Keeps sc (modify f) := by
  refine fun n r => Triple.modify fun a h => ⟨?_, ?_⟩
  · rw [Activation.left, hw, ht]
    exact h.left
  · rw [hw]
    exact h.remaining

theorem keeps_emit (i : Instr) : Keeps sc (emit i) := Keeps.modify (fun _ => rfl) fun _ => rfl

theorem keeps_setTagAtom (atom : Atom) : Keeps sc (setTagAtom (ω := ω) atom) :=
  Keeps.modify (fun _ => rfl) fun _ => rfl

theorem keeps_setTokenRead (b : Bool) : Keeps sc (setTokenRead (ω := ω) b) :=
  Keeps.modify (fun _ => rfl) fun _ => rfl

theorem keeps_addKid : Keeps sc (addKid (ω := ω)) := Keeps.modify (fun _ => rfl) fun _ => rfl

theorem keeps_setObjectName (name : Atom) : Keeps sc (setObjectName (ω := ω) name) :=
  Keeps.modify (fun _ => rfl) fun _ => rfl

theorem keeps_freeAttrName : Keeps sc (freeAttrName (ω := ω)) := Keeps.modify (fun _ => rfl) fun _ => rfl

theorem keeps_expect (c : Char) (message : String) : Keeps sc (expect (ω := ω) c message) := by
  refine Keeps.get fun a => ?_
  split
  · exact .pure ()
  · exact .throw message

theorem keeps_alloc : Keeps sc (alloc sc) := by
  intro n r a h
  have hr := sc.alloc_remaining a.world
  rw [alloc]
  cases halloc : sc.allocFails a.world with
  | mk fails w =>
    rw [halloc] at hr
    cases fails with
    | true => exact hr.trans_le h.remaining
    | false => exact ⟨(congrArg (Jsx.left · a.token) hr).trans_le h.left, hr.trans_le h.remaining⟩

theorem keeps_emitPushConst : Keeps sc (emitPushConst sc) := keeps_alloc.bind fun _ => keeps_emit _

theorem left_le (remaining : ℕ) (token : Token) : 2 * remaining ≤ left remaining token := Nat.le_add_right _ _

theorem left_le_succ (remaining : ℕ) (token : Token) : left remaining token ≤ 2 * remaining + 1 := by
  rw [left]
  split <;> omega

variable {tok : Token} {m' : Machine ω}

/-- The next token leaves less, unless the one before was at the end of the input. -/
theorem nextToken_left {web : Bool} {w w' : ω} {tok' : Token} (h : sc.nextToken web w = (some tok', w')) :
    left (sc.remaining w') tok' ≤ left (sc.remaining w) tok ∧
    (tok ≠ .eof → left (sc.remaining w') tok' < left (sc.remaining w) tok) := by
  have h' := left_le_succ (sc.remaining w') tok'
  rcases sc.nextToken_some h with hlt | ⟨h0', h0, rfl⟩
  · have := left_le (sc.remaining w) tok
    constructor
    · omega
    · omega
  · constructor
    · simp [left, h0']
    · intro htok
      simp [left, h0', htok]

theorem keeps_nextToken (web : Bool) : Keeps sc (nextToken sc web) := by
  intro n r a h
  rw [nextToken]
  cases hnext : sc.nextToken web a.world with
  | mk tok w =>
    cases tok with
    | none => exact (sc.nextToken_none hnext).trans h.remaining
    | some tok =>
      refine ⟨(nextToken_left hnext).1.trans h.left, ?_⟩
      have : sc.remaining w ≤ sc.remaining a.world := by
        rcases sc.nextToken_some hnext with hlt | ⟨h0', -, -⟩
        · exact hlt.le
        · exact h0' ▸ Nat.zero_le _
      exact this.trans h.remaining

/-- A token is taken. -/
theorem takes_nextToken (web : Bool) (n r : ℕ) :
    Triple (fun a => a.token ≠ .eof ∧ Within sc (n + 1) r a) (nextToken sc web) (fun _ => Within sc n r)
      (Within' sc r) := by
  rintro a ⟨htok, h⟩
  have hkeeps := keeps_nextToken web (n + 1) r a h
  rw [nextToken] at hkeeps ⊢
  cases hnext : sc.nextToken web a.world with
  | mk tok w =>
    rw [hnext] at hkeeps
    cases tok with
    | none => exact hkeeps
    | some tok =>
      refine ⟨?_, hkeeps.remaining⟩
      have := (nextToken_left hnext).2 htok
      have := h.left
      exact Nat.le_of_lt_succ (Nat.lt_of_lt_of_le (by assumption) (by assumption))

theorem keeps_parsed {f : Token → ω → Parsed ω} (hle : ∀ tok w, sc.remaining (f tok w).world ≤ sc.remaining w)
    (hok : ∀ {tok w}, (f tok w).ok →
      Jsx.left (sc.remaining (f tok w).world) (f tok w).token ≤ Jsx.left (sc.remaining w) tok) :
    Keeps sc (parsed f) := by
  intro n r a h
  rw [parsed]
  cases hr : (f a.token a.world).ok with
  | true => exact ⟨(hok hr).trans h.left, (hle _ _).trans h.remaining⟩
  | false => exact (hle _ _).trans h.remaining

theorem keeps_assignExpr : Keeps sc (assignExpr sc) :=
  keeps_parsed sc.assignExpr_le fun h => (sc.assignExpr_ok h).1

theorem keeps_template : Keeps sc (template sc) := keeps_parsed sc.template_le fun h => (sc.template_ok h).1

/-! ## The rounds -/

theorem keeps_emitTag (atom : Atom) : Keeps sc (emitTag sc atom) := by
  rw [emitTag]
  split
  · exact keeps_emit _
  · exact keeps_emitPushConst

theorem parseTag_spec (n r : ℕ) :
    Triple (Within sc n r) (parseTag sc) (fun next a => next = .phase .attrs ∧ Within sc n r a) (Within' sc r) := by
  refine (keeps_nextToken true n r).bind fun _ => Triple.get fun a h => Triple.from ?_ h
  split
  · refine (keeps_setTagAtom _ n r).bind fun _ => (keeps_emit _ n r).bind fun _ => ?_
    refine (keeps_emitTag _ n r).bind fun _ => (keeps_nextToken true n r).bind fun _ => ?_
    exact (keeps_emit _ n r).bind fun _ => Triple.pure fun _ h => ⟨rfl, h⟩
  · exact Triple.throw fun _ h => h.remaining

theorem keeps_parseAttrValue : Keeps sc (parseAttrValue sc) := by
  refine Keeps.get fun a => ?_
  split
  · exact keeps_emitPushConst
  · exact keeps_template.bind fun _ => keeps_setTokenRead true
  · exact (keeps_nextToken false).bind fun _ => keeps_assignExpr.bind fun _ => keeps_expect _ _
  · exact keeps_emitPushConst
  · exact keeps_emit _
  · exact keeps_emit _
  · exact keeps_emit _
  · exact .throw _

theorem keeps_defineAttr : Keeps sc (defineAttr sc) := by
  refine Keeps.get fun a => (keeps_setObjectName _).bind fun _ => Keeps.get fun a => ?_
  refine (keeps_emit _).bind fun _ => keeps_freeAttrName.bind fun _ => Keeps.get fun a => ?_
  split
  · exact .pure _
  · exact keeps_nextToken true

theorem keeps_parseAttrInit : Keeps sc (parseAttrInit sc) := by
  refine Keeps.get fun a => ?_
  split
  · exact (keeps_setTokenRead false).bind fun _ => (keeps_nextToken false).bind fun _ => keeps_parseAttrValue
  · exact (keeps_setTokenRead true).bind fun _ => keeps_emitPushConst

/-- The loop of the attributes goes on after an attribute. -/
theorem parseAttrRest_spec (n r : ℕ) :
    Triple (Within sc n r) (parseAttrRest sc) (fun next a => next = .phase .attrs ∧ Within sc n r a) (Within' sc r) :=
  (keeps_parseAttrInit n r).bind fun _ => (keeps_defineAttr n r).bind fun _ => Triple.pure fun _ h => ⟨rfl, h⟩

theorem parseSpread_spec (n r : ℕ) : Triple (fun a => a.token ≠ .eof ∧ Within sc (n + 1) r a) (parseSpread sc)
      (fun next a => next = .phase .attrs ∧ Within sc n r a) (Within' sc r) := by
  refine (takes_nextToken false n r).bind fun _ => (keeps_assignExpr n r).bind fun _ => ?_
  refine (keeps_expect _ _ n r).bind fun _ => (keeps_emit _ n r).bind fun _ => (keeps_emit _ n r).bind fun _ => ?_
  refine (keeps_emit _ n r).bind fun _ => (keeps_emit _ n r).bind fun _ => ?_
  exact (keeps_nextToken true n r).bind fun _ => Triple.pure fun _ h => ⟨rfl, h⟩

/-- A token at which a round of the loop of the attributes goes wrong. -/
def Token.isStray : Token → Bool
  | char '>' | char '/' | char '{' | char '=' | ident _ _ => false
  | _ => true

theorem Token.eq_equals (h : tok.isStray = false) (hgt : tok ≠ .char '>') (hslash : tok ≠ .char '/')
    (hbrace : tok ≠ .char '{') (hident : ∀ atom word, tok ≠ .ident atom word) : tok = .char '=' := by
  unfold Token.isStray at h
  split at h
  · exact absurd rfl hgt
  · exact absurd rfl hslash
  · exact absurd rfl hbrace
  · rfl
  · exact absurd rfl (hident _ _)
  · cases h

/-- The equals sign of an attribute is taken. -/
theorem parseAttrRest_equals (n r : ℕ) :
    Triple (fun a => a.token = .char '=' ∧ Within sc (n + 1) r a) (parseAttrRest sc)
      (fun next a => next = .phase .attrs ∧ Within sc n r a) (Within' sc r) := by
  refine Triple.bind (Q := fun _ => Within sc n r) (Triple.get fun a h => ?_) fun _ =>
    (keeps_defineAttr n r).bind fun _ => Triple.pure fun _ h => ⟨rfl, h⟩
  rw [if_pos h.1]
  have htok : a.token ≠ .eof := by rw [h.1]; exact fun h => by cases h
  refine Triple.bind (Q := fun _ a => a.token ≠ .eof ∧ Within sc (n + 1) r a) ?_ fun _ =>
    (takes_nextToken false n r).bind fun _ => keeps_parseAttrValue n r
  exact Triple.modify fun a' ha' => by subst ha'; exact ⟨htok, h.2.left, h.2.remaining⟩

/-- A round of the loop of the attributes takes a token or fails. -/
theorem parseAttr_spec (n r : ℕ) :
    Triple (fun a => (a.token ≠ .char '>' ∧ a.token.isStray = false) ∧ Within sc (n + 1) r a) (parseAttr sc)
      (fun next a => (next = .phase .attrs ∨ next = .phase .close) ∧ Within sc n r a) (Within' sc r) := by
  refine Triple.get fun a ha => ?_
  obtain ⟨⟨hgt, hstray⟩, h⟩ := ha
  split
  · rename_i htok
    exact absurd htok hgt
  · rename_i htok
    have hne : a.token ≠ .eof := by rw [htok]; exact fun h => by cases h
    refine ((takes_nextToken false n r).from ⟨hne, h⟩).bind fun _ => (keeps_expect _ _ n r).bind fun _ => ?_
    exact Triple.pure fun _ h => ⟨.inr rfl, h⟩
  · rename_i htok
    have hne : a.token ≠ .eof := by rw [htok]; exact fun h => by cases h
    exact ((parseSpread_spec n r).from ⟨hne, h⟩).mono (fun _ h => h) (fun _ _ h => ⟨.inl h.1, h.2⟩) fun _ _ h => h
  · rename_i htok
    have hne : a.token ≠ .eof := by rw [htok]; exact fun h => by cases h
    refine Triple.bind (Q := fun _ a => a.token ≠ .eof ∧ Within sc (n + 1) r a) ?_ fun _ =>
      (takes_nextToken false n r).bind fun _ => ?_
    · exact Triple.modify fun a' ha' => by subst ha'; exact ⟨hne, h.left, h.remaining⟩
    · exact (parseAttrRest_spec n r).mono (fun _ h => h) (fun _ _ h => ⟨.inl h.1, h.2⟩) fun _ _ h => h
  · rename_i hslash hbrace hident
    have heq : a.token = .char '=' := Token.eq_equals hstray hgt hslash hbrace hident
    exact ((parseAttrRest_equals n r).from ⟨heq, h⟩).mono (fun _ h => h) (fun _ _ h => ⟨.inl h.1, h.2⟩) fun _ _ h => h

theorem text_spec (r : ℕ) : Triple (fun a => sc.remaining a.world ≤ r) (text sc)
      (fun _ a => 0 < sc.remaining a.world ∧ sc.remaining a.world ≤ r) (Within' sc r) := by
  intro a h
  rw [text]
  cases htext : sc.text a.world with
  | mk t w =>
    cases t with
    | none => exact (sc.text_none htext).trans h
    | some t => exact ⟨(sc.text_some htext).1, (sc.text_some htext).2.trans h⟩

/-- A part of the parser that leaves the input where it is. -/
def Stays (sc : Scanner ω) (x : Parse ω α) : Prop :=
  ∀ k, Triple (fun a => sc.remaining a.world = k) x (fun _ a => sc.remaining a.world = k)
    fun _ a => sc.remaining a.world = k

theorem Stays.bind {x : Parse ω α} {f : α → Parse ω β} (hx : Stays sc x) (hf : ∀ b, Stays sc (f b)) :
    Stays sc (x >>= f) := fun k => (hx k).bind fun b => hf b k

theorem stays_emit (i : Instr) : Stays sc (emit i) := fun _ => Triple.modify fun _ h => h

theorem stays_addKid : Stays sc (addKid (ω := ω)) := fun _ => Triple.modify fun _ h => h

theorem stays_alloc : Stays sc (alloc sc) := by
  intro k a h
  have hr := sc.alloc_remaining a.world
  rw [alloc]
  cases halloc : sc.allocFails a.world with
  | mk fails w =>
    rw [halloc] at hr
    cases fails with
    | true => exact hr.trans h
    | false => exact hr.trans h

theorem stays_emitText (t : Text) : Stays sc (emitText sc t) := by
  cases t with
  | blank => exact fun _ => Triple.pure fun _ h => h
  | atom a => exact stays_alloc.bind fun _ => (stays_emit _).bind fun _ => stays_addKid
  | constant =>
    exact stays_alloc.bind fun _ => (stays_alloc.bind fun _ => stays_emit _).bind fun _ => stays_addKid

/-- A token that starts in the middle of the input takes bytes. -/
theorem nextToken_remaining (web : Bool) (r : ℕ) :
    Triple (fun a => 0 < sc.remaining a.world ∧ sc.remaining a.world ≤ r + 1) (nextToken sc web)
      (fun _ => Within sc (2 * r + 1) r) (Within' sc (r + 1)) := by
  rintro a ⟨hpos, h⟩
  rw [nextToken]
  cases hnext : sc.nextToken web a.world with
  | mk tok w =>
    cases tok with
    | none => exact (sc.nextToken_none hnext).trans h
    | some tok =>
      have hlt : sc.remaining w < sc.remaining a.world :=
        (sc.nextToken_some hnext).resolve_right fun h0 => hpos.ne' h0.2.1
      have hr : sc.remaining w ≤ r := Nat.le_of_lt_succ (hlt.trans_le h)
      exact ⟨(left_le_succ _ _).trans (Nat.succ_le_succ (Nat.mul_le_mul_left 2 hr)), hr⟩

theorem parseTail_spec (n r : ℕ) : Triple (Within sc n r) (parseTail sc)
      (fun next a => (next = .phase .kids ∨ next = .phase .close) ∧ Within sc n r a) (Within' sc r) := by
  refine (keeps_nextToken false n r).bind fun _ => (keeps_nextToken true n r).bind fun _ => ?_
  refine Triple.get fun a h => Triple.from ?_ h
  split
  · refine Triple.get fun a h => Triple.from ?_ h
    dsimp only
    split
    · exact Triple.throw fun _ h => h.remaining
    · exact (keeps_nextToken false n r).bind fun _ => (keeps_expect _ _ n r).bind fun _ =>
        Triple.pure fun _ h => ⟨.inr rfl, h⟩
  · exact Triple.pure fun _ h => ⟨.inl rfl, h⟩

/-- A round of the loop of the children takes some bytes or fails. -/
theorem parseKid_spec (r : ℕ) : Triple (fun a => sc.remaining a.world ≤ r + 1) (parseKid sc)
      (fun next a => (next = .phase .kids ∨ next = .phase .close ∨ next = .nested) ∧ Within sc (2 * r + 1) r a)
      (Within' sc (r + 1)) := by
  have hfail : ∀ (e : String) (a : Activation ω), Within' sc r e a → Within' sc (r + 1) e a :=
    fun _ _ h => Nat.le_succ_of_le h
  refine (text_spec (r + 1)).bind fun t => ?_
  refine Triple.bind (Q := fun _ a => 0 < sc.remaining a.world ∧ sc.remaining a.world ≤ r + 1) ?_ fun _ =>
    (nextToken_remaining false r).bind fun _ => ?_
  · intro a h
    exact (stays_emitText t _).mono (fun _ h' => h') (fun _ _ h' => h'.symm ▸ h) (fun _ _ h' => h'.trans_le h.2) a rfl
  refine Triple.get fun a h => Triple.from ?_ h
  split
  · refine Triple.get fun a h => Triple.from ?_ h
    split
    · refine (parseTail_spec (2 * r + 1) r).mono (fun _ h => h) (fun _ _ h => ⟨?_, h.2⟩) hfail
      exact h.1.imp_right .inl
    · exact Triple.pure fun _ h => ⟨.inr (.inr rfl), h⟩
  · refine Triple.mono (E := Within' sc r) ?_ (fun _ h => h) (fun _ _ h => h) hfail
    refine (keeps_nextToken false _ r).bind fun _ => (keeps_assignExpr _ r).bind fun _ => ?_
    exact (keeps_expect _ _ _ r).bind fun _ => (keeps_addKid _ r).bind fun _ => Triple.pure fun _ h => ⟨.inl rfl, h⟩
  · exact Triple.pure fun _ h => ⟨.inl rfl, h⟩

theorem parseClose_spec (level n r : ℕ) :
    Triple (Within sc n r) (parseClose sc level) (fun next a => next = .done ∧ Within sc n r a) (Within' sc r) := by
  have hafter : Keeps sc (afterElement sc level) := by
    rw [afterElement]
    split
    · exact keeps_nextToken false
    · exact .pure ()
  refine Triple.get fun a h => Triple.from ?_ h
  exact (keeps_emit _ n r).bind fun _ => (keeps_emit _ n r).bind fun _ => (hafter n r).bind fun _ =>
    Triple.pure fun _ h => ⟨rfl, h⟩

/-- The token has been read: the field is defined without another one. -/
theorem defineAttr_read (p : Prop) (w : ω) {E : String → Activation ω → Prop} :
    Triple (fun a => p ∧ a.token = tok ∧ a.world = w ∧ a.tokenRead = true) (defineAttr sc)
      (fun _ a => p ∧ a.token = tok ∧ a.world = w) E := by
  let I (a : Activation ω) : Prop := p ∧ a.token = tok ∧ a.world = w ∧ a.tokenRead = true
  refine Triple.get fun a h => Triple.from (P := I) ?_ h
  refine Triple.bind (Q := fun _ => I) (Triple.modify fun _ h => h) fun _ => ?_
  refine Triple.get fun a h => Triple.from (P := I) ?_ h
  refine Triple.bind (Q := fun _ => I) (Triple.modify fun _ h => h) fun _ => ?_
  refine Triple.bind (Q := fun _ => I) (Triple.modify fun _ h => h) fun _ => ?_
  refine Triple.get fun a h => Triple.from (P := I) ?_ h
  rw [if_pos h.2.2.2]
  exact Triple.pure fun _ h => ⟨h.1, h.2.1, h.2.2.1⟩

/-- Nothing is read at a token that starts no attribute: the round goes by unless there is no memory. -/
theorem parseAttr_stray (sc : Scanner ω) (hstray : tok.isStray = true) (w : ω) :
    Triple (fun a => a.token = tok ∧ a.world = w) (parseAttr sc)
      (fun next a => (sc.allocFails w).1 = false ∧ next = .phase .attrs ∧ a.token = tok ∧
        a.world = (sc.allocFails w).2)
      (fun _ a => (sc.allocFails w).1 = true ∧ a.world = (sc.allocFails w).2) := by
  refine Triple.get fun a h => ?_
  rw [h.1]
  have hequals : tok ≠ .char '=' := by rintro rfl; cases hstray
  have hrest : Triple (· = a) (parseAttrRest sc)
      (fun next a => (sc.allocFails w).1 = false ∧ next = .phase .attrs ∧ a.token = tok ∧
        a.world = (sc.allocFails w).2)
      (fun _ a => (sc.allocFails w).1 = true ∧ a.world = (sc.allocFails w).2) := by
    refine Triple.bind (Q := fun _ a => (sc.allocFails w).1 = false ∧ a.token = tok ∧
      a.world = (sc.allocFails w).2 ∧ a.tokenRead = true) (Triple.get fun a' h' => ?_) fun _ => ?_
    · rw [h', h.1, if_neg hequals]
      refine Triple.bind (Q := fun _ a => (a.token = tok ∧ a.world = w) ∧ a.tokenRead = true) ?_ fun _ => ?_
      · exact Triple.modify fun a' ha' => by rw [ha']; exact ⟨h, rfl⟩
      · refine Triple.bind (Q := fun _ a => (sc.allocFails w).1 = false ∧ a.token = tok ∧
          a.world = (sc.allocFails w).2 ∧ a.tokenRead = true) ?_ fun _ => Triple.modify fun _ h => h
        rintro a' ⟨⟨htok, hw⟩, hread⟩
        rw [alloc, hw]
        cases halloc : sc.allocFails w with
        | mk fails w' =>
          cases fails with
          | true => exact ⟨rfl, rfl⟩
          | false => exact ⟨rfl, htok, rfl, hread⟩
    · exact (defineAttr_read _ _).bind fun _ => Triple.pure fun _ h => ⟨h.1, rfl, h.2.1, h.2.2⟩
  split
  · cases hstray
  · cases hstray
  · cases hstray
  · cases hstray
  · exact hrest

/-! ## Runs -/

/-- What is left of the input. -/
def Machine.left (sc : Scanner ω) (m : Machine ω) : ℕ := Jsx.left (sc.remaining m.world) m.token

/-- A round of the loop of the attributes that starts at a token that is no part of a tag, and has the memory to
make an attribute of it. -/
def Stuck (sc : Scanner ω) (m : Machine ω) : Prop :=
  ∃ f fs, m.frames = f :: fs ∧ f.phase = .attrs ∧ m.token.isStray = true ∧ (sc.allocFails m.world).1 = false

/-- A round of one of the loops has taken something from the input, or the call has returned. -/
def Progress (sc : Scanner ω) (m m' : Machine ω) : Prop :=
  ∀ f fs, m.frames = f :: fs →
    (f.phase = .attrs → m.token ≠ .char '>' → m'.left sc < m.left sc ∨ m'.frames.length < m.frames.length) ∧
    (f.phase = .kids → sc.remaining m'.world < sc.remaining m.world ∨ m'.frames.length < m.frames.length)

/-- The calls that wait for another one are in the loop of the children. -/
def Waiting (m : Machine ω) : Prop := ∀ f ∈ m.frames.tail, f.phase = .kids

def Phase.weight : Phase → ℕ
  | tag => 3
  | attrs => 2
  | kids => 1
  | close => 1

/-- What a step does to a machine whose innermost call is `f`. -/
inductive Moves (sc : Scanner ω) (m : Machine ω) (f : Frame) (fs : List Frame) : Machine ω → Prop
  | pops (s : JSParseState ω) (ok : Bool) : sc.remaining s.world ≤ sc.remaining m.world →
      Moves sc m f fs (.return s ok fs)
  | named (s : JSParseState ω) (l : Locals) : f.phase = .tag →
      Jsx.left (sc.remaining s.world) s.token ≤ m.left sc → Moves sc m f fs ⟨s, ⟨l, .attrs⟩ :: fs, none⟩
  | opens (s : JSParseState ω) (l : Locals) : f.phase = .attrs → m.token = .char '>' →
      sc.remaining s.world ≤ sc.remaining m.world → Moves sc m f fs ⟨s, ⟨l, .kids⟩ :: fs, none⟩
  | attr (s : JSParseState ω) (l : Locals) (p : Phase) : f.phase = .attrs → p = .attrs ∨ p = .close →
      Jsx.left (sc.remaining s.world) s.token < m.left sc → Moves sc m f fs ⟨s, ⟨l, p⟩ :: fs, none⟩
  | kid (s : JSParseState ω) (l : Locals) (p : Phase) : f.phase = .kids → p = .kids ∨ p = .close →
      sc.remaining s.world < sc.remaining m.world → Moves sc m f fs ⟨s, ⟨l, p⟩ :: fs, none⟩
  | nests (s : JSParseState ω) (l : Locals) : f.phase = .kids → sc.remaining s.world < sc.remaining m.world →
      Moves sc m f fs ⟨s, newFrame :: ⟨l, .kids⟩ :: fs, none⟩

variable {m : Machine ω} {f : Frame} {fs : List Frame}

/-- A round that fails, or is the last one, returns. -/
theorem moves_of_round {P : Activation ω → Prop} {Q : Next → Activation ω → Prop} {r : ℕ} {x : Parse ω Next}
    (h : Triple P x Q (Within' sc r)) (hx : round sc f.phase fs.length = x) (hP : P ⟨m.toJSParseState, f.toLocals⟩)
    (hm : m.frames = f :: fs) (hr : r ≤ sc.remaining m.world)
    (hphase : ∀ p a, Q (.phase p) a → Moves sc m f fs ⟨a.toJSParseState, ⟨a.toLocals, p⟩ :: fs, none⟩)
    (hnested : ∀ a, Q .nested a → Moves sc m f fs ⟨a.toJSParseState, newFrame :: ⟨a.toLocals, .kids⟩ :: fs, none⟩)
    (hdone : ∀ a, Q .done a → sc.remaining a.world ≤ sc.remaining m.world) : Moves sc m f fs (m.step sc) := by
  have hround := h _ hP
  rw [Machine.step, hm]
  dsimp only
  rw [hx]
  generalize x ⟨m.toJSParseState, f.toLocals⟩ = o at hround
  cases o with
  | error message a => exact .pops _ false (le_trans hround hr)
  | ok next a =>
    cases next with
    | phase p => exact hphase p a hround
    | nested => exact hnested a hround
    | done => exact .pops _ true (hdone a hround)

theorem within_start (sc : Scanner ω) (m : Machine ω) (l : Locals) :
    Within sc (m.left sc) (sc.remaining m.world) ⟨m.toJSParseState, l⟩ := ⟨Nat.le_refl _, Nat.le_refl _⟩

theorem left_pos {remaining : ℕ} (h : tok ≠ .eof) : 0 < left remaining tok := by
  rw [left, if_neg h]
  omega

theorem moves_step (hm : m.frames = f :: fs) (hstuck : ¬ Stuck sc m) : Moves sc m f fs (m.step sc) := by
  have hstart := within_start sc m f.toLocals
  cases hphase : f.phase with
  | tag =>
    refine moves_of_round (parseTag_spec _ _) (by rw [hphase]; rfl) hstart hm (Nat.le_refl _) ?_ ?_ ?_
    · rintro p a ⟨⟨⟩, h⟩
      exact .named _ _ hphase h.left
    · rintro a ⟨⟨⟩, -⟩
    · rintro a ⟨⟨⟩, -⟩
  | attrs =>
    by_cases hgt : m.token = .char '>'
    · refine moves_of_round (Q := fun next a => next = .phase .kids ∧ a = ⟨m.toJSParseState, f.toLocals⟩)
        (x := parseAttr sc) (Triple.get fun a ha => ?_) (by rw [hphase]; rfl) rfl hm (Nat.le_refl _) ?_ ?_ ?_
      · subst ha
        rw [hgt]
        exact Triple.pure fun a ha => ⟨rfl, ha⟩
      · rintro p a ⟨⟨⟩, rfl⟩
        exact .opens _ _ hphase hgt (Nat.le_refl _)
      · rintro a ⟨⟨⟩, -⟩
      · rintro a ⟨⟨⟩, -⟩
    · by_cases hstray : m.token.isStray = true
      · -- there is no memory for the attribute
        have halloc (h : (sc.allocFails m.world).1 = false) : False := hstuck ⟨f, fs, hm, hphase, hstray, h⟩
        have hspec : Triple _ (parseAttr sc) _ (Within' sc (sc.remaining m.world)) :=
          (parseAttr_stray sc hstray m.world).mono (fun _ h => h) (fun _ _ h => h) fun _ a h => (congrArg _ h.2).trans_le (sc.alloc_remaining _).le
        refine moves_of_round hspec (by rw [hphase]; rfl) ⟨rfl, rfl⟩ hm (Nat.le_refl _) ?_ ?_ ?_
        · exact fun _ _ h => (halloc h.1).elim
        · exact fun _ h => (halloc h.1).elim
        · exact fun _ h => (halloc h.1).elim
      · have hne : m.token ≠ .eof := by
          intro heof
          rw [heof] at hstray
          exact hstray rfl
        obtain ⟨n, hn⟩ := Nat.exists_eq_succ_of_ne_zero (left_pos hne : 0 < left (sc.remaining m.world) m.token).ne'
        refine moves_of_round (parseAttr_spec n _) (by rw [hphase]; rfl)
          ⟨⟨hgt, Bool.not_eq_true _ ▸ hstray⟩, hn.le, Nat.le_refl _⟩ hm (Nat.le_refl _) ?_ ?_ ?_
        · rintro p a ⟨hp, h⟩
          refine .attr _ _ p hphase (hp.imp (by rintro ⟨⟩; rfl) (by rintro ⟨⟩; rfl)) ?_
          exact Nat.lt_of_le_of_lt h.left (by rw [Machine.left, hn]; exact Nat.lt_succ_self n)
        · rintro a ⟨⟨⟨⟩⟩ | ⟨⟨⟩⟩, -⟩
        · rintro a ⟨⟨⟨⟩⟩ | ⟨⟨⟩⟩, -⟩
  | kids =>
    rcases Nat.eq_zero_or_eq_succ_pred (sc.remaining m.world) with h0 | hr
    · -- a text does not end at the end of the input
      have hspec : Triple (fun a => sc.remaining a.world ≤ 0) (parseKid sc) (fun _ _ => False) (Within' sc 0) :=
        (text_spec 0).bind fun _ _ h => absurd h.1 (Nat.not_lt.mpr h.2)
      refine moves_of_round hspec (by rw [hphase]; rfl) h0.le hm (Nat.zero_le _) ?_ ?_ ?_
      · exact fun _ _ h => h.elim
      · exact fun _ h => h.elim
      · exact fun _ h => h.elim
    · refine moves_of_round (parseKid_spec (sc.remaining m.world - 1)) (by rw [hphase]; rfl) hr.le hm hr.ge ?_ ?_ ?_
      · rintro p a ⟨hp, h⟩
        refine .kid _ _ p hphase (hp.imp (by rintro ⟨⟩; rfl) (by rintro (⟨⟨⟩⟩ | ⟨⟨⟩⟩); rfl)) ?_
        exact Nat.lt_of_le_of_lt h.remaining (by omega)
      · rintro a ⟨-, h⟩
        exact .nests _ _ hphase (Nat.lt_of_le_of_lt h.remaining (by omega))
      · rintro a ⟨⟨⟨⟩⟩ | ⟨⟨⟩⟩ | ⟨⟨⟩⟩, -⟩
  | close =>
    refine moves_of_round (parseClose_spec fs.length _ _) (by rw [hphase]; rfl) hstart hm (Nat.le_refl _) ?_ ?_ ?_
    · rintro p a ⟨⟨⟩, -⟩
    · rintro a ⟨⟨⟩, -⟩
    · exact fun a h => h.2.remaining

/-- What goes down with every step. -/
def Machine.measure (sc : Scanner ω) (m : Machine ω) : ℕ :=
  match m.frames with
  | [] => 0
  | f :: fs => 4 * (if f.phase = .kids then 2 * sc.remaining m.world else m.left sc) +
      ((f :: fs).map fun f => f.phase.weight).sum

theorem Moves.waiting (h : Moves sc m f fs m') (hfs : ∀ g ∈ fs, g.phase = .kids) : Waiting m' := by
  cases h with
  | pops s ok =>
    cases fs with
    | nil => exact fun g hg => nomatch hg
    | cons g fs => exact fun g' hg' => hfs g' (List.mem_cons_of_mem g hg')
  | named | opens | attr | kid => exact hfs
  | nests s l =>
    intro g hg
    rcases List.mem_cons.mp hg with rfl | hg
    · rfl
    · exact hfs g hg

theorem Phase.weight_pos (p : Phase) : 0 < p.weight := by
  cases p <;> decide

/-- Where a call returns, its caller looks for the next child. -/
theorem measure_return (s : JSParseState ω) (ok : Bool) (hfs : ∀ g ∈ fs, g.phase = .kids) :
    (Machine.return s ok fs).measure sc ≤ 8 * sc.remaining s.world + (fs.map fun f => f.phase.weight).sum := by
  cases fs with
  | nil => exact Nat.zero_le _
  | cons g fs =>
    have hg : g.phase = .kids := hfs g List.mem_cons_self
    simp only [Machine.return, Machine.measure, List.map_cons, hg, if_true]
    omega

theorem Moves.measure_lt (h : Moves sc m f fs m') (hm : m.frames = f :: fs)
    (hfs : ∀ g ∈ fs, g.phase = .kids) : m'.measure sc < m.measure sc := by
  have hleft : 2 * sc.remaining m.world ≤ m.left sc := left_le _ _
  have hweight := f.phase.weight_pos
  have hmeasure : m.measure sc = 4 * (if f.phase = .kids then 2 * sc.remaining m.world else m.left sc) +
      (f.phase.weight + (fs.map fun f => f.phase.weight).sum) := by
    simp only [Machine.measure, hm, List.map_cons, List.sum_cons]
  rw [hmeasure]
  cases h with
  | pops s ok hr =>
    refine (measure_return s ok hfs).trans_lt ?_
    split <;> omega
  | named s l hphase hl =>
    simp only [Machine.measure, Machine.left, hphase, List.map_cons, List.sum_cons, Phase.weight, reduceCtorEq,
      if_false]
    simp only [Machine.left] at hl
    omega
  | opens s l hphase hgt hr =>
    simp only [Machine.measure, hphase, List.map_cons, List.sum_cons, Phase.weight, reduceCtorEq, if_true, if_false]
    omega
  | attr s l p hphase hp hl =>
    rcases hp with rfl | rfl <;>
    · simp only [Machine.measure, Machine.left, hphase, List.map_cons, List.sum_cons, Phase.weight, reduceCtorEq,
        if_false] at hl ⊢
      omega
  | kid s l p hphase hp hr =>
    have hs := left_le_succ (sc.remaining s.world) s.token
    rcases hp with rfl | rfl <;>
    · simp only [Machine.measure, Machine.left, hphase, List.map_cons, List.sum_cons, Phase.weight, reduceCtorEq,
        if_true, if_false]
      omega
  | nests s l hphase hr =>
    have hs := left_le_succ (sc.remaining s.world) s.token
    simp only [Machine.measure, Machine.left, newFrame, hphase, List.map_cons, List.sum_cons, Phase.weight,
      reduceCtorEq, if_true, if_false]
    omega

/-- What a step does is progress. -/
theorem Moves.progress (h : Moves sc m f fs m') (hm : m.frames = f :: fs) : Progress sc m m' := by
  intro g gs hg
  obtain ⟨rfl, rfl⟩ : f = g ∧ fs = gs := List.cons.inj (hm.symm.trans hg)
  cases h with
  | pops s ok =>
    have hlen : (Machine.return s ok fs).frames.length < m.frames.length := by
      rw [hm]
      cases fs with
      | nil => exact Nat.succ_pos _
      | cons g fs => exact Nat.lt_succ_self _
    exact ⟨fun _ _ => .inr hlen, fun _ => .inr hlen⟩
  | named s l hphase => exact ⟨fun h => by simp [hphase] at h, fun h => by simp [hphase] at h⟩
  | opens s l hphase hgt => exact ⟨fun _ h => absurd hgt h, fun h => by simp [hphase] at h⟩
  | attr s l p hphase hp hl => exact ⟨fun _ _ => .inl hl, fun h => by simp [hphase] at h⟩
  | kid s l p hphase hp hr => exact ⟨fun h => by simp [hphase] at h, fun _ => .inl hr⟩
  | nests s l hphase hr => exact ⟨fun h => by simp [hphase] at h, fun _ => .inl hr⟩

/-- There is no progress where the machine is stuck. -/
theorem Stuck.not_progress (h : Stuck sc m) : ¬ Progress sc m (m.step sc) := by
  obtain ⟨f, fs, hm, hphase, hstray, halloc⟩ := h
  intro hprogress
  have hgt : m.token ≠ .char '>' := by rintro h; rw [h] at hstray; cases hstray
  have hspec := parseAttr_stray sc hstray m.world ⟨m.toJSParseState, f.toLocals⟩ ⟨rfl, rfl⟩
  have hstep := (hprogress f fs hm).1 hphase hgt
  rw [Machine.step, hm] at hstep
  simp only [round, hphase] at hstep
  generalize parseAttr sc ⟨m.toJSParseState, f.toLocals⟩ = o at hspec hstep
  cases o with
  | error message a => exact absurd (halloc.symm.trans hspec.1) (by decide)
  | ok next a =>
    obtain ⟨-, rfl, htoken, hworld⟩ := hspec
    have hleft : Jsx.left (sc.remaining a.world) a.token = m.left sc := by
      rw [Machine.left, htoken, hworld, sc.alloc_remaining]
    rcases hstep with h | h
    · exact absurd h (by simp only [Machine.left, hleft]; exact Nat.lt_irrefl _)
    · exact absurd h (Nat.lt_irrefl _)

theorem run_succ (m : Machine ω) (n : ℕ) : m.run sc (n + 1) = (m.run sc n).step sc :=
  Function.iterate_succ_apply' _ _ _

theorem step_waiting (h : Waiting m) (hstuck : ¬ Stuck sc m) : Waiting (m.step sc) := by
  cases hm : m.frames with
  | nil =>
    rw [Machine.step, hm]
    exact h
  | cons f fs =>
    rw [Waiting, hm] at h
    exact (moves_step hm hstuck).waiting h

theorem progress_of_not_stuck (hstuck : ¬ Stuck sc m) : Progress sc m (m.step sc) := by
  intro f fs hm
  exact (moves_step hm hstuck).progress hm f fs hm

/-- A run that is never stuck comes to an end. -/
theorem exists_returned (m : Machine ω) (hm : Waiting m) (hstuck : ∀ n, ¬ Stuck sc (m.run sc n)) :
    ∃ n, (m.run sc n).frames = [] := by
  have hwaiting (n : ℕ) : Waiting (m.run sc n) := by
    induction n with
    | zero => exact hm
    | succ n ih =>
      rw [run_succ]
      exact step_waiting ih (hstuck n)
  refine exists_halted (fun m : Machine ω => m.frames = []) (Machine.measure sc) m fun n hn => ?_
  change (m.run sc (n + 1)).measure sc < (m.run sc n).measure sc
  rw [run_succ]
  cases hframes : (m.run sc n).frames with
  | nil => exact absurd hframes hn
  | cons f fs =>
    have hfs := hwaiting n
    rw [Waiting, hframes] at hfs
    exact (moves_step hframes (hstuck n)).measure_lt hframes hfs

/-- When every round of the loops takes something from the input or returns, and the parser comes to an end. -/
theorem progress_iff (sc : Scanner ω) (w : ω) (code : List Instr) :
    ((∀ n, Progress sc ((Machine.start w code).run sc n) ((Machine.start w code).run sc (n + 1))) ∧
      ∃ n, ((Machine.start w code).run sc n).frames = []) ↔
    ∀ n, ¬ Stuck sc ((Machine.start w code).run sc n) := by
  constructor
  · rintro ⟨hprogress, -⟩ n hstuck
    have hn := hprogress n
    rw [run_succ] at hn
    exact hstuck.not_progress hn
  · intro hstuck
    refine ⟨fun n => ?_, exists_returned _ (fun f hf => nomatch hf) hstuck⟩
    rw [run_succ]
    exact progress_of_not_stuck (hstuck n)

/-! ## A list of tokens -/

/-- A brace or a tag starts here. -/
def startsTag : Token → Bool
  | .char '<' | .char '{' => true
  | _ => false

/-- The next token of a list. -/
def takeToken : List Token → Token × List Token
  | [] => (.eof, [])
  | tok :: toks => (tok, toks)

/-- The input is a list of tokens; an expression is a number, a text is any other tokens. -/
def tokenScanner : Scanner (List Token) where
  remaining := List.length
  nextToken _ w := (some (takeToken w).1, (takeToken w).2)
  text w :=
    match w.dropWhile fun tok => !startsTag tok with
    | [] => (none, [])
    | tok :: toks => (some (if startsTag (takeToken w).1 then .blank else .constant), tok :: toks)
  slashNext w := (takeToken w).1 = .char '/'
  assignExpr tok w :=
    if tok = .number then ⟨true, [.other 0 1], (takeToken w).1, (takeToken w).2⟩ else ⟨false, [], tok, w⟩
  template tok w := ⟨false, [], tok, w⟩
  allocFails w := (false, w)
  isComponent _ := false
  atomGetStr _ := ""
  nextToken_some {web w w' tok} h := by
    cases w with
    | nil =>
      cases h
      exact .inr ⟨rfl, rfl, rfl⟩
    | cons t ts =>
      cases h
      exact .inl (Nat.lt_succ_self _)
  nextToken_none h := by cases h
  text_some {w w' t} h := by
    have hle := (List.dropWhile_suffix (l := w) fun tok => !startsTag tok).length_le
    split at h
    · cases h
    · rename_i heq
      rw [heq] at hle
      cases h
      exact ⟨Nat.succ_pos _, hle⟩
  text_none {w w'} h := by
    split at h
    · cases h
      exact Nat.zero_le _
    · cases h
  assignExpr_le tok w := by
    split
    · cases w with
      | nil => exact Nat.le_refl _
      | cons t ts => exact Nat.le_succ _
    · exact Nat.le_refl _
  assignExpr_ok {tok w} h := by
    split at h
    · rename_i htok
      rw [if_pos htok]
      refine ⟨?_, rfl⟩
      cases w with
      | nil => simp [takeToken, left]
      | cons t ts =>
        have hnumber : left (t :: ts).length tok = 2 * (ts.length + 1) + 1 := by rw [htok]; rfl
        have hts := left_le_succ ts.length t
        rw [hnumber]
        exact hts.trans (by omega)
    · cases h
  template_le _ _ := Nat.le_refl _
  template_ok h := by cases h
  alloc_remaining _ := rfl

/-- After the name of the tag in `<a ,` the parser stays at the comma for ever. -/
theorem not_exists_returned_comma :
    ¬ ∃ n, ((Machine.start [.ident 1000 .name, .char ','] []).run tokenScanner n).frames = [] := by
  have hstay (n : ℕ) : ∃ f, ((Machine.start [.ident 1000 .name, .char ','] []).run tokenScanner (n + 1)).frames = [f] ∧
      f.phase = .attrs ∧ ((Machine.start [.ident 1000 .name, .char ','] []).run tokenScanner (n + 1)).token = .char ',' := by
    induction n with
    | zero => exact ⟨_, rfl, rfl, rfl⟩
    | succ n ih =>
      rw [run_succ]
      generalize (Machine.start [.ident 1000 .name, .char ','] []).run tokenScanner (n + 1) = m at ih
      obtain ⟨f, hm, hphase, htok⟩ := ih
      have hspec := parseAttr_stray tokenScanner (rfl : (Token.char ',').isStray = true) m.world
        ⟨m.toJSParseState, f.toLocals⟩ ⟨htok, rfl⟩
      rw [Machine.step, hm]
      simp only [round, hphase]
      generalize parseAttr tokenScanner ⟨m.toJSParseState, f.toLocals⟩ = o at hspec
      cases o with
      | error message a => exact (Bool.false_ne_true hspec.1).elim
      | ok next a =>
        obtain ⟨-, rfl, htoken, -⟩ := hspec
        exact ⟨_, rfl, rfl, htoken⟩
  rintro ⟨n, hn⟩
  cases n with
  | zero => cases hn
  | succ n =>
    obtain ⟨f, hf, -⟩ := hstay n
    rw [hf] at hn
    cases hn

end QuickJs.Jsx
