import QuickJs.StackSize
import QuickJs.Run

/-!
# The stack of a running function

The interpreter at the level of its stack: how many slots an instruction pops and pushes,
where it goes on, and how an exception unwinds the stack to the innermost catch offset.
Other values are not told apart. What an instruction pushes is left open, since a variable
may hold anything; an exception may strike when an instruction has popped any number of its
operands. `gosub` and `ret` are left out.

The depths that `compute_stack_size` notes are the depths of every run in which no
instruction moves a catch offset to another place of the stack.
-/

namespace QuickJs.Bytecode

open Run

/-! ## The interpreter -/

/-- A slot of the stack. -/
inductive Slot
  | value
  /-- `JS_TAG_CATCH_OFFSET`; the offset of an enumerator is 0 -/
  | catchOffset (pos : ℤ)
  deriving DecidableEq, Repr

/-- A function that runs; the top of its stack comes first. -/
inductive State
  | running (pc : ℤ) (stack : List Slot)
  /-- it has returned or thrown -/
  | finished
  /-- it has gone below the base of its stack -/
  | underflow
  deriving DecidableEq, Repr

/-- The label `exception` of `JS_CallInternal`. -/
def unwind : List Slot → State
  | [] => .finished
  | .value :: stack => unwind stack
  | .catchOffset pos :: stack =>
    if pos = 0 then
      -- drop the next method and close the enumerator below it
      match stack with
      | [] => .underflow
      | _ :: stack => if stack = [] then .underflow else unwind stack
    else .running pos (.value :: stack)

/-- Where an instruction goes on, and how many slots it pops and pushes. `branch` tells
whether a conditional jump is taken. -/
def effect (bc : List UInt8) (pos : ℕ) (oi : JSOpCode) (branch : Bool) : ℤ × ℕ × ℕ :=
  let next : ℤ := pos + oi.size
  let diff : ℤ := signed 32 (getU32 bc (pos + 1))
  let diff8 : ℤ := signed 8 (byte bc (pos + 1))
  let withDiff : ℤ := signed 32 (getU32 bc (pos + 5))
  match oi.op, branch with
  | .goto, _ => (pos + 1 + diff, 0, 0)
  | .goto16, _ => (pos + 1 + signed 16 (getU16 bc (pos + 1)), 0, 0)
  | .goto8, _ => (pos + 1 + diff8, 0, 0)
  | .ifTrue, true | .ifFalse, true => (pos + 1 + diff, 1, 0)
  | .ifTrue8, true | .ifFalse8, true => (pos + 1 + diff8, 1, 0)
  | .withGetVar, true | .withDeleteVar, true => (pos + 5 + withDiff, 1, 1)
  | .withPutVar, true => (pos + 5 + withDiff, 2, 0)
  | .withMakeRef, true | .withGetRef, true | .withGetRefUndef, true => (pos + 5 + withDiff, 1, 2)
  | .withGetVar, false | .withDeleteVar, false | .withPutVar, false | .withMakeRef, false
  | .withGetRef, false | .withGetRefUndef, false => (next, 1, 0)
  | _, _ => (next, oi.nPop + variablePops bc pos oi, oi.nPush)

/-- The slots of the instructions that push catch offsets. -/
def catchSlots (bc : List UInt8) (pos : ℕ) (oi : JSOpCode) : Option (List Slot) :=
  match oi.op with
  | .catch_ => some [.catchOffset (pos + 1 + signed 32 (getU32 bc (pos + 1)))]
  | .forOfStart | .forAwaitOfStart => some [.catchOffset 0, .value, .value]
  | _ => none

/-- `OP_iterator_close_return`: drop what is above the innermost catch offset, and put the
return value below the enumerator. -/
def iteratorCloseReturn (next : ℤ) : List Slot → State
  | [] => .underflow
  | retVal :: stack =>
    match stack.dropWhile (· = .value) with
    | offset :: method :: iter :: stack => .running next (offset :: method :: iter :: retVal :: stack)
    | stack => unwind stack

/-- `js_for_of_next` replaces an enumerator that is done by `undefined`. -/
def clearEnumerator (bc : List UInt8) (pos : ℕ) (oi : JSOpCode) (stack : List Slot) : List Slot :=
  if oi.op = .forOfNext then stack.set (2 + byte bc (pos + 1)) .value else stack

/-- What happens next: the instruction completes, or it throws with `popped` of its operands
popped. `branch` also tells whether an enumerator is done. -/
inductive Choice
  | next (branch : Bool) (pushed : List Slot)
  | throw (popped : ℕ) (catchable : Bool)
  deriving DecidableEq, Repr

/-- Pop the operands, push the results and go on. -/
def goOn (bc : List UInt8) (pos : ℕ) (oi : JSOpCode) (stack : List Slot) (branch : Bool)
    (pushed : List Slot) : Option State :=
  let e := effect bc pos oi branch
  let stack := if branch then clearEnumerator bc pos oi stack else stack
  if stack.length < e.2.1 then some .underflow
  else
    match catchSlots bc pos oi with
    | some slots => some (.running e.1 (slots ++ stack.drop e.2.1))
    | none =>
      if pushed.length = e.2.2 then some (.running e.1 (pushed ++ stack.drop e.2.1)) else none

/-- An instruction that completes. -/
def execute (bc : List UInt8) (pos : ℕ) (oi : JSOpCode) (stack : List Slot) (branch : Bool)
    (pushed : List Slot) : Option State :=
  let nPop := oi.nPop + variablePops bc pos oi
  match oi.op with
  | .gosub | .ret => none -- not modelled
  | .iteratorCloseReturn => some (iteratorCloseReturn (pos + oi.size) stack)
  | .tailCall | .tailCallMethod | .return_ | .returnUndef | .returnAsync =>
    some (if stack.length < nPop then .underflow else .finished)
  | .throw_ | .throwError =>
    some (if stack.length < nPop then .underflow else unwind (stack.drop nPop))
  | _ => goOn bc pos oi stack branch pushed

def step (bc : List UInt8) : State → Choice → Option State
  | .running pc stack, c =>
    if pc < 0 ∨ (bc.length : ℤ) ≤ pc then none
    else
      match fetch bc pc.toNat, c with
      | none, _ => some (unwind stack)
      | some oi, .next branch pushed => execute bc pc.toNat oi stack branch pushed
      | some oi, .throw popped catchable =>
        if oi.nPop + variablePops bc pc.toNat oi < popped then none
        else if stack.length < popped then some .underflow
        else if catchable then some (unwind ((clearEnumerator bc pc.toNat oi stack).drop popped))
        else some .finished
  | .finished, _ | .underflow, _ => none

/-- The entry of a function. -/
def Entry (s : State) : Prop := s = .running 0 []

/-- A catch offset that is pushed was in its place before. -/
def Unmoved (popped pushed : List Slot) : Prop :=
  ∀ (i : ℕ) pos, pushed.reverse[i]? = some (.catchOffset pos) → popped.reverse[i]? = some (.catchOffset pos)

/-- A step that does not move catch offsets. `iterator_close_return` may move that of the
enumerator it closes, which has to lie directly below the return value. -/
def Tame (bc : List UInt8) : State → Choice → Prop
  | .running pc stack, .next branch pushed =>
    ∀ oi, fetch bc pc.toNat = some oi → if oi.op = .iteratorCloseReturn then
        ∃ rest, stack = .value :: .catchOffset 0 :: .value :: .value :: rest
      else
        catchSlots bc pc.toNat oi = none → Unmoved (stack.take (effect bc pc.toNat oi branch).2.1) pushed
  | _, _ => True

/-- A state that `compute_stack_size` has foreseen: the stack is not below its base and not
above the size, and the position is that of a whole instruction whose operands are on
the stack. -/
def Safe (bc : List UInt8) (size : ℕ) : State → Prop
  | .running pc stack => stack.length ≤ size ∧ 0 ≤ pc ∧ ∃ oi, fetch bc pc.toNat = some oi ∧
      pc + oi.size ≤ bc.length ∧ oi.nPop + variablePops bc pc.toNat oi ≤ stack.length
  | .finished => True
  | .underflow => False

/-! ## The handlers on the stack -/

variable {bc : List UInt8} {level : ℕ → Option ℕ} {stack popped pushed : List Slot} {slot : Slot}
  {s s' : State} {c : Choice} {pos size i : ℕ} {pc : ℤ} {oi : JSOpCode} {branch : Bool}

/-- A catch offset at the depth `i`: an enumerator lies on its two slots, and a handler starts
with the exception in place of the offset. -/
def Handler (level : ℕ → Option ℕ) (i : ℕ) (pos : ℤ) : Prop :=
  pos = 0 ∧ 2 ≤ i ∨ 0 < pos ∧ level pos.toNat = some (i + 1)

def Handlers (level : ℕ → Option ℕ) (stack : List Slot) : Prop :=
  ∀ (i : ℕ) pos, stack.reverse[i]? = some (.catchOffset pos) → Handler level i pos

/-- A state whose depth is the noted one. -/
def Good (level : ℕ → Option ℕ) : State → Prop
  | .running pc stack => 0 ≤ pc ∧ level pc.toNat = some stack.length ∧ Handlers level stack
  | .finished => True
  | .underflow => False

theorem Handlers.nil : Handlers level [] := nofun

/-- Slots on top of a stack. -/
theorem Handlers.append (h : Handlers level stack)
    (hp : ∀ (i : ℕ) pos, pushed.reverse[i]? = some (.catchOffset pos) →
      Handler level (stack.length + i) pos) : Handlers level (pushed ++ stack) := by
  intro i pos hi
  rw [List.reverse_append, List.getElem?_append, List.length_reverse] at hi
  split at hi
  · exact h i pos hi
  · rename_i hle
    have := hp _ pos hi
    rwa [Nat.add_sub_cancel' (Nat.le_of_not_lt hle)] at this

theorem Handlers.of_append (h : Handlers level (popped ++ stack)) : Handlers level stack := by
  intro i pos hi
  apply h
  rw [List.reverse_append, List.getElem?_append_left]
  · exact hi
  · exact (List.getElem?_eq_some_iff.mp hi).1

theorem Handlers.drop (h : Handlers level stack) (k : ℕ) : Handlers level (stack.drop k) := by
  rw [← List.take_append_drop k stack] at h
  exact h.of_append

/-- The handlers among the slots that are popped. -/
theorem Handlers.inPopped (h : Handlers level (popped ++ stack)) {pos : ℤ}
    (hi : popped.reverse[i]? = some (.catchOffset pos)) : Handler level (stack.length + i) pos := by
  apply h
  rw [List.reverse_append, List.getElem?_append_right] <;> rw [List.length_reverse]
  · rwa [Nat.add_sub_cancel_left]
  · exact Nat.le_add_right _ _

theorem Handlers.set_value (h : Handlers level stack) (k : ℕ) : Handlers level (stack.set k .value) := by
  intro i pos hi
  apply h
  have hlt : i < stack.length := by
    have := (List.getElem?_eq_some_iff.mp hi).1
    rwa [List.length_reverse, List.length_set] at this
  rw [List.getElem?_reverse (by rwa [List.length_set]), List.getElem?_set] at hi
  rw [List.getElem?_reverse hlt]
  split at hi
  · split at hi <;> cases hi
  · rwa [List.length_set] at hi

theorem Handlers.cons_value (h : Handlers level stack) : Handlers level (.value :: stack) :=
  have hnone : ∀ (i : ℕ) pos, [Slot.value].reverse[i]? = some (.catchOffset pos) →
      Handler level (stack.length + i) pos := fun i pos hi => by
    cases i <;> cases hi
  h.append hnone

theorem Handlers.tail (h : Handlers level (slot :: stack)) : Handlers level stack :=
  Handlers.of_append (show Handlers level ([slot] ++ stack) from h)

theorem Handlers.head {pos : ℤ} (h : Handlers level (.catchOffset pos :: stack)) :
    Handler level stack.length pos :=
  have hfirst : [Slot.catchOffset pos].reverse[0]? = some (.catchOffset pos) := rfl
  Handlers.inPopped h hfirst

/-- The unwinding of a stack ends at a handler or drops all slots. -/
theorem Handlers.unwind : ∀ {stack : List Slot}, Handlers level stack → Good level (unwind stack)
  | [], _ => trivial
  | .value :: _, h => h.tail.unwind
  | .catchOffset pos :: stack, h => by
    unfold Bytecode.unwind
    have hhead := h.head
    split
    · rename_i hpos
      have hlen : 2 ≤ stack.length := by
        rcases hhead with ⟨_, hlen⟩ | ⟨hlt, _⟩
        · exact hlen
        · omega
      match stack, h.tail, hlen with
      | _ :: slot :: stack, ht, _ => exact ht.tail.unwind
    · rename_i hpos
      rcases hhead with ⟨rfl, _⟩ | ⟨hlt, hlevel⟩
      · exact absurd rfl hpos
      · exact ⟨Int.le_of_lt hlt, hlevel, h.tail.cons_value⟩

theorem Handlers.clearEnumerator (h : Handlers level stack) :
    Handlers level (clearEnumerator bc pos oi stack) := by
  unfold Bytecode.clearEnumerator
  split
  · exact h.set_value _
  · exact h

theorem length_clearEnumerator : (clearEnumerator bc pos oi stack).length = stack.length := by
  unfold clearEnumerator
  split
  · exact List.length_set
  · rfl

/-! ## An instruction follows the checks -/

/-- The pops and pushes of the instructions that jump or handle a catch offset. -/
def fixedEffect : OPCodeEnum → Option (ℕ × ℕ)
  | .goto | .goto16 | .goto8 => some (0, 0)
  | .ifTrue | .ifFalse | .ifTrue8 | .ifFalse8 => some (1, 0)
  | .withGetVar | .withDeleteVar | .withMakeRef | .withGetRef | .withGetRefUndef => some (1, 0)
  | .withPutVar => some (2, 1)
  | .catch_ => some (0, 1)
  | .forOfStart | .forAwaitOfStart => some (1, 3)
  | .iteratorCloseReturn => some (4, 4)
  | _ => none

set_option maxRecDepth 4096 in
theorem opcodeInfo_fixedEffect : ∀ oi ∈ opcodeInfo, ∀ e ∈ fixedEffect oi.op,
    oi.nPop = e.1 ∧ oi.nPush = e.2 ∧ oi.fmt ∉ [.npop, .npopU16, .npopx] := by
  decide +kernel

theorem fetch_mem (h : fetch bc pos = some oi) : oi ∈ opcodeInfo := by
  unfold fetch at h
  split at h
  · cases h
  · exact List.mem_of_getElem? h

variable {pops pushes : ℕ} {slots : List Slot}

theorem fetch_fixedEffect (h : fetch bc pos = some oi)
    (he : fixedEffect oi.op = some (pops, pushes)) :
    oi.nPop + variablePops bc pos oi = pops ∧ oi.nPush = pushes := by
  obtain ⟨hpop, hpush, hfmt⟩ := opcodeInfo_fixedEffect oi (fetch_mem h) _ he
  have hvar : variablePops bc pos oi = 0 := by
    unfold variablePops
    split <;> rename_i hfmt'
    · rw [hfmt'] at hfmt
      simp at hfmt
    · rw [hfmt'] at hfmt
      simp at hfmt
    · rw [hfmt'] at hfmt
      simp at hfmt
    · rfl
  exact ⟨by rw [hpop, hvar, Nat.add_zero], hpush⟩

/-- The instructions that nothing follows. -/
def Terminal (op : OPCodeEnum) : Prop :=
  op ∈ [.tailCall, .tailCallMethod, .return_, .returnUndef, .returnAsync, .throw_, .throwError, .ret]

/-- The next instruction is checked, except after a jump. -/
theorem next_mem_checks (hop : ¬Terminal oi.op) (hgoto : oi.op ∉ [.goto, .goto16, .goto8]) (l : ℕ) :
    ((pos + oi.size : ℤ), l) ∈ checks bc pos oi l := by
  unfold checks
  split <;> rename_i heq <;> simp_all [Terminal]

/-- Where an instruction goes on, and with which depth, is among the checks. -/
theorem effect_mem_checks (h : fetch bc pos = some oi) (hop : ¬Terminal oi.op)
    {l : ℕ} (hl : oi.nPop + variablePops bc pos oi ≤ l) {pc : ℤ}
    (he : effect bc pos oi branch = (pc, pops, pushes)) :
    pops ≤ l ∧ (pc, pushes + (l - pops)) ∈
      checks bc pos oi (l + oi.nPush - (oi.nPop + variablePops bc pos oi)) := by
  unfold effect at he
  split at he
  case h_20 hgoto hgoto16 hgoto8 _ _ _ _ _ _ _ _ _ _ _ _ _ _ _ _ =>
    cases he
    have hlen : oi.nPush + (l - (oi.nPop + variablePops bc pos oi)) =
        l + oi.nPush - (oi.nPop + variablePops bc pos oi) := by omega
    rw [hlen]
    refine ⟨hl, next_mem_checks hop ?_ _⟩
    simpa using ⟨hgoto, hgoto16, hgoto8⟩
  -- a jump, or an instruction of `with` that goes on
  all_goals
    rename_i heq
    cases he
    obtain ⟨hpop, hpush⟩ := fetch_fixedEffect h (by rw [heq]; rfl)
    unfold checks
    simp only [heq, List.mem_cons, Prod.mk.injEq, true_and]
    omega

/-! ## A step keeps the noted depth -/

/-- Instructions that push catch offsets have the effect of the table. -/
theorem effect_of_catchSlots (h : fetch bc pos = some oi)
    (hslots : catchSlots bc pos oi = some slots) : ¬Terminal oi.op ∧
    effect bc pos oi branch = ((pos + oi.size : ℤ), oi.nPop + variablePops bc pos oi, slots.length) := by
  unfold catchSlots at hslots
  split at hslots
  · rename_i hop
    cases hslots
    obtain ⟨_, hpush⟩ := fetch_fixedEffect h (by rw [hop]; rfl)
    simp [Terminal, effect, hop, hpush]
  · rename_i hop
    cases hslots
    obtain ⟨_, hpush⟩ := fetch_fixedEffect h (by rw [hop]; rfl)
    simp [Terminal, effect, hop, hpush]
  · rename_i hop
    cases hslots
    obtain ⟨_, hpush⟩ := fetch_fixedEffect h (by rw [hop]; rfl)
    simp [Terminal, effect, hop, hpush]
  · cases hslots

/-- The catch offset of an enumerator is pushed on top of two slots. -/
theorem Handlers.forOfStart (h : Handlers level stack) :
    Handlers level ([.catchOffset 0, .value, .value] ++ stack) :=
  h.append fun i pos hi => by
    match i with
    | 0 | 1 => cases hi
    | 2 =>
      cases hi
      exact .inl ⟨rfl, Nat.le_add_left _ _⟩
    | _ + 3 => cases hi

/-- A catch offset that is pushed is a position that has been checked. -/
theorem Handlers.catchSlots (h : Handlers level stack)
    (hcert : Certificate bc size level) (hf : fetch bc pos = some oi)
    (hlevel : level pos = some stack.length) (hslots : catchSlots bc pos oi = some slots) :
    Handlers level (slots ++ stack.drop (oi.nPop + variablePops bc pos oi)) := by
  unfold Bytecode.catchSlots at hslots
  split at hslots
  · rename_i hop
    cases hslots
    obtain ⟨oi', hf', -, -, -, hc⟩ := hcert.checked _ _ hlevel
    cases hf.symm.trans hf'
    obtain ⟨hpop, hpush⟩ := fetch_fixedEffect hf (by rw [hop]; rfl)
    rw [hpop, hpush] at hc
    rw [hpop]
    refine h.append fun i target hi => ?_
    match i with
    | 0 =>
      cases hi
      obtain ⟨h0, _, hlevel'⟩ := hc (pos + 1 + signed 32 (getU32 bc (pos + 1)), stack.length + 1)
        (by simp [checks, hop])
      refine .inr ⟨Int.lt_iff_le_and_ne.mpr ⟨h0, fun heq => ?_⟩, hlevel'⟩
      -- the entry has depth 0, a handler has not
      rw [← heq] at hlevel'
      cases hcert.entry.symm.trans hlevel'
    | _ + 1 => cases hi
  · cases hslots
    exact (h.drop _).forOfStart
  · cases hslots
    exact (h.drop _).forOfStart
  · cases hslots

section

variable (hcert : Certificate bc size level) (hf : fetch bc pos = some oi) (hop : ¬Terminal oi.op) (hlevel : level pos = some stack.length)

include hcert hf hop hlevel

/-- Where an instruction goes on has the depth that is noted there. -/
theorem Certificate.effect
    (branch : Bool) :
    let e := effect bc pos oi branch
    e.2.1 ≤ stack.length ∧ 0 ≤ e.1 ∧ level e.1.toNat = some (e.2.2 + (stack.length - e.2.1)) := by
  intro e
  obtain ⟨oi', hf', -, hpop, -, hc⟩ := hcert.checked _ _ hlevel
  cases hf.symm.trans hf'
  have he : Bytecode.effect bc pos oi branch = (e.1, e.2.1, e.2.2) := rfl
  obtain ⟨hle, hmem⟩ := effect_mem_checks hf hop hpop he
  obtain ⟨h0, _, hnext⟩ := hc _ hmem
  exact ⟨hle, h0, hnext⟩

/-- An instruction that goes on. -/
theorem Good.goOn
    (hh : Handlers level stack)
    (hunmoved : catchSlots bc pos oi = none → Unmoved (stack.take (effect bc pos oi branch).2.1) pushed)
    (hs : goOn bc pos oi stack branch pushed = some s') : Good level s' := by
  unfold Bytecode.goOn at hs
  extract_lets e stack' at hs
  have hlen : stack'.length = stack.length := by
    unfold stack'
    split
    · exact length_clearEnumerator
    · rfl
  have hh' : Handlers level stack' := by
    unfold stack'
    split
    · exact hh.clearEnumerator
    · exact hh
  obtain ⟨hpop, h0, hnext⟩ := hcert.effect hf hop hlevel branch
  rw [if_neg (hlen ▸ Nat.not_lt.mpr hpop)] at hs
  split at hs
  · rename_i slots hslots
    have he : e = _ := (effect_of_catchSlots hf hslots).2
    cases hs
    refine ⟨h0, ?_, ?_⟩
    · rw [hnext, List.length_append, List.length_drop, hlen, he, (effect_of_catchSlots hf hslots).2]
    · rw [he]
      exact hh'.catchSlots hcert hf (hlen ▸ hlevel) hslots
  · rename_i hnone
    split at hs
    · rename_i hpushed
      cases hs
      refine ⟨h0, ?_, (hh'.drop _).append fun i pos hi => ?_⟩
      · rw [hnext, List.length_append, List.length_drop, hlen, hpushed]
      · rw [← List.take_append_drop e.2.1 stack] at hh
        rw [List.length_drop, hlen, ← List.length_drop]
        exact hh.inPopped (hunmoved hnone i pos hi)
    · cases hs

end

section

variable (hcert : Certificate bc size level)

include hcert

/-- A return out of the body of a loop over an enumerator. -/
theorem Good.iteratorCloseReturn (hf : fetch bc pos = some oi)
    (hop : oi.op = .iteratorCloseReturn)
    (hlevel : level pos = some (Slot.value :: .catchOffset 0 :: .value :: .value :: stack).length)
    (hh : Handlers level (.value :: .catchOffset 0 :: .value :: .value :: stack)) :
    Good level (iteratorCloseReturn (pos + oi.size)
      (.value :: .catchOffset 0 :: .value :: .value :: stack)) := by
  obtain ⟨oi', hf', -, hpop, -, hc⟩ := hcert.checked _ _ hlevel
  cases hf.symm.trans hf'
  obtain ⟨hpop, hpush⟩ := fetch_fixedEffect hf (by rw [hop]; rfl)
  rw [hpop, hpush] at hc
  obtain ⟨h0, _, hnext⟩ := hc (pos + oi.size, _) (next_mem_checks (by simp [Terminal, hop])
    (by simp [hop]) _)
  exact ⟨h0, hnext, hh.tail.tail.tail.tail.cons_value.forOfStart⟩

theorem Good.execute (hf : fetch bc pos = some oi)
    (hlevel : level pos = some stack.length) (hh : Handlers level stack)
    (ht : if oi.op = .iteratorCloseReturn then
        ∃ rest, stack = .value :: .catchOffset 0 :: .value :: .value :: rest
      else catchSlots bc pos oi = none → Unmoved (stack.take (effect bc pos oi branch).2.1) pushed)
    (hs : execute bc pos oi stack branch pushed = some s') : Good level s' := by
  obtain ⟨oi', hf', -, hpop, -, -⟩ := hcert.checked _ _ hlevel
  cases hf.symm.trans hf'
  unfold Bytecode.execute at hs
  simp only [Nat.not_lt.mpr hpop] at hs
  split at hs
  case h_11 hclose _ _ _ _ _ _ _ =>
    rw [if_neg hclose] at ht
    exact Good.goOn hcert hf (by simp_all [Terminal]) hlevel hh ht hs
  · cases hs
  · cases hs
  · rename_i hop
    rw [if_pos hop] at ht
    obtain ⟨rest, rfl⟩ := ht
    cases hs
    exact Good.iteratorCloseReturn hcert hf hop hlevel hh
  iterate 5
    cases hs
    trivial
  iterate 2
    cases hs
    exact (hh.drop _).unwind

/-- A step that does not move catch offsets. -/
theorem Good.step (h : Good level s) (ht : Tame bc s c)
    (hs : step bc s c = some s') : Good level s' := by
  cases s with
  | finished => cases hs
  | underflow => cases hs
  | running pc stack =>
    obtain ⟨h0, hlevel, hh⟩ := h
    obtain ⟨oi, hf, -, hpop, -, -⟩ := hcert.checked _ _ hlevel
    have hlt := hcert.lt _ _ hlevel
    simp only [Bytecode.step, if_neg (show ¬(pc < 0 ∨ (bc.length : ℤ) ≤ pc) by omega), hf] at hs
    cases c with
    | next branch pushed =>
      exact Good.execute hcert hf hlevel hh (ht oi hf) hs
    | throw popped catchable =>
      simp only at hs
      split at hs
      · cases hs
      rw [if_neg (by omega)] at hs
      split at hs
      · cases hs
        exact (hh.clearEnumerator.drop _).unwind
      · cases hs
        trivial

theorem Good.safe (h : Good level s) : Safe bc size s := by
  cases s with
  | finished => trivial
  | underflow => exact h
  | running pc stack =>
    obtain ⟨h0, hlevel, -⟩ := h
    obtain ⟨oi, hf, hsize, hpop, -, -⟩ := hcert.checked _ _ hlevel
    exact ⟨hcert.le _ _ hlevel, h0, oi, hf, by omega, hpop⟩

/-- Whatever a function does, its depths are the noted ones. -/
theorem Good.ofReachable
    (h : Reachable Entry (Bytecode.step bc) (Tame bc) s) : Good level s :=
  h.invariant (fun _ hs => hs ▸ ⟨Int.le_refl 0, hcert.entry, .nil⟩)
    fun _ _ _ hgood ht hs => hgood.step hcert ht hs

end

/-- When the size of the stack has been computed, a function that does not move catch offsets
stays within it, and its depth at a position is always the same. -/
theorem computeStackSize_sound (h : computeStackSize bc = .ok size) :
    (∀ s, Reachable Entry (step bc) (Tame bc) s → Safe bc size s) ∧
    ∀ pc stack stack', Reachable Entry (step bc) (Tame bc) (.running pc stack) →
      Reachable Entry (step bc) (Tame bc) (.running pc stack') → stack.length = stack'.length := by
  obtain ⟨level, hcert⟩ := certificate_of_computeStackSize h
  refine ⟨fun s hs => (Good.ofReachable hcert hs).safe hcert, fun pc stack stack' hs hs' => ?_⟩
  obtain ⟨-, hlevel, -⟩ := Good.ofReachable hcert hs
  obtain ⟨-, hlevel', -⟩ := Good.ofReachable hcert hs'
  exact Option.some.inj (hlevel.symm.trans hlevel')

/-- A function that catches an exception of `get_var`. -/
theorem computeStackSize_sound_example : ∃ s,
    exec (step [108, 13, 0, 0, 0, 56, 0, 0, 0, 0, 14, 14, 41, 0, 14, 41]) (.running 0 [])
      [.next false [], .throw 0 true] = some s ∧
    Safe [108, 13, 0, 0, 0, 56, 0, 0, 0, 0, 14, 14, 41, 0, 14, 41] 2 s := by
  have hinit : Reachable Entry (step [108, 13, 0, 0, 0, 56, 0, 0, 0, 0, 14, 14, 41, 0, 14, 41])
      (Tame [108, 13, 0, 0, 0, 56, 0, 0, 0, 0, 14, 14, 41, 0, 14, 41]) (.running 0 []) := .init rfl
  refine ⟨.running 14 [.value], by decide, (computeStackSize_sound (by decide +kernel)).1 _ ?_⟩
  refine (hinit.step (o := Choice.next false []) (fun oi hf => ?_) rfl).step
    (o := Choice.throw 0 true) trivial rfl
  cases hf
  nofun

/-- The positions of the instructions from `pos` on. -/
def instructionsFrom (bc : List UInt8) : ℕ → ℕ → List ℕ
  | 0, _ => []
  | fuel + 1, pos =>
    if bc.length ≤ pos then []
    else
      match fetch bc pos with
      | none => []
      | some oi => pos :: instructionsFrom bc fuel (pos + oi.size)

def instructions (bc : List UInt8) : List ℕ := instructionsFrom bc bc.length 0

/-- There is no `gosub` or `ret`. -/
def NoSubroutines (bc : List UInt8) : Prop :=
  ∀ pos ∈ instructions bc, ∀ oi ∈ fetch bc pos, oi.op ≠ .gosub ∧ oi.op ≠ .ret

instance : Decidable (NoSubroutines bc) :=
  inferInstanceAs (Decidable (∀ pos ∈ instructions bc, ∀ oi ∈ fetch bc pos, _))

/-- Without further conditions, `iterator_close_return` may drop slots that are counted as
still there, a jump may lead into an operand, and a catch offset that has been swapped leads
to a handler with one more slot. -/
theorem computeStackSize_unsound : (∃ bc size, NoSubroutines bc ∧ computeStackSize bc = .ok size ∧
      Reachable Entry (step bc) (fun _ _ => True) .underflow) ∧
    (∃ bc size pc stack, NoSubroutines bc ∧ computeStackSize bc = .ok size ∧
      Reachable Entry (step bc) (fun _ _ => True) (.running pc stack) ∧
      pc.toNat ∉ instructions bc) ∧
    ∃ bc size pc stack stack', NoSubroutines bc ∧ computeStackSize bc = .ok size ∧
      Reachable Entry (step bc) (fun _ _ => True) (.running pc stack) ∧
      Reachable Entry (step bc) (fun _ _ => True) (.running pc stack') ∧
      stack.length ≠ stack'.length := by
  have hrun : ∀ {bc s} os, exec (step bc) (.running 0 []) os = some s →
      Reachable Entry (step bc) (fun _ _ => True) s :=
    fun _ hs => Reachable.exec (fun _ _ => trivial) (.init rfl) hs
  refine ⟨⟨[6, 125, 6, 6, 132, 14, 14, 14, 14, 14, 41], 5, by decide +kernel, by decide +kernel,
      hrun [.next false [.value], .next false [], .next false [.value], .next false [.value],
        .next false [], .next false [], .next false [], .next false [], .next false [],
        .next false []] rfl⟩,
    ⟨[237, 2, 190, 41], 0, 3, [], by decide +kernel, by decide +kernel,
      hrun [.next false []] rfl, by decide +kernel⟩,
    ⟨[108, 19, 0, 0, 0, 56, 0, 0, 0, 0, 27, 56, 0, 0, 0, 0, 14, 14, 14, 41, 14, 41], 3, 20,
      [.value], [.value, .value], by decide +kernel, by decide +kernel,
      hrun [.next false [], .throw 0 true] rfl,
      hrun [.next false [], .next false [.value], .next false [.catchOffset 20, .value],
        .throw 0 true] rfl, by decide⟩⟩

end QuickJs.Bytecode
