import QuickJs.Opcode
import QuickJs.Rounds
import Mathlib.Data.List.Basic

/-!
# The size of the stack

`compute_stack_size` explores the instructions of a function from its entry and notes the
depth of the stack at each. A position is explored once; whenever it is reached again
the depth must be the same.
-/

namespace QuickJs.Bytecode

/-- `JS_STACK_SIZE_MAX`. -/
def jsStackSizeMax : ℕ := 65534

/-- `StackSizeState`. -/
structure StackSizeState where
  stackLenMax : ℕ
  /-- an unexplored position, `0xffff` in the source, has no level -/
  stackLevelTab : List (Option ℕ)
  pcStack : List ℕ
  deriving DecidableEq, Repr

/-- The internal errors, with the opcode and the position they report. -/
inductive StackSizeError
  /-- "bytecode buffer overflow (op=%d, pc=%d)" -/
  | bytecodeBufferOverflow (op : ℕ) (pc : ℤ)
  /-- "stack overflow (op=%d, pc=%d)" -/
  | stackOverflow (op : ℕ) (pc : ℤ)
  /-- "unconsistent stack size: %d %d (pc=%d)" -/
  | unconsistentStackSize (level stackLen : ℕ) (pc : ℤ)
  /-- "invalid opcode (op=%d, pc=%d)" -/
  | invalidOpcode (op : ℕ) (pc : ℤ)
  /-- "stack underflow (op=%d, pc=%d)" -/
  | stackUnderflow (op : ℕ) (pc : ℤ)
  /-- the loop of the model has run out of steps -/
  | outOfSteps
  deriving DecidableEq, Repr

/-- Raise the maximum to `stack_len`. -/
def StackSizeState.raise (s : StackSizeState) (pos : ℤ) (op stackLen : ℕ) :
    Except StackSizeError StackSizeState :=
  if s.stackLenMax < stackLen then
    if jsStackSizeMax < stackLen then .error (.stackOverflow op pos)
    else .ok { s with stackLenMax := stackLen }
  else .ok s

/-- `ss_check`. -/
def ssCheck (bcLen : ℕ) (s : StackSizeState) (pos : ℤ) (op stackLen : ℕ) :
    Except StackSizeError StackSizeState :=
  if pos < 0 ∨ (bcLen : ℤ) ≤ pos then .error (.bytecodeBufferOverflow op pos)
  else (s.raise pos op stackLen).bind fun s =>
    match s.stackLevelTab[pos.toNat]?.join with
    | some level =>
      if level = stackLen then .ok s
      else .error (.unconsistentStackSize level stackLen pos)
    | none => .ok { s with
        stackLevelTab := s.stackLevelTab.set pos.toNat (some stackLen)
        pcStack := pos.toNat :: s.pcStack }

/-- The calls of `ss_check` for an instruction, in their order: the positions that follow
it with their depths, when its own depth is `stackLen` after it has been executed. -/
def checks (bc : List UInt8) (pos : ℕ) (oi : JSOpCode) (stackLen : ℕ) : List (ℤ × ℕ) :=
  let posNext : ℤ := pos + oi.size
  let diff : ℤ := signed 32 (getU32 bc (pos + 1))
  let diff8 : ℤ := signed 8 (byte bc (pos + 1))
  let withDiff : ℤ := signed 32 (getU32 bc (pos + 5))
  match oi.op with
  | .tailCall | .tailCallMethod | .return_ | .returnUndef | .returnAsync | .throw_ | .throwError
  | .ret => []
  | .goto => [(pos + 1 + diff, stackLen)]
  | .goto16 => [(pos + 1 + signed 16 (getU16 bc (pos + 1)), stackLen)]
  | .goto8 => [(pos + 1 + diff8, stackLen)]
  | .ifTrue8 | .ifFalse8 => [(pos + 1 + diff8, stackLen), (posNext, stackLen)]
  | .ifTrue | .ifFalse | .catch_ => [(pos + 1 + diff, stackLen), (posNext, stackLen)]
  | .gosub => [(pos + 1 + diff, stackLen + 1), (posNext, stackLen)]
  | .withGetVar | .withDeleteVar => [(pos + 5 + withDiff, stackLen + 1), (posNext, stackLen)]
  | .withMakeRef | .withGetRef | .withGetRefUndef =>
    [(pos + 5 + withDiff, stackLen + 2), (posNext, stackLen)]
  | .withPutVar => [(pos + 5 + withDiff, stackLen - 1), (posNext, stackLen)]
  | _ => [(posNext, stackLen)]

/-- The body of the loop for the instruction at `pos` with the depth `stackLen`. -/
def visit (bc : List UInt8) (s : StackSizeState) (pos stackLen : ℕ) :
    Except StackSizeError StackSizeState :=
  let op := byte bc pos
  match fetch bc pos with
  | none => .error (.invalidOpcode op pos)
  | some oi =>
    if bc.length < pos + oi.size then .error (.bytecodeBufferOverflow op pos)
    else
      let nPop := oi.nPop + variablePops bc pos oi
      if stackLen < nPop then .error (.stackUnderflow op pos)
      else
        let stackLen := stackLen + oi.nPush - nPop
        (s.raise pos op stackLen).bind fun s =>
          (checks bc pos oi stackLen).foldlM (fun s c => ssCheck bc.length s c.1 op c.2) s

/-- The loop of `compute_stack_size`. -/
def explore (bc : List UInt8) : ℕ → StackSizeState → Except StackSizeError StackSizeState
  | fuel, s =>
    match s.pcStack with
    | [] => .ok s
    | pos :: pcStack =>
      match fuel with
      | 0 => .error .outOfSteps
      | fuel + 1 =>
        (visit bc { s with pcStack := pcStack } pos (s.stackLevelTab[pos]?.join.getD 0)).bind
          (explore bc fuel)

/-- `compute_stack_size`. -/
def computeStackSize (bc : List UInt8) : Except StackSizeError ℕ :=
  (ssCheck bc.length ⟨0, List.replicate bc.length none, []⟩ 0 0 0).bind fun s =>
    (explore bc bc.length s).map StackSizeState.stackLenMax

/-! ## What a run of the algorithm certifies -/

variable {bc : List UInt8} {s s' t : StackSizeState} {pos op l n bcLen fuel : ℕ} {i : ℤ}
  {oi : JSOpCode}

/-- The depth noted at a position. -/
def StackSizeState.level (s : StackSizeState) (pos : ℕ) : Option ℕ := s.stackLevelTab[pos]?.join

/-- The instruction at `pos` may be executed at the depth `l`, and what follows it has the
depth that `level` gives. -/
def Checked (bc : List UInt8) (level : ℕ → Option ℕ) (max pos l : ℕ) : Prop :=
  ∃ oi, fetch bc pos = some oi ∧ pos + oi.size ≤ bc.length ∧ oi.nPop + variablePops bc pos oi ≤ l ∧
    l + oi.nPush - (oi.nPop + variablePops bc pos oi) ≤ max ∧
    ∀ c ∈ checks bc pos oi (l + oi.nPush - (oi.nPop + variablePops bc pos oi)),
      0 ≤ c.1 ∧ c.1 < bc.length ∧ level c.1.toNat = some c.2

/-- The depths `level` are consistent with every instruction that has one. -/
structure Certificate (bc : List UInt8) (max : ℕ) (level : ℕ → Option ℕ) : Prop where
  entry : level 0 = some 0
  le : ∀ pos l, level pos = some l → l ≤ max
  lt : ∀ pos l, level pos = some l → pos < bc.length
  checked : ∀ pos l, level pos = some l → Checked bc level max pos l

/-! ## The steps of the exploration -/

/-- What a part of the exploration does to the state: levels stay, and a new one is queued. -/
structure Grows (s s' : StackSizeState) : Prop where
  max : s.stackLenMax ≤ s'.stackLenMax
  level : ∀ p l, s.level p = some l → s'.level p = some l
  new : ∀ p l, s'.level p = some l → s.level p = some l ∨ p ∈ s'.pcStack ∧ l ≤ s'.stackLenMax
  queued : ∀ p ∈ s.pcStack, p ∈ s'.pcStack
  ofQueued : ∀ p ∈ s'.pcStack, p ∈ s.pcStack ∨ ∃ l, s'.level p = some l
  length : s'.stackLevelTab.length = s.stackLevelTab.length
  /-- an unexplored position becomes a queued one -/
  work : s'.stackLevelTab.count none + s'.pcStack.length = s.stackLevelTab.count none + s.pcStack.length

theorem Grows.refl (s : StackSizeState) : Grows s s :=
  ⟨Nat.le_refl _, fun _ _ h => h, fun _ _ h => .inl h, fun _ h => h, fun _ h => .inl h, rfl, rfl⟩

theorem Grows.trans (h : Grows s t) (h' : Grows t s') : Grows s s' where
  max := Nat.le_trans h.max h'.max
  level p l hp := h'.level p l (h.level p l hp)
  new p l hp := by
    rcases h'.new p l hp with hp | hp
    · rcases h.new p l hp with hp | ⟨hq, hl⟩
      · exact .inl hp
      · exact .inr ⟨h'.queued p hq, Nat.le_trans hl h'.max⟩
    · exact .inr hp
  queued p hp := h'.queued p (h.queued p hp)
  ofQueued p hp := by
    rcases h'.ofQueued p hp with hp | hp
    · rcases h.ofQueued p hp with hp | ⟨l, hl⟩
      · exact .inl hp
      · exact .inr ⟨l, h'.level p l hl⟩
    · exact .inr hp
  length := h'.length.trans h.length
  work := h'.work.trans h.work

theorem Checked.mono (h : Checked bc s.level s.stackLenMax pos l) (hg : Grows s s') :
    Checked bc s'.level s'.stackLenMax pos l := by
  obtain ⟨oi, hf, hsize, hpop, hmax, hc⟩ := h
  refine ⟨oi, hf, hsize, hpop, Nat.le_trans hmax hg.max, fun c hcm => ?_⟩
  obtain ⟨h0, hlt, hlevel⟩ := hc c hcm
  exact ⟨h0, hlt, hg.level _ _ hlevel⟩

theorem raise_eq_ok (h : s.raise i op l = .ok s') :
    Grows s s' ∧ l ≤ s'.stackLenMax ∧ s'.level = s.level ∧ s'.pcStack = s.pcStack := by
  unfold StackSizeState.raise at h
  split at h
  · rename_i hlt
    split at h
    · cases h
    · cases h
      exact ⟨⟨Nat.le_of_lt hlt, fun _ _ h => h, fun _ _ h => .inl h, fun _ h => h, fun _ h => .inl h,
        rfl, rfl⟩,
        Nat.le_refl _, rfl, rfl⟩
  · rename_i hle
    cases h
    exact ⟨.refl s, Nat.le_of_not_lt hle, rfl, rfl⟩

theorem level_set {p q : ℕ} (hp : p < s.stackLevelTab.length) :
    (s.stackLevelTab.set p (some l))[q]?.join = if q = p then some l else s.level q := by
  split
  · rename_i h
    rw [h, List.getElem?_set_self hp, Option.join_some]
  · rename_i h
    rw [List.getElem?_set_ne (Ne.symm h), StackSizeState.level]

/-- `ss_check` succeeds with a level for the position. -/
theorem ssCheck_eq_ok (hlen : s.stackLevelTab.length = bcLen) (h : ssCheck bcLen s i op l = .ok s') :
    Grows s s' ∧ 0 ≤ i ∧ i < bcLen ∧ s'.level i.toNat = some l := by
  unfold ssCheck at h
  split at h
  · cases h
  obtain ⟨t, ht, h⟩ := Rounds.bind_eq_ok h
  obtain ⟨hg, hl, hlevel, _⟩ := raise_eq_ok ht
  have hlt : i.toNat < t.stackLevelTab.length := by
    rw [hg.length]
    omega
  refine ⟨?_, by omega, by omega, ?_⟩ <;> split at h
  · split at h
    · cases h
      exact hg
    · cases h
  · rename_i hnone
    cases h
    refine hg.trans ⟨Nat.le_refl _, fun p l' hp => ?_, fun p l' hp => ?_, fun p hp => .tail _ hp,
      fun p hp => ?_, List.length_set, ?_⟩
    · refine (level_set hlt).trans ?_
      rw [if_neg, hp]
      rintro rfl
      rw [StackSizeState.level, hnone] at hp
      cases hp
    · rw [StackSizeState.level, level_set hlt] at hp
      split at hp
      · rename_i hpi
        cases hp
        exact .inr ⟨hpi ▸ .head _, hl⟩
      · exact .inl hp
    · rcases List.mem_cons.mp hp with rfl | hp
      · exact .inr ⟨l, (level_set hlt).trans (if_pos rfl)⟩
      · exact .inl hp
    · have hget : t.stackLevelTab[i.toNat] = none := by
        rw [List.getElem?_eq_getElem hlt] at hnone
        exact hnone
      have hpos : 0 < t.stackLevelTab.count none :=
        List.count_pos_iff.mpr (hget ▸ List.getElem_mem hlt)
      rw [List.count_set hlt, hget, List.length_cons]
      simp only [if_true, reduceCtorEq, beq_iff_eq, if_false]
      omega
  · rename_i level hsome
    split at h
    · rename_i heq
      cases h
      rw [StackSizeState.level, hsome, heq]
    · cases h
  · cases h
    rw [StackSizeState.level, level_set hlt, if_pos rfl]

/-- All positions that follow an instruction. -/
theorem foldlM_ssCheck : ∀ {cs : List (ℤ × ℕ)} {s s' : StackSizeState},
    s.stackLevelTab.length = bcLen →
    cs.foldlM (fun s c => ssCheck bcLen s c.1 op c.2) s = .ok s' →
    Grows s s' ∧ ∀ c ∈ cs, 0 ≤ c.1 ∧ c.1 < bcLen ∧ s'.level c.1.toNat = some c.2
  | [], s, _, _, h => by
    cases h
    exact ⟨.refl s, nofun⟩
  | c :: cs, s, s', hlen, h => by
    rw [List.foldlM_cons] at h
    obtain ⟨t, ht, h⟩ := Rounds.bind_eq_ok h
    obtain ⟨hg, h0, hlt, hlevel⟩ := ssCheck_eq_ok hlen ht
    obtain ⟨hg', hcs⟩ := foldlM_ssCheck (hg.length.trans hlen) h
    refine ⟨hg.trans hg', fun c' hc' => ?_⟩
    rcases List.mem_cons.mp hc' with rfl | hc'
    · exact ⟨h0, hlt, hg'.level _ _ hlevel⟩
    · exact hcs c' hc'

theorem visit_eq_ok (hlen : s.stackLevelTab.length = bc.length) (h : visit bc s pos l = .ok s') :
    Grows s s' ∧ Checked bc s'.level s'.stackLenMax pos l := by
  unfold visit at h
  simp only at h
  split at h
  · cases h
  rename_i oi hf
  split at h
  · cases h
  rename_i hsize
  split at h
  · cases h
  rename_i hpop
  obtain ⟨t, ht, h⟩ := Rounds.bind_eq_ok h
  obtain ⟨hg, hl, _, _⟩ := raise_eq_ok ht
  obtain ⟨hg', hcs⟩ := foldlM_ssCheck (hg.length.trans hlen) h
  exact ⟨hg.trans hg', oi, hf, Nat.le_of_not_lt hsize, Nat.le_of_not_lt hpop, Nat.le_trans hl hg'.max, hcs⟩

/-! ## The whole exploration -/

/-- Every position with a level is queued or has been checked. -/
structure Explored (bc : List UInt8) (s : StackSizeState) : Prop where
  length : s.stackLevelTab.length = bc.length
  entry : s.level 0 = some 0
  le : ∀ p l, s.level p = some l → l ≤ s.stackLenMax
  checked : ∀ p l, s.level p = some l → p ∈ s.pcStack ∨ Checked bc s.level s.stackLenMax p l
  queued : ∀ p ∈ s.pcStack, ∃ l, s.level p = some l

/-- Visiting the first queued position. -/
theorem Explored.visit {pcStack : List ℕ} (h : Explored bc s) (hs : s.pcStack = pos :: pcStack)
    (hv : visit bc { s with pcStack := pcStack } pos ((s.level pos).getD 0) = .ok s') :
    Explored bc s' ∧ s'.stackLevelTab.count none + s'.pcStack.length + 1 =
      s.stackLevelTab.count none + s.pcStack.length := by
  obtain ⟨hg, hchecked⟩ := visit_eq_ok (s := { s with pcStack := pcStack }) h.length hv
  obtain ⟨l, hl⟩ := h.queued pos (hs ▸ .head _)
  rw [hl] at hchecked
  refine ⟨⟨hg.length.trans h.length, hg.level 0 0 h.entry, fun p l' hp => ?_, fun p l' hp => ?_,
    fun p hp => ?_⟩, ?_⟩
  · rcases hg.new p l' hp with hp | ⟨_, hle⟩
    · exact Nat.le_trans (h.le p l' hp) hg.max
    · exact hle
  · rcases hg.new p l' hp with hold | ⟨hq, _⟩
    · rcases h.checked p l' hold with hq | hc
      · rw [hs] at hq
        rcases List.mem_cons.mp hq with rfl | hq
        · rw [hg.level p l hl, Option.some.injEq] at hp
          exact .inr (hp ▸ hchecked)
        · exact .inl (hg.queued p hq)
      · exact .inr (Checked.mono (s := { s with pcStack := pcStack }) hc hg)
    · exact .inl hq
  · rcases hg.ofQueued p hp with hp | hp
    · obtain ⟨l', hl'⟩ := h.queued p (hs ▸ .tail _ hp)
      exact ⟨l', hg.level p l' hl'⟩
    · exact hp
  · have hwork := hg.work
    rw [hs, List.length_cons]
    simp only at hwork
    omega

/-- The exploration ends with everything checked. -/
theorem Explored.explore : ∀ {fuel : ℕ} {s s' : StackSizeState}, Explored bc s →
    explore bc fuel s = .ok s' → Explored bc s' ∧ s'.pcStack = []
  | fuel, s, s', h, hs => by
    unfold Bytecode.explore at hs
    split at hs
    · rename_i hnil
      cases hs
      exact ⟨h, hnil⟩
    · rename_i pos pcStack hcons
      split at hs
      · cases hs
      · obtain ⟨t, ht, hs⟩ := Rounds.bind_eq_ok hs
        exact (h.visit hcons ht).1.explore hs

/-- A part that does not run out of steps, before one that does not. -/
theorem bind_ne_outOfSteps {α β : Type} {x : Except StackSizeError α}
    {f : α → Except StackSizeError β} (hx : x ≠ .error .outOfSteps)
    (hf : ∀ a, x = .ok a → f a ≠ .error .outOfSteps) : x.bind f ≠ .error .outOfSteps := by
  cases x with
  | error e => exact fun h => hx (congrArg Except.error (Except.error.inj h))
  | ok a => exact hf a rfl

theorem raise_ne_outOfSteps : s.raise i op l ≠ .error .outOfSteps := by
  unfold StackSizeState.raise
  split
  · split <;> nofun
  · nofun

theorem ssCheck_ne_outOfSteps : ssCheck bcLen s i op l ≠ .error .outOfSteps := by
  unfold ssCheck
  split
  · nofun
  · refine bind_ne_outOfSteps raise_ne_outOfSteps fun t _ => ?_
    split
    · split <;> nofun
    · nofun

theorem foldlM_ne_outOfSteps : ∀ {cs : List (ℤ × ℕ)} {s : StackSizeState},
    cs.foldlM (fun s c => ssCheck bcLen s c.1 op c.2) s ≠ .error .outOfSteps
  | [], _ => nofun
  | _ :: _, _ => bind_ne_outOfSteps ssCheck_ne_outOfSteps fun _ _ => foldlM_ne_outOfSteps

theorem visit_ne_outOfSteps : visit bc s pos l ≠ .error .outOfSteps := by
  unfold visit
  simp only
  split
  · nofun
  · split
    · nofun
    · split
      · nofun
      · exact bind_ne_outOfSteps raise_ne_outOfSteps fun _ _ => foldlM_ne_outOfSteps

/-- The number of bytes bounds the number of visits. -/
theorem Explored.explore_ne_outOfSteps : ∀ {fuel : ℕ} {s : StackSizeState}, Explored bc s →
    s.stackLevelTab.count none + s.pcStack.length ≤ fuel →
    Bytecode.explore bc fuel s ≠ .error .outOfSteps
  | fuel, s, h, hle => by
    unfold Bytecode.explore
    split
    · nofun
    · rename_i pos pcStack hcons
      split
      · rw [hcons, List.length_cons] at hle
        omega
      · refine bind_ne_outOfSteps visit_ne_outOfSteps fun t ht => ?_
        obtain ⟨ht, hwork⟩ := h.visit hcons ht
        exact ht.explore_ne_outOfSteps (by omega)

/-- The state after the check of the entry. -/
theorem explored_entry (h : ssCheck bc.length ⟨0, List.replicate bc.length none, []⟩ 0 0 0 = .ok s) :
    Explored bc s ∧ s.stackLevelTab.count none + s.pcStack.length = bc.length := by
  have hnone : ∀ p l, ¬StackSizeState.level ⟨0, List.replicate bc.length none, []⟩ p = some l := by
    intro p l hp
    rw [StackSizeState.level, List.getElem?_replicate] at hp
    split at hp <;> cases hp
  obtain ⟨hg, _, _, hentry⟩ := ssCheck_eq_ok List.length_replicate h
  have hnew : ∀ p l, s.level p = some l → p ∈ s.pcStack ∧ l ≤ s.stackLenMax := fun p l hp =>
    (hg.new p l hp).resolve_left (hnone p l)
  refine ⟨⟨hg.length.trans List.length_replicate, hentry, fun p l hp => (hnew p l hp).2,
    fun p l hp => .inl (hnew p l hp).1, fun p hp => (hg.ofQueued p hp).resolve_left nofun⟩, ?_⟩
  rw [hg.work, List.count_replicate_self]
  rfl

/-- The model of the loop never runs out of steps. -/
theorem computeStackSize_ne_outOfSteps : computeStackSize bc ≠ .error .outOfSteps := by
  refine bind_ne_outOfSteps ssCheck_ne_outOfSteps fun s hs => ?_
  obtain ⟨hs, hwork⟩ := explored_entry hs
  have hexplore := hs.explore_ne_outOfSteps (Nat.le_of_eq hwork)
  intro h
  cases hres : explore bc bc.length s with
  | error e =>
    rw [hres] at h
    exact hexplore (hres.trans (congrArg Except.error (Except.error.inj h)))
  | ok t =>
    rw [hres] at h
    cases h

/-- A size is computed from depths that are consistent with the bytecode. -/
theorem certificate_of_computeStackSize (h : computeStackSize bc = .ok n) :
    ∃ level, Certificate bc n level := by
  obtain ⟨s, hs, h⟩ := Rounds.bind_eq_ok h
  cases hres : explore bc bc.length s with
  | error e =>
    rw [hres] at h
    cases h
  | ok t =>
    rw [hres] at h
    cases h
    obtain ⟨ht, hnil⟩ := (explored_entry hs).1.explore hres
    refine ⟨t.level, ht.entry, ht.le, fun pos l hp => ?_, fun pos l hp => ?_⟩
    · rw [← ht.length]
      by_contra hge
      rw [StackSizeState.level, List.getElem?_eq_none (Nat.le_of_not_lt hge)] at hp
      cases hp
    · refine (ht.checked pos l hp).resolve_left ?_
      rw [hnil]
      nofun

end QuickJs.Bytecode
