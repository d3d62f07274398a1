import QuickJs.Generator
import Mathlib.Data.List.Nodup

/-!
# Generators follow the state machine of the language

In every run the code does what the state machine does and nothing else can be seen of it. The invariant says what the
three places hold for each generator: the stack pointer is `NULL` exactly while the frame runs or is made ready, and the
frame was freed once exactly if the generator is completed or its object is gone.
-/

namespace QuickJs.Generator

variable {s : State} {g g' : ℕ} {x : Gen} {calls : List Activation} {a : Activation} {pc : ℕ} {sp rest : List JSValue}
  {f : FuncState JSValue}

/-- No call waits for the frame. -/
def Idle (calls : List Activation) (g : ℕ) : Prop := ∀ a ∈ calls, a.gen ≠ g

/-- What the three places hold. -/
inductive Sound (calls : List Activation) (g : ℕ) : Gen → Prop
  | making {pc : ℕ} {flag : Bool} : .create g ∈ calls →
      Sound calls g ⟨⟨.suspendedStart, ⟨pc, none, flag, 0⟩⟩, .making⟩
  | start {pc : ℕ} {sp : List JSValue} {flag : Bool} : Idle calls g →
      Sound calls g ⟨⟨.suspendedStart, ⟨pc, some sp, flag, 0⟩⟩, .alive⟩
  | yield {pc : ℕ} {rest : List JSValue} {flag : Bool} : Idle calls g →
      Sound calls g ⟨⟨.suspendedYield, ⟨pc, some (.undefined :: rest), flag, 0⟩⟩, .alive⟩
  | yieldStar {pc : ℕ} {rest : List JSValue} {flag : Bool} : Idle calls g →
      Sound calls g ⟨⟨.suspendedYieldStar, ⟨pc, some (.undefined :: rest), flag, 0⟩⟩, .alive⟩
  | executing {pc : ℕ} {flag : Bool} : .next g ∈ calls →
      Sound calls g ⟨⟨.executing, ⟨pc, none, flag, 0⟩⟩, .alive⟩
  | completed {f : FuncState JSValue} : Idle calls g → f.freed = 1 → Sound calls g ⟨⟨.completed, f⟩, .alive⟩
  | gone {f : FuncState JSValue} : Idle calls g → f.freed = 1 → Sound calls g ⟨⟨.completed, f⟩, .gone⟩

/-- A generator is waited for once at most, and what it holds is sound. -/
structure Inv (s : State) : Prop where
  nodup : (s.calls.map Activation.gen).Nodup
  lt : ∀ a ∈ s.calls, a.gen < s.gens.length
  sound : ∀ g x, s.gens[g]? = some x → Sound s.calls g x

/-! ## Calls that wait -/

theorem Idle.push (h : Idle calls g) (ha : a.gen ≠ g) : Idle (a :: calls) g := List.forall_mem_cons.mpr ⟨ha, h⟩

theorem Idle.pop (h : Idle (a :: calls) g) : Idle calls g := (List.forall_mem_cons.mp h).2

theorem mem_pop {b : Activation} (h : b ∈ a :: calls) (ha : a.gen ≠ b.gen) : b ∈ calls :=
  (List.mem_cons.mp h).resolve_left fun heq => ha (congrArg Activation.gen heq.symm)

theorem Sound.push (h : Sound calls g x) (ha : a.gen ≠ g) : Sound (a :: calls) g x := by
  cases h with
  | making h => exact .making (.tail _ h)
  | start h => exact .start (h.push ha)
  | yield h => exact .yield (h.push ha)
  | yieldStar h => exact .yieldStar (h.push ha)
  | executing h => exact .executing (.tail _ h)
  | completed h hf => exact .completed (h.push ha) hf
  | gone h hf => exact .gone (h.push ha) hf

theorem Sound.pop (h : Sound (a :: calls) g x) (ha : a.gen ≠ g) : Sound calls g x := by
  cases h with
  | making h => exact .making (mem_pop h ha)
  | start h => exact .start h.pop
  | yield h => exact .yield h.pop
  | yieldStar h => exact .yieldStar h.pop
  | executing h => exact .executing (mem_pop h ha)
  | completed h hf => exact .completed h.pop hf
  | gone h hf => exact .gone h.pop hf

theorem idle_of_nodup (h : ((a :: calls).map Activation.gen).Nodup) : Idle calls a.gen := fun _ hb heq =>
  (List.nodup_cons.mp h).1 (heq ▸ List.mem_map_of_mem hb)

/-- The calls change for one generator only. -/
structure Shifts (g : ℕ) (calls calls' : List Activation) : Prop where
  nodup : (calls'.map Activation.gen).Nodup
  mem : ∀ a ∈ calls', a.gen = g ∨ a ∈ calls
  sound : ∀ g' x, g' ≠ g → Sound calls g' x → Sound calls' g' x

theorem Inv.same (h : Inv s) (g : ℕ) : Shifts g s.calls s.calls := ⟨h.nodup, fun _ ha => .inr ha, fun _ _ _ h => h⟩

theorem Inv.push (h : Inv s) (hidle : Idle s.calls a.gen) : Shifts a.gen s.calls (a :: s.calls) where
  nodup := List.nodup_cons.mpr ⟨fun hmem => by
    obtain ⟨b, hb, heq⟩ := List.mem_map.mp hmem
    exact hidle b hb heq, h.nodup⟩
  mem b hb := (List.mem_cons.mp hb).imp_left fun heq => congrArg Activation.gen heq
  sound _ _ hne hx := hx.push hne.symm

theorem Inv.pop (h : Inv s) (hcalls : s.calls = a :: calls) : Shifts a.gen s.calls calls where
  nodup := by
    have hnodup := h.nodup
    rw [hcalls] at hnodup
    exact (List.nodup_cons.mp hnodup).2
  mem b hb := .inr (hcalls ▸ List.mem_cons_of_mem a hb)
  sound _ _ hne hx := by
    rw [hcalls] at hx
    exact hx.pop hne.symm

/-- A generator changes, and the calls for it. -/
theorem Inv.set (h : Inv s) (hg : g < s.gens.length) (hcalls : Shifts g s.calls calls) (hx : Sound calls g x) :
    Inv (s.set g x calls) where
  nodup := hcalls.nodup
  lt a ha := by
    rw [State.set, List.length_set]
    obtain rfl | hmem := hcalls.mem a ha
    · exact hg
    · exact h.lt a hmem
  sound g' y hy := by
    by_cases heq : g = g'
    · subst heq
      rw [State.set, List.getElem?_set_self hg] at hy
      cases hy
      exact hx
    · rw [State.set, List.getElem?_set_ne heq] at hy
      exact hcalls.sound g' y (Ne.symm heq) (h.sound g' y hy)

/-! ## The state machine -/

/-- Where a generator stands. -/
def Gen.phase (x : Gen) : Phase :=
  match x.life, x.data.state with
  | .making, _ => .starting
  | .gone, _ => .gone
  | .alive, .suspendedStart => .start x.data.funcState.curPc (x.data.funcState.curSp.getD [])
  | .alive, .suspendedYield => .suspended false x.data.funcState.curPc (x.data.funcState.curSp.getD []).tail
  | .alive, .suspendedYieldStar => .suspended true x.data.funcState.curPc (x.data.funcState.curSp.getD []).tail
  | .alive, .executing => .executing
  | .alive, .completed => .completed

def State.machine (s : State) : Machine := ⟨s.gens.map Gen.phase, s.calls⟩

theorem machine_set (s : State) (g : ℕ) (x : Gen) (calls : List Activation) :
    (s.set g x calls).machine = s.machine.set g x.phase calls :=
  congrArg (Machine.mk · calls) List.map_set

theorem machine_phase (hx : s.gens[g]? = some x) : s.machine.phases[g]? = some x.phase := by
  rw [State.machine, List.getElem?_map, hx]
  rfl

theorem set_self (hx : s.gens[g]? = some x) : s.set g x s.calls = s := by
  obtain ⟨hg, rfl⟩ := List.getElem?_eq_some_iff.mp hx
  exact congrArg (State.mk · s.calls) (List.set_getElem_self hg)

/-- The code does what the state machine does, and the invariant is kept. -/
def Follows (r : Option (State × Output)) (q : Option (Machine × Output)) : Prop :=
  ∃ s' out, r = some (s', out) ∧ q = some (s'.machine, out) ∧ Inv s'

/-- A generator changes as it does in the state machine. -/
theorem follows_set (h : Inv s) (hg : g < s.gens.length) (hcalls : Shifts g s.calls calls) (hx : Sound calls g x)
    (out : Output) : Follows (some (s.set g x calls, out)) (some (s.machine.set g x.phase calls, out)) :=
  ⟨_, out, rfl, by rw [machine_set], h.set hg hcalls hx⟩

/-! ## Calls -/

theorem done_eq (v : JSValue) (magic : GenMagic) : done v magic = ⟨completion v magic, 1⟩ := by
  cases magic <;> rfl

/-- A frame that is suspended goes on, or the generator is completed. -/
theorem resume_follows (h : Inv s) (hg : g < s.gens.length) (hidle : Idle s.calls g) (hsp : f.curSp = some sp)
    (hfreed : f.freed = 0) (exception : Option JSValue) (refused : Option Exn) :
    Follows ((resume f exception refused).map (s.after g .alive))
      (some (s.machine.begin g ⟨f.curPc, sp, if f.throwFlag then exception else none⟩ refused)) := by
  cases refused with
  | some e =>
    rw [resume, finalizeExecution, freeGeneratorStack, asyncFuncFree, hsp]
    exact follows_set h hg (h.same g) (.completed hidle (congrArg (· + 1) hfreed)) _
  | none =>
    obtain ⟨fpc, fsp, flag, freed⟩ := f
    cases hsp
    cases hfreed
    exact follows_set h hg (h.push (a := .next g) hidle) (.executing List.mem_cons_self) _

theorem call_follows (h : Inv s) (hallowed : s.gens[g]? = none ∨ s.isAlive g) (magic : GenMagic) (v : JSValue)
    (refused : Option Exn) : Follows (s.call g magic v refused) (s.machine.call g magic v refused) := by
  obtain hnone | ⟨x, hx, hlife⟩ := hallowed
  · have hphase : s.machine.phases[g]? = none := by rw [State.machine, List.getElem?_map, hnone]; rfl
    rw [State.call, hnone, Machine.call, hphase]
    exact ⟨s, _, rfl, rfl, h⟩
  · have hg : g < s.gens.length := (List.getElem?_eq_some_iff.mp hx).1
    rw [State.call, hx, Machine.call, machine_phase hx]
    dsimp only
    cases h.sound g x hx with
    | making | gone => cases hlife
    | @start pc sp flag hidle =>
      rw [jsGeneratorNext]
      dsimp only
      split
      · exact resume_follows h hg hidle rfl rfl none refused
      · rw [← done_eq]
        exact follows_set h hg (h.same g) (.completed hidle rfl) _
    | @yield pc rest flag hidle =>
      rw [jsGeneratorNext]
      dsimp only [Gen.phase]
      rw [deliver]
      by_cases hthrow : magic = .magicThrow
      · rw [if_pos ⟨hthrow, rfl⟩, if_pos ⟨hthrow, rfl⟩]
        exact resume_follows h hg hidle rfl rfl (some v) refused
      · rw [if_neg fun hand => hthrow hand.1, if_neg fun hand => hthrow hand.1]
        exact resume_follows h hg hidle rfl rfl none refused
    | @yieldStar pc rest flag hidle =>
      rw [jsGeneratorNext]
      dsimp only [Gen.phase]
      have hstar : ¬(magic = .magicThrow ∧ GeneratorState.suspendedYieldStar = .suspendedYield) :=
          fun hand => nomatch hand.2
      have hnot : ¬(magic = .magicThrow ∧ true = false) := fun hand => nomatch hand.2
      rw [deliver, if_neg hstar, if_neg hnot]
      exact resume_follows h hg hidle rfl rfl none refused
    | executing hmem =>
      refine ⟨s, _, ?_, rfl, h⟩
      rw [jsGeneratorNext, Option.map_some, State.after, set_self hx]
    | completed hidle hfreed =>
      refine ⟨s, _, ?_, rfl, h⟩
      rw [jsGeneratorNext, Option.map_some, State.after, set_self hx, done_eq]

/-! ## Leaving -/

/-- The generator that is being made. -/
theorem Inv.create_head (h : Inv s) (hcalls : s.calls = .create g :: calls) :
    ∃ pc flag, s.gens[g]? = some ⟨⟨.suspendedStart, ⟨pc, none, flag, 0⟩⟩, .making⟩ := by
  have hmem : Activation.create g ∈ s.calls := hcalls ▸ List.mem_cons_self
  obtain ⟨x, hx⟩ : ∃ x, s.gens[g]? = some x := ⟨_, List.getElem?_eq_getElem (h.lt _ hmem)⟩
  have hnodup := h.nodup
  rw [hcalls] at hnodup
  cases h.sound g x hx with
  | making => exact ⟨_, _, hx⟩
  | start hidle | yield hidle | yieldStar hidle | completed hidle | gone hidle => exact absurd rfl (hidle _ hmem)
  | executing hnext =>
    rw [hcalls] at hnext
    exact absurd rfl (idle_of_nodup hnodup (.next g) ((List.mem_cons.mp hnext).resolve_left Activation.noConfusion))

/-- The generator whose frame runs. -/
theorem Inv.next_head (h : Inv s) (hcalls : s.calls = .next g :: calls) :
    ∃ pc flag, s.gens[g]? = some ⟨⟨.executing, ⟨pc, none, flag, 0⟩⟩, .alive⟩ := by
  have hmem : Activation.next g ∈ s.calls := hcalls ▸ List.mem_cons_self
  obtain ⟨x, hx⟩ : ∃ x, s.gens[g]? = some x := ⟨_, List.getElem?_eq_getElem (h.lt _ hmem)⟩
  have hnodup := h.nodup
  rw [hcalls] at hnodup
  cases h.sound g x hx with
  | executing => exact ⟨_, _, hx⟩
  | start hidle | yield hidle | yieldStar hidle | completed hidle | gone hidle => exact absurd rfl (hidle _ hmem)
  | making hcreate =>
    rw [hcalls] at hcreate
    exact absurd rfl (idle_of_nodup hnodup (.create g) ((List.mem_cons.mp hcreate).resolve_left Activation.noConfusion))

theorem leave_follows (h : Inv s) {ret : FuncRet} {created : Bool}
    (hallowed : Op.Allowed s (.leave pc sp ret created)) :
    Follows (s.leave pc sp ret created) (s.machine.leave pc sp ret created) := by
  have hmachine : s.machine.calls = s.calls := rfl
  unfold Op.Allowed at hallowed
  rw [State.leave, Machine.leave, hmachine]
  match hcalls : s.calls with
  | [] =>
    rw [hcalls] at hallowed
    exact hallowed.elim
  | .create g :: calls =>
    obtain ⟨pc', flag, hx⟩ := h.create_head hcalls
    have hg : g < s.gens.length := (List.getElem?_eq_some_iff.mp hx).1
    have hshifts := h.pop hcalls
    have hidle : Idle calls g := idle_of_nodup (a := .create g) (hcalls ▸ h.nodup)
    have hgone : Follows (s.dropNew g ⟨.suspendedStart, ⟨pc, some sp, flag, 0⟩⟩ calls)
        (some (s.machine.set g .gone calls, .created g false)) := follows_set h hg hshifts (.gone hidle rfl) _
    dsimp only
    rw [hx]
    cases ret with
    | exception e => exact hgone
    | yield | yieldStar | undefined =>
      cases created with
      | false => exact hgone
      | true => exact follows_set h hg hshifts (.start hidle) _
  | .next g :: calls =>
    obtain ⟨pc', flag, hx⟩ := h.next_head hcalls
    have hg : g < s.gens.length := (List.getElem?_eq_some_iff.mp hx).1
    have hshifts := h.pop hcalls
    have hidle : Idle calls g := idle_of_nodup (a := .next g) (hcalls ▸ h.nodup)
    rw [hcalls] at hallowed
    dsimp only
    rw [hx]
    cases ret with
    | exception e => exact follows_set h hg hshifts (.completed hidle rfl) _
    | yield =>
      obtain ⟨v, rest, rfl⟩ := List.exists_cons_of_ne_nil hallowed
      exact follows_set h hg hshifts (.yield hidle) _
    | yieldStar =>
      obtain ⟨v, rest, rfl⟩ := List.exists_cons_of_ne_nil hallowed
      exact follows_set h hg hshifts (.yieldStar hidle) _
    | undefined =>
      obtain ⟨v, rest, rfl⟩ := List.exists_cons_of_ne_nil hallowed
      exact follows_set h hg hshifts (.completed hidle rfl) _

/-! ## The first and the last step of a generator -/

theorem Inv.append (h : Inv s) (hcalls : Shifts s.gens.length s.calls calls) (hx : Sound calls s.gens.length x) :
    Inv ⟨s.gens ++ [x], calls⟩ where
  nodup := hcalls.nodup
  lt a ha := by
    rw [List.length_append, List.length_singleton]
    obtain heq | hmem := hcalls.mem a ha
    · omega
    · exact Nat.lt_succ_of_lt (h.lt a hmem)
  sound g y hy := by
    by_cases heq : g = s.gens.length
    · subst heq
      rw [List.getElem?_concat_length] at hy
      cases hy
      exact hx
    · have hg := (List.getElem?_eq_some_iff.mp hy).1
      rw [List.length_append, List.length_singleton] at hg
      rw [List.getElem?_append_left (by omega)] at hy
      exact hcalls.sound g y heq (h.sound g y hy)

/-- No call waits for a generator that is not there. -/
theorem Inv.idle (h : Inv s) (hg : s.gens.length ≤ g) : Idle s.calls g := fun a ha heq =>
  absurd (heq ▸ h.lt a ha) (Nat.not_lt.mpr hg)

theorem set_new (s : State) (x y : Gen) (calls : List Activation) :
    State.set ⟨s.gens ++ [y], s.calls⟩ s.gens.length x calls = ⟨s.gens ++ [x], calls⟩ := by
  rw [State.set, List.set_append_right _ _ (Nat.le_refl _), Nat.sub_self]
  rfl

theorem create_follows (h : Inv s) (pc : ℕ) (stack : List JSValue) (refused : Option Exn) :
    Follows (s.create pc stack refused) (s.machine.step (.create pc stack refused)) := by
  have hidle := h.idle (Nat.le_refl s.gens.length)
  have hlen : s.machine.phases.length = s.gens.length := List.length_map _
  have hmachine : ∀ x calls, State.machine ⟨s.gens ++ [x], calls⟩ = ⟨s.machine.phases ++ [x.phase], calls⟩ :=
    fun x calls => congrArg (Machine.mk · calls) List.map_append
  unfold Machine.step
  rw [hlen]
  cases refused with
  | some e =>
    refine ⟨⟨s.gens ++ [⟨⟨.completed, ⟨pc, some stack, false, 1⟩⟩, .gone⟩], s.calls⟩,
      .created s.gens.length false, ?_, ?_, h.append (h.same _) (.gone hidle rfl)⟩
    · exact congrArg (fun t => some (t, Output.created s.gens.length false)) (set_new s _ _ s.calls)
    · rw [hmachine]
      rfl
  | none =>
    refine ⟨⟨s.gens ++ [⟨⟨.suspendedStart, ⟨pc, none, false, 0⟩⟩, .making⟩], .create s.gens.length :: s.calls⟩,
      .runs s.gens.length ⟨pc, stack, none⟩, ?_, ?_,
      h.append (h.push (a := .create s.gens.length) hidle) (.making List.mem_cons_self)⟩
    · exact congrArg (fun t => some (t, Output.runs s.gens.length ⟨pc, stack, none⟩)) (set_new s _ _ _)
    · rw [hmachine]
      rfl

theorem finalize_follows (h : Inv s) (halive : s.isAlive g) (hidle : Idle s.calls g) :
    Follows (s.finalize g) (some (s.machine.set g .gone s.calls, .finalized g)) := by
  obtain ⟨x, hx, hlife⟩ := halive
  have hg : g < s.gens.length := (List.getElem?_eq_some_iff.mp hx).1
  rw [State.finalize, hx]
  cases h.sound g x hx with
  | making | gone => cases hlife
  | start | yield | yieldStar => exact follows_set h hg (h.same g) (.gone hidle rfl) _
  | executing hmem => exact absurd rfl (hidle _ hmem)
  | completed _ hfreed => exact follows_set h hg (h.same g) (.gone hidle hfreed) _

variable {op : Op} {m m' : Machine}

/-! ## Runs -/

theorem step_follows (h : Inv s) (hallowed : op.Allowed s) : Follows (s.step op) (s.machine.step op) := by
  cases op with
  | create pc stack refused => exact create_follows h pc stack refused
  | call g magic v refused => exact call_follows h hallowed magic v refused
  | leave pc sp ret created => exact leave_follows h hallowed
  | finalize g => exact finalize_follows h hallowed.1 hallowed.2

theorem inv_initial : Inv .initial := ⟨.nil, nofun, nofun⟩

theorem Reachable.inv (h : Reachable s) : Inv s := by
  refine Run.Reachable.invariant (fun s hs => ?_) (fun s op s' hinv hallowed hs => ?_) h
  · subst hs
    exact inv_initial
  · obtain ⟨t, out, ht, -, hinv'⟩ := step_follows hinv hallowed
    rw [ht] at hs
    cases hs
    exact hinv'

/-- The frame is suspended. -/
def Phase.isSuspended : Phase → Bool
  | start .. | suspended .. => true
  | _ => false

/-- The frame has no memory. -/
def Phase.isOver : Phase → Bool
  | completed | gone => true
  | _ => false

/-- A suspended frame does not run and has its stack. -/
theorem Sound.suspended (h : Sound calls g x) (hphase : x.phase.isSuspended = true) :
    Idle calls g ∧ x.data.funcState.curSp.isSome = true ∧ x.data.funcState.freed = 0 := by
  cases h with
  | start hidle | yield hidle | yieldStar hidle => exact ⟨hidle, rfl, rfl⟩
  | making | executing | completed | gone => cases hphase

/-- A frame runs from where it was suspended, or for the first time. -/
theorem Machine.suspended_of_runs {e : Entry JSValue}
    (h : m.step op = some (m', .runs g e)) :
    g = m.phases.length ∨ m.phases[g]?.any Phase.isSuspended = true := by
  have hbegin : ∀ {n : ℕ} {entry : Entry JSValue} {refused : Option Exn},
      m.begin n entry refused = (m', .runs g e) → n = g := by
    intro n entry refused hb
    cases refused <;> cases hb
    rfl
  cases op with
  | create pc stack refused =>
    cases refused <;> cases h
    exact .inl rfl
  | call n magic v refused =>
    right
    rw [step, Machine.call] at h
    split at h
    · cases h
    · rename_i hphase
      split at h
      · cases hbegin (Option.some.inj h)
        rw [hphase]
        rfl
      · cases h
    · rename_i hphase
      cases hbegin (Option.some.inj h)
      rw [hphase]
      rfl
    all_goals cases h
  | leave pc sp ret created =>
    rw [step, Machine.leave] at h
    split at h
    · cases h
    · split at h <;> cases h
    · split at h <;> cases h
  | finalize n => cases h

theorem Machine.set_other {n : ℕ} (hne : n ≠ g) (p : Phase) (calls : List Activation) :
    (m.set n p calls).phases[g]? = m.phases[g]? := List.getElem?_set_ne hne

/-- Only a call whose frame was not over, or the end of one, changes another phase than to `gone`. -/
theorem Machine.over_step {out : Output} {p : Phase} (h : m.step op = some (m', out))
    (hp : m.phases[g]? = some p) (hover : p.isOver = true) (hidle : Idle m.calls g) :
    ∃ p', m'.phases[g]? = some p' ∧ p'.isOver = true := by
  have hother : ∀ {n : ℕ} (q : Phase) (calls : List Activation), n ≠ g →
      ∃ p', (m.set n q calls).phases[g]? = some p' ∧ p'.isOver = true := fun q calls hne =>
    ⟨p, (set_other hne q calls).trans hp, hover⟩
  have happend : ∀ q : Phase, (m.phases ++ [q])[g]? = some p := fun q => by
    rw [List.getElem?_append_left (List.getElem?_eq_some_iff.mp hp).1, hp]
  cases op with
  | create pc stack refused => cases refused <;> cases h <;> exact ⟨p, happend _, hover⟩
  | call n magic v refused =>
    have hne : ∀ {q : Phase}, m.phases[n]? = some q → q.isOver = false → n ≠ g := by
      rintro q hq hrun rfl
      cases hp.symm.trans hq
      cases hover.symm.trans hrun
    have hbegin : ∀ {e : Entry JSValue}, m.begin n e refused = (m', out) → n ≠ g →
        ∃ p', m'.phases[g]? = some p' ∧ p'.isOver = true := by
      intro e hb hng
      cases refused <;> cases hb <;> exact hother _ _ hng
    rw [step, Machine.call] at h
    split at h
    · cases h
      exact ⟨p, hp, hover⟩
    · rename_i hphase
      split at h
      · exact hbegin (Option.some.inj h) (hne hphase rfl)
      · cases h
        exact hother _ _ (hne hphase rfl)
    · rename_i hphase
      exact hbegin (Option.some.inj h) (hne hphase rfl)
    · cases h
      exact ⟨p, hp, hover⟩
    · cases h
      exact ⟨p, hp, hover⟩
    all_goals cases h
  | leave pc sp ret created =>
    rw [step, Machine.leave] at h
    split at h
    · cases h
    · rename_i n calls hcalls
      have hng : n ≠ g := hidle (.create n) (hcalls ▸ List.mem_cons_self)
      split at h <;> cases h <;> exact hother _ _ hng
    · rename_i n calls hcalls
      have hng : n ≠ g := hidle (.next n) (hcalls ▸ List.mem_cons_self)
      split at h <;> cases h <;> exact hother _ _ hng
  | finalize n =>
    cases h
    by_cases hng : n = g
    · subst hng
      exact ⟨.gone, List.getElem?_set_self (List.getElem?_eq_some_iff.mp hp).1, rfl⟩
    · exact hother _ _ hng

theorem Sound.idle_of_isOver (h : Sound calls g x) (hover : x.phase.isOver = true) : Idle calls g := by
  cases h with
  | completed hidle | gone hidle => exact hidle
  | making | start | yield | yieldStar | executing => cases hover

/-- What holds in a state of a run. -/
structure Obeys (s : State) : Prop where
  /-- Whatever happens next, the code does what the state machine of the language does. -/
  follows : ∀ op : Op, op.Allowed s → ∃ s' out, s.step op = some (s', out) ∧ s.machine.step op = some (s'.machine, out)
  /-- The memory of a frame was freed once if the generator is completed or gone, and not at all before. -/
  freed : ∀ (g : ℕ) (x : Gen), s.gens[g]? = some x → x.data.funcState.freed = if x.phase.isOver then 1 else 0
  /-- A frame does not run when it is resumed, and its stack is there. -/
  resumed : ∀ (op : Op) (s' : State) (g : ℕ) (e : Entry JSValue), op.Allowed s → s.step op = some (s', .runs g e) →
    Idle s.calls g ∧ ∀ x : Gen, s.gens[g]? = some x →
      x.phase.isSuspended = true ∧ x.data.funcState.curSp.isSome = true ∧ x.data.funcState.freed = 0
  /-- A generator that is completed or gone stays so. -/
  stays : ∀ (op : Op) (s' : State) (out : Output) (g : ℕ) (x : Gen), op.Allowed s → s.step op = some (s', out) →
    s.gens[g]? = some x → x.phase.isOver = true → ∃ y : Gen, s'.gens[g]? = some y ∧ y.phase.isOver = true
  /-- A call from the running frame raises a `TypeError` and changes nothing. -/
  reentrant : ∀ (g : ℕ) (magic : GenMagic) (v : JSValue) (refused : Option Exn), .next g ∈ s.calls →
    s.step (.call g magic v refused) = some (s, .returns g ⟨.error (.typeError "cannot invoke a running generator"), 1⟩)

theorem Inv.reentrant (h : Inv s) (hmem : .next g ∈ s.calls) (magic : GenMagic) (v : JSValue) (refused : Option Exn) :
    s.call g magic v refused = some (s, .returns g ⟨.error (.typeError "cannot invoke a running generator"), 1⟩) := by
  obtain ⟨x, hx⟩ : ∃ x, s.gens[g]? = some x := ⟨_, List.getElem?_eq_getElem (h.lt _ hmem)⟩
  rw [State.call, hx]
  cases h.sound g x hx with
  | executing =>
    dsimp only
    rw [jsGeneratorNext, Option.map_some, State.after, set_self hx]
  | start hidle | yield hidle | yieldStar hidle | completed hidle | gone hidle => exact absurd rfl (hidle _ hmem)
  | making hcreate =>
    -- two calls do not wait for one generator
    have heq := List.inj_on_of_nodup_map h.nodup hcreate hmem rfl
    cases heq

/-- **Generators follow their state machine** in every run. -/
theorem generator_obeys (h : Reachable s) : Obeys s where
  follows op hallowed := by
    obtain ⟨s', out, hs, hm, -⟩ := step_follows h.inv hallowed
    exact ⟨s', out, hs, hm⟩
  freed g x hx := by
    cases h.inv.sound g x hx with
    | making | start | yield | yieldStar | executing => rfl
    | completed _ hfreed | gone _ hfreed => exact hfreed
  resumed op s' g e hallowed hs := by
    obtain ⟨t, out, ht, hm, -⟩ := step_follows h.inv hallowed
    rw [hs] at ht
    cases ht
    have hlen : s.machine.phases.length = s.gens.length := List.length_map _
    obtain heq | hphase := Machine.suspended_of_runs hm
    · rw [hlen] at heq
      refine ⟨h.inv.idle (Nat.le_of_eq heq.symm), fun x hx => ?_⟩
      exact absurd (List.getElem?_eq_some_iff.mp hx).1 (heq ▸ Nat.lt_irrefl _)
    · obtain ⟨x, hx⟩ : ∃ x, s.gens[g]? = some x := by
        cases hx : s.gens[g]? with
        | some x => exact ⟨x, rfl⟩
        | none =>
          rw [State.machine, List.getElem?_map, hx] at hphase
          cases hphase
      rw [machine_phase hx] at hphase
      obtain ⟨hidle, hsuspended⟩ := (h.inv.sound g x hx).suspended hphase
      refine ⟨hidle, fun y hy => ?_⟩
      cases hx.symm.trans hy
      exact ⟨hphase, hsuspended⟩
  stays op s' out g x hallowed hs hx hover := by
    obtain ⟨t, out', ht, hm, -⟩ := step_follows h.inv hallowed
    rw [hs] at ht
    cases ht
    obtain ⟨p', hp', hover'⟩ := Machine.over_step hm (machine_phase hx) hover
      ((h.inv.sound g x hx).idle_of_isOver hover)
    rw [State.machine, List.getElem?_map, Option.map_eq_some_iff] at hp'
    obtain ⟨y, hy, rfl⟩ := hp'
    exact ⟨y, hy, hover'⟩
  reentrant g magic v refused hmem := h.inv.reentrant hmem magic v refused

/-- A generator is made and its frame runs, so that it may call itself. -/
theorem generator_obeys_running : Obeys ⟨[⟨⟨.executing, ⟨4, none, false, 0⟩⟩, .alive⟩], [.next 0]⟩ := by
  refine generator_obeys (.step (.step (.step (.init rfl) (o := .create 0 [] none) trivial rfl)
    (o := .leave 4 [] .undefined true) trivial rfl)
    (o := .call 0 .magicNext .undefined none) (.inr ⟨_, rfl, rfl⟩) ?_)
  rfl

end QuickJs.Generator
