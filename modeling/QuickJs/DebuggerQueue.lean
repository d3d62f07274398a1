import QuickJs.Debugger
import Mathlib.Data.List.Basic

/-!
# Commands and stops

Every command that is popped has been pushed, once and in this order, and a handler never
sleeps beside a command: a handler that waits has seen the queue empty, and each push since
then has its signal. A handler that has reported a breakpoint goes on when it finds a Continue;
this is one that was pushed after the report as long as none was in the queue before.
-/

namespace QuickJs.Debugger

open Run

variable {s s' : State} {op : Op} {r : EvalResult} {c : Command} {h : Handler} {rest : List Handler}
  {n : Conn}

/-! ## What the threads do to the queue -/

/-- The signals that are still to be delivered. -/
def State.signals (s : State) : ℕ :=
  s.shutdowns + match s.server with
    | .signal _ => 1
    | _ => 0

/-- Nothing happens to the queue and the handlers. -/
structure Aside (s s' : State) : Prop where
  handlers : s'.handlers = s.handlers
  breakPoints : s'.breakPoints = s.breakPoints
  popped : s'.popped = s.popped
  pushed : s'.pushed = s.pushed
  commands : s'.commands = s.commands
  signals : s.count + s.signals ≤ s'.count + s'.signals

/-- A command is pushed, and its signal is to come. -/
structure Pushes (s s' : State) (c : Command) : Prop where
  handlers : s'.handlers = s.handlers
  breakPoints : s'.breakPoints = s.breakPoints
  popped : s'.popped = s.popped
  pushed : s'.pushed = s.pushed ++ [c]
  commands : s'.commands = s.commands ++ [c]
  signals : s'.count + s'.signals = s.count + s.signals + 1

/-- The server thread pushes a command or keeps away from the queue. -/
theorem serverStep_cases (hs : serverStep s = some s') : Aside s s' ∨ ∃ c, Pushes s s' c := by
  rw [serverStep] at hs
  cases hpc : s.server <;> simp only [hpc] at hs
  case start | openTunnel | reset | closeSocket =>
    cases hs
    exact .inl ⟨rfl, rfl, rfl, rfl, rfl, by simp only [State.signals, hpc, Nat.le_refl]⟩
  case test | accept =>
    split at hs <;> cases hs <;>
      exact .inl ⟨rfl, rfl, rfl, rfl, rfl, by simp only [State.signals, hpc, Nat.le_refl]⟩
  case readLine =>
    split at hs
    · cases hs
    split at hs
    · cases hs
      exact .inl ⟨rfl, rfl, rfl, rfl, rfl, by simp only [State.signals, hpc, Nat.le_refl]⟩
    · split at hs <;> cases hs
      exact .inl ⟨rfl, rfl, rfl, rfl, rfl, by simp only [State.signals, hpc, Nat.le_refl]⟩
  case parseCommand =>
    split at hs <;> cases hs
    · refine .inr ⟨_, rfl, rfl, rfl, rfl, rfl, ?_⟩
      simp only [State.signals, State.push, hpc]
      omega
    · exact .inl ⟨rfl, rfl, rfl, rfl, rfl, by simp only [State.signals, hpc, Nat.le_refl]⟩
    · exact .inl ⟨rfl, rfl, rfl, rfl, rfl, by simp only [State.signals, hpc, Nat.le_refl]⟩
  case signal =>
    cases hs
    refine .inl ⟨rfl, rfl, rfl, rfl, rfl, ?_⟩
    simp only [State.signals, State.signal, hpc]
    omega
  case check =>
    cases hs
    refine .inl ⟨rfl, rfl, rfl, rfl, rfl, ?_⟩
    simp only [State.signals, hpc]
    cases s.clientStop <;> exact Nat.le_refl _
  case done => cases hs

theorem updateClient_eq {f : Client → Client} (hs : s.updateClient n f = some s') :
    ∃ clients, s' = { s with clients := clients } := by
  rw [State.updateClient] at hs
  split at hs
  · split at hs <;> cases hs
    exact ⟨_, rfl⟩
  · cases hs

/-- A step goes on in a handler, enters one, pushes a command, or does none of these. -/
theorem step_cases (hs : s.step op = some s') : (∃ r, op = .handler r ∧ handlerStep s r = some s') ∨
    (∃ filename line, s.runs ∧ s' = s.enter filename line) ∨
    Aside s s' ∨ ∃ c, Pushes s s' c := by
  cases op with
  | handler r => exact .inl ⟨r, rfl, hs⟩
  | enter filename line =>
    rw [State.step] at hs
    split at hs <;> cases hs
    rename_i hruns
    exact .inr (.inl ⟨filename, line, hruns, rfl⟩)
  | server => exact .inr (.inr (serverStep_cases hs))
  | connect =>
    cases hs
    exact .inr (.inr (.inl ⟨rfl, rfl, rfl, rfl, rfl, Nat.le_refl _⟩))
  | line | disconnect =>
    obtain ⟨clients, rfl⟩ := updateClient_eq hs
    exact .inr (.inr (.inl ⟨rfl, rfl, rfl, rfl, rfl, Nat.le_refl _⟩))
  | readFails =>
    rw [State.step] at hs
    split at hs <;> cases hs
    rename_i hpc
    exact .inr (.inr (.inl ⟨rfl, rfl, rfl, rfl, rfl, by simp only [State.signals, hpc, Nat.le_refl]⟩))
  | shutdown =>
    cases hs
    refine .inr (.inr (.inl ⟨rfl, rfl, rfl, rfl, rfl, ?_⟩))
    simp only [State.signals]
    omega
  | shutdownSignal =>
    rw [State.step] at hs
    split at hs <;> cases hs
    refine .inr (.inr (.inl ⟨rfl, rfl, rfl, rfl, rfl, ?_⟩))
    simp only [State.signals, State.signal]
    omega

/-! ## No command is lost -/

/-- The innermost handler has seen that the queue is empty, and may be about to wait. -/
def State.drained (s : State) : Prop :=
  ∃ h rest, s.handlers = h :: rest ∧ (h.pc = .test ∨ h.pc = .wait)

/-- The commands of the queue are those that have been pushed and not popped. There is a signal
for each of them, except that the signal of one may have been used to wake the handler that is
about to look. -/
structure Fed (s : State) : Prop where
  history : s.pushed = s.popped ++ s.commands
  enough : s.commands.length ≤ s.count + s.signals + 1
  drained : s.drained → s.commands.length ≤ s.count + s.signals

theorem fed_initial : Fed State.initial := ⟨rfl, Nat.zero_le _, fun _ => Nat.zero_le _⟩

theorem Fed.aside (h : Fed s) (hs : Aside s s') : Fed s' := by
  refine ⟨?_, ?_, fun hd => ?_⟩
  · rw [hs.pushed, hs.popped, hs.commands, h.history]
  · have := h.enough
    have := hs.signals
    rw [hs.commands]
    omega
  · rw [State.drained, hs.handlers] at hd
    have := h.drained hd
    have := hs.signals
    rw [hs.commands]
    omega

theorem Fed.pushes (h : Fed s) (hs : Pushes s s' c) : Fed s' := by
  have hlen : s'.commands.length = s.commands.length + 1 := by
    rw [hs.commands, List.length_append, List.length_singleton]
  refine ⟨?_, ?_, fun hd => ?_⟩
  · rw [hs.pushed, hs.popped, hs.commands, h.history, List.append_assoc]
  · have := h.enough
    have := hs.signals
    omega
  · rw [State.drained, hs.handlers] at hd
    have := h.drained hd
    have := hs.signals
    omega

/-- A handler is not at its end. -/
theorem not_drained (hh : s.handlers = h :: rest) (htest : h.pc ≠ .test) (hwait : h.pc ≠ .wait) :
    ¬s.drained := by
  rintro ⟨h', rest', hh', hpc⟩
  rw [hh] at hh'
  obtain ⟨rfl, -⟩ := List.cons.inj hh'
  exact hpc.elim htest hwait

theorem Fed.enter (h : Fed s) (filename : Str) (line : BitVec 32) : Fed (s.enter filename line) := by
  refine ⟨h.history, h.enough, fun hd => absurd hd (not_drained rfl ?_ ?_)⟩
  all_goals
    split <;> exact nofun

/-- What `handleCommand` does: `block` goes down for a Continue, and only a variable that is to
be read keeps the handler from looking for the next command. -/
theorem handleCommand_eq (s : State) (h : Handler) (rest : List Handler) (c : Command) :
    ∃ h', s.handleCommand h rest c = { s with
        breakPoints := (s.handleCommand h rest c).breakPoints, handlers := h' :: rest } ∧
      h'.hit = h.hit ∧ h'.block = (h.block && c ≠ .continue) ∧
      (h'.pc = .hasCommand ∨ ∃ name, c = .readVariable name ∧ h'.pc = .eval name) := by
  cases c with
  | empty => exact ⟨_, rfl, rfl, (Bool.and_true _).symm, .inl rfl⟩
  | breakLine => exact ⟨_, rfl, rfl, (Bool.and_true _).symm, .inl rfl⟩
  | readVariable name => exact ⟨_, rfl, rfl, (Bool.and_true _).symm, .inr ⟨name, rfl, rfl⟩⟩
  | «continue» => exact ⟨_, rfl, rfl, (Bool.and_false _).symm, .inl rfl⟩

theorem Fed.handleCommand (h : Handler) (rest : List Handler) (c : Command)
    (hhistory : s.pushed = s.popped ++ s.commands)
    (henough : s.commands.length ≤ s.count + s.signals + 1) : Fed (s.handleCommand h rest c) := by
  obtain ⟨h', heq, _, _, hpc⟩ := handleCommand_eq s h rest c
  rw [heq]
  refine ⟨hhistory, henough, fun hd => absurd hd (not_drained rfl ?_ ?_)⟩
  all_goals
    rcases hpc with hpc | ⟨name, _, hpc⟩ <;> rw [hpc] <;> exact nofun

theorem Fed.handlerStep (hf : Fed s) (hs : handlerStep s r = some s') : Fed s' := by
  revert hs
  fun_cases Debugger.handlerStep s r <;> intro hs <;> cases hs
  case case2 | case6 | case7 =>
    exact ⟨hf.history, hf.enough, fun hd => absurd hd (not_drained rfl nofun nofun)⟩
  case case3 h rest hh hpc =>
    -- only an empty queue leads to the end of the loop
    refine ⟨hf.history, hf.enough, fun hd => ?_⟩
    by_cases hempty : s.commands = []
    · simp only [hempty, List.length_nil, Nat.zero_le]
    · refine absurd hd (not_drained rfl ?_ ?_) <;> simp only [if_neg hempty] <;> exact nofun
  case case4 => exact Fed.handleCommand _ _ _ hf.history hf.enough
  case case5 h rest hh hpc c commands hc =>
    refine Fed.handleCommand _ _ _ ?_ ?_
    · simp only [hf.history, hc, List.append_assoc, List.singleton_append]
    · have henough := hf.enough
      rw [hc] at henough
      exact Nat.le_of_succ_le henough
  case case8 h rest hh hpc _ => exact ⟨hf.history, hf.enough, fun _ => hf.drained ⟨h, rest, hh, .inl hpc⟩⟩
  case case9 h rest hh hpc _ => exact ⟨hf.history, hf.enough, fun _ => hf.drained ⟨h, rest, hh, .inl hpc⟩⟩
  case case10 h rest hh hpc hcount =>
    have henough := hf.drained ⟨h, rest, hh, .inr hpc⟩
    refine ⟨hf.history, ?_, fun hd => absurd hd (not_drained rfl nofun nofun)⟩
    have hsignals : State.signals { s with
      count := s.count - 1, handlers := { h with pc := .hasCommand } :: rest } = s.signals := rfl
    simp only
    omega

theorem Fed.step (hf : Fed s) (hs : s.step op = some s') : Fed s' := by
  rcases step_cases hs with ⟨r, _, hs⟩ | ⟨filename, line, _, rfl⟩ | hs | ⟨c, hs⟩
  · exact hf.handlerStep hs
  · exact hf.enter filename line
  · exact hf.aside hs
  · exact hf.pushes hs

/-- The states of all interleavings of both threads and the clients. -/
abbrev Reached : State → Prop := Reachable (· = State.initial) State.step fun _ _ => True

theorem Reached.fed (h : Reached s) : Fed s :=
  Reachable.invariant (fun _ hinit => hinit ▸ fed_initial) (fun _ _ _ hf _ hs => hf.step hs) h

/-- The innermost handler is blocked in `Wait`. -/
def State.waits (s : State) : Prop :=
  ∃ h rest, s.handlers = h :: rest ∧ h.pc = .wait ∧ s.count = 0

/-- **No command is lost or duplicated**: the commands pushed are those popped, in the same
order, and those in the queue; and no handler sleeps while a command is in the queue and no
signal is to come. -/
theorem commands_served (s : State) (h : Reached s) : s.pushed = s.popped ++ s.commands ∧
    ¬(s.waits ∧ s.signals = 0 ∧ s.commands ≠ []) := by
  refine ⟨h.fed.history, ?_⟩
  rintro ⟨⟨h', rest, hh, hpc, hcount⟩, hsignals, hne⟩
  have hle := h.fed.drained ⟨h', rest, hh, .inr hpc⟩
  rw [hcount, hsignals, Nat.le_zero, List.length_eq_zero_iff] at hle
  exact hne hle

/-- A Continue that is not yet popped. -/
theorem commands_served_example : ∃ s, Reached s ∧ s.commands = [.continue] ∧
    s.pushed = s.popped ++ s.commands ∧ ¬(s.waits ∧ s.signals = 0 ∧ s.commands ≠ []) := by
  obtain ⟨s, hexec, hcommands⟩ : ∃ s, exec State.step State.initial
      [.connect, .line 0 "c".toList, .server, .server, .server, .server, .server, .server] = some s ∧
      s.commands = [.continue] := ⟨_, rfl, by decide +kernel⟩
  have hrun : Reached s := .exec (fun _ _ => trivial) (.init rfl) hexec
  exact ⟨s, hrun, hcommands, commands_served s hrun⟩

/-! ## A breakpoint stops the program -/

/-- A Continue that was pushed after the report of the breakpoint has been popped. -/
def State.continued (s : State) (k : ℕ) : Prop :=
  ∃ i, k ≤ i ∧ i < s.popped.length ∧ s.pushed[i]? = some .continue

/-- The innermost handler if it returns with its next step, so that the program goes on. -/
def State.returning (s : State) : Option Handler :=
  match s.handlers with
  | [] => none
  | h :: _ => if h.pc = .test ∧ !(h.block && !s.serverStop) then some h else none

/-- A handler that has reported a breakpoint does not return before a Continue that was pushed
after the report. -/
def State.stops (s : State) : Prop :=
  ∀ h k, s.returning = some h → h.hit = some k → s.continued k

theorem returning_eq_some : s.returning = some h ↔
    ∃ rest, s.handlers = h :: rest ∧ h.pc = .test ∧ (h.block && !s.serverStop) = false := by
  rw [State.returning]
  split
  · rename_i hh
    exact ⟨nofun, fun ⟨_, hh', _⟩ => nomatch hh.symm.trans hh'⟩
  · rename_i h' rest hh
    rw [Option.ite_none_right_eq_some, Option.some.injEq, Bool.not_eq_true']
    constructor
    · rintro ⟨⟨hpc, hblock⟩, rfl⟩
      exact ⟨rest, hh, hpc, hblock⟩
    · rintro ⟨rest', hh', hpc, hblock⟩
      obtain ⟨rfl, _⟩ := List.cons.inj (hh.symm.trans hh')
      exact ⟨⟨hpc, hblock⟩, rfl⟩

/-- No Continue is in the queue when a breakpoint is reported. -/
def Op.fresh (s : State) : Op → Bool
  | .handler _ => match s.handlers with
    | h :: _ => h.pc ≠ .sendHit || .continue ∉ s.commands
    | [] => true
  | _ => true

/-- What a handler has to do with the commands. -/
structure HandlerOk (s : State) (h : Handler) : Prop where
  sending : h.pc = .sendHit → h.block = true
  /-- the report was made when `k` commands had been pushed -/
  le : ∀ k, h.hit = some k → k ≤ s.pushed.length
  /-- those of them that are not yet popped are no Continue -/
  fresh : ∀ k, h.hit = some k → ∀ i < k, s.popped.length ≤ i → s.pushed[i]? ≠ some .continue
  unblocked : ∀ k, h.hit = some k → h.block = false → s.continued k

/-- All handlers are in order, and the server has not been stopped. -/
structure Stopping (s : State) : Prop where
  fed : Fed s
  running : s.serverStop = false
  ok : ∀ h ∈ s.handlers, HandlerOk s h

/-- Nothing changes for a handler when more commands are pushed or popped. -/
theorem HandlerOk.mono (ho : HandlerOk s h) {l : List Command} (hpushed : s'.pushed = s.pushed ++ l)
    (hpopped : s.popped.length ≤ s'.popped.length) : HandlerOk s' h := by
  have hget : ∀ i < s.pushed.length, s'.pushed[i]? = s.pushed[i]? := fun i hi => by
    rw [hpushed, List.getElem?_append_left hi]
  refine ⟨ho.sending, fun k hk => ?_, fun k hk i hi hle => ?_, fun k hk hblock => ?_⟩
  · rw [hpushed, List.length_append]
    exact Nat.le_add_right_of_le (ho.le k hk)
  · rw [hget i (Nat.lt_of_lt_of_le hi (ho.le k hk))]
    exact ho.fresh k hk i hi (Nat.le_trans hpopped hle)
  · obtain ⟨i, hle, hlt, hi⟩ := ho.unblocked k hk hblock
    refine ⟨i, hle, Nat.lt_of_lt_of_le hlt hpopped, ?_⟩
    rw [hget i (List.getElem?_eq_some_iff.mp hi).1]
    exact hi

/-- The same for a handler that has moved on. -/
theorem HandlerOk.congr {h' : Handler} (ho : HandlerOk s h) (hsending : h'.pc ≠ .sendHit)
    (hblock : h'.block = h.block) (hhit : h'.hit = h.hit) : HandlerOk s h' :=
  ⟨fun hpc => absurd hpc hsending, hhit ▸ ho.le, hhit ▸ ho.fresh, hblock ▸ hhit ▸ ho.unblocked⟩

/-- Only `Shutdown` stops the server. -/
theorem step_running (hs : s.step op = some s') (hop : op ≠ .shutdown) (h : s.serverStop = false) :
    s'.serverStop = false := by
  cases op with
  | shutdown => exact absurd rfl hop
  | server =>
    revert hs
    rw [State.step]
    fun_cases serverStep s <;> intro hs <;> cases hs <;> first | rfl | exact h
  | handler r =>
    revert hs
    rw [State.step]
    fun_cases handlerStep s r <;> intro hs <;> cases hs
    case handler.case5.refl =>
      obtain ⟨_, heq, _⟩ := handleCommand_eq _ _ _ _
      rw [heq]
      exact h
    all_goals exact h
  | connect =>
    cases hs
    exact h
  | line | disconnect =>
    obtain ⟨clients, rfl⟩ := updateClient_eq hs
    exact h
  | readFails | enter | shutdownSignal =>
    rw [State.step] at hs
    split at hs <;> cases hs
    exact h

theorem Stopping.handleCommand {h : Handler} (hfed : Fed (s.handleCommand h rest c))
    (hrunning : s.serverStop = false) (hrest : ∀ h ∈ rest, HandlerOk s h) (ho : HandlerOk s h)
    (hc : c = .continue → ∀ k, h.hit = some k → s.continued k) : Stopping (s.handleCommand h rest c) := by
  obtain ⟨h', heq, hhit, hblock, hpc⟩ := handleCommand_eq s h rest c
  rw [heq] at hfed ⊢
  refine ⟨hfed, hrunning, fun h'' hmem => ?_⟩
  rcases List.mem_cons.mp hmem with rfl | hmem
  · refine ⟨fun hsend => ?_, fun k hk => ?_, fun k hk => ?_, fun k hk hfalse => ?_⟩
    · rcases hpc with hpc | ⟨_, _, hpc⟩ <;> exact nomatch hpc.symm.trans hsend
    · exact ho.le k (hhit ▸ hk)
    · exact ho.fresh k (hhit ▸ hk)
    · rw [hblock, Bool.and_eq_false_iff, decide_eq_false_iff_not, not_not] at hfalse
      rcases hfalse with hfalse | hfalse
      · exact ho.unblocked k (hhit ▸ hk) hfalse
      · exact hc hfalse k (hhit ▸ hk)
  · have ho := hrest h'' hmem
    exact ⟨ho.sending, ho.le, ho.fresh, ho.unblocked⟩

/-- The innermost handler moves on, and no command is pushed or popped. -/
theorem Stopping.move {h₀ h' : Handler} (h : Stopping s) (hh : s.handlers = h₀ :: rest)
    (hfed : Fed s') (hrunning : s'.serverStop = false) (hhandlers : s'.handlers = h' :: rest)
    (ho : HandlerOk s h') (hpushed : s'.pushed = s.pushed) (hpopped : s'.popped = s.popped) :
    Stopping s' := by
  have hsame : s'.pushed = s.pushed ++ [] := hpushed.trans (List.append_nil _).symm
  have hle : s.popped.length ≤ s'.popped.length := Nat.le_of_eq (congrArg List.length hpopped).symm
  refine ⟨hfed, hrunning, fun h'' hmem => ?_⟩
  rw [hhandlers] at hmem
  rcases List.mem_cons.mp hmem with rfl | hmem
  · exact ho.mono hsame hle
  · exact (h.ok h'' (hh ▸ List.mem_cons_of_mem _ hmem)).mono hsame hle

/-- A breakpoint is reported. -/
theorem HandlerOk.report (hf : Fed s) (ho : HandlerOk s h) (hpc : h.pc = .sendHit)
    (hfresh : .continue ∉ s.commands) :
    HandlerOk s { h with pc := .hasCommand, hit := some s.pushed.length } := by
  refine ⟨nofun, fun k hk => ?_, fun k hk i hi hle hget => ?_, fun k hk hfalse => ?_⟩
  · exact Nat.le_of_eq (Option.some.inj hk).symm
  · rw [hf.history, List.getElem?_append_right hle] at hget
    exact hfresh (List.mem_of_getElem? hget)
  · exact nomatch (ho.sending hpc).symm.trans hfalse

/-- The command that is popped now was pushed after the report if it is a Continue. -/
theorem HandlerOk.pop {commands : List Command} (hf : Fed s) (ho : HandlerOk s h)
    (hc : s.commands = c :: commands) (hcontinue : c = .continue) {k : ℕ} (hk : h.hit = some k) :
    k ≤ s.popped.length ∧ s.pushed[s.popped.length]? = some .continue := by
  have hget : s.pushed[s.popped.length]? = some .continue := by
    rw [hf.history, hc, hcontinue, List.getElem?_append_right (Nat.le_refl _), Nat.sub_self]
    rfl
  refine ⟨Nat.le_of_not_lt fun hlt => ?_, hget⟩
  exact ho.fresh k hk _ hlt (Nat.le_refl _) hget

theorem Stopping.handlerStep (h : Stopping s) (hs : handlerStep s r = some s')
    (hrunning : s'.serverStop = false) (hfresh : Op.fresh s (.handler r)) : Stopping s' := by
  have hfed := h.fed.handlerStep hs
  revert hs
  fun_cases Debugger.handlerStep s r <;> intro hs <;> cases hs
  case case2 h₀ rest hh hpc =>
    have ho := h.ok h₀ (hh ▸ List.mem_cons_self ..)
    have hno : Command.continue ∉ s.commands := by simpa [Op.fresh, hh, hpc] using hfresh
    exact h.move hh hfed hrunning rfl (ho.report h.fed hpc hno) rfl rfl
  case case3 h₀ rest hh hpc =>
    have ho := h.ok h₀ (hh ▸ List.mem_cons_self ..)
    refine h.move hh hfed hrunning rfl (ho.congr ?_ rfl rfl) rfl rfl
    split <;> exact nofun
  case case5 h₀ rest hh hpc c commands hc =>
    have ho := h.ok h₀ (hh ▸ List.mem_cons_self ..)
    have hle : s.popped.length ≤ (s.popped ++ [c]).length := by
      rw [List.length_append]
      exact Nat.le_add_right _ _
    have hsame : s.pushed = s.pushed ++ [] := (List.append_nil _).symm
    refine Stopping.handleCommand hfed h.running (fun h' hmem => ?_) (ho.mono hsame hle)
      fun hcontinue k hk => ?_
    · exact (h.ok h' (hh ▸ List.mem_cons_of_mem _ hmem)).mono hsame hle
    · obtain ⟨hk, hget⟩ := ho.pop h.fed hc hcontinue hk
      refine ⟨s.popped.length, hk, ?_, hget⟩
      simp only [List.length_append, List.length_singleton]
      omega
  case case9 h₀ rest hh hpc _ =>
    refine ⟨hfed, hrunning, fun h' hmem => ?_⟩
    have ho := h.ok h' (hh ▸ List.mem_cons_of_mem _ hmem)
    exact ⟨ho.sending, ho.le, ho.fresh, ho.unblocked⟩
  all_goals
    have hh := ‹s.handlers = _ :: _›
    have ho := h.ok _ (hh ▸ List.mem_cons_self ..)
    exact h.move hh hfed hrunning rfl (ho.congr nofun rfl rfl) rfl rfl

theorem Stopping.step (h : Stopping s) (hs : s.step op = some s') (hop : op ≠ .shutdown)
    (hfresh : op.fresh s) : Stopping s' := by
  have hrunning := step_running hs hop h.running
  have hfed := h.fed.step hs
  rcases step_cases hs with ⟨r, rfl, hs⟩ | ⟨filename, line, _, rfl⟩ | hs | ⟨c, hs⟩
  · exact h.handlerStep hs hrunning hfresh
  · refine ⟨hfed, hrunning, fun h' hmem => ?_⟩
    rcases List.mem_cons.mp hmem with rfl | hmem
    · refine ⟨fun hpc => ?_, nofun, nofun, nofun⟩
      by_contra hblock
      rw [decide_eq_true_eq] at hblock
      simp only [if_neg hblock, reduceCtorEq] at hpc
    · have ho := h.ok h' hmem
      exact ⟨ho.sending, ho.le, ho.fresh, ho.unblocked⟩
  · refine ⟨hfed, hrunning, fun h' hmem => ?_⟩
    exact (h.ok h' (hs.handlers ▸ hmem)).mono (hs.pushed.trans (List.append_nil _).symm)
      (Nat.le_of_eq (congrArg List.length hs.popped).symm)
  · refine ⟨hfed, hrunning, fun h' hmem => ?_⟩
    exact (h.ok h' (hs.handlers ▸ hmem)).mono hs.pushed
      (Nat.le_of_eq (congrArg List.length hs.popped).symm)

/-- The interleavings of both threads and the clients in which the server is not stopped and no
Continue is in the queue when a breakpoint is reported. -/
abbrev FreshRun : State → Prop :=
  Reachable (· = State.initial) State.step fun s op => op ≠ .shutdown ∧ op.fresh s

/-- **A reported breakpoint stops the program** if no Continue is in the queue at that moment:
the handler does not return before it has found one that was pushed after the report. -/
theorem breakpoint_stops (s : State) (h : FreshRun s) : s.stops := by
  have hinv : Stopping s := Reachable.invariant
    (fun _ hinit => hinit ▸ ⟨fed_initial, rfl, nofun⟩)
    (fun _ _ _ h hop hs => h.step hs hop.1 hop.2) h
  intro h' k hreturns hk
  obtain ⟨rest, hh, _, hblock⟩ := returning_eq_some.mp hreturns
  rw [hinv.running, Bool.not_false, Bool.and_true] at hblock
  exact (hinv.ok h' (hh ▸ List.mem_cons_self ..)).unblocked k hk hblock

/-- The program stops at `a:1` until the client sends a Continue. -/
theorem breakpoint_stops_example : ∃ s, FreshRun s ∧ s.stops ∧ s.returning.any (fun h => h.hit = some 1) ∧
    s.popped = [.breakLine 1 "a".toList, .continue] := by
  have hexec : (execIf (fun s op => op ≠ .shutdown && op.fresh s) State.step State.initial
      ([.connect, .line 0 "b a:1".toList, .line 0 "c".toList] ++ List.replicate 8 .server ++
        -- the command is found at another line
        .enter "b".toList 1 :: List.replicate 4 (.handler .exception) ++
        .enter "a".toList 1 :: List.replicate 4 (.handler .exception) ++
        List.replicate 4 .server ++ List.replicate 3 (.handler .exception))).any fun s =>
      s.returning.any (fun h => h.hit = some 1) ∧
      s.popped = [.breakLine 1 "a".toList, .continue] := by decide +kernel
  obtain ⟨s, hs, hcheck⟩ := (Option.any_eq_true _ _).mp hexec
  have hrun : FreshRun s := Reachable.execIf (fun s op hop => by simpa using hop) (.init rfl) hs
  exact ⟨s, hrun, breakpoint_stops s hrun, of_decide_eq_true hcheck⟩

/-- The client sends a Continue before the breakpoint is hit; the program goes on at once. -/
theorem breakpoint_not_stops :
    ¬∀ s, Reachable (· = State.initial) State.step (fun _ op => op ≠ .shutdown) s → s.stops := by
  intro hall
  have hexec : (execIf (fun _ op => op ≠ .shutdown) State.step State.initial
      ([.connect, .line 0 "b a:1".toList, .line 0 "c".toList] ++ List.replicate 8 .server ++
        .enter "b".toList 1 :: List.replicate 4 (.handler .exception) ++
        -- the Continue is pushed while the program runs
        List.replicate 4 .server ++
        .enter "a".toList 1 :: List.replicate 4 (.handler .exception))).any fun s =>
      s.returning.any (fun h => h.hit = some 2) ∧ s.popped.length = 2 := by decide +kernel
  obtain ⟨s, hs, hcheck⟩ := (Option.any_eq_true _ _).mp hexec
  have hrun : Reachable (· = State.initial) State.step (fun _ op => op ≠ .shutdown) s :=
    Reachable.execIf (fun s op hop => by simpa using hop) (.init rfl) hs
  obtain ⟨hreturns, hpopped⟩ := of_decide_eq_true hcheck
  obtain ⟨h, hreturns, hhit⟩ := (Option.any_eq_true _ _).mp hreturns
  obtain ⟨i, hle, hlt, _⟩ := hall s hrun h 2 hreturns (of_decide_eq_true hhit)
  omega

end QuickJs.Debugger
