import QuickJs.DebuggerQueue

/-!
# Shutting the debugger down

`Shutdown` sets the stop flag and signals the semaphore once. `Run` clears the flag when the server
thread begins, which may be after `Shutdown` has returned. As long as the thread has begun before,
the flag stays set and no handler sleeps: the signal is still there for one that had tested the flag
before it was set.
-/

namespace QuickJs.Debugger

open Run

variable {s s' s1 : State} {op : Op} {r : EvalResult}

/-- The steps of the threads, and the calls for sockets that fail. -/
inductive SocketOp
  | ofOp (op : Op)
  /-- `m_Server.Start` fails, and `Run` returns -/
  | startFails
  /-- `m_Server.Accept` returns `INVALID_SOCKET` -/
  | acceptFails
  deriving DecidableEq

def State.socketStep (s : State) : SocketOp → Option State
  | .ofOp op => s.step op
  | .startFails =>
    if s.server = .start then some { s with serverStop := false, server := .done } else none
  | .acceptFails => if s.server = .accept then some { s with server := .test } else none

/-- `IsRunning`. -/
def State.isRunning (s : State) : Bool := !s.serverStop

/-- `Shutdown` is final in a run: after it has returned, the server is not running, and no handler
sleeps. -/
def ShutdownFinal (ops : List SocketOp) : Prop :=
  ∀ before after s s1 s', ops = before ++ .ofOp .shutdownSignal :: after →
    exec State.socketStep State.initial before = some s →
    s.socketStep (.ofOp .shutdownSignal) = some s1 →
    exec State.socketStep s1 after = some s' → s'.isRunning = false ∧ ¬ s'.waits

/-- A step is not the one that begins `Run` after the flag has been set. -/
def SocketOp.timely (s : State) : SocketOp → Bool
  | .ofOp .server | .startFails => s.server ≠ .start || s.isRunning
  | _ => true

/-! ## What a step does to the flag and the semaphore -/

/-- The handlers below the innermost one evaluate variables. -/
def State.nested (s : State) : Prop := ∀ h ∈ s.handlers.tail, ∃ name, h.pc = .eval name

/-- What every step keeps: the flag is set when a signal of `Shutdown` is to come. -/
structure Stoppable (s : State) : Prop where
  nested : s.nested
  stopped : 0 < s.shutdowns → s.isRunning = false

/-- What every step keeps after `Shutdown` has returned. -/
structure Stopped (s : State) : Prop extends Stoppable s where
  notRunning : s.isRunning = false
  awake : ¬ s.waits

/-- A step leaves the handlers and the flag alone, and takes no signal away. -/
structure Harmless (s s' : State) : Prop where
  handlers : s'.handlers = s.handlers
  isRunning : s'.isRunning = s.isRunning
  shutdowns : 0 < s'.shutdowns → 0 < s.shutdowns
  count : s.count ≤ s'.count

theorem Harmless.stoppable (hh : Harmless s s') (h : Stoppable s) : Stoppable s' := by
  refine ⟨?_, fun hpos => hh.isRunning ▸ h.stopped (hh.shutdowns hpos)⟩
  rw [State.nested, hh.handlers]
  exact h.nested

theorem Harmless.stopped (hh : Harmless s s') (h : Stopped s) : Stopped s' := by
  refine ⟨hh.stoppable h.toStoppable, hh.isRunning ▸ h.notRunning, ?_⟩
  rintro ⟨h', rest, hhandlers, hpc, hcount⟩
  refine h.awake ⟨h', rest, hh.handlers ▸ hhandlers, hpc, ?_⟩
  have hle := hh.count
  omega

theorem running_of_timely (hok : (s.server ≠ .start || s.isRunning) = true)
    (hpc : s.server = .start) : s.isRunning = true := by
  rwa [hpc] at hok

theorem serverStep_harmless (hs : serverStep s = some s')
    (hok : (s.server ≠ .start || s.isRunning) = true) : Harmless s s' := by
  revert hs
  fun_cases serverStep s <;> intro hs <;> cases hs
  case case1.refl hpc =>
    exact ⟨rfl, (running_of_timely hok hpc).symm, id, Nat.le_refl _⟩
  all_goals first
    | exact ⟨rfl, rfl, id, Nat.le_refl _⟩
    | exact ⟨rfl, rfl, id, Nat.le_succ _⟩

/-- A handler moves on, or returns. -/
theorem handlerStep_cases (hs : handlerStep s r = some s') : s'.isRunning = s.isRunning ∧
    s'.shutdowns = s.shutdowns ∧ ∃ h rest, s.handlers = h :: rest ∧ (s'.handlers = rest ∨
      ∃ h', s'.handlers = h' :: rest ∧ (h'.pc = .wait → s.isRunning = true)) := by
  revert hs
  fun_cases handlerStep s r <;> intro hs <;> cases hs
  case case5.refl h rest hh _ c commands _ =>
    obtain ⟨h', heq, _, _, hpc⟩ := handleCommand_eq
      { s with commands := commands, popped := s.popped ++ [c] } h rest c
    rw [heq]
    refine ⟨rfl, rfl, h, rest, hh, .inr ⟨h', rfl, fun hwait => ?_⟩⟩
    rcases hpc with hpc | ⟨name, _, hpc⟩ <;> cases hpc.symm.trans hwait
  case case8.refl h rest hh _ hblock =>
    rw [Bool.and_eq_true] at hblock
    exact ⟨rfl, rfl, h, rest, hh, .inr ⟨_, rfl, fun _ => hblock.2⟩⟩
  case case9.refl h rest hh _ _ => exact ⟨rfl, rfl, h, rest, hh, .inl rfl⟩
  case case3.refl h rest hh _ =>
    refine ⟨rfl, rfl, h, rest, hh, .inr ⟨_, rfl, ?_⟩⟩
    split <;> rintro ⟨⟩
  all_goals exact ⟨rfl, rfl, _, _, ‹s.handlers = _›, .inr ⟨_, rfl, by rintro ⟨⟩⟩⟩

/-- The handlers after a step of the innermost one. -/
theorem nested_of_cases {h : Handler} {rest : List Handler} (hn : s.nested)
    (hh : s.handlers = h :: rest) (hh' : s'.handlers = rest ∨ ∃ h', s'.handlers = h' :: rest) :
    s'.nested := by
  rw [State.nested, hh] at hn
  rw [State.nested]
  rcases hh' with hh' | ⟨h', hh'⟩ <;> rw [hh']
  · exact fun h'' hmem => hn h'' (List.mem_of_mem_tail hmem)
  · exact hn

theorem Stoppable.handlerStep (h : Stoppable s) (hs : handlerStep s r = some s') : Stoppable s' := by
  obtain ⟨hrunning, hshutdowns, h₀, rest, hh, hcases⟩ := handlerStep_cases hs
  refine ⟨nested_of_cases h.nested hh (hcases.imp_right fun ⟨h', hh', _⟩ => ⟨h', hh'⟩), ?_⟩
  rw [hrunning, hshutdowns]
  exact h.stopped

theorem Stopped.handlerStep (h : Stopped s) (hs : handlerStep s r = some s') : Stopped s' := by
  obtain ⟨hrunning, hshutdowns, h₀, rest, hh, hcases⟩ := handlerStep_cases hs
  refine ⟨h.toStoppable.handlerStep hs, hrunning.trans h.notRunning, ?_⟩
  rintro ⟨h', rest', hh', hpc, _⟩
  rcases hcases with hrest | ⟨h'', hnext, hwait⟩
  · -- the handler below evaluates a variable
    obtain ⟨name, heval⟩ := h.nested h' (by rw [hh, ← hrest, hh']; exact List.mem_cons_self)
    cases heval.symm.trans hpc
  · obtain ⟨rfl, _⟩ := List.cons.inj (hnext.symm.trans hh')
    cases (hwait hpc).symm.trans h.notRunning

theorem nested_enter {filename : Str} {line : BitVec 32} (hn : s.nested) (hruns : s.runs = true) :
    (s.enter filename line).nested := by
  intro h hmem
  rw [State.runs] at hruns
  change h ∈ s.handlers at hmem
  cases hh : s.handlers with
  | nil =>
    rw [hh] at hmem
    cases hmem
  | cons h₀ rest =>
    rw [State.nested, hh] at hn
    rw [hh] at hruns hmem
    rcases List.mem_cons.mp hmem with rfl | hmem
    · cases hpc : h.pc with
      | eval name => exact ⟨name, rfl⟩
      | _ =>
        simp only [hpc] at hruns
        cases hruns
    · exact hn h hmem

/-- A step of a handler, the entry of one, a step of `Shutdown`, or something harmless. -/
theorem socketStep_cases {op : SocketOp} (hs : s.socketStep op = some s') (hok : op.timely s = true) :
    (∃ r, handlerStep s r = some s') ∨
    (∃ filename line, s.runs = true ∧ s' = s.enter filename line) ∨
    s' = { s with serverStop := true, shutdowns := s.shutdowns + 1 } ∨
    (op = .ofOp .shutdownSignal ∧ 0 < s.shutdowns ∧
      s' = { s.signal with shutdowns := s.shutdowns - 1 }) ∨ Harmless s s' := by
  cases op with
  | startFails =>
    rw [State.socketStep] at hs
    split at hs <;> cases hs
    rename_i hpc
    exact .inr (.inr (.inr (.inr ⟨rfl, (running_of_timely hok hpc).symm, id, Nat.le_refl _⟩)))
  | acceptFails =>
    rw [State.socketStep] at hs
    split at hs <;> cases hs
    exact .inr (.inr (.inr (.inr ⟨rfl, rfl, id, Nat.le_refl _⟩)))
  | ofOp op =>
    rw [State.socketStep] at hs
    cases op with
    | handler r => exact .inl ⟨r, hs⟩
    | server => exact .inr (.inr (.inr (.inr (serverStep_harmless hs hok))))
    | enter filename line =>
      rw [State.step] at hs
      split at hs <;> cases hs
      exact .inr (.inl ⟨filename, line, ‹_›, rfl⟩)
    | shutdown =>
      cases hs
      exact .inr (.inr (.inl rfl))
    | shutdownSignal =>
      rw [State.step] at hs
      split at hs <;> cases hs
      exact .inr (.inr (.inr (.inl ⟨rfl, ‹_›, rfl⟩)))
    | connect =>
      cases hs
      exact .inr (.inr (.inr (.inr ⟨rfl, rfl, id, Nat.le_refl _⟩)))
    | line | disconnect =>
      obtain ⟨clients, rfl⟩ := updateClient_eq hs
      exact .inr (.inr (.inr (.inr ⟨rfl, rfl, id, Nat.le_refl _⟩)))
    | readFails =>
      rw [State.step] at hs
      split at hs <;> cases hs
      exact .inr (.inr (.inr (.inr ⟨rfl, rfl, id, Nat.le_refl _⟩)))

theorem Stoppable.step {op : SocketOp} (h : Stoppable s) (hs : s.socketStep op = some s')
    (hok : op.timely s = true) : Stoppable s' := by
  rcases socketStep_cases hs hok with
    ⟨r, hr⟩ | ⟨filename, line, hruns, rfl⟩ | rfl | ⟨-, hpos, rfl⟩ | hh
  · exact h.handlerStep hr
  · exact ⟨nested_enter h.nested hruns, h.stopped⟩
  · exact ⟨h.nested, fun _ => rfl⟩
  · exact ⟨h.nested, fun _ => h.stopped hpos⟩
  · exact hh.stoppable h

/-- The signal of `Shutdown` is there for a handler that is about to wait. -/
theorem Stoppable.shutdownSignal (h : Stoppable s)
    (hs : s.socketStep (.ofOp .shutdownSignal) = some s') : Stopped s' := by
  have hnext := h.step hs rfl
  rw [State.socketStep, State.step] at hs
  split at hs <;> cases hs
  refine ⟨hnext, h.stopped ‹_›, ?_⟩
  rintro ⟨_, _, _, _, hcount⟩
  cases hcount

theorem Stopped.step {op : SocketOp} (h : Stopped s) (hs : s.socketStep op = some s')
    (hok : op.timely s = true) : Stopped s' := by
  rcases socketStep_cases hs hok with
    ⟨r, hr⟩ | ⟨filename, line, hruns, rfl⟩ | rfl | ⟨rfl, -, -⟩ | hh
  · exact h.handlerStep hr
  · refine ⟨⟨nested_enter h.nested hruns, h.stopped⟩, h.notRunning, ?_⟩
    rintro ⟨h', rest, hh, hpc, -⟩
    obtain ⟨rfl, -⟩ := List.cons.inj hh
    split at hpc <;> cases hpc
  · exact ⟨⟨h.nested, fun _ => rfl⟩, rfl, h.awake⟩
  · exact h.toStoppable.shutdownSignal hs
  · exact hh.stopped h

/-! ## Runs -/

theorem stoppable_initial : Stoppable State.initial := ⟨nofun, nofun⟩

/-- **Shutdown is final** in every run in which the server thread has begun before the flag is
set. -/
theorem shutdown_final (ops : List SocketOp)
    (hok : Along State.socketStep (fun s op => op.timely s) State.initial ops) :
    ShutdownFinal ops := by
  rintro before after s s1 s' rfl hbefore hreturn hafter
  obtain ⟨hok, hok'⟩ := hok.of_append hbefore
  have hs : Stoppable s :=
    hok.invariant (fun _ _ _ h hok hs => h.step hs hok) stoppable_initial hbefore
  have hs' : Stopped s' := (hok'.2 s1 hreturn).invariant (fun _ _ _ h hok hs => h.step hs hok)
    (hs.shutdownSignal hreturn) hafter
  exact ⟨hs'.notRunning, hs'.awake⟩

/-- The program is stopped at `a:1` and has tested the flag before it is set; it takes the signal. -/
def stoppedRun : List SocketOp :=
  [.ofOp .connect, .ofOp (.line 0 "b a:1".toList)] ++ List.replicate 8 (.ofOp .server) ++
    [.ofOp (.enter "b".toList 1)] ++ List.replicate 4 (.ofOp (.handler .exception)) ++
    [.ofOp (.enter "a".toList 1)] ++ List.replicate 6 (.ofOp (.handler .exception)) ++
    [.ofOp .shutdown, .ofOp .shutdownSignal] ++ List.replicate 3 (.ofOp (.handler .exception))

theorem shutdown_final_example : ShutdownFinal stoppedRun ∧
    (exec State.socketStep State.initial stoppedRun).any (fun s => s.handlers = [] ∧ s.count = 0) := by
  have hexec : (execIf (fun s op => op.timely s) State.socketStep State.initial stoppedRun).isSome := by
    decide +kernel
  exact ⟨shutdown_final _ (.of_execIf (fun _ _ h => h) hexec), by decide +kernel⟩

/-- `Shutdown` returns before the server thread begins. -/
theorem shutdown_not_final : ¬ ShutdownFinal [.ofOp .shutdown, .ofOp .shutdownSignal, .ofOp .server] := by
  intro hall
  obtain ⟨hstop, -⟩ := hall [.ofOp .shutdown] [.ofOp .server] _ _ _ rfl rfl rfl rfl
  cases hstop

end QuickJs.Debugger
