import QuickJs.DebuggerQueue

/-!
# The tunnel of the present client

`SendMessage` writes to the tunnel that `m_CurrentTunnel` points to and does not look whether
there is one. The tunnel can be used while `HandleClient` runs; when it returns the connection
is gone, and the pointer is reset only if the client said stop. While no client is served the
program must not come to a breakpoint and no variable must be read.
-/

namespace QuickJs.Debugger

open Run

variable {s s' : State} {op : Op} {r : EvalResult} {h : Handler} {rest : List Handler} {n : Conn}

/-- The connection whose tunnel can be used: `HandleClient` has made it and has not returned. -/
def ServerPc.conn : ServerPc → Option Conn
  | .readLine c | .parseCommand c _ | .signal c | .check c | .reset c => some c
  | .start | .test | .accept | .openTunnel _ | .closeSocket _ | .done => none

/-- `SendMessage` is called. -/
def State.sending (s : State) : Bool :=
  match s.handlers with
  | [] => false
  | h :: _ => match h.pc with
    | .sendHit | .sendVariable _ _ => true
    | _ => false

/-- `m_CurrentTunnel` is the tunnel of a connection that is open. -/
def State.live (s : State) : Prop := ∃ c, s.currentTunnel = some c ∧ s.server.conn = some c

/-- The handler is going to send a message. -/
def HandlerPc.sends : HandlerPc → Bool
  | .sendHit | .eval _ | .sendVariable _ _ => true
  | .hasCommand | .popCommand | .test | .wait => false

/-- No handler is going to send a message. -/
def State.silent (s : State) : Bool := s.handlers.all (!·.pc.sends)

/-- The connection ends with this step: reading fails, or the client has gone away or has said
stop. -/
def Op.endsConnection (s : State) : Op → Bool
  | .readFails => true
  | .server => match s.server with
    | .reset _ => true
    | .readLine c => s.clients[c]?.any fun client => client.inbox.isEmpty && !client.isOpen
    | _ => false
  | _ => false

/-- A handler takes a command to read a variable. -/
def State.takesRead (s : State) : Bool :=
  match s.handlers, s.commands with
  | h :: _, .readVariable _ :: _ => h.pc = .popCommand
  | _, _ => false

/-- While no client is served the program comes to no breakpoint and no variable is read, and a
connection does not end before a message is sent that is to be sent. -/
def Op.served (s : State) : Op → Bool
  | .enter filename n => s.server.conn.isSome || (filename, n) ∉ s.breakPoints
  | .handler _ => s.server.conn.isSome || !s.takesRead
  | op => !op.endsConnection s || s.silent

/-! ## The invariant -/

/-- The pointer is right while a client is served, and nothing is to be sent otherwise. -/
structure Connected (s : State) : Prop where
  current : ∀ c, s.server.conn = some c → s.currentTunnel = some c
  silent : s.server.conn = none → s.silent

theorem silent_iff : s.silent ↔ ∀ h ∈ s.handlers, h.pc.sends = false := by
  simp only [State.silent, List.all_eq_true, Bool.not_eq_true']

theorem sending_eq_false (hq : s.silent) : s.sending = false := by
  rw [State.sending]
  split
  · rfl
  · rename_i h rest hh
    have hpc := silent_iff.mp hq h (hh ▸ List.mem_cons_self ..)
    split
    · rename_i hsend
      rw [hsend] at hpc
      cases hpc
    · rename_i hsend
      rw [hsend] at hpc
      cases hpc
    · rfl

theorem Connected.live (hc : Connected s) (hsending : s.sending) : s.live := by
  cases hconn : s.server.conn with
  | none =>
    rw [sending_eq_false (hc.silent hconn)] at hsending
    cases hsending
  | some c => exact ⟨c, hc.current c hconn, hconn⟩

/-! ## Steps -/

theorem serverStep_handlers (hs : serverStep s = some s') : s'.handlers = s.handlers := by
  rcases serverStep_cases hs with h | ⟨_, h⟩ <;> exact h.handlers

/-- A server thread that serves a client before a step and none after it has ended the
connection. -/
theorem serverStep_leaves (hs : serverStep s = some s') (hconn : s'.server.conn = none)
    (hin : s.server.conn ≠ none) : Op.endsConnection s .server := by
  revert hs hconn
  fun_cases serverStep s <;> intro hs hconn <;> cases hs
  all_goals try cases hconn
  case case1 hpc | case2 hpc _ | case3 hpc _ | case4 hpc _ | case17 hpc =>
    rw [hpc] at hin
    exact absurd rfl hin
  case case10 c hpc client hclient hinbox hopen =>
    simp only [Op.endsConnection, hpc, hclient, hinbox, Option.any_some, List.isEmpty_nil, hopen,
      Bool.not_false, Bool.and_self]
  case case15 c hpc =>
    cases hstop : s.clientStop <;> simp only [hstop] at hconn <;> cases hconn
  case case16 c hpc => simp only [Op.endsConnection, hpc]

/-- The pointer is set with the tunnel and stays as long as the connection. -/
theorem serverStep_current (hcur : ∀ c, s.server.conn = some c → s.currentTunnel = some c)
    (hs : serverStep s = some s') (hconn : s'.server.conn = some n) : s'.currentTunnel = some n := by
  revert hs hconn
  fun_cases serverStep s <;> intro hs hconn <;> cases hs
  case case15 c hpc =>
    have hn : some c = some n := by
      cases hstop : s.clientStop <;> simp only [hstop] at hconn <;> exact hconn
    exact hcur n (hpc ▸ hn)
  all_goals cases hconn
  case case6.refl.refl => rfl
  all_goals
    have hpc := ‹s.server = _›
    exact hcur n (by rw [hpc]; rfl)

theorem handlerStep_server (hs : handlerStep s r = some s') :
    s'.server = s.server ∧ s'.currentTunnel = s.currentTunnel := by
  revert hs
  fun_cases handlerStep s r <;> intro hs <;> cases hs
  case case5 =>
    obtain ⟨_, heq, _⟩ := handleCommand_eq _ _ _ _
    rw [heq]
    exact ⟨rfl, rfl⟩
  all_goals exact ⟨rfl, rfl⟩

/-- The innermost handler moves on without anything to send. -/
theorem silent_move {h' : Handler} (hq : s.silent) (hh : s.handlers = h :: rest)
    (hhandlers : s'.handlers = h' :: rest) (hpc : h'.pc.sends = false) : s'.silent := by
  refine silent_iff.mpr fun h'' hmem => ?_
  rw [hhandlers] at hmem
  rcases List.mem_cons.mp hmem with rfl | hmem
  · exact hpc
  · exact silent_iff.mp hq h'' (hh ▸ List.mem_cons_of_mem _ hmem)

/-- A handler that does not read a variable finds nothing to send. -/
theorem handlerStep_silent (hq : s.silent) (hs : handlerStep s r = some s')
    (hread : s.takesRead = false) : s'.silent := by
  have hsends := silent_iff.mp hq
  revert hs
  fun_cases handlerStep s r <;> intro hs <;> cases hs
  case case2 hh hpc | case6 hh _ hpc | case7 hh _ _ hpc =>
    -- the handler would have something to send
    have hfalse := hsends _ (hh ▸ List.mem_cons_self ..)
    rw [hpc] at hfalse
    cases hfalse
  case case3 hh hpc =>
    refine silent_move hq hh rfl ?_
    split <;> rfl
  case case5 hh hpc c commands hc =>
    cases c with
    | readVariable =>
      simp only [State.takesRead, hh, hc, hpc] at hread
      cases hread
    | breakLine | empty | «continue» => exact silent_move hq hh rfl rfl
  case case9 hh _ _ =>
    exact silent_iff.mpr fun h' hmem => hsends h' (hh ▸ List.mem_cons_of_mem _ hmem)
  case case4 hh _ _ | case8 hh _ _ | case10 hh _ _ => exact silent_move hq hh rfl rfl

/-- So does a line without a breakpoint. -/
theorem enter_silent {filename : Str} {line : BitVec 32} (hq : s.silent)
    (hno : (filename, line) ∉ s.breakPoints) : (s.enter filename line).silent := by
  refine silent_iff.mpr fun h' hmem => ?_
  rcases List.mem_cons.mp hmem with rfl | hmem
  · simp only [hno]
    rfl
  · exact silent_iff.mp hq h' hmem

theorem Connected.step (hc : Connected s) (hs : s.step op = some s') (hserved : op.served s) :
    Connected s' := by
  cases op with
  | server =>
    refine ⟨fun c hconn => serverStep_current hc.current hs hconn, fun hconn => ?_⟩
    rw [State.silent, serverStep_handlers hs]
    by_cases hin : s.server.conn = none
    · exact hc.silent hin
    · have hsilent : s.silent := by simpa [Op.served, serverStep_leaves hs hconn hin] using hserved
      exact hsilent
  | handler r =>
    obtain ⟨hserver, htunnel⟩ := handlerStep_server hs
    refine ⟨fun c hconn => ?_, fun hconn => ?_⟩
    · rw [htunnel]
      exact hc.current c (hserver ▸ hconn)
    · have hnone : s.server.conn = none := hserver ▸ hconn
      exact handlerStep_silent (hc.silent hnone) hs (by simpa [Op.served, hnone] using hserved)
  | readFails =>
    rw [State.step] at hs
    split at hs <;> cases hs
    have hsilent : s.silent := by simpa [Op.served, Op.endsConnection] using hserved
    exact ⟨by rintro _ ⟨⟩, fun _ => hsilent⟩
  | enter filename line =>
    rw [State.step] at hs
    split at hs <;> cases hs
    refine ⟨hc.current, fun hconn => ?_⟩
    have hnone : s.server.conn = none := hconn
    exact enter_silent (hc.silent hconn) (by simpa [Op.served, hnone] using hserved)
  | connect | shutdown =>
    cases hs
    exact ⟨hc.current, hc.silent⟩
  | line | disconnect =>
    obtain ⟨clients, rfl⟩ := updateClient_eq hs
    exact ⟨hc.current, hc.silent⟩
  | shutdownSignal =>
    rw [State.step] at hs
    split at hs <;> cases hs
    exact ⟨hc.current, hc.silent⟩

/-- The runs in which there is something to send only while a client is served. -/
abbrev ServedRun : State → Prop :=
  Reachable (· = State.initial) State.step fun s op => op.served s

/-- **The debugger writes to a live connection** if there is something to send only while a
client is served. -/
theorem writes_to_live (s : State) (h : ServedRun s) : s.sending → s.live := by
  have hinv : Connected s := Reachable.invariant (fun _ hinit => hinit ▸ ⟨nofun, fun _ => rfl⟩)
    (fun _ _ _ h hop hs => h.step hs hop) h
  exact hinv.live

/-- The message that the breakpoint `a:1` is hit. -/
theorem writes_to_live_example : ∃ s, ServedRun s ∧ s.sending ∧ s.live := by
  have hexec : (execIf (fun s op => op.served s) State.step State.initial
      ([.connect, .line 0 "b a:1".toList] ++ List.replicate 8 .server ++
        .enter "b".toList 1 :: List.replicate 4 (.handler .exception) ++
        [.enter "a".toList 1])).any State.sending := by decide +kernel
  obtain ⟨s, hs, hsending⟩ := (Option.any_eq_true _ _).mp hexec
  have hrun : ServedRun s := Reachable.execIf (fun _ _ hop => hop) (.init rfl) hs
  exact ⟨s, hrun, hsending, writes_to_live s hrun hsending⟩

/-- The client sets a breakpoint and says stop; then the breakpoint is hit. -/
theorem writes_to_nobody : ¬∀ s, Reachable (· = State.initial) State.step (fun _ _ => True) s →
    s.sending → s.live := by
  intro hall
  have hexec : (exec State.step State.initial
      ([.connect, .line 0 "b a:1".toList, .line 0 "s".toList] ++ List.replicate 12 .server ++
        .enter "b".toList 1 :: List.replicate 4 (.handler .exception) ++
        [.enter "a".toList 1])).any fun s => s.sending && s.currentTunnel = none := by
    decide +kernel
  obtain ⟨s, hs, hcheck⟩ := (Option.any_eq_true _ _).mp hexec
  obtain ⟨hsending, hnone⟩ := (Bool.and_eq_true _ _).mp hcheck
  obtain ⟨c, hc, _⟩ := hall s (.exec (fun _ _ => trivial) (.init rfl) hs) hsending
  exact nomatch (of_decide_eq_true hnone).symm.trans hc

end QuickJs.Debugger
