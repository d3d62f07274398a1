import QuickJs.DebuggerQueue

/-!
# Reading a variable

The value of a variable is computed by evaluating a text with the line hook installed. The parser
opens the scope of the text before it has read a token, so that the text begins with a marker for
line 0 and another one for line 1, and the hook enters the handler at both. A text that fails leaves
its exception pending. So no command to read a variable goes without a trace.
-/

namespace QuickJs.Debugger

open Run

variable {name : Str}

/-! ## The compiled text -/

/-- An instruction of the text. -/
inductive TextOp
  | lineNum (line : ℕ)
  | enterScope
  | getVar (name : Str)
  | getField2 (name : Str)
  | callMethod (argc : ℕ)
  | putLoc (idx : ℕ)
  | getLoc (idx : ℕ)
  | ret
  deriving DecidableEq

/-- `emit_op` for some instructions, each with the line of the last token, after `last_opcode_line_num`. -/
def emitOps : ℕ → List (ℕ × TextOp) → List TextOp
  | _, [] => []
  | lastOpcodeLineNum, (lastLineNum, op) :: ops =>
    if lastOpcodeLineNum ≠ lastLineNum then .lineNum lastLineNum :: op :: emitOps lastLineNum ops
    else op :: emitOps lastOpcodeLineNum ops

/-- `__JS_EvalInternal` parses `JSON.stringify(name)`: `push_scope` comes before the first token. -/
def parseText (name : Str) : List TextOp :=
  emitOps 1 [(0, .enterScope), (1, .getVar "JSON".toList), (1, .getField2 "stringify".toList),
    (1, .getVar name), (1, .callMethod 1), (1, .putLoc 0), (1, .getLoc 0), (1, .ret)]

/-- `resolve_variables` and `resolve_labels` under the debugger: a scope without variables is
nothing, and the markers stay. -/
def compileText (name : Str) : List TextOp := (parseText name).filter (· ≠ .enterScope)

/-- A getter or a `toJSON` method of the program can run. -/
def TextOp.runsProgram : TextOp → Bool
  | getVar _ | getField2 _ | callMethod _ => true
  | _ => false

/-! ## The state -/

/-- The threads and the engine: the number of the pending exception, the number of the next one that
is made, what is left of the texts that are evaluated, the innermost first, and how often the
handler has been entered. -/
structure ReadState extends State where
  pending : Option ℕ
  nextException : ℕ
  texts : List (List TextOp)
  entered : ℕ

def ReadState.initial : ReadState := ⟨State.initial, none, 0, [], 0⟩

/-- Where the innermost handler is. -/
def State.pc? (s : State) : Option HandlerPc := s.handlers.head?.map Handler.pc

/-- Code of the program runs: no handler has been called, or an instruction of a text calls it. -/
def ReadState.programRuns (s : ReadState) : Bool :=
  s.handlers.isEmpty || match s.texts with
    | (op :: _) :: _ => s.runs && op.runsProgram
    | _ => false

inductive ReadOp
  /-- a step of the server thread, a client or `Shutdown`, or of a handler that does not evaluate -/
  | ofOp (op : Op)
  /-- the program comes to a new line -/
  | line (filename : Str) (line : BitVec 32)
  /-- the program throws an exception and catches it -/
  | catches
  /-- `JS_Eval` throws before the text runs -/
  | evalFails
  /-- an instruction of the text is done -/
  | textStep
  /-- an instruction of the text throws -/
  | textThrows
  /-- the text comes to its end -/
  | textEnds (r : EvalResult)

/-- What a handler has done that does not evaluate: it has the text if it has just taken a command to
read a variable. -/
def ReadState.handled (s : ReadState) (t : State) : ReadState :=
  match s.pc?, t.pc? with
  | some .popCommand, some (.eval name) =>
    { s with toState := t, texts := compileText name :: s.texts }
  | _, _ => { s with toState := t }

/-- The text of the innermost handler is left with an exception. -/
def ReadState.throw (s : ReadState) (texts : List (List TextOp)) : Option ReadState :=
  (handlerStep s.toState .exception).map fun t =>
    { s with
      toState := t
      pending := some s.nextException
      nextException := s.nextException + 1
      texts := texts }

/-- `debug_handler` is called. -/
def ReadState.call (s : ReadState) (filename : Str) (line : BitVec 32) : ReadState :=
  { s with toState := s.toState.enter filename line, entered := s.entered + 1 }

def ReadState.step (s : ReadState) : ReadOp → Option ReadState
  | .ofOp (.enter _ _) => none
  | .ofOp (.handler r) =>
    if s.runs then none
    else (handlerStep s.toState r).map s.handled
  | .ofOp op => (s.toState.step op).map fun t => { s with toState := t }
  | .line filename line => if s.programRuns then some (s.call filename line) else none
  | .catches =>
    if s.programRuns then
      some { s with pending := none, nextException := s.nextException + 1 }
    else none
  | .evalFails =>
    match s.pc?, s.texts with
    | some (.eval name), text :: texts => if text = compileText name then s.throw texts else none
    | _, _ => none
  | .textStep =>
    match s.pc?, s.texts with
    | some (.eval _), (.lineNum line :: text) :: texts =>
      some ({ s with texts := text :: texts }.call "<input>".toList (.ofNat 32 line))
    | some (.eval _), (_ :: text) :: texts => some { s with texts := text :: texts }
    | _, _ => none
  | .textThrows =>
    match s.pc?, s.texts with
    | some (.eval _), (op :: _) :: texts => if op.runsProgram then s.throw texts else none
    | _, _ => none
  | .textEnds r =>
    match s.pc?, s.texts with
    | some (.eval _), [] :: texts =>
      if r = .exception then none
      else (handlerStep s.toState r).map fun t => { s with toState := t, texts := texts }
    | _, _ => none

/-! ## Handling a command -/

/-- The handler evaluates a variable, or is about to reply. -/
def HandlerPc.reads : HandlerPc → Bool
  | eval _ | sendVariable _ _ => true
  | _ => false

/-- The handler at a depth is at work on a command to read a variable. -/
def ReadState.handling (s : ReadState) (depth : ℕ) : Bool :=
  depth < s.handlers.length || s.handlers.length = depth && s.pc?.any HandlerPc.reads

/-- The innermost handler takes the command to read a variable, and comes back to its queue. -/
structure ReadState.Handles (s : ReadState) (name : Str) (s' : ReadState) : Prop where
  popping : s.pc? = some .popCommand
  command : s.commands.head? = some (.readVariable name)
  run : ∃ r s1, s.step (.ofOp (.handler r)) = some s1 ∧
    Reachable (· = s1) ReadState.step (fun t _ => t.handling s.handlers.length) s'
  depth : s'.handlers.length = s.handlers.length
  back : s'.pc? = some .hasCommand

/-- Handling the command has left no trace but one reply. -/
structure ReadState.Transparent (s : ReadState) (name : Str) (s' : ReadState) : Prop where
  pending : s'.pending = s.pending
  breakPoints : s'.breakPoints = s.breakPoints
  block : s'.handlers.head?.map Handler.block = s.handlers.head?.map Handler.block
  sent : ∃ tunnel value, s'.sent = s.sent ++ [(tunnel, (Message.var name value).text)]
  entered : s'.entered = s.entered

/-- The states of all runs. -/
abbrev ReadReached : ReadState → Prop :=
  Reachable (· = ReadState.initial) ReadState.step fun _ _ => True

variable {s s' t : ReadState} {texts : List (List TextOp)}

theorem throw_eq (h : s.throw texts = some s') : s'.pending = some s.nextException ∧
    s'.nextException = s.nextException + 1 ∧ s'.entered = s.entered ∧
    handlerStep s.toState .exception = some s'.toState := by
  obtain ⟨t, ht, rfl⟩ := Option.map_eq_some_iff.mp h
  exact ⟨rfl, rfl, rfl, ht⟩

theorem handled_eq (s : ReadState) (t : State) :
    ∃ texts, s.handled t = { s with toState := t, texts := texts } := by
  rw [ReadState.handled]
  split <;> exact ⟨_, rfl⟩

variable {u : State} {op : ReadOp} {h : Handler} {rest : List Handler} {depth e : ℕ}

theorem handled_of_pop (hpc : s.pc? = some .popCommand) (hu : u.pc? = some (.eval name)) :
    s.handled u = { s with toState := u, texts := compileText name :: s.texts } := by
  rw [ReadState.handled, hpc, hu]

theorem handled_of_ne (hpc : s.pc? ≠ some .popCommand) : s.handled u = { s with toState := u } := by
  rw [ReadState.handled]
  split
  · rename_i hpop _
    exact absurd hpop hpc
  · rfl

/-- A step of another thread. -/
def Op.elsewhere : Op → Bool
  | handler _ | enter _ _ => false
  | _ => true

theorem step_elsewhere {op : Op} (hop : op.elsewhere = true) :
    s.step (.ofOp op) = (s.toState.step op).map fun t => { s with toState := t } := by
  cases op <;> first | rfl | cases hop

theorem elsewhere_handlers {op : Op} {u' : State} (hop : op.elsewhere = true)
    (h : u.step op = some u') : u'.handlers = u.handlers := by
  cases op with
  | handler | enter => cases hop
  | server =>
    rcases serverStep_cases h with haside | ⟨c, hpushes⟩
    · exact haside.handlers
    · exact hpushes.handlers
  | connect | shutdown =>
    cases h
    rfl
  | line | disconnect =>
    obtain ⟨clients, rfl⟩ := updateClient_eq h
    rfl
  | readFails | shutdownSignal =>
    rw [State.step] at h
    split at h <;> cases h
    rfl

/-- What a step does to the pending exception and to the number of calls of the handler. -/
inductive Effect (s s' : ReadState) : Prop
  | keeps (hpending : s'.pending = s.pending) (hnext : s'.nextException = s.nextException)
    (hentered : s.entered ≤ s'.entered)
  | catches (hpending : s'.pending = none) (hentered : s'.entered = s.entered)
  | throws (hpending : s'.pending = some s.nextException)
    (hnext : s'.nextException = s.nextException + 1) (hentered : s'.entered = s.entered)

theorem throw_effect (h : s.throw texts = some s') : Effect s s' :=
  let ⟨hpending, hnext, hentered, _⟩ := throw_eq h
  .throws hpending hnext hentered

theorem step_effect (h : s.step op = some s') : Effect s s' := by
  cases op with
  | ofOp op =>
    by_cases hop : op.elsewhere = true
    · rw [step_elsewhere hop] at h
      obtain ⟨t, _, rfl⟩ := Option.map_eq_some_iff.mp h
      exact .keeps rfl rfl (Nat.le_refl _)
    cases op with
    | enter => cases h
    | handler r =>
      rw [ReadState.step] at h
      split at h
      · cases h
      obtain ⟨t, _, rfl⟩ := Option.map_eq_some_iff.mp h
      obtain ⟨texts, ht⟩ := handled_eq s t
      rw [ht]
      exact .keeps rfl rfl (Nat.le_refl _)
    | _ => exact absurd rfl hop
  | line =>
    rw [ReadState.step] at h
    split at h <;> cases h
    exact .keeps rfl rfl (Nat.le_succ _)
  | catches =>
    rw [ReadState.step] at h
    split at h <;> cases h
    exact .catches rfl rfl
  | evalFails =>
    rw [ReadState.step] at h
    split at h
    · split at h
      · exact throw_effect h
      · cases h
    · cases h
  | textStep =>
    rw [ReadState.step] at h
    split at h <;> cases h
    · exact .keeps rfl rfl (Nat.le_succ _)
    · exact .keeps rfl rfl (Nat.le_refl _)
  | textThrows =>
    rw [ReadState.step] at h
    split at h
    · split at h
      · exact throw_effect h
      · cases h
    · cases h
  | textEnds r =>
    rw [ReadState.step] at h
    split at h
    · split at h
      · cases h
      obtain ⟨t, _, rfl⟩ := Option.map_eq_some_iff.mp h
      exact .keeps rfl rfl (Nat.le_refl _)
    · cases h

/-- The pending exception has been made. -/
def ReadState.Made (s : ReadState) : Prop := ∀ e, s.pending = some e → e < s.nextException

theorem ReadState.Made.step (hm : s.Made) (h : s.step op = some s') : s'.Made := by
  intro e he
  cases step_effect h with
  | keeps hpending hnext => exact hnext ▸ hm e (hpending ▸ he)
  | catches hpending => cases hpending.symm.trans he
  | throws hpending hnext =>
    cases hpending.symm.trans he
    exact hnext ▸ Nat.lt_succ_self _

theorem entered_le (h : s.step op = some s') : s.entered ≤ s'.entered := by
  cases step_effect h with
  | keeps _ _ hentered => exact hentered
  | catches _ hentered | throws _ _ hentered => exact Nat.le_of_eq hentered.symm

/-! ## Every command leaves a trace -/

/-- The text of the handler at a depth has not begun. -/
structure ReadState.Unstarted (s : ReadState) (depth : ℕ) : Prop where
  depth : s.handlers.length = depth
  text : ∃ name texts, s.pc? = some (.eval name) ∧ s.texts = compileText name :: texts

/-- The handler at a depth is about to reply after an exception, or has replied. -/
structure ReadState.Failed (s : ReadState) (depth e : ℕ) : Prop where
  pending : ∃ e', s.pending = some e' ∧ e ≤ e'
  depth : s.handlers.length = depth
  pc : ∃ pc, s.pc? = some pc ∧ ∀ name, pc ≠ .eval name

/-- What holds while the command is handled, and after it: the hook has called the handler, or an
exception is pending, or nothing has been done yet. -/
inductive ReadState.Traced (s : ReadState) (depth entered e : ℕ) : Prop
  | entered (h : entered < s.entered)
  | failed (h : s.Failed depth e)
  | unstarted (h : s.Unstarted depth) (hnext : e ≤ s.nextException)

theorem compileText_eq (name : Str) : ∃ text, compileText name = .lineNum 0 :: text := ⟨_, rfl⟩

theorem pc?_eq_some {s : State} {pc : HandlerPc} (h : s.pc? = some pc) :
    ∃ h rest, s.handlers = h :: rest ∧ h.pc = pc := by
  obtain ⟨h₀, hhead, hpc⟩ := Option.map_eq_some_iff.mp h
  obtain ⟨rest, hh⟩ := List.head?_eq_some_iff.mp hhead
  exact ⟨h₀, rest, hh, hpc⟩

theorem pc?_of_cons {s : State} (hh : s.handlers = h :: rest) : s.pc? = some h.pc := by
  rw [State.pc?, hh]
  rfl

/-- An evaluation ends. -/
theorem handlerStep_eval {s : State} {name : Str} (r : EvalResult)
    (hh : s.handlers = h :: rest) (hpc : h.pc = .eval name) : handlerStep s r =
      some { s with handlers := { h with pc := .sendVariable name r.text } :: rest } := by
  rw [handlerStep, hh]
  simp only [hpc]

/-- A reply is sent. -/
theorem handlerStep_sendVariable {s : State} {name value : Str}
    (r : EvalResult) (hh : s.handlers = h :: rest) (hpc : h.pc = .sendVariable name value) :
    handlerStep s r = some { s.send (.var name value) with
      handlers := { h with pc := .hasCommand } :: rest } := by
  rw [handlerStep, hh]
  simp only [hpc]

theorem runs_eq {s : State} (hh : s.handlers = h :: rest) : s.runs = true ↔ ∃ name, h.pc = .eval name := by
  rw [State.runs, hh]
  dsimp only
  cases h.pc with
  | eval name => exact iff_of_true rfl ⟨name, rfl⟩
  | _ => exact iff_of_false nofun nofun

/-- The program runs below a handler only if an instruction of a text has called it. -/
theorem programRuns_eq_true (hh : t.handlers = h :: rest)
    (hruns : t.programRuns = true) : (∃ name, h.pc = .eval name) ∧
      ∃ op text texts, t.texts = (op :: text) :: texts ∧ op.runsProgram = true := by
  rw [ReadState.programRuns, hh] at hruns
  split at hruns
  · rename_i op text texts htexts
    obtain ⟨hruns, hop⟩ := (Bool.and_eq_true _ _).mp hruns
    exact ⟨(runs_eq hh).mp hruns, op, text, texts, htexts, hop⟩
  · cases hruns

theorem ReadState.Unstarted.step {entered : ℕ} (hu : t.Unstarted depth)
    (hnext : e ≤ t.nextException) (hentered : entered ≤ t.entered) (h : t.step op = some s') :
    s'.Traced depth entered e := by
  obtain ⟨name, texts, hpc, htexts⟩ := hu.text
  obtain ⟨h₀, rest, hh, hpc₀⟩ := pc?_eq_some hpc
  obtain ⟨text, htext⟩ := compileText_eq name
  have hno : t.programRuns = false := by
    refine Bool.eq_false_iff.mpr fun hruns => ?_
    obtain ⟨-, op, text', texts', htexts', hop⟩ := programRuns_eq_true hh hruns
    cases htext ▸ htexts.symm.trans htexts'
    cases hop
  cases op with
  | ofOp op =>
    by_cases hop : op.elsewhere = true
    · rw [step_elsewhere hop] at h
      obtain ⟨u, hu', rfl⟩ := Option.map_eq_some_iff.mp h
      have hhandlers := elsewhere_handlers hop hu'
      refine .unstarted ⟨(congrArg _ hhandlers).trans hu.depth, name, texts, ?_, htexts⟩ hnext
      exact (pc?_of_cons (hhandlers.trans hh)).trans (congrArg some hpc₀)
    cases op with
    | enter => cases h
    | handler r =>
      rw [ReadState.step, if_pos ((runs_eq hh).mpr ⟨name, hpc₀⟩)] at h
      cases h
    | _ => exact absurd rfl hop
  | line | catches =>
    rw [ReadState.step, hno] at h
    cases h
  | evalFails =>
    simp only [ReadState.step, hpc, htexts] at h
    obtain ⟨hpending, -, -, hs'⟩ := throw_eq h
    rw [handlerStep_eval _ hh hpc₀, Option.some.injEq] at hs'
    have hh' : s'.handlers = { h₀ with pc := .sendVariable name _ } :: rest := congrArg _ hs'.symm
    refine .failed ⟨⟨_, hpending, hnext⟩, ?_, _, pc?_of_cons hh', nofun⟩
    rw [hh', ← hu.depth, hh]
    rfl
  | textStep =>
    simp only [ReadState.step, hpc, htexts] at h
    cases h
    exact .entered (Nat.lt_succ_of_le hentered)
  | textThrows =>
    simp only [ReadState.step, hpc, htexts] at h
    cases h
  | textEnds =>
    simp only [ReadState.step, hpc, htexts] at h
    cases h

theorem ReadState.Failed.step (hf : t.Failed depth e)
    (hhandling : t.handling depth = true) (h : t.step op = some s') : s'.Failed depth e := by
  obtain ⟨pc, hpc, heval⟩ := hf.pc
  obtain ⟨name, value, hsend⟩ : ∃ name value, t.pc? = some (.sendVariable name value) := by
    rw [ReadState.handling, hf.depth, decide_eq_false (Nat.lt_irrefl _), hpc] at hhandling
    have hreads : pc.reads = true := (Bool.and_eq_true _ _ ▸ hhandling).2
    cases pc with
    | eval name => exact absurd rfl (heval name)
    | sendVariable name value => exact ⟨name, value, hpc⟩
    | _ => cases hreads
  obtain ⟨h₀, rest, hh, hpc₀⟩ := pc?_eq_some hsend
  have hno : ¬ ∃ name, h₀.pc = .eval name := by
    rintro ⟨name, hpc'⟩
    cases hpc₀.symm.trans hpc'
  have hidle : t.programRuns = false :=
    Bool.eq_false_iff.mpr fun hruns => hno (programRuns_eq_true hh hruns).1
  cases op with
  | ofOp op =>
    by_cases hop : op.elsewhere = true
    · rw [step_elsewhere hop] at h
      obtain ⟨u, hu', rfl⟩ := Option.map_eq_some_iff.mp h
      have hhandlers := elsewhere_handlers hop hu'
      refine ⟨hf.pending, (congrArg _ hhandlers).trans hf.depth, _,
        pc?_of_cons (hhandlers.trans hh), fun name hpc' => hno ⟨name, hpc'⟩⟩
    cases op with
    | enter => cases h
    | handler r =>
      rw [ReadState.step, if_neg fun hruns => hno ((runs_eq hh).mp hruns),
        handlerStep_sendVariable r hh hpc₀, Option.map_some, handled_of_ne (hsend ▸ nofun)] at h
      cases h
      refine ⟨hf.pending, ?_, .hasCommand, rfl, nofun⟩
      rw [← hf.depth, hh]
      rfl
    | _ => exact absurd rfl hop
  | line | catches =>
    rw [ReadState.step, hidle] at h
    cases h
  | evalFails | textStep | textThrows | textEnds =>
    simp only [ReadState.step, hsend] at h
    cases h

theorem ReadState.Traced.step {entered : ℕ} (ht : t.Traced depth entered e)
    (hentered : entered ≤ t.entered) (hhandling : t.handling depth = true) (h : t.step op = some s') :
    s'.Traced depth entered e := by
  cases ht with
  | entered hlt => exact .entered (Nat.lt_of_lt_of_le hlt (entered_le h))
  | failed hf => exact .failed (hf.step hhandling h)
  | unstarted hu hnext => exact hu.step hnext hentered h

/-- The text begins when the command is taken. -/
theorem unstarted_of_pop {r : EvalResult} (hpc : s.pc? = some .popCommand)
    (hc : s.commands.head? = some (.readVariable name)) (h : s.step (.ofOp (.handler r)) = some t) :
    t.Unstarted s.handlers.length ∧ t.nextException = s.nextException ∧ t.entered = s.entered := by
  obtain ⟨h₀, rest, hh, hpc₀⟩ := pc?_eq_some hpc
  obtain ⟨commands, hcommands⟩ := List.head?_eq_some_iff.mp hc
  have hruns : ¬ s.runs = true := by
    rw [runs_eq hh, hpc₀]
    exact nofun
  rw [ReadState.step, if_neg hruns, handlerStep, hh] at h
  simp only [hpc₀, hcommands, Option.map_some, Option.some.injEq] at h
  rw [handled_of_pop hpc rfl] at h
  subst h
  exact ⟨⟨(congrArg List.length hh).symm, name, s.texts, rfl, rfl⟩, rfl, rfl⟩

/-- **No command to read a variable is transparent**: the handler is entered again for the text, or
the text does not begin and leaves an exception. -/
theorem read_never_transparent (s s' : ReadState) (name : Str) (hs : ReadReached s)
    (h : s.Handles name s') : ¬ s.Transparent name s' := by
  have hmade : s.Made :=
    Reachable.invariant (fun _ hinit => hinit ▸ nofun) (fun _ _ _ hm _ h => hm.step h) hs
  obtain ⟨r, s1, hpop, hrun⟩ := h.run
  obtain ⟨hu, hnext, hentered⟩ := unstarted_of_pop h.popping h.command hpop
  have ht : s.entered ≤ s'.entered ∧ s'.Traced s.handlers.length s.entered s.nextException := by
    refine hrun.invariant (I := fun t =>
      s.entered ≤ t.entered ∧ t.Traced s.handlers.length s.entered s.nextException) ?_ ?_
    · rintro _ rfl
      exact ⟨Nat.le_of_eq hentered.symm, .unstarted hu (Nat.le_of_eq hnext.symm)⟩
    · intro t op t' ⟨hle, ht⟩ hhandling hstep
      exact ⟨Nat.le_trans hle (entered_le hstep), ht.step hle hhandling hstep⟩
  intro htransparent
  cases ht.2 with
  | entered hlt => exact absurd htransparent.entered (Nat.ne_of_gt hlt)
  | failed hf =>
    obtain ⟨e, he, hle⟩ := hf.pending
    exact Nat.not_lt.mpr hle (hmade e (htransparent.pending ▸ he))
  | unstarted hu =>
    obtain ⟨name', texts, hpc, -⟩ := hu.text
    cases hpc.symm.trans h.back

/-- The client reads `x`, which is 1. -/
theorem exists_handles : ∃ s s', ReadReached s ∧ s.Handles "x".toList s' ∧ s.entered = 1 ∧
    s'.entered = 3 := by
  have hexec : ((exec ReadState.step ReadState.initial ([.ofOp .connect,
      .ofOp (.line 0 "r x".toList)] ++ List.replicate 8 (.ofOp .server) ++
        [.line "b".toList 1, .ofOp (.handler .exception)])).any fun s =>
      s.pc? = some .popCommand ∧ s.commands.head? = some (.readVariable "x".toList) ∧
        s.handlers.length = 1 ∧ s.entered = 1 ∧
        (s.step (.ofOp (.handler .exception))).any fun s1 =>
          (execIf (fun t _ => t.handling 1) ReadState.step s1
            ([.textStep] ++ List.replicate 2 (.ofOp (.handler .exception)) ++
              [.textStep] ++ List.replicate 2 (.ofOp (.handler .exception)) ++
              List.replicate 7 .textStep ++ [.textEnds (.value "1".toList),
                .ofOp (.handler .exception)])).any fun s' =>
            s'.handlers.length = 1 ∧ s'.pc? = some .hasCommand ∧ s'.entered = 3) := by
    decide +kernel
  obtain ⟨s, hs, hcheck⟩ := (Option.any_eq_true _ _).mp hexec
  obtain ⟨hpc, hc, hlength, hentered, hnext⟩ := of_decide_eq_true hcheck
  obtain ⟨s1, hs1, hnext⟩ := (Option.any_eq_true _ _).mp hnext
  obtain ⟨s', hs', hcheck'⟩ := (Option.any_eq_true _ _).mp hnext
  obtain ⟨hlength', hpc', hentered'⟩ := of_decide_eq_true hcheck'
  refine ⟨s, s', .exec (fun _ _ => trivial) (.init rfl) hs, ⟨hpc, hc, ⟨_, s1, hs1, ?_⟩,
    hlength'.trans hlength.symm, hpc'⟩, hentered, hentered'⟩
  rw [hlength]
  exact Reachable.execIf (fun _ _ h => h) (.init rfl) hs'

theorem read_never_transparent_example : ∃ s s', ReadReached s ∧ s.Handles "x".toList s' ∧
    ¬ s.Transparent "x".toList s' := by
  obtain ⟨s, s', hs, h, -, -⟩ := exists_handles
  exact ⟨s, s', hs, h, read_never_transparent s s' _ hs h⟩

/-- The hook enters the handler for the two markers of the text. -/
theorem read_not_transparent : ¬ ∀ s s' name, ReadReached s → s.Handles name s' → s.Transparent name s' := by
  intro hall
  obtain ⟨s, s', hs, h, hentered, hentered'⟩ := exists_handles
  have heq := (hall s s' _ hs h).entered
  omega

end QuickJs.Debugger
