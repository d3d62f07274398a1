import QuickJs.Run
import Mathlib.Algebra.Order.Ring.Int

/-!
# The debugger

A server thread reads lines from one client after the other and turns them into commands; the
thread of the program takes the commands whenever it comes to a new line of the program, and
stops there if the line has a breakpoint. They share a queue with a lock, a semaphore with a
lock of its own, and the pointer to the tunnel of the present client.

Each step of the machine is what one thread does between two points where the other one may
come in between. Evaluating a variable runs the program, so that there may be a whole stack
of stopped handlers.
-/

namespace QuickJs.Debugger

/-- A string of bytes. -/
abbrev Str : Type := List Char

instance : LawfulBEq (Str × BitVec 32) := inferInstance

/-- `Command`; `empty` is the `monostate`. -/
inductive Command
  | empty
  | breakLine (line : BitVec 32) (fileName : Str)
  | readVariable (name : Str)
  | continue
  deriving DecidableEq

/-- `Message`, without the `monostate`, which nobody sends: a `Variable` or a `BreakHit`. -/
inductive Message
  | var (name value : Str)
  | breakHit (filename : Str) (line : BitVec 32)
  deriving DecidableEq

/-- `SendMessageImpl`: the text that is written. -/
def Message.text : Message → Str
  | var name value => "variable ".toList ++ name ++ " = ".toList ++ value ++ "\n".toList
  | breakHit filename line =>
    "hit ".toList ++ filename ++ ":".toList ++ (toString line.toNat).toList ++ "\n".toList

/-! ## The lines of a client -/

/-- `readWord`. -/
def readWord (line : Str) : Str × Str := line.span fun c => c ≠ ' ' && c ≠ '\n'

/-- `eatSpace`. -/
def eatSpace (line : Str) : Str := line.dropWhile (· = ' ')

/-- The digits at the beginning, and the number they make. -/
def digits : Str → ℕ → Option ℕ → Option ℕ
  | c :: cs, n, found =>
    if c.isDigit then digits cs (10 * n + (c.toNat - '0'.toNat)) (some (10 * n + (c.toNat - '0'.toNat)))
    else found
  | [], _, found => found

/-- `std::stoi`: nothing where it throws. -/
def stoi (s : Str) : Option ℤ :=
  let s := s.dropWhile fun c => c = ' ' || 9 ≤ c.toNat && c.toNat ≤ 13
  let n : Option ℤ := match s with
    | '-' :: s => (digits s 0 none).map fun n => -n
    | '+' :: s => (digits s 0 none).map fun n => n
    | s => (digits s 0 none).map fun n => n
  n.filter fun n => -2 ^ 31 ≤ n && n < 2 ^ 31

/-- What a line of the client leads to. -/
inductive Parsed
  | push (c : Command)
  | stop
  | nothing
  deriving DecidableEq

/-- `parseBreak`. -/
def parseBreak (line : Str) : Parsed :=
  let (point, _) := readWord line
  match point.span (· ≠ ':') with
  | (_, []) => .nothing
  | (fileName, _ :: lineStr) =>
    let lineNumber := (stoi lineStr).getD (-1)
    if lineNumber = -1 then .nothing else .push (.breakLine (.ofInt 32 lineNumber) fileName)

/-- `ParseCommand`. -/
def parseCommand (line : Str) : Parsed :=
  let (word, line) := readWord line
  if word = "break".toList ∨ word = "b".toList then parseBreak (eatSpace line)
  else if word = "stop".toList ∨ word = "s".toList then .stop
  else if word = "read".toList ∨ word = "r".toList then
    .push (.readVariable (readWord (eatSpace line)).1)
  else if word = "continue".toList ∨ word = "c".toList then .push .continue
  else .nothing

example : parseCommand "b main.js:12".toList = .push (.breakLine 12 "main.js".toList) := by
  decide +kernel

/-! ## The state -/

/-- The number of a connection, in the order in which the clients connect. -/
abbrev Conn : Type := ℕ

/-- A client: the lines it has sent and that are not yet read, and whether it is still there. -/
structure Client where
  inbox : List Str
  isOpen : Bool

/-- Where the server thread is. -/
inductive ServerPc
  | start
  /-- `while (IsRunning())` -/
  | test
  | accept
  /-- in `HandleClient`, before there is a tunnel -/
  | openTunnel (c : Conn)
  | readLine (c : Conn)
  | parseCommand (c : Conn) (line : Str)
  /-- in `PushCommand`, before the signal -/
  | signal (c : Conn)
  /-- `if (m_ClientStop)` -/
  | check (c : Conn)
  | reset (c : Conn)
  /-- `HandleClient` has returned -/
  | closeSocket (c : Conn)
  | done
  deriving DecidableEq

/-- Where a call of `debug_handler` is. -/
inductive HandlerPc
  /-- before the message that a breakpoint is hit -/
  | sendHit
  /-- `while (server->HasCommand())` -/
  | hasCommand
  | popCommand
  /-- the program evaluates a variable -/
  | eval (name : Str)
  | sendVariable (name value : Str)
  /-- `while (block && server->IsRunning())` -/
  | test
  | wait
  deriving DecidableEq

/-- A call of `debug_handler`. `hit` is the number of commands that had been pushed when it
reported a breakpoint. -/
structure Handler where
  filename : Str
  line : BitVec 32
  block : Bool
  pc : HandlerPc
  hit : Option ℕ
  deriving DecidableEq

/-- Both threads, the clients, and what has happened: the commands pushed and popped and the
messages written, with the tunnel they were written to. -/
structure State where
  clients : List Client
  accepted : ℕ
  server : ServerPc
  serverStop : Bool
  clientStop : Bool
  commands : List Command
  /-- the semaphore -/
  count : ℕ
  /-- calls of `Shutdown` that have not yet signalled -/
  shutdowns : ℕ
  currentTunnel : Option Conn
  breakPoints : List (Str × BitVec 32)
  /-- the handlers that have not returned, the innermost one first -/
  handlers : List Handler
  pushed : List Command
  popped : List Command
  sent : List (Option Conn × Str)

/-- The server thread has been started, and nothing has happened. -/
def State.initial : State where
  clients := []
  accepted := 0
  server := .start
  serverStop := false
  clientStop := false
  commands := []
  count := 0
  shutdowns := 0
  currentTunnel := none
  breakPoints := []
  handlers := []
  pushed := []
  popped := []
  sent := []

/-! ## The server thread -/

/-- The first half of `PushCommand`. -/
def State.push (s : State) (c : Command) : State :=
  { s with commands := s.commands ++ [c], pushed := s.pushed ++ [c] }

/-- `Semaphore::Signal`. -/
def State.signal (s : State) : State := { s with count := s.count + 1 }

/-- `Run`, `HandleClient`, `ParseCommand` and `PushCommand`: the next step of the server thread,
if it is not blocked. -/
def serverStep (s : State) : Option State :=
  match s.server with
  | .start => some { s with serverStop := false, server := .test }
  | .test =>
    if s.serverStop then some { s with server := .done }
    else some { s with clientStop := false, server := .accept }
  | .accept =>
    if s.accepted < s.clients.length then
      some { s with accepted := s.accepted + 1, server := .openTunnel s.accepted }
    else none
  | .openTunnel c => some { s with currentTunnel := some c, server := .readLine c }
  | .readLine c =>
    match s.clients[c]? with
    | none => none
    | some client =>
      match client.inbox with
      | line :: inbox => some { s with
          clients := s.clients.set c { client with inbox := inbox }
          server := .parseCommand c line }
      | [] => if client.isOpen then none else some { s with server := .closeSocket c }
  | .parseCommand c line =>
    match parseCommand line with
    | .push command => some { s.push command with server := .signal c }
    | .stop => some { s with clientStop := true, server := .check c }
    | .nothing => some { s with server := .check c }
  | .signal c => some { s.signal with server := .check c }
  | .check c => some { s with server := if s.clientStop then .reset c else .readLine c }
  | .reset c => some { s with currentTunnel := none, server := .closeSocket c }
  | .closeSocket _ => some { s with server := .test }
  | .done => none

/-! ## The thread of the program -/

/-- What became of the evaluation of a variable. -/
inductive EvalResult
  | exception
  | notAString
  | value (v : Str)
  deriving DecidableEq

/-- The value that is sent. -/
def EvalResult.text : EvalResult → Str
  | exception => "undefined".toList
  | notAString => "error converting to string".toList
  | value v => v

/-- `SendMessage`, which does not look whether the tunnel can be written to. -/
def State.send (s : State) (m : Message) : State :=
  { s with sent := s.sent ++ [(s.currentTunnel, m.text)] }

/-- A new line of the program: the beginning of `debug_handler`. -/
def State.enter (s : State) (filename : Str) (line : BitVec 32) : State :=
  let block := (filename, line) ∈ s.breakPoints
  { s with handlers :=
      ⟨filename, line, block, if block then .sendHit else .hasCommand, none⟩ :: s.handlers }

/-- The program runs: no handler has been called, or a handler evaluates a variable. -/
def State.runs (s : State) : Bool :=
  match s.handlers with
  | [] => true
  | h :: _ => match h.pc with
    | .eval _ => true
    | _ => false

/-- `handleCommand`, in the handler `h`. -/
def State.handleCommand (s : State) (h : Handler) (rest : List Handler) : Command → State
  | .breakLine line fileName => { s with
      breakPoints := s.breakPoints ++ [(fileName, line)]
      handlers := { h with pc := .hasCommand } :: rest }
  | .continue => { s with handlers := { h with block := false, pc := .hasCommand } :: rest }
  | .readVariable name => { s with handlers := { h with pc := .eval name } :: rest }
  | .empty => { s with handlers := { h with pc := .hasCommand } :: rest }

/-- `debug_handler`: the next step of the innermost handler, if it is not blocked. `r` is what
comes of an evaluation that ends. -/
def handlerStep (s : State) (r : EvalResult) : Option State :=
  match s.handlers with
  | [] => none
  | h :: rest =>
    match h.pc with
    | .sendHit => some { s.send (.breakHit h.filename h.line) with
        handlers := { h with pc := .hasCommand, hit := some s.pushed.length } :: rest }
    | .hasCommand => some { s with
        handlers := { h with pc := if s.commands = [] then .test else .popCommand } :: rest }
    | .popCommand =>
      match s.commands with
      | [] => some (s.handleCommand h rest .empty)
      | c :: commands => some ({ s with
          commands := commands, popped := s.popped ++ [c] }.handleCommand h rest c)
    | .eval name => some { s with handlers := { h with pc := .sendVariable name r.text } :: rest }
    | .sendVariable name value => some { s.send (.var name value) with
        handlers := { h with pc := .hasCommand } :: rest }
    | .test =>
      if h.block && !s.serverStop then
        some { s with handlers := { h with pc := .wait } :: rest }
      else some { s with handlers := rest }
    | .wait =>
      if 0 < s.count then
        some { s with count := s.count - 1, handlers := { h with pc := .hasCommand } :: rest }
      else none

/-! ## Runs -/

inductive Op
  /-- a client connects -/
  | connect
  /-- a client sends a line -/
  | line (c : Conn) (line : Str)
  /-- a client goes away -/
  | disconnect (c : Conn)
  /-- reading from the client fails -/
  | readFails
  | server
  /-- the program comes to a new line -/
  | enter (filename : Str) (line : BitVec 32)
  | handler (r : EvalResult)
  /-- the first half of `Shutdown` -/
  | shutdown
  /-- the second half -/
  | shutdownSignal
  deriving DecidableEq

/-- A client that is there changes. -/
def State.updateClient (s : State) (c : Conn) (f : Client → Client) : Option State :=
  match s.clients[c]? with
  | some client => if client.isOpen then some { s with clients := s.clients.set c (f client) } else none
  | none => none

/-- One step, if it can be made. -/
def State.step (s : State) : Op → Option State
  | .connect => some { s with clients := s.clients ++ [⟨[], true⟩] }
  | .line c line => s.updateClient c fun client => { client with inbox := client.inbox ++ [line] }
  | .disconnect c => s.updateClient c fun client => { client with isOpen := false }
  | .readFails =>
    match s.server with
    | .readLine c => some { s with server := .closeSocket c }
    | _ => none
  | .server => serverStep s
  | .enter filename line => if s.runs then some (s.enter filename line) else none
  | .handler r => handlerStep s r
  | .shutdown => some { s with serverStop := true, shutdowns := s.shutdowns + 1 }
  | .shutdownSignal =>
    if 0 < s.shutdowns then some { s.signal with shutdowns := s.shutdowns - 1 } else none

end QuickJs.Debugger
