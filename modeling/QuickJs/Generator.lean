import QuickJs.AsyncFuncState
import QuickJs.Run
import Mathlib.Data.Int.Notation

/-!
# Generators

A generator is suspended or runs: its state, the stack pointer of its frame and the flag for an exception say so in three
places, which `js_generator_next` and `JS_CallInternal` change before and after the frame runs. A frame that runs may
call any generator, its own too, so that frames run one inside the other; each of them leaves by a yield, a return or an
exception. The collector may take a generator that does not run.
-/

namespace QuickJs.Generator

/-- `JSGeneratorStateEnum` -/
inductive GeneratorState
  | suspendedStart | suspendedYield | suspendedYieldStar | executing | completed
  deriving DecidableEq

/-- `GEN_MAGIC_x` -/
inductive GenMagic
  | magicNext | magicReturn | magicThrow
  deriving DecidableEq

def GenMagic.toInt : GenMagic → ℤ
  | magicNext => 0
  | magicReturn => 1
  | magicThrow => 2

inductive JSValue
  | undefined
  | int32 (n : ℤ)
  | other (v : ℕ)
  deriving DecidableEq

/-- What is thrown. -/
inductive Exn
  | typeError (msg : String)
  | value (v : JSValue)
  deriving DecidableEq

/-- `JSGeneratorData` -/
structure GeneratorData where
  state : GeneratorState
  funcState : FuncState JSValue

/-- What `js_generator_next` returns, with `*pdone`. -/
structure Ret where
  ret : Except Exn JSValue
  pdone : ℕ

/-- What comes of a call of `js_generator_next`: it returns, or the frame runs. -/
inductive Outcome
  | returns (r : Ret)
  | runs (e : Entry JSValue)

/-- How a frame leaves `JS_CallInternal`; the end of the function and `OP_initial_yield` give `undefined`. -/
inductive FuncRet
  | exception (e : Exn)
  | yield
  | yieldStar
  | undefined

/-! ## `js_generator_next` -/

/-- `free_generator_stack` -/
def freeGeneratorStack (s : GeneratorData) : Option GeneratorData :=
  if s.state = .completed then some s else (asyncFuncFree s.funcState).map fun f => ⟨.completed, f⟩

/-- The code at the label `done`. -/
def done (v : JSValue) : GenMagic → Ret
  | .magicNext => ⟨.ok .undefined, 1⟩
  | .magicReturn => ⟨.ok v, 1⟩
  | .magicThrow => ⟨.error (.value v), 1⟩

/-- An exception ends the execution. -/
def finalizeExecution (f : FuncState JSValue) (e : Exn) : Option (GeneratorData × Ret) :=
  (freeGeneratorStack ⟨.suspendedYield, f⟩).map fun s => (s, ⟨.error e, 1⟩)

/-- `async_func_resume`, which fails before the frame runs if the C stack would overflow or the interrupt handler says
so. -/
def resume (f : FuncState JSValue) (exception : Option JSValue) (refused : Option Exn) :
    Option (GeneratorData × Outcome) :=
  match refused with
  | some e => (finalizeExecution f e).map fun r => (r.1, .returns r.2)
  | none => (enter f exception).map fun r => (⟨.executing, r.1⟩, .runs r.2)

/-- `js_generator_next`, until the frame runs. -/
def jsGeneratorNext (s : GeneratorData) (magic : GenMagic) (v : JSValue) (refused : Option Exn) :
    Option (GeneratorData × Outcome) :=
  match s.state with
  | .suspendedStart =>
    if magic = .magicNext then resume { s.funcState with throwFlag := false } none refused
    else (freeGeneratorStack s).map fun s => (s, .returns (done v magic))
  | .suspendedYieldStar | .suspendedYield =>
    if magic = .magicThrow ∧ s.state = .suspendedYield then
      resume { s.funcState with throwFlag := true } (some v) refused
    else
      match s.funcState.curSp with
      | some (_ :: sp) =>
        -- the value takes the place of the last one, and the kind of the call goes on top of it
        resume { s.funcState with throwFlag := false, curSp := some (.int32 magic.toInt :: v :: sp) } none refused
      | _ => none
  | .completed => some (s, .returns (done v magic))
  | .executing => some (s, .returns ⟨.error (.typeError "cannot invoke a running generator"), 1⟩)

/-- `js_generator_next`, after the frame has left. -/
def afterResume (f : FuncState JSValue) (pc : ℕ) (sp : List JSValue) (ret : FuncRet) : Option (GeneratorData × Ret) :=
  match ret, sp with
  | .exception e, sp => finalizeExecution (f.exit pc sp) e
  | .yield, v :: sp => some (⟨.suspendedYield, f.exit pc (.undefined :: sp)⟩, ⟨.ok v, 0⟩)
  | .yieldStar, v :: sp => some (⟨.suspendedYieldStar, f.exit pc (.undefined :: sp)⟩, ⟨.ok v, 2⟩)
  | .undefined, v :: sp =>
    (freeGeneratorStack ⟨.suspendedYield, f.exit pc (.undefined :: sp)⟩).map fun s => (s, ⟨.ok v, 1⟩)
  | _, [] => none

/-! ## Generators that call each other -/

/-- The object of a generator is made, is there, or has been taken. -/
inductive Life
  | making | alive | gone
  deriving DecidableEq

structure Gen where
  data : GeneratorData
  life : Life

/-- A call that waits for a frame: `js_generator_function_call` or `js_generator_next`. -/
inductive Activation
  | create (g : ℕ)
  | next (g : ℕ)
  deriving DecidableEq

def Activation.gen : Activation → ℕ
  | create g | next g => g

/-- The generators, and the calls that wait with the last one first. -/
structure State where
  gens : List Gen
  calls : List Activation

def State.initial : State := ⟨[], []⟩

inductive Op
  /-- a generator function is called -/
  | create (pc : ℕ) (stack : List JSValue) (refused : Option Exn)
  /-- `next`, `return` or `throw` is called -/
  | call (g : ℕ) (magic : GenMagic) (v : JSValue) (refused : Option Exn)
  /-- the frame that runs leaves; the object may not be made -/
  | leave (pc : ℕ) (sp : List JSValue) (ret : FuncRet) (created : Bool)
  /-- the collector takes a generator -/
  | finalize (g : ℕ)

/-- What can be seen of a step. -/
inductive Output
  | runs (g : ℕ) (e : Entry JSValue)
  | returns (g : ℕ) (r : Ret)
  | created (g : ℕ) (ok : Bool)
  | finalized (g : ℕ)

def State.set (s : State) (g : ℕ) (x : Gen) (calls : List Activation) : State := ⟨s.gens.set g x, calls⟩

/-- `js_generator_function_call` ends without an object. -/
def State.dropNew (s : State) (g : ℕ) (d : GeneratorData) (calls : List Activation) : Option (State × Output) :=
  (freeGeneratorStack d).map fun d => (s.set g ⟨d, .gone⟩ calls, .created g false)

/-- `js_generator_function_call`, until the frame runs. -/
def State.create (s : State) (pc : ℕ) (stack : List JSValue) (refused : Option Exn) : Option (State × Output) :=
  let g := s.gens.length
  let d : GeneratorData := ⟨.suspendedStart, ⟨pc, some stack, false, 0⟩⟩
  let s : State := ⟨s.gens ++ [⟨d, .making⟩], s.calls⟩
  match refused with
  | some _ => s.dropNew g d s.calls
  | none => (enter d.funcState none).map fun r =>
    (s.set g ⟨{ d with funcState := r.1 }, .making⟩ (.create g :: s.calls), .runs g r.2)

/-- What a call makes of a generator. -/
def State.after (s : State) (g : ℕ) (life : Life) : GeneratorData × Outcome → State × Output
  | (d, .returns r) => (s.set g ⟨d, life⟩ s.calls, .returns g r)
  | (d, .runs e) => (s.set g ⟨d, life⟩ (.next g :: s.calls), .runs g e)

/-- A method of a generator is called. -/
def State.call (s : State) (g : ℕ) (magic : GenMagic) (v : JSValue) (refused : Option Exn) : Option (State × Output) :=
  match s.gens[g]? with
  | none => some (s, .returns g ⟨.error (.typeError "not a generator"), 1⟩)
  | some x => (jsGeneratorNext x.data magic v refused).map (s.after g x.life)

/-- The frame that runs leaves. -/
def State.leave (s : State) (pc : ℕ) (sp : List JSValue) (ret : FuncRet) (created : Bool) : Option (State × Output) :=
  match s.calls with
  | [] => none
  | .create g :: calls => s.gens[g]?.bind fun x =>
    let d := { x.data with funcState := x.data.funcState.exit pc sp }
    match ret, created with
    | .exception _, _ | _, false => s.dropNew g d calls
    | _, true => some (s.set g ⟨d, .alive⟩ calls, .created g true)
  | .next g :: calls => s.gens[g]?.bind fun x => (afterResume x.data.funcState pc sp ret).map fun r =>
    (s.set g ⟨r.1, x.life⟩ calls, .returns g r.2)

/-- `js_generator_finalizer` -/
def State.finalize (s : State) (g : ℕ) : Option (State × Output) :=
  s.gens[g]?.bind fun x => (freeGeneratorStack x.data).map fun d => (s.set g ⟨d, .gone⟩ s.calls, .finalized g)

def State.step (s : State) : Op → Option (State × Output)
  | .create pc stack refused => s.create pc stack refused
  | .call g magic v refused => s.call g magic v refused
  | .leave pc sp ret created => s.leave pc sp ret created
  | .finalize g => s.finalize g

def State.isAlive (s : State) (g : ℕ) : Prop := ∃ x, s.gens[g]? = some x ∧ x.life = .alive

/-- What can happen: a script has no reference but to an object that is there; there is a value on the stack of a frame
that yields or returns; the collector takes no generator that runs. -/
def Op.Allowed (s : State) : Op → Prop
  | .create .. => True
  | .call g .. => s.gens[g]? = none ∨ s.isAlive g
  | .leave _ sp ret _ =>
    match s.calls, ret with
    | [], _ => False
    | .create _ :: _, _ | _ :: _, .exception _ => True
    | .next _ :: _, _ => sp ≠ []
  | .finalize g => s.isAlive g ∧ ∀ a ∈ s.calls, a.gen ≠ g

/-- The states of the runs. -/
def Reachable : State → Prop :=
  Run.Reachable (· = .initial) (fun s op => (s.step op).map Prod.fst) fun s op => op.Allowed s

/-! ## The state machine of the language -/

/-- Where a generator stands: before its first statement, at a `yield` or a `yield*` whose value has been taken, running
or completed. -/
inductive Phase
  | starting
  | start (pc : ℕ) (stack : List JSValue)
  | suspended (star : Bool) (pc : ℕ) (rest : List JSValue)
  | executing
  | completed
  | gone

/-- What a completed generator answers. -/
def completion (v : JSValue) : GenMagic → Except Exn JSValue
  | .magicNext => .ok .undefined
  | .magicReturn => .ok v
  | .magicThrow => .error (.value v)

/-- How the value of a call gets to the frame: with the kind of the call behind it, or thrown at a `yield`. -/
def deliver (star : Bool) (magic : GenMagic) (v : JSValue) (pc : ℕ) (rest : List JSValue) : Entry JSValue :=
  if magic = .magicThrow ∧ star = false then ⟨pc, .undefined :: rest, some v⟩
  else ⟨pc, .int32 magic.toInt :: v :: rest, none⟩

structure Machine where
  phases : List Phase
  calls : List Activation

def Machine.set (m : Machine) (g : ℕ) (p : Phase) (calls : List Activation) : Machine := ⟨m.phases.set g p, calls⟩

/-- The frame runs, unless it is refused; then the generator is completed. -/
def Machine.begin (m : Machine) (g : ℕ) (e : Entry JSValue) : Option Exn → Machine × Output
  | some exn => (m.set g .completed m.calls, .returns g ⟨.error exn, 1⟩)
  | none => (m.set g .executing (.next g :: m.calls), .runs g e)

def Machine.call (m : Machine) (g : ℕ) (magic : GenMagic) (v : JSValue) (refused : Option Exn) :
    Option (Machine × Output) :=
  match m.phases[g]? with
  | none => some (m, .returns g ⟨.error (.typeError "not a generator"), 1⟩)
  | some (.start pc stack) =>
    if magic = .magicNext then some (m.begin g ⟨pc, stack, none⟩ refused)
    else some (m.set g .completed m.calls, .returns g ⟨completion v magic, 1⟩)
  | some (.suspended star pc rest) => some (m.begin g (deliver star magic v pc rest) refused)
  | some .executing => some (m, .returns g ⟨.error (.typeError "cannot invoke a running generator"), 1⟩)
  | some .completed => some (m, .returns g ⟨completion v magic, 1⟩)
  | some .starting | some .gone => none

def Machine.leave (m : Machine) (pc : ℕ) (sp : List JSValue) (ret : FuncRet) (created : Bool) :
    Option (Machine × Output) :=
  match m.calls with
  | [] => none
  | .create g :: calls =>
    match ret, created with
    | .exception _, _ | _, false => some (m.set g .gone calls, .created g false)
    | _, true => some (m.set g (.start pc sp) calls, .created g true)
  | .next g :: calls =>
    match ret, sp with
    | .exception e, _ => some (m.set g .completed calls, .returns g ⟨.error e, 1⟩)
    | .yield, v :: rest => some (m.set g (.suspended false pc rest) calls, .returns g ⟨.ok v, 0⟩)
    | .yieldStar, v :: rest => some (m.set g (.suspended true pc rest) calls, .returns g ⟨.ok v, 2⟩)
    | .undefined, v :: _ => some (m.set g .completed calls, .returns g ⟨.ok v, 1⟩)
    | _, [] => none

def Machine.step (m : Machine) : Op → Option (Machine × Output)
  | .create pc stack refused =>
    let g := m.phases.length
    match refused with
    | some _ => some (⟨m.phases ++ [.gone], m.calls⟩, .created g false)
    | none => some (⟨m.phases ++ [.starting], .create g :: m.calls⟩, .runs g ⟨pc, stack, none⟩)
  | .call g magic v refused => m.call g magic v refused
  | .leave pc sp ret created => m.leave pc sp ret created
  | .finalize g => some (m.set g .gone m.calls, .finalized g)

end QuickJs.Generator
