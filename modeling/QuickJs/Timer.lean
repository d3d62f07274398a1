import QuickJs.RefGraph
import QuickJs.Run

/-!
# Timers

`os.setTimeout` makes a timer in C memory, which belongs to the list of the event loop and to a
script object. The collector marks the callback through the script object alone, and knows nothing
of the list. The heap here has what decides how long a callback lives: functions and timer objects
with what they refer to, the references that scripts and C code hold, and the callbacks of timers.
-/

namespace QuickJs.Timer

open RefGraph

/-! ## The state -/

/-- Objects are numbered, and so are timers; a number is not used again. -/
inductive ObjectKind
  | function
  /-- an object of the class `OSTimer`, with the timer -/
  | osTimer (t : ℕ)
  deriving DecidableEq

structure JSObject where
  kind : ObjectKind
  /-- the objects that it refers to -/
  children : List ℕ
  deriving DecidableEq

/-- `JSOSTimer`, without the link: a timer is linked if it is in the list. -/
structure JSOSTimer where
  hasObject : Bool
  timeout : ℤ
  /-- none is `JS_UNDEFINED` -/
  func : Option ℕ
  deriving DecidableEq

/-- What has happened to a timer. -/
inductive Event
  /-- it has been armed, with the time at which its delay has elapsed -/
  | armed (t : ℕ) (due : ℤ)
  | fired (t : ℕ) (time : ℤ)
  /-- it has been cleared while it was in the list -/
  | cleared (t : ℕ)
  | freed (t : ℕ)
  deriving DecidableEq

/-- The heap and the event loop; none is an object or a timer that has been freed. -/
structure State where
  objects : List (Option JSObject)
  timers : List (Option JSOSTimer)
  osTimers : List ℕ
  /-- the references of scripts and of C code -/
  roots : List ℕ
  /-- the callback that `js_os_poll` calls -/
  calling : Option ℕ
  now : ℤ
  /-- `js_std_free_handlers` has been called -/
  exited : Bool
  /-- what has happened, the latest first -/
  log : List Event
  deriving DecidableEq

/-- A program with one function. -/
def State.initial : State := ⟨[some ⟨.function, []⟩], [], [], [0], none, 0, false, []⟩

def State.object (s : State) (o : ℕ) : Option JSObject := s.objects[o]?.join

def State.timer (s : State) (t : ℕ) : Option JSOSTimer := s.timers[t]?.join

def State.setTimer (s : State) (t : ℕ) (th : JSOSTimer) : State :=
  { s with timers := s.timers.set t (some th) }

/-! ## Memory -/

/-- `free_timer`. -/
def State.freeTimer (s : State) (t : ℕ) : State :=
  { s with timers := s.timers.set t none, log := .freed t :: s.log }

/-- `unlink_timer`. -/
def State.unlinkTimer (s : State) (t : ℕ) : State := { s with osTimers := s.osTimers.erase t }

/-- `js_os_timer_finalizer`. -/
def State.timerFinalizer (s : State) (t : ℕ) : State :=
  match s.timer t with
  | none => s
  | some th =>
    let s := s.setTimer t { th with hasObject := false }
    if t ∈ s.osTimers then s else s.freeTimer t

/-- An object is finalized and freed. -/
def State.freeObject (s : State) (o : ℕ) : State :=
  match s.object o with
  | none => s
  | some ob =>
    let s := { s with objects := s.objects.set o none }
    match ob.kind with
    | .function => s
    | .osTimer t => s.timerFinalizer t

/-- Some reference to the object is counted. -/
def State.referenced (s : State) (o : ℕ) : Bool :=
  o ∈ s.roots || s.calling = some o || s.objects.any (·.any (o ∈ ·.children)) ||
    s.timers.any (·.any (·.func = some o))

/-- What the collector marks from an object; `js_os_timer_mark` for a timer object. -/
def State.edges (s : State) (o : ℕ) : List ℕ :=
  match s.object o with
  | none => []
  | some ob =>
    let refs := match ob.kind with
      | .function => ob.children
      | .osTimer t => ob.children ++ ((s.timer t).bind JSOSTimer.func).toList
    refs.filter (· < s.objects.length)

/-- The references that no object of the heap accounts for. -/
def State.external (s : State) : List ℕ :=
  (s.roots ++ s.calling.toList ++
    s.timers.filterMap fun th => th.bind fun th => if th.hasObject then none else th.func).filter
      (· < s.objects.length)

/-- The objects that `gc_scan` finds alive. -/
def State.marked (s : State) : Finset ℕ :=
  RefGraph.marked s.edges s.objects.length s.external.toFinset

/-- `JS_RunGC`. -/
def State.runGC (s : State) : State :=
  ((List.range s.objects.length).filter (· ∉ s.marked)).foldl State.freeObject s

/-! ## The event loop -/

/-- A 64-bit integer that has run over. -/
def wrap (x : ℤ) : ℤ := Int.bmod x (2 ^ 64)

/-- `delay = th->timeout - cur_time` is not positive. -/
def State.expired (s : State) (t : ℕ) : Bool :=
  (s.timer t).any fun th => wrap (th.timeout - s.now) ≤ 0

/-- `js_os_setTimeout`, once its arguments have been converted. -/
def State.setTimeout (s : State) (func : ℕ) (delay : ℤ) : State :=
  let t := s.timers.length
  { s with
    objects := s.objects ++ [some ⟨.osTimer t, []⟩]
    timers := s.timers ++ [some ⟨true, wrap (s.now + delay), some func⟩]
    osTimers := s.osTimers ++ [t]
    roots := s.objects.length :: s.roots
    log := .armed t (s.now + delay) :: s.log }

/-- `js_os_clearTimeout`. -/
def State.clearTimeout (s : State) (t : ℕ) : State :=
  if t ∈ s.osTimers then { s.unlinkTimer t with log := .cleared t :: s.log } else s

/-- A timer fires: `js_os_poll` up to the call of the callback. -/
def State.fire (s : State) (t : ℕ) (th : JSOSTimer) : State :=
  let s := ({ s with calling := th.func, log := .fired t s.now :: s.log }.setTimer t
    { th with func := none }).unlinkTimer t
  if th.hasObject then s else s.freeTimer t

/-- The timers in `js_os_poll`. -/
def State.poll (s : State) : State :=
  match s.osTimers.find? s.expired with
  | none => s
  | some t => match s.timer t with
    | none => s
    | some th => s.fire t th

/-- A timer is released when the event loop ends. -/
def State.releaseTimer (s : State) (t : ℕ) : State :=
  let s := s.unlinkTimer t
  if (s.timer t).any (!·.hasObject) then s.freeTimer t else s

/-- `js_std_free_handlers`, for the timers. -/
def State.freeHandlers (s : State) : State :=
  s.osTimers.foldl State.releaseTimer { s with exited := true }

/-! ## Runs -/

inductive Op
  /-- a new function, which captures some objects -/
  | newFunction (children : List ℕ)
  /-- a script gets hold of what an object refers to -/
  | getChild (p o : ℕ)
  /-- an object gets a reference -/
  | setChild (p o : ℕ)
  /-- an object loses a reference -/
  | dropChild (p o : ℕ)
  /-- a script drops a reference -/
  | drop (o : ℕ)
  /-- an object without references is freed -/
  | free (o : ℕ)
  | runGC
  /-- some milliseconds elapse -/
  | elapse (d : ℕ)
  | setTimeout (func : ℕ) (delay : ℤ)
  | clearTimeout (o : ℕ)
  | poll
  /-- the callback returns -/
  | pollReturns
  | freeHandlers
  deriving DecidableEq

/-- An object is replaced. -/
def State.modifyChildren (s : State) (p : ℕ) (f : List ℕ → List ℕ) : Option State :=
  (s.object p).map fun ob =>
    { s with objects := s.objects.set p (some { ob with children := f ob.children }) }

/-- One step, if it can be made; scripts only use what they hold. -/
def State.step (s : State) : Op → Option State
  | .newFunction children =>
    if children ⊆ s.roots then
      some { s with
        objects := s.objects ++ [some ⟨.function, children⟩]
        roots := s.objects.length :: s.roots }
    else none
  | .getChild p o =>
    if p ∈ s.roots ∧ (s.object p).any (o ∈ ·.children) then some { s with roots := o :: s.roots }
    else none
  | .setChild p o =>
    if p ∈ s.roots ∧ o ∈ s.roots then s.modifyChildren p (o :: ·) else none
  | .dropChild p o => if p ∈ s.roots then s.modifyChildren p (·.erase o) else none
  | .drop o => if o ∈ s.roots then some { s with roots := s.roots.erase o } else none
  | .free o => if s.referenced o then none else some (s.freeObject o)
  | .runGC => some s.runGC
  | .elapse d => if s.now + d < 2 ^ 63 then some { s with now := s.now + d } else none
  | .setTimeout func delay =>
    if s.exited = false ∧ (func ∈ s.roots ∧ (s.object func).any (·.kind = .function)) ∧
        -2 ^ 63 ≤ delay ∧ delay < 2 ^ 63 then
      some (s.setTimeout func delay)
    else none
  | .clearTimeout o =>
    if s.exited = false ∧ o ∈ s.roots then
      match (s.object o).map JSObject.kind with
      | some (.osTimer t) => some (s.clearTimeout t)
      | _ => some s
    else none
  | .poll => if s.exited = false ∧ s.calling = none then some s.poll else none
  | .pollReturns => if s.calling.isSome then some { s with calling := none } else none
  | .freeHandlers => if s.exited = false ∧ s.calling = none then some s.freeHandlers else none

end QuickJs.Timer
