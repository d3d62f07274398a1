import QuickJs.Run
import Mathlib.Data.Nat.Notation

/-!
# Promises

A promise is settled through pairs of resolving functions, which share a flag. Its
reactions wait in two lists until it is settled; then jobs are enqueued for one of the
lists. A native function that calls into the program waits in a frame until the program
returns to it, and the program may do anything in between. Allocation succeeds and memory
is not reclaimed, so an address is an index of a list.

The registrations and the calls of `JS_EnqueueJob` are recorded.
-/

namespace QuickJs.Promise

/-- A JavaScript value. -/
inductive JSValue
  | undefined
  /-- any other primitive -/
  | prim (n : ℕ)
  | object (p : ℕ)
  deriving DecidableEq, Repr

/-- `JSPromiseStateEnum`. -/
inductive JSPromiseStateEnum
  | pending
  | fulfilled
  | rejected
  deriving DecidableEq, Repr

/-- The state of a settled promise, `JS_PROMISE_FULFILLED + is_reject`. -/
def JSPromiseStateEnum.settled (isReject : Bool) : JSPromiseStateEnum :=
  if isReject then rejected else fulfilled

/-- Two functions or values, one for each way to settle; the index is `is_reject`. -/
structure Pair (α : Type) where
  fulfill : α
  reject : α
  deriving DecidableEq, Repr

/-- The member of the index `is_reject`. -/
def Pair.get {α : Type} (r : Pair α) (isReject : Bool) : α := if isReject then r.reject else r.fulfill

/-- `JSPromiseReactionData`. -/
structure JSPromiseReactionData where
  resolvingFuncs : Pair JSValue
  handler : JSValue
  deriving DecidableEq, Repr

/-- `JSPromiseData`. -/
structure JSPromiseData where
  promiseState : JSPromiseStateEnum
  promiseReactions : Pair (List JSPromiseReactionData)
  isHandled : Bool
  promiseResult : JSValue
  deriving DecidableEq, Repr

/-- An object. -/
inductive JSObject
  | promise (s : JSPromiseData)
  /-- `JSPromiseFunctionData`: `presolved` is the address of the shared flag -/
  | resolvingFunction (isReject : Bool) (promise : ℕ) (presolved : ℕ)
  /-- any other function -/
  | function
  /-- any other object -/
  | plain
  deriving DecidableEq, Repr

/-- A `JSJobEntry`. -/
inductive Job
  /-- `promise_reaction_job` -/
  | reaction (rd : JSPromiseReactionData) (isReject : Bool) (arg : JSValue)
  /-- `js_promise_resolve_thenable_job` -/
  | resolveThenable (promise : ℕ) (thenable then_ : JSValue)
  deriving DecidableEq, Repr

/-- How the program returns to a native function. -/
inductive Completion
  | value (v : JSValue)
  | exception (error : JSValue)
  deriving DecidableEq, Repr

/-- A native function that waits for the program. -/
inductive Frame
  /-- `js_promise_constructor` has called the executor -/
  | executor (reject : ℕ)
  /-- `js_promise_resolve_thenable_job` has called `then` -/
  | thenable (reject : ℕ)
  /-- `promise_reaction_job` has called the handler -/
  | handler (resolvingFuncs : Pair JSValue)
  /-- `promise_reaction_job` has called a function of the capability -/
  | call
  /-- `js_promise_resolve_function_call` gets the property `then` -/
  | getThen (promise : ℕ) (resolution : JSValue)
  /-- `fulfill_or_reject_promise` has called the rejection tracker -/
  | rejected (promise : ℕ) (value : JSValue)
  /-- `perform_promise_then` has called the rejection tracker -/
  | handled (promise : ℕ) (rds : Pair JSPromiseReactionData)
  deriving DecidableEq, Repr

/-- The part of `JSRuntime` about promises, with its history. -/
structure JSRuntime where
  objects : List JSObject
  /-- the flags `already_resolved` -/
  alreadyResolved : List Bool
  jobList : List Job
  /-- whether there is a rejection tracker -/
  tracker : Bool
  frames : List Frame
  /-- the calls of `JS_EnqueueJob`, for a reaction with its promise -/
  enqueued : List (Option ℕ × Job)
  /-- the number of jobs taken from the list -/
  started : ℕ
  /-- the registrations of `perform_promise_then` -/
  registered : List (ℕ × Pair JSPromiseReactionData)
  deriving DecidableEq, Repr

namespace JSRuntime

variable (s : JSRuntime)

/-- `JS_GetOpaque` with `JS_CLASS_PROMISE`. -/
def promise (p : ℕ) : Option JSPromiseData :=
  match s.objects[p]? with
  | some (.promise d) => some d
  | _ => none

def setPromise (p : ℕ) (d : JSPromiseData) : JSRuntime :=
  { s with objects := s.objects.set p (.promise d) }

/-- `JS_IsFunction`. -/
def isFunction : JSValue → Bool
  | .object p =>
    match s.objects[p]? with
    | some .function | some (.resolvingFunction ..) => true
    | _ => false
  | _ => false

def push (f : Frame) : JSRuntime := { s with frames := f :: s.frames }

/-- Make an object; its address is the old number of objects. -/
def newObject (o : JSObject) : JSRuntime := { s with objects := s.objects ++ [o] }

/-- `JS_EnqueueJob`, for the reaction of a promise or for a thenable. -/
def jsEnqueueJob (p : Option ℕ) (job : Job) : JSRuntime :=
  { s with jobList := s.jobList ++ [job], enqueued := s.enqueued ++ [(p, job)] }

/-- The loops of `fulfill_or_reject_promise`: enqueue the reactions of one list and drop
those of the other. -/
def drain (p : ℕ) (value : JSValue) (isReject : Bool) : JSRuntime :=
  match s.promise p with
  | none => s
  | some d =>
    ((d.promiseReactions.get isReject).foldl
      (fun s rd => s.jsEnqueueJob (some p) (.reaction rd isReject value)) s).setPromise p
        { d with promiseReactions := ⟨[], []⟩ }

/-- `fulfill_or_reject_promise`. -/
def fulfillOrRejectPromise (p : ℕ) (value : JSValue) (isReject : Bool) : JSRuntime :=
  match s.promise p with
  | none => s
  | some d =>
    if d.promiseState = .pending then
      let s := s.setPromise p { d with promiseResult := value, promiseState := .settled isReject }
      if isReject && !d.isHandled && s.tracker then s.push (.rejected p value)
      else s.drain p value isReject
    else s

/-- `reject_promise`. -/
def rejectPromise (p : ℕ) (value : JSValue) : JSRuntime := s.fulfillOrRejectPromise p value true

/-- `js_create_resolving_functions`: the functions are the next two objects. -/
def jsCreateResolvingFunctions (p : ℕ) : JSRuntime :=
  { s with
    objects := s.objects ++ [.resolvingFunction false p s.alreadyResolved.length,
      .resolvingFunction true p s.alreadyResolved.length]
    alreadyResolved := s.alreadyResolved ++ [false] }

/-- `js_promise_resolve_function_call`. -/
def jsPromiseResolveFunctionCall (isReject : Bool) (p presolved : ℕ) (arg : Option JSValue) :
    JSRuntime :=
  if s.alreadyResolved[presolved]?.getD true then s
  else
    let s := { s with alreadyResolved := s.alreadyResolved.set presolved true }
    match isReject, arg.getD .undefined with
    | false, .object q =>
      if q = p then
        -- the error of the self resolution is a new object
        (s.newObject .plain).rejectPromise p (.object s.objects.length)
      else s.push (.getThen p (.object q))
    | _, resolution => s.fulfillOrRejectPromise p resolution isReject

/-- The rest of `js_promise_resolve_function_call` once `then` is known. -/
def resolveWithThen (p : ℕ) (resolution : JSValue) : Completion → JSRuntime
  | .exception error => s.rejectPromise p error
  | .value v =>
    if s.isFunction v then s.jsEnqueueJob none (.resolveThenable p resolution v)
    else s.fulfillOrRejectPromise p resolution false

/-- `JS_Call`. A resolving function runs at once; what any other function does are the
operations that follow. -/
def jsCall (f : JSValue) (arg : Option JSValue) : JSRuntime :=
  match f with
  | .object p =>
    match s.objects[p]? with
    | some (.resolvingFunction isReject q presolved) =>
      s.jsPromiseResolveFunctionCall isReject q presolved arg
    | _ => s
  | _ => s

/-- The end of `perform_promise_then` on a settled promise. -/
def thenSettled (p : ℕ) (rds : Pair JSPromiseReactionData) : JSRuntime :=
  match s.promise p with
  | none => s
  | some d =>
    let isReject : Bool := d.promiseState = .rejected
    let s := s.jsEnqueueJob (some p) (.reaction (rds.get isReject) isReject d.promiseResult)
    { s with registered := s.registered ++ [(p, rds)] }.setPromise p { d with isHandled := true }

/-- The handler of a reaction: `undefined` for what is not a function. -/
def reactionHandler (v : JSValue) : JSValue := if s.isFunction v then v else .undefined

/-- `perform_promise_then`. -/
def performPromiseThen (p : ℕ) (resolveReject capResolvingFuncs : Pair JSValue) :
    Option JSRuntime :=
  match s.promise p with
  | none => none
  | some d =>
    let rds : Pair JSPromiseReactionData :=
      ⟨⟨capResolvingFuncs, s.reactionHandler resolveReject.fulfill⟩,
        ⟨capResolvingFuncs, s.reactionHandler resolveReject.reject⟩⟩
    if d.promiseState = .pending then
      some ({ s with registered := s.registered ++ [(p, rds)] }.setPromise p
        { d with
          promiseReactions := ⟨d.promiseReactions.fulfill ++ [rds.fulfill],
            d.promiseReactions.reject ++ [rds.reject]⟩
          isHandled := true })
    else if d.promiseState = .rejected && !d.isHandled && s.tracker then
      some (s.push (.handled p rds))
    else some (s.thenSettled p rds)

/-- The rest of `promise_reaction_job` once the handler has returned. -/
def reactionJobReturn (resolvingFuncs : Pair JSValue) (c : Completion) : JSRuntime :=
  let (func, res) := match c with
    | .value v => (resolvingFuncs.get false, v)
    | .exception error => (resolvingFuncs.get true, error)
  if func = .undefined then s else (s.push .call).jsCall func (some res)

/-- `promise_reaction_job`. -/
def promiseReactionJob (rd : JSPromiseReactionData) (isReject : Bool) (arg : JSValue) :
    JSRuntime :=
  if rd.handler = .undefined then
    s.reactionJobReturn rd.resolvingFuncs (if isReject then .exception arg else .value arg)
  else (s.push (.handler rd.resolvingFuncs)).jsCall rd.handler (some arg)

/-- `js_promise_resolve_thenable_job`. -/
def jsPromiseResolveThenableJob (p : ℕ) (then_ : JSValue) : JSRuntime :=
  let resolve := s.objects.length
  ((s.jsCreateResolvingFunctions p).push (.thenable (resolve + 1))).jsCall then_
    (some (.object resolve))

/-- `JS_ExecutePendingJob`. -/
def jsExecutePendingJob : Option JSRuntime :=
  match s.jobList with
  | [] => none
  | job :: jobs =>
    let s := { s with jobList := jobs, started := s.started + 1 }
    match job with
    | .reaction rd isReject arg => some (s.promiseReactionJob rd isReject arg)
    | .resolveThenable p _ then_ => some (s.jsPromiseResolveThenableJob p then_)

/-- `js_promise_constructor` up to the call of the executor. -/
def jsPromiseConstructor : JSRuntime :=
  let p := s.objects.length
  ((s.newObject (.promise ⟨.pending, ⟨[], []⟩, false, .undefined⟩)).jsCreateResolvingFunctions
    p).push (.executor (p + 2))

/-- The program returns to the native function that waits. -/
def ret (c : Completion) : Option JSRuntime :=
  match s.frames with
  | [] => none
  | f :: frames =>
    let s := { s with frames := frames }
    some <| match f, c with
    | .executor reject, .exception error | .thenable reject, .exception error =>
      s.jsCall (.object reject) (some error)
    | .executor _, .value _ | .thenable _, .value _ | .call, _ => s
    | .handler resolvingFuncs, c => s.reactionJobReturn resolvingFuncs c
    | .getThen p resolution, c => s.resolveWithThen p resolution c
    | .rejected p value, _ => s.drain p value true
    | .handled p rds, _ => s.thenSettled p rds

end JSRuntime

/-! ## Runs -/

/-- What the program and its host do. -/
inductive Op
  /-- `new Promise` -/
  | newPromise
  /-- make a function or another object -/
  | newObject (callable : Bool)
  /-- call a function with its first argument, if any -/
  | call (f : JSValue) (arg : Option JSValue)
  /-- `perform_promise_then`, for `then`, `await` and the asynchronous generators -/
  | then_ (p : ℕ) (resolveReject capResolvingFuncs : Pair JSValue)
  /-- `JS_ExecutePendingJob` -/
  | executePendingJob
  /-- return to the native function that waits -/
  | ret (c : Completion)
  deriving DecidableEq, Repr

/-- No promise, no job. -/
def Fresh (s : JSRuntime) : Prop :=
  s.objects = [] ∧ s.alreadyResolved = [] ∧ s.jobList = [] ∧ s.frames = [] ∧ s.enqueued = [] ∧
    s.started = 0 ∧ s.registered = []

def step (s : JSRuntime) : Op → Option JSRuntime
  | .newPromise => some s.jsPromiseConstructor
  | .newObject callable => some (s.newObject (if callable then .function else .plain))
  | .call f arg => some (s.jsCall f arg)
  | .then_ p resolveReject capResolvingFuncs =>
    s.performPromiseThen p resolveReject capResolvingFuncs
  | .executePendingJob => s.jsExecutePendingJob
  | .ret c => s.ret c

end QuickJs.Promise
