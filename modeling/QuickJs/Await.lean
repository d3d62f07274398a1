import QuickJs.AsyncFuncState
import QuickJs.PromiseCalls

/-!
# Awaits

A frame that leaves `JS_CallInternal` with `FUNC_RET_AWAIT` waits for a promise: `js_promise_resolve` makes a promise of
the value, which may look up a property of it, and `perform_promise_then` registers two functions with the promise.
When a job calls one of them, the frame goes on. Async functions and async generators do this in the same steps.

Every await is recorded, with what the frame was resumed with at the await.
-/

namespace QuickJs.Awaits

open Promise

/-- How far an await has come. -/
inductive Status
  /-- `js_promise_resolve` gets the property `constructor` of a promise -/
  | getConstructor (p : ℕ)
  /-- the promise to wait for is there -/
  | resolved (p : ℕ)
  /-- `js_promise_resolve` has thrown -/
  | raised (error : JSValue)
  /-- `perform_promise_then` was called with the functions at `f` and `f + 1` -/
  | waiting (p f : ℕ)
  deriving DecidableEq

/-- An await: its value, where the frame stands, and what it was resumed with there. -/
structure Await where
  value : JSValue
  pc : ℕ
  rest : List JSValue
  status : Status
  resumed : List (Entry JSValue)
  deriving DecidableEq

/-- The frame of a function with its awaits, the last one first. -/
structure Body where
  rt : JSRuntime
  /-- `ctx->promise_ctor` -/
  promiseCtor : JSValue
  funcState : FuncState JSValue
  /-- `rt->current_exception` -/
  exception : Option JSValue
  /-- the frame was suspended by an await -/
  atAwait : Bool
  awaits : List Await

/-- `JS_GetOpaque` with `JS_CLASS_PROMISE`. -/
def opaquePromise (rt : JSRuntime) : JSValue → Option ℕ
  | .object p => (rt.promise p).map fun _ => p
  | _ => none

/-- `js_new_promise_capability` with `ctx->promise_ctor`: the promise and its two functions are the next objects. -/
def newPromiseCapability (rt : JSRuntime) : JSRuntime :=
  (rt.newObject (.promise ⟨.pending, ⟨[], []⟩, false, .undefined⟩)).jsCreateResolvingFunctions rt.objects.length

/-- `js_promise_resolve` from `js_new_promise_capability` on: the new promise is resolved with the value. -/
def resolveNew (rt : JSRuntime) (v : JSValue) : JSRuntime :=
  (newPromiseCapability rt).jsCall (.object (rt.objects.length + 1)) (some v)

/-- The frame leaves with `FUNC_RET_AWAIT`, and `js_promise_resolve` is called with the value on its stack. -/
def Body.await (b : Body) (pc : ℕ) (v : JSValue) (rest : List JSValue) : Body :=
  let start (rt : JSRuntime) (status : Status) : Body := { b with
    rt := rt
    funcState := b.funcState.exit pc (.undefined :: rest)
    atAwait := true
    awaits := ⟨v, pc, rest, status, []⟩ :: b.awaits }
  match opaquePromise b.rt v with
  | some p => start b.rt (.getConstructor p)
  | none => start (resolveNew b.rt v) (.resolved b.rt.objects.length)

/-- `js_promise_resolve` has got the property `constructor`. -/
def Body.gotConstructor (b : Body) (ctor : JSValue) : Option Body :=
  match b.awaits with
  | [] => none
  | a :: as =>
    match a.status with
    | .getConstructor p => some <|
      if ctor = b.promiseCtor then { b with awaits := { a with status := .resolved p } :: as }
      else { b with
        rt := resolveNew b.rt a.value
        awaits := { a with status := .resolved b.rt.objects.length } :: as }
    | _ => none

/-- `js_promise_resolve` throws. -/
def Body.raise (b : Body) (error : JSValue) : Option Body :=
  match b.awaits with
  | [] => none
  | a :: as =>
    match a.status with
    | .getConstructor _ | .resolved _ => some { b with
      exception := some error
      awaits := { a with status := .raised error } :: as }
    | _ => none

/-- `perform_promise_then` is called with two new functions. -/
def Body.register (b : Body) : Option Body :=
  match b.awaits with
  | [] => none
  | a :: as =>
    match a.status with
    | .resolved p =>
      let f := b.rt.objects.length
      (((b.rt.newObject .function).newObject .function).performPromiseThen p ⟨.object f, .object (f + 1)⟩
        ⟨.undefined, .undefined⟩).map fun rt =>
          { b with rt := rt, awaits := { a with status := .waiting p f } :: as }
    | _ => none

/-- The functions of an await call for the frame, with the flag `is_reject` of the function and an argument. -/
def Await.callOf (a : Await) (job : Job) : Option (Bool × JSValue) :=
  match a.status with
  | .waiting _ f => Promise.callOf f job
  | _ => none

/-- The call of a function of the frame by the next job. -/
def Body.nextCall (b : Body) : Option (Bool × JSValue) :=
  b.rt.jobList.head?.bind fun job => b.awaits.findSome? fun a => a.callOf job

/-- A function of an await is called: its argument becomes the value of the await, or an exception. -/
def Body.deliver (b : Body) (isReject : Bool) (arg : JSValue) : Option Body :=
  match b.funcState.curSp with
  | some (top :: sp) => some { b with
    funcState := { b.funcState with throwFlag := isReject, curSp := some ((if isReject then top else arg) :: sp) }
    exception := if isReject then some arg else b.exception }
  | _ => none

/-- The last await gets what the frame is resumed with. -/
def record (e : Entry JSValue) : List Await → List Await
  | [] => []
  | a :: as => { a with resumed := a.resumed ++ [e] } :: as

/-- `async_func_resume`: the frame runs. -/
def Body.enter (b : Body) : Option Body :=
  (QuickJs.enter b.funcState b.exception).map fun r => { b with
    funcState := r.1
    atAwait := false
    awaits := if b.atAwait then record r.2 b.awaits else b.awaits }

/-- The values that the program gives to what it calls. -/
def givenBy : Promise.Op → List JSValue
  | .newPromise | .newObject _ | .executePendingJob => []
  | .call f arg => f :: arg.toList
  | .then_ p resolveReject capResolvingFuncs => [.object p, resolveReject.fulfill, resolveReject.reject,
    capResolvingFuncs.fulfill, capResolvingFuncs.reject]
  | .ret (.value v) | .ret (.exception v) => [v]

/-- A value is a function of the await. -/
def Await.hasFunction (a : Await) (v : JSValue) : Prop :=
  ∃ p f, a.status = .waiting p f ∧ (v = .object f ∨ v = .object (f + 1))

/-- What the program may do with promises while the jobs wait: it has no reference to the functions of an await. -/
def Body.Allows (b : Body) (o : Promise.Op) : Prop :=
  o ≠ .executePendingJob ∧ ∀ v ∈ givenBy o, ∀ a ∈ b.awaits, ¬a.hasFunction v

/-- Why a frame does not run when a function of it is called: `JS_CallInternal` polls the interrupt handler before it
calls the function, and `async_func_resume` may throw before the frame runs. -/
inductive Refusal
  | call
  | resume (error : JSValue)
  deriving DecidableEq

/-! ## What an await promises -/

/-- What the frame is to be resumed with at an await. -/
def Await.entry (a : Await) (isReject : Bool) (v : JSValue) : Entry JSValue :=
  ⟨a.pc, (if isReject then .undefined else v) :: a.rest, if isReject then some v else none⟩

/-- The calls of the functions of an await. -/
def Await.calls (a : Await) (jobs : List Job) : List (Bool × JSValue) := jobs.filterMap a.callOf

/-- An await gives control back: once. -/
structure Await.GivesBack (rt : JSRuntime) (a : Await) : Prop where
  /-- not before a job of it has run -/
  before : (∀ error, a.status ≠ .raised error) → a.calls rt.startedJobs = [] → a.resumed = []
  /-- with the result of the promise, when it has -/
  settled : ∀ (p f : ℕ) d, a.status = .waiting p f → rt.promise p = some d → d.promiseState ≠ .pending →
    a.calls rt.startedJobs ≠ [] → a.resumed = [a.entry (d.promiseState = .rejected) d.promiseResult]
  /-- with the error of the lookup, when it has thrown -/
  raised : ∀ error, a.status = .raised error → a.resumed = [a.entry true error]
  /-- there is no job before the promise is settled -/
  pending : ∀ (p f : ℕ) d, a.status = .waiting p f → rt.promise p = some d → d.promiseState = .pending →
    a.calls rt.enqueuedJobs = []
  /-- and one as soon as it is, and `perform_promise_then` has returned -/
  enqueued : ∀ (p f : ℕ) d, a.status = .waiting p f → rt.promise p = some d → d.promiseState ≠ .pending →
    (p, reactions f) ∈ rt.registered →
    a.calls rt.enqueuedJobs = [(decide (d.promiseState = .rejected), d.promiseResult)]

end QuickJs.Awaits
