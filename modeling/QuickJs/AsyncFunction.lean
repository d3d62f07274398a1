import QuickJs.AwaitSound

/-!
# Async functions

`js_async_function_call` makes a promise for the result and runs the frame; `js_async_function_resume` does what the
frame leaves with: an exception rejects the promise, a return resolves it, and at an await the frame waits until a job
calls it. Where the promise of an await cannot be made, the promise of the function is rejected instead.
-/

namespace QuickJs.AsyncFunction

open Promise JSRuntime Awaits Run

/-- How the frame leaves `JS_CallInternal`. -/
inductive FuncRet
  | exception (error : JSValue)
  | undefined
  | await

/-- `JSAsyncFunctionData`; before the call there are no resolving functions. -/
structure State where
  body : Body
  isActive : Bool
  resolvingFuncs : Option (Pair JSValue)

/-- A resolving function of the function is called, and then `js_async_function_terminate`. -/
def State.finish (s : State) (isReject : Bool) (v : JSValue) : Option State :=
  s.resolvingFuncs.bind fun funcs => (asyncFuncFree s.body.funcState).map fun f => { s with
    body := { s.body with rt := s.body.rt.jsCall (funcs.get isReject) (some v), funcState := f }
    isActive := false }

/-- `js_async_function_resume` until the frame runs, if it does. -/
def State.resume (s : State) : Option JSValue → Option State
  | some error => s.finish true error
  | none => s.body.enter.map fun b => { s with body := b }

/-- `js_async_function_resume` after the frame has left. -/
def State.leave (s : State) (pc : ℕ) (sp : List JSValue) (ret : FuncRet) : Option State :=
  if s.isActive = true ∧ s.body.funcState.curSp = none then
    let exit (sp : List JSValue) : State :=
      { s with body := { s.body with funcState := s.body.funcState.exit pc sp } }
    match ret, sp with
    | .exception error, sp => (exit sp).finish true error
    | .undefined, v :: rest => (exit (.undefined :: rest)).finish false v
    | .await, v :: rest => some { s with body := s.body.await pc v rest }
    | _, [] => none
  else none

/-- The label `fail`, when `js_promise_resolve` has thrown. -/
def State.raise (s : State) (error : JSValue) : Option State :=
  (s.body.raise error).bind fun b => { s with body := b }.finish true error

/-- `js_async_function_call`. -/
def State.call (s : State) (pc : ℕ) (stack : List JSValue) (refused : Option JSValue) : Option State :=
  match s.resolvingFuncs with
  | some _ => none
  | none =>
    let p := s.body.rt.objects.length
    State.resume { s with
      body := { s.body with rt := newPromiseCapability s.body.rt, funcState := ⟨pc, some stack, false, 0⟩ }
      isActive := true
      resolvingFuncs := some ⟨.object (p + 1), .object (p + 2)⟩ } refused

/-- `js_async_function_resolve_call`. -/
def State.resolveCall (s : State) (isReject : Bool) (arg : JSValue) (refused : Option JSValue) : Option State :=
  if s.isActive = true then (s.body.deliver isReject arg).bind fun b => { s with body := b }.resume refused else none

/-- A job runs. -/
def State.job (s : State) (refusal : Option Refusal) : Option State :=
  s.body.rt.jsExecutePendingJob.bind fun rt =>
    let t : State := { s with body := { s.body with rt := rt } }
    match s.body.nextCall, refusal with
    | none, _ | some _, some .call => some t
    | some (isReject, arg), some (.resume error) => t.resolveCall isReject arg (some error)
    | some (isReject, arg), none => t.resolveCall isReject arg none

/-! ## Runs -/

inductive Op
  /-- something else is done with promises -/
  | program (o : Promise.Op)
  /-- the function is called, or fails before it runs -/
  | call (pc : ℕ) (stack : List JSValue) (refused : Option JSValue)
  /-- the frame leaves -/
  | leave (pc : ℕ) (sp : List JSValue) (ret : FuncRet)
  /-- the constructor of the value of an await has been got -/
  | gotConstructor (ctor : JSValue)
  /-- the promise of an await cannot be made -/
  | raise (error : JSValue)
  /-- the promise of an await is waited for -/
  | register
  /-- a job runs; the frame may fail to -/
  | job (refusal : Option Refusal)

def State.step (s : State) : Op → Option State
  | .program o => (Promise.step s.body.rt o).map fun rt => { s with body := { s.body with rt := rt } }
  | .call pc stack refused => s.call pc stack refused
  | .leave pc sp ret => s.leave pc sp ret
  | .gotConstructor ctor => (s.body.gotConstructor ctor).map fun b => { s with body := b }
  | .raise error => s.raise error
  | .register => s.body.register.map fun b => { s with body := b }
  | .job refusal => s.job refusal

/-- No promise and no job, and the function has not been called. -/
def Initial (s : State) : Prop :=
  Fresh s.body.rt ∧ s.body.awaits = [] ∧ s.body.atAwait = false ∧ s.isActive = false

/-- The program has no reference to the functions of an await. -/
def Op.Allowed (s : State) : Op → Prop
  | .program o => s.body.Allows o
  | _ => True

/-- The promise of an await can be made, and the frame runs when a job calls it. -/
def Op.Succeeds (s : State) : Op → Prop
  | .raise _ => False
  | .job refusal => s.body.nextCall ≠ none → refusal = none
  | _ => True

/-- The awaits of the function give control back. -/
structure GivesBack (s : State) : Prop where
  awaits : ∀ a ∈ s.body.awaits, a.GivesBack s.body.rt
  /-- and a job that calls the frame finds it at the await -/
  runs : s.body.rt.jobList ≠ [] → (s.step (.job none)).isSome = true

/-! ## The invariant -/

/-- The frame is there while it stands at an await, and the function has been called then. -/
structure Inv (s : State) : Prop where
  body : s.body.Inv
  sound : s.body.Sound
  active : s.body.atAwait = true → s.isActive = true
  called : s.isActive = true → s.resolvingFuncs.isSome = true

variable {s s' : State} {b : Body}

theorem Inv.finish {isReject : Bool} {v : JSValue} (h : s.finish isReject v = some s')
    (hb : s.body.Inv) (hs : s.body.Sound) (hat : s.body.atAwait = false) : Inv s' := by
  obtain ⟨funcs, -, h⟩ := Option.bind_eq_some_iff.mp h
  obtain ⟨f, -, rfl⟩ := Option.map_eq_some_iff.mp h
  have hquiet := hb.quiet_of_grows (next_jsCall s.body.rt (funcs.get isReject) (some v)) (grows_jsCall ..)
  exact ⟨(hb.quiet hquiet).of_awaits rfl fun a ha _ _ hw => ⟨a, ha, hw⟩, hs.of_away hat (hquiet.startedJobs hb) rfl hat,
    fun h => absurd (hat.symm.trans h) Bool.false_ne_true, nofun⟩

/-- The frame runs for the first time. -/
theorem Inv.resume {refused : Option JSValue} (h : s.resume refused = some s') (hb : s.body.Inv) (hs : s.body.Sound)
    (hat : s.body.atAwait = false) (hcalled : s.resolvingFuncs.isSome = true) : Inv s' := by
  cases refused with
  | some error => exact Inv.finish h hb hs hat
  | none =>
    obtain ⟨b, hb', rfl⟩ := Option.map_eq_some_iff.mp h
    obtain ⟨r, -, rfl⟩ := Option.map_eq_some_iff.mp hb'
    have hawaits : (if s.body.atAwait then record r.2 s.body.awaits else s.body.awaits) = s.body.awaits := by
      rw [hat, if_neg Bool.false_ne_true]
    exact ⟨hb.of_awaits rfl fun a ha _ _ hw => ⟨a, hawaits ▸ ha, hw⟩, hs.of_away hat rfl hawaits rfl, nofun,
      fun _ => hcalled⟩

theorem Inv.call {pc : ℕ} {stack : List JSValue} {refused : Option JSValue} (hi : Inv s)
    (h : s.call pc stack refused = some s') : Inv s' := by
  unfold State.call at h
  split at h
  · cases h
  · rename_i hnone
    have hat : s.body.atAwait = false := by
      rw [← Bool.not_eq_true]
      intro hat
      have hsome := hi.called (hi.active hat)
      rw [hnone] at hsome
      cases hsome
    have hquiet := hi.body.quiet_of_grows (next_newPromiseCapability s.body.rt) (grows_newPromiseCapability _)
    exact Inv.resume h ((hi.body.quiet hquiet).of_awaits rfl fun a ha _ _ hw => ⟨a, ha, hw⟩)
      (hi.sound.of_away hat (hquiet.startedJobs hi.body) rfl hat) hat rfl

theorem Inv.leave {pc : ℕ} {sp : List JSValue} {ret : FuncRet} (hi : Inv s)
    (h : s.leave pc sp ret = some s') : Inv s' := by
  unfold State.leave at h
  split at h
  · rename_i hruns
    obtain ⟨hactive, hsp⟩ := hruns
    have hat : s.body.atAwait = false := by
      cases hi.sound with
      | away hat => exact hat
      | stands _ _ hstands => exact absurd (hsp.symm.trans hstands.sp) nofun
    have hexit : ∀ sp : List JSValue, Body.Inv { s.body with funcState := s.body.funcState.exit pc sp } ∧
        Body.Sound { s.body with funcState := s.body.funcState.exit pc sp } := fun sp =>
      ⟨hi.body.of_awaits rfl fun a ha _ _ hw => ⟨a, ha, hw⟩, hi.sound.of_away hat rfl rfl hat⟩
    split at h
    · exact Inv.finish h (hexit _).1 (hexit _).2 hat
    · exact Inv.finish h (hexit _).1 (hexit _).2 hat
    · cases h
      obtain ⟨hinv, hsound, -⟩ := hi.body.await hi.sound hat pc _ _
      exact ⟨hinv, hsound, fun _ => hactive, hi.called⟩
    · cases h
  · cases h

/-- A job that calls the frame finds it at the await. -/
theorem Inv.runs (hi : Inv s) (hjobs : s.body.rt.jobList ≠ []) : ∃ s', s.job none = some s' ∧ Inv s' := by
  obtain ⟨rt, hexec⟩ : ∃ rt, s.body.rt.jsExecutePendingJob = some rt := by
    rw [jsExecutePendingJob]
    split
    · exact absurd ‹_› hjobs
    · split <;> exact ⟨_, rfl⟩
  rw [State.job, hexec, Option.bind_some]
  cases hcall : s.body.nextCall with
  | none =>
    obtain ⟨hinv, hsound⟩ := hi.body.other_job hi.sound hexec hcall
    exact ⟨_, rfl, hinv, hsound, hi.active, hi.called⟩
  | some c =>
    obtain ⟨hat, -, b₁, b₂, hdeliver, -, henter, hinv, hsound, hat'⟩ := hi.body.called hi.sound hexec hcall
    refine ⟨{ s with body := b₂ }, ?_, hinv, hsound, fun h => absurd (hat'.symm.trans h) Bool.false_ne_true, hi.called⟩
    dsimp only
    rw [State.resolveCall, if_pos (hi.active hat), hdeliver, Option.bind_some, State.resume, henter]
    rfl

theorem Inv.job {refusal : Option Refusal} (hi : Inv s) (hok : (Op.job refusal).Succeeds s)
    (h : s.job refusal = some s') :
    Inv s' := by
  have hjobs : s.body.rt.jobList ≠ [] := by
    intro hnil
    rw [State.job, jsExecutePendingJob, hnil] at h
    cases h
  obtain ⟨t, ht, hinv⟩ := hi.runs hjobs
  have hsame : s.job refusal = s.job none := by
    cases hcall : s.body.nextCall with
    | none =>
      rw [State.job, State.job, hcall]
    | some c => rw [hok (hcall ▸ nofun)]
  rw [hsame, ht] at h
  cases h
  exact hinv

theorem Inv.step {o : Op} (hi : Inv s) (hallowed : o.Allowed s) (hok : o.Succeeds s)
    (h : s.step o = some s') : Inv s' := by
  cases o with
  | program o =>
    obtain ⟨rt, hrt, rfl⟩ := Option.map_eq_some_iff.mp h
    have hquiet := hi.body.quiet_step hallowed hrt
    exact ⟨hi.body.quiet hquiet, hi.sound.congr (hquiet.startedJobs hi.body), hi.active, hi.called⟩
  | call pc stack refused => exact hi.call h
  | leave pc sp ret => exact hi.leave h
  | gotConstructor ctor =>
    obtain ⟨b, hb, rfl⟩ := Option.map_eq_some_iff.mp h
    obtain ⟨hinv, hsound, hat⟩ := hi.body.gotConstructor hi.sound hb
    exact ⟨hinv, hsound, fun h => hi.active (hat ▸ h), hi.called⟩
  | raise error => exact hok.elim
  | register =>
    obtain ⟨b, hb, rfl⟩ := Option.map_eq_some_iff.mp h
    obtain ⟨hinv, hsound, hat⟩ := hi.body.register hi.sound hb
    exact ⟨hinv, hsound, fun h => hi.active (hat ▸ h), hi.called⟩
  | job refusal => exact hi.job hok h

theorem inv_initial (h : Initial s) : Inv s := by
  obtain ⟨hfresh, hawaits, hat, hactive⟩ := h
  exact ⟨.of_fresh hfresh hawaits, .away hat (by rw [hawaits]; nofun),
    fun h => absurd (hat.symm.trans h) Bool.false_ne_true, fun h => absurd (hactive.symm.trans h) Bool.false_ne_true⟩

theorem Inv.givesBack (hi : Inv s) : GivesBack s where
  awaits _ ha := hi.body.givesBack hi.sound ha
  runs hjobs := by
    obtain ⟨s', hs', -⟩ := hi.runs hjobs
    exact Option.isSome_of_eq_some hs'

theorem inv_of_reachable (h : Reachable Initial State.step (fun s o => o.Allowed s ∧ o.Succeeds s) s) : Inv s :=
  h.invariant (fun _ => inv_initial) fun _ _ _ hi hok hs => hi.step hok.1 hok.2 hs

end QuickJs.AsyncFunction
