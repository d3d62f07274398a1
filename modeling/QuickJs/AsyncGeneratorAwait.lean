import QuickJs.AsyncGenerator
import QuickJs.AwaitSound

/-!
# Awaits of async generators

The frame of an async generator runs for the first request of the queue, in the loop of
`js_async_generator_resume_next`. While it waits for an await the generator is in the state `executing`; the job that
calls it restarts the loop there. Where the promise of an await cannot be made, the loop is left and nothing else
happens.
-/

namespace QuickJs.AsyncGenerator.Await

open Promise JSRuntime Awaits Run

/-- The queue with its loop, and the frame with its awaits; the queue does not look at the values of the awaits. -/
structure State where
  gen : AsyncGenerator.State
  body : Body

/-- A turn of the loop; `async_func_resume` may throw instead of running the frame. -/
def State.turn (s : State) (refused : Option AsyncGenerator.JSValue) : Option State :=
  (s.gen.step .resumeNext).bind fun gen =>
    if gen.frames = .execute :: s.gen.frames.tail then
      match refused with
      | some error => (gen.step (.funcReturn (.exception error))).map fun gen => ⟨gen, s.body⟩
      | none =>
        if s.body.atAwait then s.body.enter.map fun b => ⟨gen, b⟩
        else some ⟨gen, { s.body with funcState := { s.body.funcState with curSp := none } }⟩
    else some ⟨gen, s.body⟩

/-- `js_async_generator_resolve_function` for an await. -/
def State.resolveFunction (s : State) (isReject : Bool) (arg : Promise.JSValue)
    (refused : Option AsyncGenerator.JSValue) :
    Option State :=
  (s.gen.step (.awaitSettled isReject .undefined)).bind fun gen =>
    (s.body.deliver isReject arg).bind fun b => State.turn ⟨gen, b⟩ refused

/-- A job runs. -/
def State.job (s : State) (refusal : Option Refusal) : Option State :=
  s.body.rt.jsExecutePendingJob.bind fun rt =>
    let t : State := { s with body := { s.body with rt := rt } }
    match s.body.nextCall, refusal with
    | none, _ | some _, some .call => some t
    | some (isReject, arg), some (.resume _) => t.resolveFunction isReject arg (some .undefined)
    | some (isReject, arg), none => t.resolveFunction isReject arg none

inductive Op
  /-- something else is done with promises -/
  | program (o : Promise.Op)
  /-- a script calls `next`, `return` or `throw` -/
  | next (magic : GenMagic) (value : AsyncGenerator.JSValue)
  /-- the loop takes a turn -/
  | resumeNext (refused : Option AsyncGenerator.JSValue)
  /-- the frame leaves, but not by an await -/
  | funcReturn (ret : FuncRet) (pc : ℕ) (sp : List Promise.JSValue)
  /-- the frame leaves by an await -/
  | await (pc : ℕ) (v : Promise.JSValue) (rest : List Promise.JSValue)
  /-- the constructor of the value of an await has been got -/
  | gotConstructor (ctor : Promise.JSValue)
  /-- the promise of an await cannot be made -/
  | raise (error : Promise.JSValue)
  /-- the promise of an await is waited for -/
  | register
  /-- the promise of a request has been resolved -/
  | resolved
  /-- the value of a `return` is waited for -/
  | returnAwaited (ok : Bool)
  /-- and has come -/
  | returnSettled (isReject : Bool) (v : AsyncGenerator.JSValue)
  /-- a job runs; the frame may fail to -/
  | job (refusal : Option Refusal)

/-- A step of the queue. -/
def State.queue (s : State) (o : AsyncGenerator.Op) : Option State :=
    (s.gen.step o).map fun gen => { s with gen := gen }

def isAwait : FuncRet → Bool
  | .await _ => true
  | _ => false

def State.step (s : State) : Op → Option State
  | .program o => (Promise.step s.body.rt o).map fun rt => { s with body := { s.body with rt := rt } }
  | .next magic value => s.queue (.next magic value)
  | .resumeNext refused => s.turn refused
  | .funcReturn ret pc sp => if isAwait ret then none else (s.gen.step (.funcReturn ret)).map fun gen =>
    ⟨gen, { s.body with funcState := s.body.funcState.exit pc sp }⟩
  | .await pc v rest => (s.gen.step (.funcReturn (.await .undefined))).map fun gen => ⟨gen, s.body.await pc v rest⟩
  | .gotConstructor ctor => (s.body.gotConstructor ctor).map fun b => { s with body := b }
  | .raise error => (s.gen.step (.awaited false)).bind fun gen => (s.body.raise error).map fun b => ⟨gen, b⟩
  | .register => (s.gen.step (.awaited true)).bind fun gen => s.body.register.map fun b => ⟨gen, b⟩
  | .resolved => s.queue .resolved
  | .returnAwaited ok => s.queue (.returnAwaited ok)
  | .returnSettled isReject v => s.queue (.returnSettled isReject v)
  | .job refusal => s.job refusal

/-- No promise and no job, and the generator has just been made. -/
def Initial (s : State) : Prop :=
  Fresh s.body.rt ∧ s.body.awaits = [] ∧ s.body.atAwait = false ∧ s.gen = .initial

/-- The program has no reference to the functions of an await. -/
def Op.Allowed (s : State) : Op → Prop
  | .program o => s.body.Allows o
  | _ => True

/-- The promise of an await can be made, the frame runs when a job calls it, and the loop does not go on after the
delivery of a `yield` while the frame waits. -/
def Op.Succeeds (s : State) : Op → Prop
  | .raise _ => False
  | .job refusal => s.body.nextCall ≠ none → refusal = none
  | .resolved => ∀ e frames, s.gen.frames = .resolve e true :: frames → s.gen.state ≠ .executing
  | _ => True

/-- The awaits of the generator give control back. -/
structure GivesBack (s : State) : Prop where
  awaits : ∀ a ∈ s.body.awaits, a.GivesBack s.body.rt
  /-- and a job that calls the frame finds it at the await, when nothing of the generator is on the stack -/
  runs : s.body.rt.jobList ≠ [] → s.gen.frames = [] → (s.step (.job none)).isSome = true

/-! ## The invariant -/

/-- A call that does not run the frame. -/
def Beside : Frame → Prop
  | .resolve .. | .completedReturn .. => True
  | .resumeNext | .execute | .await _ => False

/-- The queue is served while the frame does not run. -/
structure Serves (g : AsyncGenerator.State) : Prop where
  state : g.state ≠ .executing
  awaits : g.awaits = 0
  frames : ∃ fs, (g.frames = fs ∨ g.frames = .resumeNext :: fs) ∧ ∀ f ∈ fs, Beside f

/-- The frame has left the queue to the loop that runs it. -/
structure Executes (g : AsyncGenerator.State) (awaits : ℕ) (frames : List Frame) : Prop where
  state : g.state = .executing
  awaits : g.awaits = awaits
  frames : g.frames = frames
  queue : g.queue ≠ []

/-- Who has the frame of the generator. -/
inductive Control (s : State) : Prop
  /-- the queue is served, or nothing happens -/
  | idle : Serves s.gen → s.body.atAwait = false → Control s
  /-- the frame runs -/
  | running {fs : List Frame} : Executes s.gen 0 (.execute :: fs) → (∀ f ∈ fs, Beside f) → s.body.atAwait = false →
      Control s
  /-- the promise of an await is made -/
  | starting {fs : List Frame} {v : AsyncGenerator.JSValue} : Executes s.gen 0 (.await v :: fs) → (∀ f ∈ fs, Beside f) →
      s.body.atAwait = true → s.body.Open → Control s
  /-- the frame waits -/
  | waiting {fs : List Frame} : Executes s.gen 1 fs → (∀ f ∈ fs, Beside f) → s.body.atAwait = true → Control s

/-- A generator that awaits the value of a `return` is over. -/
def Over (g : AsyncGenerator.State) : Prop :=
  ((∃ id v, Frame.completedReturn id v ∈ g.frames) ∨ g.returning ≠ none) →
    g.state = .awaitingReturn ∨ g.state = .completed

structure Inv (s : State) : Prop where
  body : s.body.Inv
  sound : s.body.Sound
  control : Control s
  ended : Over s.gen

variable {s s' : State} {g g' : AsyncGenerator.State} {b : Body} {fs : List Frame} {owner : ℕ} {v : AsyncGenerator.JSValue}

/-! ## The queue -/

/-- Delivering a value leaves the generator as it is. -/
theorem resolve_eq {done again : Bool} (h : AsyncGenerator.resolve g owner v done again fs = some g') :
    g'.state = g.state ∧ g'.awaits = g.awaits ∧ g'.returning = g.returning ∧
      ∃ e, g'.frames = .resolve e again :: fs := by
  unfold AsyncGenerator.resolve at h
  split at h <;> cases h
  exact ⟨rfl, rfl, rfl, _, rfl⟩

theorem reject_eq (h : AsyncGenerator.reject g owner v fs = some g') :
    g'.state = g.state ∧ g'.awaits = g.awaits ∧ g'.returning = g.returning ∧ g'.frames = fs := by
  unfold AsyncGenerator.reject at h
  split at h <;> cases h
  exact ⟨rfl, rfl, rfl, rfl⟩

section

variable (hstate : g.state ≠ .executing) (hawaits : g.awaits = 0)

include hstate hawaits

/-- What runs beside the frame, or serves the queue. -/
theorem Serves.of_frames (hframes : g.frames = fs)
    (hbeside : ∀ f ∈ fs, Beside f) : Serves g := ⟨hstate, hawaits, fs, .inl hframes, hbeside⟩

theorem Serves.of_resumeNext
    (hframes : g.frames = .resumeNext :: fs)
    (hbeside : ∀ f ∈ fs, Beside f) : Serves g := ⟨hstate, hawaits, fs, .inr hframes, hbeside⟩

/-- A turn of the loop goes on serving, or the frame runs. -/
theorem turn_cases (hbeside : ∀ f ∈ fs, Beside f)
    (h : AsyncGenerator.resumeNext g fs = some g') :
    Serves g' ∧ g'.frames ≠ .execute :: fs ∨ Executes g' 0 (.execute :: fs) := by
  unfold AsyncGenerator.resumeNext at h
  have hne : ∀ {f : Frame}, f ≠ .execute → f :: fs ≠ .execute :: fs := fun hf heq => hf (List.cons.inj heq).1
  have hself : fs ≠ Frame.execute :: fs := fun heq => absurd (congrArg List.length heq) (by simp)
  split at h
  · cases h
    exact .inl ⟨.of_frames hstate hawaits rfl hbeside, hself⟩
  · rename_i r q hqueue
    have hq : g.queue ≠ [] := hqueue ▸ List.cons_ne_nil r q
    split at h
    · exact absurd ‹_› hstate
    · cases h
      exact .inl ⟨.of_frames hstate hawaits rfl hbeside, hself⟩
    · split at h <;> cases h
      · exact .inr ⟨rfl, hawaits, rfl, hq⟩
      · exact .inl ⟨.of_resumeNext nofun hawaits rfl hbeside, hne nofun⟩
    · split at h
      · obtain ⟨hst, haw, -, e, hfr⟩ := resolve_eq h
        refine .inl ⟨.of_frames (hst ▸ hstate) (haw.trans hawaits) hfr
          (List.forall_mem_cons.mpr ⟨trivial, hbeside⟩), ?_⟩
        rw [hfr]
        exact hne nofun
      · cases h
        exact .inl ⟨.of_frames nofun hawaits rfl (List.forall_mem_cons.mpr ⟨trivial, hbeside⟩), hne nofun⟩
      · obtain ⟨hst, haw, -, hfr⟩ := reject_eq h
        exact .inl ⟨.of_frames (hst ▸ hstate) (haw.trans hawaits) hfr hbeside, hfr ▸ hself⟩
    · cases h
      exact .inr ⟨rfl, hawaits, rfl, hq⟩
    · cases h
      exact .inr ⟨rfl, hawaits, rfl, hq⟩

end

/-- Over is for good. -/
theorem Over.of_le (h : Over g) (hreturning : g'.returning = g.returning)
    (hframes : ∀ id v, Frame.completedReturn id v ∈ g'.frames → Frame.completedReturn id v ∈ g.frames)
    (hstate : g.state = .awaitingReturn ∨ g.state = .completed → g'.state = .awaitingReturn ∨ g'.state = .completed) :
    Over g' := fun hor => hstate <| h <| hor.imp
  (fun ⟨id, v, hmem⟩ => ⟨id, v, hframes id v hmem⟩) fun hne => hreturning ▸ hne

/-- A call other than that of a `return` is made. -/
theorem mem_push {f : Frame} {id : ℕ} {w : AsyncGenerator.JSValue} (h : Frame.completedReturn id w ∈ f :: fs)
    (hf : ∀ id v, f ≠ .completedReturn id v) : Frame.completedReturn id w ∈ fs :=
  (List.mem_cons.mp h).resolve_left fun heq => hf id w heq.symm

theorem Over.turn (hover : Over g) (hframes : g.frames = .resumeNext :: fs)
    (h : AsyncGenerator.resumeNext g fs = some g') : Over g' := by
  have hmem : ∀ id v, Frame.completedReturn id v ∈ fs → Frame.completedReturn id v ∈ g.frames := fun id v hin =>
    hframes ▸ .tail _ hin
  unfold AsyncGenerator.resumeNext at h
  split at h
  · cases h
    exact hover.of_le rfl hmem id
  · split at h
    · cases h
      exact hover.of_le rfl (fun id v hin => hmem id v (mem_push hin nofun)) id
    · cases h
      exact hover.of_le rfl hmem id
    · rename_i hstate
      split at h <;> cases h
      · refine hover.of_le rfl (fun id v hin => hmem id v (mem_push hin nofun)) fun hor => ?_
        rw [hstate] at hor
        obtain hor | hor := hor <;> cases hor
      · exact fun _ => .inr rfl
    · rename_i hstate
      split at h
      · obtain ⟨hst, -⟩ := resolve_eq h
        exact fun _ => .inr (hst.trans hstate)
      · cases h
        exact fun _ => .inl rfl
      · obtain ⟨hst, -⟩ := reject_eq h
        exact fun _ => .inr (hst.trans hstate)
    · rename_i hstate
      cases h
      refine hover.of_le rfl (fun id v hin => hmem id v (mem_push hin nofun)) fun hor => ?_
      rw [hstate] at hor
      obtain hor | hor := hor <;> cases hor
    · rename_i hstate
      cases h
      refine hover.of_le rfl (fun id v hin => hmem id v (mem_push hin nofun)) fun hor => ?_
      rw [hstate] at hor
      obtain hor | hor := hor <;> cases hor

/-- The frame leaves, but not by an await: the loop delivers what it has. -/
theorem funcReturn_serves {ret : FuncRet} (hret : isAwait ret = false) (hawaits : g.awaits = 0)
    (hbeside : ∀ f ∈ fs, Beside f) (hstate : g.state = .executing) (hover : Over g)
    (hframes : g.frames = .execute :: fs) (h : AsyncGenerator.funcReturn g fs ret = some g') : Serves g' ∧ Over g' := by
  have hpush : ∀ e again, ∀ f ∈ Frame.resolve e again :: fs, Beside f := fun e again =>
    List.forall_mem_cons.mpr ⟨trivial, hbeside⟩
  -- a generator that runs is not over
  have hnot : ∀ id v, Frame.completedReturn id v ∉ fs := fun id v hin => by
    have hor := hover (.inl ⟨id, v, hframes ▸ .tail _ hin⟩)
    rw [hstate] at hor
    obtain hor | hor := hor <;> cases hor
  have hnone : g.returning = none := by
    by_contra hne
    have hor := hover (.inr hne)
    rw [hstate] at hor
    obtain hor | hor := hor <;> cases hor
  have hover' : ∀ e again, g'.returning = g.returning → g'.frames = .resolve e again :: fs → Over g' := by
    rintro e again hr hfr (⟨id, w, hmem⟩ | hne)
    · rw [hfr] at hmem
      exact absurd (mem_push hmem nofun) (hnot id w)
    · exact absurd (hr.trans hnone) hne
  unfold AsyncGenerator.funcReturn at h
  split at h
  · obtain ⟨hst, haw, hr, hfr⟩ := reject_eq h
    refine ⟨.of_resumeNext (by rw [hst]; nofun) (haw.trans hawaits) hfr hbeside, fun _ => .inr hst⟩
  · obtain ⟨hst, haw, hr, e, hfr⟩ := resolve_eq h
    exact ⟨.of_frames (by rw [hst]; nofun) (haw.trans hawaits) hfr (hpush _ _), hover' _ _ hr hfr⟩
  · obtain ⟨hst, haw, hr, e, hfr⟩ := resolve_eq h
    exact ⟨.of_frames (by rw [hst]; nofun) (haw.trans hawaits) hfr (hpush _ _), hover' _ _ hr hfr⟩
  · cases hret
  · obtain ⟨hst, haw, hr, e, hfr⟩ := resolve_eq h
    exact ⟨.of_frames (by rw [hst]; nofun) (haw.trans hawaits) hfr (hpush _ _), hover' _ _ hr hfr⟩

/-! ## Who has the frame -/

/-- The loop is at a turn only while the frame does not run. -/
theorem Control.of_resumeNext (h : Control s) (hframes : s.gen.frames = .resumeNext :: fs) :
    s.gen.state ≠ .executing ∧ s.gen.awaits = 0 ∧ s.body.atAwait = false ∧ ∀ f ∈ fs, Beside f := by
  cases h with
  | idle hserves hat =>
    obtain ⟨gs, heq | heq, hbeside⟩ := hserves.frames
    · rw [← heq, hframes] at hbeside
      exact absurd (hbeside _ List.mem_cons_self) id
    · cases heq.symm.trans hframes
      exact ⟨hserves.state, hserves.awaits, hat, hbeside⟩
  | running hexec => cases hexec.frames.symm.trans hframes
  | starting hexec => cases hexec.frames.symm.trans hframes
  | waiting hexec hbeside => exact absurd (hbeside .resumeNext (by rw [← hexec.frames, hframes]; exact .head _)) id

theorem Control.of_execute (h : Control s) (hframes : s.gen.frames = .execute :: fs) :
    Executes s.gen 0 (.execute :: fs) ∧ s.body.atAwait = false ∧ ∀ f ∈ fs, Beside f := by
  cases h with
  | idle hserves hat =>
    obtain ⟨gs, heq | heq, hbeside⟩ := hserves.frames
    · rw [← heq, hframes] at hbeside
      exact absurd (hbeside _ List.mem_cons_self) id
    · cases heq.symm.trans hframes
  | running hexec hbeside hat =>
    cases hexec.frames.symm.trans hframes
    exact ⟨hexec, hat, hbeside⟩
  | starting hexec => cases hexec.frames.symm.trans hframes
  | waiting hexec hbeside => exact absurd (hbeside .execute (by rw [← hexec.frames, hframes]; exact .head _)) id

theorem Control.of_await (h : Control s) (hframes : s.gen.frames = .await v :: fs) :
    Executes s.gen 0 (.await v :: fs) ∧ s.body.atAwait = true ∧ ∀ f ∈ fs, Beside f := by
  cases h with
  | idle hserves hat =>
    obtain ⟨gs, heq | heq, hbeside⟩ := hserves.frames
    · rw [← heq, hframes] at hbeside
      exact absurd (hbeside _ List.mem_cons_self) id
    · cases heq.symm.trans hframes
  | running hexec => cases hexec.frames.symm.trans hframes
  | starting hexec hbeside hat =>
    cases hexec.frames.symm.trans hframes
    exact ⟨hexec, hat, hbeside⟩
  | waiting hexec hbeside => exact absurd (hbeside (.await v) (by rw [← hexec.frames, hframes]; exact .head _)) id

/-- A call beside the frame is over, and the rest stays. -/
theorem Control.of_beside {f : Frame} (h : Control s) (hframes : s.gen.frames = f :: fs) (hf : Beside f) :
    (Serves s.gen ∧ s.body.atAwait = false ∨ Executes s.gen 1 (f :: fs) ∧ s.body.atAwait = true) ∧
      ∀ f ∈ fs, Beside f := by
  cases h with
  | idle hserves hat =>
    refine ⟨.inl ⟨hserves, hat⟩, ?_⟩
    obtain ⟨gs, heq | heq, hbeside⟩ := hserves.frames
    · rw [← heq, hframes] at hbeside
      exact (List.forall_mem_cons.mp hbeside).2
    · cases heq.symm.trans hframes
      exact hf.elim
  | running hexec =>
    cases hexec.frames.symm.trans hframes
    exact hf.elim
  | starting hexec =>
    cases hexec.frames.symm.trans hframes
    exact hf.elim
  | waiting hexec hbeside hat =>
    cases hexec.frames.symm.trans hframes
    exact ⟨.inr ⟨hexec, hat⟩, (List.forall_mem_cons.mp hbeside).2⟩

end QuickJs.AsyncGenerator.Await
