import QuickJs.Run
import Mathlib.Data.List.Range

/-!
# The request queue of an async generator

`next`, `return` and `throw` append a request to the queue of the generator, and
`js_async_generator_resume_next` serves the queue: it runs the function for the first request and
goes on when the request has been settled. The function may be suspended by an await; a `return`
to a completed generator awaits its value. Delivering a result looks up `then` on an object of the
script, so that a script may call the generator again in the middle.
-/

namespace QuickJs.AsyncGenerator

open Run

/-- `JSAsyncGeneratorStateEnum`. -/
inductive GeneratorState
  | suspendedStart | suspendedYield | suspendedYieldStar | executing | awaitingReturn | completed
  deriving DecidableEq

/-- `GEN_MAGIC_x`. -/
inductive GenMagic
  | magicNext | magicReturn | magicThrow
  deriving DecidableEq

inductive JSValue
  | undefined
  | other (v : ℕ)
  deriving DecidableEq

/-- `JSAsyncGeneratorRequest`; the requests are numbered as they are made, and the promise of a
request has its number. -/
structure Request where
  id : ℕ
  completionType : GenMagic
  result : JSValue
  deriving DecidableEq

/-- What the function is resumed with: a value, or an exception if `throwFlag` is set. -/
structure FuncState where
  throwFlag : Bool
  value : JSValue
  completionType : Option GenMagic

/-- What comes of `async_func_resume`. -/
inductive FuncRet
  | exception (v : JSValue)
  | yield (v : JSValue)
  | yieldStar (v : JSValue)
  | await (v : JSValue)
  /-- the end of the function -/
  | undefined (v : JSValue)

/-- The promise of a request is settled: the request whose result it is, and the result. -/
structure Settlement where
  id : ℕ
  owner : ℕ
  isReject : Bool
  value : JSValue
  done : Bool
  deriving DecidableEq

/-- A call on the stack. -/
inductive Frame
  /-- the loop of `js_async_generator_resume_next` -/
  | resumeNext
  /-- the function runs -/
  | execute
  /-- a result is delivered; afterwards the loop goes on or is left -/
  | resolve (e : Settlement) (again : Bool)
  /-- `js_async_generator_await` -/
  | await (v : JSValue)
  /-- `js_async_generator_completed_return` for a request -/
  | completedReturn (id : ℕ) (v : JSValue)
  deriving DecidableEq

/-- `JSAsyncGeneratorData`, the request for which the function runs, the reactions that wait for a
promise of an await or of a return, the calls on the stack, and the promises that have been
settled. -/
structure State where
  state : GeneratorState
  queue : List Request
  funcState : FuncState
  owner : ℕ
  awaits : ℕ
  returning : Option ℕ
  frames : List Frame
  made : ℕ
  settled : List Settlement

def State.initial : State :=
  ⟨.suspendedStart, [], ⟨false, .undefined, none⟩, 0, 0, none, [], 0, []⟩

/-- `js_async_generator_resolve`: the first request leaves the queue, and its promise is resolved
with an object that the script can look into. -/
def resolve (s : State) (owner : ℕ) (value : JSValue) (done : Bool) (again : Bool)
    (frames : List Frame) : Option State :=
  match s.queue with
  | [] => none
  | next :: queue => some { s with
    queue := queue
    frames := .resolve ⟨next.id, owner, false, value, done⟩ again :: frames }

/-- `js_async_generator_reject`. -/
def reject (s : State) (owner : ℕ) (value : JSValue) (frames : List Frame) : Option State :=
  match s.queue with
  | [] => none
  | next :: queue => some { s with
    queue := queue
    settled := s.settled ++ [⟨next.id, owner, true, value, true⟩]
    frames := frames }

/-- `js_async_generator_complete`. -/
def complete (s : State) : State := { s with state := .completed }

/-- One turn of the loop of `js_async_generator_resume_next`, up to the next place where a script
may run. -/
def resumeNext (s : State) (frames : List Frame) : Option State :=
  match s.queue with
  | [] => some { s with frames := frames }
  | next :: _ =>
    match s.state with
    | .executing => some { s with frames := .execute :: frames }
    | .awaitingReturn => some { s with frames := frames }
    | .suspendedStart =>
      if next.completionType = .magicNext then
        some { s with
          funcState := ⟨false, .undefined, none⟩
          state := .executing
          owner := next.id
          frames := .execute :: frames }
      else some { complete s with frames := .resumeNext :: frames }
    | .completed =>
      match next.completionType with
      | .magicNext => resolve s next.id .undefined true false frames
      | .magicReturn => some { s with
        state := .awaitingReturn
        frames := .completedReturn next.id next.result :: frames }
      | .magicThrow => reject s next.id next.result frames
    | .suspendedYield | .suspendedYieldStar => some { s with
      funcState :=
        if next.completionType = .magicThrow ∧ s.state = .suspendedYield then
          ⟨true, next.result, none⟩
        else ⟨false, next.result, some next.completionType⟩
      state := .executing
      owner := next.id
      frames := .execute :: frames }

/-- `async_func_resume` returns to the loop. -/
def funcReturn (s : State) (frames : List Frame) : FuncRet → Option State
  | .exception v => reject (complete s) s.owner v (.resumeNext :: frames)
  | .yield v => resolve { s with state := .suspendedYield } s.owner v false true frames
  | .yieldStar v => resolve { s with state := .suspendedYieldStar } s.owner v false true frames
  | .await v => some { s with frames := .await v :: frames }
  | .undefined v => resolve (complete s) s.owner v true true frames

def State.request (s : State) (magic : GenMagic) (value : JSValue) : Request :=
  ⟨s.made, magic, value⟩

/-- `js_async_generator_next`. -/
def next (s : State) (magic : GenMagic) (value : JSValue) : State :=
  { s with
    queue := s.queue ++ [s.request magic value]
    made := s.made + 1
    frames := if s.state = .executing then s.frames else .resumeNext :: s.frames }

/-! ## Runs -/

inductive Op
  /-- a script calls `next`, `return` or `throw` -/
  | next (magic : GenMagic) (value : JSValue)
  /-- the loop takes a turn -/
  | resumeNext
  /-- the function comes to a yield, an await or its end -/
  | funcReturn (ret : FuncRet)
  /-- the promise of a request is resolved -/
  | resolved
  /-- the function waits for the value of an await, if it can be made a promise -/
  | awaited (ok : Bool)
  /-- and the generator for the value of a return -/
  | returnAwaited (ok : Bool)
  /-- the promise of an await is settled: `js_async_generator_resolve_function` -/
  | awaitSettled (isReject : Bool) (v : JSValue)
  /-- the promise of a return is settled: `js_async_generator_resolve_function` -/
  | returnSettled (isReject : Bool) (v : JSValue)

/-- One step; the promises are settled by jobs, when the stack is empty. -/
def State.step (s : State) : Op → Option State
  | .next magic value => if s.frames.head? = some .resumeNext then none else some (next s magic value)
  | .resumeNext =>
    match s.frames with
    | .resumeNext :: frames => resumeNext s frames
    | _ => none
  | .funcReturn ret =>
    match s.frames with
    | .execute :: frames => funcReturn s frames ret
    | _ => none
  | .resolved =>
    match s.frames with
    | .resolve e again :: frames => some { s with
      settled := s.settled ++ [e]
      frames := if again then .resumeNext :: frames else frames }
    | _ => none
  | .awaited ok =>
    match s.frames with
    | .await _ :: frames => some { s with
      awaits := if ok then s.awaits + 1 else s.awaits
      frames := frames }
    | _ => none
  | .returnAwaited ok =>
    match s.frames with
    | .completedReturn id _ :: frames => some { s with
      returning := if ok then some id else none
      frames := frames }
    | _ => none
  | .awaitSettled isReject v =>
    match s.frames, s.awaits with
    | [], awaits + 1 => some { s with
      awaits := awaits
      funcState := ⟨isReject, v, none⟩
      frames := [.resumeNext] }
    | _, _ => none
  | .returnSettled isReject v =>
    match s.frames, s.returning with
    | [], some id =>
      let s := { s with state := .completed, returning := none }
      if isReject then reject s id v [] else resolve s id v true false []
    | _, _ => none

/-- The results that the calls of a stack are delivering. -/
def resolving (frames : List Frame) : List Settlement := frames.filterMap fun
  | .resolve e _ => some e
  | _ => none

/-- The requests leave the queue in the order in which they were made, and the last one is settled
before the next leaves; every one is settled by its own result; and when the generator does not
run and waits for nothing, none is left. -/
structure Served (s : State) : Prop where
  order : s.settled.map Settlement.id ++ (resolving s.frames).map Settlement.id ++
    s.queue.map Request.id = List.range s.made
  one : (resolving s.frames).length ≤ 1
  own : ∀ e ∈ s.settled, e.owner = e.id
  drained : s.frames = [] → s.awaits = 0 → s.state ≠ .awaitingReturn → s.queue = []

def Request.isReturn (r : Request) : Bool := r.completionType = .magicReturn

/-- The requests that a completed generator serves: one, or any number behind a return. -/
def Ready (queue : List Request) : Prop := queue.length ≤ 1 ∨ queue.head?.any Request.isReturn

instance : DecidablePred Ready := fun _ => inferInstanceAs (Decidable (_ ∨ _))

/-- A result is being delivered by the last call. -/
def State.delivering (s : State) : Bool := match s.frames with
  | .resolve .. :: _ => true
  | _ => false

/-- A call that the queue is served after: while a result is delivered nothing is called that is
served at once; the function does not end with more than one other request in the queue, unless
a return is the next; an await does not fail; and when the promise of a return is settled there
is no other request. -/
def Op.Proper (s : State) : Op → Prop
  | .next magic value => s.delivering → s.state = .awaitingReturn ∨
    s.state = .completed ∧ (s.queue ++ [s.request magic value]).head?.any Request.isReturn
  | .funcReturn (.exception _) | .funcReturn (.undefined _) => Ready s.queue.tail
  | .awaited ok => ok
  | .returnSettled .. => s.queue.length = 1
  | _ => True

instance (s : State) : DecidablePred fun op : Op => op.Proper s
  | .next magic value => inferInstanceAs (Decidable (s.delivering → s.state = .awaitingReturn ∨
    s.state = .completed ∧ (s.queue ++ [s.request magic value]).head?.any Request.isReturn))
  | .funcReturn (.exception _) | .funcReturn (.undefined _) =>
    inferInstanceAs (Decidable (Ready s.queue.tail))
  | .funcReturn (.yield _) | .funcReturn (.yieldStar _) | .funcReturn (.await _) =>
    inferInstanceAs (Decidable True)
  | .awaited _ => inferInstanceAs (Decidable (_ = true))
  | .returnSettled .. => inferInstanceAs (Decidable (_ = 1))
  | .resumeNext | .resolved | .returnAwaited _ | .awaitSettled .. => inferInstanceAs (Decidable True)

/-! ## The invariant -/

/-- The request of the promise that a return waits for is the first. -/
inductive Parked : List Frame → List Request → Option ℕ → Prop
  | failed {r q} : Parked [] (r :: q) none
  | waiting {r q} : Parked [] (r :: q) (some r.id)
  | completedReturn {r q v} : Parked [.completedReturn r.id v] (r :: q) none
  | resumeNext {frames q returning} : Parked frames q returning → Parked (.resumeNext :: frames) q returning

/-- What the generator may be doing: its state, the stack, the queue, the awaits, the awaited return
and the request it runs for. -/
inductive Phase : GeneratorState → List Frame → List Request → ℕ → Option ℕ → ℕ → Prop
  /-- nothing, and all requests have been served -/
  | idle {state owner} (h : state ≠ .executing) (h' : state ≠ .awaitingReturn) :
      Phase state [] [] 0 none owner
  /-- the function waits for an await -/
  | awaiting {r q} : Phase .executing [] (r :: q) 1 none r.id
  /-- the function is resumed, runs, or starts to wait -/
  | resuming {r q} : Phase .executing [.resumeNext] (r :: q) 0 none r.id
  | executing {r q} : Phase .executing [.execute] (r :: q) 0 none r.id
  | startAwait {r q v} : Phase .executing [.await v] (r :: q) 0 none r.id
  /-- the first request is served -/
  | starting {r owner} : Phase .suspendedStart [.resumeNext] [r] 0 none owner
  /-- the function has come to a yield, and the loop goes on -/
  | yielding {state e q owner} (h : state = .suspendedYield ∨ state = .suspendedYieldStar) :
      Phase state [.resolve e true] q 0 none owner
  | suspended {state q owner} (h : state = .suspendedYield ∨ state = .suspendedYieldStar) :
      Phase state [.resumeNext] q 0 none owner
  /-- the function has come to its end, and the loop goes on -/
  | finishing {e q owner} (h : Ready q) : Phase .completed [.resolve e true] q 0 none owner
  | completed {q owner} (h : Ready q) : Phase .completed [.resumeNext] q 0 none owner
  /-- the last request is served -/
  | last {e owner} : Phase .completed [.resolve e false] [] 0 none owner
  /-- a return is called in the middle of this -/
  | nested {r q e again owner} (h : r.isReturn) :
      Phase .completed [.resumeNext, .resolve e again] (r :: q) 0 none owner
  /-- the generator waits for a return -/
  | parked {frames q returning owner} (h : Parked frames q returning) :
      Phase .awaitingReturn frames q 0 returning owner
  | parkedResolve {frames q returning owner e again} (h : Parked frames q returning) :
      Phase .awaitingReturn (frames ++ [.resolve e again]) q 0 returning owner

variable {s s' : State} {op : Op} {q : List Request} {r : Request} {e : Settlement}
  {state : GeneratorState} {frames : List Frame} {owner n : ℕ} {returning : Option ℕ}

/-- The phase and the order of the requests. -/
structure Sound (s : State) : Prop where
  phase : Phase s.state s.frames s.queue s.awaits s.returning s.owner
  order : s.settled.map Settlement.id ++ (resolving s.frames).map Settlement.id ++
    s.queue.map Request.id = List.range s.made
  own : ∀ e ∈ s.settled ++ resolving s.frames, e.owner = e.id

theorem sound_initial : Sound State.initial := ⟨.idle nofun nofun, rfl, nofun⟩

theorem Parked.resolving_nil (h : Parked frames q returning) : resolving frames = [] := by
  induction h with
  | failed => rfl
  | waiting => rfl
  | completedReturn => rfl
  | resumeNext _ ih => exact ih

theorem Phase.resolving_length {awaits : ℕ} (h : Phase state frames q awaits returning owner) :
    (resolving frames).length ≤ 1 := by
  cases h with
  | parked h =>
    rw [h.resolving_nil]
    exact Nat.zero_le _
  | parkedResolve h =>
    rw [resolving, List.filterMap_append, ← resolving, h.resolving_nil]
    exact Nat.le_refl _
  | _ => simp [resolving]

/-- A new request. -/
theorem Parked.concat (h : Parked frames q returning) : Parked frames (q ++ [r]) returning := by
  induction h with
  | failed => exact .failed
  | waiting => exact .waiting
  | completedReturn => exact .completedReturn
  | resumeNext _ ih => exact .resumeNext ih

theorem exists_of_head?_any (h : q.head?.any Request.isReturn) : ∃ r q', q = r :: q' ∧ r.isReturn := by
  cases q with
  | nil => cases h
  | cons r q => exact ⟨r, q, rfl, h⟩

variable {value : JSValue}

/-- A call of the generator: where it is not running and does not wait, the queue is served. -/
theorem Phase.next {magic : GenMagic} (hop : (Op.next magic value).Proper s)
    (h : Phase s.state s.frames s.queue s.awaits s.returning s.owner)
    (hframes : s.frames.head? ≠ some .resumeNext) :
    let t := AsyncGenerator.next s magic value
    Phase t.state t.frames t.queue t.awaits t.returning t.owner := by
  obtain ⟨state, queue, funcState, owner, awaits, returning, frames, made, settled⟩ := s
  simp only [AsyncGenerator.next] at *
  cases h with
  | idle hne hne' =>
    cases state with
    | suspendedStart => exact .starting
    | suspendedYield => exact .suspended (.inl rfl)
    | suspendedYieldStar => exact .suspended (.inr rfl)
    | executing => exact absurd rfl hne
    | awaitingReturn => exact absurd rfl hne'
    | completed => exact .completed (.inl (Nat.le_refl 1))
  | awaiting => exact .awaiting
  | executing => exact .executing
  | startAwait => exact .startAwait
  | resuming => exact absurd rfl hframes
  | starting => exact absurd rfl hframes
  | suspended => exact absurd rfl hframes
  | completed => exact absurd rfl hframes
  | nested => exact absurd rfl hframes
  | yielding hstate =>
    obtain rfl | rfl := hstate <;> exact nomatch hop rfl
  | finishing hready =>
    obtain ⟨r, q, heq, hr⟩ := exists_of_head?_any ((hop rfl).resolve_left nofun).2
    rw [heq]
    exact .nested hr
  | last => exact .nested ((hop rfl).resolve_left nofun).2
  | parked h => exact .parked (.resumeNext h.concat)
  | parkedResolve h => exact .parkedResolve (Parked.resumeNext h.concat)

theorem Sound.next {magic : GenMagic} (h : Sound s)
    (hop : (Op.next magic value).Proper s) (hs : s.step (.next magic value) = some s') :
    Sound s' := by
  obtain ⟨hframes, hs⟩ := Option.ite_none_left_eq_some.mp hs
  cases hs
  have hresolving : resolving (AsyncGenerator.next s magic value).frames = resolving s.frames := by
    unfold AsyncGenerator.next
    split <;> rfl
  refine ⟨h.phase.next hop hframes, ?_, ?_⟩
  · rw [hresolving]
    simp only [AsyncGenerator.next, List.map_append, List.range_succ, ← h.order, List.append_assoc]
    rfl
  · rw [hresolving]
    exact h.own

section

variable (h : Sound s) (hresolving : resolving s.frames = []) (hq : s.queue = r :: q) (howner : owner = r.id) (hframes : resolving frames = [])

include h hresolving hq howner hframes

/-- The first request leaves the queue, and its result is delivered. -/
theorem Sound.resolve {again done : Bool}
   
    (hphase : ∀ e, Phase state (.resolve e again :: frames) q s.awaits none s.owner)
    (hs : resolve { s with state := state, returning := none } owner value done again frames =
      some s') : Sound s' := by
  have horder := h.order
  have hown := h.own
  rw [hresolving, hq] at horder
  rw [hresolving, List.append_nil] at hown
  have hnew : ∀ e, resolving (.resolve e again :: frames) = [e] := fun e =>
    congrArg (e :: ·) hframes
  simp only [hq] at hs
  cases hs
  refine ⟨hphase _, ?_, ?_⟩
  · simpa [hnew] using horder
  · rw [hnew]
    intro e he
    obtain he | he := List.mem_append.mp he
    · exact hown e he
    · cases List.mem_singleton.mp he
      exact howner

/-- The first request leaves the queue with an exception. -/
theorem Sound.reject
    (hphase : Phase state frames q s.awaits none s.owner)
    (hs : reject { s with state := state, returning := none } owner value frames = some s') :
    Sound s' := by
  have horder := h.order
  have hown := h.own
  rw [hresolving, hq] at horder
  rw [hresolving, List.append_nil] at hown
  simp only [hq] at hs
  cases hs
  refine ⟨hphase, ?_, ?_⟩
  · simpa [hframes] using horder
  · rw [hframes, List.append_nil]
    intro e he
    obtain he | he := List.mem_append.mp he
    · exact hown e he
    · cases List.mem_singleton.mp he
      exact howner

end

/-- The calls on the stack change, and what they deliver does not. -/
theorem Sound.of_phase (h : Sound s) (hqueue : s'.queue = s.queue) (hmade : s'.made = s.made)
    (hsettled : s'.settled = s.settled) (hframes : resolving s'.frames = resolving s.frames)
    (hphase : Phase s'.state s'.frames s.queue s'.awaits s'.returning s'.owner) : Sound s' := by
  refine ⟨hqueue ▸ hphase, ?_, ?_⟩
  · rw [hqueue, hmade, hsettled, hframes]
    exact h.order
  · rw [hsettled, hframes]
    exact h.own

/-- Where a return is awaited there is a request, and the loop is left. -/
theorem Parked.exists_cons (h : Parked frames q returning) : ∃ r q', q = r :: q' := by
  induction h with
  | failed | waiting | completedReturn => exact ⟨_, _, rfl⟩
  | resumeNext _ ih => exact ih

theorem resumeNext_awaitingReturn (hq : s.queue = r :: q) (hstate : s.state = .awaitingReturn) :
    resumeNext s frames = some { s with frames := frames } := by
  rw [resumeNext, hq]
  simp only [hstate]

section

variable (h : Sound s)

include h

/-- A completed generator serves its first request. -/
theorem Sound.resumeCompleted (hframes : s.frames = [.resumeNext])
    (hstate : s.state = .completed) (hready : Ready s.queue) (hawaits : s.awaits = 0)
    (hreturning : s.returning = none) (hs : resumeNext s [] = some s') : Sound s' := by
  have hresolving : resolving s.frames = [] := by rw [hframes]; rfl
  have hs_eq : s = { s with state := .completed, returning := none } := by
    rw [← hstate, ← hreturning]
  unfold AsyncGenerator.resumeNext at hs
  split at hs
  · rename_i hq
    cases hs
    refine h.of_phase rfl rfl rfl hresolving.symm ?_
    rw [hq, hstate, hawaits, hreturning]
    exact .idle nofun nofun
  · rename_i r q hq
    rw [hq] at hready
    have hlast : ¬r.isReturn → q = [] := fun hnot =>
      List.eq_nil_of_length_eq_zero (Nat.le_zero.mp (Nat.le_of_succ_le_succ
        (hready.resolve_right hnot)))
    simp only [hstate] at hs
    split at hs
    · rename_i htype
      rw [hs_eq] at hs
      refine h.resolve hresolving hq rfl rfl (fun e => ?_) hs
      rw [hlast (by simp [Request.isReturn, htype]), hawaits]
      exact .last
    · cases hs
      refine h.of_phase rfl rfl rfl hresolving.symm ?_
      rw [hq, hawaits, hreturning]
      exact .parked .completedReturn
    · rename_i htype
      rw [hs_eq] at hs
      refine h.reject hresolving hq rfl rfl ?_ hs
      rw [hlast (by simp [Request.isReturn, htype]), hawaits]
      exact .idle nofun nofun

theorem Sound.resumeNext (hs : s.step .resumeNext = some s') : Sound s' := by
  obtain ⟨state, queue, funcState, owner, awaits, returning, frames, made, settled⟩ := s
  have hphase := h.phase
  simp only [State.step] at hs hphase
  cases hphase with
  | idle | awaiting | executing | startAwait | yielding | finishing | last => cases hs
  | resuming =>
    cases hs
    exact h.of_phase rfl rfl rfl rfl .executing
  | starting =>
    simp only [AsyncGenerator.resumeNext] at hs
    split at hs <;> cases hs
    · exact h.of_phase rfl rfl rfl rfl .executing
    · exact h.of_phase rfl rfl rfl rfl (.completed (.inl (Nat.le_refl 1)))
  | suspended hstate =>
    cases queue with
    | nil =>
      cases hs
      refine h.of_phase rfl rfl rfl rfl ?_
      obtain rfl | rfl := hstate <;> exact .idle nofun nofun
    | cons r q =>
      obtain rfl | rfl := hstate <;>
      · cases hs
        exact h.of_phase rfl rfl rfl rfl .executing
  | completed hready => exact h.resumeCompleted rfl rfl hready rfl rfl hs
  | nested hr =>
    have htype := of_decide_eq_true hr
    simp only [AsyncGenerator.resumeNext, htype] at hs
    cases hs
    exact h.of_phase rfl rfl rfl rfl (.parkedResolve .completedReturn)
  | parked hparked =>
    cases hparked with
    | failed | waiting | completedReturn => cases hs
    | resumeNext hparked =>
      obtain ⟨r, q, rfl⟩ := hparked.exists_cons
      cases (resumeNext_awaitingReturn rfl rfl).symm.trans hs
      exact h.of_phase rfl rfl rfl rfl (.parked hparked)
  | parkedResolve hparked =>
    cases hparked with
    | failed | waiting | completedReturn => cases hs
    | resumeNext hparked =>
      obtain ⟨r, q, rfl⟩ := hparked.exists_cons
      cases (resumeNext_awaitingReturn rfl rfl).symm.trans hs
      exact h.of_phase rfl rfl rfl rfl (.parkedResolve hparked)

/-- The function returns to the loop that has resumed it. -/
theorem Sound.funcReturn {ret : FuncRet} (hop : (Op.funcReturn ret).Proper s)
    (hs : s.step (.funcReturn ret) = some s') : Sound s' := by
  obtain ⟨state, queue, funcState, owner, awaits, returning, frames, made, settled⟩ := s
  have hphase := h.phase
  cases hphase with
  | executing =>
    cases ret with
    | exception v => exact h.reject rfl rfl rfl rfl (.completed hop) hs
    | yield v => exact h.resolve rfl rfl rfl rfl (fun _ => .yielding (.inl rfl)) hs
    | yieldStar v => exact h.resolve rfl rfl rfl rfl (fun _ => .yielding (.inr rfl)) hs
    | await v =>
      cases hs
      exact h.of_phase rfl rfl rfl rfl .startAwait
    | undefined v => exact h.resolve rfl rfl rfl rfl (fun _ => .finishing hop) hs
  | parked hparked => cases hparked <;> cases hs
  | parkedResolve hparked => cases hparked <;> cases hs
  | _ => cases hs

/-- A promise is settled with the result that has been delivered. -/
theorem Sound.deliver {again : Bool} (hframes : s.frames = .resolve e again :: frames)
    (hresolving : resolving frames = [])
    (hphase : Phase s.state (if again then .resumeNext :: frames else frames) s.queue s.awaits
      s.returning s.owner) :
    Sound { s with
      settled := s.settled ++ [e]
      frames := if again then .resumeNext :: frames else frames } := by
  have hold : resolving s.frames = [e] := by
    rw [hframes]
    exact congrArg (e :: ·) hresolving
  have hnew : resolving (if again then .resumeNext :: frames else frames) = [] := by
    split <;> exact hresolving
  have horder := h.order
  have hown := h.own
  rw [hold] at horder hown
  refine ⟨hphase, ?_, ?_⟩
  · rw [hnew]
    simpa using horder
  · rw [hnew, List.append_nil]
    exact hown

theorem Sound.resolved (hs : s.step .resolved = some s') : Sound s' := by
  obtain ⟨state, queue, funcState, owner, awaits, returning, frames, made, settled⟩ := s
  have hphase := h.phase
  cases hphase with
  | yielding hstate =>
    cases hs
    exact h.deliver rfl rfl (.suspended hstate)
  | finishing hready =>
    cases hs
    exact h.deliver rfl rfl (.completed hready)
  | last =>
    cases hs
    have hidle : Phase .completed [] [] 0 none owner := .idle nofun nofun
    exact h.deliver rfl rfl hidle
  | parked hparked => cases hparked <;> cases hs
  | parkedResolve hparked =>
    rename_i again
    cases hparked with
    | failed =>
      cases hs
      refine h.deliver rfl rfl (.parked ?_)
      cases again with
      | false => exact .failed
      | true => exact .resumeNext .failed
    | waiting =>
      cases hs
      refine h.deliver rfl rfl (.parked ?_)
      cases again with
      | false => exact .waiting
      | true => exact .resumeNext .waiting
    | _ => cases hs
  | _ => cases hs

theorem Sound.awaited {ok : Bool} (hop : (Op.awaited ok).Proper s)
    (hs : s.step (.awaited ok) = some s') : Sound s' := by
  obtain ⟨state, queue, funcState, owner, awaits, returning, frames, made, settled⟩ := s
  have hphase := h.phase
  obtain rfl : ok = true := hop
  cases hphase with
  | startAwait =>
    cases hs
    exact h.of_phase rfl rfl rfl rfl .awaiting
  | parked hparked => cases hparked <;> cases hs
  | parkedResolve hparked => cases hparked <;> cases hs
  | _ => cases hs

theorem Sound.returnAwaited {ok : Bool}
    (hs : s.step (.returnAwaited ok) = some s') : Sound s' := by
  obtain ⟨state, queue, funcState, owner, awaits, returning, frames, made, settled⟩ := s
  have hphase := h.phase
  cases hphase with
  | parked hparked =>
    cases hparked with
    | completedReturn =>
      cases hs
      refine h.of_phase rfl rfl rfl rfl (.parked ?_)
      cases ok with
      | false => exact .failed
      | true => exact .waiting
    | _ => cases hs
  | parkedResolve hparked =>
    cases hparked with
    | completedReturn =>
      cases hs
      refine h.of_phase rfl rfl rfl rfl (.parkedResolve ?_)
      cases ok with
      | false => exact .failed
      | true => exact .waiting
    | _ => cases hs
  | _ => cases hs

theorem Sound.awaitSettled {isReject : Bool} {v : JSValue}
    (hs : s.step (.awaitSettled isReject v) = some s') : Sound s' := by
  obtain ⟨state, queue, funcState, owner, awaits, returning, frames, made, settled⟩ := s
  have hphase := h.phase
  cases hphase with
  | awaiting =>
    cases hs
    exact h.of_phase rfl rfl rfl rfl .resuming
  | parked hparked => cases hparked <;> cases hs
  | parkedResolve hparked => cases hparked <;> cases hs
  | _ => cases hs

theorem Sound.returnSettled {isReject : Bool} {v : JSValue}
    (hop : (Op.returnSettled isReject v).Proper s)
    (hs : s.step (.returnSettled isReject v) = some s') : Sound s' := by
  obtain ⟨state, queue, funcState, owner, awaits, returning, frames, made, settled⟩ := s
  have hphase := h.phase
  simp only [State.step] at hs hphase
  cases hphase with
  | parked hparked =>
    cases hparked with
    | waiting =>
      obtain rfl := List.eq_nil_of_length_eq_zero (Nat.succ.inj hop)
      simp only at hs
      split at hs
      · have hidle : Phase .completed [] [] 0 none owner := .idle nofun nofun
        exact h.reject rfl rfl rfl rfl hidle hs
      · exact h.resolve rfl rfl rfl rfl (fun _ => .last) hs
    | _ => cases hs
  | parkedResolve hparked => cases hparked <;> cases hs
  | _ => cases hs

theorem Sound.step (hop : op.Proper s) (hs : s.step op = some s') : Sound s' := by
  cases op with
  | next magic value => exact h.next hop hs
  | resumeNext => exact h.resumeNext hs
  | funcReturn ret => exact h.funcReturn hop hs
  | resolved => exact h.resolved hs
  | awaited ok => exact h.awaited hop hs
  | returnAwaited ok => exact h.returnAwaited hs
  | awaitSettled isReject v => exact h.awaitSettled hs
  | returnSettled isReject v => exact h.returnSettled hop hs

/-- Outside the function and the waits no request is left. -/
theorem Sound.drained (hframes : s.frames = []) (hawaits : s.awaits = 0)
    (hstate : s.state ≠ .awaitingReturn) : s.queue = [] := by
  obtain ⟨state, queue, funcState, owner, awaits, returning, frames, made, settled⟩ := s
  have hphase := h.phase
  cases hphase with
  | idle => rfl
  | awaiting => cases hawaits
  | parked | parkedResolve => exact absurd rfl hstate
  | _ => cases hframes

theorem Sound.served : Served s :=
  ⟨h.order, h.phase.resolving_length, fun e he => h.own e (List.mem_append_left _ he), h.drained⟩

end

end QuickJs.AsyncGenerator
