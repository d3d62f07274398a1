import QuickJs.PromiseSettle
import Mathlib.Data.List.Basic

/-!
# The calls of a reaction

Two functions that nothing but one registration knows are called by one job: none while the promise is pending, and
then the function of the settled kind, with the result. A registration counts from the call of `perform_promise_then`,
which may have to wait for the rejection tracker.
-/

namespace QuickJs.Promise

open JSRuntime

variable {s s' t : JSRuntime} {p f : ℕ} {d : JSPromiseData}

/-- Which of the functions at `f` and `f + 1` a value is. -/
def isRejectOf (f : ℕ) (h : JSValue) : Option Bool :=
  if h = .object f then some false else if h = .object (f + 1) then some true else none

/-- The call of one of the functions at `f` and `f + 1` by a job: which one, and its argument. -/
def callOf (f : ℕ) : Job → Option (Bool × JSValue)
  | .reaction rd _ arg => (isRejectOf f rd.handler).map (·, arg)
  | .resolveThenable .. => none

/-- The jobs that were enqueued. -/
def JSRuntime.enqueuedJobs (s : JSRuntime) : List Job := s.enqueued.map Prod.snd

/-- The jobs that have run, or run. -/
def JSRuntime.startedJobs (s : JSRuntime) : List Job := (s.enqueued.take s.started).map Prod.snd

/-- The registration that waits for the rejection tracker. -/
def Frame.registration : Frame → Option (ℕ × Pair JSPromiseReactionData)
  | .handled p rds => some (p, rds)
  | _ => none

/-- The calls of `perform_promise_then`. -/
def JSRuntime.registrationCalls (s : JSRuntime) : List (ℕ × Pair JSPromiseReactionData) :=
  s.registered ++ s.frames.filterMap Frame.registration

/-- A registration knows one of the functions at `f` and `f + 1`. -/
def knows (f : ℕ) (x : ℕ × Pair JSPromiseReactionData) : Bool :=
  (isRejectOf f x.2.fulfill.handler).isSome || (isRejectOf f x.2.reject.handler).isSome

/-- The registration that has the two functions, and no promise depends on it. -/
def reactions (f : ℕ) : Pair JSPromiseReactionData :=
  ⟨⟨⟨.undefined, .undefined⟩, .object f⟩, ⟨⟨.undefined, .undefined⟩, .object (f + 1)⟩⟩

/-- A job that no promise has enqueued calls a `then`. -/
def Traced (s : JSRuntime) : Prop := ∀ e ∈ s.enqueued, e.1 = none → ∀ f, callOf f e.2 = none

/-! ## Steps -/

/-- What a step adds: calls of `perform_promise_then`, and jobs. -/
structure Grows (s s' : JSRuntime) (regs : List (ℕ × Pair JSPromiseReactionData)) : Prop where
  started : s'.started = s.started
  objects : s.objects.length ≤ s'.objects.length
  registrations : s'.registrationCalls.Perm (regs ++ s.registrationCalls)
  enqueued : ∃ js, s'.enqueued = s.enqueued ++ js ∧ ∀ e ∈ js, e.1 = none → ∀ f, callOf f e.2 = none

theorem Grows.refl (s : JSRuntime) : Grows s s [] :=
  ⟨rfl, Nat.le_refl _, .refl _, [], (List.append_nil _).symm, nofun⟩

variable {regs : List (ℕ × Pair JSPromiseReactionData)}

theorem Grows.trans (h : Grows s t []) (h' : Grows t s' regs) : Grows s s' regs where
  started := h'.started.trans h.started
  objects := Nat.le_trans h.objects h'.objects
  registrations := h'.registrations.trans (h.registrations.append_left regs)
  enqueued := by
    obtain ⟨js, hjs, hnone⟩ := h.enqueued
    obtain ⟨js', hjs', hnone'⟩ := h'.enqueued
    refine ⟨js ++ js', by rw [hjs', hjs, List.append_assoc], fun e he => ?_⟩
    obtain he | he := List.mem_append.mp he
    · exact hnone e he
    · exact hnone' e he

/-- A step that makes objects and calls, and neither jobs nor registrations. -/
theorem Grows.of_eq (hstarted : s'.started = s.started) (hobjects : s.objects.length ≤ s'.objects.length)
    (hregs : s'.registrationCalls = s.registrationCalls) (henqueued : s'.enqueued = s.enqueued) : Grows s s' [] :=
  ⟨hstarted, hobjects, .of_eq hregs, [], by rw [henqueued, List.append_nil], nofun⟩

theorem grows_push {fr : Frame} (h : fr.registration = none) : Grows s (s.push fr) [] :=
  .of_eq rfl (Nat.le_refl _) (congrArg (s.registered ++ ·) (List.filterMap_cons_none h)) rfl

theorem grows_newObject (s : JSRuntime) (o : JSObject) : Grows s (s.newObject o) [] :=
  .of_eq rfl (by rw [newObject, List.length_append]; exact Nat.le_add_right _ _) rfl rfl

theorem grows_createResolvingFunctions (s : JSRuntime) (p : ℕ) : Grows s (s.jsCreateResolvingFunctions p) [] :=
  .of_eq rfl (by rw [jsCreateResolvingFunctions, List.length_append]; exact Nat.le_add_right _ _) rfl rfl

theorem grows_setPromise (s : JSRuntime) (p : ℕ) (d : JSPromiseData) : Grows s (s.setPromise p d) [] :=
  .of_eq rfl (Nat.le_of_eq List.length_set.symm) rfl rfl

theorem grows_drain (s : JSRuntime) (p : ℕ) (v : JSValue) (b : Bool) : Grows s (s.drain p v b) [] := by
  cases hp : s.promise p with
  | none =>
    rw [drain, hp]
    exact .refl s
  | some d =>
    rw [drain_eq hp]
    refine ⟨rfl, Nat.le_of_eq List.length_set.symm, ?_, _, rfl, fun e he hnone => ?_⟩
    · rw [JSRuntime.update, List.map_nil, List.append_nil]
      exact .refl _
    · obtain ⟨job, -, rfl⟩ := List.mem_map.mp he
      cases hnone

theorem grows_fulfillOrRejectPromise (s : JSRuntime) (p : ℕ) (v : JSValue) (b : Bool) :
    Grows s (s.fulfillOrRejectPromise p v b) [] := by
  unfold fulfillOrRejectPromise
  split
  · exact .refl s
  · dsimp only
    split
    · split
      · exact (grows_setPromise s p _).trans (grows_push rfl)
      · exact (grows_setPromise s p _).trans (grows_drain _ p v b)
    · exact .refl s

theorem grows_jsCall (s : JSRuntime) (g : JSValue) (arg : Option JSValue) : Grows s (s.jsCall g arg) [] := by
  have hflag : ∀ r, Grows s { s with alreadyResolved := s.alreadyResolved.set r true } [] := fun _ =>
    .of_eq rfl (Nat.le_refl _) rfl rfl
  unfold jsCall
  split
  · split
    · rename_i r _
      unfold jsPromiseResolveFunctionCall
      split
      · exact .refl s
      · refine (hflag r).trans ?_
        split
        · split
          · exact (grows_newObject _ _).trans (grows_fulfillOrRejectPromise ..)
          · exact grows_push rfl
        · exact grows_fulfillOrRejectPromise ..
    · exact .refl s
  · exact .refl s

theorem grows_resolveWithThen (s : JSRuntime) (p : ℕ) (v : JSValue) (c : Completion) :
    Grows s (s.resolveWithThen p v c) [] := by
  cases c with
  | exception error => exact grows_fulfillOrRejectPromise ..
  | value w =>
    rw [resolveWithThen]
    split
    · refine ⟨rfl, Nat.le_refl _, .refl _, [(none, .resolveThenable p v w)], rfl, fun e he _ f => ?_⟩
      cases List.mem_singleton.mp he
      rfl
    · exact grows_fulfillOrRejectPromise ..

theorem grows_reactionJobReturn (s : JSRuntime) (funcs : Pair JSValue) (c : Completion) :
    Grows s (s.reactionJobReturn funcs c) [] := by
  unfold reactionJobReturn
  split
  split
  · exact .refl s
  · exact (grows_push rfl).trans (grows_jsCall ..)

theorem grows_jsPromiseConstructor (s : JSRuntime) : Grows s s.jsPromiseConstructor [] :=
  ((grows_newObject s _).trans (grows_createResolvingFunctions ..)).trans (grows_push rfl)

variable {rds : Pair JSPromiseReactionData} {b : Bool}

/-- The rejection tracker returns, and the registration is made. -/
theorem grows_handled {frames : List Frame}
    (hframes : s.frames = .handled p rds :: frames)
    (hp : s.promise p = some d) : Grows s ({ s with frames := frames }.thenSettled p rds) [] := by
  have hp' : JSRuntime.promise { s with frames := frames } p = some d := hp
  rw [thenSettled, hp']
  refine ⟨rfl, Nat.le_of_eq List.length_set.symm, .of_eq ?_, [(some p, d.reactionJob rds)], rfl, fun e he hnone => ?_⟩
  · rw [registrationCalls, registrationCalls, hframes]
    exact List.append_assoc s.registered [(p, rds)] _
  · cases List.mem_singleton.mp he
    cases hnone

theorem grows_ret {c : Completion} (hi : s.Inv) (h : s.ret c = some s') : Grows s s' [] := by
  unfold JSRuntime.ret at h
  split at h
  · cases h
  · rename_i fr frames hframes
    have hok : s.FrameOk fr := hi.frames fr (hframes ▸ List.mem_cons_self)
    have hpop : fr.registration = none → Grows s { s with frames := frames } [] := fun hfr =>
      .of_eq rfl (Nat.le_refl _) (by rw [registrationCalls, registrationCalls, hframes,
        List.filterMap_cons_none hfr]) rfl
    rw [← Option.some.inj h]
    split
    · exact (hpop rfl).trans (grows_jsCall ..)
    · exact (hpop rfl).trans (grows_jsCall ..)
    · exact hpop rfl
    · exact hpop rfl
    · exact hpop rfl
    · exact (hpop rfl).trans (grows_reactionJobReturn ..)
    · exact (hpop rfl).trans (grows_resolveWithThen ..)
    · exact (hpop rfl).trans (grows_drain ..)
    · obtain ⟨d, hd, -⟩ := hok
      exact grows_handled hframes hd

/-- `perform_promise_then` is called with two functions. -/
theorem grows_performPromiseThen {rr cap : Pair JSValue} (h : s.performPromiseThen p rr cap = some s') :
    Grows s s' [(p, ⟨⟨cap, s.reactionHandler rr.fulfill⟩, ⟨cap, s.reactionHandler rr.reject⟩⟩)] := by
  unfold performPromiseThen at h
  split at h
  · cases h
  · rename_i d hp
    split at h
    · cases h
      refine ⟨rfl, Nat.le_of_eq List.length_set.symm, ?_, [], (List.append_nil _).symm, nofun⟩
      exact (List.perm_append_singleton _ _).append_right _
    · split at h
      · cases h
        refine ⟨rfl, Nat.le_refl _, ?_, [], (List.append_nil _).symm, nofun⟩
        exact List.perm_middle
      · cases h
        rw [thenSettled, hp]
        refine ⟨rfl, Nat.le_of_eq List.length_set.symm, ?_, [(some p, _)], rfl, fun e he hnone => ?_⟩
        · exact (List.perm_append_singleton _ _).append_right _
        · cases List.mem_singleton.mp he
          cases hnone

/-- A step of the program that starts no job, with the registration that it may make. -/
theorem grows_step {o : Op} (hi : s.Inv) (ho : o ≠ .executePendingJob) (h : step s o = some s') :
    ∃ regs, Grows s s' regs ∧ ∀ x ∈ regs, ∃ p rr cap, o = .then_ p rr cap ∧
      x = (p, ⟨⟨cap, s.reactionHandler rr.fulfill⟩, ⟨cap, s.reactionHandler rr.reject⟩⟩) := by
  cases o with
  | newPromise => exact ⟨[], Option.some.inj h ▸ grows_jsPromiseConstructor s, nofun⟩
  | newObject callable => exact ⟨[], Option.some.inj h ▸ grows_newObject s _, nofun⟩
  | call g arg => exact ⟨[], Option.some.inj h ▸ grows_jsCall s g arg, nofun⟩
  | then_ p rr cap =>
    exact ⟨_, grows_performPromiseThen h, fun x hx => ⟨p, rr, cap, rfl, List.mem_singleton.mp hx⟩⟩
  | executePendingJob => exact absurd rfl ho
  | ret c => exact ⟨[], grows_ret hi h, nofun⟩

/-- A job starts, and runs until the program does. -/
theorem grows_jsExecutePendingJob (h : s.jsExecutePendingJob = some s') :
    ∃ job jobs, s.jobList = job :: jobs ∧ Grows { s with jobList := jobs, started := s.started + 1 } s' [] := by
  unfold jsExecutePendingJob at h
  split at h
  · cases h
  · rename_i job jobs hjobs
    refine ⟨job, jobs, hjobs, ?_⟩
    split at h
    · rw [← Option.some.inj h]
      unfold promiseReactionJob
      split
      · exact grows_reactionJobReturn ..
      · exact (grows_push rfl).trans (grows_jsCall ..)
    · rw [← Option.some.inj h]
      exact ((grows_createResolvingFunctions ..).trans (grows_push rfl)).trans (grows_jsCall ..)

theorem Grows.traced (h : Grows s s' regs) (ht : Traced s) : Traced s' := by
  obtain ⟨js, hjs, hnone⟩ := h.enqueued
  intro e he
  rw [hjs] at he
  obtain he | he := List.mem_append.mp he
  · exact ht e he
  · exact hnone e he

/-- What has been started stays the same while jobs are enqueued. -/
theorem Grows.startedJobs (h : Grows s s' regs)
    (hle : s.started ≤ s.enqueued.length) : s'.startedJobs = s.startedJobs := by
  obtain ⟨js, hjs, -⟩ := h.enqueued
  rw [JSRuntime.startedJobs, JSRuntime.startedJobs, hjs, h.started, List.take_append_of_le_length hle]

/-! ## The call of a function -/

theorem isRejectOf_eq_some {h : JSValue} :
    isRejectOf f h = some b ↔ h = .object (if b then f + 1 else f) := by
  unfold isRejectOf
  cases b <;> grind

/-- The handlers of a registration that knows the functions. -/
theorem knows_of_get
    (h : (isRejectOf f (rds.get b).handler).isSome = true) :
    knows f (p, rds) = true := by
  cases b with
  | false => exact (Bool.or_eq_true ..).mpr (.inl h)
  | true => exact (Bool.or_eq_true ..).mpr (.inr h)

theorem knows_reactions (p f : ℕ) : knows f (p, reactions f) = true := by
  have hreject : isRejectOf f (.object f) = some false := isRejectOf_eq_some.mpr rfl
  exact knows_of_get (b := false) (Option.isSome_of_eq_some hreject)

/-- The call of the job of a registration. -/
theorem callOf_reactionJob (d : JSPromiseData) (rds : Pair JSPromiseReactionData) :
    callOf f (d.reactionJob rds) =
      (isRejectOf f (rds.get (d.promiseState = .rejected)).handler).map (·, d.promiseResult) := rfl

theorem callOf_reactions (d : JSPromiseData) :
    callOf f (d.reactionJob (reactions f)) = some (decide (d.promiseState = .rejected), d.promiseResult) := by
  rw [callOf_reactionJob]
  have hget : isRejectOf f ((reactions f).get (d.promiseState = .rejected)).handler =
      some (decide (d.promiseState = .rejected)) := by
    rw [isRejectOf_eq_some]
    cases decide (d.promiseState = .rejected) <;> rfl
  rw [hget]
  rfl

/-- The functions are known to one call of `perform_promise_then`. -/
def Known (s : JSRuntime) (p f : ℕ) : Prop := s.registrationCalls.filter (knows f) = [(p, reactions f)]

theorem Known.registered (h : Known s p f) :
    s.registered.filter (knows f) = [] ∨ s.registered.filter (knows f) = [(p, reactions f)] := by
  rw [Known, registrationCalls, List.filter_append] at h
  cases hreg : s.registered.filter (knows f) with
  | nil => exact .inl rfl
  | cons x xs =>
    rw [hreg, List.cons_append, List.cons.injEq, List.append_eq_nil_iff] at h
    exact .inr (by rw [h.1, h.2.1])

/-- Only the promise of the registration enqueues a job that calls the functions. -/
theorem Known.of_call (h : Known s p f) (hi : s.Inv) (ht : Traced s) {e : Option ℕ × Job} (he : e ∈ s.enqueued)
    (hcall : (callOf f e.2).isSome = true) :
    e.1 = some p ∧ ∃ d, s.promise p = some d ∧ d.promiseState ≠ .pending ∧ e.2 = d.reactionJob (reactions f) := by
  obtain ⟨o, job⟩ := e
  cases o with
  | none =>
    rw [ht _ he rfl] at hcall
    cases hcall
  | some q =>
    have hjob : job ∈ s.jobs q := List.mem_filterMap.mpr ⟨_, he, if_pos rfl⟩
    cases hq : s.promise q with
    | none =>
      rw [(hi.absent q hq).2] at hjob
      cases hjob
    | some d =>
      have hlawful := hi.lawful q d hq
      by_cases hpending : d.promiseState = .pending
      · rw [(hlawful.pending hpending).1] at hjob
        cases hjob
      · rw [(hlawful.settled hpending).1] at hjob
        obtain ⟨rds, hrds, rfl⟩ := List.mem_map.mp hjob
        rw [callOf_reactionJob, Option.isSome_map] at hcall
        obtain ⟨x, hx, hxq⟩ := List.mem_filterMap.mp hrds
        split at hxq
        · rename_i heq
          cases hxq
          have hmem : x ∈ s.registrationCalls.filter (knows f) :=
            List.mem_filter.mpr ⟨List.mem_append_left _ hx, knows_of_get hcall⟩
          rw [h, List.mem_singleton] at hmem
          subst hmem
          subst heq
          exact ⟨rfl, d, hq, hpending, rfl⟩
        · cases hxq

/-- Before the promise is settled nothing calls the functions. -/
theorem Known.calls_of_pending (h : Known s p f) (hi : s.Inv) (ht : Traced s)
    (hpending : ∀ d, s.promise p = some d → d.promiseState = .pending) : s.enqueuedJobs.filterMap (callOf f) = [] := by
  refine List.filterMap_eq_nil_iff.mpr fun job hjob => ?_
  obtain ⟨e, he, rfl⟩ := List.mem_map.mp hjob
  by_contra hne
  obtain ⟨-, d, hd, hsettled, -⟩ := h.of_call hi ht he (Option.isSome_iff_ne_none.mpr hne)
  exact hsettled (hpending d hd)

/-- The jobs that call the functions are those of the promise. -/
theorem Known.calls_eq (h : Known s p f) (hi : s.Inv) (ht : Traced s) :
    s.enqueuedJobs.filterMap (callOf f) = (s.jobs p).filterMap (callOf f) := by
  rw [enqueuedJobs, List.filterMap_map, JSRuntime.jobs, List.filterMap_filterMap]
  refine List.filterMap_congr fun e he => ?_
  by_cases hcall : (callOf f e.2).isSome = true
  · rw [if_pos (h.of_call hi ht he hcall).1]
    rfl
  · rw [Option.not_isSome_iff_eq_none] at hcall
    rw [Function.comp_apply, hcall]
    split
    · exact hcall.symm
    · rfl

/-- Once it is settled, one job calls one of them, if the registration is made. -/
theorem Known.calls_of_settled (h : Known s p f) (hi : s.Inv) (ht : Traced s) (hd : s.promise p = some d)
    (hne : d.promiseState ≠ .pending) : s.enqueuedJobs.filterMap (callOf f) =
      if (p, reactions f) ∈ s.registered then [(decide (d.promiseState = .rejected), d.promiseResult)] else [] := by
  rw [h.calls_eq hi ht, ((hi.lawful p d hd).settled hne).1, List.filterMap_map, JSRuntime.registrations,
    List.filterMap_filterMap]
  have hfilter :
      s.registered.filterMap (fun x => (if x.1 = p then some x.2 else none).bind (callOf f ∘ d.reactionJob)) =
      (s.registered.filter (knows f)).filterMap fun x =>
        (if x.1 = p then some x.2 else none).bind (callOf f ∘ d.reactionJob) := by
    rw [List.filterMap_filter]
    refine List.filterMap_congr fun x _ => ?_
    by_cases hknows : knows f x = true
    · rw [if_pos hknows]
    · split
      · rw [Option.bind_some, Function.comp_apply, callOf_reactionJob]
        by_contra hne
        rw [← ne_eq, ← Option.isSome_iff_ne_none, Option.isSome_map] at hne
        exact hknows (knows_of_get hne)
      · rfl
  rw [hfilter]
  have hmem : (p, reactions f) ∈ s.registered ↔ (p, reactions f) ∈ s.registered.filter (knows f) := by
    rw [List.mem_filter, and_iff_left (knows_reactions p f)]
  obtain hreg | hreg := h.registered
  · rw [hreg, if_neg fun hin => by rw [hmem, hreg] at hin; cases hin]
    rfl
  · rw [hreg, if_pos (by rw [hmem, hreg]; exact List.mem_singleton_self _), List.filterMap_cons, if_pos rfl,
      Option.bind_some, Function.comp_apply, callOf_reactions]
    rfl

/-- No two jobs call the functions. -/
theorem Known.calls_length (h : Known s p f) (hi : s.Inv) (ht : Traced s) :
    (s.enqueuedJobs.filterMap (callOf f)).length ≤ 1 := by
  by_cases hpending : ∀ d, s.promise p = some d → d.promiseState = .pending
  · rw [h.calls_of_pending hi ht hpending]
    exact Nat.zero_le 1
  · push Not at hpending
    obtain ⟨d, hd, hne⟩ := hpending
    rw [h.calls_of_settled hi ht hd hne]
    split
    · exact Nat.le_refl 1
    · exact Nat.zero_le 1

end QuickJs.Promise
