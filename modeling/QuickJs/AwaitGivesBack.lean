import QuickJs.AsyncFunction
import QuickJs.AsyncGeneratorAwait

/-!
# Awaits give control back

In a run in which the promise of every await can be made and the frame runs when a job calls it, an async function or an
async generator goes on once from each await, with the result of the promise. Where a lookup throws it does not.
-/

namespace QuickJs.AsyncGenerator.Await

open Promise JSRuntime Awaits Run

variable {s s' : State} {g : AsyncGenerator.State}

/-! ## Steps of the generator -/

/-- Who has the frame does not depend on the promises. -/
theorem Control.of_body {b : Body} (h : Control s) (hat : b.atAwait = s.body.atAwait) (hopen : s.body.Open → b.Open) :
    Control { s with body := b } := by
  cases h with
  | idle hserves hat' => exact .idle hserves (hat.trans hat')
  | running hexec hbeside hat' => exact .running hexec hbeside (hat.trans hat')
  | starting hexec hbeside hat' hopen' => exact .starting hexec hbeside (hat.trans hat') (hopen hopen')
  | waiting hexec hbeside hat' => exact .waiting hexec hbeside (hat.trans hat')

section

variable (hi : Inv s)

include hi

theorem Inv.next {magic : GenMagic} {value : AsyncGenerator.JSValue}
    (h : s.gen.step (.next magic value) = some g) : Inv { s with gen := g } := by
  unfold AsyncGenerator.State.step at h
  dsimp only at h
  split at h
  · cases h
  · rename_i hhead
    cases h
    have hqueue : s.gen.queue ++ [s.gen.request magic value] ≠ [] :=
        List.append_ne_nil_of_right_ne_nil _ (List.cons_ne_nil _ _)
    have hsame : s.gen.state = .executing →
        (AsyncGenerator.next s.gen magic value).frames = s.gen.frames := fun hstate => if_pos hstate
    refine ⟨hi.body, hi.sound, ?_, ?_⟩
    · cases hi.control with
      | idle hserves hat =>
        obtain ⟨fs, heq | heq, hbeside⟩ := hserves.frames
        · have hframes : (AsyncGenerator.next s.gen magic value).frames = .resumeNext :: fs := by
            rw [AsyncGenerator.next, if_neg hserves.state, heq]
          exact .idle (.of_resumeNext hserves.state hserves.awaits hframes hbeside) hat
        · rw [heq] at hhead
          exact absurd rfl hhead
      | running hexec hbeside hat =>
        exact .running ⟨hexec.state, hexec.awaits, (hsame hexec.state).trans hexec.frames, hqueue⟩ hbeside hat
      | starting hexec hbeside hat hopen =>
        exact .starting ⟨hexec.state, hexec.awaits, (hsame hexec.state).trans hexec.frames, hqueue⟩ hbeside hat hopen
      | waiting hexec hbeside hat =>
        exact .waiting ⟨hexec.state, hexec.awaits, (hsame hexec.state).trans hexec.frames, hqueue⟩ hbeside hat
    · refine hi.ended.of_le rfl (fun id v hin => ?_) id
      rw [AsyncGenerator.next] at hin
      split at hin
      · exact hin
      · exact mem_push hin (by simp)

theorem Inv.turn {refused : Option AsyncGenerator.JSValue} (h : s.turn refused = some s') : Inv s' := by
  obtain ⟨g, hg, h⟩ := Option.bind_eq_some_iff.mp h
  unfold AsyncGenerator.State.step at hg
  dsimp only at hg
  split at hg
  · rename_i fs hframes
    obtain ⟨hstate, hawaits, hat, hbeside⟩ := hi.control.of_resumeNext hframes
    have hover := hi.ended.turn hframes hg
    rw [hframes, List.tail_cons] at h
    obtain ⟨hserves, hne⟩ | hexec := turn_cases hstate hawaits hbeside hg
    · rw [if_neg hne] at h
      cases h
      exact ⟨hi.body, hi.sound, .idle hserves hat, hover⟩
    · rw [if_pos hexec.frames] at h
      cases refused with
      | some error =>
        obtain ⟨g', hg', rfl⟩ := Option.map_eq_some_iff.mp h
        rw [AsyncGenerator.State.step, hexec.frames] at hg'
        obtain ⟨hserves, hover'⟩ := funcReturn_serves rfl hexec.awaits hbeside hexec.state hover hexec.frames hg'
        exact ⟨hi.body, hi.sound, .idle hserves hat, hover'⟩
      | none =>
        dsimp only at h
        rw [hat] at h
        cases h
        exact ⟨hi.body.of_awaits rfl fun a ha _ _ hw => ⟨a, ha, hw⟩, hi.sound.of_away hat rfl rfl rfl,
          .running hexec hbeside rfl, hover⟩
  · cases hg

theorem Inv.funcReturn {ret : FuncRet} {pc : ℕ} {sp : List Promise.JSValue} (hret : isAwait ret = false)
    (h : s.gen.step (.funcReturn ret) = some g) :
    Inv ⟨g, { s.body with funcState := s.body.funcState.exit pc sp }⟩ := by
  unfold AsyncGenerator.State.step at h
  dsimp only at h
  split at h
  · rename_i fs hframes
    obtain ⟨hexec, hat, hbeside⟩ := hi.control.of_execute hframes
    obtain ⟨hserves, hover⟩ := funcReturn_serves hret hexec.awaits hbeside hexec.state hi.ended hframes h
    exact ⟨hi.body.of_awaits rfl fun a ha _ _ hw => ⟨a, ha, hw⟩, hi.sound.of_away hat rfl rfl hat,
      .idle hserves hat, hover⟩
  · cases h

theorem Inv.await {pc : ℕ} {v : Promise.JSValue} {rest : List Promise.JSValue}
    (h : s.gen.step (.funcReturn (.await .undefined)) = some g) : Inv ⟨g, s.body.await pc v rest⟩ := by
  unfold AsyncGenerator.State.step at h
  dsimp only at h
  split at h
  · rename_i fs hframes
    obtain ⟨hexec, hat, hbeside⟩ := hi.control.of_execute hframes
    cases h
    obtain ⟨hinv, hsound, hat'⟩ := hi.body.await hi.sound hat pc v rest
    refine ⟨hinv, hsound, .starting ⟨hexec.state, hexec.awaits, rfl, hexec.queue⟩ hbeside hat' (open_await _ _ _ _), ?_⟩
    exact hi.ended.of_le rfl (fun id v hin => hframes ▸ .tail _ (mem_push hin nofun)) id
  · cases h

theorem Inv.gotConstructor {ctor : Promise.JSValue} {b : Body} (h : s.body.gotConstructor ctor = some b) :
    Inv { s with body := b } := by
  obtain ⟨hinv, hsound, hat⟩ := hi.body.gotConstructor hi.sound h
  exact ⟨hinv, hsound, hi.control.of_body hat fun _ => open_gotConstructor h, hi.ended⟩

theorem Inv.register {b : Body} (hg : s.gen.step (.awaited true) = some g)
    (hb : s.body.register = some b) :
    Inv ⟨g, b⟩ := by
  unfold AsyncGenerator.State.step at hg
  dsimp only at hg
  split at hg
  · rename_i fs hframes
    obtain ⟨hexec, hat, hbeside⟩ := hi.control.of_await hframes
    cases hg
    obtain ⟨hinv, hsound, hat'⟩ := hi.body.register hi.sound hb
    refine ⟨hinv, hsound, .waiting ⟨hexec.state, ?_, rfl, hexec.queue⟩ hbeside (hat'.trans hat), ?_⟩
    · rw [if_pos rfl, hexec.awaits]
    · exact hi.ended.of_le rfl (fun id v hin => hframes ▸ .tail _ hin) id
  · cases hg

/-- The delivery of a result is over. -/
theorem Inv.resolved (hok : Op.Succeeds s .resolved) (h : s.gen.step .resolved = some g) :
    Inv { s with gen := g } := by
  unfold AsyncGenerator.State.step at h
  dsimp only at h
  split at h
  · rename_i e again fs hframes
    obtain ⟨hcontrol, hbeside⟩ := hi.control.of_beside hframes trivial
    cases h
    refine ⟨hi.body, hi.sound, ?_, hi.ended.of_le rfl (fun id v hin => hframes ▸ .tail _ ?_) id⟩
    · cases again with
      | false =>
        obtain ⟨hserves, hat⟩ | ⟨hexec, hat⟩ := hcontrol
        · exact .idle (.of_frames hserves.state hserves.awaits rfl hbeside) hat
        · exact .waiting ⟨hexec.state, hexec.awaits, rfl, hexec.queue⟩ hbeside hat
      | true =>
        obtain ⟨hserves, hat⟩ | ⟨hexec, hat⟩ := hcontrol
        · exact .idle (.of_resumeNext hserves.state hserves.awaits rfl hbeside) hat
        · exact absurd hexec.state (hok e fs hframes)
    · split at hin
      · exact mem_push hin nofun
      · exact hin
  · cases h

theorem Inv.returnAwaited {ok : Bool} (h : s.gen.step (.returnAwaited ok) = some g) :
    Inv { s with gen := g } := by
  unfold AsyncGenerator.State.step at h
  dsimp only at h
  split at h
  · rename_i id v fs hframes
    obtain ⟨hcontrol, hbeside⟩ := hi.control.of_beside hframes trivial
    have hover := hi.ended (.inl ⟨id, v, hframes ▸ List.mem_cons_self⟩)
    cases h
    refine ⟨hi.body, hi.sound, ?_, fun _ => hover⟩
    obtain ⟨hserves, hat⟩ | ⟨hexec, hat⟩ := hcontrol
    · exact .idle (.of_frames hserves.state hserves.awaits rfl hbeside) hat
    · exact .waiting ⟨hexec.state, hexec.awaits, rfl, hexec.queue⟩ hbeside hat
  · cases h

theorem Inv.returnSettled {isReject : Bool} {v : AsyncGenerator.JSValue}
    (h : s.gen.step (.returnSettled isReject v) = some g) : Inv { s with gen := g } := by
  unfold AsyncGenerator.State.step at h
  dsimp only at h
  split at h
  · rename_i id hframes hreturning
    -- the generator is over, so that the frame does not run
    have hover := hi.ended (.inr (by rw [hreturning]; nofun))
    have hne : s.gen.state ≠ .executing := by
      obtain hover | hover := hover <;> rw [hover] <;> nofun
    have hidle : s.gen.awaits = 0 ∧ s.body.atAwait = false := by
      cases hi.control with
      | idle hserves hat => exact ⟨hserves.awaits, hat⟩
      | running hexec | starting hexec | waiting hexec => exact absurd hexec.state hne
    split at h
    · obtain ⟨hst, haw, -, hfr⟩ := reject_eq h
      exact ⟨hi.body, hi.sound, .idle (.of_frames (by rw [hst]; nofun) (haw.trans hidle.1) hfr nofun) hidle.2,
        fun _ => .inr hst⟩
    · obtain ⟨hst, haw, -, e, hfr⟩ := resolve_eq h
      refine ⟨hi.body, hi.sound, .idle (.of_frames (by rw [hst]; nofun) (haw.trans hidle.1) hfr ?_) hidle.2,
        fun _ => .inr hst⟩
      exact List.forall_mem_singleton.mpr trivial
  · cases h

end

/-! ## Jobs -/

theorem exists_job {rt : JSRuntime} (h : rt.jobList ≠ []) : ∃ rt', rt.jsExecutePendingJob = some rt' := by
  rw [jsExecutePendingJob]
  split
  · exact absurd ‹_› h
  · split <;> exact ⟨_, rfl⟩

/-- A job that calls the frame finds it waiting, and restarts the loop there. -/
theorem Inv.called {rt : JSRuntime} {isReject : Bool} {arg : Promise.JSValue} (hi : Inv s)
    (hexec : s.body.rt.jsExecutePendingJob = some rt) (hcall : s.body.nextCall = some (isReject, arg))
    (hframes : s.gen.frames = []) :
    ∃ s', State.resolveFunction { s with body := { s.body with rt := rt } } isReject arg none = some s' ∧ Inv s' := by
  obtain ⟨hat, hopen, b₁, b₂, hdeliver, hat₁, henter, hinv, hsound, hat₂⟩ := hi.body.called hi.sound hexec hcall
  have hover := hi.ended
  obtain ⟨⟨state, queue, funcState, owner, awaits, returning, frames, made, settled⟩, body⟩ := s
  cases hi.control with
  | idle _ hat' | running _ _ hat' => exact absurd (hat.symm.trans hat') nofun
  | starting _ _ _ hopen' => exact absurd hopen' hopen
  | @waiting fs hwaiting hbeside _ =>
    obtain ⟨hstate, hawaits, -, hqueue⟩ := hwaiting
    subst hframes hstate hawaits
    obtain ⟨r, q, rfl⟩ := List.exists_cons_of_ne_nil hqueue
    refine ⟨⟨⟨.executing, r :: q, ⟨isReject, .undefined, none⟩, owner, 0, returning, [.execute], made, settled⟩,
      b₂⟩, ?_, hinv, hsound, .running ⟨rfl, rfl, rfl, List.cons_ne_nil r q⟩ nofun hat₂, ?_⟩
    · rw [State.resolveFunction, hdeliver]
      change ((if b₁.atAwait then b₁.enter.map fun b => _ else _) : Option State) = _
      rw [hat₁, henter]
      rfl
    · refine hover.of_le rfl (fun id v hin => ?_) id
      exact mem_push hin nofun

/-- A job that calls the frame when nothing of the generator is on the stack. -/
theorem Inv.runs (hi : Inv s) (hjobs : s.body.rt.jobList ≠ []) (hframes : s.gen.frames = []) :
    ∃ s', s.job none = some s' ∧ Inv s' := by
  obtain ⟨rt, hexec⟩ := exists_job hjobs
  rw [State.job, hexec]
  cases hcall : s.body.nextCall with
  | none =>
    obtain ⟨hinv, hsound⟩ := hi.body.other_job hi.sound hexec hcall
    exact ⟨_, rfl, hinv, hsound, hi.control.of_body rfl fun hopen a as => hopen a as, hi.ended⟩
  | some c => exact hi.called hexec hcall hframes

theorem Inv.job {refusal : Option Refusal} (hi : Inv s) (hok : Op.Succeeds s (.job refusal))
    (h : s.job refusal = some s') :
    Inv s' := by
  obtain ⟨rt, hexec, h⟩ := Option.bind_eq_some_iff.mp h
  cases hcall : s.body.nextCall with
  | none =>
    rw [hcall] at h
    cases h
    obtain ⟨hinv, hsound⟩ := hi.body.other_job hi.sound hexec hcall
    exact ⟨hinv, hsound, hi.control.of_body rfl fun hopen a as => hopen a as, hi.ended⟩
  | some c =>
    cases hok (hcall ▸ nofun)
    rw [hcall] at h
    have hframes : s.gen.frames = [] := by
      obtain ⟨g, hg, -⟩ := Option.bind_eq_some_iff.mp h
      unfold AsyncGenerator.State.step at hg
      dsimp only at hg
      split at hg
      · assumption
      · cases hg
    obtain ⟨t, ht, hinv⟩ := hi.called hexec hcall hframes
    cases ht.symm.trans h
    exact hinv

theorem Inv.step {o : Op} (hi : Inv s) (hallowed : o.Allowed s) (hok : o.Succeeds s)
    (h : s.step o = some s') : Inv s' := by
  cases o with
  | program o =>
    obtain ⟨rt, hrt, rfl⟩ := Option.map_eq_some_iff.mp h
    have hquiet := hi.body.quiet_step hallowed hrt
    exact ⟨hi.body.quiet hquiet, hi.sound.congr (hquiet.startedJobs hi.body),
      hi.control.of_body rfl fun hopen a as => hopen a as, hi.ended⟩
  | next magic value =>
    obtain ⟨g, hg, rfl⟩ := Option.map_eq_some_iff.mp h
    exact hi.next hg
  | resumeNext refused => exact hi.turn h
  | funcReturn ret pc sp =>
    unfold State.step at h
    dsimp only at h
    split at h
    · cases h
    · rename_i hret
      obtain ⟨g, hg, rfl⟩ := Option.map_eq_some_iff.mp h
      exact hi.funcReturn (Bool.not_eq_true _ ▸ hret) hg
  | await pc v rest =>
    obtain ⟨g, hg, rfl⟩ := Option.map_eq_some_iff.mp h
    exact hi.await hg
  | gotConstructor ctor =>
    obtain ⟨b, hb, rfl⟩ := Option.map_eq_some_iff.mp h
    exact hi.gotConstructor hb
  | raise error => exact hok.elim
  | register =>
    obtain ⟨g, hg, h⟩ := Option.bind_eq_some_iff.mp h
    obtain ⟨b, hb, rfl⟩ := Option.map_eq_some_iff.mp h
    exact hi.register hg hb
  | resolved =>
    obtain ⟨g, hg, rfl⟩ := Option.map_eq_some_iff.mp h
    exact hi.resolved hok hg
  | returnAwaited ok =>
    obtain ⟨g, hg, rfl⟩ := Option.map_eq_some_iff.mp h
    exact hi.returnAwaited hg
  | returnSettled isReject v =>
    obtain ⟨g, hg, rfl⟩ := Option.map_eq_some_iff.mp h
    exact hi.returnSettled hg
  | job refusal => exact hi.job hok h

theorem inv_initial (h : Initial s) : Inv s := by
  obtain ⟨hfresh, hawaits, hat, hgen⟩ := h
  have hserves : Serves s.gen := by
    rw [hgen]
    exact .of_frames nofun rfl rfl nofun
  have hover : Over s.gen := by
    rw [hgen]
    rintro (⟨_, _, hmem⟩ | hne)
    · cases hmem
    · exact absurd rfl hne
  exact ⟨.of_fresh hfresh hawaits, .away hat (by rw [hawaits]; nofun), .idle hserves hat, hover⟩

theorem inv_of_reachable (h : Reachable Initial State.step (fun s o => o.Allowed s ∧ o.Succeeds s) s) : Inv s :=
  h.invariant (fun _ => inv_initial) fun _ _ _ hi hok hs => hi.step hok.1 hok.2 hs

theorem Inv.givesBack (hi : Inv s) : GivesBack s where
  awaits _ ha := hi.body.givesBack hi.sound ha
  runs hjobs hframes := by
    obtain ⟨s', hs', -⟩ := hi.runs hjobs hframes
    exact Option.isSome_of_eq_some hs'

end QuickJs.AsyncGenerator.Await

namespace QuickJs.Awaits

open Promise Run

/-- **Awaits give control back** in every run of an async function or an async generator in which the promise of every
await can be made, the frame runs when a job calls it, and the loop of the generator does not go on while the frame
waits. -/
theorem awaits_give_back (s : AsyncFunction.State) (t : AsyncGenerator.Await.State) :
    (Reachable AsyncFunction.Initial AsyncFunction.State.step (fun s o => o.Allowed s ∧ o.Succeeds s) s →
      AsyncFunction.GivesBack s) ∧
    (Reachable AsyncGenerator.Await.Initial AsyncGenerator.Await.State.step (fun s o => o.Allowed s ∧ o.Succeeds s) t →
      AsyncGenerator.Await.GivesBack t) :=
  ⟨fun h => (AsyncFunction.inv_of_reachable h).givesBack,
    fun h => (AsyncGenerator.Await.inv_of_reachable h).givesBack⟩

/-- Nothing has happened yet. -/
def fresh : Body := ⟨⟨[], [], [], false, [], [], 0, []⟩, .undefined, ⟨0, none, false, 0⟩, none, false, []⟩

theorem fresh_rt : Fresh fresh.rt := ⟨rfl, rfl, rfl, rfl, rfl, rfl, rfl⟩

/-- An async function and an async generator await a number, and get it. -/
theorem awaits_give_back_example : (∃ s : AsyncFunction.State, AsyncFunction.GivesBack s ∧
      s.body.awaits.map Await.resumed = [[⟨4, [.prim 5], none⟩]]) ∧
    ∃ s : AsyncGenerator.Await.State, AsyncGenerator.Await.GivesBack s ∧
      s.body.awaits.map Await.resumed = [[⟨4, [.prim 5], none⟩]] := by
  have hfunction : (exec AsyncFunction.State.step ⟨fresh, false, none⟩
      [.call 0 [] none, .leave 4 [.prim 5] .await, .register, .job none]).any
      (fun s => s.body.awaits.map Await.resumed = [[⟨4, [.prim 5], none⟩]]) = true := by decide
  have hgenerator : (exec AsyncGenerator.Await.State.step ⟨.initial, fresh⟩
      [.next .magicNext .undefined, .resumeNext none, .await 4 (.prim 5) [], .register, .job none]).any
      (fun s => s.body.awaits.map Await.resumed = [[⟨4, [.prim 5], none⟩]]) = true := by decide
  have halong : Along AsyncFunction.State.step (fun s o => o.Allowed s ∧ o.Succeeds s) ⟨fresh, false, none⟩
      [.call 0 [] none, .leave 4 [.prim 5] .await, .register, .job none] :=
    .of_forall (by simp [AsyncFunction.Op.Allowed, AsyncFunction.Op.Succeeds])
  have halong' : Along AsyncGenerator.Await.State.step (fun s o => o.Allowed s ∧ o.Succeeds s) ⟨.initial, fresh⟩
      [.next .magicNext .undefined, .resumeNext none, .await 4 (.prim 5) [], .register, .job none] :=
    .of_forall (by simp [AsyncGenerator.Await.Op.Allowed, AsyncGenerator.Await.Op.Succeeds])
  constructor
  · obtain ⟨s, hs, hcheck⟩ := (Option.any_eq_true ..).mp hfunction
    have hgives := (awaits_give_back s ⟨.initial, fresh⟩).1 (halong.reachable (.init ⟨fresh_rt, rfl, rfl, rfl⟩) hs)
    exact ⟨s, hgives, of_decide_eq_true hcheck⟩
  · obtain ⟨s, hs, hcheck⟩ := (Option.any_eq_true ..).mp hgenerator
    have hgives := (awaits_give_back ⟨fresh, false, none⟩ s).2 (halong'.reachable (.init ⟨fresh_rt, rfl, rfl, rfl⟩) hs)
    exact ⟨s, hgives, of_decide_eq_true hcheck⟩

/-- The lookup of `constructor` throws, in an async function and in an async generator: the frame does not go on from the
await. And a generator that is called while its `yield` is delivered goes on from an await before its time. -/
theorem not_awaits_give_back :
    (¬∀ s, Reachable AsyncFunction.Initial AsyncFunction.State.step (fun s o => o.Allowed s) s →
      AsyncFunction.GivesBack s) ∧
    (¬∀ s, Reachable AsyncGenerator.Await.Initial AsyncGenerator.Await.State.step (fun s o => o.Allowed s) s →
      AsyncGenerator.Await.GivesBack s) ∧
    ¬∀ s, Reachable AsyncGenerator.Await.Initial AsyncGenerator.Await.State.step
      (fun s o => o.Allowed s ∧ (o.Succeeds s ∨ o = .resolved)) s → AsyncGenerator.Await.GivesBack s := by
  have hraised : ∀ {rt : JSRuntime} {awaits : List Await} {e : JSValue}, (∀ a ∈ awaits, a.GivesBack rt) →
      awaits.map (fun a => (a.status, a.resumed)) ≠ [(.raised e, [])] := by
    intro rt awaits e hall heq
    obtain ⟨a, as, rfl, ha, -⟩ := List.map_eq_cons_iff.mp heq
    rw [Prod.mk.injEq] at ha
    have hone := (hall a List.mem_cons_self).raised e ha.1
    rw [ha.2] at hone
    cases hone
  refine ⟨fun hall => ?_, fun hall => ?_, fun hall => ?_⟩
  · have hrun : (exec AsyncFunction.State.step ⟨fresh, false, none⟩
        [.program .newPromise, .program (.ret (.value .undefined)), .call 0 [] none, .leave 4 [.object 0] .await,
          .raise (.prim 7)]).any
        (fun s => s.body.awaits.map (fun a => (a.status, a.resumed)) = [(.raised (.prim 7), [])]) = true := by decide
    obtain ⟨s, hs, hcheck⟩ := (Option.any_eq_true ..).mp hrun
    have halong : Along AsyncFunction.State.step (fun s o => o.Allowed s) ⟨fresh, false, none⟩
        [.program .newPromise, .program (.ret (.value .undefined)), .call 0 [] none, .leave 4 [.object 0] .await,
          .raise (.prim 7)] :=
      .of_forall (by simp [AsyncFunction.Op.Allowed, Body.Allows, givenBy, Await.hasFunction])
    have hgives := hall s (halong.reachable (.init ⟨fresh_rt, rfl, rfl, rfl⟩) hs)
    exact hraised hgives.awaits (of_decide_eq_true hcheck)
  · have hrun : (exec AsyncGenerator.Await.State.step ⟨.initial, fresh⟩
        [.program .newPromise, .program (.ret (.value .undefined)), .next .magicNext .undefined, .resumeNext none,
          .await 4 (.object 0) [], .raise (.prim 7)]).any
        (fun s => s.body.awaits.map (fun a => (a.status, a.resumed)) = [(.raised (.prim 7), [])]) = true := by decide
    obtain ⟨s, hs, hcheck⟩ := (Option.any_eq_true ..).mp hrun
    have halong : Along AsyncGenerator.Await.State.step (fun s o => o.Allowed s) ⟨.initial, fresh⟩
        [.program .newPromise, .program (.ret (.value .undefined)), .next .magicNext .undefined, .resumeNext none,
          .await 4 (.object 0) [], .raise (.prim 7)] :=
      .of_forall (by simp [AsyncGenerator.Await.Op.Allowed, Body.Allows, givenBy, Await.hasFunction])
    have hgives := hall s (halong.reachable (.init ⟨fresh_rt, rfl, rfl, rfl⟩) hs)
    exact hraised hgives.awaits (of_decide_eq_true hcheck)
  · have hrun : (exec AsyncGenerator.Await.State.step ⟨.initial, fresh⟩
        [.next .magicNext .undefined, .resumeNext none, .funcReturn (.yield .undefined) 2 [.undefined],
          .next .magicNext .undefined, .resumeNext none, .await 4 (.prim 5) [], .register, .resolved,
          .resumeNext none]).any
        (fun s => s.body.rt.startedJobs = [] ∧ s.body.awaits.map (fun a => (a.status, a.resumed)) =
          [(.waiting 0 3, [⟨4, [.undefined], none⟩])]) = true := by decide
    obtain ⟨s, hs, hcheck⟩ := (Option.any_eq_true ..).mp hrun
    have halong : Along AsyncGenerator.Await.State.step (fun s o => o.Allowed s ∧ (o.Succeeds s ∨ o = .resolved))
        ⟨.initial, fresh⟩ [.next .magicNext .undefined, .resumeNext none,
          .funcReturn (.yield .undefined) 2 [.undefined], .next .magicNext .undefined, .resumeNext none,
          .await 4 (.prim 5) [], .register, .resolved, .resumeNext none] :=
      .of_forall (by simp [AsyncGenerator.Await.Op.Allowed, AsyncGenerator.Await.Op.Succeeds])
    have hgives := hall s (halong.reachable (.init ⟨fresh_rt, rfl, rfl, rfl⟩) hs)
    obtain ⟨hjobs, heq⟩ := of_decide_eq_true hcheck
    obtain ⟨a, as, hawaits, ha, -⟩ := List.map_eq_cons_iff.mp heq
    rw [Prod.mk.injEq] at ha
    have hbefore := (hgives.awaits a (hawaits ▸ List.mem_cons_self)).before (by rw [ha.1]; simp) (by rw [hjobs]; rfl)
    rw [ha.2] at hbefore
    cases hbefore

end QuickJs.Awaits
