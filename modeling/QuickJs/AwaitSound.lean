import QuickJs.Await

/-!
# A frame goes on once from each await

At most the last await is open: the frame stands there, and no job has called a function of it. From every other await
the frame has gone on, once. Only a promise whose constructor cannot be looked up breaks this.
-/

namespace QuickJs.Awaits

open Promise JSRuntime

variable {b b' : Body} {a : Await} {as : List Await} {p f : ℕ} {rt rt' : JSRuntime} {v : JSValue}
  {regs : List (ℕ × Pair JSPromiseReactionData)}

/-! ## The promises and the jobs -/

/-- The handlers of a registration are objects that are there. -/
def Bounded (rt : JSRuntime) (x : ℕ × Pair JSPromiseReactionData) : Prop :=
  ∀ c h, (x.2.get c).handler = .object h → h < rt.objects.length

/-- Each registration of an await is the only one that knows its functions. -/
structure Body.Inv (b : Body) : Prop where
  rt : b.rt.Inv
  traced : Traced b.rt
  bounded : ∀ x ∈ b.rt.registrationCalls, Bounded b.rt x
  known : ∀ a ∈ b.awaits, ∀ p f, a.status = .waiting p f → f + 1 < b.rt.objects.length ∧ Known b.rt p f

theorem Body.Inv.of_fresh (hfresh : Fresh b.rt) (hawaits : b.awaits = []) : b.Inv := by
  refine ⟨inv_of_fresh hfresh, ?_, ?_, by rw [hawaits]; nofun⟩
  · obtain ⟨-, -, -, -, henqueued, -, -⟩ := hfresh
    intro e he
    rw [henqueued] at he
    cases he
  · obtain ⟨-, -, -, hframes, -, -, hregistered⟩ := hfresh
    intro x hx
    rw [registrationCalls, hregistered, hframes] at hx
    cases hx

variable {x : ℕ × Pair JSPromiseReactionData} {job : Job} {jobs : List Job}

/-- A registration that knows one of two functions has it as a handler. -/
theorem exists_of_knows (h : knows f x = true) :
    ∃ c, (x.2.get c).handler = .object f ∨ (x.2.get c).handler = .object (f + 1) := by
  have hhandler : ∀ {g : JSValue}, (isRejectOf f g).isSome = true → g = .object f ∨ g = .object (f + 1) := by
    intro g hg
    obtain ⟨r, hr⟩ := Option.isSome_iff_exists.mp hg
    rw [isRejectOf_eq_some] at hr
    cases r with
    | false => exact .inl hr
    | true => exact .inr hr
  obtain hf | hr := (Bool.or_eq_true ..).mp h
  · exact ⟨false, hhandler hf⟩
  · exact ⟨true, hhandler hr⟩

/-- Nothing knows functions that are not there. -/
theorem Bounded.knows_fresh (h : Bounded rt x) (hf : rt.objects.length ≤ f) : knows f x = false := by
  rw [← Bool.not_eq_true]
  intro hknows
  obtain ⟨c, hc | hc⟩ := exists_of_knows hknows
  · exact absurd (h c _ hc) (Nat.not_lt.mpr hf)
  · exact absurd (h c _ hc) (Nat.not_lt.mpr (Nat.le_succ_of_le hf))

theorem Bounded.mono (h : Bounded rt x) (hle : rt.objects.length ≤ rt'.objects.length) :
    Bounded rt' x := fun c g hg => Nat.lt_of_lt_of_le (h c g hg) hle

/-- No job calls functions that are not there. -/
theorem callOf_fresh (hi : rt.Inv) (ht : Traced rt) (hbounded : ∀ x ∈ rt.registrationCalls, Bounded rt x)
    (hf : rt.objects.length ≤ f) {e : Option ℕ × Job} (he : e ∈ rt.enqueued) : Promise.callOf f e.2 = none := by
  obtain ⟨o, job⟩ := e
  cases o with
  | none => exact ht _ he rfl f
  | some q =>
    have hjob : job ∈ rt.jobs q := List.mem_filterMap.mpr ⟨_, he, if_pos rfl⟩
    cases hq : rt.promise q with
    | none =>
      rw [(hi.absent q hq).2] at hjob
      cases hjob
    | some d =>
      have hlawful := hi.lawful q d hq
      by_cases hpending : d.promiseState = .pending
      · rw [(hlawful.pending hpending).1] at hjob
        cases hjob
      · rw [(hlawful.settled hpending).1] at hjob
        obtain ⟨rds, hrds, rfl⟩ := List.mem_map.mp hjob
        obtain ⟨x, hx, hxq⟩ := List.mem_filterMap.mp hrds
        split at hxq
        · cases hxq
          have hfresh := (hbounded x (List.mem_append_left _ hx)).knows_fresh hf
          rw [callOf_reactionJob, Option.map_eq_none_iff]
          by_contra hne
          rw [← ne_eq, ← Option.isSome_iff_ne_none] at hne
          rw [show knows f x = true from knows_of_get hne] at hfresh
          cases hfresh
        · cases hxq

/-- The runtime may do what registers none of the functions. -/
structure Body.Quiet (b : Body) (rt : JSRuntime) : Prop where
  inv : rt.Inv
  grows : ∃ regs, Grows b.rt rt regs ∧ (∀ x ∈ regs, Bounded rt x) ∧
    ∀ x ∈ regs, ∀ a ∈ b.awaits, ∀ p f, a.status = .waiting p f → knows f x = false

theorem Body.Inv.quiet (h : b.Inv) (hq : b.Quiet rt) : Body.Inv { b with rt := rt } := by
  obtain ⟨regs, hgrows, hbounded, hknows⟩ := hq.grows
  refine ⟨hq.inv, hgrows.traced h.traced, fun x hx => ?_, fun a ha p f hwaiting => ?_⟩
  · obtain hx | hx := List.mem_append.mp (hgrows.registrations.subset hx)
    · exact hbounded x hx
    · exact (h.bounded x hx).mono hgrows.objects
  · obtain ⟨hlt, hknown⟩ := h.known a ha p f hwaiting
    refine ⟨Nat.lt_of_lt_of_le hlt hgrows.objects, ?_⟩
    have hnone : regs.filter (knows f) = [] :=
      List.filter_eq_nil_iff.mpr fun x hx => by rw [hknows x hx a ha p f hwaiting]; exact Bool.false_ne_true
    have hperm := hgrows.registrations.filter (knows f)
    rw [List.filter_append, hnone, show b.rt.registrationCalls.filter (knows f) = _ from hknown] at hperm
    exact List.perm_singleton.mp hperm

/-- The handler of a registration is the value itself, if it is a function that is there. -/
theorem reactionHandler_eq_object {h : ℕ} (hv : rt.reactionHandler v = .object h) :
    v = .object h ∧ h < rt.objects.length := by
  unfold reactionHandler at hv
  split at hv
  · rename_i hfun
    subst hv
    refine ⟨rfl, ?_⟩
    rw [isFunction] at hfun
    by_contra hge
    rw [List.getElem?_eq_none (Nat.le_of_not_lt hge)] at hfun
    cases hfun
  · cases hv

/-- The program registers none of the functions. -/
theorem Body.Inv.quiet_step {o : Promise.Op} (h : b.Inv) (ho : b.Allows o) (hs : Promise.step b.rt o = some rt) :
    b.Quiet rt := by
  obtain ⟨regs, hgrows, hregs⟩ := grows_step h.rt ho.1 hs
  have hhandler : ∀ x ∈ regs, ∀ c g, (x.2.get c).handler = .object g →
      g < b.rt.objects.length ∧ .object g ∈ givenBy o := by
    intro x hx c g hg
    obtain ⟨q, rr, cap, rfl, rfl⟩ := hregs x hx
    cases c with
    | false =>
      obtain ⟨heq, hlt⟩ := reactionHandler_eq_object hg
      exact ⟨hlt, by simp [givenBy, heq]⟩
    | true =>
      obtain ⟨heq, hlt⟩ := reactionHandler_eq_object hg
      exact ⟨hlt, by simp [givenBy, heq]⟩
  refine ⟨(next_step h.rt hs).inv h.rt, regs, hgrows, fun x hx c g hg => ?_, fun x hx a ha p f hwaiting => ?_⟩
  · exact Nat.lt_of_lt_of_le (hhandler x hx c g hg).1 hgrows.objects
  · rw [← Bool.not_eq_true]
    intro hknows
    obtain ⟨c, hc | hc⟩ := exists_of_knows hknows
    · exact ho.2 _ (hhandler x hx c _ hc).2 a ha ⟨p, f, hwaiting, .inl rfl⟩
    · exact ho.2 _ (hhandler x hx c _ hc).2 a ha ⟨p, f, hwaiting, .inr rfl⟩

/-- What makes no registration registers none of the functions. -/
theorem Body.Inv.quiet_of_grows (h : b.Inv) (hnext : Next b.rt rt) (hgrows : Grows b.rt rt []) : b.Quiet rt :=
  ⟨hnext.inv h.rt, [], hgrows, nofun, nofun⟩

theorem next_newPromiseCapability (rt : JSRuntime) : Next rt (newPromiseCapability rt) :=
  (next_newObject (o := .promise _) nofun fun _ h => (JSObject.promise.inj h).symm).trans
    (next_createResolvingFunctions ..)

theorem grows_newPromiseCapability (rt : JSRuntime) : Grows rt (newPromiseCapability rt) [] :=
  (grows_newObject ..).trans (grows_createResolvingFunctions ..)

theorem next_resolveNew (rt : JSRuntime) (v : JSValue) : Next rt (resolveNew rt v) :=
  (next_newPromiseCapability rt).trans (next_jsCall ..)

theorem grows_resolveNew (rt : JSRuntime) (v : JSValue) : Grows rt (resolveNew rt v) [] :=
  (grows_newPromiseCapability rt).trans (grows_jsCall ..)

/-- Awaits that have not come to their registration may be added and changed. -/
theorem Body.Inv.of_awaits (h : b.Inv) (hrt : b'.rt = b.rt) (hawaits : ∀ a ∈ b'.awaits, ∀ p f, a.status = .waiting p f →
    ∃ a' ∈ b.awaits, a'.status = .waiting p f) : b'.Inv := by
  refine ⟨hrt ▸ h.rt, hrt ▸ h.traced, hrt ▸ h.bounded, fun a ha p f hwaiting => ?_⟩
  obtain ⟨a', ha', hwaiting'⟩ := hawaits a ha p f hwaiting
  exact hrt ▸ h.known a' ha' p f hwaiting'

/-! ## Open and closed awaits -/

/-- The frame has gone on from an await. -/
def Closed (rt : JSRuntime) (a : Await) : Prop :=
  ∃ p f c, a.status = .waiting p f ∧ a.calls rt.startedJobs = [c] ∧ a.resumed = [a.entry c.1 c.2]

/-- The frame stands at an await. -/
structure Body.Stands (b : Body) (a : Await) : Prop where
  pc : b.funcState.curPc = a.pc
  sp : b.funcState.curSp = some (.undefined :: a.rest)
  resumed : a.resumed = []
  calls : a.calls b.rt.startedJobs = []
  notRaised : ∀ e, a.status ≠ .raised e

/-- The frame stands at the last await, or at none. -/
inductive Body.Sound (b : Body) : Prop
  | away : b.atAwait = false → (∀ a ∈ b.awaits, Closed b.rt a) → b.Sound
  | stands {a : Await} {as : List Await} : b.atAwait = true → b.awaits = a :: as → b.Stands a →
      (∀ a ∈ as, Closed b.rt a) → b.Sound

theorem Closed.congr (h : Closed rt a) (hjobs : rt'.startedJobs = rt.startedJobs) : Closed rt' a := by
  obtain ⟨p, f, c, hwaiting, hcalls, hresumed⟩ := h
  exact ⟨p, f, c, hwaiting, by rw [hjobs, hcalls], hresumed⟩

/-- Where the frame stands depends on the jobs that have been started. -/
theorem Body.Sound.congr (h : b.Sound) (hjobs : rt.startedJobs = b.rt.startedJobs) :
    Body.Sound { b with rt := rt } := by
  cases h with
  | away hat hclosed => exact .away hat fun a ha => (hclosed a ha).congr hjobs
  | stands hat hawaits hstands hclosed =>
    refine .stands hat hawaits ⟨hstands.pc, hstands.sp, hstands.resumed, ?_, hstands.notRaised⟩ fun a ha =>
      (hclosed a ha).congr hjobs
    rw [← hstands.calls]
    exact congrArg _ hjobs

/-- Away from an await the frame may be as it likes. -/
theorem Body.Sound.of_away (h : b.Sound) (hat : b.atAwait = false) (hjobs : b'.rt.startedJobs = b.rt.startedJobs)
    (hawaits : b'.awaits = b.awaits) (hat' : b'.atAwait = false) : b'.Sound := by
  cases h with
  | away _ hclosed => exact .away hat' fun a ha => (hclosed a (hawaits ▸ ha)).congr hjobs
  | stands hat'' => exact absurd (hat.symm.trans hat'') Bool.false_ne_true

theorem Body.Quiet.startedJobs (h : b.Quiet rt) (hi : b.Inv) : rt.startedJobs = b.rt.startedJobs := by
  obtain ⟨regs, hgrows, -, -⟩ := h.grows
  exact hgrows.startedJobs hi.rt.queue.1

theorem calls_of_not_waiting (h : ∀ p f, a.status ≠ .waiting p f) (jobs : List Job) : a.calls jobs = [] := by
  refine List.filterMap_eq_nil_iff.mpr fun job _ => ?_
  rw [Await.callOf]
  split
  · rename_i hwaiting
    exact absurd hwaiting (h _ _)
  · rfl

/-- The last await has not come to its registration. -/
def Body.Open (b : Body) : Prop := ∀ a as, b.awaits = a :: as → ∀ p f, a.status ≠ .waiting p f

/-! ## The steps of an await -/

theorem open_await (b : Body) (pc : ℕ) (v : JSValue) (rest : List JSValue) : (b.await pc v rest).Open := by
  unfold Body.await
  intro a as h
  split at h <;> cases h <;> nofun

theorem open_gotConstructor {ctor : JSValue} (hb : b.gotConstructor ctor = some b') : b'.Open := by
  unfold Body.gotConstructor at hb
  intro a as h
  split at hb
  · cases hb
  · split at hb
    · split at hb <;> cases hb <;> cases h <;> nofun
    · cases hb

/-- An await starts while the frame stands at none. -/
theorem Body.Inv.await (h : b.Inv) (hs : b.Sound) (hat : b.atAwait = false) (pc : ℕ)
    (v : JSValue) (rest : List JSValue) :
    (b.await pc v rest).Inv ∧ (b.await pc v rest).Sound ∧ (b.await pc v rest).atAwait = true := by
  have hclosed : ∀ a ∈ b.awaits, Closed b.rt a := by
    cases hs with
    | away _ hclosed => exact hclosed
    | stands hat' => exact absurd (hat.symm.trans hat') Bool.false_ne_true
  have hstart : ∀ (rt : JSRuntime) (status : Status), b.Quiet rt → (∀ p f, status ≠ .waiting p f) →
      (∀ e, status ≠ .raised e) → ∀ b' : Body, b'.rt = rt → b'.atAwait = true →
      b'.funcState = b.funcState.exit pc (.undefined :: rest) → b'.awaits = ⟨v, pc, rest, status, []⟩ :: b.awaits →
      b'.Inv ∧ b'.Sound ∧ b'.atAwait = true := by
    intro rt status hquiet hwaiting hraised b' hrt hat' hfunc hawaits
    have hjobs := hquiet.startedJobs h
    refine ⟨(h.quiet hquiet).of_awaits hrt fun a ha p f hstatus => ?_, .stands hat' hawaits ⟨?_, ?_, rfl, ?_, hraised⟩
      fun a ha => (hclosed a ha).congr (hrt ▸ hjobs), hat'⟩
    · rw [hawaits] at ha
      obtain rfl | ha := List.mem_cons.mp ha
      · exact absurd hstatus (hwaiting p f)
      · exact ⟨a, ha, hstatus⟩
    · rw [hfunc]
      rfl
    · rw [hfunc]
      rfl
    · exact calls_of_not_waiting hwaiting _
  unfold Body.await
  split
  · rename_i p _
    exact hstart b.rt (.getConstructor p) (h.quiet_of_grows (.refl _) (.refl _)) nofun nofun _ rfl rfl rfl rfl
  · have hquiet := h.quiet_of_grows (next_resolveNew b.rt v) (grows_resolveNew b.rt v)
    exact hstart _ (.resolved b.rt.objects.length) hquiet nofun nofun _ rfl rfl rfl rfl

/-- The frame stands at an await that has not come to its registration. -/
theorem Body.Sound.stands_of (hs : b.Sound) (hawaits : b.awaits = a :: as) (hopen : ∀ p f, a.status ≠ .waiting p f) :
    b.atAwait = true ∧ b.Stands a ∧ ∀ a ∈ as, Closed b.rt a := by
  cases hs with
  | away _ hclosed =>
    obtain ⟨p, f, _, hwaiting, -⟩ := hclosed a (hawaits ▸ List.mem_cons_self)
    exact absurd hwaiting (hopen p f)
  | stands hat hawaits' hstands hclosed =>
    obtain ⟨rfl, rfl⟩ := List.cons.inj (hawaits.symm.trans hawaits')
    exact ⟨hat, hstands, hclosed⟩

/-- The await at which the frame stands comes further. -/
theorem Body.Sound.further (h : b.Inv) (hs : b.Sound) (hawaits : b.awaits = a :: as)
    (hopen : ∀ p f, a.status ≠ .waiting p f)
    (hq : b.Quiet rt) {status : Status} (hcalls : ({ a with status := status } : Await).calls rt.startedJobs = [])
    (hraised : ∀ e, status ≠ .raised e) :
    Body.Sound { b with rt := rt, awaits := { a with status := status } :: as } := by
  obtain ⟨hat, hstands, hclosed⟩ := hs.stands_of hawaits hopen
  exact .stands hat rfl ⟨hstands.pc, hstands.sp, hstands.resumed, hcalls, hraised⟩ fun a ha =>
    (hclosed a ha).congr (hq.startedJobs h)

/-- The constructor has been got. -/
theorem Body.Inv.gotConstructor (h : b.Inv) (hs : b.Sound) {ctor : JSValue} (hb : b.gotConstructor ctor = some b') :
    b'.Inv ∧ b'.Sound ∧ b'.atAwait = b.atAwait := by
  unfold Body.gotConstructor at hb
  split at hb
  · cases hb
  · rename_i a as hawaits
    split at hb
    · rename_i p hstatus
      have hopen : ∀ p f, a.status ≠ .waiting p f := fun q f hw => by cases hstatus.symm.trans hw
      have hfurther : ∀ rt q, b.Quiet rt →
          Body.Inv { b with rt := rt, awaits := { a with status := .resolved q } :: as } ∧
          Body.Sound { b with rt := rt, awaits := { a with status := .resolved q } :: as } := by
        intro rt q hquiet
        have hnone : ∀ p f, Status.resolved q ≠ .waiting p f := nofun
        refine ⟨(h.quiet hquiet).of_awaits rfl fun a' ha p f hw => ?_, hs.further h hawaits hopen hquiet
          (calls_of_not_waiting hnone _) nofun⟩
        obtain rfl | ha := List.mem_cons.mp ha
        · cases hw
        · exact ⟨a', by rw [hawaits]; exact .tail a ha, hw⟩
      split at hb <;> cases hb
      · obtain ⟨hinv, hsound⟩ := hfurther b.rt p (h.quiet_of_grows (.refl _) (.refl _))
        exact ⟨hinv, hsound, rfl⟩
      · obtain ⟨hinv, hsound⟩ := hfurther _ b.rt.objects.length
          (h.quiet_of_grows (next_resolveNew b.rt a.value) (grows_resolveNew b.rt a.value))
        exact ⟨hinv, hsound, rfl⟩
    · cases hb

/-- The two functions of an await are functions that are there. -/
theorem reactionHandler_new (rt : JSRuntime) :
    ((rt.newObject .function).newObject .function).reactionHandler (.object rt.objects.length) =
        .object rt.objects.length ∧
    ((rt.newObject .function).newObject .function).reactionHandler (.object (rt.objects.length + 1)) =
        .object (rt.objects.length + 1) := by
  have hfirst : (rt.objects ++ [.function] ++ [.function])[rt.objects.length]? = some JSObject.function := by
    rw [List.append_assoc, List.getElem?_append_right (Nat.le_refl _), Nat.sub_self]
    rfl
  have hsecond : (rt.objects ++ [.function] ++ [.function])[rt.objects.length + 1]? = some JSObject.function := by
    rw [List.append_assoc, List.getElem?_append_right (Nat.le_add_right _ _), Nat.add_sub_cancel_left]
    rfl
  constructor
  · rw [reactionHandler, isFunction, newObject, newObject, hfirst]
    rfl
  · rw [reactionHandler, isFunction, newObject, newObject, hsecond]
    rfl

/-- The functions are registered, with nobody else. -/
theorem Body.Inv.register (h : b.Inv) (hs : b.Sound) (hb : b.register = some b') :
    b'.Inv ∧ b'.Sound ∧ b'.atAwait = b.atAwait := by
  unfold Body.register at hb
  split at hb
  · cases hb
  · rename_i a as hawaits
    split at hb
    · rename_i p hstatus
      obtain ⟨rt, hthen, rfl⟩ := Option.map_eq_some_iff.mp hb
      have hopen : ∀ p f, a.status ≠ .waiting p f := fun q f hw => by cases hstatus.symm.trans hw
      have hnew : Next b.rt ((b.rt.newObject .function).newObject .function) :=
        (next_newObject (o := .function) (by simp) (by simp)).trans (next_newObject (o := .function) (by simp) (by simp))
      have hgrowsNew : Grows b.rt ((b.rt.newObject .function).newObject .function) [] :=
        (grows_newObject ..).trans (grows_newObject ..)
      have hgrows := hgrowsNew.trans (grows_performPromiseThen hthen)
      obtain ⟨hfirst, hsecond⟩ := reactionHandler_new b.rt
      rw [hfirst, hsecond] at hgrows
      have hlen : b.rt.objects.length + 1 < rt.objects.length := by
        refine Nat.lt_of_lt_of_le ?_ (grows_performPromiseThen hthen).objects
        simp [newObject]
      -- the functions of the other awaits are older
      have hquiet : b.Quiet rt := by
        refine ⟨(hnew.trans (next_performPromiseThen hthen)).inv h.rt, _, hgrows, fun x hx c g hg => ?_,
          fun x hx a ha p f hwaiting => ?_⟩
        · cases List.mem_singleton.mp hx
          cases c <;> cases hg
          · exact Nat.lt_of_succ_lt hlen
          · exact hlen
        · cases List.mem_singleton.mp hx
          have hlt := (h.known a ha p f hwaiting).1
          rw [← Bool.not_eq_true]
          intro hknows
          obtain ⟨c, hc⟩ := exists_of_knows hknows
          have hhandler : ∃ g, ((reactions b.rt.objects.length).get c).handler = .object g ∧
              b.rt.objects.length ≤ g := by
            cases c with
            | false => exact ⟨_, rfl, Nat.le_refl _⟩
            | true => exact ⟨_, rfl, Nat.le_succ _⟩
          obtain ⟨g, hg, hge⟩ := hhandler
          obtain hc | hc := hc <;> cases hg.symm.trans hc <;> omega
      have hfresh : b.rt.registrationCalls.filter (knows b.rt.objects.length) = [] :=
        List.filter_eq_nil_iff.mpr fun x hx => by
          rw [(h.bounded x hx).knows_fresh (Nat.le_refl _)]
          exact Bool.false_ne_true
      have hknown : Known rt p b.rt.objects.length := by
        have hperm := hgrows.registrations.filter (knows b.rt.objects.length)
        rw [List.filter_append, hfresh, List.append_nil] at hperm
        refine List.perm_singleton.mp (hperm.trans (.of_eq ?_))
        exact List.filter_cons_of_pos (knows_reactions ..)
      have hcalls : ({ a with status := .waiting p b.rt.objects.length } : Await).calls rt.startedJobs = [] := by
        rw [hquiet.startedJobs h]
        refine List.filterMap_eq_nil_iff.mpr fun job hjob => ?_
        obtain ⟨e, he, rfl⟩ := List.mem_map.mp hjob
        exact callOf_fresh h.rt h.traced h.bounded (Nat.le_refl _) (List.mem_of_mem_take he)
      refine ⟨⟨hquiet.inv, (h.quiet hquiet).traced, (h.quiet hquiet).bounded, fun a' ha q f hw => ?_⟩,
        hs.further h hawaits hopen hquiet hcalls (by simp), rfl⟩
      obtain rfl | ha := List.mem_cons.mp ha
      · cases hw
        exact ⟨hlen, hknown⟩
      · exact (h.quiet hquiet).known a' (by rw [hawaits]; exact .tail a ha) q f hw
    · cases hb

/-! ## Jobs -/

/-- The runtime when the next job has been taken from the list. -/
def taken (rt : JSRuntime) (jobs : List Job) : JSRuntime := { rt with jobList := jobs, started := rt.started + 1 }

theorem startedJobs_taken (hi : rt.Inv) (hjobs : rt.jobList = job :: jobs) :
    (taken rt jobs).startedJobs = rt.startedJobs ++ [job] := by
  have hqueue := hi.queue.2
  rw [hjobs, List.map_drop] at hqueue
  have hget : (rt.enqueued.map Prod.snd)[rt.started]? = some job := by
    rw [← List.head?_drop, ← hqueue, List.head?_cons]
  rw [startedJobs, startedJobs, taken, List.map_take, List.map_take, List.take_add_one, hget]
  rfl

/-- What has been called is a part of what will be. -/
theorem calls_started (rt : JSRuntime) (a : Await) : (a.calls rt.startedJobs).Sublist (a.calls rt.enqueuedJobs) :=
  ((List.take_sublist ..).map Prod.snd).filterMap a.callOf

theorem Await.calls_waiting (h : a.status = .waiting p f) (jobs : List Job) :
    a.calls jobs = jobs.filterMap (Promise.callOf f) := by
  refine List.filterMap_congr fun job _ => ?_
  rw [Await.callOf, h]

theorem Body.Inv.taken (h : b.Inv) (hjobs : b.rt.jobList = job :: jobs) :
    Body.Inv { b with rt := Awaits.taken b.rt jobs } :=
  ⟨(next_takeJob hjobs).inv h.rt, h.traced, h.bounded, h.known⟩

/-- No job calls a function of an await a second time. -/
theorem Closed.callOf (h : Closed b.rt a) (hi : b.Inv) (ha : a ∈ b.awaits)
    (hjobs : b.rt.jobList = job :: jobs) : a.callOf job = none := by
  obtain ⟨p, f, c, hwaiting, hcalls, -⟩ := h
  have hi' := hi.taken hjobs
  have hlength := (hi'.known a ha p f hwaiting).2.calls_length hi'.rt hi'.traced
  rw [← Await.calls_waiting hwaiting] at hlength
  have hsub := Nat.le_trans (calls_started (Awaits.taken b.rt jobs) a).length_le hlength
  rw [startedJobs_taken hi.rt hjobs, Await.calls, List.filterMap_append, show b.rt.startedJobs.filterMap a.callOf = [c] from hcalls] at hsub
  by_contra hne
  obtain ⟨c', hc'⟩ := Option.ne_none_iff_exists'.mp hne
  rw [List.filterMap_cons_some hc'] at hsub
  exact absurd hsub (by simp)

theorem calls_taken (hi : rt.Inv) (hjobs : rt.jobList = job :: jobs) (hnone : a.callOf job = none) :
    a.calls (taken rt jobs).startedJobs = a.calls rt.startedJobs := by
  rw [startedJobs_taken hi hjobs, Await.calls, List.filterMap_append, List.filterMap_cons_none hnone]
  exact List.append_nil _

theorem Closed.taken (h : Closed rt a) (hi : rt.Inv) (hjobs : rt.jobList = job :: jobs)
    (hnone : a.callOf job = none) : Closed (Awaits.taken rt jobs) a := by
  obtain ⟨p, f, c, hwaiting, hcalls, hresumed⟩ := h
  exact ⟨p, f, c, hwaiting, (calls_taken hi hjobs hnone).trans hcalls, hresumed⟩

/-- The job, once it has been taken from the list, runs until the program does. -/
theorem Body.Inv.quiet_job (h : b.Inv) (hexec : b.rt.jsExecutePendingJob = some rt) :
    ∃ job jobs, b.rt.jobList = job :: jobs ∧ Body.Quiet { b with rt := Awaits.taken b.rt jobs } rt := by
  obtain ⟨job, jobs, hjobs, hgrows⟩ := grows_jsExecutePendingJob hexec
  exact ⟨job, jobs, hjobs, (next_jsExecutePendingJob hexec).inv h.rt, [], hgrows, nofun, nofun⟩

/-- A job that does not call a function of the frame. -/
theorem Body.Inv.other_job (h : b.Inv) (hs : b.Sound) (hexec : b.rt.jsExecutePendingJob = some rt)
    (hcall : b.nextCall = none) :
    Body.Inv { b with rt := rt } ∧ Body.Sound { b with rt := rt } := by
  obtain ⟨job, jobs, hjobs, hquiet⟩ := h.quiet_job hexec
  have hi' := h.taken hjobs
  rw [Body.nextCall, hjobs, List.head?_cons, Option.bind_some, List.findSome?_eq_none_iff] at hcall
  refine ⟨hi'.quiet hquiet, ?_⟩
  have hs' : Body.Sound { b with rt := Awaits.taken b.rt jobs } := by
    cases hs with
    | away hat hclosed => exact .away hat fun a ha => (hclosed a ha).taken h.rt hjobs (hcall a ha)
    | @stands a as hat hawaits hstands hclosed =>
      have ha : a ∈ b.awaits := hawaits ▸ List.mem_cons_self
      refine .stands hat hawaits ⟨hstands.pc, hstands.sp, hstands.resumed, ?_, hstands.notRaised⟩ fun a ha => ?_
      · exact (calls_taken h.rt hjobs (hcall a ha)).trans hstands.calls
      · exact (hclosed a ha).taken h.rt hjobs (hcall a (hawaits ▸ .tail _ ha))
  exact hs'.congr (hquiet.startedJobs hi')

/-- A job that calls a function of the frame: the frame stands at the await and goes on from there. -/
theorem Body.Inv.called {r : Bool} {arg : JSValue} (h : b.Inv) (hs : b.Sound)
    (hexec : b.rt.jsExecutePendingJob = some rt)
    (hcall : b.nextCall = some (r, arg)) : b.atAwait = true ∧ ¬b.Open ∧
      ∃ b₁ b₂, Body.deliver { b with rt := rt } r arg = some b₁ ∧ b₁.atAwait = true ∧ b₁.enter = some b₂ ∧ b₂.Inv ∧
        b₂.Sound ∧ b₂.atAwait = false := by
  obtain ⟨job, jobs, hjobs, hquiet⟩ := h.quiet_job hexec
  have hi' := h.taken hjobs
  have hrt := hquiet.startedJobs hi'
  rw [Body.nextCall, hjobs] at hcall
  obtain ⟨a', ha', hcall⟩ := List.exists_of_findSome?_eq_some hcall
  have hnot : ¬Closed b.rt a' := fun hclosed => by rw [hclosed.callOf h ha' hjobs] at hcall; cases hcall
  cases hs with
  | away _ hclosed => exact absurd (hclosed a' ha') hnot
  | @stands a as hat hawaits hstands hclosed =>
    rw [hawaits] at ha'
    obtain rfl | ha' := List.mem_cons.mp ha'
    · obtain ⟨p, f, hwaiting⟩ : ∃ p f, a'.status = .waiting p f := by
        rw [Await.callOf] at hcall
        split at hcall
        · exact ⟨_, _, ‹_›⟩
        · cases hcall
      have hcalls : a'.calls rt.startedJobs = [(r, arg)] := by
        rw [hrt, startedJobs_taken h.rt hjobs, Await.calls, List.filterMap_append,
          show b.rt.startedJobs.filterMap a'.callOf = [] from hstands.calls, List.filterMap_cons_some hcall]
        rfl
      have hentry : (⟨b.funcState.curPc, (if r then .undefined else arg) :: a'.rest,
          if r = true then if r then some arg else b.exception else none⟩ : Entry JSValue) = a'.entry r arg := by
        rw [hstands.pc]
        cases r <;> rfl
      refine ⟨hat, fun hopen => hopen a' as hawaits p f hwaiting, { b with
        rt := rt
        funcState := { b.funcState with throwFlag := r, curSp := some ((if r then .undefined else arg) :: a'.rest) }
        exception := if r then some arg else b.exception }, { b with
        rt := rt
        funcState := { b.funcState with throwFlag := r, curSp := none }
        exception := if r then some arg else b.exception
        atAwait := false
        awaits := { a' with resumed := [a'.entry r arg] } :: as }, ?_, hat, ?_, ?_, ?_, rfl⟩
      · rw [Body.deliver, hstands.sp]
      · rw [Body.enter, QuickJs.enter, Option.map_some, Option.map_some, hentry, hat, hawaits, record,
          hstands.resumed]
        rfl
      · refine (hi'.quiet hquiet).of_awaits rfl fun a ha q g hw => ?_
        obtain rfl | ha := List.mem_cons.mp ha
        · exact ⟨a', hawaits ▸ List.mem_cons_self, hw⟩
        · exact ⟨a, hawaits ▸ .tail a' ha, hw⟩
      · refine .away rfl fun a ha => ?_
        obtain rfl | ha := List.mem_cons.mp ha
        · exact ⟨p, f, (r, arg), hwaiting, hcalls, rfl⟩
        · have hnone := (hclosed a ha).callOf h (hawaits ▸ .tail a' ha) hjobs
          exact ((hclosed a ha).taken h.rt hjobs hnone).congr hrt
    · exact absurd (hclosed a' ha') hnot

/-! ## Awaits give back -/

theorem Body.Inv.givesBack (h : b.Inv) (hs : b.Sound) (ha : a ∈ b.awaits) : a.GivesBack b.rt := by
  have hpending : ∀ (p f : ℕ) d, a.status = .waiting p f → b.rt.promise p = some d → d.promiseState = .pending →
      a.calls b.rt.enqueuedJobs = [] := by
    intro p f d hwaiting hd hpending
    rw [Await.calls_waiting hwaiting]
    refine (h.known a ha p f hwaiting).2.calls_of_pending h.rt h.traced fun d' hd' => ?_
    cases hd.symm.trans hd'
    exact hpending
  have hsettled : ∀ (p f : ℕ) d, a.status = .waiting p f → b.rt.promise p = some d → d.promiseState ≠ .pending →
      a.calls b.rt.enqueuedJobs = if (p, reactions f) ∈ b.rt.registered then
        [(decide (d.promiseState = .rejected), d.promiseResult)] else [] := by
    intro p f d hwaiting hd hne
    rw [Await.calls_waiting hwaiting]
    exact (h.known a ha p f hwaiting).2.calls_of_settled h.rt h.traced hd hne
  have henqueued : ∀ (p f : ℕ) d, a.status = .waiting p f → b.rt.promise p = some d → d.promiseState ≠ .pending →
      (p, reactions f) ∈ b.rt.registered →
      a.calls b.rt.enqueuedJobs = [(decide (d.promiseState = .rejected), d.promiseResult)] := by
    intro p f d hwaiting hd hne hreg
    rw [hsettled p f d hwaiting hd hne, if_pos hreg]
  have hopen : b.atAwait = true → b.Stands a → a.GivesBack b.rt := fun _ hstands =>
    ⟨fun _ _ => hstands.resumed, fun _ _ _ _ _ _ hne => absurd hstands.calls hne,
      fun e he => absurd he (hstands.notRaised e), hpending, henqueued⟩
  have hclosed : Closed b.rt a → a.GivesBack b.rt := by
    rintro ⟨p, f, c, hwaiting, hcalls, hresumed⟩
    refine ⟨fun _ hnone => ?_, fun q g d hw hd hne _ => ?_, fun e he => ?_, hpending, henqueued⟩
    · rw [hcalls] at hnone
      cases hnone
    · -- the call that has been made is the one that was to come
      have hsub := calls_started b.rt a
      rw [hcalls, hsettled q g d hw hd hne] at hsub
      split at hsub
      · cases List.singleton_sublist.mp hsub with
        | head => exact hresumed
        | tail _ h => cases h
      · cases hsub
    · cases hwaiting.symm.trans he
  cases hs with
  | away _ hall => exact hclosed (hall a ha)
  | stands hat hawaits hstands hall =>
    rw [hawaits] at ha
    obtain rfl | ha := List.mem_cons.mp ha
    · exact hopen hat hstands
    · exact hclosed (hall a ha)

end QuickJs.Awaits
