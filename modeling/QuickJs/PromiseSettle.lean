import QuickJs.Promise
import Mathlib.Tactic.ByContra

/-!
# Promises settle once

Whatever the program does, a promise leaves the pending state at most once, and every
registration gets one job, for the kind and with the result the promise is settled with,
in the order of the registrations. A promise with a waiting rejection tracker is the case
in between: it is settled but its lists are not drained. The tracker is only called for a
promise nobody has registered with, so these lists are empty.
-/

namespace QuickJs.Promise

open JSRuntime Run

variable {s s' t : JSRuntime} {p q f r : ℕ} {d d' : JSPromiseData} {v : JSValue} {b : Bool}

/-! ## Looking up promises -/

theorem promise_eq_some : s.promise p = some d ↔ s.objects[p]? = some (.promise d) := by
  unfold JSRuntime.promise
  split
  · rename_i d' hd
    rw [hd, Option.some.injEq, Option.some.injEq, JSObject.promise.injEq]
  · rename_i hne
    constructor
    · nofun
    · intro h
      exact absurd h (hne d)

/-- The promises depend on the objects only. -/
theorem promise_congr (h : s'.objects = s.objects) (p : ℕ) : s'.promise p = s.promise p := by
  rw [JSRuntime.promise, JSRuntime.promise, h]

theorem promise_setPromise (hp : s.promise p = some d) (q : ℕ) :
    (s.setPromise p d').promise q = if q = p then some d' else s.promise q := by
  have hlt : p < s.objects.length := (List.getElem?_eq_some_iff.mp (promise_eq_some.mp hp)).1
  split
  · rename_i h
    rw [h, promise_eq_some, setPromise, List.getElem?_set_self hlt]
  · rename_i h
    rw [JSRuntime.promise, setPromise, List.getElem?_set_ne (Ne.symm h), JSRuntime.promise]

theorem promise_lt (hp : s.promise p = some d) : p < s.objects.length :=
  (List.getElem?_eq_some_iff.mp (promise_eq_some.mp hp)).1

variable {os : List JSObject} {js : List Job} {regs : List (Pair JSPromiseReactionData)}
  {arg : Option JSValue}

/-- Making objects keeps the promises. -/
theorem promise_append (hs : s'.objects = s.objects ++ os)
    (hp : s.promise p = some d) : s'.promise p = some d := by
  rw [promise_eq_some, hs, List.getElem?_append_left (promise_lt hp)]
  exact promise_eq_some.mp hp

theorem promise_none_of_append (hs : s'.objects = s.objects ++ os)
    (hp : s'.promise p = none) : s.promise p = none := by
  by_contra hne
  obtain ⟨d, hd⟩ := Option.ne_none_iff_exists'.mp hne
  rw [promise_append hs hd] at hp
  cases hp

/-- Only a new promise is a new promise. -/
theorem promise_of_append (hs : s'.objects = s.objects ++ os) (hp : s'.promise p = some d) :
    s.promise p = some d ∨ s.objects.length ≤ p ∧ os[p - s.objects.length]? = some (.promise d) := by
  rw [promise_eq_some, hs] at hp
  rcases Nat.lt_or_ge p s.objects.length with hlt | hge
  · rw [List.getElem?_append_left hlt] at hp
    exact .inl (promise_eq_some.mpr hp)
  · rw [List.getElem?_append_right hge] at hp
    exact .inr ⟨hge, hp⟩

/-! ## The invariant -/

/-- The jobs enqueued for the reactions of the promise `p`. -/
def JSRuntime.jobs (s : JSRuntime) (p : ℕ) : List Job :=
  s.enqueued.filterMap fun e => if e.1 = some p then some e.2 else none

/-- The registrations with the promise `p`. -/
def JSRuntime.registrations (s : JSRuntime) (p : ℕ) : List (Pair JSPromiseReactionData) :=
  s.registered.filterMap fun e => if e.1 = p then some e.2 else none

/-- The job of a registration with the settled promise `d`: the reaction of the settled
kind is called with the result. -/
def JSPromiseData.reactionJob (d : JSPromiseData) (rds : Pair JSPromiseReactionData) : Job :=
  .reaction (rds.get (d.promiseState = .rejected)) (d.promiseState = .rejected) d.promiseResult

/-- A promise, its registrations and its jobs. -/
structure JSPromiseData.Lawful (d : JSPromiseData) (regs : List (Pair JSPromiseReactionData))
    (jobs : List Job) : Prop where
  /-- a pending promise keeps its reactions -/
  pending : d.promiseState = .pending →
    jobs = [] ∧ d.promiseReactions = ⟨regs.map Pair.fulfill, regs.map Pair.reject⟩
  /-- a settled one has handed them over -/
  settled : d.promiseState ≠ .pending → jobs = regs.map d.reactionJob ∧ d.promiseReactions = ⟨[], []⟩
  /-- a promise nobody has registered with -/
  unhandled : d.isHandled = false → regs = []

/-- The resolving functions with the flag `r` are the two objects from `f` on. -/
structure JSRuntime.IsPair (s : JSRuntime) (f p r : ℕ) : Prop where
  resolve : s.objects[f]? = some (.resolvingFunction false p r)
  reject : s.objects[f + 1]? = some (.resolvingFunction true p r)
  only : ∀ (g : ℕ) b q, s.objects[g]? = some (.resolvingFunction b q r) → g = f ∨ g = f + 1

/-- A native function that waits for a settled promise waits for a promise that is
settled. -/
def JSRuntime.FrameOk (s : JSRuntime) : Frame → Prop
  | .rejected p _ | .handled p _ => ∃ d, s.promise p = some d ∧ d.promiseState ≠ .pending
  | _ => True

structure JSRuntime.Inv (s : JSRuntime) : Prop where
  lawful : ∀ p d, s.promise p = some d → d.Lawful (s.registrations p) (s.jobs p)
  absent : ∀ p, s.promise p = none → s.registrations p = [] ∧ s.jobs p = []
  frames : ∀ f ∈ s.frames, s.FrameOk f
  queue : s.started ≤ s.enqueued.length ∧ s.jobList = (s.enqueued.drop s.started).map Prod.snd
  pairs : ∀ (g : ℕ) b p r, s.objects[g]? = some (.resolvingFunction b p r) →
    r < s.alreadyResolved.length ∧ ∃ f, s.IsPair f p r

/-- What no step undoes: a promise is settled for good, with its result. -/
structure Extends (s s' : JSRuntime) : Prop where
  promise : ∀ p d, s.promise p = some d → ∃ d', s'.promise p = some d' ∧ (d.promiseState ≠ .pending →
      d'.promiseState = d.promiseState ∧ d'.promiseResult = d.promiseResult)
  flag : ∀ r : ℕ, s.alreadyResolved[r]? = some true → s'.alreadyResolved[r]? = some true

/-- A step that keeps the invariant. -/
structure Next (s s' : JSRuntime) : Prop extends Extends s s' where
  inv : s.Inv → s'.Inv

theorem Extends.refl (s : JSRuntime) : Extends s s where
  promise _ d hp := ⟨d, hp, fun _ => ⟨rfl, rfl⟩⟩
  flag _ h := h

theorem Extends.trans (h : Extends s t) (h' : Extends t s') : Extends s s' where
  promise p d hp := by
    obtain ⟨d₁, hd₁, hs₁⟩ := h.promise p d hp
    obtain ⟨d₂, hd₂, hs₂⟩ := h'.promise p d₁ hd₁
    refine ⟨d₂, hd₂, fun hne => ?_⟩
    obtain ⟨hstate, hresult⟩ := hs₁ hne
    obtain ⟨hstate', hresult'⟩ := hs₂ (hstate ▸ hne)
    exact ⟨hstate'.trans hstate, hresult'.trans hresult⟩
  flag r hr := h'.flag r (h.flag r hr)

theorem Next.refl (s : JSRuntime) : Next s s := ⟨.refl s, id⟩

theorem Next.trans (h : Next s t) (h' : Next t s') : Next s s' :=
  ⟨h.toExtends.trans h'.toExtends, fun hi => h'.inv (h.inv hi)⟩

/-- A promise that is settled stays settled. -/
theorem Extends.settled (h : Extends s s') (hp : ∃ d, s.promise p = some d ∧ d.promiseState ≠ .pending) :
    ∃ d, s'.promise p = some d ∧ d.promiseState ≠ .pending := by
  obtain ⟨d, hd, hne⟩ := hp
  obtain ⟨d', hd', hs⟩ := h.promise p d hd
  exact ⟨d', hd', by rwa [(hs hne).1]⟩

theorem Extends.frameOk (h : Extends s s') {f : Frame} (hf : s.FrameOk f) : s'.FrameOk f := by
  cases f with
  | rejected => exact h.settled hf
  | handled => exact h.settled hf
  | _ => trivial

/-! ## Steps that leave the promises alone -/

/-- The pairs depend on the objects only. -/
theorem JSRuntime.IsPair.congr (hs : s'.objects = s.objects) (h : s.IsPair f p r) : s'.IsPair f p r :=
  ⟨hs ▸ h.resolve, hs ▸ h.reject, hs ▸ h.only⟩

/-- The frames that wait may change, as long as they are sound. -/
theorem Next.of_frames {fs : List Frame} (h : s.Inv → ∀ f ∈ fs, s.FrameOk f) :
    Next s { s with frames := fs } where
  promise _ d hp := ⟨d, hp, fun _ => ⟨rfl, rfl⟩⟩
  flag _ h := h
  inv hi := by
    refine ⟨hi.lawful, hi.absent, h hi, hi.queue, fun g b p r hg => ?_⟩
    obtain ⟨hr, f, hf⟩ := hi.pairs g b p r hg
    exact ⟨hr, f, hf.congr (by rfl)⟩

theorem next_push {f : Frame} (h : s.Inv → s.FrameOk f) : Next s (s.push f) :=
  .of_frames fun hi g hg => by
    cases hg with
    | head => exact h hi
    | tail _ hg => exact hi.frames g hg

/-- Setting a flag. -/
theorem next_setFlag (s : JSRuntime) (r : ℕ) :
    Next s { s with alreadyResolved := s.alreadyResolved.set r true } where
  promise _ d hp := ⟨d, hp, fun _ => ⟨rfl, rfl⟩⟩
  flag r' h := by
    by_cases hr : r' = r
    · subst hr
      exact List.getElem?_set_self (List.getElem?_eq_some_iff.mp h).1
    · exact (List.getElem?_set_ne (Ne.symm hr)).trans h
  inv hi := by
    refine ⟨hi.lawful, hi.absent, hi.frames, hi.queue, fun g b p r' hg => ?_⟩
    obtain ⟨hlt, f, hf⟩ := hi.pairs g b p r' hg
    exact ⟨by rwa [List.length_set], f, hf.congr (by rfl)⟩

/-- The pairs stay pairs when other objects are made. -/
theorem JSRuntime.IsPair.append (hs : s'.objects = s.objects ++ os)
    (hos : ∀ (i : ℕ) b q, os[i]? = some (.resolvingFunction b q r) → False) (h : s.IsPair f p r) :
    s'.IsPair f p r where
  resolve := by
    rw [hs, List.getElem?_append_left (List.getElem?_eq_some_iff.mp h.resolve).1, h.resolve]
  reject := by
    rw [hs, List.getElem?_append_left (List.getElem?_eq_some_iff.mp h.reject).1, h.reject]
  only g b q hg := by
    rw [hs] at hg
    rcases Nat.lt_or_ge g s.objects.length with hlt | hge
    · rw [List.getElem?_append_left hlt] at hg
      exact h.only g b q hg
    · rw [List.getElem?_append_right hge] at hg
      exact (hos _ b q hg).elim

/-- A new object that is no resolving function, and a promise only as
`js_promise_constructor` makes it. -/
theorem next_newObject {o : JSObject} (hf : ∀ b p r, o ≠ .resolvingFunction b p r)
    (hp : ∀ d, o = .promise d → d = ⟨.pending, ⟨[], []⟩, false, .undefined⟩) :
    Next s (s.newObject o) := by
  have hext : Extends s (s.newObject o) :=
    ⟨fun p d h => ⟨d, promise_append rfl h, fun _ => ⟨rfl, rfl⟩⟩, fun _ h => h⟩
  refine ⟨hext, fun hi => ?_⟩
  · have hnew : ∀ (i : ℕ) b q r, [o][i]? = some (JSObject.resolvingFunction b q r) → False := by
      intro i b q r h
      obtain ⟨hi, h⟩ := List.getElem?_eq_some_iff.mp h
      rw [List.getElem_singleton] at h
      exact hf b q r h
    refine ⟨fun p d h => ?_, fun p h => hi.absent p (promise_none_of_append rfl h), fun f hfr => ?_, hi.queue,
      fun g b p r hg => ?_⟩
    · rcases promise_of_append rfl h with hold | ⟨hge, hidx⟩
      · exact hi.lawful p d hold
      · have habsent : s.promise p = none := by
          rw [JSRuntime.promise, List.getElem?_eq_none hge]
        obtain ⟨hregs, hjobs⟩ := hi.absent p habsent
        obtain ⟨_, hidx⟩ := List.getElem?_eq_some_iff.mp hidx
        rw [List.getElem_singleton] at hidx
        have hd := hp d hidx
        subst hd
        change JSPromiseData.Lawful _ (s.registrations p) (s.jobs p)
        rw [hregs, hjobs]
        exact ⟨fun _ => ⟨rfl, rfl⟩, fun hne => (hne rfl).elim, fun _ => rfl⟩
    · exact hext.frameOk (hi.frames f hfr)
    · rcases Nat.lt_or_ge g s.objects.length with hlt | hge
      · rw [newObject, List.getElem?_append_left hlt] at hg
        obtain ⟨hr, f, hpair⟩ := hi.pairs g b p r hg
        exact ⟨hr, f, hpair.append rfl fun i b q => hnew i b q r⟩
      · rw [newObject, List.getElem?_append_right hge] at hg
        exact (hnew _ b p r hg).elim

/-- A new pair of resolving functions has a flag of its own. -/
theorem next_createResolvingFunctions (s : JSRuntime) (p : ℕ) : Next s (s.jsCreateResolvingFunctions p) := by
  have hext : Extends s (s.jsCreateResolvingFunctions p) := by
    refine ⟨fun p d h => ⟨d, promise_append rfl h, fun _ => ⟨rfl, rfl⟩⟩, fun r h => ?_⟩
    rw [jsCreateResolvingFunctions, List.getElem?_append_left (List.getElem?_eq_some_iff.mp h).1, h]
  refine ⟨hext, fun hi => ?_⟩
  · have hos : ∀ {i : ℕ} {b q r}, [JSObject.resolvingFunction false p s.alreadyResolved.length,
        .resolvingFunction true p s.alreadyResolved.length][i]? = some (.resolvingFunction b q r) →
        q = p ∧ r = s.alreadyResolved.length ∧ (i = 0 ∨ i = 1) := by
      intro i b q r h
      match i, h with
      | 0, h => cases h; exact ⟨rfl, rfl, .inl rfl⟩
      | 1, h => cases h; exact ⟨rfl, rfl, .inr rfl⟩
    refine ⟨fun q d h => ?_, fun q h => hi.absent q (promise_none_of_append rfl h), fun f hf => ?_, hi.queue,
      fun g b q r hg => ?_⟩
    · rcases promise_of_append rfl h with hold | ⟨_, hidx⟩
      · exact hi.lawful q d hold
      · match q - s.objects.length, hidx with
        | 0, hidx => cases hidx
        | 1, hidx => cases hidx
    · exact hext.frameOk (hi.frames f hf)
    · have hlen : (s.jsCreateResolvingFunctions p).alreadyResolved.length =
          s.alreadyResolved.length + 1 := List.length_append
      rcases Nat.lt_or_ge g s.objects.length with hlt | hge
      · rw [jsCreateResolvingFunctions, List.getElem?_append_left hlt] at hg
        obtain ⟨hr, f, hpair⟩ := hi.pairs g b q r hg
        refine ⟨by omega, f, hpair.append rfl fun i b' q' h => ?_⟩
        obtain ⟨_, hr', _⟩ := hos h
        omega
      · rw [jsCreateResolvingFunctions, List.getElem?_append_right hge] at hg
        obtain ⟨rfl, rfl, _⟩ := hos hg
        refine ⟨by omega, s.objects.length, ?_, ?_, fun g' b' q' hg' => ?_⟩
        · rw [jsCreateResolvingFunctions, List.getElem?_append_right (Nat.le_refl _), Nat.sub_self]
          rfl
        · rw [jsCreateResolvingFunctions, List.getElem?_append_right (Nat.le_add_right _ _),
            Nat.add_sub_cancel_left]
          rfl
        · rcases Nat.lt_or_ge g' s.objects.length with hlt' | hge'
          · rw [jsCreateResolvingFunctions, List.getElem?_append_left hlt'] at hg'
            exact absurd (hi.pairs g' b' q' _ hg').1 (Nat.lt_irrefl _)
          · rw [jsCreateResolvingFunctions, List.getElem?_append_right hge'] at hg'
            have hidx := (hos hg').2.2
            omega

/-! ## Steps that change a promise -/

/-- The promise `p` becomes `d'` while jobs are enqueued and registrations are made for
it. -/
def JSRuntime.update (s : JSRuntime) (p : ℕ) (d' : JSPromiseData) (js : List Job)
    (regs : List (Pair JSPromiseReactionData)) : JSRuntime :=
  { s with
    objects := s.objects.set p (.promise d')
    jobList := s.jobList ++ js
    enqueued := s.enqueued ++ js.map (some p, ·)
    registered := s.registered ++ regs.map (p, ·) }

theorem jobs_update (js : List Job) (regs : List (Pair JSPromiseReactionData)) (q : ℕ) :
    (s.update p d' js regs).jobs q = s.jobs q ++ if q = p then js else [] := by
  rw [JSRuntime.jobs, JSRuntime.update, JSRuntime.jobs]
  split
  · rename_i h
    subst h
    simp [Function.comp_def]
  · rename_i h
    simp [Ne.symm h]

theorem registrations_update (js : List Job) (regs : List (Pair JSPromiseReactionData)) (q : ℕ) :
    (s.update p d' js regs).registrations q = s.registrations q ++ if q = p then regs else [] := by
  rw [JSRuntime.registrations, JSRuntime.update, List.filterMap_append, JSRuntime.registrations]
  split
  · rename_i h
    subst h
    simp [Function.comp_def]
  · rename_i h
    simp [Ne.symm h]

/-- A pair is none of the promises. -/
theorem JSRuntime.IsPair.update
    (hp : s.promise p = some d) (h : s.IsPair f q r) : (s.update p d' js regs).IsPair f q r := by
  have hset : ∀ (g : ℕ) b q r, s.objects[g]? = some (.resolvingFunction b q r) ↔
      (s.objects.set p (.promise d'))[g]? = some (.resolvingFunction b q r) := by
    intro g b q r
    by_cases hg : g = p
    · subst hg
      rw [List.getElem?_set_self (promise_lt hp), promise_eq_some.mp hp]
      constructor <;> intro h <;> cases h
    · rw [List.getElem?_set_ne (Ne.symm hg)]
  exact ⟨(hset ..).mp h.resolve, (hset ..).mp h.reject, fun g b q hg =>
    h.only g b q ((hset ..).mpr hg)⟩

/-- The step lemma of a promise: its result is not touched once it is settled, and the
jobs and registrations fit its new state. -/
theorem next_update (hp : s.promise p = some d) (hset : d.promiseState ≠ .pending →
      d'.promiseState = d.promiseState ∧ d'.promiseResult = d.promiseResult)
    (hlaw : ∀ R J, d.Lawful R J → d'.Lawful (R ++ regs) (J ++ js)) :
    Next s (s.update p d' js regs) := by
  have hlook : ∀ q, (s.update p d' js regs).promise q = if q = p then some d' else s.promise q :=
    fun q => (promise_congr rfl q).trans (promise_setPromise hp q)
  have hext : Extends s (s.update p d' js regs) := by
    refine ⟨fun q e he => ?_, fun _ h => h⟩
    rw [hlook]
    split
    · rename_i h
      rw [h, hp, Option.some.injEq] at he
      subst he
      exact ⟨d', rfl, hset⟩
    · exact ⟨e, he, fun _ => ⟨rfl, rfl⟩⟩
  refine ⟨hext, fun hi => ⟨fun q e he => ?_, fun q hq => ?_, fun f hf => hext.frameOk
    (hi.frames f hf), ⟨?_, ?_⟩, fun g b q r hg => ?_⟩⟩
  · rw [jobs_update, registrations_update]
    rw [hlook] at he
    by_cases h : q = p
    · rw [if_pos h, Option.some.injEq] at he
      subst h he
      rw [if_pos rfl, if_pos rfl]
      exact hlaw _ _ (hi.lawful q d hp)
    · rw [if_neg h] at he
      rw [if_neg h, if_neg h, List.append_nil, List.append_nil]
      exact hi.lawful q e he
  · rw [hlook] at hq
    rw [jobs_update, registrations_update]
    by_cases h : q = p
    · rw [if_pos h] at hq
      cases hq
    · rw [if_neg h] at hq
      rw [if_neg h, if_neg h, List.append_nil, List.append_nil]
      exact hi.absent q hq
  · rw [JSRuntime.update, List.length_append]
    exact Nat.le_add_right_of_le hi.queue.1
  · rw [JSRuntime.update, List.drop_append_of_le_length hi.queue.1, List.map_append, List.map_map,
      ← hi.queue.2]
    exact congrArg (s.jobList ++ ·) (List.map_id js).symm
  · have hne : g ≠ p := by
      intro h
      rw [h, JSRuntime.update, List.getElem?_set_self (promise_lt hp)] at hg
      cases hg
    rw [JSRuntime.update, List.getElem?_set_ne hne.symm] at hg
    obtain ⟨hr, f, hf⟩ := hi.pairs g b q r hg
    exact ⟨hr, f, hf.update hp⟩

/-- Enqueuing the job of a thenable. -/
theorem next_enqueueThenable (s : JSRuntime) (job : Job) : Next s (s.jsEnqueueJob none job) := by
  have hext : Extends s (s.jsEnqueueJob none job) := ⟨(Extends.refl s).promise, fun _ h => h⟩
  have hjobs : ∀ p, (s.jsEnqueueJob none job).jobs p = s.jobs p := by
    intro p
    rw [JSRuntime.jobs, jsEnqueueJob, JSRuntime.jobs]
    simp
  refine ⟨hext, fun hi => ⟨fun p d hp => ?_, fun p hp => ?_, fun f hf => hext.frameOk
    (hi.frames f hf), ⟨?_, ?_⟩, fun g b p r hg => ?_⟩⟩
  · rw [hjobs]
    exact hi.lawful p d hp
  · rw [hjobs]
    exact hi.absent p hp
  · rw [jsEnqueueJob, List.length_append]
    exact Nat.le_add_right_of_le hi.queue.1
  · rw [jsEnqueueJob, List.drop_append_of_le_length hi.queue.1, List.map_append, ← hi.queue.2]
    rfl
  · obtain ⟨hr, f, hf⟩ := hi.pairs g b p r hg
    exact ⟨hr, f, hf.congr (by rfl)⟩

/-- Enqueuing the reactions of a list one by one. -/
theorem foldl_jsEnqueueJob (p : ℕ) (v : JSValue) (b : Bool) :
    ∀ (rds : List JSPromiseReactionData) (s : JSRuntime),
      rds.foldl (fun s rd => s.jsEnqueueJob (some p) (.reaction rd b v)) s = { s with
          jobList := s.jobList ++ rds.map (Job.reaction · b v)
          enqueued := s.enqueued ++ (rds.map (Job.reaction · b v)).map (some p, ·) }
  | [], s => by simp
  | rd :: rds, s => by
    rw [List.foldl_cons, foldl_jsEnqueueJob]
    simp [jsEnqueueJob]

theorem drain_eq (hp : s.promise p = some d) :
    s.drain p v b = s.update p { d with promiseReactions := ⟨[], []⟩ }
      ((d.promiseReactions.get b).map (Job.reaction · b v)) [] := by
  simp only [drain, hp, foldl_jsEnqueueJob, setPromise, JSRuntime.update, List.map_nil, List.append_nil]

theorem update_setPromise {e : JSPromiseData}
    :
    (s.setPromise p e).update p d' js regs = s.update p d' js regs := by
  simp only [JSRuntime.update, setPromise, List.set_set]

theorem setPromise_eq : s.setPromise p d' = s.update p d' [] [] := by
  simp only [JSRuntime.update, setPromise, List.map_nil, List.append_nil]

/-- Settling a promise: the reactions of the settled kind become jobs. -/
theorem next_fulfillOrRejectPromise (s : JSRuntime) (p : ℕ) (v : JSValue) (b : Bool) :
    Next s (s.fulfillOrRejectPromise p v b) := by
  unfold fulfillOrRejectPromise
  split
  · exact .refl s
  rename_i d hp
  split
  case isFalse => exact .refl s
  rename_i hpending
  have hstate : JSPromiseStateEnum.settled b ≠ .pending := by cases b <;> nofun
  let d₁ := { d with promiseResult := v, promiseState := .settled b }
  have hp₁ : (s.setPromise p d₁).promise p = some d₁ := by
    rw [promise_setPromise hp, if_pos rfl]
  change Next s (if b && !d.isHandled && s.tracker then (s.setPromise p d₁).push (.rejected p v)
    else (s.setPromise p d₁).drain p v b)
  split
  · rename_i htracker
    rw [Bool.and_eq_true, Bool.and_eq_true, Bool.not_eq_true'] at htracker
    have hnext : Next s (s.setPromise p d₁) := by
      rw [setPromise_eq]
      refine next_update hp (fun hne => (hne hpending).elim) fun R J h => ?_
      -- nobody has registered, so the lists are empty already
      have hR : R = [] := h.unhandled htracker.1.2
      obtain ⟨hJ, hlists⟩ := h.pending hpending
      rw [hJ, hR]
      exact ⟨fun h => (hstate h).elim, fun _ => ⟨rfl, by rw [hlists, hR]; rfl⟩, fun _ => rfl⟩
    exact hnext.trans (next_push fun _ => ⟨d₁, hp₁, hstate⟩)
  · rw [drain_eq hp₁, update_setPromise]
    refine next_update hp (fun hne => (hne hpending).elim) fun R J h => ?_
    obtain ⟨hJ, hlists⟩ := h.pending hpending
    refine ⟨fun h => (hstate h).elim, fun _ => ⟨?_, rfl⟩, fun hu => ?_⟩
    · rw [List.append_nil, hJ, hlists]
      cases b <;> exact List.map_map
    · rw [List.append_nil, h.unhandled hu]

/-- A settled promise has nothing left to drain. -/
theorem next_drain (hp : s.promise p = some d) (hne : d.promiseState ≠ .pending) :
    Next s (s.drain p v b) := by
  rw [drain_eq hp]
  refine next_update hp (fun _ => ⟨rfl, rfl⟩) fun R J h => ?_
  obtain ⟨hJ, hlists⟩ := h.settled hne
  rw [hlists]
  have hnil : ((⟨[], []⟩ : Pair (List JSPromiseReactionData)).get b).map (Job.reaction · b v) = [] := by
    cases b <;> rfl
  rw [hnil, List.append_nil, List.append_nil]
  exact ⟨fun h => (hne h).elim, fun _ => ⟨hJ, rfl⟩, h.unhandled⟩

/-- Registering with a settled promise. -/
theorem next_thenSettled {rds : Pair JSPromiseReactionData} (hp : s.promise p = some d)
    (hne : d.promiseState ≠ .pending) : Next s (s.thenSettled p rds) := by
  have heq : s.thenSettled p rds = s.update p { d with isHandled := true } [d.reactionJob rds] [rds] := by
    simp only [thenSettled, hp]
    rfl
  rw [heq]
  refine next_update hp (fun _ => ⟨rfl, rfl⟩) fun R J h => ?_
  obtain ⟨hJ, hlists⟩ := h.settled hne
  refine ⟨fun h => (hne h).elim, fun _ => ⟨?_, hlists⟩, nofun⟩
  rw [hJ, List.map_append]
  rfl

/-- Registering with a promise. -/
theorem next_performPromiseThen {rr cap : Pair JSValue}
    (h : s.performPromiseThen p rr cap = some s') : Next s s' := by
  unfold performPromiseThen at h
  split at h
  · cases h
  rename_i d hp
  split at h
  · rename_i hpending
    rw [← Option.some.inj h]
    have heq : ∀ (e : JSPromiseData) (rds : Pair JSPromiseReactionData),
        setPromise { s with registered := s.registered ++ [(p, rds)] } p e = s.update p e [] [rds] := by
      intro e rds
      simp only [setPromise, JSRuntime.update, List.map_nil, List.append_nil, List.map_cons]
    rw [heq]
    refine next_update hp (fun hne => (hne hpending).elim) fun R J h => ?_
    obtain ⟨hJ, hlists⟩ := h.pending hpending
    refine ⟨fun _ => ⟨by rw [hJ, List.append_nil], ?_⟩, fun hne => (hne hpending).elim, nofun⟩
    rw [hlists, List.map_append, List.map_append]
    rfl
  · rename_i hne
    split at h
    · rw [← Option.some.inj h]
      exact next_push fun _ => ⟨d, hp, hne⟩
    · rw [← Option.some.inj h]
      exact next_thenSettled hp hne

/-! ## Calls and jobs -/

/-- A resolving function whose flag is not set. -/
theorem next_resolve (hr : s.alreadyResolved[r]?.getD true = false) :
    Next { s with alreadyResolved := s.alreadyResolved.set r true }
      (s.jsPromiseResolveFunctionCall b p r arg) := by
  rw [jsPromiseResolveFunctionCall, if_neg (by rw [hr]; nofun)]
  split
  · split
    · refine (next_newObject ?_ ?_).trans (next_fulfillOrRejectPromise ..) <;> nofun
    · exact next_push fun _ => trivial
  · exact next_fulfillOrRejectPromise ..

theorem next_jsPromiseResolveFunctionCall (s : JSRuntime) (b : Bool) (p r : ℕ)
    (arg : Option JSValue) : Next s (s.jsPromiseResolveFunctionCall b p r arg) := by
  cases hr : s.alreadyResolved[r]?.getD true with
  | true =>
    rw [jsPromiseResolveFunctionCall, if_pos hr]
    exact .refl s
  | false => exact (next_setFlag s r).trans (next_resolve hr)

theorem next_jsCall (s : JSRuntime) (f : JSValue) (arg : Option JSValue) : Next s (s.jsCall f arg) := by
  unfold jsCall
  split
  · split
    · exact next_jsPromiseResolveFunctionCall ..
    · exact .refl s
  · exact .refl s

theorem next_resolveWithThen (s : JSRuntime) (p : ℕ) (v : JSValue) (c : Completion) :
    Next s (s.resolveWithThen p v c) := by
  cases c with
  | exception error => exact next_fulfillOrRejectPromise ..
  | value w =>
    rw [resolveWithThen]
    split
    · exact next_enqueueThenable ..
    · exact next_fulfillOrRejectPromise ..

theorem next_reactionJobReturn (s : JSRuntime) (funcs : Pair JSValue) (c : Completion) :
    Next s (s.reactionJobReturn funcs c) := by
  unfold reactionJobReturn
  split
  split
  · exact .refl s
  · refine (next_push ?_).trans (next_jsCall ..)
    exact fun _ => trivial

theorem next_promiseReactionJob (s : JSRuntime) (rd : JSPromiseReactionData) (b : Bool)
    (v : JSValue) : Next s (s.promiseReactionJob rd b v) := by
  unfold promiseReactionJob
  split
  · exact next_reactionJobReturn ..
  · refine (next_push ?_).trans (next_jsCall ..)
    exact fun _ => trivial

theorem next_jsPromiseResolveThenableJob (s : JSRuntime) (p : ℕ) (v : JSValue) :
    Next s (s.jsPromiseResolveThenableJob p v) := by
  refine ((next_createResolvingFunctions s p).trans (next_push ?_)).trans (next_jsCall ..)
  exact fun _ => trivial

/-- Taking a job from the list. -/
theorem next_takeJob {job : Job} {jobs : List Job} (h : s.jobList = job :: jobs) :
    Next s { s with jobList := jobs, started := s.started + 1 } where
  promise _ d hp := ⟨d, hp, fun _ => ⟨rfl, rfl⟩⟩
  flag _ h := h
  inv hi := by
    obtain ⟨hle, hqueue⟩ := hi.queue
    rw [h] at hqueue
    have hlt : s.started < s.enqueued.length := by
      by_contra hge
      rw [List.drop_eq_nil_of_le (Nat.le_of_not_lt hge)] at hqueue
      cases hqueue
    rw [List.drop_eq_getElem_cons hlt, List.map_cons, List.cons.injEq] at hqueue
    refine ⟨hi.lawful, hi.absent, hi.frames, ⟨hlt, hqueue.2⟩, fun g b p r hg => ?_⟩
    obtain ⟨hr, f, hf⟩ := hi.pairs g b p r hg
    exact ⟨hr, f, hf.congr (by rfl)⟩

theorem next_jsExecutePendingJob (h : s.jsExecutePendingJob = some s') : Next s s' := by
  unfold jsExecutePendingJob at h
  split at h
  · cases h
  · rename_i hjobs
    refine (next_takeJob hjobs).trans ?_
    split at h
    · rw [← Option.some.inj h]
      exact next_promiseReactionJob ..
    · rw [← Option.some.inj h]
      exact next_jsPromiseResolveThenableJob ..

theorem next_jsPromiseConstructor (s : JSRuntime) : Next s s.jsPromiseConstructor :=
  ((next_newObject (o := .promise _) nofun fun _ h => (JSObject.promise.inj h).symm).trans
    (next_createResolvingFunctions _ _)).trans (next_push fun _ => trivial)

theorem next_ret {c : Completion} (hi : s.Inv) (h : s.ret c = some s') : Next s s' := by
  unfold JSRuntime.ret at h
  split at h
  · cases h
  · rename_i f frames hframes
    have hf : s.FrameOk f := hi.frames f (hframes ▸ List.mem_cons_self)
    have hpop : Next s { s with frames := frames } :=
      .of_frames fun hi g hg => hi.frames g (hframes ▸ List.mem_cons_of_mem f hg)
    refine hpop.trans ?_
    rw [← Option.some.inj h]
    split
    · exact next_jsCall ..
    · exact next_jsCall ..
    · exact .refl _
    · exact .refl _
    · exact .refl _
    · exact next_reactionJobReturn ..
    · exact next_resolveWithThen ..
    · obtain ⟨d, hd, hne⟩ := hf
      exact next_drain hd hne
    · obtain ⟨d, hd, hne⟩ := hf
      exact next_thenSettled hd hne

theorem next_step {o : Op} (hi : s.Inv) (h : step s o = some s') : Next s s' := by
  cases o with
  | newPromise => exact Option.some.inj h ▸ next_jsPromiseConstructor s
  | newObject callable =>
    rw [← Option.some.inj h]
    cases callable with
    | false => exact next_newObject (o := .plain) nofun nofun
    | true => exact next_newObject (o := .function) nofun nofun
  | call f arg => exact Option.some.inj h ▸ next_jsCall s f arg
  | then_ p rr cap => exact next_performPromiseThen h
  | executePendingJob => exact next_jsExecutePendingJob h
  | ret c => exact next_ret hi h

theorem inv_of_fresh (h : Fresh s) : s.Inv := by
  obtain ⟨hobjects, _, hjobs, hframes, henqueued, hstarted, hregistered⟩ := h
  have hnone : ∀ p, s.promise p = none := by
    intro p
    rw [JSRuntime.promise, hobjects]
    rfl
  refine ⟨fun p d hp => ?_, fun p _ => ⟨?_, ?_⟩, ?_, ⟨?_, ?_⟩, fun g b p r hg => ?_⟩
  · rw [hnone] at hp
    cases hp
  · rw [JSRuntime.registrations, hregistered]
    rfl
  · rw [JSRuntime.jobs, henqueued]
    rfl
  · rw [hframes]
    nofun
  · rw [hstarted]
    exact Nat.zero_le _
  · rw [hjobs, henqueued, hstarted]
    rfl
  · rw [hobjects] at hg
    cases hg

/-! ## Whole runs -/

/-- Every reachable state satisfies the invariant. -/
theorem inv_of_reachable (h : Reachable Fresh step (fun _ _ => True) s) : s.Inv :=
  h.invariant (fun _ => inv_of_fresh) fun _ _ _ hi _ hs => (next_step hi hs).inv hi

end QuickJs.Promise
