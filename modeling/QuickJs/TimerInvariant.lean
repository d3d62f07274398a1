import QuickJs.Timer

/-!
# The invariant of timers

A timer belongs to the list, to its script object, or to both, and what is referred to is alive. This
survives every step, as long as the collector finds the callback of every timer in the list alive and
the clock and the delays do not run over.
-/

namespace QuickJs.Timer

open RefGraph Run

variable {s s' : State} {o o' p t t' f : ℕ} {ob : JSObject} {th th' : JSOSTimer} {e : Event}
  {op : Op}

/-! ## What has to hold -/

/-- The timer that an event is about. -/
def Event.timer : Event → ℕ
  | armed t _ | fired t _ | cleared t | freed t => t

/-- What may follow a history, the latest event first. -/
def Event.MayFollow (log : List Event) : Event → Prop
  | armed t _ => ∀ e ∈ log, e.timer ≠ t
  | fired t time => (∃ due, .armed t due ∈ log ∧ due ≤ time) ∧ (∀ time', .fired t time' ∉ log) ∧
      .cleared t ∉ log ∧ .freed t ∉ log
  | cleared t => .freed t ∉ log
  | freed t => .freed t ∉ log

/-- Every timer fires at most once, after its delay and not after it has been cleared, and is freed
at most once. -/
def Orderly : List Event → Prop
  | [] => True
  | e :: log => e.MayFollow log ∧ Orderly log

def State.kindOf (s : State) (o : ℕ) : Option ObjectKind := (s.object o).map JSObject.kind

/-- A timer has fired or has been cleared. -/
def State.Settled (s : State) (t : ℕ) : Prop :=
  (∃ time, .fired t time ∈ s.log) ∨ .cleared t ∈ s.log

/-- The timers are right in a state. -/
structure State.Correct (s : State) : Prop where
  /-- the callback of each timer in the list is alive -/
  live : ∀ t ∈ s.osTimers, ∃ th func, s.timer t = some th ∧ th.func = some func ∧ (s.object func).isSome
  orderly : Orderly s.log
  /-- an armed timer stays in the list until it has fired or has been cleared -/
  listed : ∀ t due, .armed t due ∈ s.log → t ∈ s.osTimers ∨ s.Settled t ∨ s.exited = true
  /-- a timer is freed as soon as it is neither in the list nor has an object -/
  freed : ∀ t < s.timers.length,
    .freed t ∈ s.log ↔ t ∉ s.osTimers ∧ ∀ o, s.kindOf o ≠ some (.osTimer t)

/-- The number of polls in a run. -/
def polls (ops : List Op) : ℕ := ops.count .poll

/-- A step does not go wrong: what the collector does not reach is not the callback of a timer in
the list, and times do not run over. -/
def Op.safe (s : State) : Op → Prop
  | .runGC => ∀ t ∈ s.osTimers, ∀ th func, s.timer t = some th → th.func = some func →
      Reachable s.edges (· ∈ s.external.toFinset) func
  | .setTimeout _ delay => s.now + delay < 2 ^ 63
  | .poll => ∀ t ∈ s.osTimers, ∀ th, s.timer t = some th → -2 ^ 63 ≤ th.timeout - s.now
  | _ => True

/-! ## Invariants -/

/-- A timer belongs to the list, to its object, or to both. -/
structure Memory (s : State) : Prop where
  nodup : s.osTimers.Nodup
  listed : ∀ t ∈ s.osTimers, ∃ th, s.timer t = some th
  owned : ∀ o t, s.kindOf o = some (.osTimer t) → ∃ th, s.timer t = some th ∧ th.hasObject = true
  unique : ∀ o o' t, s.kindOf o = some (.osTimer t) → s.kindOf o' = some (.osTimer t) → o = o'
  owner : ∀ t th, s.timer t = some th → th.hasObject = true → ∃ o, s.kindOf o = some (.osTimer t)
  kept : ∀ t th, s.timer t = some th → t ∈ s.osTimers ∨ th.hasObject = true

/-- What is referred to is alive. -/
structure Live (s : State) : Prop where
  roots : ∀ o ∈ s.roots, (s.object o).isSome
  calling : ∀ o, s.calling = some o → (s.object o).isSome
  children : ∀ o ob, s.object o = some ob → ∀ c ∈ ob.children, (s.object c).isSome
  funcs : ∀ t th f, s.timer t = some th → th.func = some f → (s.object f).isSome
  armed : ∀ t ∈ s.osTimers, ∀ th, s.timer t = some th → th.func.isSome

/-- The history is that of the timers. -/
structure Logged (s : State) : Prop where
  orderly : Orderly s.log
  known : ∀ e ∈ s.log, e.timer < s.timers.length
  freed : ∀ t < s.timers.length, .freed t ∈ s.log ↔ s.timer t = none
  listed : ∀ t ∈ s.osTimers, ¬ s.Settled t
  due : ∀ t ∈ s.osTimers, ∀ th, s.timer t = some th → .armed t th.timeout ∈ s.log ∧ th.timeout < 2 ^ 63
  settled : ∀ t due, .armed t due ∈ s.log → t ∈ s.osTimers ∨ s.Settled t ∨ s.exited = true
  clock : 0 ≤ s.now ∧ s.now < 2 ^ 63

structure Inv (s : State) : Prop where
  memory : Memory s
  live : Live s
  logged : Logged s

theorem Inv.correct (h : Inv s) : s.Correct := by
  refine ⟨fun t ht => ?_, h.logged.orderly, h.logged.settled, fun t hlt => ?_⟩
  · obtain ⟨th, hth⟩ := h.memory.listed t ht
    obtain ⟨f, hf⟩ := Option.isSome_iff_exists.mp (h.live.armed t ht th hth)
    exact ⟨th, f, hth, hf, h.live.funcs t th f hth hf⟩
  · rw [h.logged.freed t hlt]
    constructor
    · intro hnone
      refine ⟨fun ht => ?_, fun o ho => ?_⟩
      · obtain ⟨th, hth⟩ := h.memory.listed t ht
        cases hnone.symm.trans hth
      · obtain ⟨th, hth, -⟩ := h.memory.owned o t ho
        cases hnone.symm.trans hth
    · rintro ⟨hnot, hno⟩
      cases hth : s.timer t with
      | none => rfl
      | some th =>
        obtain ⟨o, ho⟩ := h.memory.owner t th hth ((h.memory.kept t th hth).resolve_left hnot)
        exact absurd ho (hno o)

/-! ## Slots -/

section
variable {α : Type} {l : List (Option α)} {x : Option α} {i j : ℕ}

theorem join_append_self : (l ++ [x])[l.length]?.join = x := by
  rw [List.getElem?_concat_length, Option.join_some]

theorem join_append_of_ne (h : j ≠ l.length) : (l ++ [x])[j]?.join = l[j]?.join := by
  rcases Nat.lt_or_gt_of_ne h with h | h
  · rw [List.getElem?_append_left h]
  · rw [List.getElem?_eq_none (by rw [List.length_append]; exact h), List.getElem?_eq_none h.le]

theorem join_set_self (h : i < l.length) : (l.set i x)[i]?.join = x := by
  rw [List.getElem?_set_self h, Option.join_some]

theorem join_set_of_ne (h : i ≠ j) : (l.set i x)[j]?.join = l[j]?.join := by
  rw [List.getElem?_set_ne h]

end

theorem lt_of_object (h : s.object o = some ob) : o < s.objects.length := by
  rw [State.object, Option.join_eq_some_iff] at h
  exact (List.getElem?_eq_some_iff.mp h).1

theorem lt_of_timer (h : s.timer t = some th) : t < s.timers.length := by
  rw [State.timer, Option.join_eq_some_iff] at h
  exact (List.getElem?_eq_some_iff.mp h).1

theorem setTimer_self (h : t < s.timers.length) : (s.setTimer t th).timer t = some th :=
  join_set_self h

theorem setTimer_of_ne (h : t ≠ t') : (s.setTimer t th).timer t' = s.timer t' := join_set_of_ne h

theorem freeTimer_of_ne (h : t ≠ t') : (s.freeTimer t).timer t' = s.timer t' := join_set_of_ne h

theorem freeTimer_self (h : t < s.timers.length) : (s.freeTimer t).timer t = none :=
  join_set_self h

/-! ## Steps that leave the timers alone -/

/-- The timers, the list and the history are the same. -/
structure SameTimers (s s' : State) : Prop where
  timers : s'.timers = s.timers
  osTimers : s'.osTimers = s.osTimers
  log : s'.log = s.log
  exited : s'.exited = s.exited

theorem SameTimers.timer (h : SameTimers s s') (t : ℕ) : s'.timer t = s.timer t := by
  rw [State.timer, h.timers, State.timer]

theorem SameTimers.logged (h : SameTimers s s') (hl : Logged s) (hnow : 0 ≤ s'.now ∧ s'.now < 2 ^ 63) :
    Logged s' where
  orderly := h.log ▸ hl.orderly
  known := by
    rw [h.log, h.timers]
    exact hl.known
  freed t := by
    rw [h.log, h.timers, h.timer]
    exact hl.freed t
  listed t := by
    rw [h.osTimers, State.Settled, h.log]
    exact hl.listed t
  due t ht th hth := by
    rw [h.log]
    exact hl.due t (h.osTimers ▸ ht) th (h.timer t ▸ hth)
  settled t due := by
    rw [h.osTimers, h.exited, State.Settled, h.log]
    exact hl.settled t due
  clock := hnow

theorem SameTimers.memory (h : SameTimers s s') (hm : Memory s)
    (hkind : ∀ o t, s'.kindOf o = some (.osTimer t) ↔ s.kindOf o = some (.osTimer t)) : Memory s' where
  nodup := h.osTimers ▸ hm.nodup
  listed t ht := h.timer t ▸ hm.listed t (h.osTimers ▸ ht)
  owned o t ho := h.timer t ▸ hm.owned o t ((hkind o t).mp ho)
  unique o o' t ho ho' := hm.unique o o' t ((hkind o t).mp ho) ((hkind o' t).mp ho')
  owner t th hth hobj := by
    obtain ⟨o, ho⟩ := hm.owner t th (h.timer t ▸ hth) hobj
    exact ⟨o, (hkind o t).mpr ho⟩
  kept t th hth := h.osTimers ▸ hm.kept t th (h.timer t ▸ hth)

/-- What is alive stays alive, and refers to what is alive. -/
theorem SameTimers.live (h : SameTimers s s') (hl : Live s)
    (halive : ∀ o, (s.object o).isSome → (s'.object o).isSome)
    (hroots : ∀ o ∈ s'.roots, (s'.object o).isSome)
    (hcalling : ∀ o, s'.calling = some o → s.calling = some o)
    (hchildren : ∀ o ob, s'.object o = some ob → ∀ c ∈ ob.children, (s'.object c).isSome) :
    Live s' where
  roots := hroots
  calling o ho := halive o (hl.calling o (hcalling o ho))
  children := hchildren
  funcs t th f hth hf := halive f (hl.funcs t th f (h.timer t ▸ hth) hf)
  armed t ht th hth := hl.armed t (h.osTimers ▸ ht) th (h.timer t ▸ hth)

section
variable {x : Option JSObject}

theorem object_append_self (hs : s'.objects = s.objects ++ [x]) : s'.object s.objects.length = x := by
  rw [State.object, hs]
  exact join_append_self

theorem object_append_of_ne (hs : s'.objects = s.objects ++ [x]) (h : o ≠ s.objects.length) :
    s'.object o = s.object o := by
  rw [State.object, hs]
  exact join_append_of_ne h

theorem object_set_self (hs : s'.objects = s.objects.set p x) (hp : p < s.objects.length) :
    s'.object p = x := by
  rw [State.object, hs]
  exact join_set_self hp

theorem object_set_of_ne (hs : s'.objects = s.objects.set p x) (h : p ≠ o) : s'.object o = s.object o := by
  rw [State.object, hs]
  exact join_set_of_ne h
end

theorem object_length : s.object s.objects.length = none := by
  rw [State.object, List.getElem?_eq_none (Nat.le_refl _), Option.join_none]

theorem Inv.newFunction {children : List ℕ} (h : Inv s) (hchildren : children ⊆ s.roots) : Inv { s with
      objects := s.objects ++ [some ⟨.function, children⟩]
      roots := s.objects.length :: s.roots } := by
  generalize hs' : ({ s with objects := _, roots := _ } : State) = s'
  have hobjects : s'.objects = s.objects ++ [some ⟨.function, children⟩] := hs' ▸ rfl
  have hself : s'.object s.objects.length = some ⟨.function, children⟩ := object_append_self hobjects
  have hne (o : ℕ) (ho : o ≠ s.objects.length) : s'.object o = s.object o :=
    object_append_of_ne hobjects ho
  have hold (o : ℕ) (ho : (s.object o).isSome) : s'.object o = s.object o := by
    refine hne o ?_
    rintro rfl
    rw [object_length] at ho
    cases ho
  have halive (o : ℕ) (ho : (s.object o).isSome) : (s'.object o).isSome := hold o ho ▸ ho
  have hsame : SameTimers s s' := by
    subst hs'
    exact ⟨rfl, rfl, rfl, rfl⟩
  refine ⟨hsame.memory h.memory fun o t => ?_, hsame.live h.live halive ?_ ?_ ?_,
    hsame.logged h.logged (hs' ▸ h.logged.clock)⟩
  · by_cases ho : o = s.objects.length
    · subst ho
      rw [State.kindOf, State.kindOf, hself, object_length]
      exact iff_of_false nofun nofun
    · rw [State.kindOf, hne o ho, State.kindOf]
  · subst hs'
    exact List.forall_mem_cons.mpr
      ⟨Option.isSome_of_eq_some hself, fun o ho => halive o (h.live.roots o ho)⟩
  · subst hs'
    exact fun _ => id
  · intro o ob hob c hc
    by_cases ho : o = s.objects.length
    · subst ho
      cases hself.symm.trans hob
      exact halive c (h.live.roots c (hchildren hc))
    · exact halive c (h.live.children o ob (hne o ho ▸ hob) c hc)

theorem Inv.modifyChildren {g : List ℕ → List ℕ} (h : Inv s) (hs : s.modifyChildren p g = some s')
    (hg : ∀ ob, s.object p = some ob → ∀ c ∈ g ob.children, (s.object c).isSome) : Inv s' := by
  obtain ⟨ob, hob, rfl⟩ := Option.map_eq_some_iff.mp hs
  generalize hs' : ({ s with objects := _ } : State) = s'
  have hobjects : s'.objects = s.objects.set p (some { ob with children := g ob.children }) := hs' ▸ rfl
  have hself : s'.object p = some { ob with children := g ob.children } :=
    object_set_self hobjects (lt_of_object hob)
  have hne (o : ℕ) (ho : p ≠ o) : s'.object o = s.object o :=
    object_set_of_ne hobjects ho
  have halive (o : ℕ) (ho : (s.object o).isSome) : (s'.object o).isSome := by
    by_cases hp : p = o
    · rw [← hp, hself]
      rfl
    · rwa [hne o hp]
  have hsame : SameTimers s s' := by
    subst hs'
    exact ⟨rfl, rfl, rfl, rfl⟩
  refine ⟨hsame.memory h.memory fun o t => ?_, hsame.live h.live halive ?_ ?_ ?_,
    hsame.logged h.logged (hs' ▸ h.logged.clock)⟩
  · by_cases hp : p = o
    · rw [← hp, State.kindOf, State.kindOf, hself, hob]
      exact Iff.rfl
    · rw [State.kindOf, hne o hp, State.kindOf]
  · subst hs'
    exact fun o ho => halive o (h.live.roots o ho)
  · subst hs'
    exact fun _ => id
  · intro o ob' hob' c hc
    by_cases hp : p = o
    · rw [← hp, hself, Option.some.injEq] at hob'
      subst hob'
      exact halive c (hg ob hob c hc)
    · exact halive c (h.live.children o ob' (hne o hp ▸ hob') c hc)

/-- References of scripts come and go. -/
theorem Inv.setRoots {roots : List ℕ} {calling : Option ℕ} (h : Inv s)
    (hroots : ∀ o ∈ roots, (s.object o).isSome) (hcalling : ∀ o, calling = some o → s.calling = some o) :
    Inv { s with roots := roots, calling := calling } where
  memory := ⟨h.memory.nodup, h.memory.listed, h.memory.owned, h.memory.unique, h.memory.owner, h.memory.kept⟩
  live := ⟨hroots, fun o ho => h.live.calling o (hcalling o ho), h.live.children, h.live.funcs, h.live.armed⟩
  logged := ⟨h.logged.orderly, h.logged.known, h.logged.freed, h.logged.listed, h.logged.due,
    h.logged.settled, h.logged.clock⟩

theorem Inv.elapse {d : ℕ} (h : Inv s) (hd : s.now + d < 2 ^ 63) : Inv { s with now := s.now + d } where
  memory := ⟨h.memory.nodup, h.memory.listed, h.memory.owned, h.memory.unique, h.memory.owner, h.memory.kept⟩
  live := ⟨h.live.roots, h.live.calling, h.live.children, h.live.funcs, h.live.armed⟩
  logged := ⟨h.logged.orderly, h.logged.known, h.logged.freed, h.logged.listed, h.logged.due,
    h.logged.settled, ⟨Int.add_nonneg h.logged.clock.1 (Int.natCast_nonneg d), hd⟩⟩

/-! ## Freeing -/

/-- Objects go, and timers with them; no timer comes or changes but for its object. -/
structure Shrinks (s s' : State) : Prop where
  object : ∀ o ob, s'.object o = some ob → s.object o = some ob
  timer : ∀ t th', s'.timer t = some th' →
    ∃ th, s.timer t = some th ∧ th'.func = th.func ∧ th'.timeout = th.timeout
  osTimers : s'.osTimers = s.osTimers
  roots : s'.roots = s.roots
  calling : s'.calling = s.calling
  now : s'.now = s.now
  log : s.log ⊆ s'.log

theorem Shrinks.refl (s : State) : Shrinks s s :=
  ⟨fun _ _ => id, fun _ th' h => ⟨th', h, rfl, rfl⟩, rfl, rfl, rfl, rfl, List.Subset.refl _⟩

theorem Shrinks.trans {u : State} (h : Shrinks s s') (h' : Shrinks s' u) : Shrinks s u where
  object o ob ho := h.object o ob (h'.object o ob ho)
  timer t th'' ht := by
    obtain ⟨th', ht', hf', htime'⟩ := h'.timer t th'' ht
    obtain ⟨th, ht, hf, htime⟩ := h.timer t th' ht'
    exact ⟨th, ht, hf'.trans hf, htime'.trans htime⟩
  osTimers := h'.osTimers.trans h.osTimers
  roots := h'.roots.trans h.roots
  calling := h'.calling.trans h.calling
  now := h'.now.trans h.now
  log _ he := h'.log (h.log he)

/-- The object of a timer is freed: the timer goes with it if it is not in the list. -/
structure Bereaves (s : State) (o t : ℕ) (th : JSOSTimer) (s' : State) : Prop where
  objects : s'.objects = s.objects.set o none
  length : s'.timers.length = s.timers.length
  other : ∀ t', t' ≠ t → s'.timer t' = s.timer t'
  kept : t ∈ s.osTimers → s'.timer t = some { th with hasObject := false } ∧ s'.log = s.log
  freed : t ∉ s.osTimers → s'.timer t = none ∧ s'.log = .freed t :: s.log
  osTimers : s'.osTimers = s.osTimers
  roots : s'.roots = s.roots
  calling : s'.calling = s.calling
  now : s'.now = s.now
  exited : s'.exited = s.exited

theorem timerFinalizer_spec (hth : s.timer t = some th) :
    Bereaves s o t th ({ s with objects := s.objects.set o none }.timerFinalizer t) := by
  have hlt := lt_of_timer hth
  have hth' : ({ s with objects := s.objects.set o none } : State).timer t = some th := hth
  rw [State.timerFinalizer, hth']
  dsimp only
  split
  · rename_i ht
    exact ⟨rfl, List.length_set, fun t' hne => setTimer_of_ne hne.symm,
      fun _ => ⟨setTimer_self hlt, rfl⟩, fun hno => absurd ht hno, rfl, rfl, rfl, rfl, rfl⟩
  · rename_i ht
    refine ⟨rfl, List.length_set.trans List.length_set, fun t' hne => ?_, fun h => absurd h ht,
      fun _ => ⟨freeTimer_self (List.length_set.symm ▸ hlt), rfl⟩, rfl, rfl, rfl, rfl, rfl⟩
    exact (freeTimer_of_ne hne.symm).trans (setTimer_of_ne hne.symm)

section

variable (h : Bereaves s o t th s')

include h

theorem Bereaves.log_cases :
    s'.log = s.log ∨ t ∉ s.osTimers ∧ s'.log = .freed t :: s.log := by
  by_cases ht : t ∈ s.osTimers
  · exact .inl (h.kept ht).2
  · exact .inr ⟨ht, (h.freed ht).2⟩

theorem Bereaves.log_subset : s.log ⊆ s'.log := by
  rcases h.log_cases with hlog | ⟨-, hlog⟩ <;> rw [hlog]
  · exact List.Subset.refl _
  · exact List.subset_cons_self _ _

theorem Bereaves.settled : s'.Settled t' ↔ s.Settled t' := by
  rw [State.Settled, State.Settled]
  rcases h.log_cases with hlog | ⟨-, hlog⟩ <;> rw [hlog]
  simp only [List.mem_cons, reduceCtorEq, false_or]

theorem Bereaves.kindOf (ho : s.kindOf o = some (.osTimer t)) (o' : ℕ)
    (k : ObjectKind) : s'.kindOf o' = some k ↔ o' ≠ o ∧ s.kindOf o' = some k := by
  obtain ⟨ob, hob, -⟩ := Option.map_eq_some_iff.mp ho
  by_cases heq : o = o'
  · subst heq
    rw [State.kindOf, object_set_self h.objects (lt_of_object hob)]
    exact iff_of_false nofun fun hne => hne.1 rfl
  · rw [State.kindOf, object_set_of_ne h.objects heq]
    exact (and_iff_right (Ne.symm heq)).symm

theorem Bereaves.memory (hm : Memory s) (hth : s.timer t = some th)
    (ho : s.kindOf o = some (.osTimer t)) : Memory s' where
  nodup := h.osTimers ▸ hm.nodup
  listed t' ht' := by
    rw [h.osTimers] at ht'
    by_cases heq : t' = t
    · subst heq
      exact ⟨_, (h.kept ht').1⟩
    · exact h.other t' heq ▸ hm.listed t' ht'
  owned o' t' ho' := by
    obtain ⟨hne, ho'⟩ := (h.kindOf ho o' _).mp ho'
    have heq : t' ≠ t := by
      rintro rfl
      exact hne (hm.unique o' o t' ho' ho)
    exact h.other t' heq ▸ hm.owned o' t' ho'
  unique o₁ o₂ t' h₁ h₂ :=
    hm.unique o₁ o₂ t' ((h.kindOf ho o₁ _).mp h₁).2 ((h.kindOf ho o₂ _).mp h₂).2
  owner t' th' hth' hobj := by
    by_cases heq : t' = t
    · subst heq
      by_cases ht : t' ∈ s.osTimers
      · rw [(h.kept ht).1, Option.some.injEq] at hth'
        subst hth'
        cases hobj
      · cases (h.freed ht).1.symm.trans hth'
    · rw [h.other t' heq] at hth'
      obtain ⟨o', ho'⟩ := hm.owner t' th' hth' hobj
      refine ⟨o', (h.kindOf ho o' _).mpr ⟨?_, ho'⟩⟩
      rintro rfl
      rw [ho', Option.some.injEq, ObjectKind.osTimer.injEq] at ho
      exact heq ho
  kept t' th' hth' := by
    rw [h.osTimers]
    by_cases heq : t' = t
    · subst heq
      by_cases ht : t' ∈ s.osTimers
      · exact .inl ht
      · cases (h.freed ht).1.symm.trans hth'
    · exact hm.kept t' th' (h.other t' heq ▸ hth')

theorem Bereaves.logged (hl : Logged s) (hth : s.timer t = some th) :
    Logged s' where
  orderly := by
    rcases h.log_cases with hlog | ⟨-, hlog⟩ <;> rw [hlog]
    · exact hl.orderly
    · refine ⟨fun hfreed => ?_, hl.orderly⟩
      cases hth.symm.trans ((hl.freed t (lt_of_timer hth)).mp hfreed)
  known := by
    rw [h.length]
    rcases h.log_cases with hlog | ⟨-, hlog⟩ <;> rw [hlog]
    · exact hl.known
    · exact List.forall_mem_cons.mpr ⟨lt_of_timer hth, hl.known⟩
  freed t' hlt := by
    rw [h.length] at hlt
    by_cases heq : t' = t
    · subst heq
      by_cases ht : t' ∈ s.osTimers
      · obtain ⟨htimer, hlog⟩ := h.kept ht
        rw [hlog, htimer, hl.freed t' hlt, hth]
        exact iff_of_false (by simp) (by simp)
      · obtain ⟨htimer, hlog⟩ := h.freed ht
        rw [hlog, htimer]
        exact iff_of_true List.mem_cons_self rfl
    · rw [h.other t' heq, ← hl.freed t' hlt]
      rcases h.log_cases with hlog | ⟨-, hlog⟩ <;> rw [hlog]
      simp only [List.mem_cons, Event.freed.injEq, heq, false_or]
  listed t' ht' := h.settled.not.mpr (hl.listed t' (h.osTimers ▸ ht'))
  due t' ht' th' hth' := by
    rw [h.osTimers] at ht'
    have hsub := h.log_subset
    by_cases heq : t' = t
    · subst heq
      rw [(h.kept ht').1, Option.some.injEq] at hth'
      subst hth'
      exact (hl.due t' ht' th hth).imp_left fun harmed => hsub harmed
    · exact (hl.due t' ht' th' (h.other t' heq ▸ hth')).imp_left fun harmed => hsub harmed
  settled t' due hdue := by
    rw [h.osTimers, h.settled, h.exited]
    refine hl.settled t' due ?_
    rcases h.log_cases with hlog | ⟨-, hlog⟩ <;> rw [hlog] at hdue
    · exact hdue
    · exact (List.mem_cons.mp hdue).resolve_left (by simp)
  clock := h.now ▸ hl.clock

end

theorem object_of_set (hs : s'.objects = s.objects.set o none) (h : s'.object p = some ob) :
    s.object p = some ob := by
  by_cases heq : o = p
  · subst heq
    by_cases hlt : o < s.objects.length
    · cases (object_set_self hs hlt).symm.trans h
    · rw [State.object, hs, List.set_eq_of_length_le (Nat.not_lt.mp hlt)] at h
      exact h
  · exact object_set_of_ne hs heq ▸ h

theorem Bereaves.shrinks (h : Bereaves s o t th s') (hth : s.timer t = some th) : Shrinks s s' where
  object _ _ := object_of_set h.objects
  timer t' th' hth' := by
    by_cases heq : t' = t
    · subst heq
      by_cases ht : t' ∈ s.osTimers
      · rw [(h.kept ht).1, Option.some.injEq] at hth'
        exact ⟨th, hth, hth' ▸ rfl, hth' ▸ rfl⟩
      · cases (h.freed ht).1.symm.trans hth'
    · exact ⟨th', h.other t' heq ▸ hth', rfl, rfl⟩
  osTimers := h.osTimers
  roots := h.roots
  calling := h.calling
  now := h.now
  log := h.log_subset

/-- What freeing an object does; the timers are still right. -/
structure Frees (s : State) (dead : List ℕ) (s' : State) : Prop where
  memory : Memory s'
  logged : Logged s'
  shrinks : Shrinks s s'
  gone : ∀ o ∈ dead, s'.object o = none
  rest : ∀ o ∉ dead, s'.object o = s.object o

theorem freeObject_frees (hm : Memory s) (hl : Logged s) (o : ℕ) : Frees s [o] (s.freeObject o) := by
  rw [State.freeObject]
  split
  · rename_i hnone
    refine ⟨hm, hl, .refl s, ?_, fun _ _ => rfl⟩
    simpa using hnone
  rename_i ob hob
  have hlt := lt_of_object hob
  split
  · rename_i hkind
    generalize hs' : ({ s with objects := s.objects.set o none } : State) = s'
    have hobjects : s'.objects = s.objects.set o none := hs' ▸ rfl
    have hsame : SameTimers s s' := by
      subst hs'
      exact ⟨rfl, rfl, rfl, rfl⟩
    refine ⟨hsame.memory hm fun o' t => ?_, hsame.logged hl (hs' ▸ hl.clock),
      ⟨fun _ _ => object_of_set hobjects, fun t th hth => ⟨th, hsame.timer t ▸ hth, rfl, rfl⟩,
        hsame.osTimers, hs' ▸ rfl, hs' ▸ rfl, hs' ▸ rfl,
        hsame.log ▸ List.Subset.refl _⟩, ?_, fun o' ho' => ?_⟩
    · by_cases heq : o = o'
      · subst heq
        rw [State.kindOf, object_set_self hobjects hlt, State.kindOf, hob, Option.map_some, hkind]
        exact iff_of_false nofun nofun
      · rw [State.kindOf, object_set_of_ne hobjects heq, State.kindOf]
    · exact List.forall_mem_singleton.mpr (object_set_self hobjects hlt)
    · exact object_set_of_ne hobjects fun heq => ho' (heq ▸ List.mem_cons_self)
  · rename_i t hkind
    have ho : s.kindOf o = some (.osTimer t) := by
      rw [State.kindOf, hob, Option.map_some, hkind]
    obtain ⟨th, hth, -⟩ := hm.owned o t ho
    have h : Bereaves s o t th _ := timerFinalizer_spec hth
    exact ⟨h.memory hm hth ho, h.logged hl hth, h.shrinks hth,
      List.forall_mem_singleton.mpr (object_set_self h.objects hlt),
      fun o' ho' => object_set_of_ne h.objects fun heq => ho' (heq ▸ List.mem_cons_self)⟩

theorem foldl_freeObject_frees (hm : Memory s) (hl : Logged s) (dead : List ℕ) :
    Frees s dead (dead.foldl State.freeObject s) := by
  induction dead generalizing s with
  | nil => exact ⟨hm, hl, .refl s, nofun, fun _ _ => rfl⟩
  | cons o dead ih =>
    have h := freeObject_frees hm hl o
    have h' := ih h.memory h.logged
    refine ⟨h'.memory, h'.logged, h.shrinks.trans h'.shrinks, fun o' ho' => ?_, fun o' ho' => ?_⟩
    · by_cases hin : o' ∈ dead
      · exact h'.gone o' hin
      · rw [List.foldl_cons, h'.rest o' hin]
        exact h.gone o' (List.mem_singleton.mpr ((List.mem_cons.mp ho').resolve_right hin))
    · obtain ⟨hne, hin⟩ := not_or.mp (List.mem_cons.not.mp ho')
      rw [List.foldl_cons, h'.rest o' hin]
      exact h.rest o' (List.mem_singleton.not.mpr hne)

/-- What is left is alive if nothing that is left refers to what is gone. -/
theorem Frees.inv {dead : List ℕ} (h : Frees s dead s') (hl : Live s)
    (hroots : ∀ o ∈ s.roots, o ∉ dead) (hcalling : ∀ o, s.calling = some o → o ∉ dead)
    (hchildren : ∀ o ob, s'.object o = some ob → ∀ c ∈ ob.children, c ∉ dead)
    (hfuncs : ∀ t th' f, s'.timer t = some th' → th'.func = some f → f ∉ dead) : Inv s' where
  memory := h.memory
  logged := h.logged
  live :=
    { roots := by
        rw [h.shrinks.roots]
        exact fun o ho => h.rest o (hroots o ho) ▸ hl.roots o ho
      calling := by
        rw [h.shrinks.calling]
        exact fun o ho => h.rest o (hcalling o ho) ▸ hl.calling o ho
      children := fun o ob hob c hc =>
        h.rest c (hchildren o ob hob c hc) ▸ hl.children o ob (h.shrinks.object o ob hob) c hc
      funcs := fun t th' f hth' hf => by
        obtain ⟨th, hth, hfunc, -⟩ := h.shrinks.timer t th' hth'
        exact h.rest f (hfuncs t th' f hth' hf) ▸ hl.funcs t th f hth (hfunc ▸ hf)
      armed := fun t ht th' hth' => by
        obtain ⟨th, hth, hfunc, -⟩ := h.shrinks.timer t th' hth'
        exact hfunc ▸ hl.armed t (h.shrinks.osTimers ▸ ht) th hth }

theorem Inv.free (h : Inv s) (ho : s.referenced o = false) : Inv (s.freeObject o) := by
  rw [State.referenced] at ho
  simp only [Bool.or_eq_false_iff, decide_eq_false_iff_not, List.any_eq_false] at ho
  obtain ⟨⟨⟨hroots, hcalling⟩, hchildren⟩, hfuncs⟩ := ho
  have hfrees := freeObject_frees h.memory h.logged o
  refine hfrees.inv h.live (fun o' ho' hin => ?_) (fun o' ho' hin => ?_)
    (fun o' ob hob c hc hin => ?_) (fun t th' f hth' hf hin => ?_)
  all_goals cases List.mem_singleton.mp hin
  · exact hroots ho'
  · exact hcalling ho'
  · have hmem : some ob ∈ s.objects :=
      List.mem_of_getElem? (Option.join_eq_some_iff.mp (hfrees.shrinks.object o' ob hob))
    exact hchildren _ hmem (by simpa using hc)
  · obtain ⟨th, hth, hfunc, -⟩ := hfrees.shrinks.timer t th' hth'
    have hmem : some th ∈ s.timers := List.mem_of_getElem? (Option.join_eq_some_iff.mp hth)
    exact hfuncs _ hmem (by simpa using hfunc ▸ hf)

/-! ## The collector -/

theorem mem_marked_iff' : o ∈ s.marked ↔ Reachable s.edges (· ∈ s.external.toFinset) o := by
  refine mem_marked_iff (U := Finset.range s.objects.length) ?_ ?_ (Finset.card_range _).le
  · intro o ho
    rw [List.mem_toFinset, State.external, List.mem_filter, decide_eq_true_eq] at ho
    exact Finset.mem_range.mpr ho.2
  · intro p _ o ho
    rw [State.edges] at ho
    split at ho
    · cases ho
    · rw [List.mem_filter, decide_eq_true_eq] at ho
      exact Finset.mem_range.mpr ho.2

/-- A reference that no object accounts for keeps an object alive. -/
theorem marked_of_external (h : Live s) (ho : o ∈ s.roots ∨ s.calling = some o) : o ∈ s.marked := by
  have halive : (s.object o).isSome := ho.elim (h.roots o) (h.calling o)
  obtain ⟨ob, hob⟩ := Option.isSome_iff_exists.mp halive
  refine mem_marked_iff'.mpr (.root ?_)
  rw [List.mem_toFinset, State.external, List.mem_filter, decide_eq_true_eq]
  refine ⟨?_, lt_of_object hob⟩
  rw [List.mem_append, List.mem_append, Option.mem_toList]
  exact .inl ho

/-- What a marked object refers to is marked. -/
theorem marked_of_edge (hp : p ∈ s.marked) (ho : o ∈ s.edges p) : o ∈ s.marked :=
  mem_marked_iff'.mpr ((mem_marked_iff'.mp hp).step ho)

theorem lt_of_alive (h : (s.object o).isSome) : o < s.objects.length :=
  let ⟨_, hob⟩ := Option.isSome_iff_exists.mp h
  lt_of_object hob

theorem mem_edges_of_child (hob : s.object p = some ob) (ho : o ∈ ob.children)
    (hlt : o < s.objects.length) : o ∈ s.edges p := by
  rw [State.edges, hob]
  refine List.mem_filter.mpr ⟨?_, decide_eq_true hlt⟩
  split
  · exact ho
  · exact List.mem_append_left _ ho

/-- `js_os_timer_mark`. -/
theorem mem_edges_of_func (hob : s.object p = some ob) (hkind : ob.kind = .osTimer t)
    (hth : s.timer t = some th) (hf : th.func = some f) (hlt : f < s.objects.length) :
    f ∈ s.edges p := by
  rw [State.edges, hob]
  refine List.mem_filter.mpr ⟨?_, decide_eq_true hlt⟩
  rw [hkind]
  refine List.mem_append_right _ ?_
  rw [hth, Option.bind_some, hf]
  exact List.mem_singleton.mpr rfl

theorem Inv.runGC (h : Inv s) (hsafe : Op.safe s .runGC) : Inv s.runGC := by
  have hfrees := foldl_freeObject_frees h.memory h.logged
    ((List.range s.objects.length).filter (· ∉ s.marked))
  have hdead {o : ℕ} (ho : o ∈ s.marked) :
      o ∉ (List.range s.objects.length).filter (· ∉ s.marked) := by
    rw [List.mem_filter]
    exact fun hmem => of_decide_eq_true hmem.2 ho
  have hleft {o : ℕ} {ob : JSObject} (hob : s.runGC.object o = some ob) :
      s.object o = some ob ∧ o ∈ s.marked := by
    have hob' := hfrees.shrinks.object o ob hob
    refine ⟨hob', by_contra fun hno => ?_⟩
    have hmem : o ∈ (List.range s.objects.length).filter (· ∉ s.marked) :=
      List.mem_filter.mpr ⟨List.mem_range.mpr (lt_of_object hob'), decide_eq_true hno⟩
    cases (hfrees.gone o hmem).symm.trans hob
  refine hfrees.inv h.live (fun o ho => hdead (marked_of_external h.live (.inl ho)))
    (fun o ho => hdead (marked_of_external h.live (.inr ho))) (fun o ob hob c hc => ?_)
    (fun t th' f hth' hf => ?_)
  · obtain ⟨hob', hmarked⟩ := hleft hob
    exact hdead (marked_of_edge hmarked
      (mem_edges_of_child hob' hc (lt_of_alive (h.live.children o ob hob' c hc))))
  · obtain ⟨th, hth, hfunc, -⟩ := hfrees.shrinks.timer t th' hth'
    rcases hfrees.memory.kept t th' hth' with ht | hobj
    · exact hdead (mem_marked_iff'.mpr
        (hsafe t (hfrees.shrinks.osTimers ▸ ht) th f hth (hfunc ▸ hf)))
    · obtain ⟨o, ho⟩ := hfrees.memory.owner t th' hth' hobj
      obtain ⟨ob, hob, hkind⟩ := Option.map_eq_some_iff.mp ho
      obtain ⟨hob', hmarked⟩ := hleft hob
      have hf' : th.func = some f := hfunc ▸ hf
      exact hdead (marked_of_edge hmarked
        (mem_edges_of_func hob' hkind hth hf' (lt_of_alive (h.live.funcs t th f hth hf'))))

/-! ## The event loop -/

theorem wrap_eq {x : ℤ} (hle : -2 ^ 63 ≤ x) (hlt : x < 2 ^ 63) : wrap x = x := by
  rw [wrap, Int.bmod_def]
  split <;> omega

theorem timer_append_self {x : Option JSOSTimer} (hs : s'.timers = s.timers ++ [x]) :
    s'.timer s.timers.length = x := by
  rw [State.timer, hs]
  exact join_append_self

theorem timer_append_of_ne {x : Option JSOSTimer} (hs : s'.timers = s.timers ++ [x])
    (h : t ≠ s.timers.length) : s'.timer t = s.timer t := by
  rw [State.timer, hs]
  exact join_append_of_ne h

theorem Inv.setTimeout {delay : ℤ} (h : Inv s) (hf : f ∈ s.roots) (hle : -2 ^ 63 ≤ delay)
    (hsafe : s.now + delay < 2 ^ 63) : Inv (s.setTimeout f delay) := by
  have hwrap : wrap (s.now + delay) = s.now + delay := by
    have hclock := h.logged.clock.1
    exact wrap_eq (by omega) hsafe
  generalize hs' : s.setTimeout f delay = s'
  have hobjects : s'.objects = s.objects ++ [some ⟨.osTimer s.timers.length, []⟩] := hs' ▸ rfl
  have htimers : s'.timers = s.timers ++ [some ⟨true, s.now + delay, some f⟩] := by
    rw [← hs', State.setTimeout, hwrap]
  have hlist : s'.osTimers = s.osTimers ++ [s.timers.length] := hs' ▸ rfl
  have hroots : s'.roots = s.objects.length :: s.roots := hs' ▸ rfl
  have hlog : s'.log = .armed s.timers.length (s.now + delay) :: s.log := hs' ▸ rfl
  have hnow : s'.now = s.now := hs' ▸ rfl
  have hcalling : s'.calling = s.calling := hs' ▸ rfl
  have hexited : s'.exited = s.exited := hs' ▸ rfl
  have hself := object_append_self hobjects
  have hne {o : ℕ} (ho : o ≠ s.objects.length) : s'.object o = s.object o :=
    object_append_of_ne hobjects ho
  have htself := timer_append_self htimers
  have htne {t : ℕ} (ht : t ≠ s.timers.length) : s'.timer t = s.timer t :=
    timer_append_of_ne htimers ht
  have hlt {t : ℕ} (ht : t ∈ s.osTimers) : t ≠ s.timers.length := by
    obtain ⟨th, hth⟩ := h.memory.listed t ht
    exact Nat.ne_of_lt (lt_of_timer hth)
  have hkind (o t : ℕ) : s'.kindOf o = some (.osTimer t) ↔ o = s.objects.length ∧ t = s.timers.length ∨
        o ≠ s.objects.length ∧ t ≠ s.timers.length ∧ s.kindOf o = some (.osTimer t) := by
    by_cases ho : o = s.objects.length
    · subst ho
      rw [State.kindOf, hself, Option.map_some, Option.some.injEq, ObjectKind.osTimer.injEq]
      constructor
      · rintro rfl
        exact .inl ⟨rfl, rfl⟩
      · rintro (⟨-, rfl⟩ | ⟨hno, -⟩)
        · rfl
        · exact absurd rfl hno
    · have hold : s'.kindOf o = s.kindOf o := by rw [State.kindOf, hne ho, State.kindOf]
      rw [hold]
      constructor
      · intro h'
        obtain ⟨th, hth, -⟩ := h.memory.owned o t h'
        exact .inr ⟨ho, Nat.ne_of_lt (lt_of_timer hth), h'⟩
      · rintro (⟨heq, -⟩ | ⟨-, -, h'⟩)
        · exact absurd heq ho
        · exact h'
  have halive {o : ℕ} (ho : (s.object o).isSome) : (s'.object o).isSome := by
    rwa [hne (Nat.ne_of_lt (lt_of_alive ho))]
  have hsettled {t : ℕ} : s'.Settled t ↔ s.Settled t := by
    rw [State.Settled, State.Settled, hlog]
    simp only [List.mem_cons, reduceCtorEq, false_or]
  have hmem {t : ℕ} : t ∈ s'.osTimers ↔ t ∈ s.osTimers ∨ t = s.timers.length := by
    rw [hlist, List.mem_append, List.mem_singleton]
  have hunknown {e : Event} (he : e ∈ s.log) : e.timer ≠ s.timers.length :=
    Nat.ne_of_lt (h.logged.known e he)
  have hmemory : Memory s' := by
    refine ⟨?_, fun t ht => ?_, fun o t ho => ?_, fun o o' t ho ho' => ?_, fun t th hth hobj => ?_,
      fun t th hth => ?_⟩
    · rw [hlist, ← List.concat_eq_append]
      exact h.memory.nodup.concat fun ht => hlt ht rfl
    · rcases hmem.mp ht with ht | rfl
      · exact htne (hlt ht) ▸ h.memory.listed t ht
      · exact ⟨_, htself⟩
    · rcases (hkind o t).mp ho with ⟨-, rfl⟩ | ⟨-, ht, ho⟩
      · exact ⟨_, htself, rfl⟩
      · exact htne ht ▸ h.memory.owned o t ho
    · rcases (hkind o t).mp ho with ⟨rfl, rfl⟩ | ⟨-, ht, ho⟩
      · rcases (hkind o' _).mp ho' with ⟨rfl, -⟩ | ⟨-, ht, -⟩
        · rfl
        · exact absurd rfl ht
      · rcases (hkind o' t).mp ho' with ⟨-, heq⟩ | ⟨-, -, ho'⟩
        · exact absurd heq ht
        · exact h.memory.unique o o' t ho ho'
    · by_cases ht : t = s.timers.length
      · exact ⟨s.objects.length, (hkind _ t).mpr (.inl ⟨rfl, ht⟩)⟩
      · obtain ⟨o, ho⟩ := h.memory.owner t th (htne ht ▸ hth) hobj
        obtain ⟨ob, hob, -⟩ := Option.map_eq_some_iff.mp ho
        exact ⟨o, (hkind o t).mpr (.inr ⟨Nat.ne_of_lt (lt_of_object hob), ht, ho⟩)⟩
    · by_cases ht : t = s.timers.length
      · exact .inl (hmem.mpr (.inr ht))
      · exact (h.memory.kept t th (htne ht ▸ hth)).imp_left fun ht => hmem.mpr (.inl ht)
  have hlive : Live s' := by
    refine ⟨?_, fun o ho => halive (h.live.calling o (hcalling ▸ ho)), fun o ob hob c hc => ?_,
      fun t th f' hth hf' => ?_, fun t ht th hth => ?_⟩
    · rw [hroots]
      exact List.forall_mem_cons.mpr
        ⟨Option.isSome_of_eq_some hself, fun o ho => halive (h.live.roots o ho)⟩
    · by_cases ho : o = s.objects.length
      · subst ho
        cases hself.symm.trans hob
        cases hc
      · exact halive (h.live.children o ob (hne ho ▸ hob) c hc)
    · by_cases ht : t = s.timers.length
      · subst ht
        cases htself.symm.trans hth
        cases hf'
        exact halive (h.live.roots f hf)
      · exact halive (h.live.funcs t th f' (htne ht ▸ hth) hf')
    · rcases hmem.mp ht with ht | rfl
      · exact h.live.armed t ht th (htne (hlt ht) ▸ hth)
      · cases htself.symm.trans hth
        rfl
  refine ⟨hmemory, hlive, ?_, ?_, fun t ht => ?_, fun t ht => ?_, fun t ht th hth => ?_,
    fun t due hdue => ?_, hnow ▸ h.logged.clock⟩
  · rw [hlog]
    exact ⟨fun e he => hunknown he, h.logged.orderly⟩
  · rw [hlog, htimers, List.length_append]
    exact List.forall_mem_cons.mpr
      ⟨Nat.lt_succ_self _, fun e he => Nat.lt_succ_of_lt (h.logged.known e he)⟩
  · have hfreed : .freed t ∈ s'.log ↔ .freed t ∈ s.log := by
      rw [hlog, List.mem_cons]
      exact or_iff_right (by simp)
    rw [hfreed]
    by_cases heq : t = s.timers.length
    · subst heq
      rw [htself]
      exact iff_of_false (fun he => hunknown he rfl) (by simp)
    · rw [htimers, List.length_append, List.length_singleton] at ht
      rw [htne heq]
      exact h.logged.freed t (by omega)
  · rw [hsettled]
    rcases hmem.mp ht with ht | rfl
    · exact h.logged.listed t ht
    · rintro (⟨time, he⟩ | he)
      · exact hunknown he rfl
      · exact hunknown he rfl
  · rw [hlog]
    rcases hmem.mp ht with ht | rfl
    · exact (h.logged.due t ht th (htne (hlt ht) ▸ hth)).imp_left (List.mem_cons_of_mem _)
    · cases htself.symm.trans hth
      exact ⟨List.mem_cons_self, hsafe⟩
  · rw [hsettled, hexited]
    rw [hlog, List.mem_cons, Event.armed.injEq] at hdue
    rcases hdue with ⟨ht, -⟩ | hdue
    · exact .inl (hmem.mpr (.inr ht))
    · exact (h.logged.settled t due hdue).imp_left fun ht => hmem.mpr (.inl ht)

/-- A timer leaves the list, and is freed if it has no object; `evs` has happened to it. -/
structure Unlinks (s : State) (t : ℕ) (th : JSOSTimer) (evs : List Event) (s' : State) : Prop where
  objects : s'.objects = s.objects
  length : s'.timers.length = s.timers.length
  other : ∀ t', t' ≠ t → s'.timer t' = s.timer t'
  kept : th.hasObject = true → ∃ th', s'.timer t = some th' ∧ th'.hasObject = true ∧
    ∀ f, th'.func = some f → th.func = some f
  freed : th.hasObject = false → s'.timer t = none
  osTimers : s'.osTimers = s.osTimers.erase t
  log : s'.log = (if th.hasObject = true then [] else [.freed t]) ++ evs ++ s.log
  events : ∀ e ∈ evs, e = .cleared t ∨ ∃ time, e = .fired t time
  roots : s'.roots = s.roots
  now : s'.now = s.now

variable {evs : List Event}

section

variable (h : Unlinks s t th evs s')

include h

theorem Unlinks.memory (hm : Memory s)
    (hth : s.timer t = some th) : Memory s' := by
  have hobject (o : ℕ) : s'.object o = s.object o := by rw [State.object, h.objects, State.object]
  have hkind (o : ℕ) : s'.kindOf o = s.kindOf o := by rw [State.kindOf, hobject, State.kindOf]
  have hmem {t' : ℕ} : t' ∈ s'.osTimers ↔ t' ≠ t ∧ t' ∈ s.osTimers := by
    rw [h.osTimers, hm.nodup.mem_erase_iff]
  refine ⟨?_, fun t' ht' => ?_, fun o t' ho => ?_, fun o o' t' => ?_, fun t' th' hth' hobj => ?_,
    fun t' th' hth' => ?_⟩
  · rw [h.osTimers]
    exact hm.nodup.erase t
  · obtain ⟨hne, ht'⟩ := hmem.mp ht'
    exact h.other t' hne ▸ hm.listed t' ht'
  · obtain ⟨th', hth', hobj⟩ := hm.owned o t' (hkind o ▸ ho)
    by_cases heq : t' = t
    · subst heq
      cases hth.symm.trans hth'
      obtain ⟨th', hth', hobj', -⟩ := h.kept hobj
      exact ⟨th', hth', hobj'⟩
    · exact ⟨th', (h.other t' heq).trans hth', hobj⟩
  · rw [hkind, hkind]
    exact hm.unique o o' t'
  · by_cases heq : t' = t
    · subst heq
      cases hobj' : th.hasObject with
      | false => cases (h.freed hobj').symm.trans hth'
      | true =>
        obtain ⟨o, ho⟩ := hm.owner t' th hth hobj'
        exact ⟨o, (hkind o).trans ho⟩
    · obtain ⟨o, ho⟩ := hm.owner t' th' (h.other t' heq ▸ hth') hobj
      exact ⟨o, (hkind o).trans ho⟩
  · by_cases heq : t' = t
    · subst heq
      cases hobj' : th.hasObject with
      | false => cases (h.freed hobj').symm.trans hth'
      | true =>
        obtain ⟨th'', hth'', hobj'', -⟩ := h.kept hobj'
        cases hth''.symm.trans hth'
        exact .inr hobj''
    · exact (hm.kept t' th' (h.other t' heq ▸ hth')).imp_left fun ht' => hmem.mpr ⟨heq, ht'⟩

theorem Unlinks.live (hm : Memory s) (hl : Live s)
    (hth : s.timer t = some th) (hcalling : ∀ o, s'.calling = some o → (s.object o).isSome) :
    Live s' := by
  have hobject (o : ℕ) : s'.object o = s.object o := by rw [State.object, h.objects, State.object]
  refine ⟨fun o ho => ?_, fun o ho => hobject o ▸ hcalling o ho, fun o ob hob c hc => ?_,
    fun t' th' f hth' hf => ?_, fun t' ht' th' hth' => ?_⟩
  · exact hobject o ▸ hl.roots o (h.roots ▸ ho)
  · exact hobject c ▸ hl.children o ob (hobject o ▸ hob) c hc
  · rw [hobject]
    by_cases heq : t' = t
    · subst heq
      cases hobj : th.hasObject with
      | false => cases (h.freed hobj).symm.trans hth'
      | true =>
        obtain ⟨th'', hth'', -, hfunc⟩ := h.kept hobj
        cases hth''.symm.trans hth'
        exact hl.funcs t' th f hth (hfunc f hf)
    · exact hl.funcs t' th' f (h.other t' heq ▸ hth') hf
  · rw [h.osTimers, hm.nodup.mem_erase_iff] at ht'
    exact hl.armed t' ht'.2 th' (h.other t' ht'.1 ▸ hth')

/-- What is new is about the timer. -/
theorem Unlinks.mem_log :
    e ∈ s'.log ↔ e ∈ s.log ∨ e ∈ evs ∨ th.hasObject = false ∧ e = .freed t := by
  rw [h.log, List.mem_append]
  cases th.hasObject <;> simp [or_comm]

theorem Unlinks.mem_log_of_ne (he : e.timer ≠ t) : e ∈ s'.log ↔ e ∈ s.log := by
  rw [h.mem_log]
  refine or_iff_left ?_
  rintro (hev | ⟨-, rfl⟩)
  · rcases h.events e hev with rfl | ⟨time, rfl⟩ <;> exact he rfl
  · exact he rfl

theorem Unlinks.mem_log_armed {due : ℤ} :
    .armed t' due ∈ s'.log ↔ .armed t' due ∈ s.log := by
  rw [h.mem_log]
  refine or_iff_left ?_
  rintro (hev | ⟨-, hev⟩)
  · rcases h.events _ hev with hev | ⟨time, hev⟩ <;> cases hev
  · cases hev

theorem Unlinks.logged (hm : Memory s) (hl : Logged s)
    (hth : s.timer t = some th) (horderly : Orderly (evs ++ s.log))
    (hsettled : s'.Settled t ∨ s'.exited = true) (hexited : s.exited = true → s'.exited = true) :
    Logged s' := by
  have hlt := lt_of_timer hth
  have hunfreed : .freed t ∉ s.log := by
    rw [hl.freed t hlt, hth]
    nofun
  have hmem {t' : ℕ} : t' ∈ s'.osTimers ↔ t' ≠ t ∧ t' ∈ s.osTimers := by
    rw [h.osTimers, hm.nodup.mem_erase_iff]
  have hnofree : .freed t ∉ evs := fun hev => by
    rcases h.events _ hev with hev | ⟨time, hev⟩ <;> cases hev
  have hkeep {t' : ℕ} (hne : t' ≠ t) : s'.Settled t' ↔ s.Settled t' := by
    refine or_congr (exists_congr fun time => ?_) ?_ <;> exact h.mem_log_of_ne hne
  refine ⟨?_, fun e he => ?_, fun t' ht' => ?_, fun t' ht' => ?_, fun t' ht' th' hth' => ?_,
    fun t' due hdue => ?_, h.now ▸ hl.clock⟩
  · rw [h.log]
    cases th.hasObject with
    | false =>
      refine ⟨fun hev => ?_, horderly⟩
      exact (List.mem_append.mp hev).elim hnofree hunfreed
    | true => exact horderly
  · rw [h.length]
    by_cases heq : e.timer = t
    · exact heq ▸ hlt
    · exact hl.known e ((h.mem_log_of_ne heq).mp he)
  · rw [h.length] at ht'
    by_cases heq : t' = t
    · subst heq
      rw [h.mem_log, or_iff_right hunfreed, or_iff_right hnofree]
      cases hobj : th.hasObject with
      | false => exact iff_of_true ⟨rfl, rfl⟩ (h.freed hobj)
      | true =>
        obtain ⟨th', hth', -⟩ := h.kept hobj
        rw [hth']
        exact iff_of_false nofun nofun
    · rw [h.mem_log_of_ne (e := .freed t') heq, h.other t' heq, hl.freed t' ht']
  · obtain ⟨hne, ht'⟩ := hmem.mp ht'
    rw [hkeep hne]
    exact hl.listed t' ht'
  · obtain ⟨hne, ht'⟩ := hmem.mp ht'
    rw [h.mem_log_armed]
    exact hl.due t' ht' th' (h.other t' hne ▸ hth')
  · by_cases heq : t' = t
    · exact .inr (heq ▸ hsettled)
    · rw [hkeep heq]
      rcases hl.settled t' due (h.mem_log_armed.mp hdue) with ht' | hset | hex
      · exact .inl (hmem.mpr ⟨heq, ht'⟩)
      · exact .inr (.inl hset)
      · exact .inr (.inr (hexited hex))

end

theorem clearTimeout_unlinks (hth : s.timer t = some th) (hobj : th.hasObject = true)
    (ht : t ∈ s.osTimers) : Unlinks s t th [.cleared t] (s.clearTimeout t) := by
  rw [State.clearTimeout, if_pos ht]
  exact ⟨rfl, rfl, fun _ _ => rfl, fun _ => ⟨th, hth, hobj, fun _ => id⟩,
    fun hno => absurd (hobj.symm.trans hno) nofun, rfl, by rw [if_pos hobj]; rfl,
    fun e he => .inl (List.mem_singleton.mp he), rfl, rfl⟩

/-- The timer object that `clearTimeout` is called with keeps the timer. -/
theorem Inv.clearTimeout (h : Inv s) (ho : s.kindOf o = some (.osTimer t)) (ht : t ∈ s.osTimers) :
    Inv (s.clearTimeout t) := by
  obtain ⟨th, hth, hobj⟩ := h.memory.owned o t ho
  have hunlinks := clearTimeout_unlinks hth hobj ht
  have hsame : (s.clearTimeout t).calling = s.calling ∧ (s.clearTimeout t).exited = s.exited := by
    rw [State.clearTimeout, if_pos ht]
    exact ⟨rfl, rfl⟩
  have hunfreed : .freed t ∉ s.log := by
    rw [h.logged.freed t (lt_of_timer hth), hth]
    nofun
  refine ⟨hunlinks.memory h.memory hth, hunlinks.live h.memory h.live hth ?_,
    hunlinks.logged h.memory h.logged hth ⟨hunfreed, h.logged.orderly⟩ (.inl (.inr ?_)) ?_⟩
  · exact fun o ho => h.live.calling o (hsame.1 ▸ ho)
  · exact hunlinks.mem_log.mpr (.inr (.inl List.mem_cons_self))
  · exact fun hex => hsame.2.trans hex

theorem fire_unlinks (hth : s.timer t = some th) : Unlinks s t th [.fired t s.now] (s.fire t th) := by
  have hlt := lt_of_timer hth
  generalize hu : ({ s with calling := th.func, log := .fired t s.now :: s.log }.setTimer t
    { th with func := none }).unlinkTimer t = u
  have htimers : u.timers = s.timers.set t (some { th with func := none }) := hu ▸ rfl
  have hself : u.timer t = some { th with func := none } := by
    rw [State.timer, htimers]
    exact join_set_self hlt
  have hother (t' : ℕ) (hne : t' ≠ t) : u.timer t' = s.timer t' := by
    rw [State.timer, htimers]
    exact join_set_of_ne hne.symm
  have hlength : u.timers.length = s.timers.length := by
    rw [htimers]
    exact List.length_set
  have hlog : u.log = .fired t s.now :: s.log := hu ▸ rfl
  have hfire : s.fire t th = if th.hasObject then u else u.freeTimer t := by
    rw [State.fire, ← hu]
  rw [hfire]
  cases hobj : th.hasObject with
  | true =>
    exact ⟨hu ▸ rfl, hlength, hother, fun _ => ⟨_, hself, hobj, nofun⟩,
      fun hno => absurd (hobj.symm.trans hno) nofun, hu ▸ rfl, by rw [if_pos rfl, if_pos hobj, hlog]; rfl,
      fun e he => .inr ⟨s.now, List.mem_singleton.mp he⟩, hu ▸ rfl, hu ▸ rfl⟩
  | false =>
    have hfreed : (u.freeTimer t).timer t = none := freeTimer_self (hlength ▸ hlt)
    refine ⟨hu ▸ rfl, List.length_set.trans hlength,
      fun t' hne => (freeTimer_of_ne hne.symm).trans (hother t' hne),
      fun hyes => absurd (hobj.symm.trans hyes) nofun, fun _ => hfreed, hu ▸ rfl, ?_,
      fun e he => .inr ⟨s.now, List.mem_singleton.mp he⟩, hu ▸ rfl, hu ▸ rfl⟩
    rw [hobj, State.freeTimer, hlog]
    rfl

theorem Inv.fire (h : Inv s) (ht : t ∈ s.osTimers) (hth : s.timer t = some th)
    (hdue : th.timeout ≤ s.now) : Inv (s.fire t th) := by
  have hunlinks := fire_unlinks hth
  have hcalling : (s.fire t th).calling = th.func := by
    rw [State.fire]
    split <;> rfl
  have hexited : (s.fire t th).exited = s.exited := by
    rw [State.fire]
    split <;> rfl
  have hsettled := h.logged.listed t ht
  have hunfreed : .freed t ∉ s.log := by
    rw [h.logged.freed t (lt_of_timer hth), hth]
    nofun
  refine ⟨hunlinks.memory h.memory hth, hunlinks.live h.memory h.live hth fun f hf => ?_,
    hunlinks.logged h.memory h.logged hth ⟨⟨?_, fun time hfired => ?_, fun hcleared => ?_, hunfreed⟩,
      h.logged.orderly⟩ (.inl (.inl ⟨s.now, ?_⟩)) fun hex => hexited.trans hex⟩
  · exact h.live.funcs t th f hth (hcalling ▸ hf)
  · exact ⟨th.timeout, (h.logged.due t ht th hth).1, hdue⟩
  · exact hsettled (.inl ⟨time, hfired⟩)
  · exact hsettled (.inr hcleared)
  · exact hunlinks.mem_log.mpr (.inr (.inl List.mem_cons_self))

/-- A poll fires the first timer in the list that has expired. -/
theorem poll_cases (h : Inv s) (hsafe : Op.safe s .poll) :
    (s.poll = s ∧ ∀ t ∈ s.osTimers, ∀ th, s.timer t = some th → s.now < th.timeout) ∨
      ∃ before t after th, s.osTimers = before ++ t :: after ∧ s.timer t = some th ∧
        th.timeout ≤ s.now ∧ s.poll = s.fire t th ∧
        ∀ t' ∈ before, ∀ th', s.timer t' = some th' → s.now < th'.timeout := by
  have hexpired {t : ℕ} {th : JSOSTimer} (ht : t ∈ s.osTimers) (hth : s.timer t = some th) :
      s.expired t = true ↔ th.timeout ≤ s.now := by
    have hle := hsafe t ht th hth
    have hlt := (h.logged.due t ht th hth).2
    have hnow := h.logged.clock.1
    rw [State.expired, hth, Option.any_some, decide_eq_true_eq, wrap_eq hle (by omega)]
    omega
  rw [State.poll]
  split
  · rename_i hnone
    refine .inl ⟨rfl, fun t ht th hth => ?_⟩
    have hno := List.find?_eq_none.mp hnone t ht
    rw [hexpired ht hth] at hno
    exact Int.not_le.mp hno
  · rename_i t hsome
    obtain ⟨hexp, before, after, hlist, hbefore⟩ := List.find?_eq_some_iff_append.mp hsome
    have ht : t ∈ s.osTimers := hlist ▸ List.mem_append_right _ List.mem_cons_self
    obtain ⟨th, hth⟩ := h.memory.listed t ht
    rw [hth]
    refine .inr ⟨before, t, after, th, hlist, hth, (hexpired ht hth).mp hexp, rfl, fun t' ht' th' hth' => ?_⟩
    have hno := hbefore t' ht'
    rw [Bool.not_eq_true', Bool.eq_false_iff, ne_eq,
      hexpired (hlist ▸ List.mem_append_left _ ht') hth'] at hno
    exact Int.not_le.mp hno

theorem Inv.poll (h : Inv s) (hsafe : Op.safe s .poll) : Inv s.poll := by
  rcases poll_cases h hsafe with ⟨heq, -⟩ | ⟨before, t, after, th, hlist, hth, hdue, heq, -⟩
  · rw [heq]
    exact h
  · rw [heq]
    exact h.fire (hlist ▸ List.mem_append_right _ List.mem_cons_self) hth hdue

theorem releaseTimer_unlinks (hth : s.timer t = some th) : Unlinks s t th [] (s.releaseTimer t) := by
  have hlt := lt_of_timer hth
  have hth' : (s.unlinkTimer t).timer t = some th := hth
  rw [State.releaseTimer, hth', Option.any_some]
  cases hobj : th.hasObject with
  | true =>
    exact ⟨rfl, rfl, fun _ _ => rfl, fun _ => ⟨th, hth, hobj, fun _ => id⟩,
      fun hno => absurd (hobj.symm.trans hno) nofun, rfl, by rw [hobj]; rfl, nofun, rfl, rfl⟩
  | false =>
    exact ⟨rfl, List.length_set, fun t' hne => freeTimer_of_ne hne.symm,
      fun hyes => absurd (hobj.symm.trans hyes) nofun, fun _ => freeTimer_self hlt, rfl,
      by rw [hobj]; rfl, nofun, rfl, rfl⟩

theorem Inv.exit (h : Inv s) : Inv { s with exited := true } where
  memory := ⟨h.memory.nodup, h.memory.listed, h.memory.owned, h.memory.unique, h.memory.owner, h.memory.kept⟩
  live := ⟨h.live.roots, h.live.calling, h.live.children, h.live.funcs, h.live.armed⟩
  logged := ⟨h.logged.orderly, h.logged.known, h.logged.freed, h.logged.listed, h.logged.due,
    fun _ _ _ => .inr (.inr rfl), h.logged.clock⟩

theorem Inv.releaseTimer (h : Inv s) (hexited : s.exited = true) (ht : t ∈ s.osTimers) :
    Inv (s.releaseTimer t) ∧ (s.releaseTimer t).exited = true := by
  obtain ⟨th, hth⟩ := h.memory.listed t ht
  have hunlinks := releaseTimer_unlinks hth
  have hsame : (s.releaseTimer t).exited = s.exited ∧ (s.releaseTimer t).calling = s.calling := by
    rw [State.releaseTimer]
    split <;> exact ⟨rfl, rfl⟩
  have hexited' := hsame.1.trans hexited
  refine ⟨⟨hunlinks.memory h.memory hth, hunlinks.live h.memory h.live hth fun o ho => ?_,
    hunlinks.logged h.memory h.logged hth h.logged.orderly (.inr hexited') fun _ => hexited'⟩, hexited'⟩
  exact h.live.calling o (hsame.2 ▸ ho)

theorem Inv.foldl_releaseTimer {ts : List ℕ} (h : Inv s) (hexited : s.exited = true) (hts : s.osTimers = ts) :
    Inv (ts.foldl State.releaseTimer s) ∧ s.log ⊆ (ts.foldl State.releaseTimer s).log ∧
      (ts.foldl State.releaseTimer s).now = s.now ∧ (ts.foldl State.releaseTimer s).osTimers = [] := by
  induction ts generalizing s with
  | nil => exact ⟨h, List.Subset.refl _, rfl, hts⟩
  | cons t ts ih =>
    have ht : t ∈ s.osTimers := hts ▸ List.mem_cons_self
    obtain ⟨th, hth⟩ := h.memory.listed t ht
    have hunlinks := releaseTimer_unlinks hth
    obtain ⟨hinv, hexited'⟩ := h.releaseTimer hexited ht
    have hlist : (s.releaseTimer t).osTimers = ts := by
      rw [hunlinks.osTimers, hts, List.erase_cons_head]
    obtain ⟨hinv', hlog, hnow, hnil⟩ := ih hinv hexited' hlist
    exact ⟨hinv', fun e he => hlog (hunlinks.mem_log.mpr (.inl he)), hnow.trans hunlinks.now, hnil⟩

/-! ## Steps -/

/-- A step only adds to the history, and puts new timers at the end of the list. -/
structure Onward (s s' : State) : Prop where
  now : s.now ≤ s'.now
  log : s.log ⊆ s'.log
  osTimers : ∃ ts new, s'.osTimers = ts ++ new ∧ ts.Sublist s.osTimers ∧ ∀ t ∈ new, s.timers.length ≤ t

theorem Onward.of_same (h : SameTimers s s') (hnow : s.now ≤ s'.now) : Onward s s' :=
  ⟨hnow, h.log ▸ List.Subset.refl _, s.osTimers, [], h.osTimers.trans (List.append_nil _).symm,
    List.Sublist.refl _, nofun⟩

theorem Shrinks.onward (h : Shrinks s s') : Onward s s' :=
  ⟨Int.le_of_eq h.now.symm, h.log, s.osTimers, [], h.osTimers.trans (List.append_nil _).symm,
    List.Sublist.refl _, nofun⟩

theorem Unlinks.onward (h : Unlinks s t th evs s') : Onward s s' :=
  ⟨Int.le_of_eq h.now.symm, fun _ he => h.mem_log.mpr (.inl he), s.osTimers.erase t, [],
    h.osTimers.trans (List.append_nil _).symm, List.erase_sublist, nofun⟩

theorem Inv.step (h : Inv s) (hsafe : op.safe s) (hs : s.step op = some s') : Inv s' ∧ Onward s s' := by
  cases op with
  | newFunction children =>
    obtain ⟨hchildren, hs⟩ := Option.ite_none_right_eq_some.mp hs
    cases hs
    exact ⟨h.newFunction hchildren, .of_same ⟨rfl, rfl, rfl, rfl⟩ (Int.le_refl _)⟩
  | getChild p o =>
    obtain ⟨⟨-, ho⟩, hs⟩ := Option.ite_none_right_eq_some.mp hs
    cases hs
    obtain ⟨ob, hob, ho⟩ := (Option.any_eq_true _ _).mp ho
    refine ⟨h.setRoots (List.forall_mem_cons.mpr ⟨?_, h.live.roots⟩) fun _ => id,
      .of_same ⟨rfl, rfl, rfl, rfl⟩ (Int.le_refl _)⟩
    exact h.live.children p ob hob o (of_decide_eq_true ho)
  | setChild p o =>
    obtain ⟨⟨-, ho⟩, hs⟩ := Option.ite_none_right_eq_some.mp hs
    refine ⟨h.modifyChildren hs fun ob hob => List.forall_mem_cons.mpr
      ⟨h.live.roots o ho, h.live.children p ob hob⟩, ?_⟩
    obtain ⟨ob, -, rfl⟩ := Option.map_eq_some_iff.mp hs
    exact .of_same ⟨rfl, rfl, rfl, rfl⟩ (Int.le_refl _)
  | dropChild p o =>
    obtain ⟨-, hs⟩ := Option.ite_none_right_eq_some.mp hs
    refine ⟨h.modifyChildren hs fun ob hob c hc =>
      h.live.children p ob hob c (List.mem_of_mem_erase hc), ?_⟩
    obtain ⟨ob, -, rfl⟩ := Option.map_eq_some_iff.mp hs
    exact .of_same ⟨rfl, rfl, rfl, rfl⟩ (Int.le_refl _)
  | drop o =>
    obtain ⟨-, hs⟩ := Option.ite_none_right_eq_some.mp hs
    cases hs
    exact ⟨h.setRoots (fun o' ho' => h.live.roots o' (List.mem_of_mem_erase ho')) fun _ => id,
      .of_same ⟨rfl, rfl, rfl, rfl⟩ (Int.le_refl _)⟩
  | free o =>
    obtain ⟨hno, hs⟩ := Option.ite_none_left_eq_some.mp hs
    cases hs
    exact ⟨h.free (Bool.eq_false_iff.mpr hno), (freeObject_frees h.memory h.logged o).shrinks.onward⟩
  | runGC =>
    cases hs
    exact ⟨h.runGC hsafe, (foldl_freeObject_frees h.memory h.logged _).shrinks.onward⟩
  | elapse d =>
    obtain ⟨hd, hs⟩ := Option.ite_none_right_eq_some.mp hs
    cases hs
    exact ⟨h.elapse hd, .of_same ⟨rfl, rfl, rfl, rfl⟩ (Int.le_add_of_nonneg_right (Int.natCast_nonneg d))⟩
  | setTimeout func delay =>
    obtain ⟨⟨-, ⟨hf, -⟩, hle, -⟩, hs⟩ := Option.ite_none_right_eq_some.mp hs
    cases hs
    exact ⟨h.setTimeout hf hle hsafe, Int.le_refl _, List.subset_cons_self _ _, s.osTimers,
      [s.timers.length], rfl, List.Sublist.refl _, List.forall_mem_singleton.mpr (Nat.le_refl _)⟩
  | clearTimeout o =>
    obtain ⟨-, hs⟩ := Option.ite_none_right_eq_some.mp hs
    split at hs
    · rename_i t ho
      cases hs
      by_cases ht : t ∈ s.osTimers
      · obtain ⟨th, hth, hobj⟩ := h.memory.owned o t ho
        exact ⟨h.clearTimeout ho ht, (clearTimeout_unlinks hth hobj ht).onward⟩
      · rw [State.clearTimeout, if_neg ht]
        exact ⟨h, .of_same ⟨rfl, rfl, rfl, rfl⟩ (Int.le_refl _)⟩
    · cases hs
      exact ⟨h, .of_same ⟨rfl, rfl, rfl, rfl⟩ (Int.le_refl _)⟩
  | poll =>
    obtain ⟨-, hs⟩ := Option.ite_none_right_eq_some.mp hs
    cases hs
    refine ⟨h.poll hsafe, ?_⟩
    rcases poll_cases h hsafe with ⟨heq, -⟩ | ⟨before, t, after, th, -, hth, -, heq, -⟩
    · rw [heq]
      exact .of_same ⟨rfl, rfl, rfl, rfl⟩ (Int.le_refl _)
    · exact heq ▸ (fire_unlinks hth).onward
  | pollReturns =>
    obtain ⟨-, hs⟩ := Option.ite_none_right_eq_some.mp hs
    cases hs
    exact ⟨h.setRoots h.live.roots nofun, .of_same ⟨rfl, rfl, rfl, rfl⟩ (Int.le_refl _)⟩
  | freeHandlers =>
    obtain ⟨-, hs⟩ := Option.ite_none_right_eq_some.mp hs
    cases hs
    obtain ⟨hinv, hlog, hnow, hnil⟩ := h.exit.foldl_releaseTimer rfl rfl
    exact ⟨hinv, Int.le_of_eq hnow.symm, hlog, [], [], hnil, List.nil_sublist _, nofun⟩

end QuickJs.Timer
