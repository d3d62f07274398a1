import QuickJs.RegistryInvariant

/-!
# Imports that fail

A load that fails frees the modules that are being compiled for it, and a link or an evaluation that
fails the modules which have not been evaluated. If no module that stays is on a cycle with one of
them, and no module is being evaluated around the import, the list can still be used.
-/

namespace QuickJs.ModuleRegistry

open Run

variable {r r1 : Registry} {s : State} {m p q : Ptr} {i : ℕ} {f : Frame} {st : List Frame}

variable {keep : Ptr → Bool} {phase : Phase}

/-! ## Failures of loads -/

theorem Registry.mem_restrict : p ∈ (r.restrict keep).loadedModules ↔ p ∈ r.loadedModules ∧ keep p = true :=
  List.mem_filter

theorem Registry.Sound.restrict (hr : r.Sound)
    (hkeep : ∀ p ∈ r.loadedModules, keep p = true → ∀ i q, r.Points p i q → keep q = true) :
    (r.restrict keep).Sound where
  lt_next p hp := hr.lt_next p (mem_restrict.mp hp).1
  listed p hp i q hq := by
    obtain ⟨hp, hk⟩ := mem_restrict.mp hp
    exact mem_restrict.mpr ⟨hr.listed p hp i q hq, hkeep p hp hk i q hq⟩
  unresolved p hp := hr.unresolved p (mem_restrict.mp hp).1
  passed p hp := hr.passed p (mem_restrict.mp hp).1

theorem Registry.FrameOk.restrict (h : r.FrameOk f)
    (hf : ∀ m, f.module = some m → keep m = true) : (r.restrict keep).FrameOk f := by
  have hm {m : Ptr} (hm : m ∈ r.loadedModules) (hmod : f.module = some m) :
      m ∈ (r.restrict keep).loadedModules := mem_restrict.mpr ⟨hm, hf m hmod⟩
  cases f with
  | resolve m i => exact ⟨⟨hm h.1.1 rfl, h.1.2⟩, h.2⟩
  | walk phase m i => exact ⟨⟨hm h.1.1 rfl, h.1.2⟩, h.2⟩
  | body m => exact ⟨⟨hm h.1.1 rfl, h.1.2⟩, h.2⟩
  | evalFunction m | «export» m => exact ⟨hm h.1 rfl, h.2⟩
  | evalInternal m | runResolve m => exact hm h rfl
  | resolveModule | runModule => trivial

theorem Registry.StackOk.restrict (h : r.StackOk st)
    (hst : ∀ f ∈ st, ∀ m, f.module = some m → keep m = true) : (r.restrict keep).StackOk st := by
  induction st with
  | nil => trivial
  | cons f st ih =>
    obtain ⟨hf, hst⟩ := List.forall_mem_cons.mp hst
    exact ⟨h.1.restrict hf, h.2.1, ih h.2.2 hst⟩

/-- The stack after the load at its top has failed. -/
def unloaded : List Frame → List Frame
  | .resolve _ _ :: st | .evalInternal _ _ :: st => unloaded st
  | .runModule :: st => st
  | st => st

/-- A load fails for a module that is being compiled, and for the modules that it is loaded for. -/
theorem compiling_cases (h : r.StackOk (.resolve m i :: st)) (hc : Compiling (.resolve m i :: st)) :
    ∃ run st1, st = .evalInternal m run :: st1 ∧ r.StackOk st1 ∧ Compiling st1 ∧
      (∀ f ∈ st1, f.module ≠ some m) ∧
      ((∃ q j st2, st1 = .resolve q j :: st2) ∨ (∃ st2, st1 = .runModule :: st2) ∨ hosted st1 = true) := by
  cases st with
  | nil => cases hc
  | cons f st =>
    cases f with
    | evalInternal m1 run =>
      obtain ⟨-, ⟨-, hm⟩, -, ⟨hfresh, hcall⟩, hst⟩ := h
      cases hm
      refine ⟨run, st, rfl, hst, hc, hfresh, ?_⟩
      cases st with
      | nil => exact .inr (.inr rfl)
      | cons f st =>
        cases f with
        | resolve q j => exact .inl ⟨q, j, st, rfl⟩
        | runModule => exact .inr (.inl ⟨st, rfl⟩)
        | _ => exact .inr (.inr hcall)
    | _ => cases hc

theorem loadFailed_of_hosted (h : hosted st = true) : State.loadFailed st s = { s with stack := st } := by
  cases st with
  | nil => rfl
  | cons f st => cases f <;> first | rfl | cases h

theorem unloaded_of_hosted (h : hosted st = true) : unloaded st = st := by
  cases st with
  | nil => rfl
  | cons f st => cases f <;> first | rfl | cases h

theorem loading_of_hosted (h : hosted st = true) : loading st = [] := by
  cases st with
  | nil => rfl
  | cons f st => cases f <;> first | rfl | cases h

/-- What a failure of a load does. -/
structure Unloads (r : Registry) (st : List Frame) : Prop where
  loadFailed (s : State) : State.loadFailed st s =
    { s with toRegistry := s.toRegistry.restrict (· ∉ loading st), stack := unloaded st }
  hosted : hosted (unloaded st) = true
  stackOk : r.StackOk (unloaded st)
  fresh : ∀ f ∈ unloaded st, ∀ m ∈ loading st, f.module ≠ some m
  resolving : ∀ p, resolving st p → p ∈ loading st
  evaluating : ∀ p, Evaluating st p → Evaluating (unloaded st) p
  mem : ∀ f ∈ unloaded st, f ∈ st

theorem Registry.restrict_true : r.restrict (fun p => p ∉ ([] : List Ptr)) = r := by
  simp [Registry.restrict]

theorem Registry.restrict_restrict {ms : List Ptr} :
    (r.restrict (· ≠ m)).restrict (· ∉ ms) = r.restrict (· ∉ m :: ms) := by
  simp only [Registry.restrict, List.filter_filter, List.mem_cons, not_or, Bool.decide_and, Bool.and_comm]

theorem unloads_of_hosted (h : r.StackOk st) (hhost : hosted st = true) : Unloads r st := by
  have hst := unloaded_of_hosted hhost
  have hms := loading_of_hosted hhost
  refine ⟨fun s => ?_, ?_, ?_, ?_, fun p hp => ?_, ?_, ?_⟩
  · rw [loadFailed_of_hosted hhost, hst, hms, Registry.restrict_true]
  · rwa [hst]
  · rwa [hst]
  · rw [hms]
    exact fun _ _ => nofun
  · exact absurd hp (not_resolving_of_hosted h hhost)
  · rw [hst]
    exact fun _ => id
  · rw [hst]
    exact fun _ => id

theorem unloads_of_compiling (h : r.StackOk (.resolve m i :: st))
    (hc : Compiling (.resolve m i :: st)) : Unloads r (.resolve m i :: st) := by
  induction hn : st.length using Nat.strongRecOn generalizing m i st with
  | _ n ih =>
    obtain ⟨run, st1, rfl, hst1, hc1, hfresh, hst⟩ := compiling_cases h hc
    have hu : Unloads r st1 := by
      rcases hst with ⟨q, j, st2, rfl⟩ | ⟨st2, rfl⟩ | hhost
      · exact ih st2.length (by rw [← hn, List.length_cons, List.length_cons]; omega) hst1 hc1 rfl
      · have hhost : hosted st2 = true := hst1.2.1
        refine ⟨fun s => ?_, hhost, hst1.2.2, fun _ _ => nofun, fun p hp => ?_, fun p hp => ?_,
          fun f => List.mem_cons_of_mem _⟩
        · change ({ s with stack := st2 } : State) = { s with
            toRegistry := s.toRegistry.restrict fun p => p ∉ ([] : List Ptr), stack := st2 }
          rw [Registry.restrict_true]
        · refine absurd hp (not_resolving_of_head (r := r) hst1 fun f hf => ?_)
          cases hf
          rfl
        · change Evaluating st2 p
          simpa [Frame.Evaluates] using hp
      · exact unloads_of_hosted hst1 hhost
    refine ⟨fun s => ?_, hu.hosted, hu.stackOk, fun f hf p hp => ?_, fun p hp => ?_, fun p hp => ?_,
      fun f hf => List.mem_cons_of_mem _ (List.mem_cons_of_mem _ (hu.mem f hf))⟩
    · have heq : State.loadFailed (.resolve m i :: .evalInternal m run :: st1) s =
          State.loadFailed st1 (s.freeModuleDef m) := rfl
      have hms : loading (.resolve m i :: .evalInternal m run :: st1) = m :: loading st1 := rfl
      rw [heq, hu.loadFailed, hms, ← Registry.restrict_restrict]
      rfl
    · rcases List.mem_cons.mp hp with rfl | hp
      · exact hfresh f (hu.mem f hf)
      · exact hu.fresh f hf p hp
    · rw [resolving_cons, resolving_cons] at hp
      rcases hp with ⟨j, heq⟩ | ⟨j, heq⟩ | hp
      · cases heq
        exact List.mem_cons_self
      · cases heq
      · exact List.mem_cons_of_mem _ (hu.resolving p hp)
    · simp only [evaluating_cons, Frame.Evaluates, reduceCtorEq, exists_false, false_or] at hp
      exact hu.evaluating p hp

theorem inv_loadFailed (hI : Inv s) (hstack : s.stack = .resolve m i :: st) (hc : Compiling s.stack)
    (hapart : s.toRegistry.Apart (· ∉ loading s.stack) (· ∈ loading s.stack)) :
    Inv (State.loadFailed s.stack s) := by
  have hok := hI.stackOk
  have hu : Unloads s.toRegistry s.stack := by
    rw [hstack] at hok hc ⊢
    exact unloads_of_compiling hok hc
  rw [hu.loadFailed]
  exact {
    fault := hI.fault
    sound := hI.sound.restrict fun p hp hk j q ⟨e, he, hq⟩ =>
      decide_eq_true (hapart p hp (of_decide_eq_true hk) e (List.mem_of_getElem? he) q hq)
    stackOk := hu.stackOk.restrict fun f hf m hm =>
      decide_eq_true fun hmem => hu.fresh f hf m hmem hm
    filled := by
      intro p ⟨hp, hres⟩ _
      obtain ⟨hp, hk⟩ := Registry.mem_restrict.mp hp
      exact hI.filled p ⟨hp, hres⟩ fun h => of_decide_eq_true hk (hu.resolving p h)
    marked := fun p hp hmk =>
      hu.evaluating p (hI.marked p (Registry.mem_restrict.mp hp).1 hmk)
    resolved := fun p hp => hI.resolved p (Registry.mem_restrict.mp hp).1
    top := fun m i hhead => absurd hhead (not_resolve_head_of_hosted hu.hosted) }

/-! ## Failures of links and evaluations -/

/-- A stack of calls of `JS_EvalFunctionInternal` that no body has made. -/
def Unwinds : List Frame → Prop
  | .walk _ _ _ :: st => Unwinds st
  | [.evalFunction _ _] => True
  | _ => False

theorem unwinds_of_stackOk (h : r.StackOk st) (hout : Outermost st)
    (hhead : (∃ phase m i, st.head? = some (.walk phase m i)) ∨
      ∃ m phase, st.head? = some (.evalFunction m phase)) : Unwinds st := by
  induction st with
  | nil => simp at hhead
  | cons f st ih =>
    rcases hhead with ⟨phase, m, i, heq⟩ | ⟨m, phase, heq⟩
    · cases heq
      refine ih h.2.2 (fun m hm => hout m (List.mem_cons_of_mem _ hm)) ?_
      have hcall := h.2.1
      rcases st with _ | ⟨g, st⟩
      · cases hcall
      · cases g with
        | walk phase1 q j => exact .inl ⟨_, _, _, rfl⟩
        | evalFunction q phase1 => exact .inr ⟨_, _, rfl⟩
        | _ => cases hcall
    · cases heq
      have hcall : hosted st = true := h.2.1
      rcases st with _ | ⟨g, st⟩
      · trivial
      · cases g with
        | body m => exact absurd (List.mem_cons_of_mem _ List.mem_cons_self) (hout m)
        | _ => cases hcall

/-- A call of `JS_EvalFunctionInternal` is in one of its phases. -/
theorem phase_of_mem {phase1 : Phase} (h : r.StackOk st) (hout : Outermost st)
    (hhead : (∃ m i, st.head? = some (.walk phase m i)) ∨ ∃ m, st.head? = some (.evalFunction m phase))
    (hmem : .walk phase1 q i ∈ st) : phase1 = phase := by
  induction st with
  | nil => cases hmem
  | cons f st ih =>
    have hcall := h.2.1
    rcases hhead with ⟨m, i, heq⟩ | ⟨m, heq⟩
    · cases heq
      rcases List.mem_cons.mp hmem with heq | hmem
      · cases heq
        rfl
      · refine ih h.2.2 (fun m hm => hout m (List.mem_cons_of_mem _ hm)) ?_ hmem
        rcases st with _ | ⟨g, st⟩
        · cases hcall
        · cases g with
          | walk phase2 q j => exact .inl ⟨q, j, by rw [hcall.1]; rfl⟩
          | evalFunction q phase2 =>
            cases hcall
            exact .inr ⟨q, rfl⟩
          | _ => cases hcall
    · cases heq
      have hst := (unwinds_of_stackOk h hout (.inr ⟨m, phase, rfl⟩))
      cases st with
      | nil => cases List.mem_singleton.mp hmem
      | cons => cases hst

/-- The marks of some modules are cleared. -/
structure Unmarked (r r1 : Registry) (ms : Ptr → Prop) : Prop where
  loadedModules : r1.loadedModules = r.loadedModules
  next : r1.next = r.next
  requests (p : Ptr) : (r1.mod p).requests = (r.mod p).requests
  resolved (p : Ptr) : (r1.mod p).resolved = (r.mod p).resolved
  evaluated (p : Ptr) : (r1.mod p).evaluated = (r.mod p).evaluated
  evalMark (p : Ptr) : (r1.mod p).evalMark = true → (r.mod p).evalMark = true ∧ ¬ ms p

theorem unmarked_modify : Unmarked r (r.modify m fun d => { d with evalMark := false }) (· = m) where
  loadedModules := rfl
  next := rfl
  requests _ := Registry.modify_field (·.requests) rfl
  resolved _ := Registry.modify_field (·.resolved) rfl
  evaluated _ := Registry.modify_field (·.evaluated) rfl
  evalMark p hp := by
    rw [Registry.modify_mod] at hp
    split at hp
    · cases hp
    · rename_i hne
      exact ⟨hp, hne⟩

theorem Unmarked.trans {r2 : Registry} {ms ms1 ms2 : Ptr → Prop} (h : Unmarked r r1 ms)
    (h1 : Unmarked r1 r2 ms1) (hms : ∀ p, ms2 p → ms p ∨ ms1 p) : Unmarked r r2 ms2 where
  loadedModules := h1.loadedModules.trans h.loadedModules
  next := h1.next.trans h.next
  requests p := (h1.requests p).trans (h.requests p)
  resolved p := (h1.resolved p).trans (h.resolved p)
  evaluated p := (h1.evaluated p).trans (h.evaluated p)
  evalMark p hp := by
    obtain ⟨hp1, hno1⟩ := h1.evalMark p hp
    obtain ⟨hp, hno⟩ := h.evalMark p hp1
    exact ⟨hp, fun h2 => (hms p h2).elim hno hno1⟩

/-- The marks are cleared on the way, and then the modules go that have not been evaluated. -/
theorem evalFailed_spec (hu : Unwinds st) (hfault : s.fault = false)
    (hl : ∀ f ∈ st, ∀ m, f.module = some m → m ∈ s.loadedModules) :
    ∃ r1, State.evalFailed st s = ⟨r1.restrict fun p => (r1.mod p).evaluated, [], false⟩ ∧
      Unmarked s.toRegistry r1 (evaluating st) := by
  induction st generalizing s with
  | nil => cases hu
  | cons f st ih =>
    obtain ⟨hf, hl1⟩ := List.forall_mem_cons.mp hl
    cases f with
    | walk phase m i =>
      cases phase with
      | evaluate =>
        have heq : State.evalFailed (.walk .evaluate m i :: st) s =
            State.evalFailed st (s.modify m fun d => { d with evalMark := false }) := by
          rw [State.evalFailed, State.deref]
          simp only [if_pos (hf m rfl)]
        obtain ⟨r1, hr1, hun⟩ := ih (s := s.modify m fun d => { d with evalMark := false }) hu
          hfault hl1
        refine ⟨r1, heq.trans hr1, unmarked_modify.trans hun ?_⟩
        rintro p ⟨j, hj⟩
        rcases List.mem_cons.mp hj with heq | hj
        · cases heq
          exact .inl rfl
        · exact .inr ⟨j, hj⟩
      | create | link =>
        obtain ⟨r1, hr1, hun⟩ := ih hu hfault hl1
        refine ⟨r1, hr1, hun.loadedModules, hun.next, hun.requests, hun.resolved, hun.evaluated,
          fun p hp => ⟨(hun.evalMark p hp).1, ?_⟩⟩
        rintro ⟨j, hj⟩
        rcases List.mem_cons.mp hj with heq | hj
        · cases heq
        · exact (hun.evalMark p hp).2 ⟨j, hj⟩
    | evalFunction m phase =>
      cases st with
      | nil =>
        obtain ⟨r, stack, fault⟩ := s
        cases hfault
        refine ⟨r, rfl, rfl, rfl, fun _ => rfl, fun _ => rfl, fun _ => rfl, fun p hp => ⟨hp, ?_⟩⟩
        rintro ⟨j, hj⟩
        cases List.mem_singleton.mp hj
      | cons => cases hu
    | _ => cases hu

theorem inv_evalFailed (hs : Steady s)
    (hres : ∀ p ∈ s.loadedModules, ∀ i q, s.toRegistry.Points p i q → (s.mod q).resolved = true)
    (hout : Outermost s.stack)
    (hhead : (∃ phase m i, s.stack.head? = some (.walk phase m i)) ∨
      ∃ m phase, s.stack.head? = some (.evalFunction m phase))
    (hapart : s.toRegistry.Apart (fun p => (s.mod p).evaluated = true) (evaluating s.stack)) :
    Inv (State.evalFailed s.stack s) := by
  have hu := unwinds_of_stackOk hs.stackOk hout hhead
  have hquiet (p : Ptr) : ¬ resolving s.stack p := by
    refine not_resolving_of_head hs.stackOk fun f hf => ?_
    rcases hhead with ⟨_, _, _, heq⟩ | ⟨_, _, heq⟩ <;>
    · rw [heq] at hf
      cases hf
      rfl
  obtain ⟨r1, heq, hun⟩ := evalFailed_spec hu hs.fault fun f hf m hm =>
    (Registry.frameOk_of_stackOk hs.stackOk f hf).listed hm
  have hpoints {p i q} : r1.Points p i q ↔ s.toRegistry.Points p i q := by
    rw [Registry.Points, Registry.Points, hun.requests]
  -- what has been evaluated requests nothing else, as nothing is marked but the failing calls
  have hclosed {p i} (hp : p ∈ s.loadedModules) (hev : (s.mod p).evaluated = true)
      (hi : i < (s.mod p).requests.length) :
      ∃ q, s.toRegistry.Points p i q ∧ (s.mod q).evaluated = true := by
    obtain ⟨q, hq, hbegun⟩ := hs.sound.passed p hp hev i hi
    refine ⟨q, hq, hbegun.resolve_left fun hmk => ?_⟩
    obtain ⟨e, he, hq1⟩ := hq
    rcases hs.marked q (hs.sound.listed p hp i q ⟨e, he, hq1⟩) hmk with hbody | hwalk
    · exact hout q hbody
    · exact hapart p hp hev e (List.mem_of_getElem? he) q hq1 hwalk
  have hkept {p} : p ∈ (r1.restrict fun p => (r1.mod p).evaluated).loadedModules ↔
      p ∈ s.loadedModules ∧ (s.mod p).evaluated = true := by
    rw [Registry.mem_restrict, hun.loadedModules, hun.evaluated]
  rw [heq]
  exact {
    fault := rfl
    sound := {
      lt_next := fun p hp => by
        change p < r1.next
        rw [hun.next]
        exact hs.sound.lt_next p (hkept.mp hp).1
      listed := fun p hp i q hq => by
        obtain ⟨hp, hev⟩ := hkept.mp hp
        have hq1 := hpoints.mp hq
        have hi : i < (s.mod p).requests.length := by
          obtain ⟨e, he, -⟩ := hq1
          exact (List.getElem?_eq_some_iff.mp he).1
        obtain ⟨q1, ⟨e1, he1, hq2⟩, hev1⟩ := hclosed hp hev hi
        obtain ⟨e, he, hqe⟩ := hq1
        cases he.symm.trans he1
        cases hqe.symm.trans hq2
        exact hkept.mpr ⟨hs.sound.listed p hp i q (hpoints.mp hq), hev1⟩
      unresolved := fun p hp hno i q hq =>
        hs.sound.unresolved p (hkept.mp hp).1 ((hun.resolved p).symm.trans hno) i q (hpoints.mp hq)
      passed := fun p hp _ i hi => by
        obtain ⟨hp, hev⟩ := hkept.mp hp
        obtain ⟨q, hq, hev1⟩ := hclosed hp hev ((hun.requests p) ▸ hi)
        exact ⟨q, hpoints.mpr hq, .inr ((hun.evaluated q).trans hev1)⟩ }
    stackOk := trivial
    filled := fun p hkeeps _ i hi => by
      obtain ⟨hp, hres⟩ := hkeeps
      have hready : s.toRegistry.Ready p := ⟨(hkept.mp hp).1, (hun.resolved p).symm.trans hres⟩
      obtain ⟨q, hq⟩ := hs.filled p hready (hquiet p) i ((hun.requests p) ▸ hi)
      exact ⟨q, hpoints.mpr hq⟩
    marked := fun p hp hmk => by
      obtain ⟨hmk, hno⟩ := hun.evalMark p hmk
      rcases hs.marked p (hkept.mp hp).1 hmk with hbody | hwalk
      · exact absurd hbody (hout p)
      · exact absurd hwalk hno
    resolved := fun p hp i q hq =>
      (hun.resolved q).trans (hres p (hkept.mp hp).1 i q (hpoints.mp hq))
    top := by simp }

/-! ## Steps -/

theorem returns_of_walk (hcall : r.Caller (.walk phase m i) st)
    (hbegun : phase = .evaluate → r.Begun m) : r.Returns st := by
  rcases st with _ | ⟨g, st⟩
  · cases hcall
  · cases g with
    | walk phase1 q j =>
      obtain ⟨rfl, hpoints⟩ := hcall
      cases phase with
      | evaluate => exact ⟨m, hpoints rfl, hbegun rfl⟩
      | create | link => trivial
    | evalFunction => trivial
    | _ => cases hcall

/-- A walk of the linker or of the evaluation goes into a module. -/
theorem inv_walk {g : ModuleDef → ModuleDef} (hI : Inv s)
    (hg : Registry.Marks g (s.mod m)) (heval : (g (s.mod m)).evaluated = (s.mod m).evaluated)
    (hready : s.toRegistry.Ready m) (hcall : s.toRegistry.Caller (.walk phase m 0) s.stack)
    (hres : (g (s.mod m)).resolved = (s.mod m).resolved)
    (hmark : (g (s.mod m)).evalMark = true → (s.mod m).evalMark = true ∨ phase = .evaluate) :
    Inv ((s.modify m g).push (.walk phase m 0)) := by
  refine { hI.toSteady.modifyPush (f := .walk phase m 0) hg (fun h => heval.symm.trans h)
    ⟨hready.mono hg.extends, fun _ => nofun⟩ hcall (fun h => .inl (hres.symm.trans h)) ?_ with
    resolved := ?_, top := nofun }
  · intro h
    exact (hmark h).imp_right fun heq => .inr ⟨0, by rw [heq]⟩
  · intro p hp i q hq
    exact hg.extends.resolved q (hI.sound.listed p hp i q (hg.points.mp hq))
      (hI.resolved p hp i q (hg.points.mp hq))

theorem inv_call (hI : Inv s) (hready : s.toRegistry.Ready m)
    (hcall : s.toRegistry.Caller (.walk phase m 0) s.stack)
    (hhead : (∃ phase m i, s.stack.head? = some (.walk phase m i)) ∨
      ∃ m phase, s.stack.head? = some (.evalFunction m phase))
    (hspares : phase = .evaluate → s.rethrows m → Outermost s.stack ∧
      s.toRegistry.Apart (fun p => (s.mod p).evaluated = true) (evaluating s.stack)) :
    Inv (s.call phase m) := by
  cases phase with
  | create | link =>
    simp only [State.call]
    split
    · exact inv_returned hI.toSteady (returns_of_walk hcall nofun) hI.resolved
    · exact inv_walk hI ⟨rfl, id, id⟩ rfl hready hcall rfl .inl
  | evaluate =>
    simp only [State.call]
    split
    · rename_i hmk
      exact inv_returned hI.toSteady (returns_of_walk hcall fun _ => .inl hmk) hI.resolved
    rename_i hmk
    rw [Bool.not_eq_true] at hmk
    split
    · rename_i hev
      split
      · rename_i hex
        obtain ⟨hout, hapart⟩ := hspares rfl ⟨hmk, hev, hex⟩
        exact inv_evalFailed hI.toSteady hI.resolved hout hhead hapart
      · exact inv_returned hI.toSteady (returns_of_walk hcall fun _ => .inr hev) hI.resolved
    · exact inv_walk hI ⟨rfl, id, fun _ => .inl rfl⟩ rfl hready hcall rfl fun _ => .inr rfl

/-- The body of a module has ended. -/
def finished (throws : Bool) (d : ModuleDef) : ModuleDef :=
  { d with evalMark := false, evaluated := true, evalHasException := throws }

theorem marks_finished {throws : Bool} : Registry.Marks (finished throws) (r.mod m) :=
  ⟨rfl, id, fun _ => .inr rfl⟩

theorem steady_finish (throws : Bool) (hI : Inv s) (hstack : s.stack = .body m :: st) :
    Steady ({ s with stack := st }.modify m (finished throws)) := by
  have hok := hI.stackOk
  rw [hstack] at hok
  obtain ⟨⟨hready, hpassed⟩, hcall, hst⟩ := hok
  have hg : Registry.Marks (finished throws) (s.mod m) := marks_finished
  have hnot (p : Ptr) : ¬ resolving s.stack p := by
    refine not_resolving_of_head hI.stackOk fun f hf => ?_
    rw [hstack] at hf
    cases hf
    rfl
  refine ⟨hI.fault, hI.sound.modify hg fun _ => .inr hpassed,
    hst.mono hg.extends hI.sound fun p _ => hg.mod_requests, fun p hp _ => ?_, fun p hp hmk => ?_⟩
  · change Registry.Filled (s.toRegistry.modify m (finished throws)) p
      ((s.toRegistry.modify m (finished throws)).mod p).requests.length
    rw [hg.mod_requests]
    have hres : (s.mod p).resolved = true :=
      (Registry.modify_field (·.resolved) rfl).symm.trans hp.2
    exact (hI.filled p ⟨hp.1, hres⟩ (hnot p)).mono hg.extends hp.1
  · change ((s.toRegistry.modify m (finished throws)).mod p).evalMark = true at hmk
    rw [Registry.modify_mod] at hmk
    split at hmk
    · cases hmk
    · rename_i hne
      have heval := hI.marked p hp hmk
      rw [hstack, evaluating_cons] at heval
      refine heval.resolve_left ?_
      rintro (heq | ⟨_, heq⟩)
      · cases heq
        exact hne rfl
      · cases heq

theorem inv_finish (throws : Bool) (hI : Inv s) (hstack : s.stack = .body m :: st)
    (hspares : throws = true → Outermost st ∧
      s.toRegistry.Apart (fun p => (s.mod p).evaluated = true ∨ p = m) (evaluating st)) :
    Inv (if throws then
        State.evalFailed st ({ s with stack := st }.modify m (finished throws))
      else ({ s with stack := st }.modify m (finished throws)).returned) := by
  have hs := steady_finish throws hI hstack
  have hok := hI.stackOk
  rw [hstack] at hok
  obtain ⟨⟨hready, -⟩, hcall, hst⟩ := hok
  have hg : Registry.Marks (finished throws) (s.mod m) := marks_finished
  have hres (p : Ptr) (hp : p ∈ s.loadedModules) (i : ℕ) (q : Ptr)
      (hq : (s.toRegistry.modify m (finished throws)).Points p i q) :
      ((s.toRegistry.modify m (finished throws)).mod q).resolved = true := by
    have hq := hg.points.mp hq
    exact hg.extends.resolved q (hI.sound.listed p hp i q hq) (hI.resolved p hp i q hq)
  split
  · rename_i hthrows
    obtain ⟨hout, hapart⟩ := hspares hthrows
    refine inv_evalFailed hs hres hout ?_ ?_
    · rcases st with _ | ⟨f, st⟩
      · cases hcall
      · cases f with
        | walk phase q j => exact .inl ⟨_, _, _, rfl⟩
        | evalFunction q phase => exact .inr ⟨_, _, rfl⟩
        | _ => cases hcall
    · intro p hp hev e he q hq
      change e ∈ ((s.toRegistry.modify m (finished throws)).mod p).requests at he
      change ((s.toRegistry.modify m (finished throws)).mod p).evaluated = true at hev
      rw [hg.mod_requests] at he
      rw [Registry.modify_mod] at hev
      refine hapart p hp ?_ e he q hq
      split at hev
      · rename_i heq
        exact .inr heq
      · exact .inl hev
  · refine inv_returned hs ?_ hres
    change Registry.Returns (s.toRegistry.modify m (finished throws)) st
    rcases st with _ | ⟨f, st⟩
    · cases hcall
    · cases f with
      | walk phase q j =>
        cases phase with
        | evaluate =>
          refine ⟨m, hg.points.mpr hcall, .inr ?_⟩
          rw [Registry.modify_mod, if_pos rfl]
          rfl
        | _ => cases hcall
      | evalFunction => trivial
      | _ => cases hcall

theorem inv_hostResolveImportedModule {cname : Option Name} {load : Load} (hI : Inv s)
    (hload : s.toRegistry.Loads s.stack)
    (hfail : s.loadFails cname load → Inv (State.loadFailed s.stack s)) :
    Inv (s.hostResolveImportedModule cname load) := by
  unfold State.hostResolveImportedModule
  split
  · exact hfail nofun
  rename_i name
  split
  · rename_i m1 hfind
    exact inv_hostLoaded hI hload (List.mem_of_find?_eq_some hfind)
  rename_i hfind
  split
  · refine hfail fun name1 heq => ?_
    cases heq
    exact ⟨hfind, rfl⟩
  · refine inv_hostLoaded (inv_newModuleDef hI) ?_ (Registry.mem_newModuleDef.mpr (.inr rfl))
    change Registry.Loads (s.toRegistry.newModuleDef name []) s.stack
    cases hstack : s.stack with
    | nil =>
      rw [hstack] at hload
      cases hload
    | cons f st =>
      rw [hstack] at hload
      cases f with
      | resolve m i =>
        have hlt : m < s.next := lt_next_of_resolving hI.toSteady
          ⟨i, by rw [hstack]; exact List.mem_cons_self⟩
        change _ < ((s.toRegistry.newModuleDef name []).mod m).requests.length
        rw [Registry.newModuleDef_mod_of_lt hlt]
        exact hload
      | runModule => trivial
      | _ => cases hload
  · refine inv_evalInternal hI ?_
    cases hstack : s.stack with
    | nil =>
      rw [hstack] at hload
      cases hload
    | cons f st =>
      rw [hstack] at hload
      cases f with
      | resolve m i => exact ⟨rfl, hload⟩
      | runModule => rfl
      | _ => cases hload

/-- A call of the host, or of a body, that evaluates nothing yet. -/
theorem inv_push (hI : Inv s) (hf : s.toRegistry.FrameOk f)
    (hcall : s.toRegistry.Caller f s.stack) (hne : ∀ m i, f ≠ .resolve m i) : Inv (s.push f) :=
  { hI.toSteady.push hf hcall with
    resolved := hI.resolved
    top := fun m i hhead => absurd (Option.some.inj hhead) (hne m i) }

variable {k : Ptr → State} {e : Request} {s1 : State}

theorem inv_deref (hI : Inv s) (hready : s.toRegistry.Ready m)
    (hstack : ¬ resolving s.stack m) (he : (s.mod m).requests[i]? = some e)
    (hk : ∀ m1, s.toRegistry.Ready m1 → e.module = some m1 → Inv (k m1)) :
    Inv (s.deref e.module k) := by
  obtain ⟨hi, -⟩ := List.getElem?_eq_some_iff.mp he
  obtain ⟨m1, e1, he1, hm1⟩ := hI.filled m hready hstack i hi
  cases he.symm.trans he1
  have hready1 : s.toRegistry.Ready m1 :=
    ⟨hI.sound.listed m hready.1 i m1 ⟨e, he, hm1⟩, hI.resolved m hready.1 i m1 ⟨e, he, hm1⟩⟩
  rw [hm1, State.deref]
  simp only [if_pos hready1.1]
  exact hk m1 hready1 hm1

theorem deref_some (hm : m ∈ s.loadedModules) : s.deref (some m) k = k m :=
  if_pos hm

theorem not_resolving_head (hI : Inv s) (hstack : s.stack = f :: st) (hf : f.loads = false) :
    ¬ resolving s.stack p := by
  refine not_resolving_of_head hI.stackOk fun g hg => ?_
  rw [hstack] at hg
  cases hg
  exact hf

theorem caller_export (h : hosted st = true) : r.Caller (.export m) st := by
  cases st with
  | nil => rfl
  | cons f st => cases f <;> trivial

/-- The linker, or the search for an export, goes on to a module. -/
theorem inv_export {j : ℕ} (hI : Inv s)
    (hstack : s.stack = .export m :: st ∨ s.stack = .walk .link m j :: st)
    (he : (s.mod m).requests[i]? = some e) :
    Inv (s.deref (some m) fun _ => s.deref e.module fun m1 => s.push (.export m1)) := by
  have hready : s.toRegistry.Ready m := by
    have hok := hI.stackOk
    rcases hstack with hstack | hstack <;> rw [hstack] at hok
    · exact hok.1
    · exact hok.1.1
  have hnot : ¬ resolving s.stack m := by
    rcases hstack with hstack | hstack <;> exact not_resolving_head hI hstack rfl
  rw [deref_some hready.1]
  refine inv_deref hI hready hnot he fun m1 hm1 _ => inv_push hI hm1 ?_ nofun
  rcases hstack with hstack | hstack <;> rw [hstack] <;> trivial

theorem inv_advance (hI : Inv s) (hspares : Spares s .advance)
    (hs : s.perform .advance = some s1) : Inv s1 := by
  unfold State.perform at hs
  have hok := hI.stackOk
  split at hs <;> rename_i hstack <;> try cases ‹Op.advance = _›
  · split at hs
    · cases hs
    · rename_i hi
      cases hs
      exact inv_resolved hI hstack (Nat.le_of_not_lt hi)
  · rename_i m phase st
    cases hs
    rw [hstack] at hok
    rw [deref_some hok.1.1]
    refine inv_call hI hok.1 ?_ (.inr ⟨m, phase, by rw [hstack]; rfl⟩) ?_
    · rw [hstack]
      rfl
    · rintro rfl
      exact hspares m (.inl (by rw [hstack]; rfl))
  · rename_i phase m i st
    rw [hstack] at hok
    obtain ⟨⟨hready, hpassed⟩, hcall, hst⟩ := hok
    rw [if_neg (not_not.mpr hready.1)] at hs
    have hnot : ¬ resolving s.stack m := not_resolving_head hI hstack rfl
    cases he : (s.mod m).requests[i]? with
    | some e =>
      simp only [he, Option.some.injEq] at hs
      subst hs
      refine inv_deref hI hready hnot he fun m1 hm1 hpoints =>
        inv_call hI hm1 ?_ (.inl ⟨phase, m, i, by rw [hstack]; rfl⟩) ?_
      · rw [hstack]
        exact ⟨rfl, fun _ => ⟨e, he, hpoints⟩⟩
      · rintro rfl
        exact hspares m1 (.inr ⟨m, i, e, by rw [hstack]; rfl, he, hpoints⟩)
    | none =>
      have hi : (s.mod m).requests.length ≤ i := List.getElem?_eq_none_iff.mp he
      cases phase with
      | create =>
        simp only [he, Option.some.injEq] at hs
        subst hs
        refine inv_returned (hI.keepStack hst ?_ ?_) (returns_of_walk hcall (by simp)) hI.resolved <;>
          rw [hstack] <;> simp [Frame.Evaluates]
      | link =>
        simp only [he] at hs
        cases hs
      | evaluate =>
        simp only [he, Option.some.injEq] at hs
        subst hs
        have hbody : s.toRegistry.FrameOk (.body m) :=
          ⟨hready, fun j hj => hpassed rfl j (Nat.lt_of_lt_of_le hj hi)⟩
        have hcaller : s.toRegistry.Caller (.body m) st := by
          rcases st with _ | ⟨f, st⟩
          · cases hcall
          · cases f with
            | walk phase1 q j =>
              obtain ⟨rfl, hpoints⟩ := hcall
              exact hpoints rfl
            | evalFunction q phase1 =>
              cases hcall
              trivial
            | _ => cases hcall
        have hst1 : s.toRegistry.StackOk (.body m :: st) := ⟨hbody, hcaller, hst⟩
        refine { hI.keepStack hst1 ?_ ?_ with resolved := hI.resolved, top := by simp }
        · rw [hstack]
          simp
        · rw [hstack]
          intro p
          simp only [evaluating_cons]
          rintro ((h | ⟨_, -, rfl, -⟩) | h)
          · cases h
          · exact .inl (.inl rfl)
          · exact .inr h
  · cases hs

theorem inv_step {op : Op} (hI : Inv s) (hspares : Spares s op)
    (hs : s.step op = some s1) : Inv s1 := by
  rw [State.step, if_neg (ne_true_of_eq_false hI.fault)] at hs
  have hok := hI.stackOk
  cases op with
  | advance => exact inv_advance hI hspares hs
  | eval name requests run =>
    simp only [State.perform] at hs
    split at hs
    · cases hs
    rename_i hhost
    rw [Bool.not_eq_true', Bool.not_eq_false] at hhost
    cases requests with
    | none =>
      cases hs
      exact hI
    | some requests =>
      cases hs
      refine inv_evalInternal hI ?_
      cases hstack : s.stack with
      | nil => rfl
      | cons f st =>
        rw [hstack] at hhost
        cases f <;> first | rfl | cases hhost
  | readObject name requests =>
    simp only [State.perform] at hs
    split at hs
    · cases hs
    cases hs
    exact inv_newModuleDef hI
  | resolveModule m =>
    simp only [State.perform] at hs
    split at hs
    · cases hs
    rename_i hguard
    simp only [Bool.or_eq_true, Bool.not_eq_true', decide_eq_true_eq, not_or, not_not,
      Bool.not_eq_false] at hguard
    cases hs
    refine inv_resolveModule (hI.toSteady.push (f := .resolveModule) trivial hguard.1) hguard.2 ?_
      (fun _ => trivial) trivial
    exact fun p hp i q hq => .inr (hI.resolved p hp i q hq)
  | runModule cname load =>
    simp only [State.perform] at hs
    split at hs
    · cases hs
    rename_i hhost
    rw [Bool.not_eq_true', Bool.not_eq_false] at hhost
    cases hs
    exact inv_hostResolveImportedModule (inv_push hI trivial hhost (by simp)) trivial fun _ => hI
  | evalFunction m =>
    simp only [State.perform] at hs
    split at hs
    · cases hs
    rename_i hguard
    simp only [Bool.or_eq_true, Bool.not_eq_true', decide_eq_true_eq, not_or, not_not,
      Bool.not_eq_false] at hguard
    cases hs
    exact inv_push hI ⟨hguard.1.2, hguard.2⟩ hguard.1.1 (by simp)
  | getModuleNs m =>
    simp only [State.perform] at hs
    split at hs
    · cases hs
    rename_i hguard
    simp only [Bool.or_eq_true, Bool.not_eq_true', decide_eq_true_eq, not_or, not_not,
      Bool.not_eq_false] at hguard
    cases hs
    exact inv_push hI ⟨hguard.1.2, hguard.2⟩ (caller_export hguard.1.1) (by simp)
  | request cname load =>
    unfold State.perform at hs
    split at hs <;> rename_i hstack <;> try cases ‹Op.request _ _ = _›
    · split at hs
      · rename_i hi
        cases hs
        refine inv_hostResolveImportedModule hI ?_ fun hfail => ?_
        · rw [hstack]
          exact hi
        · exact inv_loadFailed hI hstack (hspares hfail).1 (hspares hfail).2
      · cases hs
    · cases hs
  | «export» i =>
    unfold State.perform at hs
    split at hs <;> rename_i hstack <;> try cases ‹Op.export _ = _›
    · split at hs
      · cases hs
      split at hs
      · rename_i he
        cases hs
        exact inv_export hI (.inr hstack) he
      · cases hs
    · split at hs
      · rename_i he
        cases hs
        exact inv_export (j := 0) hI (.inl hstack) he
      · cases hs
    · cases hs
  | found =>
    unfold State.perform at hs
    split at hs <;> rename_i hstack <;> try cases ‹Op.found = _›
    · rename_i m st
      rw [hstack] at hok
      cases hs
      refine { hI.keepStack hok.2.2 ?_ ?_ with resolved := hI.resolved, top := fun m i hhead => ?_ }
      · rw [hstack]
        simp
      · rw [hstack]
        simp [Frame.Evaluates]
      · have hcall := hok.2.1
        rcases st with _ | ⟨f, st⟩
        · cases hhead
        · cases hhead
          cases hcall
    · cases hs
  | linked ok =>
    unfold State.perform at hs
    split at hs <;> rename_i hstack <;> try cases ‹Op.linked _ = _›
    · rename_i m i st
      split at hs
      · cases hs
      rw [hstack] at hok
      cases ok with
      | true =>
        cases hs
        refine inv_returned (hI.keepStack hok.2.2 ?_ ?_) (returns_of_walk hok.2.1 (by simp)) hI.resolved <;>
          rw [hstack] <;> simp [Frame.Evaluates]
      | false =>
        cases hs
        refine inv_evalFailed hI.toSteady hI.resolved (hspares rfl)
          (.inl ⟨_, _, _, by rw [hstack]; rfl⟩) ?_
        rintro p hp hev e he q hq ⟨j, hmem⟩
        rw [hstack] at hmem
        have hout : Outermost (.walk .link m i :: st) := hstack ▸ hspares rfl
        cases phase_of_mem hok hout (.inl ⟨m, i, rfl⟩) hmem
    · cases hs
  | finish throws =>
    unfold State.perform at hs
    split at hs <;> rename_i hstack <;> try cases ‹Op.finish _ = _›
    · rename_i m st
      rw [hstack] at hok
      have hI1 := inv_finish throws hI hstack fun h => hspares h m st hstack
      rw [deref_some hok.1.1.1] at hs
      cases hs
      have hfault : ({ s with stack := st }.modify m fun d =>
        { d with evalMark := false, evaluated := true, evalHasException := throws }).fault = false :=
          hI.fault
      rw [if_neg (ne_true_of_eq_false hfault)]
      exact hI1
    · cases hs

theorem Inv.usable (hI : Inv s) : Usable s where
  fault := hI.fault
  request p hp e he q hq := by
    obtain ⟨i, hi⟩ := List.getElem?_of_mem he
    exact hI.sound.listed p hp i q ⟨e, hi, hq⟩
  evaluating m hm := by
    have hframes := Registry.frameOk_of_stackOk hI.stackOk
    rcases hm with hmem | ⟨i, hmem⟩ <;> exact (hframes _ hmem).listed rfl

/-- A run whose failures spare the modules that stay leaves a list that can be used. -/
theorem usable_of_spares {ops : List Op} (hs : exec State.step .initial ops = some s)
    (hspares : Along State.step Spares .initial ops) : Usable s := by
  have hr : Reachable (· = .initial) State.step Spares s := hspares.reachable (.init rfl) hs
  exact (hr.invariant (fun _ h => h ▸ inv_initial) fun _ _ _ hI hok ht => inv_step hI hok ht).usable

/-- A file is missing that an imported module imports, and nothing of the import is left. -/
theorem usable_of_spares_example : ∃ s, exec State.step .initial [.eval 0 (some [1]) true,
    .request (some 1) (.source [2]), .request (some 2) .fails] = some s ∧ Usable s := by
  have hruns : ∃ s, exec State.step .initial [.eval 0 (some [1]) true,
    .request (some 1) (.source [2]), .request (some 2) .fails] = some s := ⟨_, rfl⟩
  obtain ⟨s, hs⟩ := hruns
  refine ⟨s, hs, usable_of_spares hs ⟨trivial, fun s1 h1 => ?_⟩⟩
  cases h1
  refine ⟨fun hfail => ?_, fun s2 h2 => ?_⟩
  · cases (hfail 1 rfl).2
  cases h2
  refine ⟨fun _ => ⟨trivial, ?_⟩, fun _ _ => trivial⟩
  intro p hp hno
  have hp1 : p ∈ [0, 1] := hp
  rcases List.mem_cons.mp hp1 with rfl | hp1
  · exact absurd (.tail _ (.head _)) hno
  · cases List.mem_singleton.mp hp1
    exact absurd (.head _) hno

/-- One of two modules that import each other imports a file that is missing: the other one stays
and requests a module that has been freed. To import it again is to follow this pointer. -/
theorem cycle_not_usable : ∃ s, exec State.step .initial [.eval 0 (some [1, 2]) true,
      .request (some 1) (.source [0]), .request (some 0) .fails, .advance,
      .request (some 2) .fails] = some s ∧
    s.loadedModules = [1] ∧ (s.mod 1).requests = [⟨0, some 0⟩] ∧ ¬ Usable s ∧
    ∃ s1, exec State.step s [.runModule (some 1) .fails, .advance, .advance] = some s1 ∧ s1.fault = true := by
  refine ⟨_, rfl, rfl, rfl, fun h => ?_, _, rfl, rfl⟩
  exact nomatch h.request 1 (.head _) ⟨0, some 0⟩ (.head _) 0 rfl

end QuickJs.ModuleRegistry
