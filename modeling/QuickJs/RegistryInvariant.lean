import QuickJs.ModuleRegistry

/-!
# The invariant of the loaded modules

What the list of the modules and the stack of the calls have in common, as long as nothing fails: the
requests of a module that has been resolved lead to modules of the list, the calls know the modules
that they are for, and a module which has been evaluated requests only modules whose evaluation has
begun. A module is added, a request is resolved or a mark is set, and the rest is kept.
-/

namespace QuickJs.ModuleRegistry

namespace Registry

/-- A request of a module has been resolved to a module. -/
def Points (r : Registry) (p : Ptr) (i : ℕ) (q : Ptr) : Prop :=
  ∃ e, (r.mod p).requests[i]? = some e ∧ e.module = some q

/-- A module is in the list, and its requests have been resolved, or are about to be. -/
def Ready (r : Registry) (m : Ptr) : Prop := m ∈ r.loadedModules ∧ (r.mod m).resolved = true

/-- The evaluation of a module has begun. -/
def Begun (r : Registry) (m : Ptr) : Prop := (r.mod m).evalMark = true ∨ (r.mod m).evaluated = true

/-- The first requests of a module have been resolved. -/
def Filled (r : Registry) (m : Ptr) (n : ℕ) : Prop := ∀ i < n, ∃ q, r.Points m i q

/-- They have been resolved to modules whose evaluation has begun. -/
def Passed (r : Registry) (m : Ptr) (n : ℕ) : Prop := ∀ i < n, ∃ q, r.Points m i q ∧ r.Begun q

/-- The list of the modules, whatever the stack is. -/
structure Sound (r : Registry) : Prop where
  lt_next : ∀ p ∈ r.loadedModules, p < r.next
  listed : ∀ p ∈ r.loadedModules, ∀ i q, r.Points p i q → q ∈ r.loadedModules
  unresolved : ∀ p ∈ r.loadedModules, (r.mod p).resolved = false → ∀ i q, ¬ r.Points p i q
  passed : ∀ p ∈ r.loadedModules, (r.mod p).evaluated = true → r.Passed p (r.mod p).requests.length

/-- What a call knows about its module. -/
def FrameOk (r : Registry) : Frame → Prop
  | .resolve m i => r.Ready m ∧ r.Filled m i ∧ ∀ j q, r.Points m j q → j ≤ i
  | .walk phase m i => r.Ready m ∧ (phase = .evaluate → r.Passed m i)
  | .body m => r.Ready m ∧ r.Passed m (r.mod m).requests.length
  | .evalFunction m _ | .export m => r.Ready m
  | .evalInternal m _ | .runResolve m => m ∈ r.loadedModules
  | .resolveModule | .runModule => True

end Registry

def Frame.module : Frame → Option Ptr
  | .resolve m _ | .evalInternal m _ | .runResolve m | .evalFunction m _ | .walk _ m _ | .export m
  | .body m => some m
  | .resolveModule | .runModule => none

/-- The modules that the stack is resolving. -/
def resolving (stack : List Frame) (m : Ptr) : Prop := ∃ i, .resolve m i ∈ stack

namespace Registry

/-- What `js_resolve_module` is called for. -/
def Resolves (r : Registry) (m : Ptr) : List Frame → Prop
  | .resolve q j :: _ => r.Points q j m
  | .evalInternal m1 _ :: _ | .runResolve m1 :: _ => m = m1
  | .resolveModule :: _ => True
  | _ => False

/-- What a call knows about the one that has made it. -/
def Caller (r : Registry) : Frame → List Frame → Prop
  | .resolve m _, st => ¬ resolving st m ∧ r.Resolves m st
  | .evalInternal m run, st => (∀ f ∈ st, f.module ≠ some m) ∧ match st with
    | .resolve q j :: _ =>
      run = false ∧ j < (r.mod q).requests.length ∧ ∀ m1, ¬ r.Points q j m1
    | .runModule :: _ => run = false
    | st => hosted st = true
  | .walk phase m _, st =>
    match st with
    | .walk phase1 q j :: _ => phase = phase1 ∧ (phase = .evaluate → r.Points q j m)
    | .evalFunction _ phase1 :: _ => phase = phase1
    | _ => False
  | .body m, st =>
    match st with
    | .walk .evaluate q j :: _ => r.Points q j m
    | .evalFunction _ .evaluate :: _ => True
    | _ => False
  | .export _, st =>
    match st with
    | .export _ :: _ | .walk .link _ _ :: _ => True
    | st => hosted st = true
  | .resolveModule, st | .runModule, st | .runResolve _, st | .evalFunction _ _, st => hosted st = true

def StackOk (r : Registry) : List Frame → Prop
  | [] => True
  | f :: st => r.FrameOk f ∧ r.Caller f st ∧ r.StackOk st

end Registry

/-- The modules that are being evaluated. -/
def Evaluating (stack : List Frame) (m : Ptr) : Prop := .body m ∈ stack ∨ evaluating stack m

/-- What holds also between a request and the call of `js_resolve_module` for its module. -/
structure Steady (s : State) : Prop where
  fault : s.fault = false
  sound : s.toRegistry.Sound
  stackOk : s.toRegistry.StackOk s.stack
  /-- the requests of a module that has been resolved have been, too -/
  filled : ∀ p, s.toRegistry.Ready p → ¬ resolving s.stack p → s.toRegistry.Filled p (s.mod p).requests.length
  marked : ∀ p ∈ s.loadedModules, (s.mod p).evalMark = true → Evaluating s.stack p

structure Inv (s : State) : Prop extends Steady s where
  resolved : ∀ p ∈ s.loadedModules, ∀ i q, s.toRegistry.Points p i q → (s.mod q).resolved = true
  /-- the request that the topmost call is at has not been resolved -/
  top : ∀ m i, s.stack.head? = some (.resolve m i) → ∀ q, ¬ s.toRegistry.Points m i q

theorem inv_initial : Inv .initial where
  fault := rfl
  sound := ⟨nofun, nofun, nofun, nofun⟩
  stackOk := trivial
  filled _ h := nomatch h.1
  marked := nofun
  resolved := nofun
  top := nofun

/-! ## What the steps keep -/

/-- Modules are added and requests are resolved, and what has begun is not forgotten. -/
structure Registry.Extends (r r1 : Registry) : Prop where
  loaded : ∀ p ∈ r.loadedModules, p ∈ r1.loadedModules
  resolved : ∀ p ∈ r.loadedModules, (r.mod p).resolved = true → (r1.mod p).resolved = true
  points : ∀ p ∈ r.loadedModules, ∀ i q, r.Points p i q → r1.Points p i q
  length : ∀ p ∈ r.loadedModules, (r1.mod p).requests.length = (r.mod p).requests.length
  begun : ∀ p ∈ r.loadedModules, r.Begun p → r1.Begun p

variable {r r1 : Registry} {s : State} {m p q : Ptr} {i : ℕ} {f : Frame} {st : List Frame}

namespace Registry

theorem Ready.mono (he : r.Extends r1) (h : r.Ready m) : r1.Ready m :=
  ⟨he.loaded m h.1, he.resolved m h.1 h.2⟩

theorem Filled.mono (he : r.Extends r1) (hm : m ∈ r.loadedModules) (h : r.Filled m i) : r1.Filled m i := by
  intro j hj
  obtain ⟨q, hq⟩ := h j hj
  exact ⟨q, he.points m hm j q hq⟩

theorem Passed.mono (he : r.Extends r1) (hs : r.Sound) (hm : m ∈ r.loadedModules)
    (h : r.Passed m i) : r1.Passed m i := by
  intro j hj
  obtain ⟨q, hq, hb⟩ := h j hj
  exact ⟨q, he.points m hm j q hq, he.begun q (hs.listed m hm j q hq) hb⟩

theorem FrameOk.listed (h : r.FrameOk f) (hm : f.module = some m) : m ∈ r.loadedModules := by
  cases f with
  | resolve | walk | body =>
    cases hm
    exact h.1.1
  | evalFunction | «export» =>
    cases hm
    exact h.1
  | evalInternal | runResolve =>
    cases hm
    exact h
  | resolveModule | runModule => cases hm

theorem FrameOk.mono (he : r.Extends r1) (hs : r.Sound)
    (hsame : ∀ m i, f = .resolve m i → (r1.mod m).requests = (r.mod m).requests)
    (h : r.FrameOk f) : r1.FrameOk f := by
  cases f with
  | resolve m i =>
    obtain ⟨hready, hfilled, hle⟩ := h
    refine ⟨hready.mono he, hfilled.mono he hready.1, fun j q hp => hle j q ?_⟩
    rw [Points, ← hsame m i rfl]
    exact hp
  | walk phase m i =>
    exact ⟨h.1.mono he, fun hphase => (h.2 hphase).mono he hs h.1.1⟩
  | body m =>
    refine ⟨h.1.mono he, ?_⟩
    rw [he.length m h.1.1]
    exact h.2.mono he hs h.1.1
  | evalFunction | «export» => exact Ready.mono he h
  | evalInternal m | runResolve m => exact he.loaded m h
  | resolveModule | runModule => trivial

theorem Caller.mono (he : r.Extends r1) (hst : ∀ f ∈ st, r.FrameOk f)
    (hsame : ∀ m, resolving st m → (r1.mod m).requests = (r.mod m).requests)
    (h : r.Caller f st) : r1.Caller f st := by
  have hpoints {q j m} {g : Frame} (hg : g ∈ st) (hq : g.module = some q) (hp : r.Points q j m) :
      r1.Points q j m := he.points q ((hst g hg).listed hq) j m hp
  cases f with
  | resolve m i =>
    refine ⟨h.1, ?_⟩
    rcases st with _ | ⟨g, st⟩
    · exact h.2
    · cases g with
      | resolve q j => exact hpoints List.mem_cons_self rfl h.2
      | _ => exact h.2
  | walk phase m i =>
    rcases st with _ | ⟨g, st⟩
    · exact h
    · cases g with
      | walk phase1 q j => exact ⟨h.1, fun hphase => hpoints List.mem_cons_self rfl (h.2 hphase)⟩
      | _ => exact h
  | evalInternal m run =>
    refine ⟨h.1, ?_⟩
    rcases st with _ | ⟨g, st⟩
    · exact h.2
    · cases g with
      | resolve q j =>
        have hq := hsame q ⟨j, List.mem_cons_self⟩
        obtain ⟨hrun, hlt, hnone⟩ := h.2
        refine ⟨hrun, ?_, fun m1 hp => hnone m1 ?_⟩
        · rw [hq]
          exact hlt
        · rw [Points, ← hq]
          exact hp
      | _ => exact h.2
  | body m =>
    rcases st with _ | ⟨g, st⟩
    · exact h
    · cases g with
      | walk phase1 q j =>
        cases phase1 with
        | evaluate => exact hpoints List.mem_cons_self rfl h
        | _ => exact h
      | evalFunction _ phase1 => cases phase1 <;> exact h
      | _ => exact h
  | _ => exact h

theorem frameOk_of_stackOk (h : r.StackOk st) : ∀ f ∈ st, r.FrameOk f := by
  induction st with
  | nil => exact nofun
  | cons f st ih => exact List.forall_mem_cons.mpr ⟨h.1, ih h.2.2⟩

theorem StackOk.mono (he : r.Extends r1) (hs : r.Sound)
    (hsame : ∀ m, resolving st m → (r1.mod m).requests = (r.mod m).requests)
    (h : r.StackOk st) : r1.StackOk st := by
  induction st with
  | nil => trivial
  | cons f st ih =>
    have hsame1 (m : Ptr) : resolving st m → (r1.mod m).requests = (r.mod m).requests := by
      rintro ⟨i, hi⟩
      exact hsame m ⟨i, List.mem_cons_of_mem _ hi⟩
    refine ⟨h.1.mono he hs ?_, h.2.1.mono he (frameOk_of_stackOk h.2.2) hsame1, ih hsame1 h.2.2⟩
    rintro m i rfl
    exact hsame m ⟨i, List.mem_cons_self⟩

end Registry

@[simp] theorem resolving_cons : resolving (f :: st) p ↔ (∃ i, f = .resolve p i) ∨ resolving st p := by
  simp [resolving, exists_or, eq_comm]

def Frame.Evaluates (f : Frame) (p : Ptr) : Prop := f = .body p ∨ ∃ i, f = .walk .evaluate p i

@[simp] theorem evaluating_cons : Evaluating (f :: st) p ↔ f.Evaluates p ∨ Evaluating st p := by
  simp only [Evaluating, evaluating, Frame.Evaluates, List.mem_cons, exists_or]
  tauto

/-- The call is one of the loader. -/
def Frame.loads : Frame → Bool
  | .resolve _ _ | .evalInternal _ _ => true
  | _ => false

theorem Registry.Caller.loads {g : Frame} (h : r.Caller f (g :: st)) (hf : f.loads = false) :
    g.loads = false := by
  cases f <;> cases g <;> simp_all [Registry.Caller, hosted, Frame.loads]

/-- The calls of the loader are the topmost ones. -/
theorem not_resolving_of_head (h : r.StackOk st) (hhead : ∀ f ∈ st.head?, f.loads = false) :
    ¬ resolving st p := by
  induction st with
  | nil => exact fun ⟨_, hmem⟩ => nomatch hmem
  | cons f st ih =>
    have hf : f.loads = false := hhead f rfl
    rw [resolving_cons, not_or]
    constructor
    · rintro ⟨i, rfl⟩
      cases hf
    · refine ih h.2.2 fun g hg => ?_
      cases st with
      | nil => cases hg
      | cons g1 st =>
        cases hg
        exact h.2.1.loads hf

theorem not_resolving_of_hosted (h : r.StackOk st) (hst : hosted st = true) : ¬ resolving st p := by
  refine not_resolving_of_head h fun f hf => ?_
  cases st with
  | nil => cases hf
  | cons f st =>
    cases hf
    cases f <;> first | rfl | cases hst

theorem Steady.setStack (hs : Steady s) (hst : s.toRegistry.StackOk st)
    (hfilled : ∀ p, s.toRegistry.Ready p → resolving s.stack p →
      resolving st p ∨ s.toRegistry.Filled p (s.mod p).requests.length)
    (hmarked : ∀ p ∈ s.loadedModules, (s.mod p).evalMark = true → Evaluating s.stack p →
      Evaluating st p) : Steady { s with stack := st } where
  fault := hs.fault
  sound := hs.sound
  stackOk := hst
  filled p hready hres := by
    by_cases h : resolving s.stack p
    · exact (hfilled p hready h).resolve_left hres
    · exact hs.filled p hready h
  marked p hp hmark := hmarked p hp hmark (hs.marked p hp hmark)

/-- A call takes the place of another one, or of none. -/
theorem Steady.keepStack (hs : Steady s) (hst : s.toRegistry.StackOk st)
    (hres : ∀ p, resolving s.stack p → resolving st p)
    (heval : ∀ p, Evaluating s.stack p → Evaluating st p) : Steady { s with stack := st } :=
  hs.setStack hst (fun p _ h => .inl (hres p h)) fun p _ _ h => heval p h

/-- What the topmost call has got when one that it has made comes back. -/
def Registry.Returns (r : Registry) : List Frame → Prop
  | .resolve m i :: _ => ∃ q, r.Points m i q
  | .runResolve m :: _ => (r.mod m).resolved = true
  | .walk .evaluate m i :: _ => ∃ q, r.Points m i q ∧ r.Begun q
  | _ => True

theorem Registry.Filled.succ (h : r.Filled m i) (hi : ∃ q, r.Points m i q) : r.Filled m (i + 1) := by
  intro j hj
  rcases Nat.lt_succ_iff_lt_or_eq.mp hj with hlt | rfl
  · exact h j hlt
  · exact hi

theorem Registry.Passed.succ (h : r.Passed m i) (hi : ∃ q, r.Points m i q ∧ r.Begun q) :
    r.Passed m (i + 1) := by
  intro j hj
  rcases Nat.lt_succ_iff_lt_or_eq.mp hj with hlt | rfl
  · exact h j hlt
  · exact hi

theorem Registry.stackOk_evalFunction {phase : Phase} (hm : r.Ready m) (hst : hosted st = true)
    (h : r.StackOk st) : r.StackOk (.evalFunction m phase :: st) := ⟨hm, hst, h⟩

theorem not_resolve_head_of_hosted (hst : hosted st = true) : st.head? ≠ some (.resolve m i) := by
  intro hhead
  cases st with
  | nil => cases hhead
  | cons f st =>
    cases hhead
    cases hst

theorem inv_returned (hs : Steady s) (hret : s.toRegistry.Returns s.stack)
    (hres : ∀ p ∈ s.loadedModules, ∀ i q, s.toRegistry.Points p i q → (s.mod q).resolved = true) :
    Inv s.returned := by
  obtain ⟨r, stack, fault⟩ := s
  have hok : r.StackOk stack := hs.stackOk
  cases stack with
  | nil => exact { hs with resolved := hres, top := nofun }
  | cons f st =>
    obtain ⟨hframe, hcall, hst⟩ := hok
    cases f with
    | resolve m i =>
      obtain ⟨hready, hfilled, hle⟩ := hframe
      have hst1 : r.StackOk (.resolve m (i + 1) :: st) :=
        ⟨⟨hready, hfilled.succ hret, fun j q hp => Nat.le_succ_of_le (hle j q hp)⟩, hcall, hst⟩
      refine { hs.keepStack hst1 (by simp) (by simp [Frame.Evaluates]) with
        resolved := hres, top := ?_ }
      · intro m1 i1 hhead q hp
        cases hhead
        exact absurd (hle _ q hp) (Nat.not_succ_le_self i)
    | resolveModule =>
      exact { hs.keepStack hst (by simp) (by simp [Frame.Evaluates]) with
        resolved := hres
        top := fun m i hhead => absurd hhead (not_resolve_head_of_hosted hcall) }
    | runResolve m =>
      exact { hs.keepStack (Registry.stackOk_evalFunction ⟨hframe, hret⟩ hcall hst) (by simp)
        (by simp [Frame.Evaluates]) with resolved := hres, top := nofun }
    | evalFunction m phase =>
      cases phase with
      | create | link =>
        exact { hs.keepStack (Registry.stackOk_evalFunction hframe hcall hst) (by simp)
          (by simp [Frame.Evaluates]) with resolved := hres, top := nofun }
      | evaluate =>
        exact { hs.keepStack hst (by simp) (by simp [Frame.Evaluates]) with
          resolved := hres
          top := fun m i hhead => absurd hhead (not_resolve_head_of_hosted hcall) }
    | walk phase m i =>
      have hst1 : r.StackOk (.walk phase m (i + 1) :: st) := by
        refine ⟨⟨hframe.1, fun hphase => ?_⟩, hcall, hst⟩
        subst hphase
        exact (hframe.2 rfl).succ hret
      exact { hs.keepStack hst1 (by simp) (by simp [Frame.Evaluates]) with
        resolved := hres, top := nofun }
    | evalInternal | runModule | body | «export» =>
      exact { hs with resolved := hres, top := nofun }

namespace Registry

variable {g : ModuleDef → ModuleDef}

theorem modify_mod : (r.modify m g).mod p = if p = m then g (r.mod m) else r.mod p :=
  Function.update_apply ..

/-- A change of a module keeps what it does not touch. -/
theorem modify_field {α : Type} (φ : ModuleDef → α) (h : φ (g (r.mod m)) = φ (r.mod m)) :
    φ ((r.modify m g).mod p) = φ (r.mod p) := by
  rw [modify_mod]
  split
  · rename_i heq
    rw [h, heq]
  · rfl

/-- A change of a module that leaves its requests as they are. -/
structure Marks (g : ModuleDef → ModuleDef) (d : ModuleDef) : Prop where
  requests : (g d).requests = d.requests
  resolved : d.resolved = true → (g d).resolved = true
  begun : d.evalMark = true ∨ d.evaluated = true → (g d).evalMark = true ∨ (g d).evaluated = true

theorem Marks.mod_requests (hg : Marks g (r.mod m)) : ((r.modify m g).mod p).requests = (r.mod p).requests :=
  modify_field (·.requests) hg.requests

theorem Marks.points (hg : Marks g (r.mod m)) : (r.modify m g).Points p i q ↔ r.Points p i q := by
  rw [Points, Points, hg.mod_requests]

theorem Marks.extends (hg : Marks g (r.mod m)) : r.Extends (r.modify m g) where
  loaded _ h := h
  resolved p _ h := by
    rw [modify_mod]
    split
    · rename_i heq
      exact hg.resolved (heq ▸ h)
    · exact h
  points p _ i q h := hg.points.mpr h
  length p _ := by rw [hg.mod_requests]
  begun p _ h := by
    rw [Begun, modify_mod]
    split
    · rename_i heq
      exact hg.begun (heq ▸ h)
    · exact h

theorem Sound.modify (hr : r.Sound) (hg : Marks g (r.mod m))
    (heval : (g (r.mod m)).evaluated = true → (r.mod m).evaluated = true ∨
      r.Passed m (r.mod m).requests.length) : (r.modify m g).Sound where
  lt_next := hr.lt_next
  listed p hp i q hq := hr.listed p hp i q (hg.points.mp hq)
  unresolved p hp hres i q hq := by
    refine hr.unresolved p hp ?_ i q (hg.points.mp hq)
    cases hp1 : (r.mod p).resolved with
    | false => rfl
    | true => cases hres.symm.trans (hg.extends.resolved p hp hp1)
  passed p hp hev := by
    rw [hg.mod_requests]
    refine Passed.mono hg.extends hr hp ?_
    rw [modify_mod] at hev
    split at hev
    · rename_i heq
      subst heq
      rcases heval hev with h | h
      · exact hr.passed p hp h
      · exact h
    · exact hr.passed p hp hev

end Registry

/-- A module is marked, and the call goes into it. -/
theorem Steady.modifyPush {g : ModuleDef → ModuleDef} (hs : Steady s) (hg : Registry.Marks g (s.mod m))
    (heval : (g (s.mod m)).evaluated = true → (s.mod m).evaluated = true)
    (hok : (s.toRegistry.modify m g).FrameOk f) (hcall : s.toRegistry.Caller f s.stack)
    (hres : (g (s.mod m)).resolved = true → (s.mod m).resolved = true ∨ ∃ i, f = .resolve m i)
    (hmark : (g (s.mod m)).evalMark = true → (s.mod m).evalMark = true ∨ f.Evaluates m) :
    Steady ((s.modify m g).push f) where
  fault := hs.fault
  sound := hs.sound.modify hg fun h => .inl (heval h)
  stackOk := by
    refine ⟨hok, hcall.mono hg.extends (Registry.frameOk_of_stackOk hs.stackOk) ?_,
      hs.stackOk.mono hg.extends hs.sound ?_⟩ <;> exact fun p _ => hg.mod_requests
  filled p hready hnot := by
    change ¬ resolving (f :: s.stack) p at hnot
    change (s.toRegistry.modify m g).Filled p ((s.toRegistry.modify m g).mod p).requests.length
    rw [resolving_cons, not_or] at hnot
    rw [hg.mod_requests]
    refine Registry.Filled.mono hg.extends hready.1 (hs.filled p ⟨hready.1, ?_⟩ hnot.2)
    have hp : ((s.toRegistry.modify m g).mod p).resolved = true := hready.2
    rw [Registry.modify_mod] at hp
    split at hp
    · rename_i heq
      subst heq
      exact (hres hp).resolve_right hnot.1
    · exact hp
  marked p hp hmk := by
    change Evaluating (f :: s.stack) p
    rw [evaluating_cons]
    have hp1 : ((s.toRegistry.modify m g).mod p).evalMark = true := hmk
    rw [Registry.modify_mod] at hp1
    split at hp1
    · rename_i heq
      subst heq
      exact (hmark hp1).symm.imp_right (hs.marked p hp)
    · exact .inr (hs.marked p hp hp1)

theorem inv_resolveModule (hs : Steady s) (hm : m ∈ s.loadedModules)
    (hres : ∀ p ∈ s.loadedModules, ∀ i q, s.toRegistry.Points p i q → q = m ∨ (s.mod q).resolved = true)
    (hret : (s.mod m).resolved = true → s.toRegistry.Returns s.stack)
    (hcall : s.toRegistry.Resolves m s.stack) : Inv (s.resolveModule m) := by
  rw [State.resolveModule]
  split
  · rename_i hm1
    refine inv_returned hs (hret hm1) fun p hp i q hq => ?_
    rcases hres p hp i q hq with rfl | h
    · exact hm1
    · exact h
  · rename_i hm1
    rw [Bool.not_eq_true] at hm1
    have hg : Registry.Marks (fun d => { d with resolved := true }) (s.mod m) := ⟨rfl, fun _ => rfl, id⟩
    have hready : (s.toRegistry.modify m fun d => { d with resolved := true }).Ready m :=
      ⟨hm, by rw [Registry.modify_mod, if_pos rfl]⟩
    have hnone (i : ℕ) (q : Ptr) :
        ¬ (s.toRegistry.modify m fun d => { d with resolved := true }).Points m i q :=
      fun hq => hs.sound.unresolved m hm hm1 i q (hg.points.mp hq)
    have hnot : ¬ resolving s.stack m := by
      rintro ⟨i, hi⟩
      cases hm1.symm.trans (Registry.frameOk_of_stackOk hs.stackOk _ hi).1.2
    refine { hs.modifyPush (f := .resolve m 0) hg id ?_ ⟨hnot, hcall⟩ (fun _ => .inr ⟨0, rfl⟩)
      Or.inl with resolved := ?_, top := ?_ }
    · exact ⟨hready, nofun, fun j q hq => absurd hq (hnone j q)⟩
    · intro p hp i q hq
      change ((s.toRegistry.modify m fun d => { d with resolved := true }).mod q).resolved = true
      rw [Registry.modify_mod]
      split
      · rfl
      · exact (hres p hp i q (hg.points.mp hq)).resolve_left ‹_›
    · intro m1 i hhead q
      cases hhead
      exact hnone 0 q

namespace Registry

/-- Set the module of a request. -/
def setRequest (r : Registry) (m : Ptr) (i : ℕ) (m1 : Ptr) : Registry :=
  r.modify m fun d => { d with requests := d.requests.modify i ({ · with module := some m1 }) }

variable {m1 : Ptr}

theorem setRequest_requests (h : p ≠ m) : ((r.setRequest m i m1).mod p).requests = (r.mod p).requests := by
  rw [setRequest, modify_mod, if_neg h]

theorem setRequest_length : ((r.setRequest m i m1).mod p).requests.length = (r.mod p).requests.length :=
  modify_field (·.requests.length) (List.length_modify ..)

theorem setRequest_resolved : ((r.setRequest m i m1).mod p).resolved = (r.mod p).resolved :=
  modify_field (·.resolved) rfl

theorem setRequest_evaluated : ((r.setRequest m i m1).mod p).evaluated = (r.mod p).evaluated :=
  modify_field (·.evaluated) rfl

theorem setRequest_evalMark : ((r.setRequest m i m1).mod p).evalMark = (r.mod p).evalMark :=
  modify_field (·.evalMark) rfl

theorem points_setRequest {j : ℕ} : (r.setRequest m i m1).Points p j q ↔
    if p = m ∧ j = i then i < (r.mod m).requests.length ∧ q = m1 else r.Points p j q := by
  rw [Points, Points]
  by_cases hp : p = m
  · subst hp
    simp only [setRequest, modify_mod, if_true, List.getElem?_modify]
    by_cases hj : j = i
    · subst hj
      simp only [Option.map_eq_map, Option.map_eq_some_iff]
      constructor
      · rintro ⟨e, ⟨e1, he1, rfl⟩, hq⟩
        exact ⟨(List.getElem?_eq_some_iff.mp he1).1, (Option.some.inj hq).symm⟩
      · rintro ⟨hlt, rfl⟩
        exact ⟨_, ⟨_, List.getElem?_eq_getElem hlt, rfl⟩, rfl⟩
    · simp [Ne.symm hj, hj]
  · rw [setRequest_requests hp, if_neg fun h => hp h.1]

/-- A request is resolved that had not been. -/
theorem setRequest_extends (hnone : ∀ q, ¬ r.Points m i q) : r.Extends (r.setRequest m i m1) where
  loaded _ h := h
  resolved p _ h := setRequest_resolved.trans h
  points p _ j q h := by
    rw [points_setRequest, if_neg]
    · exact h
    · rintro ⟨rfl, rfl⟩
      exact hnone q h
  length p _ := setRequest_length
  begun p _ h := by
    rw [Begun, setRequest_evalMark, setRequest_evaluated]
    exact h

theorem Sound.setRequest (hr : r.Sound) (hm : (r.mod m).resolved = true)
    (hm1 : m1 ∈ r.loadedModules) (hnone : ∀ q, ¬ r.Points m i q) :
    (r.setRequest m i m1).Sound where
  lt_next := hr.lt_next
  listed p hp j q hq := by
    rw [points_setRequest] at hq
    split at hq
    · rw [hq.2]
      exact hm1
    · exact hr.listed p hp j q hq
  unresolved p hp hres j q hq := by
    rw [setRequest_resolved] at hres
    rw [points_setRequest, if_neg] at hq
    · exact hr.unresolved p hp hres j q hq
    · rintro ⟨rfl, -⟩
      cases hm.symm.trans hres
  passed p hp hev := by
    rw [setRequest_evaluated] at hev
    rw [setRequest_length]
    exact (hr.passed p hp hev).mono (setRequest_extends hnone) hr hp

end Registry

theorem steady_setRequest {m1 : Ptr} (hI : Inv s) (hstack : s.stack = .resolve m i :: st)
    (hm1 : m1 ∈ s.loadedModules) :
    Steady { s with toRegistry := s.toRegistry.setRequest m i m1 } := by
  have hnone := hI.top m i (by rw [hstack]; rfl)
  have hext : s.toRegistry.Extends (s.toRegistry.setRequest m i m1) :=
    Registry.setRequest_extends hnone
  have hok := hI.stackOk
  rw [hstack] at hok
  obtain ⟨⟨hready, hfilled, hle⟩, hcall, hst⟩ := hok
  refine ⟨hI.fault, hI.sound.setRequest hready.2 hm1 hnone, ?_, fun p hp hnot => ?_, fun p hp hmk => ?_⟩
  · rw [hstack]
    have hsame (p : Ptr) (hp : resolving st p) :
        ((s.toRegistry.setRequest m i m1).mod p).requests = (s.mod p).requests := by
      refine Registry.setRequest_requests ?_
      rintro rfl
      exact hcall.1 hp
    refine ⟨⟨hready.mono hext, hfilled.mono hext hready.1, fun j q hq => ?_⟩,
      hcall.mono hext (Registry.frameOk_of_stackOk hst) hsame, hst.mono hext hI.sound hsame⟩
    rw [Registry.points_setRequest] at hq
    split at hq
    · rename_i heq
      exact Nat.le_of_eq heq.2
    · exact hle j q hq
  · rw [Registry.setRequest_length]
    exact (hI.filled p ⟨hp.1, Registry.setRequest_resolved.symm.trans hp.2⟩ hnot).mono hext hp.1
  · exact hI.marked p hp (Registry.setRequest_evalMark.symm.trans hmk)

section newModuleDef

variable {name : Name} {requests : List Name}

namespace Registry

theorem newModuleDef_mod_of_lt (h : p < r.next) : (r.newModuleDef name requests).mod p = r.mod p :=
  Function.update_of_ne (Nat.ne_of_lt h) ..

theorem newModuleDef_mod_next : (r.newModuleDef name requests).mod r.next =
    { moduleName := name, requests := requests.map (⟨·, none⟩) } :=
  Function.update_self ..

theorem mem_newModuleDef : p ∈ (r.newModuleDef name requests).loadedModules ↔
    p ∈ r.loadedModules ∨ p = r.next := by
  simp [newModuleDef]

theorem not_points_next : ¬ (r.newModuleDef name requests).Points r.next i q := by
  rintro ⟨e, he, hq⟩
  rw [newModuleDef_mod_next, List.getElem?_map, Option.map_eq_some_iff] at he
  obtain ⟨_, _, rfl⟩ := he
  cases hq

theorem points_newModuleDef (h : p < r.next) :
    (r.newModuleDef name requests).Points p i q ↔ r.Points p i q := by
  rw [Points, Points, newModuleDef_mod_of_lt h]

theorem Sound.newModuleDef_extends (hr : r.Sound) : r.Extends (r.newModuleDef name requests) where
  loaded p hp := mem_newModuleDef.mpr (.inl hp)
  resolved p hp h := by
    rw [newModuleDef_mod_of_lt (hr.lt_next p hp)]
    exact h
  points p hp i q h := (points_newModuleDef (hr.lt_next p hp)).mpr h
  length p hp := by rw [newModuleDef_mod_of_lt (hr.lt_next p hp)]
  begun p hp h := by
    rw [Begun, newModuleDef_mod_of_lt (hr.lt_next p hp)]
    exact h

theorem Sound.newModuleDef (hr : r.Sound) : (r.newModuleDef name requests).Sound where
  lt_next p hp := by
    rcases mem_newModuleDef.mp hp with hp | rfl
    · exact Nat.lt_succ_of_lt (hr.lt_next p hp)
    · exact Nat.lt_succ_self _
  listed p hp i q hq := by
    rcases mem_newModuleDef.mp hp with hp | rfl
    · rw [points_newModuleDef (hr.lt_next p hp)] at hq
      exact mem_newModuleDef.mpr (.inl (hr.listed p hp i q hq))
    · exact absurd hq not_points_next
  unresolved p hp hres i q hq := by
    rcases mem_newModuleDef.mp hp with hp | rfl
    · rw [newModuleDef_mod_of_lt (hr.lt_next p hp)] at hres
      rw [points_newModuleDef (hr.lt_next p hp)] at hq
      exact hr.unresolved p hp hres i q hq
    · exact not_points_next hq
  passed p hp hev := by
    rcases mem_newModuleDef.mp hp with hp | rfl
    · rw [newModuleDef_mod_of_lt (hr.lt_next p hp)] at hev ⊢
      exact (hr.passed p hp hev).mono hr.newModuleDef_extends hr hp
    · rw [newModuleDef_mod_next] at hev
      cases hev

end Registry

theorem toRegistry_newModuleDef :
    (s.newModuleDef name requests).toRegistry = s.toRegistry.newModuleDef name requests := rfl

theorem lt_next_of_resolving (hs : Steady s) (h : resolving s.stack m) : m < s.next := by
  obtain ⟨i, hi⟩ := h
  exact hs.sound.lt_next m ((Registry.frameOk_of_stackOk hs.stackOk _ hi).listed rfl)

theorem inv_newModuleDef (hI : Inv s) : Inv (s.newModuleDef name requests) where
  fault := hI.fault
  sound := hI.sound.newModuleDef
  stackOk := hI.stackOk.mono hI.sound.newModuleDef_extends hI.sound fun p hp => by
    rw [toRegistry_newModuleDef, Registry.newModuleDef_mod_of_lt (lt_next_of_resolving hI.toSteady hp)]
  filled p hp hnot := by
    obtain ⟨hlist, hres⟩ := hp
    rw [toRegistry_newModuleDef] at hlist hres ⊢
    rcases Registry.mem_newModuleDef.mp hlist with hlist | rfl
    · rw [Registry.newModuleDef_mod_of_lt (hI.sound.lt_next p hlist)] at hres ⊢
      exact (hI.filled p ⟨hlist, hres⟩ hnot).mono hI.sound.newModuleDef_extends hlist
    · rw [Registry.newModuleDef_mod_next] at hres
      cases hres
  marked p hp hmk := by
    rw [toRegistry_newModuleDef] at hp hmk
    rcases Registry.mem_newModuleDef.mp hp with hp | rfl
    · rw [Registry.newModuleDef_mod_of_lt (hI.sound.lt_next p hp)] at hmk
      exact hI.marked p hp hmk
    · rw [Registry.newModuleDef_mod_next] at hmk
      cases hmk
  resolved p hp i q hq := by
    rw [toRegistry_newModuleDef] at hp hq ⊢
    rcases Registry.mem_newModuleDef.mp hp with hp | rfl
    · have hq1 := (Registry.points_newModuleDef (hI.sound.lt_next p hp)).mp hq
      rw [Registry.newModuleDef_mod_of_lt (hI.sound.lt_next q (hI.sound.listed p hp i q hq1))]
      exact hI.resolved p hp i q hq1
    · exact absurd hq Registry.not_points_next
  top m i hhead q hq := by
    have hmem : .resolve m i ∈ s.stack := List.mem_of_mem_head? hhead
    exact hI.top m i hhead q ((Registry.points_newModuleDef
      (lt_next_of_resolving hI.toSteady ⟨i, hmem⟩)).mp hq)

end newModuleDef

/-- A call is made that evaluates nothing. -/
theorem Steady.push (hs : Steady s) (hf : s.toRegistry.FrameOk f)
    (hcall : s.toRegistry.Caller f s.stack) : Steady (s.push f) :=
  hs.keepStack ⟨hf, hcall, hs.stackOk⟩ (fun _ h => resolving_cons.mpr (.inr h))
    fun _ h => evaluating_cons.mpr (.inr h)

/-- The host, or a request that has not been resolved, loads a module. -/
def Registry.Loads (r : Registry) : List Frame → Prop
  | .resolve m i :: _ => i < (r.mod m).requests.length
  | .runModule :: _ => True
  | _ => False

theorem inv_hostLoaded {m1 : Ptr} (hI : Inv s) (hload : s.toRegistry.Loads s.stack)
    (hm1 : m1 ∈ s.loadedModules) : Inv (s.hostLoaded m1) := by
  rw [State.hostLoaded]
  split
  · rename_i m i st hstack
    rw [hstack] at hload
    have hs := steady_setRequest hI hstack hm1
    have hpoints : (s.toRegistry.setRequest m i m1).Points m i m1 := by
      rw [Registry.points_setRequest, if_pos ⟨rfl, rfl⟩]
      exact ⟨hload, rfl⟩
    refine inv_resolveModule hs hm1 ?_ ?_ ?_
    · intro p hp j q hq
      have hq1 := Registry.points_setRequest.mp hq
      split at hq1
      · exact .inl hq1.2
      · exact .inr (Registry.setRequest_resolved.trans (hI.resolved p hp j q hq1))
    · intro _
      change Registry.Returns (s.toRegistry.setRequest m i m1) s.stack
      rw [hstack]
      exact ⟨m1, hpoints⟩
    · change Registry.Resolves (s.toRegistry.setRequest m i m1) m1 s.stack
      rw [hstack]
      exact hpoints
  · rename_i st hstack
    have hok := hI.stackOk
    rw [hstack] at hok
    refine inv_resolveModule (s := { s with stack := .runResolve m1 :: st }) ?_ hm1
      (fun p hp i q hq => .inr (hI.resolved p hp i q hq)) id rfl
    refine hI.keepStack ⟨hm1, hok.2.1, hok.2.2⟩ ?_ ?_ <;> rw [hstack] <;> simp [Frame.Evaluates]
  · exact hI

theorem inv_evalInternal {name : Name} {requests : List Name} {run : Bool} (hI : Inv s)
    (hcall : match s.stack with
      | .resolve m i :: _ => run = false ∧ i < (s.mod m).requests.length
      | .runModule :: _ => run = false
      | st => hosted st = true) : Inv (s.evalInternal name requests run) := by
  have hI1 : Inv (s.newModuleDef name requests) := inv_newModuleDef hI
  have hnext : s.next ∈ (s.newModuleDef name requests).loadedModules :=
    Registry.mem_newModuleDef.mpr (.inr rfl)
  have hcaller : (s.newModuleDef name requests).Caller (.evalInternal s.next run) s.stack := by
    constructor
    · intro f hf hmod
      exact absurd (hI.sound.lt_next _ ((Registry.frameOk_of_stackOk hI.stackOk f hf).listed hmod))
        (Nat.lt_irrefl _)
    · cases hstack : s.stack with
      | nil => rfl
      | cons f st =>
        rw [hstack] at hcall
        cases f with
        | resolve m i =>
          have hlt : m < s.next := lt_next_of_resolving hI.toSteady
            ⟨i, by rw [hstack]; exact List.mem_cons_self⟩
          refine ⟨hcall.1, ?_, hI1.top m i (by rw [State.newModuleDef, hstack]; rfl)⟩
          change _ < ((s.toRegistry.newModuleDef name requests).mod m).requests.length
          rw [Registry.newModuleDef_mod_of_lt hlt]
          exact hcall.2
        | _ => exact hcall
  refine inv_resolveModule (hI1.push (f := .evalInternal s.next run) hnext hcaller) hnext ?_ ?_ rfl
  · exact fun p hp i q hq => .inr (hI1.resolved p hp i q hq)
  · intro hres
    change ((s.toRegistry.newModuleDef name requests).mod s.next).resolved = true at hres
    rw [Registry.newModuleDef_mod_next] at hres
    cases hres

/-- The loop of `js_resolve_module` is over. -/
theorem inv_resolved (hI : Inv s) (hstack : s.stack = .resolve m i :: st)
    (hi : (s.mod m).requests.length ≤ i) : Inv (s.resolved st) := by
  have hok := hI.stackOk
  rw [hstack] at hok
  obtain ⟨⟨hready, hfilled, -⟩, ⟨-, hcall⟩, hst⟩ := hok
  have hpop {st1 : List Frame} (hst1 : s.toRegistry.StackOk st1)
      (hres : ∀ p, resolving st p → resolving st1 p)
      (heval : ∀ p, Evaluating st p → Evaluating st1 p) : Steady { s with stack := st1 } := by
    refine hI.setStack hst1 (fun p _ hp => ?_) fun p _ _ hp => ?_
    · rw [hstack, resolving_cons] at hp
      rcases hp with ⟨j, heq⟩ | hp
      · cases heq
        exact .inr fun k hk => hfilled k (Nat.lt_of_lt_of_le hk hi)
      · exact .inl (hres p hp)
    · rw [hstack, evaluating_cons] at hp
      exact heval p (hp.resolve_left (by simp [Frame.Evaluates]))
  cases st with
  | nil => cases hcall
  | cons f st =>
    cases f with
    | evalInternal m1 run =>
      cases hcall
      obtain ⟨-, ⟨-, hcall⟩, hst⟩ := hst
      cases run with
      | true =>
        have hhost : hosted st = true := by
          cases st with
          | nil => rfl
          | cons f st =>
            cases f with
            | resolve => cases hcall.1
            | runModule => cases hcall
            | _ => exact hcall
        exact { hpop (Registry.stackOk_evalFunction hready hhost hst) (by simp)
          (by simp [Frame.Evaluates]) with resolved := hI.resolved, top := nofun }
      | false =>
        have hs : Steady { s with stack := st } := hpop hst (by simp) (by simp [Frame.Evaluates])
        have hI1 : Inv { s with stack := st } := by
          refine { hs with resolved := hI.resolved, top := fun q j hhead => ?_ }
          cases st with
          | nil => cases hhead
          | cons f st =>
            cases hhead
            exact hcall.2.2
        cases st with
        | nil => exact hI1
        | cons f st =>
          cases f with
          | resolve q j => exact inv_hostLoaded hI1 hcall.2.1 hready.1
          | runModule => exact inv_hostLoaded hI1 trivial hready.1
          | _ => exact hI1
    | resolve q j =>
      exact inv_returned (hpop hst (fun _ => id) fun _ => id) ⟨m, hcall⟩ hI.resolved
    | resolveModule =>
      exact inv_returned (hpop hst (fun _ => id) fun _ => id) trivial hI.resolved
    | runResolve m1 =>
      cases hcall
      exact inv_returned (hpop hst (fun _ => id) fun _ => id) hready.2 hI.resolved
    | _ => cases hcall

end QuickJs.ModuleRegistry
