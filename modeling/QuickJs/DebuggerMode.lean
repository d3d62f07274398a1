import QuickJs.Run
import Mathlib

/-!
# Switching the debugger on and off

`SetDebuggerMode(1)` enters the `Context` in a global map, makes a server and starts a thread
that runs it; `SetDebuggerMode(0)` takes all this back. A move takes only the `JSContext`
along, and the destructor knows nothing of the map or the thread.
-/

namespace QuickJs.DebuggerMode

open Run

/-- The address of a `JSContext`. -/
abbrev JSContext : Type := ℕ

/-- The address of a `Context`. -/
abbrev Addr : Type := ℕ

/-- The servers are numbered; the thread that runs a server has the same number. -/
abbrev ServerId : Type := ℕ

/-- A `Context`: its `JSContext`, its server and the thread that was started for it. -/
structure Context where
  ctx : Option JSContext
  handle : Option ServerId
  serverThread : Option ServerId
  deriving DecidableEq

/-- A server that has been made, and whether its thread runs. -/
structure Server where
  owner : Addr
  running : Bool
  deriving DecidableEq

structure State where
  /-- the contexts that are alive -/
  contexts : Addr → Option Context
  /-- the addresses in use for a `JSContext` -/
  jsContexts : JSContext → Bool
  /-- `g_DebugUserdata` -/
  userdata : JSContext → Option Addr
  servers : List Server
  /-- the servers that were deleted while their thread was running -/
  faults : List ServerId
  /-- a thread that could still be joined was destroyed -/
  terminated : Bool

def State.initial : State := ⟨fun _ => none, fun _ => false, fun _ => none, [], [], false⟩

def State.setContext (s : State) (x : Addr) (c : Option Context) : State :=
  { s with contexts := Function.update s.contexts x c }

/-- `DebuggerServerHandle::Destroy`. -/
def State.destroyServer (s : State) : Option ServerId → State
  | none => s
  | some i =>
    if (s.servers[i]?).any Server.running then { s with faults := s.faults ++ [i] } else s

/-- The destructor of the `std::thread`. -/
def State.destroyThread (s : State) : Option ServerId → State
  | none => s
  | some _ => { s with terminated := true }

/-- The thread of a server comes to its end. -/
def State.endThread (s : State) (i : ServerId) : State :=
  { s with servers := s.servers.modify i fun server => { server with running := false } }

/-- `JS_FreeContext`. -/
def State.freeContext (s : State) : Option JSContext → State
  | none => s
  | some j => { s with jsContexts := Function.update s.jsContexts j false }

/-- `SetDebuggerMode` with a mode that is not 0, for the context `c` at the address `x`. -/
def enableDebugger (s : State) (x : Addr) (c : Context) (j : JSContext) : State :=
  let s := { s with userdata := Function.update s.userdata j (some x) }
  let s := s.destroyServer c.handle
  let server := s.servers.length
  let s := { s with servers := s.servers ++ [Server.mk x true] }
  -- the new thread replaces the old one
  let s := s.destroyThread c.serverThread
  s.setContext x (some { c with handle := some server, serverThread := some server })

/-- `SetDebuggerMode(0)`: `join` comes back when the thread has ended. -/
def disableDebugger (s : State) (x : Addr) (c : Context) (j : JSContext) : State :=
  let s := { s with userdata := Function.update s.userdata j none }
  match c.handle with
  | none => s
  | some server =>
    let s := s.endThread server
    let s := s.destroyServer (some server)
    s.setContext x (some { c with handle := none, serverThread := none })

/-- `Context::~Context`; the members are destroyed in the reverse order, and nothing follows when
the program is terminated. -/
def destroyContext (s : State) (x : Addr) (c : Context) : State :=
  let s := s.freeContext c.ctx
  let s := s.destroyThread c.serverThread
  let s := if s.terminated then s else s.destroyServer c.handle
  s.setContext x none

/-! ## Runs -/

inductive Op
  /-- a new `Context` at the address `x`, with a `JSContext` at `j` -/
  | create (x : Addr) (j : JSContext)
  | setDebuggerMode (x : Addr) (mode : Bool)
  /-- the move constructor makes `y` from `x` -/
  | moveConstruct (x y : Addr)
  /-- `y = std::move(x)` -/
  | moveAssign (x y : Addr)
  | destroy (x : Addr)
  /-- the thread of a server ends by itself -/
  | threadEnds (i : ServerId)

/-- One call; a context that has been moved from has no debugger mode to set. -/
def State.step (s : State) (op : Op) : Option State :=
  if s.terminated then none
  else match op with
  | .create x j =>
    if s.contexts x = none ∧ !s.jsContexts j then
      some { s.setContext x (some ⟨some j, none, none⟩) with
        jsContexts := Function.update s.jsContexts j true }
    else none
  | .setDebuggerMode x mode =>
    match s.contexts x with
    | none => none
    | some c => c.ctx.map fun j => if mode then enableDebugger s x c j else disableDebugger s x c j
  | .moveConstruct x y =>
    match s.contexts x, s.contexts y with
    | some c, none =>
      some ((s.setContext y (some ⟨c.ctx, none, none⟩)).setContext x (some { c with ctx := none }))
    | _, _ => none
  | .moveAssign x y =>
    match s.contexts x, s.contexts y with
    | some c, some d =>
      if x = y then some s
      else some (((s.freeContext d.ctx).setContext y (some { d with ctx := c.ctx })).setContext x
        (some { c with ctx := none }))
    | _, _ => none
  | .destroy x => (s.contexts x).map (destroyContext s x)
  | .threadEnds i => some (s.endThread i)

/-- The life of the servers is in order: none has been deleted while its thread was running, no
context has two threads running, and the entries of the map are contexts that are alive. -/
structure Orderly (s : State) : Prop where
  deleted : s.faults = []
  one : ∀ (i k : ServerId) (a b : Server), s.servers[i]? = some a → s.servers[k]? = some b →
    a.running → b.running → a.owner = b.owner → i = k
  alive : ∀ j x, s.userdata j = some x → (s.contexts x).isSome

/-- The debugger is only switched on where there is no server, and a context with a server or an
entry in the map is not destroyed. -/
def Op.Proper (s : State) : Op → Prop
  | .setDebuggerMode x true => ∀ c, s.contexts x = some c → c.handle = none
  | .destroy x => (∀ c, s.contexts x = some c → c.handle = none) ∧ ∀ j, s.userdata j ≠ some x
  | _ => True

/-! ## The invariant -/

variable {s s' : State} {op : Op} {x y : Addr} {c : Context} {i j : ℕ}

/-- A thread that runs belongs to the server that its context has. -/
structure Sound (s : State) : Prop where
  deleted : s.faults = []
  owned : ∀ (i : ServerId) (server : Server), s.servers[i]? = some server → server.running →
    ∃ c, s.contexts server.owner = some c ∧ c.handle = some i
  thread : ∀ x c, s.contexts x = some c → c.serverThread = c.handle
  alive : ∀ j x, s.userdata j = some x → (s.contexts x).isSome

theorem Sound.orderly (h : Sound s) : Orderly s := by
  refine ⟨h.deleted, fun i k a b hi hk ha hb howner => ?_, h.alive⟩
  obtain ⟨c, hc, hci⟩ := h.owned i a hi ha
  obtain ⟨d, hd, hdk⟩ := h.owned k b hk hb
  rw [howner, hd] at hc
  obtain rfl := Option.some.inj hc
  exact Option.some.inj (hci.symm.trans hdk)

theorem sound_initial : Sound State.initial :=
  ⟨rfl, nofun, nofun, nofun⟩

/-- A context is made or changed; it has the servers of its threads that run. -/
theorem Sound.setContext (h : Sound s)
    (hown : ∀ (i : ServerId) (server : Server), s.servers[i]? = some server → server.running →
      server.owner = x → c.handle = some i)
    (hthread : c.serverThread = c.handle) : Sound (s.setContext x (some c)) := by
  refine ⟨h.deleted, fun i server hi hrun => ?_, fun x' c' hx' => ?_, fun j x' hx' => ?_⟩
  · simp only [State.setContext, Function.update_apply]
    split
    · rename_i heq
      exact ⟨c, rfl, hown i server hi hrun heq⟩
    · exact h.owned i server hi hrun
  · simp only [State.setContext, Function.update_apply] at hx'
    split at hx'
    · cases hx'
      exact hthread
    · exact h.thread x' c' hx'
  · simp only [State.setContext, Function.update_apply]
    split
    · rfl
    · exact h.alive j x' hx'

/-- A context that is there changes and keeps its server. -/
theorem Sound.keepServer {d : Context} (h : Sound s) (hx : s.contexts x = some c)
    (hhandle : d.handle = c.handle) (hthread : d.serverThread = c.serverThread) :
    Sound (s.setContext x (some d)) := by
  refine h.setContext (fun i server hi hrun howner => ?_) ?_
  · obtain ⟨c', hc', hci⟩ := h.owned i server hi hrun
    obtain rfl := Option.some.inj (hx.symm.trans (howner ▸ hc'))
    exact hhandle.trans hci
  · rw [hthread, hhandle, h.thread x c hx]

/-- A context that is made has no server. -/
theorem Sound.newContext {ctx : Option JSContext} (h : Sound s) (hx : s.contexts x = none) :
    Sound (s.setContext x (some ⟨ctx, none, none⟩)) := by
  refine h.setContext (fun i server hi hrun howner => ?_) rfl
  obtain ⟨c', hc', _⟩ := h.owned i server hi hrun
  rw [howner, hx] at hc'
  cases hc'

theorem Sound.freeContext (h : Sound s) (ctx : Option JSContext) : Sound (s.freeContext ctx) := by
  cases ctx with
  | none => exact h
  | some j => exact ⟨h.deleted, h.owned, h.thread, h.alive⟩

/-- A running server of another context than the one at `x`. -/
theorem Sound.owner_ne {server : Server} (h : Sound s) (hx : s.contexts x = some c)
    (hi : s.servers[i]? = some server) (hrun : server.running) (hne : c.handle ≠ some i) :
    server.owner ≠ x := by
  rintro rfl
  obtain ⟨c', hc', hci⟩ := h.owned i server hi hrun
  obtain rfl := Option.some.inj (hx.symm.trans hc')
  exact hne hci

/-- A server is one of the old ones or the new one. -/
theorem servers_concat {server new : Server} (hi : (s.servers ++ [new])[i]? = some server) :
    s.servers[i]? = some server ∨ i = s.servers.length ∧ server = new := by
  rw [List.getElem?_append] at hi
  split at hi
  · exact .inl hi
  · rw [List.getElem?_singleton] at hi
    split at hi
    · exact .inr ⟨by omega, (Option.some.inj hi).symm⟩
    · cases hi

theorem Sound.enableDebugger (h : Sound s) (hx : s.contexts x = some c) (hc : c.handle = none) :
    Sound (enableDebugger s x c j) := by
  have hthread : c.serverThread = none := (h.thread x c hx).trans hc
  simp only [DebuggerMode.enableDebugger, hc, hthread, State.destroyServer, State.destroyThread,
    State.setContext]
  refine ⟨h.deleted, fun i server hi hrun => ?_, fun x' c' hx' => ?_, fun j' x' hx' => ?_⟩
  · rcases servers_concat hi with hi | ⟨rfl, rfl⟩
    · have hne : server.owner ≠ x := h.owner_ne hx hi hrun (by rw [hc]; exact nofun)
      obtain ⟨c', hc', hci⟩ := h.owned i server hi hrun
      exact ⟨c', (Function.update_of_ne hne ..).trans hc', hci⟩
    · exact ⟨_, Function.update_self .., rfl⟩
  · simp only [Function.update_apply] at hx'
    split at hx'
    · cases hx'
      rfl
    · exact h.thread x' c' hx'
  · simp only [Function.update_apply] at hx' ⊢
    split
    · rfl
    · rename_i hne
      split at hx'
      · exact absurd (Option.some.inj hx').symm hne
      · exact h.alive j' x' hx'

/-- A server that still runs after the thread of `k` has ended. -/
theorem servers_endThread {server : Server} {k : ServerId}
    (hi : (s.endThread k).servers[i]? = some server) (hrun : server.running) :
    i ≠ k ∧ s.servers[i]? = some server := by
  rw [State.endThread, List.getElem?_modify] at hi
  split at hi
  · obtain ⟨old, _, rfl⟩ := Option.map_eq_some_iff.mp hi
    cases hrun
  · rename_i hne
    exact ⟨Ne.symm hne, by simpa using hi⟩

theorem Sound.endThread (h : Sound s) (k : ServerId) : Sound (s.endThread k) :=
  ⟨h.deleted, fun i server hi hrun => h.owned i server (servers_endThread hi hrun).2 hrun, h.thread, h.alive⟩

/-- A server whose thread has ended may be deleted. -/
theorem destroyServer_endThread (s : State) (k : ServerId) :
    (s.endThread k).destroyServer (some k) = s.endThread k := by
  refine if_neg fun hany => ?_
  obtain ⟨server, hk, hrun⟩ := (Option.any_eq_true _ _).mp hany
  exact (servers_endThread hk hrun).1 rfl

theorem Sound.disableDebugger (h : Sound s) (hx : s.contexts x = some c) :
    Sound (disableDebugger s x c j) := by
  have hmap : Sound { s with userdata := Function.update s.userdata j none } := by
    refine ⟨h.deleted, h.owned, h.thread, fun j' x' hx' => ?_⟩
    simp only [Function.update_apply] at hx'
    split at hx'
    · cases hx'
    · exact h.alive j' x' hx'
  rw [DebuggerMode.disableDebugger]
  cases hc : c.handle with
  | none => exact hmap
  | some k =>
    simp only [destroyServer_endThread]
    refine (hmap.endThread k).setContext (fun i server hi hrun howner => ?_) rfl
    -- the thread that ran for `x` was that of `k`
    obtain ⟨hne, hi⟩ := servers_endThread hi hrun
    refine absurd howner (h.owner_ne hx hi hrun ?_)
    rw [hc]
    exact fun heq => hne (Option.some.inj heq).symm

theorem Sound.destroyContext (h : Sound s) (hx : s.contexts x = some c) (hc : c.handle = none)
    (hno : ∀ j, s.userdata j ≠ some x) : Sound (destroyContext s x c) := by
  have hthread : c.serverThread = none := (h.thread x c hx).trans hc
  have hfree : DebuggerMode.destroyContext s x c = (s.freeContext c.ctx).setContext x none := by
    simp only [DebuggerMode.destroyContext, hthread, hc, State.destroyThread, State.destroyServer, ite_self]
  have hcontexts : (s.freeContext c.ctx).contexts = s.contexts := by
    cases c.ctx <;> rfl
  have hmap : (s.freeContext c.ctx).userdata = s.userdata := by
    cases c.ctx <;> rfl
  have h' := h.freeContext c.ctx
  rw [hfree]
  refine ⟨h'.deleted, fun i server hi hrun => ?_, fun x' c' hx' => ?_, fun j x' hx' => ?_⟩
  · obtain ⟨c', hc', hci⟩ := h'.owned i server hi hrun
    refine ⟨c', (Function.update_of_ne ?_ ..).trans hc', hci⟩
    rintro rfl
    rw [hcontexts, hx] at hc'
    obtain rfl := Option.some.inj hc'
    exact nomatch hc.symm.trans hci
  · simp only [State.setContext, Function.update_apply] at hx'
    split at hx'
    · cases hx'
    · exact h'.thread x' c' hx'
  · have hne : x' ≠ x := by
      rintro rfl
      exact hno j (hmap ▸ hx')
    exact (congrArg Option.isSome (Function.update_of_ne hne ..)).trans (h'.alive j x' hx')

theorem Sound.step (h : Sound s) (hs : s.step op = some s') (hop : op.Proper s) : Sound s' := by
  unfold State.step at hs
  split at hs
  · cases hs
  cases op with
  | create x j =>
    simp only at hs
    split at hs <;> cases hs
    rename_i hfree
    have h : Sound (s.setContext x (some ⟨some j, none, none⟩)) := h.newContext hfree.1
    exact ⟨h.deleted, h.owned, h.thread, h.alive⟩
  | setDebuggerMode x mode =>
    simp only at hs
    split at hs
    · cases hs
    rename_i c hx
    obtain ⟨j, _, rfl⟩ := Option.map_eq_some_iff.mp hs
    cases mode with
    | true => exact h.enableDebugger hx (hop c hx)
    | false => exact h.disableDebugger hx
  | moveConstruct x y =>
    simp only at hs
    split at hs <;> cases hs
    rename_i c hx hy
    have hne : x ≠ y := by
      rintro rfl
      exact nomatch hx.symm.trans hy
    exact (h.newContext hy).keepServer ((Function.update_of_ne hne ..).trans hx) rfl rfl
  | moveAssign x y =>
    simp only at hs
    split at hs
    · rename_i c d hx hy
      split at hs <;> cases hs
      · exact h
      · rename_i hne
        have hcontexts : (s.freeContext d.ctx).contexts = s.contexts := by
          cases d.ctx <;> rfl
        have hy' := (h.freeContext d.ctx).keepServer (d := { d with ctx := c.ctx })
          ((congrFun hcontexts y).trans hy) rfl rfl
        have hx' : ((s.freeContext d.ctx).setContext y (some { d with ctx := c.ctx })).contexts x =
            some c := (Function.update_of_ne hne ..).trans ((congrFun hcontexts x).trans hx)
        exact hy'.keepServer hx' rfl rfl
    · cases hs
  | destroy x =>
    obtain ⟨c, hx, rfl⟩ := Option.map_eq_some_iff.mp hs
    exact h.destroyContext hx (hop.1 c hx) hop.2
  | threadEnds i =>
    cases hs
    exact h.endThread i

end QuickJs.DebuggerMode
