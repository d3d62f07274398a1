import QuickJs.Run
import Mathlib.Data.List.Basic

/-!
# The list of the loaded modules

A context keeps its modules in a list, and the requests of a module point to modules of that list.
An import that fails frees modules by the flags they have. The machine has the stack of the calls of
the loader, of the linker and of the evaluation; what the host does, how a load or a body ends and
which exports the linker looks for is up to the operations. The body of a module can start other
imports. A call that follows a pointer which is null, or to a module that has been freed, is the end
of the run.
-/

namespace QuickJs.ModuleRegistry

open Run

abbrev Name : Type := ℕ

abbrev Ptr : Type := ℕ

/-- `JSReqModuleEntry`. -/
structure Request where
  moduleName : Name
  module : Option Ptr
  deriving DecidableEq

/-- `JSModuleDef`. -/
structure ModuleDef where
  moduleName : Name
  requests : List Request
  resolved : Bool := false
  funcCreated : Bool := false
  instantiated : Bool := false
  evalMark : Bool := false
  evaluated : Bool := false
  evalHasException : Bool := false

/-- What `JS_EvalFunctionInternal` calls for a module. -/
inductive Phase
  /-- `js_create_module_function` -/
  | create
  /-- `js_link_module` -/
  | link
  /-- `js_evaluate_module` -/
  | evaluate
  deriving DecidableEq

inductive Frame
  /-- `js_resolve_module` at a request -/
  | resolve (m : Ptr) (i : ℕ)
  /-- `__JS_EvalInternal` while it resolves a module, which it may also run -/
  | evalInternal (m : Ptr) (run : Bool)
  /-- `JS_ResolveModule` -/
  | resolveModule
  /-- `JS_RunModule` while it loads a module -/
  | runModule
  /-- `JS_RunModule` while it resolves a module -/
  | runResolve (m : Ptr)
  /-- `JS_EvalFunctionInternal` -/
  | evalFunction (m : Ptr) (phase : Phase)
  /-- one of the functions that it calls, at a request -/
  | walk (phase : Phase) (m : Ptr) (i : ℕ)
  /-- `js_resolve_export` or `js_build_module_ns` -/
  | export (m : Ptr)
  /-- the body of a module -/
  | body (m : Ptr)
  deriving DecidableEq

/-- The modules of a context. -/
structure Registry where
  loadedModules : List Ptr
  mod : Ptr → ModuleDef
  next : Ptr

structure State extends Registry where
  stack : List Frame
  /-- a null pointer, or one to a module that has been freed, has been followed -/
  fault : Bool

def State.initial : State := ⟨⟨[], fun _ => { moduleName := 0, requests := [] }, 0⟩, [], false⟩

/-- What the loader does for a name that is not in the list. -/
inductive Load
  /-- there is no file, or it cannot be parsed -/
  | fails
  /-- a module in C -/
  | native
  /-- a file with these requests is compiled -/
  | source (requests : List Name)

def Registry.modify (r : Registry) (p : Ptr) (f : ModuleDef → ModuleDef) : Registry :=
  { r with mod := Function.update r.mod p (f (r.mod p)) }

def State.modify (s : State) (p : Ptr) (f : ModuleDef → ModuleDef) : State :=
  { s with toRegistry := s.toRegistry.modify p f }

def State.push (s : State) (f : Frame) : State := { s with stack := f :: s.stack }

/-- Follow a pointer to a module. -/
def State.deref (s : State) (p : Option Ptr) (k : Ptr → State) : State :=
  match p with
  | none => { s with fault := true }
  | some p => if p ∈ s.loadedModules then k p else { s with fault := true }

/-- `js_new_module_def`, and the requests that the parser adds. -/
def Registry.newModuleDef (r : Registry) (name : Name) (requests : List Name) : Registry where
  loadedModules := r.loadedModules ++ [r.next]
  mod := Function.update r.mod r.next { moduleName := name, requests := requests.map (⟨·, none⟩) }
  next := r.next + 1

def State.newModuleDef (s : State) (name : Name) (requests : List Name) : State :=
  { s with toRegistry := s.toRegistry.newModuleDef name requests }

def Registry.restrict (r : Registry) (keep : Ptr → Bool) : Registry :=
  { r with loadedModules := r.loadedModules.filter keep }

/-- `js_free_module_def`. -/
def State.freeModuleDef (s : State) (m : Ptr) : State :=
  { s with toRegistry := s.toRegistry.restrict (· ≠ m) }

/-- `js_free_modules`. -/
def State.freeModules (s : State) (keep : ModuleDef → Bool) : State :=
  { s with toRegistry := s.toRegistry.restrict fun p => keep (s.mod p) }

/-- `js_find_loaded_module`. -/
def State.findLoadedModule (s : State) (name : Name) : Option Ptr :=
  s.loadedModules.find? fun p => (s.mod p).moduleName == name

/-- The topmost call goes on after one that it has made. -/
def State.returned (s : State) : State :=
  match s.stack with
  | .resolve m i :: st => { s with stack := .resolve m (i + 1) :: st }
  | .resolveModule :: st => { s with stack := st }
  | .runResolve m :: st => { s with stack := .evalFunction m .create :: st }
  | .evalFunction m .create :: st => { s with stack := .evalFunction m .link :: st }
  | .evalFunction m .link :: st => { s with stack := .evalFunction m .evaluate :: st }
  | .evalFunction _ .evaluate :: st => { s with stack := st }
  | .walk phase m i :: st => { s with stack := .walk phase m (i + 1) :: st }
  | _ => s

/-- `js_resolve_module` up to its loop. -/
def State.resolveModule (s : State) (m : Ptr) : State :=
  if (s.mod m).resolved then s.returned
  else (s.modify m fun d => { d with resolved := true }).push (.resolve m 0)

/-- A module has been found or loaded for a request, or by `JS_RunModule`. -/
def State.hostLoaded (s : State) (m1 : Ptr) : State :=
  match s.stack with
  | .resolve m i :: _ =>
    (s.modify m fun d => { d with requests := d.requests.modify i ({ · with module := some m1 }) })
      |>.resolveModule m1
  | .runModule :: st => { s with stack := .runResolve m1 :: st }.resolveModule m1
  | _ => s

/-- `__JS_EvalInternal` for a module that has been parsed. -/
def State.evalInternal (s : State) (name : Name) (requests : List Name) (run : Bool) : State :=
  ((s.newModuleDef name requests).push (.evalInternal s.next run)).resolveModule s.next

/-- A load fails, and with it the calls that it has been made for. -/
def State.loadFailed : List Frame → State → State
  | .resolve _ _ :: st, s => State.loadFailed st s
  | .evalInternal m _ :: st, s => State.loadFailed st (s.freeModuleDef m)
  | .runModule :: st, s => { s with stack := st }
  | .resolveModule :: st, s | .runResolve _ :: st, s =>
    { s.freeModules (·.resolved) with stack := st }
  | st, s => { s with stack := st }

/-- `js_host_resolve_imported_module`, where the name may not be one. -/
def State.hostResolveImportedModule (s : State) (cname : Option Name) (load : Load) : State :=
  match cname with
  | none => .loadFailed s.stack s
  | some cname =>
    match s.findLoadedModule cname with
    | some m1 => s.hostLoaded m1
    | none =>
      match load with
      | .fails => .loadFailed s.stack s
      | .native => (s.newModuleDef cname []).hostLoaded s.next
      | .source requests => s.evalInternal cname requests false

/-- The loop of `js_resolve_module` is over. -/
def State.resolved (s : State) : List Frame → State
  | .evalInternal m true :: st => { s with stack := .evalFunction m .create :: st }
  | .evalInternal m false :: st => { s with stack := st }.hostLoaded m
  | st => { s with stack := st }.returned

/-- `JS_EvalFunctionInternal` fails, and with it the calls that it has made. -/
def State.evalFailed : List Frame → State → State
  | .walk .evaluate m _ :: st, s =>
    State.evalFailed st (s.deref (some m) fun m => s.modify m fun d => { d with evalMark := false })
  | .walk _ _ _ :: st, s | .export _ :: st, s => State.evalFailed st s
  | .evalFunction _ _ :: st, s => { s.freeModules (·.evaluated) with stack := st }
  | st, s => { s with stack := st }

/-- Call a function of `JS_EvalFunctionInternal`, which may have nothing to do. -/
def State.call (s : State) (phase : Phase) (m : Ptr) : State :=
  match phase with
  | .create =>
    if (s.mod m).funcCreated then s.returned
    else (s.modify m fun d => { d with funcCreated := true }).push (.walk .create m 0)
  | .link =>
    if (s.mod m).instantiated then s.returned
    else (s.modify m fun d => { d with instantiated := true }).push (.walk .link m 0)
  | .evaluate =>
    if (s.mod m).evalMark then s.returned
    else if (s.mod m).evaluated then
      if (s.mod m).evalHasException then .evalFailed s.stack s else s.returned
    else (s.modify m fun d => { d with evalMark := true }).push (.walk .evaluate m 0)

/-- The host, or the body of a module, can call the functions of the API. -/
def hosted : List Frame → Bool
  | [] | .body _ :: _ => true
  | _ => false

inductive Op
  /-- `JS_Eval` of a module, which may not be one -/
  | eval (name : Name) (requests : Option (List Name)) (run : Bool)
  /-- `JS_ReadObject` of a module -/
  | readObject (name : Name) (requests : List Name)
  | resolveModule (m : Ptr)
  | runModule (cname : Option Name) (load : Load)
  /-- `JS_EvalFunction` of a module that has been resolved -/
  | evalFunction (m : Ptr)
  /-- `js_get_module_ns` -/
  | getModuleNs (m : Ptr)
  /-- the topmost call resolves a request -/
  | request (cname : Option Name) (load : Load)
  /-- the topmost call goes on -/
  | advance
  /-- the linker, or the search for an export, goes on to the module of a request -/
  | export (i : ℕ)
  /-- it comes back -/
  | found
  /-- the imports of a module have been bound, or not -/
  | linked (ok : Bool)
  /-- the body of a module ends, with an exception or without -/
  | finish (throws : Bool)

def State.perform (s : State) (op : Op) : Option State :=
  match op, s.stack with
  | .eval name requests run, stack =>
    if !hosted stack then none
    else match requests with
      | none => some s
      | some requests => some (s.evalInternal name requests run)
  | .readObject name requests, stack =>
    if !hosted stack then none else some (s.newModuleDef name requests)
  | .resolveModule m, stack =>
    if !hosted stack || m ∉ s.loadedModules then none
    else some ((s.push .resolveModule).resolveModule m)
  | .runModule cname load, stack =>
    if !hosted stack then none
    else some ((s.push .runModule).hostResolveImportedModule cname load)
  | .evalFunction m, stack =>
    if !hosted stack || m ∉ s.loadedModules || !(s.mod m).resolved then none
    else some (s.push (.evalFunction m .create))
  | .getModuleNs m, stack =>
    if !hosted stack || m ∉ s.loadedModules || !(s.mod m).resolved then none
    else some (s.push (.export m))
  | .request cname load, .resolve m i :: _ =>
    if i < (s.mod m).requests.length then some (s.hostResolveImportedModule cname load) else none
  | .advance, .resolve m i :: st =>
    if i < (s.mod m).requests.length then none else some (s.resolved st)
  | .advance, .evalFunction m phase :: _ => some (s.deref (some m) (s.call phase))
  | .advance, .walk phase m i :: st =>
    if m ∉ s.loadedModules then some { s with fault := true }
    else match (s.mod m).requests[i]?, phase with
      | some r, _ => some (s.deref r.module (s.call phase))
      | none, .create => some { s with stack := st }.returned
      | none, .link => none
      | none, .evaluate => some { s with stack := .body m :: st }
  | .export i, .walk .link m j :: _ =>
    if j < (s.mod m).requests.length then none
    else match (s.mod m).requests[i]? with
      | some r => some (s.deref (some m) fun _ => s.deref r.module fun m1 => s.push (.export m1))
      | none => none
  | .export i, .export m :: _ =>
    match (s.mod m).requests[i]? with
    | some r => some (s.deref (some m) fun _ => s.deref r.module fun m1 => s.push (.export m1))
    | none => none
  | .found, .export _ :: st => some { s with stack := st }
  | .linked ok, .walk .link m i :: st =>
    if i < (s.mod m).requests.length then none
    else if ok then some { s with stack := st }.returned else some (.evalFailed s.stack s)
  | .finish throws, .body m :: st =>
    let s1 := s.deref (some m) fun m => { s with stack := st }.modify m fun d =>
      { d with evalMark := false, evaluated := true, evalHasException := throws }
    some (if s1.fault then s1 else if throws then .evalFailed st s1 else s1.returned)
  | _, _ => none

def State.step (s : State) (op : Op) : Option State := if s.fault then none else s.perform op

/-! ## What a failure should leave -/

/-- No request points to a module that has been freed, nor has a module been freed that is being
evaluated, nor has a call come to one. -/
structure Usable (s : State) : Prop where
  fault : s.fault = false
  request : ∀ p ∈ s.loadedModules, ∀ r ∈ (s.mod p).requests, ∀ q, r.module = some q → q ∈ s.loadedModules
  evaluating : ∀ m, (.body m ∈ s.stack ∨ ∃ i, .walk .evaluate m i ∈ s.stack) → m ∈ s.loadedModules

/-! ## When it does -/

/-- The modules that are freed if the load fails that the stack is in. -/
def loading : List Frame → List Ptr
  | .resolve _ _ :: st => loading st
  | .evalInternal m _ :: st => m :: loading st
  | _ => []

/-- The load that the stack is in has not come to a module that was already in the list: to one
that `JS_ReadObject` has made. -/
def Compiling : List Frame → Prop
  | .resolve _ _ :: .evalInternal _ _ :: st => Compiling st
  | .resolve _ _ :: _ => False
  | _ => True

/-- The host finds no module for a name. -/
def State.loadFails (s : State) (cname : Option Name) (load : Load) : Prop :=
  ∀ name, cname = some name → s.findLoadedModule name = none ∧ load matches .fails

/-- Some modules are not requested by some others. -/
def Registry.Apart (r : Registry) (requesting requested : Ptr → Prop) : Prop :=
  ∀ p ∈ r.loadedModules, requesting p → ∀ e ∈ (r.mod p).requests, ∀ q, e.module = some q → ¬ requested q

/-- The modules that the stack is evaluating. -/
def evaluating (stack : List Frame) (m : Ptr) : Prop := ∃ i, .walk .evaluate m i ∈ stack

/-- No body has made the import which the stack is in. -/
def Outermost (stack : List Frame) : Prop := ∀ m, .body m ∉ stack

/-- An evaluation throws what it has thrown before. -/
def State.rethrows (s : State) (m : Ptr) : Prop :=
  (s.mod m).evalMark = false ∧ (s.mod m).evaluated = true ∧ (s.mod m).evalHasException = true

/-- If the step is a failure, the modules that it breaks off are not on a cycle with modules that
stay, and no module is being evaluated around it. -/
def Spares (s : State) : Op → Prop
  | .request cname load => s.loadFails cname load →
    Compiling s.stack ∧ s.Apart (· ∉ loading s.stack) (· ∈ loading s.stack)
  | .linked ok => ok = false → Outermost s.stack
  | .finish throws => throws = true → ∀ m st, s.stack = .body m :: st →
    Outermost st ∧ s.Apart (fun p => (s.mod p).evaluated = true ∨ p = m) (evaluating st)
  | .advance => ∀ m, (s.stack.head? = some (.evalFunction m .evaluate) ∨
      ∃ p i r, s.stack.head? = some (.walk .evaluate p i) ∧ (s.mod p).requests[i]? = some r ∧
        r.module = some m) → s.rethrows m →
    Outermost s.stack ∧ s.Apart (fun p => (s.mod p).evaluated = true) (evaluating s.stack)
  | _ => True

end QuickJs.ModuleRegistry
