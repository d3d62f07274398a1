import QuickJs.ResolveExport

/-!
# The linker

`js_create_module_function` makes the cells of the variables of a module and of the modules that it
requests, and `js_link_module` gives the imports the cells of the exports, after it has linked the
requests. A cell is made once, so it has a name. The C code follows a pointer to a cell without a
look whether it is null.
-/

namespace QuickJs.Link

open QuickJs.Module Walk

variable {n : ℕ}

/-- Modules as the parser makes them: what an entry names is requested, and each import has a
variable of its own. -/
structure ModuleGraph (n : ℕ) where
  modules : Modules n
  requested_export : ∀ m e l m1, .indirect e l m1 ∈ (modules m).exportEntries → m1 ∈ (modules m).reqModules
  requested_star : ∀ m, ∀ m1 ∈ (modules m).starExportEntries, m1 ∈ (modules m).reqModules
  requested_import : ∀ m, ∀ mi ∈ (modules m).importEntries, mi.module ∈ (modules m).reqModules
  varIdx_nodup : ∀ m, ((modules m).importEntries.map JSImportEntry.varIdx).Nodup

/-- `JSVarRef`, by the place that it has been made for. -/
inductive Cell (n : ℕ)
  /-- a variable of a module -/
  | variable (m : Fin n) (varIdx : ℕ)
  /-- an export of a C module -/
  | native (m : Fin n) (me : JSExportEntry n)
  /-- an import of a module that is the namespace of another one -/
  | namespace (m : Fin n) (varIdx : ℕ)
  deriving DecidableEq

structure Cells (n : ℕ) where
  funcCreated : Fin n → Bool
  /-- `var_refs` of the function of a module -/
  varRefs : Fin n → ℕ → Option (Cell n)
  /-- `u.local.var_ref` of an export -/
  exportRefs : Fin n → JSExportEntry n → Option (Cell n)
  /-- the module whose namespace is in a cell -/
  value : Cell n → Option (Fin n)
  /-- the namespace of a module has been built -/
  moduleNs : Fin n → Bool

structure LinkState (n : ℕ) extends Cells n where
  instantiated : Fin n → Bool

def LinkState.initial : LinkState n where
  funcCreated _ := false
  varRefs _ _ := none
  exportRefs _ _ := none
  value _ := none
  moduleNs _ := false
  instantiated _ := false

inductive LinkError
  /-- a `SyntaxError` is thrown -/
  | exception
  /-- a null pointer is followed -/
  | nullDeref
  deriving DecidableEq

/-! ## The cells -/

/-- `js_create_module_bytecode_function`, or the exports of a C module: the variables that are not
imported get their cells. -/
def Cells.createFunction (g : Modules n) (s : Cells n) (m : Fin n) : Cells n :=
  { s with
    funcCreated := Function.update s.funcCreated m true
    varRefs := Function.update s.varRefs m fun i =>
      if !(g m).isCModule && ((g m).importOf i).isNone then some (.variable m i) else none
    exportRefs := Function.update s.exportRefs m fun me =>
      match me with
      | .local _ _ _ => if (g m).isCModule then some (.native m me) else none
      | .indirect _ _ _ => none }

/-- `js_create_module_function`, with a bound on the depth of the recursion. -/
def createModuleFunction (g : Modules n) : ℕ → Cells n → Fin n → Cells n
  | 0, s, _ => s
  | fuel + 1, s, m =>
    if s.funcCreated m then s
    else (g m).reqModules.foldl (createModuleFunction g fuel) (s.createFunction g m)

/-! ## Namespaces -/

/-- `GetExportNamesState`: an exported name has its entry if there is nothing to resolve. -/
structure GetExportNamesState (n : ℕ) where
  modules : List (Fin n)
  exportedNames : List (JSAtom × Option (JSExportEntry n))

/-- The body of the first loop of `get_exported_names`. -/
def GetExportNamesState.addExportedName (fromStar : Bool) (s : GetExportNamesState n)
    (me : JSExportEntry n) : GetExportNamesState n :=
  if fromStar && me.exportName = atomDefault then s
  else if s.exportedNames.any (·.1 = me.exportName) then
    { s with exportedNames := s.exportedNames.map fun en =>
        if en.1 = me.exportName then (en.1, none) else en }
  else
    { s with exportedNames := s.exportedNames ++ [(me.exportName, match me with
        | .local _ _ _ => if fromStar then none else some me
        | .indirect _ _ _ => none)] }

/-- `get_exported_names`, with a bound on the depth of the recursion. -/
def getExportedNames (g : Modules n) : ℕ → Bool → GetExportNamesState n → Fin n → GetExportNamesState n
  | 0, _, s, _ => s
  | fuel + 1, fromStar, s, m =>
    if m ∈ s.modules then s else
      let s := (g m).exportEntries.foldl (.addExportedName fromStar)
        { s with modules := s.modules ++ [m] }
      (g m).starExportEntries.foldl (getExportedNames g fuel true) s

def exportedNames (g : Modules n) (m : Fin n) : List (JSAtom × Option (JSExportEntry n)) :=
  (getExportedNames g n false ⟨[], []⟩ m).exportedNames

/-- The first loop of `js_build_module_ns`: the entry whose cell becomes a property, if there is one,
or nothing if it throws. -/
def resolveExportedName (g : Modules n) (m : Fin n) (en : JSAtom × Option (JSExportEntry n)) :
    Option (Option (Fin n × JSExportEntry n)) :=
  match en.2 with
  | some me => some (some (m, me))
  | none =>
    match resolveExport g m en.1 with
    | some (.found (_, .indirect _ _ _)) => some none
    | some (.found x) => some (some x)
    | some .ambiguous => some none
    | _ => none

/-- The entries whose cells become the properties of a namespace. -/
def namespaceEntries (g : Modules n) (m : Fin n) : Option (List (Fin n × JSExportEntry n)) :=
  ((exportedNames g m).mapM (resolveExportedName g m)).map fun xs => xs.filterMap id

/-- The cell of an export. -/
def Cells.exportCell (s : Cells n) (x : Fin n × JSExportEntry n) : Option (Cell n) :=
  match s.exportRefs x.1 x.2, x.2 with
  | some c, _ => some c
  | none, .local _ _ varIdx => s.varRefs x.1 varIdx
  | none, .indirect _ _ _ => none

/-- `js_get_module_ns` and `js_build_module_ns`. -/
def Cells.getModuleNs (g : Modules n) (s : Cells n) (m : Fin n) : Except LinkError (Cells n) :=
  if s.moduleNs m then .ok s else
    match namespaceEntries g m with
    | none => .error .exception
    | some xs =>
      if xs.all fun x => (s.exportCell x).isSome then
        .ok { s with moduleNs := Function.update s.moduleNs m true }
      else .error .nullDeref

/-! ## Imports -/

def Cells.setVarRef (s : Cells n) (m : Fin n) (varIdx : ℕ) (c : Cell n) : Cells n :=
  { s with varRefs := Function.update s.varRefs m (Function.update (s.varRefs m) varIdx (some c)) }

def Cells.setValue (s : Cells n) (c : Cell n) (m : Fin n) : Cells n :=
  { s with value := Function.update s.value c (some m) }

/-- The loop of `js_link_module` over the imports. -/
def Cells.bindImport (g : Modules n) (m : Fin n) (s : Cells n) (mi : JSImportEntry n) :
    Except LinkError (Cells n) :=
  if mi.importName = atomStar then
    s.getModuleNs g mi.module >>= fun s =>
      match s.varRefs m mi.varIdx with
      | none => .error .nullDeref
      | some c => .ok (s.setValue c mi.module)
  else
    match resolveExport g mi.module mi.importName with
    | some (.found (_, .indirect _ _ m2)) =>
      s.getModuleNs g m2 >>= fun s =>
        .ok ((s.setValue (.namespace m mi.varIdx) m2).setVarRef m mi.varIdx (.namespace m mi.varIdx))
    | some (.found x) =>
      match s.exportCell x with
      | none => .error .nullDeref
      | some c => .ok (s.setVarRef m mi.varIdx c)
    | _ => .error .exception

/-- The loop of `js_link_module` that keeps the exported variables. -/
def Cells.keepExport (m : Fin n) (s : Cells n) (me : JSExportEntry n) : Except LinkError (Cells n) :=
  match me with
  | .indirect _ _ _ => .ok s
  | .local _ _ varIdx =>
    match s.varRefs m varIdx with
    | none => .error .nullDeref
    | some c =>
      .ok { s with exportRefs :=
        Function.update s.exportRefs m (Function.update (s.exportRefs m) me (some c)) }

/-- The loop of `js_link_module` over the indirect exports. -/
def exportResolves (g : Modules n) (me : JSExportEntry n) : Bool :=
  match me with
  | .local _ _ _ => true
  | .indirect _ localName m1 =>
    localName = atomStar || (resolveExport g m1 localName) matches some (.found _)

/-- `js_link_module` after its requests have been linked. -/
def Cells.instantiate (g : Modules n) (s : Cells n) (m : Fin n) : Except LinkError (Cells n) :=
  if !(g m).exportEntries.all (exportResolves g) then .error .exception
  else if (g m).isCModule then .ok s
  else (g m).importEntries.foldlM (Cells.bindImport g m) s >>= fun s =>
    (g m).exportEntries.foldlM (Cells.keepExport m) s

/-- `js_link_module`, with a bound on the depth of the recursion. -/
def linkModule (g : Modules n) : ℕ → LinkState n → Fin n → Except LinkError (LinkState n)
  | 0, s, _ => .ok s
  | fuel + 1, s, m =>
    if s.instantiated m then .ok s
    else
      (g m).reqModules.foldlM (linkModule g fuel)
        { s with instantiated := Function.update s.instantiated m true } >>= fun s =>
      (s.toCells.instantiate g m).map fun cells => { s with toCells := cells }

/-- `JS_EvalFunctionInternal` up to the evaluation, for one module after the other. -/
def link (g : Modules n) (roots : List (Fin n)) : Except LinkError (LinkState n) :=
  roots.foldlM (fun s m => linkModule g n { s with toCells := createModuleFunction g n s.toCells m } m)
    .initial

/-! ## What the linker should do -/

/-- The binding of a name that is imported from a module, through the imports that are exported
again. -/
inductive Denotes (g : Modules n) : Fin n × JSAtom → Binding n → Prop
  | own {x : Fin n × JSAtom} {m : Fin n} {e l : JSAtom} {i : ℕ}
      (hfound : resolveExport g x.1 x.2 = some (.found (m, .local e l i)))
      (hjs : (g m).isCModule = false) (hown : (g m).importOf i = none) :
      Denotes g x (.variable m i)
  | imported {x : Fin n × JSAtom} {m : Fin n} {e l : JSAtom} {i : ℕ} {mi : JSImportEntry n}
      {b : Binding n} (hfound : resolveExport g x.1 x.2 = some (.found (m, .local e l i)))
      (hjs : (g m).isCModule = false) (himport : (g m).importOf i = some mi)
      (hb : Denotes g (mi.module, mi.importName) b) : Denotes g x b
  | native {x : Fin n × JSAtom} {m : Fin n} {e l : JSAtom} {i : ℕ}
      (hfound : resolveExport g x.1 x.2 = some (.found (m, .local e l i)))
      (hc : (g m).isCModule = true) : Denotes g x (.native m e)
  | namespace {x : Fin n × JSAtom} {m m2 : Fin n} {e l : JSAtom}
      (hfound : resolveExport g x.1 x.2 = some (.found (m, .indirect e l m2))) :
      Denotes g x (.namespace m2)

/-- A cell is the one of a binding; the one of a namespace holds it. -/
def Cells.IsCellOf (g : Modules n) (s : Cells n) (c : Cell n) : Binding n → Prop
  | .variable m i => c = .variable m i
  | .native m e => ∃ me, (g m).findExportEntry e = some me ∧ c = .native m me
  | .namespace m2 => (∃ m i, c = .namespace m i) ∧ s.value c = some m2

/-- An import has the cell of its binding, or holds a namespace. -/
def Cells.ImportRight (g : Modules n) (s : Cells n) (m : Fin n) (mi : JSImportEntry n) : Prop :=
  if mi.importName = atomStar then
    s.varRefs m mi.varIdx = some (.variable m mi.varIdx) ∧ s.value (.variable m mi.varIdx) = some mi.module
  else ∃ b c, Denotes g (mi.module, mi.importName) b ∧ s.varRefs m mi.varIdx = some c ∧ s.IsCellOf g c b

/-- An import that a link has to bind. -/
def LinkState.Linked (g : Modules n) (s : LinkState n) (m : Fin n) (mi : JSImportEntry n) : Prop :=
  s.instantiated m = true ∧ (g m).isCModule = false ∧ mi ∈ (g m).importEntries

/-- No null pointer is followed, and after a link that throws no error each import has the cell of
its binding, which it shares with the other imports of the binding. -/
def LinkedRight (g : Modules n) (roots : List (Fin n)) : Prop :=
  match link g roots with
  | .error .nullDeref => False
  | .error .exception => True
  | .ok s => (∀ m mi, s.Linked g m mi → s.ImportRight g m mi) ∧
    ∀ m mi m' mi' b, s.Linked g m mi → s.Linked g m' mi' →
      mi.importName ≠ atomStar → mi'.importName ≠ atomStar →
      Denotes g (mi.module, mi.importName) b → Denotes g (mi'.module, mi'.importName) b →
      s.varRefs m mi.varIdx = s.varRefs m' mi'.varIdx

/-! ## When it does -/

/-- What the linker does with cells. -/
inductive LinkStep (n : ℕ)
  | throws
  /-- it takes the cells of exports -/
  | uses (xs : List (Fin n × JSExportEntry n))
  /-- it binds an import, which may be an exported namespace -/
  | binds (m : Fin n) (varIdx : ℕ) (ns : Option (Fin n))
  deriving DecidableEq

def namespaceSteps (g : Modules n) (m : Fin n) : List (LinkStep n) :=
  match namespaceEntries g m with
  | none => [.throws]
  | some xs => [.uses xs]

def importSteps (g : Modules n) (m : Fin n) (mi : JSImportEntry n) : List (LinkStep n) :=
  if mi.importName = atomStar then namespaceSteps g mi.module ++ [.binds m mi.varIdx none]
  else
    match resolveExport g mi.module mi.importName with
    | some (.found (_, .indirect _ _ m2)) => namespaceSteps g m2 ++ [.binds m mi.varIdx (some m2)]
    | some (.found x) => [.uses [x], .binds m mi.varIdx none]
    | _ => [.throws]

def moduleSteps (g : Modules n) (m : Fin n) : List (LinkStep n) :=
  if !(g m).exportEntries.all (exportResolves g) then [.throws]
  else if (g m).isCModule then []
  else (g m).importEntries.flatMap (importSteps g m)

/-- Go through some modules, with the marks of those that have been visited. -/
def orderAll (f : (Fin n → Bool) → Fin n → (Fin n → Bool) × List (Fin n)) :
    (Fin n → Bool) → List (Fin n) → (Fin n → Bool) × List (Fin n)
  | v, [] => (v, [])
  | v, m :: ms =>
    let r := f v m
    let r1 := orderAll f r.1 ms
    (r1.1, r.2 ++ r1.2)

/-- The order in which the modules are linked: each one after its requests, as far as there is no
cycle. -/
def linkOrder (g : Modules n) : ℕ → (Fin n → Bool) → Fin n → (Fin n → Bool) × List (Fin n)
  | 0, v, _ => (v, [])
  | fuel + 1, v, m =>
    if v m then (v, [])
    else
      let r := orderAll (linkOrder g fuel) (Function.update v m true) (g m).reqModules
      (r.1, r.2 ++ [m])

def linkSteps (g : Modules n) (roots : List (Fin n)) : List (LinkStep n) :=
  (orderAll (linkOrder g n) (fun _ => false) roots).2.flatMap (moduleSteps g)

/-- An export is a variable that is not imported, or its import has been bound. -/
def boundExport (g : Modules n) (bound : List (Fin n × ℕ)) (x : Fin n × JSExportEntry n) : Bool :=
  match x.2 with
  | .local _ _ i => (g x.1).isCModule || ((g x.1).importOf i).isNone || (x.1, i) ∈ bound
  | .indirect _ _ _ => false

/-- An import that is exported again has been bound when its cell is taken. -/
def BoundFirst (g : Modules n) : List (Fin n × ℕ) → List (LinkStep n) → Prop
  | _, [] => True
  | _, .throws :: _ => True
  | bound, .uses xs :: steps => (∀ x ∈ xs, boundExport g bound x = true) ∧ BoundFirst g bound steps
  | bound, .binds m i _ :: steps => BoundFirst g ((m, i) :: bound) steps

/-- No two imports are the same exported namespace. -/
def OwnNamespaces (steps : List (LinkStep n)) : Prop :=
  ∀ m i m' i' m2, .binds m i (some m2) ∈ steps → .binds m' i' (some m2) ∈ steps → (m, i) = (m', i')

end QuickJs.Link
