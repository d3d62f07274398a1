import Mathlib

/-!
# Modules

The module definitions of a context after `js_resolve_module`: every request entry has its module.
An entry that names a request entry by its index is given the module of it.
-/

namespace QuickJs.Module

abbrev JSAtom := String

def atomDefault : JSAtom := "default"

/-- `JS_ATOM__star_` -/
def atomStar : JSAtom := "*"

variable {n : ℕ}

/-- `JSExportEntry`. -/
inductive JSExportEntry (n : ℕ)
  /-- a variable of the module, or for a C module the variable of the entry itself -/
  | local (exportName localName : JSAtom) (varIdx : ℕ)
  /-- an export of another module, or its namespace -/
  | indirect (exportName localName : JSAtom) (module : Fin n)
  deriving DecidableEq

def JSExportEntry.exportName : JSExportEntry n → JSAtom
  | .local exportName _ _ => exportName
  | .indirect exportName _ _ => exportName

def JSExportEntry.localName : JSExportEntry n → JSAtom
  | .local _ localName _ => localName
  | .indirect _ localName _ => localName

/-- `JSImportEntry`. -/
structure JSImportEntry (n : ℕ) where
  varIdx : ℕ
  importName : JSAtom
  module : Fin n
  deriving DecidableEq

/-- `JSModuleDef`. -/
structure JSModuleDef (n : ℕ) where
  reqModules : List (Fin n)
  exportEntries : List (JSExportEntry n)
  starExportEntries : List (Fin n)
  importEntries : List (JSImportEntry n)
  /-- it has an `init_func` -/
  isCModule : Bool
  deriving DecidableEq

/-- The modules of a context. -/
abbrev Modules (n : ℕ) := Fin n → JSModuleDef n

/-- `find_export_entry`. -/
def JSModuleDef.findExportEntry (m : JSModuleDef n) (exportName : JSAtom) : Option (JSExportEntry n) :=
  m.exportEntries.find? (·.exportName = exportName)

/-- The import entry of a variable that another module owns; the variable of a namespace is one of
the importing module. -/
def JSModuleDef.importOf (m : JSModuleDef n) (varIdx : ℕ) : Option (JSImportEntry n) :=
  m.importEntries.find? fun mi => mi.varIdx = varIdx ∧ mi.importName ≠ atomStar

theorem JSModuleDef.exportName_of_findExportEntry {m : JSModuleDef n} {name : JSAtom}
    {me : JSExportEntry n} (h : m.findExportEntry name = some me) : me.exportName = name := by
  simpa using List.find?_some h

end QuickJs.Module
