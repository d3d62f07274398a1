import QuickJs.ModuleDef
import QuickJs.Walk

/-!
# The resolution of exports

`js_resolve_export1`, and the algorithm ResolveExport of the language. Both walk through the same
modules, but the language goes on through an import that is exported again, where the code stops at
the entry; and two paths have the same end for the language if they reach the same variable or
namespace, for the code if they reach the same local name of the same module.
-/

namespace QuickJs.Module

open Walk

variable {n : ℕ}

/-- `JSResolveResultEnum` with the module and the entry that are found. -/
abbrev ResolveResult (n : ℕ) := Verdict (Fin n × JSExportEntry n)

/-- The pairs of a module and a name that have been looked at. -/
abbrev ResolveState (n : ℕ) := List (Fin n × JSAtom)

/-- Two entries are the same for the code. -/
def entryKey (x : Fin n × JSExportEntry n) : Fin n × JSAtom := (x.1, x.2.localName)

/-- The loop of `js_resolve_export1` over the star exports. -/
def resolveStars (f : ResolveState n → Fin n → Option (ResolveResult n × ResolveState n)) :
    List (Fin n) → Option (Fin n × JSExportEntry n) → ResolveState n →
    Option (ResolveResult n × ResolveState n)
  | [], pme, s => match pme with
    | some me => some (.found me, s)
    | none => some (.notFound, s)
  | m1 :: el, pme, s =>
    match f s m1 with
    | none => none
    | some (.ambiguous, s) => some (.ambiguous, s)
    | some (.found res, s) =>
      match pme with
      | some me =>
        if me.1 ≠ res.1 ∨ res.2.localName ≠ me.2.localName then some (.ambiguous, s)
        else resolveStars f el (some me) s
      | none => resolveStars f el (some res) s
    | some (.notFound, s) => resolveStars f el pme s
    | some (.circular, s) => resolveStars f el pme s

/-- `js_resolve_export1`, with a bound on the depth of the recursion. -/
def resolveExport1 (g : Modules n) : ℕ → ResolveState n → Fin n → JSAtom →
    Option (ResolveResult n × ResolveState n)
  | 0, _, _, _ => none
  | fuel + 1, s, m, exportName =>
    if (m, exportName) ∈ s then some (.circular, s) else
      let s := s ++ [(m, exportName)]
      match (g m).findExportEntry exportName with
      | some (.local exportName localName varIdx) =>
        some (.found (m, .local exportName localName varIdx), s)
      | some (.indirect exportName localName m1) =>
        if localName = atomStar then some (.found (m, .indirect exportName localName m1), s)
        else resolveExport1 g fuel s m1 localName
      | none =>
        if exportName ≠ atomDefault then
          resolveStars (fun s m1 => resolveExport1 g fuel s m1 exportName)
            (g m).starExportEntries none s
        else some (.notFound, s)

/-- The names that can be asked for in the search for a name. -/
def names (g : Modules n) (exportName : JSAtom) : Finset JSAtom :=
  insert exportName (Finset.univ.biUnion fun m =>
    ((g m).exportEntries.map JSExportEntry.localName ++
      (g m).importEntries.map JSImportEntry.importName).toFinset)

/-- More than all pairs of a module and a name. -/
def depth (g : Modules n) (exportName : JSAtom) : ℕ := n * (names g exportName).card + 1

/-- `js_resolve_export`. -/
def resolveExport (g : Modules n) (m : Fin n) (exportName : JSAtom) : Option (ResolveResult n) :=
  (resolveExport1 g (depth g exportName) [] m exportName).map Prod.fst

/-! ## The language -/

/-- What an export of a module can be bound to. -/
inductive Binding (n : ℕ)
  | variable (m : Fin n) (varIdx : ℕ)
  /-- a variable of a C module -/
  | native (m : Fin n) (exportName : JSAtom)
  | namespace (m : Fin n)
  deriving DecidableEq

/-- The steps of ResolveExport before the star exports: an import that is exported again counts as
an indirect export. -/
def ecmaNode (g : Modules n) (x : Fin n × JSAtom) : Node (Binding n) (Fin n × JSAtom) :=
  match (g x.1).findExportEntry x.2 with
  | some (.local exportName _ varIdx) =>
    if (g x.1).isCModule then .leaf (.native x.1 exportName) else
      match (g x.1).importOf varIdx with
      | some mi => .via (mi.module, mi.importName)
      | none => .leaf (.variable x.1 varIdx)
  | some (.indirect _ localName m1) =>
    if localName = atomStar then .leaf (.namespace m1) else .via (m1, localName)
  | none =>
    if x.2 ≠ atomDefault then .fork ((g x.1).starExportEntries.map fun m1 => (m1, x.2)) else .fork []

/-- ResolveExport: the walk with the resolve set, where star exports must find the same binding. -/
def ecmaResolve (g : Modules n) (m : Fin n) (exportName : JSAtom) : Option (Verdict (Binding n)) :=
  (walk (ecmaNode g) id (depth g exportName) [] (m, exportName)).map Prod.fst

/-- The entry of a module is bound to what its name resolves to. -/
def BoundTo (g : Modules n) (me : Fin n × JSExportEntry n) (b : Binding n) : Prop :=
  ecmaResolve g me.1 me.2.exportName = some (.found b)

/-- The result of the code is the one of the language: an entry that is bound to the binding found,
no entry where the language has no result, or an ambiguous name. -/
inductive Agree (g : Modules n) : ResolveResult n → Verdict (Binding n) → Prop
  | found {me : Fin n × JSExportEntry n} {b : Binding n} : BoundTo g me b → Agree g (.found me) (.found b)
  | null {r : ResolveResult n} {r' : Verdict (Binding n)} : (r = .notFound ∨ r = .circular) →
      (r' = .notFound ∨ r' = .circular) → Agree g r r'
  | ambiguous : Agree g .ambiguous .ambiguous

/-- The code and the language come to their ends with the same result. -/
def ResolvesRight (g : Modules n) (m : Fin n) (exportName : JSAtom) : Prop :=
  ∃ r r', resolveExport g m exportName = some r ∧ ecmaResolve g m exportName = some r' ∧ Agree g r r'

/-! ## The walk of the code -/

variable {g : Modules n} {m : Fin n} {exportName name : JSAtom} {me e : Fin n × JSExportEntry n}
  {b b' : Binding n} {x y : Fin n × JSAtom}

/-- The places that `js_resolve_export1` comes to. -/
def codeNode (g : Modules n) (x : Fin n × JSAtom) : Node (Fin n × JSExportEntry n) (Fin n × JSAtom) :=
  match (g x.1).findExportEntry x.2 with
  | some (.local exportName localName varIdx) => .leaf (x.1, .local exportName localName varIdx)
  | some (.indirect exportName localName m1) =>
    if localName = atomStar then .leaf (x.1, .indirect exportName localName m1)
    else .via (m1, localName)
  | none =>
    if x.2 ≠ atomDefault then .fork ((g x.1).starExportEntries.map fun m1 => (m1, x.2)) else .fork []

theorem resolveStars_eq_walkFork {f : ResolveState n → Fin n → Option (ResolveResult n × ResolveState n)}
    {f' : ResolveState n → Fin n × JSAtom → Option (ResolveResult n × ResolveState n)}
    (hf : ∀ s m1, f s m1 = f' s (m1, name)) (el : List (Fin n)) (pme : Option (Fin n × JSExportEntry n))
    (s : ResolveState n) :
    resolveStars f el pme s = walkFork entryKey f' (el.map fun m1 => (m1, name)) pme s := by
  induction el generalizing pme s with
  | nil => cases pme <;> rfl
  | cons m1 el ih =>
    rw [resolveStars, List.map_cons, walkFork, hf]
    cases f' s (m1, name) with
    | none => rfl
    | some r =>
      obtain ⟨r, s'⟩ := r
      cases r with
      | ambiguous => rfl
      | notFound | circular => exact ih pme s'
      | found res =>
        cases pme with
        | none => exact ih (some res) s'
        | some me =>
          simp only [ih]
          refine if_congr ?_ rfl rfl
          rw [entryKey, ne_eq (res.1, _), Prod.mk.injEq, not_and_or]
          exact or_congr_left ne_comm

theorem resolveExport1_eq_walk (fuel : ℕ) (s : ResolveState n) (m : Fin n) (exportName : JSAtom) :
    resolveExport1 g fuel s m exportName = walk (codeNode g) entryKey fuel s (m, exportName) := by
  induction fuel generalizing s m exportName with
  | zero => rfl
  | succ fuel ih =>
    rw [resolveExport1, walk]
    by_cases hs : (m, exportName) ∈ s
    · rw [if_pos hs, if_pos hs]
    rw [if_neg hs, if_neg hs]
    simp only [codeNode]
    split
    · rfl
    · split
      · rfl
      · exact ih _ _ _
    · split
      · exact resolveStars_eq_walkFork (fun s m1 => ih s m1 exportName) _ _ _
      · rfl

theorem resolveExport_eq_walk (g : Modules n) (m : Fin n) (exportName : JSAtom) :
    resolveExport g m exportName =
      (walk (codeNode g) entryKey (depth g exportName) [] (m, exportName)).map Prod.fst := by
  rw [resolveExport, resolveExport1_eq_walk]

/-! ## The bound on the depth -/

/-- The names are those that are asked for on the way. -/
theorem localName_mem_names (h : (g x.1).findExportEntry x.2 = some (.indirect name exportName m))
    (k : JSAtom) : exportName ∈ names g k := by
  refine Finset.mem_insert_of_mem (Finset.mem_biUnion.mpr ⟨x.1, Finset.mem_univ _, ?_⟩)
  rw [List.mem_toFinset]
  refine List.mem_append_left _ (List.mem_map.mpr ⟨_, List.mem_of_find?_eq_some h, rfl⟩)

theorem importName_mem_names {mi : JSImportEntry n} {v : ℕ} (h : (g m).importOf v = some mi)
    (k : JSAtom) : mi.importName ∈ names g k := by
  refine Finset.mem_insert_of_mem (Finset.mem_biUnion.mpr ⟨m, Finset.mem_univ _, ?_⟩)
  rw [List.mem_toFinset]
  refine List.mem_append_right _ (List.mem_map.mpr ⟨_, List.mem_of_find?_eq_some h, rfl⟩)

theorem codeNode_next (k : JSAtom) (hx : x.2 ∈ names g k) (hy : y ∈ (codeNode g x).next) :
    y.2 ∈ names g k := by
  rw [codeNode] at hy
  split at hy
  · cases hy
  · rename_i hfind
    split at hy
    · cases hy
    · rw [List.mem_singleton.mp hy]
      exact localName_mem_names hfind k
  · split at hy
    · obtain ⟨m1, -, rfl⟩ := List.mem_map.mp hy
      exact hx
    · cases hy

theorem ecmaNode_next (k : JSAtom) (hx : x.2 ∈ names g k) (hy : y ∈ (ecmaNode g x).next) :
    y.2 ∈ names g k := by
  rw [ecmaNode] at hy
  split at hy
  · split at hy
    · cases hy
    · split at hy
      · rename_i himport
        rw [List.mem_singleton.mp hy]
        exact importName_mem_names himport k
      · cases hy
  · rename_i hfind
    split at hy
    · cases hy
    · rw [List.mem_singleton.mp hy]
      exact localName_mem_names hfind k
  · split at hy
    · obtain ⟨m1, -, rfl⟩ := List.mem_map.mp hy
      exact hx
    · cases hy

/-- The depth is enough for a walk that asks for these names only. -/
theorem ends_depth {α : Type} {node : Fin n × JSAtom → Node α (Fin n × JSAtom)}
    (hnext : ∀ x y, x.2 ∈ names g exportName → y ∈ (node x).next → y.2 ∈ names g exportName)
    (m : Fin n) : ∃ l s', ends node (depth g exportName) [] (m, exportName) = some (l, s') := by
  have hN : ∀ y ∈ (Finset.univ : Finset (Fin n)) ×ˢ names g exportName, ∀ z ∈ (node y).next,
      z ∈ (Finset.univ : Finset (Fin n)) ×ˢ names g exportName := by
    intro y hy z hz
    rw [Finset.mem_product] at *
    exact ⟨Finset.mem_univ _, hnext y z hy.2 hz⟩
  have hx : (m, exportName) ∈ (Finset.univ : Finset (Fin n)) ×ˢ names g exportName :=
    Finset.mem_product.mpr ⟨Finset.mem_univ _, Finset.mem_insert_self _ _⟩
  have hlt : left ((Finset.univ : Finset (Fin n)) ×ˢ names g exportName) [] < depth g exportName := by
    refine Nat.lt_succ_of_le ((Finset.card_filter_le _ _).trans ?_)
    rw [Finset.card_product, Finset.card_univ, Fintype.card_fin]
  obtain ⟨l, s', h, -⟩ := ends_isSome hN hx hlt
  exact ⟨l, s', h⟩

/-- The export entries that the export paths from a name end in, in the order of the walk. -/
def reachedEntries (g : Modules n) (m : Fin n) (exportName : JSAtom) : List (Fin n × JSExportEntry n) :=
  ((ends (codeNode g) (depth g exportName) [] (m, exportName)).map Prod.fst).getD []

/-- A path of the language ends in a binding. -/
def Reaches (g : Modules n) (x : Fin n × JSAtom) (b : Binding n) : Prop :=
  ∃ y, Relation.ReflTransGen (fun x y => y ∈ (ecmaNode g x).next) x y ∧ ecmaNode g y = .leaf b

/-- The code comes to an end, with the verdict about the entries that it reaches. -/
theorem resolveExport_judges (g : Modules n) (m : Fin n) (exportName : JSAtom) :
    ∃ r, resolveExport g m exportName = some r ∧ Judges entryKey r (reachedEntries g m exportName) := by
  obtain ⟨l, s', hl⟩ := ends_depth (fun x y => codeNode_next (g := g) exportName) m
  obtain ⟨r, t, hr, hj, -⟩ := walk_judges entryKey hl
  refine ⟨r, ?_, ?_⟩
  · rw [resolveExport_eq_walk, hr]
    rfl
  · rw [reachedEntries, hl]
    exact hj

theorem mem_reachedEntries_iff : me ∈ reachedEntries g m exportName ↔ ∃ y,
      Relation.ReflTransGen (fun x y => y ∈ (codeNode g x).next) (m, exportName) y ∧
        codeNode g y = .leaf me := by
  obtain ⟨l, s', hl⟩ := ends_depth (fun x y => codeNode_next (g := g) exportName) m
  rw [reachedEntries, hl]
  exact mem_ends_iff hl me

/-- A path of the code ends in an export entry. -/
def Exports (g : Modules n) (x : Fin n × JSAtom) (me : Fin n × JSExportEntry n) : Prop :=
  ∃ y, Relation.ReflTransGen (fun x y => y ∈ (codeNode g x).next) x y ∧ codeNode g y = .leaf me

/-- The code ends on cycles too. It finds an entry only at the end of a path, says that there is
none when no path ends, and that the name is ambiguous when two paths end in different entries. -/
theorem resolveExport_verdict (g : Modules n) (m : Fin n) (exportName : JSAtom) :
    ∃ r, resolveExport g m exportName = some r ∧
      (∀ me, r = .found me → Exports g (m, exportName) me) ∧
      (r = .notFound ∨ r = .circular ↔ ∀ me, ¬ Exports g (m, exportName) me) ∧
      (r = .ambiguous ↔ ∃ me me', Exports g (m, exportName) me ∧ Exports g (m, exportName) me' ∧
        entryKey me ≠ entryKey me') := by
  obtain ⟨r, hr, hj⟩ := resolveExport_judges g m exportName
  have hmem : ∀ me, me ∈ reachedEntries g m exportName ↔ Exports g (m, exportName) me :=
    fun me => mem_reachedEntries_iff
  refine ⟨r, hr, ?_⟩
  simp only [← hmem]
  cases r with
  | found me =>
    have hme := List.mem_of_mem_head? hj.1
    refine ⟨fun _ h => by cases h; exact hme, ?_, ?_⟩
    · exact iff_of_false (by simp) fun h => h me hme
    · exact iff_of_false (by simp) fun ⟨a, b, ha, hb, hne⟩ => hne (hj.2 a ha b hb)
  | notFound | circular =>
    have hnil : reachedEntries g m exportName = [] := hj
    rw [hnil]
    refine ⟨fun _ h => (by cases h), iff_of_true (by simp) fun _ => List.not_mem_nil, ?_⟩
    exact iff_of_false (by simp) fun ⟨_, _, ha, _⟩ => List.not_mem_nil ha
  | ambiguous =>
    refine ⟨fun _ h => (by cases h), iff_of_false (by simp) fun h => ?_, iff_of_true rfl ?_⟩
    · exact hj fun a ha => absurd ha (h a)
    · by_contra hno
      exact hj fun a ha b hb => by_contra fun hne => hno ⟨a, b, ha, hb, hne⟩

/-- The language has a result: the only binding that is reached, none, or more than one. -/
theorem ecmaResolve_judges (g : Modules n) (m : Fin n) (exportName : JSAtom) :
    ∃ r l, ecmaResolve g m exportName = some r ∧ Judges id r l ∧
      ∀ b, b ∈ l ↔ Reaches g (m, exportName) b := by
  obtain ⟨l, s', hl⟩ := ends_depth (fun x y => ecmaNode_next (g := g) exportName) m
  obtain ⟨r, t, hr, hj, -⟩ := walk_judges id hl
  refine ⟨r, l, ?_, hj, fun b => mem_ends_iff hl b⟩
  rw [ecmaResolve, hr]
  rfl

/-! ## The entries that are reached, and the bindings -/

/-- Where the code does not stop, it goes on like the language. -/
theorem codeNode_cases (g : Modules n) (x : Fin n × JSAtom) :
    (∃ e, codeNode g x = .leaf (x.1, e) ∧ e.exportName = x.2) ∨
      (codeNode g x).next = (ecmaNode g x).next ∧ (∀ me, codeNode g x ≠ .leaf me) ∧
        ∀ b, ecmaNode g x ≠ .leaf b := by
  cases hfind : (g x.1).findExportEntry x.2 with
  | some e =>
    have hname := JSModuleDef.exportName_of_findExportEntry hfind
    cases e with
    | «local» exportName localName varIdx =>
      exact .inl ⟨_, by rw [codeNode, hfind], hname⟩
    | indirect exportName localName m1 =>
      by_cases hstar : localName = atomStar
      · exact .inl ⟨_, by rw [codeNode, hfind]; exact if_pos hstar, hname⟩
      · simp only [codeNode, ecmaNode, hfind, if_neg hstar]
        exact .inr ⟨rfl, nofun, nofun⟩
  | none =>
    simp only [codeNode, ecmaNode, hfind]
    refine .inr ?_
    split <;> exact ⟨rfl, nofun, nofun⟩

/-- A binding is reached through an entry that the code stops at. -/
theorem exists_reachedEntry (h : Reaches g (m, exportName) b) :
    ∃ me ∈ reachedEntries g m exportName, Reaches g (me.1, me.2.exportName) b := by
  suffices hx : ∀ x, Reaches g x b → ∃ y me,
      Relation.ReflTransGen (fun x y => y ∈ (codeNode g x).next) x y ∧
        codeNode g y = .leaf me ∧ Reaches g (me.1, me.2.exportName) b by
    obtain ⟨y, me, hy, hl, hr⟩ := hx _ h
    exact ⟨me, mem_reachedEntries_iff.mpr ⟨y, hy, hl⟩, hr⟩
  rintro x ⟨y, hxy, hy⟩
  induction hxy using Relation.ReflTransGen.head_induction_on with
  | refl =>
    rcases codeNode_cases g y with ⟨e, he, hname⟩ | ⟨-, -, hno⟩
    · exact ⟨y, _, .refl, he, y, hname ▸ .refl, hy⟩
    · exact absurd hy (hno b)
  | head hxz hzy ih =>
    rename_i x z
    rcases codeNode_cases g x with ⟨e, he, hname⟩ | ⟨hnext, -⟩
    · exact ⟨x, _, .refl, he, y, hname ▸ .head hxz hzy, hy⟩
    · obtain ⟨u, me, hu, hl, hr⟩ := ih
      exact ⟨u, me, .head (hnext ▸ hxz) hu, hl, hr⟩

/-- What an entry that is reached is bound to is reached. -/
theorem Reaches.of_entry (hme : me ∈ reachedEntries g m exportName)
    (h : Reaches g (me.1, me.2.exportName) b) : Reaches g (m, exportName) b := by
  obtain ⟨y, hy, hl⟩ := mem_reachedEntries_iff.mp hme
  have hpath : Relation.ReflTransGen (fun x y => y ∈ (ecmaNode g x).next) (m, exportName) y := by
    refine Relation.ReflTransGen.mono (fun x z hz => ?_) _ _ hy
    rcases codeNode_cases g x with ⟨e, he, -⟩ | ⟨hnext, -⟩
    · rw [he] at hz
      cases hz
    · exact hnext ▸ hz
  have hentry : (me.1, me.2.exportName) = y := by
    rcases codeNode_cases g y with ⟨e, he, hname⟩ | ⟨-, hno, -⟩
    · rw [he] at hl
      cases hl
      exact Prod.ext rfl hname
    · exact absurd hl (hno me)
  obtain ⟨z, hz, hzl⟩ := hentry ▸ h
  exact ⟨z, hpath.trans hz, hzl⟩

/-- The export paths end nowhere; or all the entries that they end in are the same for the code, and
the first of them is bound to the only binding that is reached; or two entries differ for the code,
and two bindings are reached. -/
def EntriesTell (g : Modules n) (m : Fin n) (exportName : JSAtom) : Prop :=
  reachedEntries g m exportName = [] ∨ (Same entryKey (reachedEntries g m exportName) ∧
      ∃ me ∈ (reachedEntries g m exportName).head?, ∃ b, Reaches g (me.1, me.2.exportName) b ∧
        ∀ b', Reaches g (m, exportName) b' → b' = b) ∨
    (¬ Same entryKey (reachedEntries g m exportName) ∧
      ∃ b b', Reaches g (m, exportName) b ∧ Reaches g (m, exportName) b' ∧ b ≠ b')

/-- The language finds the only binding that is reached. -/
theorem ecmaResolve_eq_found_iff : ecmaResolve g m exportName = some (.found b) ↔
      Reaches g (m, exportName) b ∧ ∀ b', Reaches g (m, exportName) b' → b' = b := by
  obtain ⟨r, l, hr, hj, hl⟩ := ecmaResolve_judges g m exportName
  simp only [← hl, hr]
  cases r with
  | found a =>
    have ha := List.mem_of_mem_head? hj.1
    constructor
    · intro h
      cases h
      exact ⟨ha, fun b' hb' => hj.2 b' hb' _ ha⟩
    · intro h
      rw [h.2 a ha]
  | notFound | circular =>
    cases hj
    exact iff_of_false nofun fun h => List.not_mem_nil h.1
  | ambiguous => exact iff_of_false nofun fun h => hj fun a ha c hc => (h.2 a ha).trans (h.2 c hc).symm

theorem ecmaResolve_eq_ambiguous_iff : ecmaResolve g m exportName = some .ambiguous ↔
      ∃ b b', Reaches g (m, exportName) b ∧ Reaches g (m, exportName) b' ∧ b ≠ b' := by
  obtain ⟨r, l, hr, hj, hl⟩ := ecmaResolve_judges g m exportName
  simp only [← hl, hr]
  cases r with
  | found a => exact iff_of_false nofun fun ⟨b, b', hb, hb', hne⟩ => hne (hj.2 b hb b' hb')
  | notFound | circular =>
    cases hj
    exact iff_of_false nofun fun ⟨b, b', hb, _⟩ => List.not_mem_nil hb
  | ambiguous =>
    refine iff_of_true rfl ?_
    by_contra hno
    exact hj fun b hb b' hb' => by_contra fun hne => hno ⟨b, b', hb, hb', hne⟩

/-- The code resolves an export like the language if and only if the entries that it reaches tell
the bindings apart. -/
theorem resolvesRight_iff (g : Modules n) (m : Fin n) (exportName : JSAtom) :
    ResolvesRight g m exportName ↔ EntriesTell g m exportName := by
  obtain ⟨r, hr, hj⟩ := resolveExport_judges g m exportName
  obtain ⟨r', l, hr', hj', hl⟩ := ecmaResolve_judges g m exportName
  have hiff : ResolvesRight g m exportName ↔ Agree g r r' := by
    constructor
    · rintro ⟨q, q', hq, hq', h⟩
      rw [hr] at hq
      rw [hr'] at hq'
      cases hq
      cases hq'
      exact h
    · exact fun h => ⟨r, r', hr, hr', h⟩
  rw [hiff]
  have hfound (b : Binding n) : ecmaResolve g m exportName = some (.found b) ↔
      Reaches g (m, exportName) b ∧ ∀ b', Reaches g (m, exportName) b' → b' = b :=
    ecmaResolve_eq_found_iff
  have hambiguous : ecmaResolve g m exportName = some .ambiguous ↔ _ := ecmaResolve_eq_ambiguous_iff
  rw [hr'] at hambiguous
  simp only [hr', Option.some.injEq] at hfound
  cases r with
  | notFound | circular =>
    -- nothing is reached, so the language has no result either
    refine iff_of_true (.null (by simp) ?_) (.inl hj)
    have hnone : ∀ b, b ∉ l := fun b hb => by
      obtain ⟨me, hme, -⟩ := exists_reachedEntry ((hl b).mp hb)
      rw [hj] at hme
      cases hme
    cases r' with
    | found b => exact absurd (List.mem_of_mem_head? hj'.1) (hnone b)
    | notFound | circular => simp
    | ambiguous => exact absurd (fun b hb => absurd hb (hnone b)) hj'
  | found me =>
    obtain ⟨hhead, hsame⟩ := hj
    have hne : reachedEntries g m exportName ≠ [] := fun h => by
      rw [h] at hhead
      cases hhead
    constructor
    · intro h
      cases h with
      | null h => simp at h
      | found hb =>
        rename_i b
        obtain ⟨hreach, -⟩ := ecmaResolve_eq_found_iff.mp hb
        exact .inr (.inl ⟨hsame, me, hhead, b, hreach, ((hfound b).mp rfl).2⟩)
    · rintro (h | ⟨-, me', hme', b, hreach, honly⟩ | ⟨h, -⟩)
      · exact absurd h hne
      · rw [hhead] at hme'
        cases hme'
        have hme := List.mem_of_mem_head? hhead
        obtain rfl := (hfound b).mpr ⟨hreach.of_entry hme, honly⟩
        refine .found (ecmaResolve_eq_found_iff.mpr ⟨hreach, fun b' hb' => ?_⟩)
        exact honly b' (hb'.of_entry hme)
      · exact absurd hsame h
  | ambiguous =>
    have hne : reachedEntries g m exportName ≠ [] := fun h => by
      rw [h] at hj
      exact hj nofun
    constructor
    · intro h
      cases h with
      | null h => simp at h
      | ambiguous => exact .inr (.inr ⟨hj, hambiguous.mp rfl⟩)
    · rintro (h | ⟨h, -⟩ | ⟨-, h⟩)
      · exact absurd h hne
      · exact absurd h hj
      · cases hambiguous.mpr h
        exact .ambiguous

/-- `a` exports a variable, `b` imports and exports it, `c` exports it from `a`, and `d` exports all
of `b` and `c`. -/
def diamond : Modules 4 := ![
  ⟨[], [.local "x" "x" 0], [], [], false⟩,
  ⟨[0], [.local "x" "x" 0], [], [⟨0, "x", 0⟩], false⟩,
  ⟨[0], [.indirect "x" "x" 0], [], [], false⟩,
  ⟨[1, 2], [], [1, 2], [], false⟩]

/-- The two paths reach one variable, and the code finds the name ambiguous. -/
theorem diamond_not_resolvesRight : resolveExport diamond 3 "x" = some .ambiguous ∧
    ecmaResolve diamond 3 "x" = some (.found (.variable 0 0)) ∧ ¬ ResolvesRight diamond 3 "x" := by
  have hcode : resolveExport diamond 3 "x" = some .ambiguous := by decide +kernel
  have hecma : ecmaResolve diamond 3 "x" = some (.found (.variable 0 0)) := by decide +kernel
  refine ⟨hcode, hecma, ?_⟩
  rintro ⟨r, r', hr, hr', h⟩
  cases hr
  cases hr'
  cases h with
  | null h => simp at h

end QuickJs.Module
