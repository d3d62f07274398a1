import QuickJs.ExceptSim
import QuickJs.LinkModule

/-!
# What a link binds

The cells of a link follow the steps that are read from the module graph: a cell is there if its
variable is not imported, or has been bound by a step before. So the link follows a null pointer if
and only if a step takes the cell of an import that no step before it has bound.
-/

namespace QuickJs.Link

open QuickJs.Module Walk ExceptSim

variable {n : ℕ} {g : Modules n} {G : ModuleGraph n} {s s1 : Cells n} {m m1 m2 : Fin n} {i : ℕ}
  {mi : JSImportEntry n} {bound bound1 : List (Fin n × ℕ)} {steps : List (LinkStep n)}

/-! ## The steps -/

/-- Carry out steps on the imports that have been bound. -/
def runSteps (g : Modules n) : List (Fin n × ℕ) → List (LinkStep n) → Except LinkError (List (Fin n × ℕ))
  | bound, [] => .ok bound
  | _, .throws :: _ => .error .exception
  | bound, .uses xs :: steps =>
    if xs.all (boundExport g bound) then runSteps g bound steps else .error .nullDeref
  | bound, .binds m i _ :: steps => runSteps g ((m, i) :: bound) steps

theorem runSteps_append {steps1 : List (LinkStep n)} : runSteps g bound (steps ++ steps1) =
      runSteps g bound steps >>= fun bound => runSteps g bound steps1 := by
  induction steps generalizing bound with
  | nil => rfl
  | cons step steps ih =>
    cases step with
    | throws => rfl
    | uses xs =>
      rw [List.cons_append, runSteps, runSteps]
      split
      · exact ih
      · rfl
    | binds m i ns => exact ih

theorem boundFirst_iff : BoundFirst g bound steps ↔ runSteps g bound steps ≠ .error .nullDeref := by
  induction steps generalizing bound with
  | nil => exact iff_of_true trivial nofun
  | cons step steps ih =>
    cases step with
    | throws => exact iff_of_true trivial nofun
    | uses xs =>
      rw [BoundFirst, runSteps, ih, ← List.all_eq_true]
      split
      · rename_i h
        exact and_iff_right h
      · rename_i h
        exact iff_of_false (fun h1 => h h1.1) fun h1 => h1 rfl
    | binds m i ns => exact ih

/-- Steps that come to their end throw nothing, and bind what they bind. -/
theorem mem_of_runSteps (h : runSteps g bound steps = .ok bound1) :
    .throws ∉ steps ∧ ∀ p, p ∈ bound1 ↔ p ∈ bound ∨ ∃ ns, .binds p.1 p.2 ns ∈ steps := by
  induction steps generalizing bound with
  | nil =>
    cases h
    exact ⟨nofun, fun p => (or_iff_left fun ⟨_, h⟩ => nomatch h).symm⟩
  | cons step steps ih =>
    cases step with
    | throws => cases h
    | uses xs =>
      rw [runSteps] at h
      split at h
      · obtain ⟨hno, hmem⟩ := ih h
        refine ⟨fun hm => hno ((List.mem_cons.mp hm).resolve_left nofun), fun p => ?_⟩
        rw [hmem]
        simp
      · cases h
    | binds m i ns =>
      obtain ⟨hno, hmem⟩ := ih h
      refine ⟨fun hm => hno ((List.mem_cons.mp hm).resolve_left nofun), fun p => ?_⟩
      rw [hmem, List.mem_cons]
      constructor
      · rintro ((rfl | hp) | ⟨ns, hp⟩)
        · exact .inr ⟨ns, List.mem_cons_self⟩
        · exact .inl hp
        · exact .inr ⟨ns, List.mem_cons_of_mem _ hp⟩
      · rintro (hp | ⟨ns1, hp⟩)
        · exact .inl (.inr hp)
        · rcases List.mem_cons.mp hp with heq | hp
          · cases heq
            exact .inl (.inl rfl)
          · exact .inr ⟨ns1, hp⟩

theorem boundExport_mono {x : Fin n × JSExportEntry n} (hsub : bound ⊆ bound1)
    (h : boundExport g bound x = true) : boundExport g bound1 x = true := by
  obtain ⟨m, me⟩ := x
  cases me with
  | «local» e l i =>
    simp only [boundExport, Bool.or_eq_true, decide_eq_true_eq] at h ⊢
    exact h.imp_right fun hmem => hsub hmem
  | indirect => exact h

/-! ## Imports and exports of a graph -/

theorem importOf_eq_some_iff : (g m).importOf i = some mi → mi ∈ (g m).importEntries ∧
    mi.varIdx = i ∧ mi.importName ≠ atomStar := by
  intro h
  refine ⟨List.mem_of_find?_eq_some h, ?_⟩
  simpa using List.find?_some h

theorem ModuleGraph.varIdx_inj {mi1 : JSImportEntry n} (h : mi ∈ (G.modules m).importEntries)
    (h1 : mi1 ∈ (G.modules m).importEntries) (heq : mi.varIdx = mi1.varIdx) : mi = mi1 :=
  List.inj_on_of_nodup_map (G.varIdx_nodup m) h h1 heq

theorem ModuleGraph.importOf_of_mem (h : mi ∈ (G.modules m).importEntries)
    (hstar : mi.importName ≠ atomStar) : (G.modules m).importOf mi.varIdx = some mi := by
  cases hi : (G.modules m).importOf mi.varIdx with
  | none =>
    have hno := List.find?_eq_none.mp hi mi h
    simp [hstar] at hno
  | some mi1 =>
    obtain ⟨h1, heq, -⟩ := importOf_eq_some_iff hi
    rw [G.varIdx_inj h1 h heq]

theorem ModuleGraph.importOf_star (h : mi ∈ (G.modules m).importEntries)
    (hstar : mi.importName = atomStar) : (G.modules m).importOf mi.varIdx = none := by
  cases hi : (G.modules m).importOf mi.varIdx with
  | none => rfl
  | some mi1 =>
    obtain ⟨h1, heq, hne⟩ := importOf_eq_some_iff hi
    rw [G.varIdx_inj h1 h heq] at hne
    exact absurd hstar hne

/-- A set of modules with the modules that they request. -/
def Closed (g : Modules n) (v : Fin n → Bool) : Prop :=
  ∀ m, v m = true → ∀ m1 ∈ (g m).reqModules, v m1 = true

variable {y : Fin n × JSAtom} {e l : JSAtom} {b : Binding n}
  {f : (Fin n → Bool) → Fin n → (Fin n → Bool) × List (Fin n)}

theorem codeNode_mem {x : Fin n × JSAtom} (h : y ∈ (codeNode G.modules x).next) :
    y.1 ∈ (G.modules x.1).reqModules := by
  rw [codeNode] at h
  split at h
  · cases h
  · rename_i hfind
    split at h
    · cases h
    · rw [List.mem_singleton.mp h]
      exact G.requested_export _ _ _ _ (List.mem_of_find?_eq_some hfind)
  · split at h
    · obtain ⟨m1, hm1, rfl⟩ := List.mem_map.mp h
      exact G.requested_star _ m1 hm1
    · cases h

/-- The entry that a name resolves to is one of a module that is requested. -/
theorem created_of_found {v : Fin n → Bool} {name : JSAtom} {x : Fin n × JSExportEntry n}
    (hv : Closed G.modules v) (hm : v m = true)
    (h : resolveExport G.modules m name = some (.found x)) :
    v x.1 = true ∧ ∃ name1, (G.modules x.1).findExportEntry name1 = some x.2 := by
  obtain ⟨r, hr, hj⟩ := resolveExport_judges G.modules m name
  cases h.symm.trans hr
  have hmem : x ∈ reachedEntries G.modules m name := List.mem_of_mem_head? hj.1
  obtain ⟨y, hpath, hleaf⟩ := mem_reachedEntries_iff.mp hmem
  have hy : v y.1 = true := by
    clear hleaf
    induction hpath with
    | refl => exact hm
    | tail _ hstep ih => exact hv _ ih _ (codeNode_mem hstep)
  rw [codeNode] at hleaf
  split at hleaf
  · rename_i hfind
    cases hleaf
    exact ⟨hy, _, hfind⟩
  · rename_i hfind
    split at hleaf
    · cases hleaf
      exact ⟨hy, _, hfind⟩
    · cases hleaf
  · split at hleaf <;> cases hleaf

theorem exists_of_mapM {α β : Type} {f : α → Option β} {xs : List α} {ys : List β}
    (h : xs.mapM f = some ys) : ∀ y ∈ ys, ∃ x ∈ xs, f x = some y := by
  induction xs generalizing ys with
  | nil =>
    cases h
    exact nofun
  | cons x xs ih =>
    rw [List.mapM_cons] at h
    obtain ⟨y, hy, h⟩ := Option.bind_eq_some_iff.mp h
    obtain ⟨ys1, hys1, h⟩ := Option.bind_eq_some_iff.mp h
    cases h
    refine List.forall_mem_cons.mpr ⟨⟨x, List.mem_cons_self, hy⟩, fun z hz => ?_⟩
    obtain ⟨w, hw, hwz⟩ := ih hys1 z hz
    exact ⟨w, List.mem_cons_of_mem _ hw, hwz⟩

theorem created_of_namespaceEntries {v : Fin n → Bool} {xs : List (Fin n × JSExportEntry n)}
    (hv : Closed G.modules v) (hm : v m = true) (h : namespaceEntries G.modules m = some xs) :
    ∀ x ∈ xs, v x.1 = true := by
  rw [namespaceEntries, Option.map_eq_some_iff] at h
  obtain ⟨ys, hys, rfl⟩ := h
  intro x hx
  obtain ⟨y, hy, rfl⟩ := List.mem_filterMap.mp hx
  obtain ⟨en, -, hen⟩ := exists_of_mapM hys _ hy
  unfold resolveExportedName at hen
  split at hen
  · cases hen
    exact hm
  · split at hen
    · cases hen
    · rename_i hfound
      cases hen
      exact (created_of_found hv hm hfound).1
    · cases hen
    · cases hen

/-! ## What the cells are -/

/-- An import of a module that resolves to an exported namespace. -/
def DirectNs (g : Modules n) (m : Fin n) (i : ℕ) (m2 : Fin n) : Prop :=
  ∃ mi m1 e l, (g m).importOf i = some mi ∧
    resolveExport g mi.module mi.importName = some (.found (m1, .indirect e l m2))

theorem DirectNs.unique {m3 : Fin n} (h : DirectNs g m i m2) (h1 : DirectNs g m i m3) : m2 = m3 := by
  obtain ⟨mi, x, e, l, hi, hx⟩ := h
  obtain ⟨mi1, x1, e1, l1, hi1, hx1⟩ := h1
  cases hi.symm.trans hi1
  cases hx.symm.trans hx1
  rfl

/-- The binding of a variable of a module. -/
def VarDenotes (g : Modules n) (m : Fin n) (i : ℕ) (b : Binding n) : Prop :=
  match (g m).importOf i with
  | none => b = .variable m i
  | some mi => Denotes g (mi.module, mi.importName) b

theorem Denotes.local {x : Fin n × JSAtom}
    (hfound : resolveExport g x.1 x.2 = some (.found (m, .local e l i)))
    (hjs : (g m).isCModule = false) (h : VarDenotes g m i b) : Denotes g x b := by
  rw [VarDenotes] at h
  split at h
  · rename_i hown
    subst h
    exact .own hfound hjs hown
  · rename_i mi himport
    exact .imported hfound hjs himport h

/-- The cell of a binding, whatever it holds. -/
def CellOf (g : Modules n) (c : Cell n) : Binding n → Prop
  | .variable m i => c = .variable m i
  | .native m e => ∃ me, (g m).findExportEntry e = some me ∧ c = .native m me
  | .namespace m2 => ∃ m i, c = .namespace m i ∧ DirectNs g m i m2

/-- The cells after some imports have been bound. -/
structure Tracks (g : Modules n) (s : Cells n) (bound : List (Fin n × ℕ)) : Prop where
  created : ∀ m i, (m, i) ∈ bound → s.funcCreated m = true
  own : ∀ m i, s.funcCreated m = true → (g m).isCModule = false → (g m).importOf i = none →
    s.varRefs m i = some (.variable m i)
  imported : ∀ m i, (g m).importOf i ≠ none → ((s.varRefs m i).isSome = true ↔ (m, i) ∈ bound)
  denotes : ∀ m i c, s.varRefs m i = some c → ∃ b, VarDenotes g m i b ∧ CellOf g c b
  namespaceBound : ∀ m i m1 i1, s.varRefs m i = some (.namespace m1 i1) → (m1, i1) ∈ bound
  namespaceValue : ∀ m i m2, (m, i) ∈ bound → DirectNs g m i m2 →
    s.varRefs m i = some (.namespace m i) ∧ s.value (.namespace m i) = some m2
  starValue : ∀ m, ∀ mi ∈ (g m).importEntries, mi.importName = atomStar → (m, mi.varIdx) ∈ bound →
    s.value (.variable m mi.varIdx) = some mi.module
  exportRefs : ∀ m me c, (g m).isCModule = false → s.exportRefs m me = some c →
    ∃ e l i, me = .local e l i ∧ s.varRefs m i = some c
  native : ∀ m me, s.funcCreated m = true → (g m).isCModule = true → s.exportRefs m me = match me with
      | .local _ _ _ => some (.native m me)
      | .indirect _ _ _ => none
  moduleNs : ∀ m, s.moduleNs m = true → ∃ xs, namespaceEntries g m = some xs ∧
    ∀ x ∈ xs, boundExport g bound x = true

theorem tracks_initial : Tracks g LinkState.initial.toCells [] where
  created := nofun
  own := nofun
  imported _ _ _ := iff_of_false nofun nofun
  denotes := nofun
  namespaceBound := nofun
  namespaceValue := nofun
  starValue := nofun
  exportRefs := nofun
  native := nofun
  moduleNs := nofun

variable {x : Fin n × JSExportEntry n} {c : Cell n}

section

variable (h : Tracks g s bound) (hx : s.funcCreated x.1 = true)

include h hx

/-- The cell of an export is there if and only if its variable has been bound. -/
theorem Tracks.exportCell_isSome :
    (s.exportCell x).isSome = boundExport g bound x := by
  obtain ⟨m, me⟩ := x
  cases hc : (g m).isCModule with
  | true =>
    rw [Cells.exportCell, h.native m me hx hc]
    cases me with
    | «local» e l i => simp [boundExport, hc]
    | indirect => rfl
  | false =>
    have hvar (i : ℕ) : (s.varRefs m i).isSome = (((g m).importOf i).isNone || decide ((m, i) ∈ bound)) := by
      cases hi : (g m).importOf i with
      | none =>
        rw [h.own m i hx hc hi]
        rfl
      | some mi =>
        rw [Option.isNone_some, Bool.false_or, Bool.eq_iff_iff, decide_eq_true_eq]
        exact h.imported m i (by rw [hi]; nofun)
    cases href : s.exportRefs m me with
    | some c =>
      obtain ⟨e, l, i, rfl, hi⟩ := h.exportRefs m me c hc href
      have hsome := hvar i
      rw [hi] at hsome
      simp only [Cells.exportCell, href, boundExport, hc]
      exact hsome
    | none =>
      cases me with
      | «local» e l i =>
        simp only [Cells.exportCell, href, boundExport, hc]
        exact hvar i
      | indirect => simp only [Cells.exportCell, href]; rfl

/-- The cell of an export is one of a C module, or the one of its variable. -/
theorem Tracks.exportCell_cases
    (hc : s.exportCell x = some c) : ∃ e l i, x.2 = .local e l i ∧
      ((g x.1).isCModule = true ∧ c = .native x.1 x.2 ∨
        (g x.1).isCModule = false ∧ s.varRefs x.1 i = some c) := by
  obtain ⟨m, me⟩ := x
  cases hjs : (g m).isCModule with
  | true =>
    rw [Cells.exportCell, h.native m me hx hjs] at hc
    cases me with
    | «local» e l i =>
      cases hc
      exact ⟨e, l, i, rfl, .inl ⟨rfl, rfl⟩⟩
    | indirect => cases hc
  | false =>
    cases href : s.exportRefs m me with
    | some c1 =>
      simp only [Cells.exportCell, href, Option.some.injEq] at hc
      subst hc
      obtain ⟨e, l, i, hme, hi⟩ := h.exportRefs m me c1 hjs href
      exact ⟨e, l, i, hme, .inr ⟨rfl, hi⟩⟩
    | none =>
      cases me with
      | «local» e l i =>
        simp only [Cells.exportCell, href] at hc
        exact ⟨e, l, i, rfl, .inr ⟨rfl, hc⟩⟩
      | indirect =>
        simp only [Cells.exportCell, href] at hc
        cases hc

/-- The cell of an export that a name resolves to is the one of its binding. -/
theorem Tracks.exportCell_denotes
    (hname : ∃ name, (g x.1).findExportEntry name = some x.2)
    (hfound : resolveExport g y.1 y.2 = some (.found x)) (hc : s.exportCell x = some c) :
    ∃ b, Denotes g y b ∧ CellOf g c b := by
  obtain ⟨e, l, i, hme, ⟨hjs, rfl⟩ | ⟨hjs, hi⟩⟩ := h.exportCell_cases hx hc
  · obtain ⟨m, me⟩ := x
    subst hme
    obtain ⟨name, hname⟩ := hname
    have heq : e = name := JSModuleDef.exportName_of_findExportEntry hname
    subst heq
    exact ⟨_, .native hfound hjs, _, hname, rfl⟩
  · obtain ⟨m, me⟩ := x
    subst hme
    obtain ⟨b, hb, hcell⟩ := h.denotes m i c hi
    exact ⟨b, .local hfound hjs hb, hcell⟩

end

/-! ## The steps of a module -/

theorem setVarRef_varRefs {m1 : Fin n} {j : ℕ} : (s.setVarRef m i c).varRefs m1 j =
    if m1 = m ∧ j = i then some c else s.varRefs m1 j := by
  by_cases hm : m1 = m
  · subst hm
    simp [Cells.setVarRef, Function.update_apply]
  · rw [if_neg fun h => hm h.1]
    exact congrFun (Function.update_of_ne hm ..) j

theorem setValue_value {c1 : Cell n} : (s.setValue c m).value c1 = if c1 = c then some m else s.value c1 :=
  Function.update_apply ..

/-- An import gets its cell. -/
theorem Tracks.bind (h : Tracks G.modules s bound) (hm : s.funcCreated m = true)
    (hi : (G.modules m).importOf i ≠ none) (hfresh : ∀ me, s.exportRefs m me = none)
    (hb : ∃ b, VarDenotes G.modules m i b ∧ CellOf G.modules c b)
    (hns : ∀ m1 i1, c = .namespace m1 i1 → (m1, i1) ∈ (m, i) :: bound)
    (hdirect : ∀ m2, DirectNs G.modules m i m2 → c = .namespace m i ∧ s.value (.namespace m i) = some m2) :
    Tracks G.modules (s.setVarRef m i c) ((m, i) :: bound) where
  created m1 j hj := by
    rcases List.mem_cons.mp hj with heq | hj
    · cases heq
      exact hm
    · exact h.created m1 j hj
  own m1 j hm1 hjs hown := by
    rw [setVarRef_varRefs, if_neg]
    · exact h.own m1 j hm1 hjs hown
    · rintro ⟨rfl, rfl⟩
      exact hi hown
  imported m1 j hj := by
    rw [setVarRef_varRefs, List.mem_cons, Prod.mk.injEq]
    split
    · rename_i heq
      exact iff_of_true rfl (.inl heq)
    · rename_i hne
      rw [h.imported m1 j hj, or_iff_right hne]
  denotes m1 j c1 hc1 := by
    rw [setVarRef_varRefs] at hc1
    split at hc1
    · rename_i heq
      obtain ⟨rfl, rfl⟩ := heq
      cases hc1
      exact hb
    · exact h.denotes m1 j c1 hc1
  namespaceBound m1 j m2 i2 hc := by
    rw [setVarRef_varRefs] at hc
    split at hc
    · exact hns m2 i2 (Option.some.inj hc)
    · exact List.mem_cons_of_mem _ (h.namespaceBound m1 j m2 i2 hc)
  namespaceValue m1 j m2 hj hd := by
    rw [setVarRef_varRefs]
    split
    · rename_i heq
      obtain ⟨rfl, rfl⟩ := heq
      obtain ⟨rfl, hvalue⟩ := hdirect m2 hd
      exact ⟨rfl, hvalue⟩
    · rename_i hne
      refine h.namespaceValue m1 j m2 ((List.mem_cons.mp hj).resolve_left fun heq => hne ?_) hd
      cases heq
      exact ⟨rfl, rfl⟩
  starValue m1 mi hmi hstar hj := by
    refine h.starValue m1 mi hmi hstar ((List.mem_cons.mp hj).resolve_left fun heq => hi ?_)
    cases heq
    exact G.importOf_star hmi hstar
  exportRefs m1 me c1 hjs hc1 := by
    by_cases heq : m1 = m
    · subst heq
      cases (hfresh me).symm.trans hc1
    · obtain ⟨e, l, j, rfl, hj⟩ := h.exportRefs m1 me c1 hjs hc1
      refine ⟨e, l, j, rfl, ?_⟩
      rw [setVarRef_varRefs, if_neg fun h1 => heq h1.1]
      exact hj
  native := h.native
  moduleNs m1 hm1 := by
    obtain ⟨xs, hxs, hall⟩ := h.moduleNs m1 hm1
    exact ⟨xs, hxs, fun x hx => boundExport_mono (List.subset_cons_self ..) (hall x hx)⟩

/-- An import of a namespace gets its value, or the cell of one its namespace. -/
theorem Tracks.setValue (h : Tracks g s bound)
    (hns : ∀ m1 i1 m3, c = .namespace m1 i1 → DirectNs g m1 i1 m3 → m3 = m2)
    (hstar : ∀ m1, ∀ mi ∈ (g m1).importEntries, mi.importName = atomStar →
      c = .variable m1 mi.varIdx → mi.module = m2) : Tracks g (s.setValue c m2) bound where
  created := h.created
  own := h.own
  imported := h.imported
  denotes := h.denotes
  namespaceBound := h.namespaceBound
  namespaceValue m1 i1 m3 hmem hd := by
    obtain ⟨hvar, hvalue⟩ := h.namespaceValue m1 i1 m3 hmem hd
    refine ⟨hvar, ?_⟩
    rw [setValue_value]
    split
    · rename_i heq
      rw [hns m1 i1 m3 heq.symm hd]
    · exact hvalue
  starValue m1 mi hmi hs hmem := by
    rw [setValue_value]
    split
    · rename_i heq
      rw [hstar m1 mi hmi hs heq.symm]
    · exact h.starValue m1 mi hmi hs hmem
  exportRefs := h.exportRefs
  native := h.native
  moduleNs := h.moduleNs

/-- A variable that is not imported is counted as bound. -/
theorem Tracks.bindStar (h : Tracks g s bound) (hm : s.funcCreated m = true) (hown : (g m).importOf i = none)
    (hstar : ∀ mi ∈ (g m).importEntries, mi.importName = atomStar → mi.varIdx = i →
      s.value (.variable m i) = some mi.module) : Tracks g s ((m, i) :: bound) where
  created m1 j hj := by
    rcases List.mem_cons.mp hj with heq | hj
    · cases heq
      exact hm
    · exact h.created m1 j hj
  own := h.own
  imported m1 j hj := by
    rw [h.imported m1 j hj, List.mem_cons, or_iff_right]
    intro heq
    cases heq
    exact hj hown
  denotes := h.denotes
  namespaceBound m1 j m2 i2 hc := List.mem_cons_of_mem _ (h.namespaceBound m1 j m2 i2 hc)
  namespaceValue m1 j m2 hj hd := by
    refine h.namespaceValue m1 j m2 ((List.mem_cons.mp hj).resolve_left fun heq => ?_) hd
    cases heq
    obtain ⟨mi, -, -, -, hi, -⟩ := hd
    cases hown.symm.trans hi
  starValue m1 mi hmi hs hj := by
    rcases List.mem_cons.mp hj with heq | hj
    · obtain ⟨rfl, rfl⟩ := Prod.mk.injEq .. ▸ heq
      exact hstar mi hmi hs rfl
    · exact h.starValue m1 mi hmi hs hj
  exportRefs := h.exportRefs
  native := h.native
  moduleNs m1 hm1 := by
    obtain ⟨xs, hxs, hall⟩ := h.moduleNs m1 hm1
    exact ⟨xs, hxs, fun x hx => boundExport_mono (List.subset_cons_self ..) (hall x hx)⟩

/-- What the steps of a module leave as it is. -/
structure Frames (s s1 : Cells n) : Prop where
  funcCreated : s1.funcCreated = s.funcCreated
  exportRefs : s1.exportRefs = s.exportRefs

theorem Frames.trans {s2 : Cells n} (h : Frames s s1) (h1 : Frames s1 s2) : Frames s s2 :=
  ⟨h1.funcCreated.trans h.funcCreated, h1.exportRefs.trans h.exportRefs⟩

theorem sim_getModuleNs (h : Tracks G.modules s bound) (hv : Closed G.modules s.funcCreated)
    (hm : s.funcCreated m2 = true) :
    Sim (fun s1 bound1 => Tracks G.modules s1 bound1 ∧ Frames s s1 ∧ bound1 = bound)
      (s.getModuleNs G.modules m2) (runSteps G.modules bound (namespaceSteps G.modules m2)) := by
  rw [Cells.getModuleNs, namespaceSteps]
  split
  · rename_i hbuilt
    obtain ⟨xs, hxs, hall⟩ := h.moduleNs m2 hbuilt
    simp only [hxs, runSteps, List.all_eq_true.mpr hall]
    exact .ok ⟨h, ⟨rfl, rfl⟩, rfl⟩
  · cases hxs : namespaceEntries G.modules m2 with
    | none => exact .error _
    | some xs =>
      have hcells : xs.all (fun x => (s.exportCell x).isSome) = xs.all (boundExport G.modules bound) := by
        rw [Bool.eq_iff_iff, List.all_eq_true, List.all_eq_true]
        refine forall₂_congr fun x hx => ?_
        rw [h.exportCell_isSome (created_of_namespaceEntries hv hm hxs x hx)]
      simp only [runSteps, hcells]
      split
      · rename_i hall
        refine .ok ⟨{ h with moduleNs := fun m1 hm1 => ?_ }, ⟨rfl, rfl⟩, rfl⟩
        by_cases heq : m1 = m2
        · subst heq
          exact ⟨xs, hxs, List.all_eq_true.mp hall⟩
        · refine h.moduleNs m1 ?_
          exact (Function.update_of_ne heq ..).symm.trans hm1
      · exact .error _

theorem mem_reqModules_of_mem (hmi : mi ∈ (G.modules m).importEntries) {v : Fin n → Bool}
    (hv : Closed G.modules v) (hm : v m = true) : v mi.module = true :=
  hv m hm _ (G.requested_import m mi hmi)

theorem ModuleGraph.directNs_of_mem {m1 : Fin n}
    (hmi : mi ∈ (G.modules m).importEntries) (hstar : mi.importName ≠ atomStar)
    (hfound : resolveExport G.modules mi.module mi.importName = some (.found (m1, .indirect e l m2))) :
    DirectNs G.modules m mi.varIdx m2 :=
  ⟨mi, m1, e, l, G.importOf_of_mem hmi hstar, hfound⟩

theorem varDenotes_of_mem (hmi : mi ∈ (G.modules m).importEntries)
    (hstar : mi.importName ≠ atomStar) (hb : Denotes G.modules (mi.module, mi.importName) b) :
    VarDenotes G.modules m mi.varIdx b := by
  rw [VarDenotes, G.importOf_of_mem hmi hstar]
  exact hb

theorem sim_bindImport (h : Tracks G.modules s bound) (hv : Closed G.modules s.funcCreated)
    (hm : s.funcCreated m = true) (hjs : (G.modules m).isCModule = false)
    (hfresh : ∀ me, s.exportRefs m me = none) (hmi : mi ∈ (G.modules m).importEntries) :
    Sim (fun s1 bound1 => Tracks G.modules s1 bound1 ∧ Frames s s1 ∧ bound1 = (m, mi.varIdx) :: bound)
      (s.bindImport G.modules m mi) (runSteps G.modules bound (importSteps G.modules m mi)) := by
  have hm1 : s.funcCreated mi.module = true := mem_reqModules_of_mem hmi hv hm
  rw [Cells.bindImport, importSteps]
  split
  · rename_i hstar
    rw [runSteps_append]
    refine (sim_getModuleNs h hv hm1).bind ?_
    rintro s1 _ ⟨h1, hf, rfl⟩
    have hown := G.importOf_star hmi hstar
    have hm' : s1.funcCreated m = true := hf.funcCreated.symm ▸ hm
    rw [h1.own m mi.varIdx hm' hjs hown]
    have hone {m3 : Fin n} {mi1 : JSImportEntry n} (hmi1 : mi1 ∈ (G.modules m3).importEntries)
        (heq : Cell.variable m mi.varIdx = .variable m3 mi1.varIdx) : mi1.module = mi.module := by
      obtain ⟨rfl, hidx⟩ := Cell.variable.injEq .. ▸ heq
      rw [G.varIdx_inj hmi1 hmi hidx.symm]
    refine .ok ⟨?_, ⟨hf.funcCreated, hf.exportRefs⟩, rfl⟩
    have h2 : Tracks G.modules (s1.setValue (.variable m mi.varIdx) mi.module) _ :=
      h1.setValue (fun _ _ _ heq => by cases heq) fun m3 mi1 hmi1 _ heq => hone hmi1 heq
    refine h2.bindStar hm' hown fun mi1 hmi1 _ hidx => ?_
    rw [setValue_value, if_pos rfl, G.varIdx_inj hmi1 hmi hidx]
  · rename_i hstar
    have himport : (G.modules m).importOf mi.varIdx ≠ none := by
      rw [G.importOf_of_mem hmi hstar]
      nofun
    split
    · rename_i m3 e l m2 hfound
      have hdirect := G.directNs_of_mem hmi hstar hfound
      rw [runSteps_append]
      have hm2 : s.funcCreated m2 = true := by
        obtain ⟨hm3, name, hname⟩ := created_of_found hv hm1 hfound
        exact hv m3 hm3 _ (G.requested_export _ _ _ _ (List.mem_of_find?_eq_some hname))
      refine (sim_getModuleNs h hv hm2).bind ?_
      rintro s1 _ ⟨h1, hf, rfl⟩
      refine .ok ⟨?_, ⟨hf.funcCreated, hf.exportRefs⟩, rfl⟩
      refine (h1.setValue ?_ fun _ _ _ _ heq => by cases heq).bind (hf.funcCreated.symm ▸ hm) himport
        (fun me => (congrFun (congrFun hf.exportRefs m) me).trans (hfresh me)) ?_ ?_ ?_
      · intro m4 i4 m5 heq hd
        obtain ⟨rfl, rfl⟩ := Cell.namespace.injEq .. ▸ heq
        exact hd.unique hdirect
      · exact ⟨.namespace m2, varDenotes_of_mem hmi hstar (.namespace hfound), m, mi.varIdx, rfl, hdirect⟩
      · intro m4 i4 heq
        obtain ⟨rfl, rfl⟩ := Cell.namespace.injEq .. ▸ heq
        exact List.mem_cons_self
      · intro m4 hd
        rw [hd.unique hdirect, setValue_value, if_pos rfl]
        exact ⟨rfl, rfl⟩
    · rename_i x hno hfound
      obtain ⟨hx, hname⟩ := created_of_found hv hm1 hfound
      have hcell := h.exportCell_isSome hx
      simp only [runSteps, List.all_cons, ← hcell]
      cases hc : s.exportCell x with
      | none => exact .error _
      | some c =>
        obtain ⟨b, hb, hcb⟩ := h.exportCell_denotes (y := (mi.module, mi.importName)) hx hname hfound hc
        refine .ok ⟨h.bind hm himport hfresh ⟨b, varDenotes_of_mem hmi hstar hb, hcb⟩ ?_ ?_, ⟨rfl, rfl⟩, rfl⟩
        · rintro m4 i4 rfl
          obtain ⟨_, _, j, _, ⟨_, heq⟩ | ⟨_, hj⟩⟩ := h.exportCell_cases hx hc
          · cases heq
          · exact List.mem_cons_of_mem _ (h.namespaceBound _ j m4 i4 hj)
        · rintro m4 ⟨mi1, m5, e, l, hi1, hfound1⟩
          cases hi1.symm.trans (G.importOf_of_mem hmi hstar)
          cases hfound.symm.trans hfound1
          exact absurd rfl (hno _ _ _ _)
    · exact .error _

/-- The imports of a module are bound one after the other. -/
theorem sim_bindImports (hjs : (G.modules m).isCModule = false) {mis : List (JSImportEntry n)}
    (hmis : ∀ mi ∈ mis, mi ∈ (G.modules m).importEntries) (h : Tracks G.modules s bound)
    (hv : Closed G.modules s.funcCreated) (hm : s.funcCreated m = true)
    (hfresh : ∀ me, s.exportRefs m me = none) :
    Sim (fun s1 bound1 => Tracks G.modules s1 bound1 ∧ Frames s s1 ∧ bound ⊆ bound1 ∧
        ∀ mi ∈ mis, (m, mi.varIdx) ∈ bound1)
      (mis.foldlM (Cells.bindImport G.modules m) s)
      (runSteps G.modules bound (mis.flatMap (importSteps G.modules m))) := by
  induction mis generalizing s bound with
  | nil => exact .ok ⟨h, ⟨rfl, rfl⟩, List.Subset.refl _, nofun⟩
  | cons mi mis ih =>
    obtain ⟨hmi, hmis⟩ := List.forall_mem_cons.mp hmis
    rw [List.flatMap_cons, runSteps_append]
    refine (sim_bindImport h hv hm hjs hfresh hmi).bind ?_
    rintro s1 _ ⟨h1, hf, rfl⟩
    refine (ih hmis h1 (hf.funcCreated.symm ▸ hv) (hf.funcCreated.symm ▸ hm) fun me => ?_).mono ?_
    · rw [hf.exportRefs]
      exact hfresh me
    · rintro s2 bound2 ⟨h2, hf2, hsub, hall⟩
      refine ⟨h2, hf.trans hf2, fun p hp => hsub (List.mem_cons_of_mem _ hp), ?_⟩
      exact List.forall_mem_cons.mpr ⟨hsub List.mem_cons_self, hall⟩

section

variable (h : Tracks G.modules s bound) (hm : s.funcCreated m = true) (hjs : (G.modules m).isCModule = false) (hall : ∀ mi ∈ (G.modules m).importEntries, (m, mi.varIdx) ∈ bound)

include h hm hjs hall

theorem keepExport_ok {me : JSExportEntry n}
    :
    ∃ s1, s.keepExport m me = .ok s1 ∧ Tracks G.modules s1 bound ∧
      s1.funcCreated = s.funcCreated ∧ ∀ m1, m1 ≠ m → s1.exportRefs m1 = s.exportRefs m1 := by
  cases me with
  | indirect => exact ⟨s, rfl, h, rfl, fun _ _ => rfl⟩
  | «local» e l i =>
    have hsome : (s.varRefs m i).isSome = true := by
      cases hi : (G.modules m).importOf i with
      | none =>
        rw [h.own m i hm hjs hi]
        rfl
      | some mi =>
        obtain ⟨hmi, rfl, -⟩ := importOf_eq_some_iff hi
        exact (h.imported m mi.varIdx (by rw [hi]; nofun)).mpr (hall mi hmi)
    obtain ⟨c, hc⟩ := Option.isSome_iff_exists.mp hsome
    rw [Cells.keepExport]
    simp only [hc]
    refine ⟨_, rfl, ?_, rfl, fun m1 hm1 => Function.update_of_ne hm1 ..⟩
    refine { h with exportRefs := fun m1 me1 c1 hjs1 hc1 => ?_, native := fun m1 me1 hm1 hc1 => ?_ }
    · by_cases heq : m1 = m
      · subst heq
        simp only [Function.update_self, Function.update_apply] at hc1
        split at hc1
        · rename_i heq
          cases hc1
          exact ⟨e, l, i, heq, hc⟩
        · exact h.exportRefs m1 me1 c1 hjs1 hc1
      · simp only [Function.update_of_ne heq] at hc1
        exact h.exportRefs m1 me1 c1 hjs1 hc1
    · have hne : m1 ≠ m := by
        rintro rfl
        cases hjs.symm.trans hc1
      simp only [Function.update_of_ne hne]
      exact h.native m1 me1 hm1 hc1

theorem keepExports_ok {mes : List (JSExportEntry n)}
    :
    ∃ s1, mes.foldlM (Cells.keepExport m) s = .ok s1 ∧ Tracks G.modules s1 bound ∧
      s1.funcCreated = s.funcCreated ∧ ∀ m1, m1 ≠ m → s1.exportRefs m1 = s.exportRefs m1 := by
  induction mes generalizing s with
  | nil => exact ⟨s, rfl, h, rfl, fun _ _ => rfl⟩
  | cons me mes ih =>
    obtain ⟨s1, hs1, h1, hf1, he1⟩ := keepExport_ok h hm hjs hall
    obtain ⟨s2, hs2, h2, hf2, he2⟩ := ih h1 (hf1.symm ▸ hm)
    refine ⟨s2, ?_, h2, hf2.trans hf1, fun m1 hm1 => (he2 m1 hm1).trans (he1 m1 hm1)⟩
    rw [List.foldlM_cons, hs1]
    exact hs2

end

/-- After a module has been linked its imports are bound. -/
theorem sim_instantiate (h : Tracks G.modules s bound) (hv : Closed G.modules s.funcCreated)
    (hm : s.funcCreated m = true)
    (hfresh : (G.modules m).isCModule = false → ∀ me, s.exportRefs m me = none) :
    Sim (fun s1 bound1 => Tracks G.modules s1 bound1 ∧ s1.funcCreated = s.funcCreated ∧
        (∀ m1, m1 ≠ m → s1.exportRefs m1 = s.exportRefs m1) ∧ bound ⊆ bound1 ∧
        ((G.modules m).isCModule = false → ∀ mi ∈ (G.modules m).importEntries, (m, mi.varIdx) ∈ bound1))
      (s.instantiate G.modules m) (runSteps G.modules bound (moduleSteps G.modules m)) := by
  rw [Cells.instantiate, moduleSteps]
  split
  · exact .error _
  split
  · rename_i hc
    refine .ok ⟨h, rfl, fun _ _ => rfl, List.Subset.refl _, fun hjs => ?_⟩
    cases hc.symm.trans hjs
  · rename_i hjs
    rw [Bool.not_eq_true] at hjs
    refine (sim_bindImports hjs (fun _ => id) h hv hm (hfresh hjs)).bind_left ?_
    rintro s1 bound1 ⟨h1, hf, hsub, hall⟩
    obtain ⟨s2, hs2, h2, hf2, he2⟩ := keepExports_ok h1 (hf.funcCreated.symm ▸ hm) hjs hall
    rw [hs2]
    refine .ok ⟨h2, hf2.trans hf.funcCreated, fun m1 hm1 => ?_, hsub, fun _ => hall⟩
    rw [he2 m1 hm1, hf.exportRefs]

/-! ## The order -/

variable {v w : Fin n → Bool} {ms : List (Fin n)} {fuel : ℕ}

/-- What a visit of modules marks. -/
structure Visits (g : Modules n) (v : Fin n → Bool) (ms : List (Fin n))
    (r : (Fin n → Bool) × List (Fin n)) : Prop where
  /-- the modules of the list are the ones that are marked -/
  marked : ∀ m, r.1 m = true ↔ v m = true ∨ m ∈ r.2
  /-- they are requested by the modules that the visit starts at -/
  reached : ∀ w, Closed g w → (∀ m ∈ ms, w m = true) → ∀ m ∈ r.2, w m = true

theorem Visits.mono {r : (Fin n → Bool) × List (Fin n)} (h : Visits g v ms r) (hm : v m = true) :
    r.1 m = true := (h.marked m).mpr (.inl hm)

theorem visits_orderAll
    (hf : ∀ v m, Visits g v [m] (f v m)) : Visits g v ms (orderAll f v ms) := by
  induction ms generalizing v with
  | nil => exact ⟨fun m => (or_iff_left nofun).symm, fun _ _ _ => nofun⟩
  | cons m ms ih =>
    have h := hf v m
    have h1 := ih (v := (f v m).1)
    refine ⟨fun m1 => ?_, fun w hw hms => ?_⟩
    · rw [orderAll, h1.marked, h.marked, List.mem_append, or_assoc]
    · obtain ⟨hm, hms⟩ := List.forall_mem_cons.mp hms
      exact List.forall_mem_append.mpr ⟨h.reached w hw (List.forall_mem_singleton.mpr hm),
        h1.reached w hw hms⟩

theorem visits_linkOrder : Visits g v [m] (linkOrder g fuel v m) := by
  induction fuel generalizing v m with
  | zero => exact ⟨fun m => (or_iff_left nofun).symm, fun _ _ _ => nofun⟩
  | succ fuel ih =>
    rw [linkOrder]
    split
    · exact ⟨fun m => (or_iff_left nofun).symm, fun _ _ _ => nofun⟩
    have h : Visits g (Function.update v m true) (g m).reqModules _ :=
      visits_orderAll fun v m => ih (v := v) (m := m)
    refine ⟨fun m1 => ?_, fun w hw hm => ?_⟩
    · rw [h.marked]
      by_cases heq : m1 = m
      · simp [heq]
      · simp [heq]
    · rw [List.forall_mem_singleton] at hm
      exact List.forall_mem_append.mpr ⟨h.reached w hw (hw m hm), List.forall_mem_singleton.mpr hm⟩

/-- The modules that are not marked. -/
def unmarked (v : Fin n → Bool) : ℕ := (Finset.univ.filter fun m => v m = false).card

theorem unmarked_mono (h : ∀ m, v m = true → w m = true) : unmarked w ≤ unmarked v := by
  refine Finset.card_le_card fun m => ?_
  rw [Finset.mem_filter_univ, Finset.mem_filter_univ]
  intro hw
  cases hv : v m with
  | false => rfl
  | true => cases hw.symm.trans (h m hv)

theorem unmarked_update (h : v m = false) : unmarked (Function.update v m true) < unmarked v := by
  refine Finset.card_lt_card (Finset.ssubset_iff_of_subset (fun m1 => ?_) |>.mpr ⟨m, ?_, ?_⟩)
  · rw [Finset.mem_filter_univ, Finset.mem_filter_univ, Function.update_apply]
    split
    · nofun
    · exact id
  · exact Finset.mem_filter_univ _ |>.mpr h
  · rw [Finset.mem_filter_univ, Function.update_self]
    nofun

/-- The bound on the depth is enough: the modules that a visit marks come with their requests. -/
structure Completes (g : Modules n) (v : Fin n → Bool) (ms : List (Fin n)) (v1 : Fin n → Bool) :
    Prop where
  mono : ∀ m, v m = true → v1 m = true
  start : ∀ m ∈ ms, v1 m = true
  closed : ∀ m, v1 m = true → v m = true ∨ ∀ m1 ∈ (g m).reqModules, v1 m1 = true

theorem completes_orderAll
    (hf : ∀ v m, unmarked v ≤ fuel → Completes g v [m] (f v m).1) (hv : unmarked v ≤ fuel) :
    Completes g v ms (orderAll f v ms).1 := by
  induction ms generalizing v with
  | nil => exact ⟨fun _ => id, nofun, fun m h => .inl h⟩
  | cons m ms ih =>
    have h := hf v m hv
    have h1 := ih (Nat.le_trans (unmarked_mono h.mono) hv)
    refine ⟨fun m1 hm1 => h1.mono m1 (h.mono m1 hm1), ?_, fun m1 hm1 => ?_⟩
    · exact List.forall_mem_cons.mpr ⟨h1.mono m (h.start m List.mem_cons_self), h1.start⟩
    · rcases h1.closed m1 hm1 with hm1 | hm1
      · exact (h.closed m1 hm1).imp_right fun hreq m2 hm2 => h1.mono m2 (hreq m2 hm2)
      · exact .inr hm1

theorem completes_linkOrder (hv : unmarked v ≤ fuel) : Completes g v [m] (linkOrder g fuel v m).1 := by
  induction fuel generalizing v m with
  | zero =>
    have hall : ∀ m, v m = true := by
      intro m
      cases hm : v m with
      | true => rfl
      | false => exact absurd (unmarked_update hm) (by omega)
    exact ⟨fun _ => id, fun m _ => hall m, fun m h => .inl h⟩
  | succ fuel ih =>
    rw [linkOrder]
    split
    · rename_i hm
      exact ⟨fun _ => id, List.forall_mem_singleton.mpr hm, fun m h => .inl h⟩
    rename_i hm
    rw [Bool.not_eq_true] at hm
    have hlt := unmarked_update hm
    have h : Completes g (Function.update v m true) (g m).reqModules _ :=
      completes_orderAll (fun v m => ih (v := v) (m := m)) (by omega)
    have hmono (m1 : Fin n) (hm1 : v m1 = true) : Function.update v m true m1 = true := by
      rw [Function.update_apply]
      split
      · rfl
      · exact hm1
    have hself := h.mono m (Function.update_self ..)
    refine ⟨fun m1 hm1 => h.mono m1 (hmono m1 hm1), List.forall_mem_singleton.mpr hself, fun m1 hm1 => ?_⟩
    rcases h.closed m1 hm1 with hm1 | hm1
    · rw [Function.update_apply] at hm1
      split at hm1
      · rename_i heq
        rw [heq]
        exact .inr h.start
      · exact .inl hm1
    · exact .inr hm1

/-! ## The cells of the variables that are not imported -/

theorem createFunction_varRefs_of_ne {m1 : Fin n} (h : m1 ≠ m) :
    (s.createFunction g m).varRefs m1 = s.varRefs m1 :=
  Function.update_of_ne h ..

theorem createFunction_exportRefs_of_ne {m1 : Fin n} (h : m1 ≠ m) :
    (s.createFunction g m).exportRefs m1 = s.exportRefs m1 :=
  Function.update_of_ne h ..

theorem createFunction_varRefs : (s.createFunction g m).varRefs m i =
    if (g m).isCModule = false ∧ (g m).importOf i = none then some (.variable m i) else none := by
  rw [Cells.createFunction]
  simp only [Function.update_self]
  cases (g m).isCModule <;> cases (g m).importOf i <;> simp

theorem Tracks.createFunction (h : Tracks g s bound) (hm : s.funcCreated m = false) :
    Tracks g (s.createFunction g m) bound := by
  have hne {m1 : Fin n} {j : ℕ} (hj : (m1, j) ∈ bound) : m1 ≠ m := by
    rintro rfl
    cases hm.symm.trans (h.created m1 j hj)
  refine ⟨fun m1 j hj => ?_, fun m1 j hm1 hjs hown => ?_, fun m1 j hj => ?_, fun m1 j c hc => ?_,
    fun m1 j m2 i2 hc => ?_, fun m1 j m2 hj hd => ?_, h.starValue, fun m1 me c hjs hc => ?_,
    fun m1 me hm1 hc => ?_, h.moduleNs⟩
  · exact (Function.update_of_ne (hne hj) ..).trans (h.created m1 j hj)
  · by_cases heq : m1 = m
    · subst heq
      rw [createFunction_varRefs, if_pos ⟨hjs, hown⟩]
    · rw [createFunction_varRefs_of_ne heq]
      exact h.own m1 j ((Function.update_of_ne heq ..).symm.trans hm1) hjs hown
  · by_cases heq : m1 = m
    · subst heq
      rw [createFunction_varRefs, if_neg fun h1 => hj h1.2]
      exact iff_of_false nofun fun hmem => hne hmem rfl
    · rw [createFunction_varRefs_of_ne heq]
      exact h.imported m1 j hj
  · by_cases heq : m1 = m
    · subst heq
      rw [createFunction_varRefs] at hc
      split at hc
      · rename_i hown
        cases hc
        refine ⟨.variable m1 j, ?_, rfl⟩
        rw [VarDenotes, hown.2]
      · cases hc
    · rw [createFunction_varRefs_of_ne heq] at hc
      exact h.denotes m1 j c hc
  · by_cases heq : m1 = m
    · subst heq
      rw [createFunction_varRefs] at hc
      split at hc <;> cases hc
    · rw [createFunction_varRefs_of_ne heq] at hc
      exact h.namespaceBound m1 j m2 i2 hc
  · rw [createFunction_varRefs_of_ne (hne hj)]
    exact h.namespaceValue m1 j m2 hj hd
  · by_cases heq : m1 = m
    · subst heq
      simp only [Cells.createFunction, Function.update_self, hjs] at hc
      cases me <;> cases hc
    · rw [createFunction_exportRefs_of_ne heq] at hc
      rw [createFunction_varRefs_of_ne heq]
      exact h.exportRefs m1 me c hjs hc
  · by_cases heq : m1 = m
    · subst heq
      simp only [Cells.createFunction, Function.update_self, hc]
      cases me <;> rfl
    · rw [createFunction_exportRefs_of_ne heq]
      exact h.native m1 me ((Function.update_of_ne heq ..).symm.trans hm1) hc

/-- The exports of a module that is not linked have no cells yet. -/
def Fresh (g : Modules n) (s : Cells n) (v : Fin n → Bool) : Prop :=
  ∀ m, (g m).isCModule = false → v m = false → ∀ me, s.exportRefs m me = none

theorem Fresh.createFunction (h : Fresh g s v) : Fresh g (s.createFunction g m) v := by
  intro m1 hjs hm1 me
  by_cases heq : m1 = m
  · subst heq
    simp only [Cells.createFunction, Function.update_self, hjs]
    cases me <;> rfl
  · rw [createFunction_exportRefs_of_ne heq]
    exact h m1 hjs hm1 me

/-- The modules get their cells in a visit like the one that links them. -/
theorem createModuleFunction_spec (h : Tracks g s bound) (hfresh : Fresh g s v) :
    (createModuleFunction g fuel s m).funcCreated = (linkOrder g fuel s.funcCreated m).1 ∧
      Tracks g (createModuleFunction g fuel s m) bound ∧
      Fresh g (createModuleFunction g fuel s m) v := by
  induction fuel generalizing s m with
  | zero => exact ⟨rfl, h, hfresh⟩
  | succ fuel ih =>
    rw [createModuleFunction, linkOrder]
    split
    · exact ⟨rfl, h, hfresh⟩
    rename_i hm
    rw [Bool.not_eq_true] at hm
    have hall (ms : List (Fin n)) (s : Cells n) (h : Tracks g s bound) (hfresh : Fresh g s v) :
        (ms.foldl (createModuleFunction g fuel) s).funcCreated =
            (orderAll (linkOrder g fuel) s.funcCreated ms).1 ∧
          Tracks g (ms.foldl (createModuleFunction g fuel) s) bound ∧
          Fresh g (ms.foldl (createModuleFunction g fuel) s) v := by
      induction ms generalizing s with
      | nil => exact ⟨rfl, h, hfresh⟩
      | cons m ms ihms =>
        obtain ⟨hf, h1, hfresh1⟩ := ih (m := m) h hfresh
        obtain ⟨hf1, h2⟩ := ihms _ h1 hfresh1
        refine ⟨?_, h2⟩
        rw [List.foldl_cons, hf1, hf]
        rfl
    exact hall _ _ (h.createFunction hm) hfresh.createFunction

end QuickJs.Link
