import QuickJs.LinkBinds

/-!
# When linking binds every import before it is used

The link of some modules follows the steps of the modules in the order of the visit. It is right if
and only if each import that is exported again has been bound when its cell is taken, and no two
imports are the same exported namespace.
-/

namespace QuickJs.Link

open QuickJs.Module Walk ExceptSim

variable {n : ℕ} {g : Modules n} {G : ModuleGraph n} {s s1 s2 : LinkState n} {m : Fin n}
  {mi mi1 : JSImportEntry n} {bound bound1 : List (Fin n × ℕ)} {v : Fin n → Bool}
  {ms roots : List (Fin n)} {fuel : ℕ}

/-- The imports of some modules have been bound. -/
def AllBound (g : Modules n) (bound : List (Fin n × ℕ)) (ms : List (Fin n)) : Prop :=
  ∀ m ∈ ms, (g m).isCModule = false → ∀ mi ∈ (g m).importEntries, (m, mi.varIdx) ∈ bound

theorem AllBound.mono (h : AllBound g bound ms) (hsub : bound ⊆ bound1) : AllBound g bound1 ms :=
  fun m hm hjs mi hmi => hsub (h m hm hjs mi hmi)

/-- What the link of some modules does. -/
structure Links (g : Modules n) (s : LinkState n) (bound : List (Fin n × ℕ))
    (r : (Fin n → Bool) × List (Fin n)) (s1 : LinkState n) (bound1 : List (Fin n × ℕ)) : Prop where
  tracks : Tracks g s1.toCells bound1
  funcCreated : s1.funcCreated = s.funcCreated
  instantiated : s1.instantiated = r.1
  exportRefs : ∀ m, s.instantiated m = true → s1.exportRefs m = s.exportRefs m
  fresh : Fresh g s1.toCells s1.instantiated
  sub : bound ⊆ bound1
  allBound : AllBound g bound1 r.2

theorem sim_linkAll {f : LinkState n → Fin n → Except LinkError (LinkState n)}
    (hf : ∀ (s : LinkState n) bound m, Tracks G.modules s.toCells bound →
      Closed G.modules s.funcCreated → s.funcCreated m = true →
      Fresh G.modules s.toCells s.instantiated →
      Sim (Links G.modules s bound (linkOrder G.modules fuel s.instantiated m)) (f s m)
        (runSteps G.modules bound
          ((linkOrder G.modules fuel s.instantiated m).2.flatMap (moduleSteps G.modules))))
    (h : Tracks G.modules s.toCells bound) (hv : Closed G.modules s.funcCreated)
    (hms : ∀ m ∈ ms, s.funcCreated m = true) (hfresh : Fresh G.modules s.toCells s.instantiated) :
    Sim (Links G.modules s bound (orderAll (linkOrder G.modules fuel) s.instantiated ms))
      (ms.foldlM f s) (runSteps G.modules bound
        ((orderAll (linkOrder G.modules fuel) s.instantiated ms).2.flatMap (moduleSteps G.modules))) := by
  induction ms generalizing s bound with
  | nil => exact .ok ⟨h, rfl, rfl, fun _ _ => rfl, hfresh, List.Subset.refl _, nofun⟩
  | cons m ms ih =>
    obtain ⟨hm, hms⟩ := List.forall_mem_cons.mp hms
    rw [orderAll, List.flatMap_append, runSteps_append]
    refine (hf s bound m h hv hm hfresh).bind ?_
    intro s1 bound1 h1
    have hf1 := h1.funcCreated
    rw [← h1.instantiated]
    refine (ih h1.tracks (hf1 ▸ hv) (hf1 ▸ hms) h1.fresh).mono fun s2 bound2 h2 => ?_
    refine ⟨h2.tracks, h2.funcCreated.trans hf1, h2.instantiated, fun m1 hm1 => ?_, h2.fresh,
      fun p hp => h2.sub (h1.sub hp), ?_⟩
    · have hm2 : s1.instantiated m1 = true := h1.instantiated ▸ visits_linkOrder.mono hm1
      exact (h2.exportRefs m1 hm2).trans (h1.exportRefs m1 hm1)
    · exact List.forall_mem_append.mpr ⟨h1.allBound.mono h2.sub, h2.allBound⟩

theorem sim_linkModule (h : Tracks G.modules s.toCells bound) (hv : Closed G.modules s.funcCreated)
    (hm : s.funcCreated m = true) (hfresh : Fresh G.modules s.toCells s.instantiated) :
    Sim (Links G.modules s bound (linkOrder G.modules fuel s.instantiated m))
      (linkModule G.modules fuel s m) (runSteps G.modules bound
        ((linkOrder G.modules fuel s.instantiated m).2.flatMap (moduleSteps G.modules))) := by
  induction fuel generalizing s bound m with
  | zero => exact .ok ⟨h, rfl, rfl, fun _ _ => rfl, hfresh, List.Subset.refl _, by rintro _ ⟨⟩⟩
  | succ fuel ih =>
    rw [linkModule, linkOrder]
    split
    · exact .ok ⟨h, rfl, rfl, fun _ _ => rfl, hfresh, List.Subset.refl _, by rintro _ ⟨⟩⟩
    rename_i hinst
    rw [Bool.not_eq_true] at hinst
    have hmark (m1 : Fin n) (hm1 : Function.update s.instantiated m true m1 = false) :
        s.instantiated m1 = false := by
      rw [Function.update_apply] at hm1
      split at hm1
      · cases hm1
      · exact hm1
    rw [List.flatMap_append, List.flatMap_singleton, runSteps_append]
    refine (sim_linkAll (s := { s with instantiated := Function.update s.instantiated m true })
      (fun s bound m => ih) h hv (hv m hm) fun m1 hjs hm1 => hfresh m1 hjs (hmark m1 hm1)).bind ?_
    intro s1 bound1 h1
    have hself : (orderAll (linkOrder G.modules fuel) (Function.update s.instantiated m true)
        (G.modules m).reqModules).1 m = true :=
      (visits_orderAll (g := G.modules) fun v m => visits_linkOrder).mono (Function.update_self ..)
    have hf1 := h1.funcCreated
    refine (sim_instantiate (m := m) h1.tracks (hf1 ▸ hv) (hf1 ▸ hm) fun hjs me => ?_).map_left ?_
    · rw [h1.exportRefs m (Function.update_self ..)]
      exact hfresh m hjs hinst me
    · rintro s2 bound2 ⟨h2, hf2, he2, hsub, hall⟩
      refine ⟨h2, hf2.trans hf1, h1.instantiated, fun m1 hm1 => ?_, fun m1 hjs hm1 me => ?_,
        fun p hp => hsub (h1.sub hp), ?_⟩
      · have hne : m1 ≠ m := by
          rintro rfl
          cases hm1.symm.trans hinst
        have hm2 : Function.update s.instantiated m true m1 = true :=
          (Function.update_of_ne hne ..).trans hm1
        exact (he2 m1 hne).trans (h1.exportRefs m1 hm2)
      · have hne : m1 ≠ m := by
          rintro rfl
          rw [show _ = _ from h1.instantiated] at hm1
          cases hm1.symm.trans hself
        exact (congrFun (he2 m1 hne) me).trans (h1.fresh m1 hjs hm1 me)
      · exact List.forall_mem_append.mpr ⟨h1.allBound.mono hsub, List.forall_mem_singleton.mpr hall⟩

/-- The result of the link of some modules, one after the other. -/
structure Linked (g : Modules n) (v : Fin n → Bool) (roots : List (Fin n)) (s : LinkState n)
    (bound : List (Fin n × ℕ)) : Prop where
  tracks : Tracks g s.toCells bound
  instantiated : s.instantiated = (orderAll (linkOrder g n) v roots).1
  allBound : AllBound g bound (orderAll (linkOrder g n) v roots).2

theorem sim_link (h : Tracks G.modules s.toCells bound) (hv : Closed G.modules s.funcCreated)
    (hfresh : Fresh G.modules s.toCells s.instantiated) :
    Sim (fun s1 bound1 => Linked G.modules s.instantiated roots s1 bound1 ∧ bound ⊆ bound1)
      (roots.foldlM (fun s m => linkModule G.modules n
        { s with toCells := createModuleFunction G.modules n s.toCells m } m) s)
      (runSteps G.modules bound ((orderAll (linkOrder G.modules n) s.instantiated roots).2.flatMap
        (moduleSteps G.modules))) := by
  induction roots generalizing s bound with
  | nil => exact .ok ⟨⟨h, rfl, nofun⟩, List.Subset.refl _⟩
  | cons m roots ih =>
    obtain ⟨hf, h1, hfresh1⟩ := createModuleFunction_spec h hfresh
    have hcount : unmarked s.funcCreated ≤ n := (Finset.card_filter_le _ _).trans (by simp)
    have hc : Completes G.modules s.funcCreated [m] _ := completes_linkOrder hcount
    rw [← hf] at hc
    have hv1 : Closed G.modules (createModuleFunction G.modules n s.toCells m).funcCreated := by
      intro x hx y hy
      rcases hc.closed x hx with hx | hx
      · exact hc.mono y (hv x hx y hy)
      · exact hx y hy
    rw [orderAll, List.flatMap_append, runSteps_append]
    refine (sim_linkModule (s := { s with
      toCells := createModuleFunction G.modules n s.toCells m }) h1 hv1
      (hc.start m List.mem_cons_self) hfresh1).bind fun s1 bound1 hl => ?_
    have hinst : s1.instantiated = (linkOrder G.modules n s.instantiated m).1 := hl.instantiated
    rw [← hinst]
    refine (ih hl.tracks (hl.funcCreated ▸ hv1) hl.fresh).mono ?_
    rintro s2 bound2 ⟨h2, hsub⟩
    refine ⟨⟨h2.tracks, h2.instantiated.trans ?_, ?_⟩, fun p hp => hsub (hl.sub hp)⟩
    · rw [orderAll, hinst]
    · rw [orderAll, ← hinst]
      exact List.forall_mem_append.mpr ⟨hl.allBound.mono hsub, h2.allBound⟩

/-! ## The cells of the imports -/

theorem visits_roots : Visits G.modules (fun _ => false) roots
    (orderAll (linkOrder G.modules n) (fun _ => false) roots) :=
  visits_orderAll fun _ _ => visits_linkOrder

section

variable (h : Linked G.modules (fun _ => false) roots s bound)

include h

theorem Linked.mem
    (hl : s.Linked G.modules m mi) : m ∈ (orderAll (linkOrder G.modules n) (fun _ => false) roots).2 ∧
      (m, mi.varIdx) ∈ bound := by
  obtain ⟨hm, hjs, hmi⟩ := hl
  rw [h.instantiated] at hm
  have hmem := ((visits_roots.marked m).mp hm).resolve_left nofun
  exact ⟨hmem, h.allBound m hmem hjs mi hmi⟩

theorem Linked.of_mem
    (hm : m ∈ (orderAll (linkOrder G.modules n) (fun _ => false) roots).2)
    (hjs : (G.modules m).isCModule = false) (hmi : mi ∈ (G.modules m).importEntries) :
    s.Linked G.modules m mi := by
  refine ⟨?_, hjs, hmi⟩
  rw [h.instantiated]
  exact (visits_roots.marked m).mpr (.inr hm)

/-- The cell of an import that is not a namespace import, and its binding. -/
theorem Linked.cell
    (hl : s.Linked G.modules m mi) (hstar : mi.importName ≠ atomStar) :
    ∃ b c, Denotes G.modules (mi.module, mi.importName) b ∧ s.varRefs m mi.varIdx = some c ∧
      CellOf G.modules c b := by
  have himport := G.importOf_of_mem hl.2.2 hstar
  have hsome := (h.tracks.imported m mi.varIdx (by rw [himport]; nofun)).mpr (h.mem hl).2
  obtain ⟨c, hc⟩ := Option.isSome_iff_exists.mp hsome
  obtain ⟨b, hb, hcell⟩ := h.tracks.denotes m mi.varIdx c hc
  rw [VarDenotes, himport] at hb
  exact ⟨b, c, hb, hc, hcell⟩

theorem Linked.importRight
    (hl : s.Linked G.modules m mi) : s.ImportRight G.modules m mi := by
  have hbound := (h.mem hl).2
  rw [Cells.ImportRight]
  split
  · rename_i hstar
    have hown := G.importOf_star hl.2.2 hstar
    exact ⟨h.tracks.own m _ (h.tracks.created m _ hbound) hl.2.1 hown,
      h.tracks.starValue m mi hl.2.2 hstar hbound⟩
  · rename_i hstar
    obtain ⟨b, c, hb, hc, hcell⟩ := h.cell hl hstar
    refine ⟨b, c, hb, hc, ?_⟩
    cases b with
    | «variable» m1 i => exact hcell
    | native m1 e => exact hcell
    | «namespace» m2 =>
      obtain ⟨m1, i1, rfl, hd⟩ := hcell
      have hmem := h.tracks.namespaceBound m mi.varIdx m1 i1 hc
      exact ⟨⟨m1, i1, rfl⟩, (h.tracks.namespaceValue m1 i1 m2 hmem hd).2⟩

end

theorem Denotes.unique {x : Fin n × JSAtom} {b b1 : Binding n} (h : Denotes g x b)
    (h1 : Denotes g x b1) : b = b1 := by
  induction h with
  | own hfound hjs hown =>
    cases h1 with
    | own hfound1 hjs1 hown1 =>
      cases hfound.symm.trans hfound1
      rfl
    | imported hfound1 hjs1 himport1 =>
      cases hfound.symm.trans hfound1
      cases hown.symm.trans himport1
    | native hfound1 hc1 =>
      cases hfound.symm.trans hfound1
      cases hjs.symm.trans hc1
    | «namespace» hfound1 => cases hfound.symm.trans hfound1
  | imported hfound hjs himport _ ih =>
    cases h1 with
    | own hfound1 hjs1 hown1 =>
      cases hfound.symm.trans hfound1
      cases himport.symm.trans hown1
    | imported hfound1 hjs1 himport1 hb1 =>
      cases hfound.symm.trans hfound1
      cases himport.symm.trans himport1
      exact ih hb1
    | native hfound1 hc1 =>
      cases hfound.symm.trans hfound1
      cases hjs.symm.trans hc1
    | «namespace» hfound1 => cases hfound.symm.trans hfound1
  | native hfound hc =>
    cases h1 with
    | own hfound1 hjs1 | imported hfound1 hjs1 =>
      cases hfound.symm.trans hfound1
      cases hc.symm.trans hjs1
    | native hfound1 hc1 =>
      cases hfound.symm.trans hfound1
      rfl
    | «namespace» hfound1 => cases hfound.symm.trans hfound1
  | «namespace» hfound =>
    cases h1 with
    | own hfound1 | imported hfound1 | native hfound1 => cases hfound.symm.trans hfound1
    | «namespace» hfound1 =>
      cases hfound.symm.trans hfound1
      rfl

/-- The steps bind the imports of the modules that are visited, and those that resolve to an exported
namespace as such. -/
theorem binds_mem_linkSteps {i : ℕ} {ns : Option (Fin n)}
    (h : .binds m i ns ∈ linkSteps g roots) : m ∈ (orderAll (linkOrder g n) (fun _ => false) roots).2 ∧
      (g m).isCModule = false ∧ ∃ mi ∈ (g m).importEntries, mi.varIdx = i ∧
        ∀ m2, ns = some m2 ↔ mi.importName ≠ atomStar ∧ ∃ m1 e l,
          resolveExport g mi.module mi.importName = some (.found (m1, .indirect e l m2)) := by
  obtain ⟨m1, hm1, h⟩ := List.mem_flatMap.mp h
  rw [moduleSteps] at h
  split at h
  · cases List.mem_singleton.mp h
  split at h
  · cases h
  rename_i hjs
  rw [Bool.not_eq_true] at hjs
  obtain ⟨mi, hmi, h⟩ := List.mem_flatMap.mp h
  have hns {m3 : Fin n} : (LinkStep.binds m i ns) ∉ namespaceSteps g m3 := by
    rw [namespaceSteps]
    split <;> exact fun h => by cases List.mem_singleton.mp h
  rw [importSteps] at h
  split at h
  · rename_i hstar
    rcases List.mem_append.mp h with h | h
    · exact absurd h hns
    · cases List.mem_singleton.mp h
      exact ⟨hm1, hjs, mi, hmi, rfl, fun m2 => iff_of_false (by simp) fun h => h.1 hstar⟩
  rename_i hstar
  split at h
  · rename_i hfound
    rcases List.mem_append.mp h with h | h
    · exact absurd h hns
    · cases List.mem_singleton.mp h
      refine ⟨hm1, hjs, mi, hmi, rfl, fun m2 => ⟨?_, ?_⟩⟩
      · rintro ⟨⟩
        exact ⟨hstar, _, _, _, hfound⟩
      · rintro ⟨-, m3, e, l, hfound1⟩
        cases hfound.symm.trans hfound1
        rfl
  · rename_i hno hfound
    rcases List.mem_cons.mp h with h | h
    · cases h
    · cases List.mem_singleton.mp h
      refine ⟨hm1, hjs, mi, hmi, rfl, fun m2 => iff_of_false (by simp) ?_⟩
      rintro ⟨-, m3, e, l, hfound1⟩
      cases hfound.symm.trans hfound1
      exact hno _ _ _ _ rfl
  · cases List.mem_singleton.mp h

/-! ## The steps and the binding of namespaces -/

theorem throws_mem_of_runSteps {steps : List (LinkStep n)}
    (h : runSteps g bound steps = .error .exception) : .throws ∈ steps := by
  induction steps generalizing bound with
  | nil => cases h
  | cons step steps ih =>
    cases step with
    | throws => exact List.mem_cons_self
    | uses xs =>
      rw [runSteps] at h
      split at h
      · exact List.mem_cons_of_mem _ (ih h)
      · cases h
    | binds m i ns => exact List.mem_cons_of_mem _ (ih h)

/-- Sharing fails for namespaces only: the other cells are the ones of their bindings. -/
theorem Linked.shared_iff (h : Linked G.modules (fun _ => false) roots s bound)
    (hmem : ∀ p, p ∈ bound ↔ ∃ ns, .binds p.1 p.2 ns ∈ linkSteps G.modules roots) :
    (∀ m mi m' mi' b, s.Linked G.modules m mi → s.Linked G.modules m' mi' →
      mi.importName ≠ atomStar → mi'.importName ≠ atomStar →
      Denotes G.modules (mi.module, mi.importName) b →
      Denotes G.modules (mi'.module, mi'.importName) b →
      s.varRefs m mi.varIdx = s.varRefs m' mi'.varIdx) ↔
      OwnNamespaces (linkSteps G.modules roots) := by
  constructor
  · intro hshared m i m' i' m2 hb hb'
    have hlinked {m : Fin n} {i : ℕ} (hb : .binds m i (some m2) ∈ linkSteps G.modules roots) :
        ∃ mi, s.Linked G.modules m mi ∧ mi.importName ≠ atomStar ∧ mi.varIdx = i ∧
          Denotes G.modules (mi.module, mi.importName) (.namespace m2) ∧
          s.varRefs m i = some (.namespace m i) := by
      obtain ⟨hm, hjs, mi, hmi, hidx, hns⟩ := binds_mem_linkSteps hb
      obtain ⟨hstar, m1, e, l, hfound⟩ := (hns m2).mp rfl
      subst hidx
      refine ⟨mi, h.of_mem hm hjs hmi, hstar, rfl, .namespace hfound, ?_⟩
      exact (h.tracks.namespaceValue m mi.varIdx m2 ((hmem _).mpr ⟨_, hb⟩)
        (G.directNs_of_mem hmi hstar hfound)).1
    obtain ⟨mi, hl, hstar, rfl, hd, hvar⟩ := hlinked hb
    obtain ⟨mi', hl', hstar', rfl, hd', hvar'⟩ := hlinked hb'
    have heq := hshared m mi m' mi' _ hl hl' hstar hstar' hd hd'
    rw [hvar, hvar', Option.some.injEq, Cell.namespace.injEq] at heq
    exact Prod.ext heq.1 heq.2
  · intro hown m mi m' mi' b hl hl' hstar hstar' hd hd'
    obtain ⟨b1, c, hb, hc, hcell⟩ := h.cell hl hstar
    obtain ⟨b2, c', hb', hc', hcell'⟩ := h.cell hl' hstar'
    cases hb.unique hd
    cases hb'.unique hd'
    rw [hc, hc', Option.some.injEq]
    cases b with
    | «variable» m1 i => exact hcell.trans hcell'.symm
    | native m1 e =>
      obtain ⟨me, hme, rfl⟩ := hcell
      obtain ⟨me', hme', rfl⟩ := hcell'
      cases hme.symm.trans hme'
      rfl
    | «namespace» m2 =>
      have hbinds {m m1 : Fin n} {i i1 : ℕ} (hc : s.varRefs m i = some (.namespace m1 i1))
          (hd : DirectNs G.modules m1 i1 m2) :
          .binds m1 i1 (some m2) ∈ linkSteps G.modules roots := by
        obtain ⟨ns, hb⟩ := (hmem _).mp (h.tracks.namespaceBound m i m1 i1 hc)
        obtain ⟨-, -, mi1, hmi1, rfl, hns⟩ := binds_mem_linkSteps hb
        obtain ⟨mi2, m3, e, l, himport, hfound⟩ := hd
        obtain ⟨hmi2, hidx, hstar2⟩ := importOf_eq_some_iff himport
        cases G.varIdx_inj hmi2 hmi1 hidx
        rwa [(hns m2).mpr ⟨hstar2, m3, e, l, hfound⟩] at hb
      obtain ⟨m1, i1, rfl, hd1⟩ := hcell
      obtain ⟨m1', i1', rfl, hd1'⟩ := hcell'
      obtain ⟨rfl, rfl⟩ := Prod.mk.injEq .. ▸ hown _ _ _ _ m2 (hbinds hc hd1) (hbinds hc' hd1')
      rfl

/-- The linker follows no null pointer and binds the imports to shared cells if and only if each of
the imports that are exported again has been bound when its cell is taken, and no two imports are
the same exported namespace. -/
theorem linkedRight_iff (G : ModuleGraph n) (roots : List (Fin n)) :
    LinkedRight G.modules roots ↔ BoundFirst G.modules [] (linkSteps G.modules roots) ∧
      (.throws ∉ linkSteps G.modules roots → OwnNamespaces (linkSteps G.modules roots)) := by
  have hsim : Sim (fun s bound => Linked G.modules (fun _ => false) roots s bound ∧ [] ⊆ bound)
      (link G.modules roots) (runSteps G.modules [] (linkSteps G.modules roots)) :=
    sim_link tracks_initial (by rintro _ ⟨⟩) fun _ _ _ _ => rfl
  rw [boundFirst_iff, LinkedRight]
  cases hr : runSteps G.modules [] (linkSteps G.modules roots) with
  | error e =>
    rw [hr] at hsim
    rw [hsim.of_error]
    cases e with
    | nullDeref => exact iff_of_false id fun h => h.1 rfl
    | exception => exact iff_of_true trivial ⟨by simp, fun h => absurd (throws_mem_of_runSteps hr) h⟩
  | ok bound =>
    rw [hr] at hsim
    obtain ⟨s, hs, hl, -⟩ := hsim.of_ok
    obtain ⟨hno, hmem⟩ := mem_of_runSteps hr
    rw [hs]
    simp only [List.not_mem_nil, false_or] at hmem
    change (_ ∧ _) ↔ _
    rw [hl.shared_iff hmem, and_iff_right fun m mi => hl.importRight]
    exact ⟨fun h => ⟨by simp, fun _ => h⟩, fun h => h.2 hno⟩

/-- The first module exports an import of the third one, and requests the second one, which imports
it from the first. -/
def reexport : ModuleGraph 3 where
  modules := ![⟨[2, 1], [.local "x" "x" 0], [], [⟨0, "x", 2⟩], false⟩,
    ⟨[0], [], [], [⟨0, "x", 0⟩], false⟩, ⟨[], [.local "x" "x" 0], [], [], false⟩]
  requested_export m e l m1 h := by
    fin_cases m <;> simp at h
  requested_star m m1 h := by
    fin_cases m <;> cases h
  requested_import m mi h := by
    fin_cases m <;> simp at h ⊢ <;> simp [h]
  varIdx_nodup m := by
    fin_cases m <;> simp

/-- The link of the second module comes before the import of the first one has got its cell. -/
theorem reexport_not_linkedRight : ¬ LinkedRight reexport.modules [0] := by
  have h : (link reexport.modules [0]).map (fun _ => ()) = .error .nullDeref := by
    decide +kernel
  cases hr : link reexport.modules [0] with
  | ok s =>
    rw [hr] at h
    cases h
  | error e =>
    exact id

end QuickJs.Link
