import Mathlib.Logic.Basic

/-!
# Runs of a state machine

A machine takes operations in any order; an operation the caller is not entitled
to has no successor. `Reachable` are the states of the runs all of whose steps
meet a side condition, and `Reachable.invariant` is the induction over them.
-/

namespace QuickJs.Run

universe u v w

variable {σ : Type u} {ο : Type v}

/-- The states of the runs from `init` whose steps all satisfy `ok`. -/
inductive Reachable (init : σ → Prop) (step : σ → ο → Option σ) (ok : σ → ο → Prop) : σ → Prop
  /-- a run starts in an initial state -/
  | init {s : σ} : init s → Reachable init step ok s
  /-- and goes on with an allowed operation -/
  | step {s s' : σ} {o : ο} : Reachable init step ok s → ok s o → step s o = some s' →
      Reachable init step ok s'

variable {init : σ → Prop} {step : σ → ο → Option σ} {ok : σ → ο → Prop}

/-- What holds initially and survives every allowed step holds in every reachable
state. -/
theorem Reachable.invariant {I : σ → Prop} (hinit : ∀ s, init s → I s)
    (hstep : ∀ s o s', I s → ok s o → step s o = some s' → I s') {s : σ}
    (h : Reachable init step ok s) : I s := by
  induction h with
  | init hs => exact hinit _ hs
  | step _ hok hs ih => exact hstep _ _ _ ih hok hs

/-- Perform a list of operations. -/
def exec (step : σ → ο → Option σ) : σ → List ο → Option σ
  | s, [] => some s
  | s, o :: os => (step s o).bind fun s' => exec step s' os

/-- A machine without side condition reaches whatever it executes. -/
theorem Reachable.exec (hok : ∀ s o, ok s o) : ∀ {os : List ο} {s s' : σ},
    Reachable init step ok s → exec step s os = some s' → Reachable init step ok s'
  | [], _, _, h, hs => Option.some.inj hs ▸ h
  | o :: _, _, _, h, hs => by
    obtain ⟨t, ht, hs⟩ := Option.bind_eq_some_iff.mp hs
    exact (h.step (hok _ o) ht).exec hok hs

/-- Perform a list of operations that pass a test. -/
def execIf (test : σ → ο → Bool) (step : σ → ο → Option σ) : σ → List ο → Option σ :=
  exec fun s o => if test s o then step s o else none

/-- A machine reaches what it executes if the test is good enough for the side condition. -/
theorem Reachable.execIf {test : σ → ο → Bool} (hok : ∀ s o, test s o → ok s o) :
    ∀ {os : List ο} {s s' : σ}, Reachable init step ok s → execIf test step s os = some s' →
      Reachable init step ok s'
  | [], _, _, h, hs => Option.some.inj hs ▸ h
  | o :: _, s, _, h, hs => by
    obtain ⟨t, ht, hs⟩ := Option.bind_eq_some_iff.mp hs
    simp only at ht
    split at ht
    · rename_i htest
      exact (h.step (hok s o htest) ht).execIf hok hs
    · cases ht

/-- Every step of a run meets a condition. -/
def Along (step : σ → ο → Option σ) (ok : σ → ο → Prop) : σ → List ο → Prop
  | _, [] => True
  | s, o :: os => ok s o ∧ ∀ s' ∈ step s o, Along step ok s' os

theorem Along.of_forall {os : List ο} (h : ∀ o ∈ os, ∀ s, ok s o) {s : σ} : Along step ok s os := by
  induction os generalizing s with
  | nil => trivial
  | cons o os ih =>
    rw [List.forall_mem_cons] at h
    exact ⟨h.1 s, fun _ _ => ih h.2⟩

/-- A machine reaches what it executes in steps that meet the side condition. -/
theorem Along.reachable {os : List ο} {s s' : σ} (ha : Along step ok s os)
    (h : Reachable init step ok s) (hs : exec step s os = some s') : Reachable init step ok s' := by
  induction os generalizing s with
  | nil => exact Option.some.inj hs ▸ h
  | cons o os ih =>
    obtain ⟨t, ht, hs⟩ := Option.bind_eq_some_iff.mp hs
    exact ih (ha.2 t ht) (h.step ha.1 ht) hs

/-- The steps of a run that pass a test meet the condition, if the test is good enough for it. -/
theorem Along.of_execIf {test : σ → ο → Bool} (hok : ∀ s o, test s o → ok s o) {os : List ο} {s : σ}
    (h : (execIf test step s os).isSome) : Along step ok s os := by
  induction os generalizing s with
  | nil => trivial
  | cons o os ih =>
    obtain ⟨s', hs'⟩ := Option.isSome_iff_exists.mp h
    obtain ⟨t, ht, hs'⟩ := Option.bind_eq_some_iff.mp hs'
    simp only at ht
    split at ht
    · refine ⟨hok s o ‹_›, fun u hu => ih ?_⟩
      cases ht.symm.trans hu
      exact Option.isSome_of_eq_some hs'
    · cases ht

/-- The test may be good enough for the condition thanks to what the steps keep. -/
theorem Along.of_execIf_invariant {I : σ → Prop} {test : σ → ο → Bool}
    (hstep : ∀ s o s', I s → ok s o → step s o = some s' → I s')
    (hok : ∀ s o, I s → test s o → ok s o) {os : List ο} {s : σ} (hI : I s)
    (h : (execIf test step s os).isSome) : Along step ok s os := by
  induction os generalizing s with
  | nil => trivial
  | cons o os ih =>
    obtain ⟨s', hs'⟩ := Option.isSome_iff_exists.mp h
    obtain ⟨t, ht, hs'⟩ := Option.bind_eq_some_iff.mp hs'
    simp only at ht
    split at ht
    · have ho := hok s o hI ‹_›
      refine ⟨ho, fun u hu => ih (hstep s o u hI ho hu) ?_⟩
      cases ht.symm.trans hu
      exact Option.isSome_of_eq_some hs'
    · cases ht

/-- What survives every step that meets the condition holds at the end of a run. -/
theorem Along.invariant {I : σ → Prop} (hstep : ∀ s o s', I s → ok s o → step s o = some s' → I s')
    {os : List ο} {s s' : σ} (ha : Along step ok s os) (hI : I s) (hs : exec step s os = some s') :
    I s' :=
  Reachable.invariant (fun _ (h : I _) => h) hstep (ha.reachable (.init hI) hs)

/-- The condition holds along the second part of a run. -/
theorem Along.of_append {os os' : List ο} {s t : σ} (ha : Along step ok s (os ++ os'))
    (ht : exec step s os = some t) : Along step ok s os ∧ Along step ok t os' := by
  induction os generalizing s with
  | nil =>
    cases ht
    exact ⟨trivial, ha⟩
  | cons o os ih =>
    obtain ⟨u, hu, ht⟩ := Option.bind_eq_some_iff.mp ht
    obtain ⟨hok, ha⟩ := ha
    refine ⟨⟨hok, fun u' hu' => ?_⟩, (ih (ha u hu) ht).2⟩
    cases hu.symm.trans hu'
    exact (ih (ha u hu) ht).1

/-- A machine that matches every step which meets the condition matches a run of such steps. -/
theorem Along.simulates {τ : Type w} {step' : τ → ο → Option τ} {R : σ → τ → Prop}
    (hstep : ∀ s t o s', R s t → ok s o → step s o = some s' → ∃ t', step' t o = some t' ∧ R s' t')
    {os : List ο} {s s' : σ} {t : τ} (ha : Along step ok s os) (hR : R s t)
    (hs : exec step s os = some s') : ∃ t', exec step' t os = some t' ∧ R s' t' := by
  induction os generalizing s t with
  | nil =>
    cases hs
    exact ⟨t, rfl, hR⟩
  | cons o os ih =>
    obtain ⟨u, hu, hs⟩ := Option.bind_eq_some_iff.mp hs
    obtain ⟨t', ht', hR'⟩ := hstep s t o u hR ha.1 hu
    obtain ⟨t'', ht'', hR''⟩ := ih (ha.2 u hu) hR' hs
    exact ⟨t'', Option.bind_eq_some_iff.mpr ⟨t', ht', ht''⟩, hR''⟩

/-- A property that every step keeps, or loses for ever when it does not meet the condition, is
one of the runs whose steps all meet it. -/
theorem exec_iff_along {I P : σ → Prop}
    (hstep : ∀ s o s', I s → step s o = some s' → I s' ∧ (P s' ↔ P s ∧ ok s o)) {os : List ο}
    {s s' : σ} (hI : I s) (hs : exec step s os = some s') :
    I s' ∧ (P s' ↔ P s ∧ Along step ok s os) := by
  induction os generalizing s with
  | nil =>
    cases hs
    exact ⟨hI, (and_iff_left trivial).symm⟩
  | cons o os ih =>
    obtain ⟨t, ht, hs⟩ := Option.bind_eq_some_iff.mp hs
    obtain ⟨hI', hP⟩ := hstep s o t hI ht
    obtain ⟨hI'', hP'⟩ := ih hI' hs
    refine ⟨hI'', hP'.trans ?_⟩
    rw [hP, and_assoc]
    refine and_congr_right fun _ => and_congr_right fun _ => ?_
    constructor
    · intro h u hu
      rw [ht] at hu
      exact Option.some.inj hu ▸ h
    · intro h
      exact h t ht

/-- Every state of a run has a property. -/
def Always (step : σ → ο → Option σ) (P : σ → Prop) : σ → List ο → Prop
  | s, [] => P s
  | s, o :: os => P s ∧ ∀ s' ∈ step s o, Always step P s' os

/-- A property that follows from an invariant of the steps which meet a condition, and fails after
every other step, is one of the runs whose steps all meet it. -/
theorem always_iff_along {I P : σ → Prop} (hP : ∀ s, I s → P s)
    (hstep : ∀ s o s', I s → ok s o → step s o = some s' → I s')
    (hbad : ∀ s o s', I s → ¬ ok s o → step s o = some s' → ¬ P s') {os : List ο}
    {s s' : σ} (hI : I s) (hs : exec step s os = some s') :
    Always step P s os ↔ Along step ok s os := by
  induction os generalizing s with
  | nil => exact iff_of_true (hP s hI) trivial
  | cons o os ih =>
    obtain ⟨t, ht, hs⟩ := Option.bind_eq_some_iff.mp hs
    have hnext (Q : σ → Prop) : (∀ s' ∈ step s o, Q s') ↔ Q t := by
      constructor
      · intro h
        exact h t ht
      · intro h u hu
        rw [ht] at hu
        exact Option.some.inj hu ▸ h
    rw [Always, Along, hnext, hnext]
    by_cases hok : ok s o
    · rw [ih (hstep s o t hI hok ht) hs]
      exact ⟨fun h => ⟨hok, h.2⟩, fun h => ⟨hP s hI, h.2⟩⟩
    · refine iff_of_false (fun h => hbad s o t hI hok ht ?_) (fun h => hok h.1)
      cases os with
      | nil => exact h.2
      | cons => exact h.2.1

end QuickJs.Run
