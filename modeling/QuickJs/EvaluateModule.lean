import QuickJs.ModuleDef
import QuickJs.Run

/-!
# The evaluation of modules

`js_evaluate_module` calls itself for the requests of a module before it runs the body, and marks
the modules that it is in. The machine has the stack of these calls, and the operations are the
imports, the steps of the topmost call and the ends of the bodies. A body can import other modules
while it runs. A module that has not been evaluated when an import fails is freed, and loaded again
by a later import: as it has run nothing, it is the same module here.
-/

namespace QuickJs.Module

open Run

variable {n : ℕ} {ε : Type}

/-- A call of `js_evaluate_module`. -/
inductive Frame (n : ℕ)
  /-- at a request of the module -/
  | requests (m : Fin n) (i : ℕ)
  /-- in the body of the module -/
  | body (m : Fin n)
  deriving DecidableEq

def Frame.module : Frame n → Fin n
  | .requests m _ => m
  | .body m => m

/-- What a run has done. -/
inductive Event (n : ℕ) (ε : Type)
  | started (m : Fin n)
  | completed (m : Fin n)
  /-- a body has thrown, for the import that these modules are evaluated for -/
  | threw (m : Fin n) (e : ε) (waiting : List (Fin n))
  /-- an import has come to its end, with an exception or without -/
  | imported (m : Fin n) (r : Option ε)
  deriving DecidableEq

structure EvalState (n : ℕ) (ε : Type) where
  evalMark : Fin n → Bool
  evaluated : Fin n → Bool
  evalException : Fin n → Option ε
  calls : List (Frame n)
  /-- a module has been freed that is being evaluated -/
  freed : Bool
  /-- the last event comes first -/
  log : List (Event n ε)

def EvalState.initial : EvalState n ε := ⟨fun _ => false, fun _ => false, fun _ => none, [], false, []⟩

/-- The modules that wait for a call, up to the body that has made the import. -/
def waiting : List (Frame n) → List (Fin n)
  | .requests m _ :: calls => m :: waiting calls
  | _ => []

/-- A call comes back with an exception. The last one frees the modules that have not been
evaluated, also those whose calls are still there. -/
def EvalState.raise (s : EvalState n ε) (m : Fin n) (e : ε) : List (Frame n) → EvalState n ε
  | .requests x _ :: calls =>
    EvalState.raise { s with evalMark := Function.update s.evalMark x false } x e calls
  | calls => { s with calls, freed := !calls.isEmpty, log := .imported m (some e) :: s.log }

/-- A call comes back without an exception. -/
def EvalState.resume (s : EvalState n ε) (m : Fin n) : List (Frame n) → EvalState n ε
  | .requests x i :: calls => { s with calls := .requests x (i + 1) :: calls }
  | calls => { s with calls, log := .imported m none :: s.log }

/-- `js_evaluate_module` up to its loop. -/
def EvalState.evaluate (s : EvalState n ε) (m : Fin n) : EvalState n ε :=
  if s.evalMark m then s.resume m s.calls
  else if s.evaluated m then
    match s.evalException m with
    | some e => s.raise m e s.calls
    | none => s.resume m s.calls
  else { s with evalMark := Function.update s.evalMark m true, calls := .requests m 0 :: s.calls }

inductive EvalOp (n : ℕ) (ε : Type)
  | «import» (m : Fin n)
  | advance
  /-- a body ends, with an exception or without -/
  | finish (r : Option ε)

def EvalState.step (g : Modules n) (s : EvalState n ε) (op : EvalOp n ε) : Option (EvalState n ε) :=
  if s.freed then none else
    match op, s.calls with
    | .import _, .requests _ _ :: _ => none
    | .import m, _ => some (s.evaluate m)
    | .advance, .requests m i :: calls =>
      match (g m).reqModules[i]? with
      | some m1 => some (if s.evalMark m1 then s.resume m1 s.calls else s.evaluate m1)
      | none => some { s with calls := .body m :: calls, log := .started m :: s.log }
    | .advance, _ => none
    | .finish r, .body m :: calls =>
      let s := { s with evalMark := Function.update s.evalMark m false
                        evaluated := Function.update s.evaluated m true
                        calls }
      match r with
      | some e =>
        some (EvalState.raise { s with
          evalException := Function.update s.evalException m (some e)
          log := .threw m e (m :: waiting calls) :: s.log } m e calls)
      | none => some (EvalState.resume { s with log := .completed m :: s.log } m calls)
    | .finish _, _ => none

/-! ## What a run should have done -/

/-- A module requests another one, or one that requests it. -/
def Requests (g : Modules n) : Fin n → Fin n → Prop :=
  Relation.ReflTransGen fun m m1 => m1 ∈ (g m).reqModules

/-- An import of a module has to throw an error: a body has thrown it while the module waited, or
when another module of its cycle did. -/
def Owes (g : Modules n) (x : Fin n) (e : ε) : List (Event n ε) → Prop
  | [] => False
  | .threw _ e' waiting :: log =>
    (e = e' ∧ (x ∈ waiting ∨
      .completed x ∈ log ∧ ∃ w ∈ waiting, Requests g x w ∧ Requests g w x)) ∨ Owes g x e log
  | _ :: log => Owes g x e log

/-- Each body has been started once, after the bodies of its requests outside of its cycle, and the
imports have thrown the errors that they had to. -/
def EvaluatedRight (g : Modules n) : List (Event n ε) → Prop
  | [] => True
  | .started m :: log =>
    .started m ∉ log ∧ (∀ m1 ∈ (g m).reqModules, Requests g m1 m ∨ .completed m1 ∈ log) ∧ EvaluatedRight g log
  | .imported m r :: log => (∀ e, Owes g m e log → r = some e) ∧ EvaluatedRight g log
  | _ :: log => EvaluatedRight g log

/-! ## When the steps do it -/

/-- The body of a module has completed. -/
def EvalState.Done (s : EvalState n ε) (m : Fin n) : Prop :=
  s.evaluated m = true ∧ s.evalException m = none

instance (s : EvalState n ε) (m : Fin n) : Decidable (s.Done m) :=
  decidable_of_iff (s.evaluated m = true ∧ (s.evalException m).isNone = true)
    (and_congr_right' Option.isNone_iff_eq_none)

/-- The number of requests that a call is done with. -/
def Frame.passed (g : Modules n) : Frame n → ℕ
  | .requests _ i => i
  | .body m => (g m).reqModules.length

/-- A call has not passed over another module that is being evaluated. -/
def Passes (g : Modules n) (s : EvalState n ε) (f : Frame n) : Prop :=
  ∀ j < f.passed g, ∀ m1, (g f.module).reqModules[j]? = some m1 → m1 = f.module ∨ s.Done m1

/-- No body is being run that has made an import. -/
def NoBody (calls : List (Frame n)) : Prop := ∀ f ∈ calls, ∃ m i, f = .requests m i

/-- An import by a body does not fail, and does not pass over a module that waits for it. A body
throws only while no call has passed over a module that waits, and while no module has completed
that is in a cycle with one that waits. -/
def EvalState.Meets (g : Modules n) (s : EvalState n ε) (op : EvalOp n ε) : Prop :=
  match op, s.calls with
  | .import m, calls => calls = [] ∨ s.evalException m = none
  | .advance, .requests m i :: calls => ∀ m1, (g m).reqModules[i]? = some m1 →
    (s.evalMark m1 = true → m1 ∈ m :: waiting calls) ∧ (s.evalException m1 = none ∨ NoBody calls)
  | .finish (some _), .body m :: calls => NoBody calls ∧ (∀ f ∈ calls, Passes g s f) ∧
    ∀ w ∈ m :: waiting calls, ∀ x, s.Done x → ¬ (Requests g x w ∧ Requests g w x)
  | _, _ => True

/-! ## The stack of the calls -/

variable {g : Modules n} {s s' : EvalState n ε} {m m1 x y : Fin n} {e : ε} {f : Frame n}
  {calls : List (Frame n)}

/-- A module has been called for the request that is next in the call below. -/
def Awaited (g : Modules n) (m : Fin n) : List (Frame n) → Prop
  | .requests x i :: _ => (g x).reqModules[i]? = some m
  | _ => True

/-- The requests that a call is done with have completed, or they wait for it. -/
def Chained (g : Modules n) (s : EvalState n ε) : List (Frame n) → Prop
  | [] => True
  | f :: calls =>
    (∀ j < f.passed g, ∀ m1, (g f.module).reqModules[j]? = some m1 →
      s.Done m1 ∨ m1 ∈ f.module :: waiting calls) ∧
    Awaited g f.module calls ∧ Chained g s calls

theorem Chained.mono (hc : Chained g s calls) (h : ∀ x, s.Done x → s'.Done x) : Chained g s' calls := by
  induction calls with
  | nil => trivial
  | cons f calls ih =>
    exact ⟨fun j hj m1 hm1 => (hc.1 j hj m1 hm1).imp_left (h m1), hc.2.1, ih hc.2.2⟩

theorem Requests.of_getElem? {i : ℕ} (h : (g x).reqModules[i]? = some m) : Requests g x m :=
  .single (List.mem_of_getElem? h)

/-- A module that waits requests the one that it waits for. -/
theorem Chained.requests (hc : Chained g s calls) (ha : Awaited g m calls) (hx : x ∈ waiting calls) :
    Requests g x m := by
  induction calls generalizing m with
  | nil => cases hx
  | cons f calls ih =>
    cases f with
    | body => cases hx
    | requests y i =>
      have hym : Requests g y m := .of_getElem? ha
      rcases List.mem_cons.mp hx with rfl | hx
      · exact hym
      · exact (ih hc.2.2 hc.2.1 hx).trans hym

theorem mem_calls_of_mem_waiting (hx : x ∈ waiting calls) : x ∈ calls.map Frame.module := by
  induction calls with
  | nil => cases hx
  | cons f calls ih =>
    cases f with
    | body => cases hx
    | requests y i =>
      rcases List.mem_cons.mp hx with rfl | hx
      · exact List.mem_cons_self
      · exact List.mem_cons_of_mem _ (ih hx)

theorem NoBody.waiting_eq (h : NoBody calls) : waiting calls = calls.map Frame.module := by
  induction calls with
  | nil => rfl
  | cons f calls ih =>
    obtain ⟨m, i, rfl⟩ := h f List.mem_cons_self
    exact congrArg (m :: ·) (ih fun f' hf' => h f' (List.mem_cons_of_mem _ hf'))

/-- Where no body has made an import, an exception ends all the calls. -/
theorem EvalState.raise_eq (h : NoBody calls) (s : EvalState n ε) (m : Fin n) (e : ε) :
    ∃ w ∈ m :: calls.map Frame.module, s.raise m e calls =
      { s with evalMark := fun x => s.evalMark x && decide (x ∉ calls.map Frame.module)
               calls := []
               freed := false
               log := .imported w (some e) :: s.log } := by
  induction calls generalizing s m with
  | nil => exact ⟨m, List.mem_cons_self, by simp [EvalState.raise]⟩
  | cons f calls ih =>
    obtain ⟨x, i, rfl⟩ := h f List.mem_cons_self
    obtain ⟨w, hw, heq⟩ := ih (fun f' hf' => h f' (List.mem_cons_of_mem _ hf'))
      { s with evalMark := Function.update s.evalMark x false } x
    refine ⟨w, List.mem_cons_of_mem _ hw, heq.trans ?_⟩
    congr 1
    funext y
    by_cases hy : y = x
    · simp [Frame.module, hy]
    · simp [Frame.module, hy]

/-! ## The modules that an error is waiting for -/

/-- The first request of a module that has not completed, apart from itself. -/
def blocker (g : Modules n) (s : EvalState n ε) (m : Fin n) : Option (Fin n) :=
  (g m).reqModules.find? fun m1 => ¬ (m1 = m ∨ s.Done m1)

theorem blocker_eq_some_iff :
    blocker g s m = some m1 ↔ ¬ (m1 = m ∨ s.Done m1) ∧ ∃ i : ℕ, (g m).reqModules[i]? = some m1 ∧
      ∀ j < i, ∀ x, (g m).reqModules[j]? = some x → x = m ∨ s.Done x := by
  rw [blocker, List.find?_eq_some_iff_getElem]
  simp only [decide_eq_true_eq, Bool.not_eq_true', decide_eq_false_iff_not, not_not]
  refine and_congr_right fun _ => exists_congr fun i => ?_
  constructor
  · rintro ⟨hi, hm1, hj⟩
    refine ⟨hm1 ▸ List.getElem?_eq_getElem hi, fun j hji x hx => ?_⟩
    obtain ⟨hjl, rfl⟩ := List.getElem?_eq_some_iff.mp hx
    exact hj j hji
  · rintro ⟨hm1, hj⟩
    obtain ⟨hi, hm1⟩ := List.getElem?_eq_some_iff.mp hm1
    exact ⟨hi, hm1, fun j hji => hj j hji _ (List.getElem?_eq_getElem _)⟩

/-- The evaluation of a module comes to another one before it can go on. -/
def Waits (g : Modules n) (s : EvalState n ε) (m m1 : Fin n) : Prop :=
  s.evaluated m = false ∧ blocker g s m = some m1

/-- The evaluation of a module comes to an error before it can run a body. -/
inductive Blocked (g : Modules n) (s : EvalState n ε) (e : ε) : Fin n → Prop
  | failed {m : Fin n} : s.evalException m = some e → Blocked g s e m
  | waits {m m1 : Fin n} : Waits g s m m1 → Blocked g s e m1 → Blocked g s e m

theorem Blocked.not_done (h : Blocked g s e m) : ¬ s.Done m := by
  rintro ⟨hev, hex⟩
  cases h with
  | failed h =>
    rw [hex] at h
    cases h
  | waits hw _ =>
    rw [hw.1] at hev
    cases hev

/-- The modules that are being evaluated are in the calls once, and have not been evaluated. -/
structure Stacked (g : Modules n) (s : EvalState n ε) (calls : List (Frame n)) : Prop where
  chained : Chained g s calls
  nodup : (calls.map Frame.module).Nodup
  begun : ∀ m ∈ calls.map Frame.module, s.evaluated m = false

theorem Stacked.tail (h : Stacked g s (f :: calls)) : Stacked g s calls where
  chained := h.chained.2.2
  nodup := (List.nodup_cons.mp h.nodup).2
  begun m hm := h.begun m (List.mem_cons_of_mem _ hm)

/-- The machine between two operations. -/
structure EvalState.Invariant (g : Modules n) (s : EvalState n ε) : Prop where
  mark : ∀ m, s.evalMark m = true ↔ m ∈ s.calls.map Frame.module
  stacked : Stacked g s s.calls
  thrown : ∀ m, s.evalException m ≠ none → s.evaluated m = true
  started : ∀ m, .started m ∈ s.log → s.evaluated m = true ∨ .body m ∈ s.calls
  completed : ∀ m, .completed m ∈ s.log ↔ s.Done m
  owes : ∀ x e, Owes g x e s.log → Blocked g s e x
  right : EvaluatedRight g s.log
  freed : s.freed = false

theorem Waits.exception (hI : s.Invariant g) (h : Waits g s m m1) : s.evalException m = none := by
  by_contra hne
  exact Bool.false_ne_true (h.1.symm.trans (hI.thrown m hne))

section

variable (hI : s.Invariant g) (h : Blocked g s e m)

include hI h

/-- What a blocked module waits for is blocked. -/
theorem Blocked.next (hw : Waits g s m m1) : Blocked g s e m1 := by
  cases h with
  | failed h =>
    rw [hw.exception hI] at h
    cases h
  | waits hw' hb =>
    obtain rfl := Option.some.inj (hw'.2.symm.trans hw.2)
    exact hb

theorem Blocked.next_of_transGen
    (hw : Relation.TransGen (Waits g s) m m1) : Blocked g s e m1 := by
  induction hw with
  | single hw => exact h.next hI hw
  | tail _ hw ih => exact ih.next hI hw

/-- No blocked module waits for itself. -/
theorem Blocked.acyclic : ¬ Relation.TransGen (Waits g s) m m := by
  intro hc
  induction h with
  | failed h =>
    obtain ⟨b, hb, -⟩ := Relation.TransGen.head'_iff.mp hc
    rw [hb.exception hI] at h
    cases h
  | waits hw _ ih =>
    obtain ⟨b, hb, hbm⟩ := Relation.TransGen.head'_iff.mp hc
    obtain rfl := Option.some.inj (hb.2.symm.trans hw.2)
    exact ih (.tail' hbm hw)

/-- A blocked module that has not been evaluated waits for a blocked one. -/
theorem Blocked.exists_waits
    (hev : s.evaluated m = false) : ∃ m1, Waits g s m m1 ∧ Blocked g s e m1 := by
  cases h with
  | failed h =>
    rw [hI.thrown m (by rw [h]; nofun)] at hev
    cases hev
  | waits hw hb => exact ⟨_, hw, hb⟩

end

/-- A call that has not passed over a module that waits is at the one that it waits for, or before
it. -/
theorem Passes.waits (hp : Passes g s f) (hw : Waits g s f.module m1) : ∃ x i k, f = .requests x i ∧
    i ≤ k ∧ (g x).reqModules[k]? = some m1 := by
  obtain ⟨hno, k, hk, -⟩ := blocker_eq_some_iff.mp hw.2
  have hle : f.passed g ≤ k := by
    by_contra hlt
    exact hno (hp k (not_le.mp hlt) m1 hk)
  cases f with
  | requests x i => exact ⟨x, i, k, rfl, hle, hk⟩
  | body x => cases (List.getElem?_eq_none hle).symm.trans hk

/-- A call that has not passed over a module that waits is at the one that it waits for. -/
theorem Stacked.waits {i : ℕ} (h : Stacked g s (.requests x i :: calls))
    (hp : Passes g s (.requests x i)) (hm : (g x).reqModules[i]? = some m) (hne : m ≠ x)
    (hd : ¬ s.Done m) : Waits g s x m :=
  ⟨h.begun x List.mem_cons_self, blocker_eq_some_iff.mpr ⟨not_or.mpr ⟨hne, hd⟩, i, hm, hp⟩⟩

/-- The call above a blocked module is the one that it waits for. -/
theorem Stacked.waits_above {f' : Frame n} (hI : s.Invariant g) (h : Stacked g s (f :: f' :: calls))
    (hp : Passes g s f') (hb : Blocked g s e f'.module) : Waits g s f'.module f.module := by
  obtain ⟨m1, hw, -⟩ := hb.exists_waits hI (h.begun f'.module (by simp))
  obtain ⟨x, i, k, rfl, -, -⟩ := hp.waits hw
  refine h.tail.waits hp h.chained.2.1 (fun heq => ?_) fun hd => ?_
  · exact (List.nodup_cons.mp h.nodup).1 (heq ▸ List.mem_cons_self)
  · exact Bool.false_ne_true ((h.begun f.module List.mem_cons_self).symm.trans hd.1)

theorem Stacked.waits_head (hI : s.Invariant g) (h : Stacked g s (f :: calls))
    (hp : ∀ f' ∈ calls, Blocked g s e f'.module → Passes g s f') (hy : y ∈ calls.map Frame.module)
    (hb : Blocked g s e y) : Relation.TransGen (Waits g s) y f.module := by
  induction calls generalizing f with
  | nil => cases hy
  | cons f' calls ih =>
    rcases List.mem_cons.mp hy with rfl | hy
    · exact .single (h.waits_above hI (hp f' List.mem_cons_self hb) hb)
    · have hw := ih h.tail (fun f hf => hp f (List.mem_cons_of_mem _ hf)) hy
      have hb' := hb.next_of_transGen hI hw
      exact hw.tail (h.waits_above hI (hp f' List.mem_cons_self hb') hb')

/-- The call of a blocked module has not passed over a module that waits. -/
theorem Stacked.passes (hI : s.Invariant g) (h : Stacked g s calls) :
    ∀ f ∈ calls, Blocked g s e f.module → Passes g s f := by
  induction calls with
  | nil => nofun
  | cons f calls ih =>
    intro f' hf' hb
    rcases List.mem_cons.mp hf' with rfl | hf'
    · obtain ⟨y, hw, hby⟩ := hb.exists_waits hI (h.begun _ List.mem_cons_self)
      obtain ⟨hno, k, hk, hbefore⟩ := blocker_eq_some_iff.mp hw.2
      intro j hj m1 hm1
      by_contra hm
      have hkj : k ≤ j := by
        by_contra hlt
        exact hm (hbefore j (not_le.mp hlt) m1 hm1)
      rcases h.chained.1 k (hkj.trans_lt hj) y hk with hd | hmem
      · exact hno (.inr hd)
      · rcases List.mem_cons.mp hmem with rfl | hmem
        · exact hno (.inl rfl)
        · -- then the module that is waited for is in a call below, and waits for this one
          have hhead := h.waits_head hI (ih h.tail) (mem_calls_of_mem_waiting hmem) hby
          exact hby.acyclic hI (hhead.tail hw)
    · exact ih h.tail f' hf' hb

/-- All calls above a blocked module are of blocked modules. -/
theorem EvalState.Invariant.blocked_head (hI : s.Invariant g) (hs : s.calls = f :: calls)
    (hy : y ∈ s.calls.map Frame.module) (hb : Blocked g s e y) : Blocked g s e f.module := by
  have hst := hs ▸ hI.stacked
  rw [hs] at hy
  rcases List.mem_cons.mp hy with rfl | hy
  · exact hb
  · exact hb.next_of_transGen hI (hst.waits_head hI (hst.tail.passes hI) hy hb)

/-- No module is blocked below a body. -/
theorem EvalState.Invariant.not_blocked (hI : s.Invariant g) (hs : s.calls = .body m :: calls)
    (hy : y ∈ s.calls.map Frame.module) : ¬ Blocked g s e y := by
  intro hb
  have hbm : Blocked g s e m := hI.blocked_head hs hy hb
  have hst := hs ▸ hI.stacked
  obtain ⟨m1, hw, -⟩ := hbm.exists_waits hI (hst.begun m List.mem_cons_self)
  obtain ⟨x, i, k, heq, -⟩ := (hst.passes hI (.body m) List.mem_cons_self hbm).waits hw
  cases heq

/-! ## The steps -/

theorem Stacked.mono (h : Stacked g s calls) (hd : ∀ x, s.Done x → s'.Done x)
    (hev : ∀ m ∈ calls.map Frame.module, s'.evaluated m = s.evaluated m) : Stacked g s' calls where
  chained := h.chained.mono hd
  nodup := h.nodup
  begun m hm := (hev m hm).trans (h.begun m hm)

/-- A blocked module stays blocked while another one is evaluated. -/
theorem Blocked.mono (hm : ¬ Blocked g s e m) (hd : ¬ s.Done m)
    (hev : ∀ x ≠ m, s'.evaluated x = s.evaluated x)
    (hex : ∀ x ≠ m, s'.evalException x = s.evalException x) (h : Blocked g s e x) :
    Blocked g s' e x := by
  have hdone (y : Fin n) (hy : y ≠ m) : s'.Done y ↔ s.Done y := by
    rw [EvalState.Done, EvalState.Done, hev y hy, hex y hy]
  induction h with
  | failed h =>
    rename_i x
    have hx : x ≠ m := fun hx => hm (hx ▸ .failed h)
    exact .failed ((hex x hx).trans h)
  | waits hw hb ih =>
    rename_i x x1
    have hx : x ≠ m := fun hx => hm (hx ▸ .waits hw hb)
    have hx1 : x1 ≠ m := fun hx => hm (hx ▸ hb)
    obtain ⟨hno, i, hi, hj⟩ := blocker_eq_some_iff.mp hw.2
    refine .waits ⟨(hev x hx).trans hw.1, blocker_eq_some_iff.mpr ⟨?_, i, hi, ?_⟩⟩ ih
    · rwa [hdone x1 hx1]
    · intro j hji y hy
      refine (hj j hji y hy).imp_right fun hdy => (hdone y ?_).mpr hdy
      rintro rfl
      exact hd hdy

theorem Blocked.congr (h : Blocked g s e x) (hev : s'.evaluated = s.evaluated)
    (hex : s'.evalException = s.evalException) : Blocked g s' e x := by
  have hdone : s'.Done = s.Done := by
    funext m
    rw [EvalState.Done, EvalState.Done, hev, hex]
  induction h with
  | failed h => exact .failed (hex ▸ h)
  | waits hw _ ih =>
    refine .waits ⟨hev ▸ hw.1, ?_⟩ ih
    rw [blocker_eq_some_iff, hdone, ← blocker_eq_some_iff]
    exact hw.2

section

variable (hI : s.Invariant g)

include hI

/-- Nothing has been evaluated, and nothing has been written down but the end of an import. -/
theorem EvalState.Invariant.of_calls (hev : s'.evaluated = s.evaluated)
    (hex : s'.evalException = s.evalException)
    (hmark : ∀ m, s'.evalMark m = true ↔ m ∈ s'.calls.map Frame.module)
    (hst : Stacked g s' s'.calls) (hbody : ∀ m, .body m ∈ s.calls → .body m ∈ s'.calls)
    (hlog : s'.log = s.log ∨ ∃ w r, s'.log = .imported w r :: s.log ∧
      ∀ e, Owes g w e s.log → r = some e) (hf : s'.freed = false) : s'.Invariant g := by
  have hdone : s'.Done = s.Done := by
    funext m
    rw [EvalState.Done, EvalState.Done, hev, hex]
  refine ⟨hmark, hst, fun m => ?_, fun m hm => ?_, fun m => ?_,
    fun x e hx => (hI.owes x e ?_).congr hev hex, ?_, hf⟩
  · rw [hev, hex]
    exact hI.thrown m
  · rw [hev]
    refine (hI.started m ?_).imp_right (hbody m)
    rcases hlog with hlog | ⟨w, r, hlog, -⟩
    · exact hlog ▸ hm
    · rw [hlog] at hm
      cases hm
      assumption
  · rw [hdone, ← hI.completed]
    rcases hlog with hlog | ⟨w, r, hlog, -⟩
    · rw [hlog]
    · rw [hlog, List.mem_cons]
      exact or_iff_right nofun
  · rcases hlog with hlog | ⟨w, r, hlog, -⟩
    · exact hlog ▸ hx
    · rw [hlog] at hx
      exact hx
  · rcases hlog with hlog | ⟨w, r, hlog, hr⟩
    · exact hlog ▸ hI.right
    · rw [hlog]
      exact ⟨hr, hI.right⟩

/-- A call goes on to its next request. -/
theorem EvalState.Invariant.pass {i : ℕ} (hs : s.calls = .requests x i :: calls)
    (hm : (g x).reqModules[i]? = some m) (hd : s.Done m ∨ m ∈ waiting s.calls) :
    (s.resume m s.calls).Invariant g := by
  have hmark := hI.mark
  have hst := hI.stacked
  have hbody (b : Fin n) : Frame.body b ∈ s.calls → Frame.body b ∈ Frame.requests x (i + 1) :: calls := by
    rw [hs]
    simp
  rw [hs] at hmark hst hd ⊢
  refine hI.of_calls rfl rfl hmark
    ⟨⟨?_, hst.chained.2.1, hst.chained.2.2.mono fun _ h => h⟩, hst.nodup, hst.begun⟩ hbody (.inl rfl)
    hI.freed
  intro j hj m1 hm1
  rcases (Nat.lt_succ_iff.mp hj).lt_or_eq with hj | rfl
  · exact hst.chained.1 j hj m1 hm1
  · obtain rfl := Option.some.inj (hm.symm.trans hm1)
    exact hd

/-- An import ends without an exception. -/
theorem EvalState.Invariant.ret
    (hs : ∀ x i calls, s.calls ≠ .requests x i :: calls) (hb : ∀ e, ¬ Blocked g s e m) :
    (s.resume m s.calls).Invariant g := by
  have heq : s.resume m s.calls = { s with log := .imported m none :: s.log } := by
    cases hc : s.calls with
    | nil =>
      rw [EvalState.resume]
      nofun
    | cons f calls =>
      cases f with
      | requests x i => exact absurd hc (hs x i calls)
      | body x =>
        rw [EvalState.resume]
        nofun
  rw [heq]
  exact hI.of_calls rfl rfl hI.mark (hI.stacked.mono (fun _ h => h) fun _ _ => rfl) (fun _ h => h)
    (.inr ⟨m, none, rfl, fun e he => absurd (hI.owes m e he) (hb e)⟩) hI.freed

/-- A call goes on, or an import ends, after a module that has completed. -/
theorem EvalState.Invariant.resume_done (hd : s.Done m)
    (ha : Awaited g m s.calls) : (s.resume m s.calls).Invariant g := by
  by_cases hc : ∃ x i calls, s.calls = .requests x i :: calls
  · obtain ⟨x, i, calls, hc⟩ := hc
    rw [hc] at ha
    exact hI.pass hc ha (.inl hd)
  · exact hI.ret (fun x i calls h => hc ⟨x, i, calls, h⟩) fun e hb => hb.not_done hd

/-- All calls end with an exception. -/
theorem EvalState.Invariant.fail (hn : NoBody s.calls)
    (he : ∀ w ∈ m :: s.calls.map Frame.module, ∀ e', Owes g w e' s.log → e' = e) :
    (s.raise m e s.calls).Invariant g := by
  obtain ⟨w, hw, heq⟩ := EvalState.raise_eq hn s m e
  rw [heq]
  refine hI.of_calls rfl rfl (fun y => ?_) ⟨trivial, List.nodup_nil, by rintro _ ⟨⟩⟩ (fun y hy => ?_)
    (.inr ⟨w, some e, rfl, fun e' h => congrArg some (he w hw e' h).symm⟩) rfl
  · refine iff_of_false ?_ List.not_mem_nil
    rw [Bool.and_eq_true, decide_eq_true_eq, hI.mark]
    exact fun h => h.2 h.1
  · obtain ⟨_, _, h⟩ := hn _ hy
    cases h

/-- A module is called. -/
theorem EvalState.Invariant.push (hm : s.evalMark m = false)
    (hev : s.evaluated m = false) (ha : Awaited g m s.calls) :
    EvalState.Invariant g { s with evalMark := Function.update s.evalMark m true
                                   calls := .requests m 0 :: s.calls } := by
  have hnot : m ∉ s.calls.map Frame.module := fun h =>
    Bool.false_ne_true (hm.symm.trans ((hI.mark m).mpr h))
  refine hI.of_calls rfl rfl (fun x => ?_) ⟨⟨nofun, ha, hI.stacked.chained.mono fun _ h => h⟩,
    List.nodup_cons.mpr ⟨hnot, hI.stacked.nodup⟩, ?_⟩ (fun b hb => List.mem_cons_of_mem _ hb) (.inl rfl)
    hI.freed
  · change Function.update s.evalMark m true x = true ↔ _
    rw [List.map_cons, List.mem_cons, Function.update_apply]
    by_cases hx : x = m
    · simp [hx, Frame.module]
    · simp only [hx, Frame.module, false_or]
      exact hI.mark x
  · rintro x hx
    rcases List.mem_cons.mp hx with rfl | hx
    · exact hev
    · exact hI.stacked.begun x hx

/-- The body of a module is started. -/
theorem EvalState.Invariant.start {i : ℕ} (hs : s.calls = .requests m i :: calls)
    (hm : (g m).reqModules.length ≤ i) :
    EvalState.Invariant g { s with calls := .body m :: calls, log := .started m :: s.log } := by
  obtain ⟨hmark, hst, hthrown, hstarted, hcompleted, howes, hright, hfreed⟩ := hI
  rw [hs] at hmark hst
  have hpassed : ∀ j < (g m).reqModules.length, ∀ m1, (g m).reqModules[j]? = some m1 →
      s.Done m1 ∨ m1 ∈ m :: waiting calls := fun j hj => hst.chained.1 j (hj.trans_le hm)
  refine ⟨hmark, ⟨⟨hpassed, hst.chained.2.1, hst.chained.2.2.mono fun _ h => h⟩, hst.nodup, hst.begun⟩,
    hthrown, fun x hx => ?_, fun x => ?_, fun x e hx => ?_, ⟨fun hx => ?_, fun m1 hm1 => ?_, hright⟩,
    hfreed⟩
  · rcases List.mem_cons.mp hx with heq | hx
    · cases heq
      exact .inr List.mem_cons_self
    · refine (hstarted x hx).imp_right fun hb => ?_
      rw [hs] at hb
      exact List.mem_cons_of_mem _ ((List.mem_cons.mp hb).resolve_left nofun)
  · rw [List.mem_cons, or_iff_right nofun]
    exact hcompleted x
  · exact (howes x e hx).congr rfl rfl
  · -- the module has not been evaluated, and its only call is the one with the requests
    rcases hstarted m hx with hev | hb
    · rw [hst.begun m List.mem_cons_self] at hev
      cases hev
    · rw [hs] at hb
      refine (List.nodup_cons.mp hst.nodup).1 ?_
      exact List.mem_map.mpr ⟨_, (List.mem_cons.mp hb).resolve_left nofun, rfl⟩
  · obtain ⟨j, hj, rfl⟩ := List.getElem_of_mem hm1
    rcases hpassed j hj _ (List.getElem?_eq_getElem hj) with hd | hw
    · exact .inr ((hcompleted _).mpr hd)
    · refine .inl ?_
      rcases List.mem_cons.mp hw with heq | hw
      · rw [heq]
        exact .refl
      · exact hst.chained.2.2.requests hst.chained.2.1 hw

end

/-- The body on top of the calls is over. -/
theorem EvalState.Invariant.body_done (s' : EvalState n ε) (hI : s.Invariant g)
    (hs : s.calls = .body m :: calls)
    (hmark : s'.evalMark = Function.update s.evalMark m false)
    (hev : s'.evaluated = Function.update s.evaluated m true)
    (hex : ∀ x ≠ m, s'.evalException x = s.evalException x) (hcalls : s'.calls = calls) :
    (∀ x, s'.evalMark x = true ↔ x ∈ s'.calls.map Frame.module) ∧ Stacked g s' s'.calls ∧
      (∀ x, s'.evalException x ≠ none → s'.evaluated x = true) ∧
      (∀ x, .started x ∈ s.log → s'.evaluated x = true ∨ .body x ∈ s'.calls) ∧
      (∀ x ≠ m, s'.Done x ↔ s.Done x) ∧ ∀ x e, Blocked g s e x → Blocked g s' e x := by
  have hst := hs ▸ hI.stacked
  have hnot : m ∉ calls.map Frame.module := (List.nodup_cons.mp hst.nodup).1
  have hevm (x : Fin n) (hx : x ≠ m) : s'.evaluated x = s.evaluated x := by
    rw [hev, Function.update_of_ne hx]
  have hdone (x : Fin n) (hx : x ≠ m) : s'.Done x ↔ s.Done x := by
    rw [EvalState.Done, EvalState.Done, hevm x hx, hex x hx]
  have hopen : s.evaluated m = false := hst.begun m List.mem_cons_self
  have hndone : ¬ s.Done m := fun h => Bool.false_ne_true (hopen.symm.trans h.1)
  refine ⟨fun x => ?_, ?_, fun x hx => ?_, fun x hx => ?_, hdone, fun x e hb => ?_⟩
  · rw [hmark, hcalls]
    by_cases hx : x = m
    · subst hx
      rw [Function.update_self]
      exact iff_of_false nofun hnot
    · have := hI.mark x
      rw [hs] at this
      rw [Function.update_of_ne hx, this, List.map_cons, List.mem_cons]
      exact or_iff_right hx
  · rw [hcalls]
    refine hst.tail.mono (fun x hx => ?_) fun x hx => hevm x fun heq => hnot (heq ▸ hx)
    refine (hdone x fun heq => ?_).mpr hx
    exact hndone (heq ▸ hx)
  · by_cases hxm : x = m
    · rw [hev, hxm, Function.update_self]
    · rw [hevm x hxm]
      rw [hex x hxm] at hx
      exact hI.thrown x hx
  · by_cases hxm : x = m
    · rw [hev, hxm, Function.update_self]
      exact .inl rfl
    · rw [hevm x hxm, hcalls]
      refine (hI.started x hx).imp_right fun hb => ?_
      rw [hs] at hb
      refine (List.mem_cons.mp hb).resolve_left fun heq => hxm ?_
      cases heq
      rfl
  · refine hb.mono (hI.not_blocked hs ?_) hndone hevm hex
    rw [hs]
    exact List.mem_cons_self

/-- A body completes. -/
theorem EvalState.Invariant.complete (hI : s.Invariant g) (hs : s.calls = .body m :: calls)
    (ht : s' = { s with evalMark := Function.update s.evalMark m false
                        evaluated := Function.update s.evaluated m true
                        calls
                        log := .completed m :: s.log }) : (s'.resume m calls).Invariant g := by
  have hst := hs ▸ hI.stacked
  have hcalls : s'.calls = calls := by rw [ht]
  have hlog : s'.log = .completed m :: s.log := by rw [ht]
  have hexm : s.evalException m = none := by
    by_contra hne
    exact Bool.false_ne_true ((hst.begun m List.mem_cons_self).symm.trans (hI.thrown m hne))
  have hm : s'.Done m := by
    rw [ht]
    exact ⟨Function.update_self .., hexm⟩
  obtain ⟨hmark, hst', hthrown, hstarted, hdone, hblocked⟩ :=
    hI.body_done s' hs (by rw [ht]) (by rw [ht]) (by simp [ht]) hcalls
  rw [← hcalls]
  refine EvalState.Invariant.resume_done ⟨hmark, hst', hthrown, fun x hx => ?_, fun x => ?_,
    fun x e hx => ?_, ?_, ?_⟩ hm (hcalls.symm ▸ hst.chained.2.1)
  · rw [hlog] at hx
    exact hstarted x ((List.mem_cons.mp hx).resolve_left nofun)
  · rw [hlog]
    by_cases hx : x = m
    · subst hx
      exact iff_of_true List.mem_cons_self hm
    · rw [hdone x hx, ← hI.completed, List.mem_cons]
      refine or_iff_right fun heq => hx ?_
      cases heq
      rfl
  · rw [hlog] at hx
    exact hblocked x e (hI.owes x e hx)
  · rw [hlog]
    exact hI.right
  · rw [ht]
    exact hI.freed

/-- The calls that wait for a blocked module, and have not passed over another one that waits, are
blocked. -/
theorem Stacked.blocked (h : Stacked g s calls) (hn : NoBody calls) (hp : ∀ f ∈ calls, Passes g s f)
    (ha : Awaited g m calls) (hm : m ∉ calls.map Frame.module) (hb : Blocked g s e m) :
    ∀ w ∈ m :: calls.map Frame.module, Blocked g s e w := by
  induction calls generalizing m with
  | nil =>
    intro w hw
    rw [List.mem_singleton.mp hw]
    exact hb
  | cons f calls ih =>
    obtain ⟨x, i, rfl⟩ := hn f List.mem_cons_self
    have hw : Waits g s x m :=
      h.waits (hp _ List.mem_cons_self) ha (fun heq => hm (heq ▸ List.mem_cons_self)) hb.not_done
    intro w hw'
    rcases List.mem_cons.mp hw' with rfl | hw'
    · exact hb
    · exact ih h.tail (fun f hf => hn f (List.mem_cons_of_mem _ hf))
        (fun f hf => hp f (List.mem_cons_of_mem _ hf)) h.chained.2.1 (List.nodup_cons.mp h.nodup).1
        (.waits hw hb) w hw'

/-- A body throws. -/
theorem EvalState.Invariant.throw (hI : s.Invariant g) (hs : s.calls = .body m :: calls)
    (hm : s.Meets g (.finish (some e)))
    (ht : s' = { s with evalMark := Function.update s.evalMark m false
                        evaluated := Function.update s.evaluated m true
                        evalException := Function.update s.evalException m (some e)
                        calls
                        log := .threw m e (m :: waiting calls) :: s.log }) :
    (s'.raise m e calls).Invariant g := by
  have hst := hs ▸ hI.stacked
  simp only [EvalState.Meets, hs] at hm
  obtain ⟨hnobody, hpasses, hcycle⟩ := hm
  have hcalls : s'.calls = calls := by rw [ht]
  have hlog : s'.log = .threw m e (m :: waiting calls) :: s.log := by rw [ht]
  have hexm : s'.evalException m = some e := by
    rw [ht]
    exact Function.update_self ..
  obtain ⟨hmark, hst', hthrown, hstarted, hdone, hblocked⟩ :=
    hI.body_done s' hs (by rw [ht]) (by rw [ht])
      (fun x hx => by rw [ht]; exact Function.update_of_ne hx ..) hcalls
  have hdone' (x : Fin n) : s'.Done x ↔ s.Done x := by
    by_cases hx : x = m
    · rw [hx]
      refine iff_of_false (Blocked.failed hexm : Blocked g s' e m).not_done fun h => ?_
      exact Bool.false_ne_true ((hst.begun m List.mem_cons_self).symm.trans h.1)
    · exact hdone x hx
  have hblock : ∀ w ∈ m :: calls.map Frame.module, Blocked g s' e w := by
    refine (hcalls ▸ hst').blocked hnobody (fun f hf j hj m1 hm1 => ?_) hst.chained.2.1
      (List.nodup_cons.mp hst.nodup).1 (.failed hexm)
    rw [hdone']
    exact hpasses f hf j hj m1 hm1
  rw [← hcalls]
  refine EvalState.Invariant.fail ⟨hmark, hst', hthrown, fun x hx => ?_, fun x => ?_,
    fun x e' hx => ?_, ?_, ?_⟩ (hcalls.symm ▸ hnobody) fun w hw e' hw' => ?_
  · rw [hlog] at hx
    exact hstarted x ((List.mem_cons.mp hx).resolve_left nofun)
  · rw [hlog, hdone', ← hI.completed, List.mem_cons]
    exact or_iff_right nofun
  · rw [hlog] at hx
    rcases hx with ⟨rfl, hw | ⟨hx, w, hw, hxw⟩⟩ | hx
    · exact hblock x (hnobody.waiting_eq ▸ hw)
    · exact absurd hxw (hcycle w hw x ((hI.completed x).mp hx))
    · exact hblocked x e' (hI.owes x e' hx)
  · rw [hlog]
    exact hI.right
  · rw [ht]
    exact hI.freed
  · rw [hlog] at hw'
    rcases hw' with ⟨rfl, -⟩ | hw'
    · rfl
    · -- nothing was owed to the modules that waited for the body
      refine absurd (hI.owes w e' hw') (hI.not_blocked hs ?_)
      rw [hs]
      exact hcalls ▸ hw

/-- An error that is owed is the one that the module has thrown. -/
theorem Blocked.eq_of_exception {e' : ε} (hI : s.Invariant g) (h : Blocked g s e' m)
    (hex : s.evalException m = some e) : e' = e := by
  cases h with
  | failed h => exact Option.some.inj (h.symm.trans hex)
  | waits hw _ =>
    rw [hw.exception hI] at hex
    cases hex

/-- A module that has been evaluated throws its exception again, or is done. -/
theorem EvalState.Invariant.evaluate (hI : s.Invariant g) (hm : s.evalMark m = false)
    (ha : Awaited g m s.calls)
    (hex : s.evalException m ≠ none → s.calls = [] ∨ ∃ x i calls,
      s.calls = .requests x i :: calls ∧ NoBody calls) : (s.evaluate m).Invariant g := by
  rw [EvalState.evaluate, hm]
  simp only [Bool.false_eq_true, if_false]
  split
  · rename_i hev
    cases hexm : s.evalException m with
    | none => exact hI.resume_done ⟨hev, hexm⟩ ha
    | some e =>
      rcases hex (by rw [hexm]; nofun) with hc | ⟨x, i, calls, hc, hn⟩
      · refine hI.fail (by rw [hc]; nofun) fun w hw e' he' => ?_
        rw [hc] at hw
        exact (hI.owes w e' he').eq_of_exception hI (List.mem_singleton.mp hw ▸ hexm)
      · refine hI.fail ?_ fun w hw e' he' => ?_
        · rw [hc]
          intro f hf
          rcases List.mem_cons.mp hf with rfl | hf
          · exact ⟨x, i, rfl⟩
          · exact hn f hf
        · have hst := hc ▸ hI.stacked
          rcases List.mem_cons.mp hw with rfl | hw
          · exact (hI.owes w e' he').eq_of_exception hI hexm
          · have hbx : Blocked g s e' x := hI.blocked_head hc hw (hI.owes w e' he')
            rw [hc] at ha
            have hwx : Waits g s x m := by
              refine hst.waits (hst.passes hI _ List.mem_cons_self hbx) ha (fun heq => ?_) fun hd => ?_
              · rw [heq, hst.begun x List.mem_cons_self] at hev
                cases hev
              · rw [hd.2] at hexm
                cases hexm
            exact (hbx.next hI hwx).eq_of_exception hI hexm
  · rename_i hev
    exact hI.push hm (Bool.eq_false_iff.mpr hev) ha

theorem EvalState.Invariant.step {op : EvalOp n ε} (hI : s.Invariant g) (hm : s.Meets g op)
    (hs : s.step g op = some s') : s'.Invariant g := by
  unfold EvalState.step at hs
  rw [if_neg (by rw [hI.freed]; exact Bool.false_ne_true)] at hs
  split at hs
  · cases hs
  · rename_i m hc
    cases hs
    have ha : Awaited g m s.calls := by
      cases hcalls : s.calls with
      | nil => trivial
      | cons f calls =>
        cases f with
        | requests x i => exact absurd hcalls (hc x i calls)
        | body x => trivial
    cases hmark : s.evalMark m with
    | false => exact hI.evaluate hmark ha fun hne => .inl (hm.resolve_right hne)
    | true =>
      rw [EvalState.evaluate, if_pos hmark]
      refine hI.ret hc fun e => ?_
      have hmem := (hI.mark m).mp hmark
      cases hcalls : s.calls with
      | nil =>
        rw [hcalls] at hmem
        cases hmem
      | cons f calls =>
        cases f with
        | requests x i => exact absurd hcalls (hc x i calls)
        | body x => exact hI.not_blocked hcalls hmem
  · rename_i m i calls hc
    simp only [EvalState.Meets, hc] at hm
    split at hs
    · rename_i m1 hm1
      cases hs
      obtain ⟨hmark, hex⟩ := hm m1 hm1
      split
      · rename_i h
        refine hI.pass hc hm1 (.inr ?_)
        rw [hc]
        exact hmark h
      · rename_i h
        refine hI.evaluate (Bool.eq_false_iff.mpr h) ?_ fun hne => .inr ⟨m, i, calls, hc, ?_⟩
        · rw [hc]
          exact hm1
        · exact hex.resolve_left hne
    · rename_i hm1
      cases hs
      exact hI.start hc (List.getElem?_eq_none_iff.mp hm1)
  · cases hs
  · rename_i r m calls hc
    cases r with
    | none =>
      cases hs
      exact hI.complete hc rfl
    | some e =>
      cases hs
      exact hI.throw hc hm rfl
  · cases hs

/-- A module that requests another one. -/
def chain : Modules 2 := ![⟨[1], [], [], [], false⟩, ⟨[], [], [], [], false⟩]

end QuickJs.Module
