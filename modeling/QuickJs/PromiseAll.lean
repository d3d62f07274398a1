import QuickJs.Promise
import Mathlib

/-!
# `Promise.all`, `Promise.allSettled` and `Promise.any`

The combinator walks over an iterable and gives callbacks to every element. Each callback
is a function object with a copy of the data it was made from, the flag `alreadyCalled`
included. Walking calls into the program, which may call the callbacks it holds at any
time. The counter and the array of values are shared by all callbacks of a combinator.

`Promise.allSettled` makes two function objects for an element, so each has a flag of its
own. As long as no element has both of its callbacks called, every element counts once.
-/

namespace QuickJs.PromiseAll

open Promise Run

/-- `PROMISE_MAGIC_*`. -/
inductive Magic
  | all
  | allSettled
  | any
  deriving DecidableEq, Repr

/-- What a callback puts into the array of values. -/
inductive Slot
  | value (v : JSValue)
  /-- an object with the `status` "fulfilled" -/
  | fulfilled (value : JSValue)
  /-- an object with the `status` "rejected" -/
  | rejected (reason : JSValue)
  deriving DecidableEq, Repr

/-- A function object with `js_promise_all_resolve_element`: the bit 4 of its `magic` and
its own part of `func_data`. -/
structure ElementFunction where
  isReject : Bool
  alreadyCalled : Bool
  index : ℕ
  deriving DecidableEq, Repr

/-- Where `js_promise_all` waits for the program. -/
inductive Phase
  /-- before the loop -/
  | start
  /-- in `JS_IteratorNext` -/
  | next
  /-- in the call of `promise_resolve` -/
  | resolve
  /-- in the call of `then` -/
  | invoke
  /-- in `JS_IteratorClose` -/
  | closing (error : JSValue)
  /-- in the call of the capability at the end -/
  | settling
  /-- it has returned, after the end of the loop or after an error -/
  | returned (ended : Bool)
  deriving DecidableEq, Repr

/-- A call of a function of the capability by the combinator. -/
inductive Call
  /-- with the values, or for `any` with an `AggregateError` of them -/
  | settle (values : List (Option Slot))
  | fail (error : JSValue)
  deriving DecidableEq, Repr

def Call.isSettle : Call → Bool
  | settle _ => true
  | fail _ => false

/-- The combinator, with the history of its capability and of its callbacks. -/
structure State where
  magic : Magic
  phase : Phase
  index : ℕ
  /-- `remainingElementsCount` -/
  remaining : ℤ
  /-- the array `values`; a hole is `none` -/
  values : List (Option Slot)
  functions : List ElementFunction
  calls : List Call
  /-- the slots written by callbacks -/
  writes : List (ℕ × Slot)
  /-- the elements whose callbacks have decremented the count -/
  decrements : List ℕ
  deriving DecidableEq, Repr

/-- `JS_DefinePropertyValueUint32` on an array. -/
def definePropertyValueUint32 (values : List (Option Slot)) (i : ℕ) (v : Slot) :
    List (Option Slot) :=
  if i < values.length then values.set i (some v)
  else values ++ List.replicate (i - values.length) none ++ [some v]

namespace State

variable (s : State)

/-- The label `fail_reject`. -/
def failReject (error : JSValue) (ended : Bool) : State :=
  { s with calls := s.calls ++ [.fail error], phase := .returned ended }

/-- `remainingElementsCount_add`. -/
def remainingElementsCountAdd (addend : ℤ) : State := { s with remaining := s.remaining + addend }

/-- What `js_promise_all_resolve_element` stores. -/
def slot (isReject : Bool) (arg : JSValue) : Slot :=
  match s.magic with
  | .allSettled => if isReject then .rejected arg else .fulfilled arg
  | .all | .any => .value arg

/-- `js_promise_all_resolve_element`. -/
def jsPromiseAllResolveElement (f : ℕ) (arg : JSValue) : Option State :=
  match s.functions[f]? with
  | none => none
  | some e =>
    if e.alreadyCalled then some s
    else
      let v := s.slot e.isReject arg
      let s' : State := { s with
        functions := s.functions.set f { e with alreadyCalled := true }
        values := definePropertyValueUint32 s.values e.index v
        writes := s.writes ++ [(e.index, v)]
        decrements := s.decrements ++ [e.index] }
      let s' := s'.remainingElementsCountAdd (-1)
      some (if s'.remaining = 0 then { s' with calls := s'.calls ++ [.settle s'.values] } else s')

/-- The body of the loop once `promise_resolve` has returned: make the callbacks and give
them to `then`. -/
def makeElement : State :=
  let s' : State := { s with
    functions := s.functions ++ ⟨false, false, s.index⟩ ::
      (if s.magic = .allSettled then [⟨true, false, s.index⟩] else [])
    values := if s.magic = .any then
        definePropertyValueUint32 s.values s.index (.value .undefined)
      else s.values
    phase := .invoke }
  s'.remainingElementsCountAdd 1

/-- The end of the loop. -/
def endLoop : State :=
  let s := s.remainingElementsCountAdd (-1)
  if s.remaining = 0 then { s with calls := s.calls ++ [.settle s.values], phase := .settling }
  else { s with phase := .returned true }

end State

/-- What the program does. -/
inductive Op
  /-- the accesses before the loop -/
  | begin (error : Option JSValue)
  /-- `JS_IteratorNext` returns an item or the end -/
  | next (done : Bool)
  /-- `JS_IteratorNext` throws -/
  | nextThrow (error : JSValue)
  /-- `promise_resolve` or `then` returns, or throws -/
  | ret (error : Option JSValue)
  /-- `JS_IteratorClose` returns -/
  | closed
  /-- the capability returns, or throws -/
  | settled (error : Option JSValue)
  /-- a callback is called -/
  | call (f : ℕ) (arg : JSValue)
  deriving DecidableEq, Repr

def step (s : State) : Op → Option State
  | .begin error =>
    if s.phase = .start then
      some (match error with
        | none => { s with phase := .next }
        | some error => s.failReject error false)
    else none
  | .next done =>
    if s.phase = .next then some (if done then s.endLoop else { s with phase := .resolve }) else none
  | .nextThrow error => if s.phase = .next then some (s.failReject error false) else none
  | .ret error =>
    match s.phase, error with
    | .resolve, some error | .invoke, some error => some { s with phase := .closing error }
    | .resolve, none => some s.makeElement
    | .invoke, none => some { s with index := s.index + 1, phase := .next }
    | _, _ => none
  | .closed =>
    match s.phase with
    | .closing error => some (s.failReject error false)
    | _ => none
  | .settled error =>
    if s.phase = .settling then
      some (match error with
        | none => { s with phase := .returned true }
        | some error => s.failReject error true)
    else none
  | .call f arg => s.jsPromiseAllResolveElement f arg

/-- A combinator that has not started. -/
def Init (s : State) : Prop :=
  s.phase = .start ∧ s.index = 0 ∧ s.remaining = 1 ∧ s.values = [] ∧ s.functions = [] ∧
    s.calls = [] ∧ s.writes = [] ∧ s.decrements = []

/-- `Promise.allSettled` does not have the second callback of an element called. -/
def OneCallback (s : State) : Op → Prop
  | .call f _ => s.magic = .allSettled → ∀ e, s.functions[f]? = some e →
      ∀ (g : ℕ) e', g ≠ f → s.functions[g]? = some e' → e'.index = e.index → e'.alreadyCalled = false
  | _ => True

/-- The iterable has come to its end. -/
def Phase.ended : Phase → Bool
  | .settling | .returned true => true
  | _ => false

/-- Every element counts once. -/
structure CountsOnce (s : State) : Prop where
  /-- an element decrements the count at most once -/
  decrements : s.decrements.Nodup
  /-- and writes its slot at most once, when it does -/
  writes : s.writes.map Prod.fst = s.decrements
  /-- the combinator settles its promise only at the end, with the values of all elements in
  the order of the iterable -/
  complete : ∀ vs, Call.settle vs ∈ s.calls → s.phase.ended = true ∧ vs.length = s.index ∧
    ∀ i < s.index, i ∈ s.decrements ∧ ∃ v, (i, v) ∈ s.writes ∧ vs[i]? = some (some v)
  /-- and only once -/
  once : (s.calls.filter Call.isSettle).length ≤ 1

variable {s s' : State} {n i j k f : ℕ} {v w : Slot} {values : List (Option Slot)}

/-! ## Defining a slot -/

theorem length_define : (definePropertyValueUint32 values i v).length = max values.length (i + 1) := by
  unfold definePropertyValueUint32
  split
  · rw [List.length_set]
    omega
  · rw [List.length_append, List.length_append, List.length_replicate, List.length_singleton]
    omega

theorem getElem?_define_self : (definePropertyValueUint32 values i v)[i]? = some (some v) := by
  unfold definePropertyValueUint32
  split
  · rename_i h
    exact List.getElem?_set_self h
  · have hlen : (values ++ List.replicate (i - values.length) none).length = i := by
      rw [List.length_append, List.length_replicate]
      omega
    rw [List.getElem?_append_right (Nat.le_of_eq hlen), hlen, Nat.sub_self]
    rfl

theorem getElem?_define_ne (hj : values[j]? = some (some w)) (hne : j ≠ i) :
    (definePropertyValueUint32 values i v)[j]? = some (some w) := by
  unfold definePropertyValueUint32
  split
  · rw [List.getElem?_set_ne (Ne.symm hne), hj]
  · have hlt : j < values.length := (List.getElem?_eq_some_iff.mp hj).1
    rw [List.append_assoc, List.getElem?_append_left hlt, hj]

/-! ## The invariant -/

/-- The number of elements with callbacks is the index, except while `then` runs. -/
def Phase.Elements (index n : ℕ) : Phase → Prop
  | .invoke => n = index + 1
  | .closing _ | .returned false => True
  | .start | .next | .resolve | .settling | .returned true => n = index

/-- The invariant of a combinator that has made callbacks for `n` elements. -/
structure InvAt (s : State) (n : ℕ) : Prop where
  elements : s.phase.Elements s.index n
  /-- the loop has one of the count until it ends -/
  remaining : s.remaining = (if s.phase.ended then 0 else 1) + n - s.decrements.length
  /-- the flag of an element that has counted is set in one of its callbacks -/
  called : ∀ i ∈ s.decrements, ∃ (g : ℕ) (e : ElementFunction), s.functions[g]? = some e ∧
    e.index = i ∧ e.alreadyCalled = true
  bounded : ∀ e ∈ s.functions, e.index < n
  unique : s.magic ≠ .allSettled → ∀ (f g : ℕ) (e e' : ElementFunction),
    s.functions[f]? = some e → s.functions[g]? = some e' → e.index = e'.index → f = g
  nodup : s.decrements.Nodup
  writes : s.writes.map Prod.fst = s.decrements
  slots : ∀ i v, (i, v) ∈ s.writes → s.values[i]? = some (some v)
  length : s.values.length ≤ n
  calls : ∀ vs, Call.settle vs ∈ s.calls → s.phase.ended = true ∧ s.remaining = 0 ∧ vs = s.values
  once : (s.calls.filter Call.isSettle).length ≤ 1

section

variable (h : InvAt s n)

include h

/-- An element that has counted is one of the `n`. -/
theorem InvAt.decrement_lt (hi : i ∈ s.decrements) : i < n := by
  obtain ⟨g, e, hg, rfl, _⟩ := h.called i hi
  exact h.bounded e (List.mem_of_getElem? hg)

theorem InvAt.subperm : s.decrements.Subperm (List.range n) :=
  h.nodup.subperm fun _ hj => List.mem_range.mpr (h.decrement_lt hj)

theorem InvAt.length_le : s.decrements.length ≤ n :=
  List.length_range (n := n) ▸ h.subperm.length_le

/-- The count is not zero before the loop ends. -/
theorem InvAt.ended_of_zero (hzero : s.remaining = 0) : s.phase.ended = true := by
  by_contra hne
  have hcount := h.remaining
  have hle := h.length_le
  rw [if_neg hne] at hcount
  omega

/-- When the count is zero every element has counted. -/
theorem InvAt.full (hzero : s.remaining = 0) (hi : i < n) : i ∈ s.decrements := by
  have hlen : n ≤ s.decrements.length := by
    have hcount := h.remaining
    omega
  have hperm := h.subperm.perm_of_length_le (by rwa [List.length_range])
  exact hperm.mem_iff.mpr (List.mem_range.mpr hi)

/-- An element without a called callback has not counted. -/
theorem InvAt.fresh {e : ElementFunction} {arg : JSValue}
    (hok : OneCallback s (.call f arg)) (hf : s.functions[f]? = some e)
    (hcalled : e.alreadyCalled = false) : e.index ∉ s.decrements := by
  intro hmem
  obtain ⟨g, e', hg, hindex, hcalled'⟩ := h.called _ hmem
  have hne : g ≠ f := by
    rintro rfl
    rw [hf, Option.some.injEq] at hg
    rw [hg, hcalled'] at hcalled
    cases hcalled
  by_cases hmagic : s.magic = .allSettled
  · have hnot := hok hmagic e hf g e' hne hg hindex
    rw [hcalled'] at hnot
    cases hnot
  · exact hne (h.unique hmagic g f e' e hg hf hindex)

/-! ## Steps -/

/-- The combinator settles its promise: the count is zero and it has not done so before. -/
theorem InvAt.settle {ph : Phase} (hzero : s.remaining = 0)
    (hnone : ∀ vs, Call.settle vs ∉ s.calls) (hphase : ph.Elements s.index n)
    (hended : ph.ended = true) :
    InvAt { s with calls := s.calls ++ [.settle s.values], phase := ph } n := by
  have hcount := h.remaining
  rw [h.ended_of_zero hzero] at hcount
  refine ⟨hphase, ?_, h.called, h.bounded, h.unique, h.nodup, h.writes, h.slots, h.length,
    fun vs hvs => ?_, ?_⟩
  · exact hcount.trans (by rw [hended])
  · rcases List.mem_append.mp hvs with hvs | hvs
    · exact (hnone vs hvs).elim
    · rw [List.mem_singleton, Call.settle.injEq] at hvs
      exact ⟨hended, hzero, hvs⟩
  · have hfilter : s.calls.filter Call.isSettle = [] := by
      rw [List.filter_eq_nil_iff]
      intro c hc
      cases c with
      | settle vs => exact (hnone vs hc).elim
      | fail => nofun
    rw [List.filter_append, hfilter]
    exact Nat.le_refl 1

/-- An error ends the combinator without settling. -/
theorem InvAt.failReject {error : JSValue} {ended : Bool}
    (hended : s.phase.ended = ended) (hphase : ended = true → n = s.index) :
    InvAt (s.failReject error ended) n := by
  have hended' : (s.failReject error ended).phase.ended = s.phase.ended := by
    rw [hended]
    cases ended <;> rfl
  refine ⟨?_, ?_, h.called, h.bounded, h.unique, h.nodup, h.writes, h.slots, h.length, fun vs hvs => ?_, ?_⟩
  · cases ended with
    | true => exact hphase rfl
    | false => trivial
  · rw [hended']
    exact h.remaining
  · rcases List.mem_append.mp hvs with hvs | hvs
    · rw [hended']
      exact h.calls vs hvs
    · cases List.mem_singleton.mp hvs
  · rw [State.failReject, List.filter_append, List.length_append]
    exact h.once

/-- Moving on without counting. -/
theorem InvAt.phase {ph : Phase} (hphase : ph.Elements k n)
    (hended : ph.ended = s.phase.ended) : InvAt { s with phase := ph, index := k } n := by
  refine ⟨hphase, ?_, h.called, h.bounded, h.unique, h.nodup, h.writes, h.slots, h.length,
    fun vs hvs => ?_, h.once⟩
  · exact hended ▸ h.remaining
  · exact hended ▸ h.calls vs hvs

end

/-- Setting a flag keeps the indices of the callbacks. -/
theorem getElem?_of_set {l : List ElementFunction} {e e' : ElementFunction} {b : Bool}
    (hf : l[f]? = some e) (h : (l.set f { e with alreadyCalled := b })[k]? = some e') :
    ∃ e'', l[k]? = some e'' ∧ e''.index = e'.index := by
  by_cases hk : f = k
  · subst hk
    rw [List.getElem?_set_self (List.getElem?_eq_some_iff.mp hf).1, Option.some.injEq] at h
    exact ⟨e, hf, h ▸ rfl⟩
  · rw [List.getElem?_set_ne hk] at h
    exact ⟨e', h, rfl⟩

/-- A callback counts at most once. -/
theorem inv_call {arg : JSValue} (h : InvAt s n) (hok : OneCallback s (.call f arg))
    (hs : s.jsPromiseAllResolveElement f arg = some s') : InvAt s' n := by
  unfold State.jsPromiseAllResolveElement at hs
  split at hs
  · cases hs
  rename_i e hf
  split at hs
  · exact Option.some.inj hs ▸ h
  rename_i hcalled
  have hfresh : e.index ∉ s.decrements := h.fresh hok hf (Bool.eq_false_iff.mpr hcalled)
  have hlt : e.index < n := h.bounded e (List.mem_of_getElem? hf)
  have hnone : ∀ vs, Call.settle vs ∉ s.calls := fun vs hvs =>
    hfresh (h.full (h.calls vs hvs).2.1 hlt)
  have hflen : f < s.functions.length := (List.getElem?_eq_some_iff.mp hf).1
  simp only at hs
  -- the state before the promise is settled
  have h₁ : InvAt { s with
      functions := s.functions.set f { e with alreadyCalled := true }
      values := definePropertyValueUint32 s.values e.index (s.slot e.isReject arg)
      writes := s.writes ++ [(e.index, s.slot e.isReject arg)]
      decrements := s.decrements ++ [e.index]
      remaining := s.remaining + -1 } n := by
    refine ⟨h.elements, ?_, fun i hi => ?_, fun e' he' => ?_, fun hmagic g g' e₁ e₂ h₁ h₂ heq => ?_,
      ?_, ?_, fun i v hv => ?_, ?_, fun vs hvs => (hnone vs hvs).elim, h.once⟩
    · have hcount := h.remaining
      simp only [List.length_append, List.length_singleton]
      omega
    · rcases List.mem_append.mp hi with hi | hi
      · obtain ⟨g, e', hg, hindex, hcalled'⟩ := h.called i hi
        have hne : f ≠ g := by
          rintro rfl
          rw [hf, Option.some.injEq] at hg
          exact hcalled (hg ▸ hcalled')
        exact ⟨g, e', by rw [List.getElem?_set_ne hne, hg], hindex, hcalled'⟩
      · exact ⟨f, _, List.getElem?_set_self hflen, (List.mem_singleton.mp hi).symm, rfl⟩
    · rcases List.mem_or_eq_of_mem_set he' with he' | rfl
      · exact h.bounded e' he'
      · exact hlt
    · obtain ⟨e₁', he₁, hindex₁⟩ := getElem?_of_set hf h₁
      obtain ⟨e₂', he₂, hindex₂⟩ := getElem?_of_set hf h₂
      exact h.unique hmagic g g' e₁' e₂' he₁ he₂ (hindex₁.trans (heq.trans hindex₂.symm))
    · exact List.nodup_append.mpr ⟨h.nodup, List.nodup_singleton _, fun a ha b hb hab =>
        hfresh (List.mem_singleton.mp hb ▸ hab ▸ ha)⟩
    · rw [List.map_append, h.writes]
      rfl
    · rcases List.mem_append.mp hv with hv | hv
      · refine getElem?_define_ne (h.slots i v hv) ?_
        rintro rfl
        exact hfresh (h.writes ▸ List.mem_map_of_mem hv)
      · rw [List.mem_singleton, Prod.mk.injEq] at hv
        rw [hv.1, hv.2]
        exact getElem?_define_self
    · rw [length_define]
      have hlen := h.length
      omega
  split at hs
  · rename_i hzero
    rw [← Option.some.inj hs]
    exact h₁.settle hzero hnone h.elements (h₁.ended_of_zero hzero)
  · exact Option.some.inj hs ▸ h₁

/-- The callbacks of a new element. -/
theorem inv_makeElement (h : InvAt s n) (hphase : s.phase = .resolve) : InvAt s.makeElement (n + 1) := by
  have hn : n = s.index := by
    have helements := h.elements
    rwa [hphase] at helements
  have hnew : ∀ e ∈ ElementFunction.mk false false s.index ::
      (if s.magic = .allSettled then [ElementFunction.mk true false s.index] else []),
      e.index = n := by
    intro e he
    rw [List.mem_cons] at he
    rcases he with rfl | he
    · exact hn.symm
    · split at he
      · rw [List.mem_singleton.mp he, hn]
      · cases he
  have hended : s.phase.ended = false := by rw [hphase]; rfl
  refine ⟨congrArg (· + 1) hn, ?_, fun i hi => ?_, fun e he => ?_, fun hmagic f g e e' hf hg heq => ?_,
    h.nodup, h.writes, fun i v hv => ?_, ?_, fun vs hvs => ?_, h.once⟩
  · have hcount := h.remaining
    rw [hended] at hcount
    change s.remaining + 1 = (if false then 0 else 1) + ((n + 1 : ℕ) : ℤ) - s.decrements.length
    omega
  · obtain ⟨g, e, hg, hindex, hcalled⟩ := h.called i hi
    exact ⟨g, e, List.getElem?_append_left (List.getElem?_eq_some_iff.mp hg).1 ▸ hg, hindex, hcalled⟩
  · rcases List.mem_append.mp he with he | he
    · exact Nat.lt_succ_of_lt (h.bounded e he)
    · exact hnew e he ▸ Nat.lt_succ_self _
  · -- other than `allSettled` make one function for an element
    have hfns : s.makeElement.functions = s.functions ++ [⟨false, false, s.index⟩] :=
      congrArg (s.functions ++ _ :: ·) (if_neg hmagic)
    have hcase : ∀ {f : ℕ} {e : ElementFunction}, s.makeElement.functions[f]? = some e →
        s.functions[f]? = some e ∧ e.index < n ∨ f = s.functions.length ∧ e.index = n := by
      intro f e hf
      rw [hfns, List.getElem?_append] at hf
      split at hf
      · exact .inl ⟨hf, h.bounded e (List.mem_of_getElem? hf)⟩
      · obtain ⟨hlen, hf⟩ := List.getElem?_eq_some_iff.mp hf
        rw [List.getElem_singleton] at hf
        rw [List.length_singleton] at hlen
        exact .inr ⟨by omega, by rw [← hf, hn]⟩
    rcases hcase hf with ⟨hf, hlt⟩ | ⟨rfl, hidx⟩ <;> rcases hcase hg with ⟨hg, hlt'⟩ | ⟨rfl, hidx'⟩
    · exact h.unique hmagic f g e e' hf hg heq
    · omega
    · omega
    · rfl
  · have hold := h.slots i v hv
    have hlt : i < n := h.decrement_lt (h.writes ▸ List.mem_map_of_mem hv)
    rw [State.makeElement]
    split
    · exact getElem?_define_ne hold (by omega)
    · exact hold
  · have hlen := h.length
    rw [State.makeElement, State.remainingElementsCountAdd]
    simp only
    split
    · rw [length_define]
      omega
    · omega
  · have hcalls := h.calls vs hvs
    rw [hended] at hcalls
    cases hcalls.1

/-- The end of the loop. -/
theorem inv_endLoop (h : InvAt s n) (hphase : s.phase = .next) : InvAt s.endLoop n := by
  have hn : n = s.index := by
    have helements := h.elements
    rwa [hphase] at helements
  have hended : s.phase.ended = false := by rw [hphase]; rfl
  have hnone : ∀ vs, Call.settle vs ∉ s.calls := by
    intro vs hvs
    have hcalls := (h.calls vs hvs).1
    rw [hended] at hcalls
    cases hcalls
  have h₁ : InvAt { s with remaining := s.remaining + -1, phase := .returned true } n := by
    refine ⟨hn, ?_, h.called, h.bounded, h.unique, h.nodup, h.writes, h.slots, h.length,
      fun vs hvs => (hnone vs hvs).elim, h.once⟩
    have hcount := h.remaining
    rw [hended] at hcount
    change s.remaining + -1 = (if true then 0 else 1) + (n : ℤ) - s.decrements.length
    rw [if_pos rfl]
    rw [if_neg Bool.false_ne_true] at hcount
    omega
  unfold State.endLoop State.remainingElementsCountAdd
  simp only
  split
  · rename_i hzero
    exact h₁.settle hzero hnone hn rfl
  · exact h₁

theorem inv_init (h : Init s) : InvAt s 0 := by
  obtain ⟨hphase, hindex, hremaining, hvalues, hfunctions, hcalls, hwrites, hdecrements⟩ := h
  refine ⟨?_, ?_, ?_, ?_, ?_, ?_, ?_, ?_, ?_, ?_, ?_⟩
  · rw [hphase, hindex]
    rfl
  · rw [hphase, hremaining, hdecrements]
    rfl
  · rw [hdecrements]
    nofun
  · rw [hfunctions]
    nofun
  · rw [hfunctions]
    nofun
  · rw [hdecrements]
    exact List.nodup_nil
  · rw [hwrites, hdecrements]
    rfl
  · rw [hwrites]
    nofun
  · rw [hvalues]
    exact Nat.le_refl 0
  · rw [hcalls]
    nofun
  · rw [hcalls]
    exact Nat.zero_le 1

/-- Every step keeps the invariant as long as an element has one callback called. -/
theorem inv_step {o : Op} (h : ∃ n, InvAt s n) (hok : OneCallback s o) (hs : step s o = some s') :
    ∃ n, InvAt s' n := by
  obtain ⟨n, h⟩ := h
  have helements := h.elements
  cases o with
  | begin error =>
    simp only [step] at hs
    split at hs
    · rename_i hphase
      rw [hphase] at helements
      rw [← Option.some.inj hs]
      cases error with
      | none => exact ⟨n, h.phase helements (by rw [hphase]; rfl)⟩
      | some error => exact ⟨n, h.failReject (by rw [hphase]; rfl) nofun⟩
    · cases hs
  | next done =>
    simp only [step] at hs
    split at hs
    · rename_i hphase
      rw [hphase] at helements
      rw [← Option.some.inj hs]
      cases done with
      | false => exact ⟨n, h.phase helements (by rw [hphase]; rfl)⟩
      | true => exact ⟨n, inv_endLoop h hphase⟩
    · cases hs
  | nextThrow error =>
    simp only [step] at hs
    split at hs
    · rename_i hphase
      rw [← Option.some.inj hs]
      exact ⟨n, h.failReject (by rw [hphase]; rfl) nofun⟩
    · cases hs
  | ret error =>
    simp only [step] at hs
    split at hs
    · rename_i hphase
      rw [← Option.some.inj hs]
      exact ⟨n, h.phase trivial (by rw [hphase]; rfl)⟩
    · rename_i hphase
      rw [← Option.some.inj hs]
      exact ⟨n, h.phase trivial (by rw [hphase]; rfl)⟩
    · rename_i hphase
      rw [← Option.some.inj hs]
      exact ⟨n + 1, inv_makeElement h hphase⟩
    · rename_i hphase
      rw [hphase] at helements
      rw [← Option.some.inj hs]
      exact ⟨n, h.phase helements (by rw [hphase]; rfl)⟩
    · cases hs
  | closed =>
    simp only [step] at hs
    split at hs
    · rename_i hphase
      rw [← Option.some.inj hs]
      exact ⟨n, h.failReject (by rw [hphase]; rfl) nofun⟩
    · cases hs
  | settled error =>
    simp only [step] at hs
    split at hs
    · rename_i hphase
      rw [hphase] at helements
      rw [← Option.some.inj hs]
      cases error with
      | none => exact ⟨n, h.phase helements (by rw [hphase]; rfl)⟩
      | some error => exact ⟨n, h.failReject (by rw [hphase]; rfl) fun _ => helements⟩
    · cases hs
  | call f arg => exact ⟨n, inv_call h hok hs⟩

/-- Unless `Promise.allSettled` has both callbacks of an element called, every element
counts once, whatever the order of the calls. -/
theorem elements_countOnce (h : Reachable Init step OneCallback s) : CountsOnce s := by
  obtain ⟨n, hi⟩ : ∃ n, InvAt s n :=
    h.invariant (fun _ hinit => ⟨0, inv_init hinit⟩) fun _ _ _ hi hok hs => inv_step hi hok hs
  refine ⟨hi.nodup, hi.writes, fun vs hvs => ?_, hi.once⟩
  obtain ⟨hended, hzero, rfl⟩ := hi.calls vs hvs
  have hn : n = s.index := by
    have helements := hi.elements
    revert hended helements
    cases s.phase with
    | settling => exact fun _ h => h
    | returned ended => cases ended <;> first | exact fun _ h => h | nofun
    | _ => nofun
  have hslot : ∀ i < n, i ∈ s.decrements ∧ ∃ v, (i, v) ∈ s.writes ∧ s.values[i]? = some (some v) := by
    intro i hlt
    have hmem := hi.full hzero hlt
    rw [← hi.writes] at hmem
    obtain ⟨⟨_, v⟩, hv, rfl⟩ := List.mem_map.mp hmem
    exact ⟨hi.full hzero hlt, v, hv, hi.slots _ v hv⟩
  rw [← hn]
  refine ⟨hended, Nat.le_antisymm hi.length (Nat.le_of_not_lt fun hlt => ?_), hslot⟩
  obtain ⟨_, v, _, hv⟩ := hslot _ hlt
  rw [List.getElem?_eq_none (Nat.le_refl _)] at hv
  cases hv

/-- `Promise.allSettled` of one element whose callback is called after the loop. -/
theorem elements_countOnce_example : ∃ s, s.calls = [.settle [some (.fulfilled (.prim 7))]] ∧
    CountsOnce s := by
  have hstart : Reachable Init step OneCallback ⟨.allSettled, .start, 0, 1, [], [], [], [], []⟩ :=
    .init ⟨rfl, rfl, rfl, rfl, rfl, rfl, rfl, rfl⟩
  have hloop := ((((hstart.step (o := Op.begin none) trivial rfl).step (o := Op.next false) trivial
    rfl).step (o := Op.ret none) trivial rfl).step (o := Op.ret none) trivial rfl).step
    (o := Op.next true) trivial rfl
  refine ⟨_, ?_, elements_countOnce (hloop.step (o := Op.call 0 (.prim 7)) ?_ rfl)⟩
  · rfl
  · intro _ e _ g e' hne hg _
    match g, hne, hg with
    | 0, hne, _ => exact (hne rfl).elim
    | 1, _, hg => exact Option.some.inj hg ▸ rfl

/-- The only element of `Promise.allSettled` calls both of its callbacks at once. It counts
twice, and the promise is settled while the loop goes on. -/
theorem allSettled_countsTwice : ¬∀ s, Reachable Init step (fun _ _ => True) s → CountsOnce s := by
  intro hall
  have hinit : Reachable Init step (fun _ _ => True)
      ⟨.allSettled, .start, 0, 1, [], [], [], [], []⟩ :=
    .init ⟨rfl, rfl, rfl, rfl, rfl, rfl, rfl, rfl⟩
  have hrun : ∃ s, exec step ⟨.allSettled, .start, 0, 1, [], [], [], [], []⟩
      [.begin none, .next false, .ret none, .call 0 (.prim 7), .call 1 (.prim 8)] = some s ∧
      s.decrements = [0, 0] := ⟨_, rfl, rfl⟩
  obtain ⟨s, hs, htwice⟩ := hrun
  have honce := (hall s (hinit.exec (fun _ _ => trivial) hs)).decrements
  rw [htwice] at honce
  exact absurd honce (by decide)

end QuickJs.PromiseAll
