import QuickJs.Run
import Mathlib

/-!
# Waiting and notifying

`js_atomics_wait` and `js_atomics_notify`. What a thread does between taking `js_atomics_mutex` and
giving it back, at the end or by waiting on its condition variable, is one step. A thread that is
blocked on its condition variable wakes because it is signalled, because its time is over, or for
no reason; which of these it was is decided when it wakes, and it then has to take the mutex again.
In between other threads have their turns.
-/

namespace QuickJs.AtomicsWait

open Run

/-- What the call of `pthread_cond_wait` or `pthread_cond_timedwait` returned. -/
inductive CondRet
  | zero
  | timedOut
  deriving DecidableEq

/-- What `Atomics.wait` returns, if it entered the list. -/
inductive WaitResult
  | ok
  | timedOut
  deriving DecidableEq

/-- Where the thread of a waiter is. -/
inductive Status
  /-- it sleeps on the condition variable -/
  | blocked
  /-- it has been woken, and has to take the mutex again -/
  | woken (ret : CondRet)
  /-- the call has returned -/
  | returned (result : WaitResult)
  deriving DecidableEq

def int32Max : ℕ := 2 ^ 31 - 1

def int64Max : ℕ := 2 ^ 63 - 1

/-- The timeout in milliseconds, from the integral part of the number; `none` is a NaN. -/
def clampTimeout : Option ℤ → ℕ
  | none => int64Max
  | some d => if d > int64Max then int64Max else if d < 0 then 0 else d.toNat

/-- The count of `js_atomics_notify`; `none` is `undefined`. -/
def clampCount : Option ℤ → ℕ
  | none => int32Max
  | some c => if c > int32Max then int32Max else if c < 0 then 0 else c.toNat

/-- `JSAtomicsWaiter`. That it was a notify which unlinked it, and which one, is written down
beside it. -/
structure Waiter where
  ptr : ℕ
  timeout : ℕ
  linked : Bool
  status : Status
  removedBy : Option ℕ
  deriving DecidableEq

/-- The waiters are numbered in the order in which they entered the list. -/
structure State where
  /-- the shared memory, read as 32 or 64 bits -/
  mem : ℕ → Bool → ℤ
  waiters : List Waiter
  /-- `js_atomics_waiter_list` -/
  list : List ℕ
  /-- what the calls of notify have returned -/
  notifies : List ℕ

def State.Init (s : State) : Prop := s.waiters = [] ∧ s.list = [] ∧ s.notifies = []

inductive Op
  /-- a thread calls `Atomics.wait` -/
  | wait (ptr : ℕ) (wide : Bool) (v : ℤ) (timeout : Option ℤ)
  /-- the time of a waiter is over -/
  | timeout (w : ℕ)
  /-- a waiter wakes without a signal -/
  | spurious (w : ℕ)
  /-- a waiter takes the mutex again, and its call returns -/
  | resume (w : ℕ)
  /-- a thread calls `Atomics.notify` -/
  | notify (ptr : ℕ) (shared : Bool) (count : Option ℤ)
  /-- a thread stores into the memory -/
  | store (mem : ℕ → Bool → ℤ)

def State.ptrOf (s : State) (w : ℕ) : Option ℕ := s.waiters[w]?.map Waiter.ptr

/-- The first section of `js_atomics_wait`. -/
def wait (s : State) (ptr : ℕ) (wide : Bool) (v : ℤ) (timeout : Option ℤ) : State :=
  if s.mem ptr wide ≠ v then s else { s with
    waiters := s.waiters ++ [⟨ptr, clampTimeout timeout, true, .blocked, none⟩]
    list := s.list ++ [s.waiters.length] }

/-- The call that a waiter sleeps in returns. -/
def wake (ret : CondRet) (x : Waiter) : Waiter := { x with
  status := if x.status = .blocked then .woken ret else x.status }

/-- The result of a call of wait. -/
def CondRet.result : CondRet → WaitResult
  | .timedOut => .timedOut
  | .zero => .ok

/-- The second section of `js_atomics_wait`. -/
def resume (s : State) (w : ℕ) (x : Waiter) (ret : CondRet) : State := { s with
  waiters := s.waiters.set w { x with status := .returned ret.result }
  list := if x.linked then s.list.erase w else s.list }

/-- The first loop of `js_atomics_notify`: what stays in the list, and what goes to the list of the
notifier. -/
def unlink (ptrOf : ℕ → Option ℕ) (ptr count : ℕ) : List ℕ → ℕ → List ℕ × List ℕ
  | [], _ => ([], [])
  | w :: el, n =>
    if ptrOf w = some ptr then
      if count ≤ n + 1 then (el, [w]) else
        let r := unlink ptrOf ptr count el (n + 1)
        (r.1, w :: r.2)
    else
      let r := unlink ptrOf ptr count el n
      (w :: r.1, r.2)

/-- A waiter has been moved to the list of a notifier, and its condition variable is signalled. -/
def remove (k : ℕ) (x : Waiter) : Waiter :=
  wake .zero { x with linked := false, removedBy := some k }

/-- What a notifier does to the waiters it has taken from the list. -/
def removeAll (k : ℕ) : List ℕ → List Waiter → List Waiter
  | [], waiters => waiters
  | w :: el, waiters => removeAll k el (waiters.modify w (remove k))

/-- `js_atomics_notify`. -/
def notify (s : State) (ptr : ℕ) (shared : Bool) (count : Option ℤ) : State :=
  if shared ∧ 0 < clampCount count then
    let r := unlink s.ptrOf ptr (clampCount count) s.list 0
    { s with
      waiters := removeAll s.notifies.length r.2 s.waiters
      list := r.1
      notifies := s.notifies ++ [r.2.length] }
  else { s with notifies := s.notifies ++ [0] }

/-- Only a waiter that sleeps is woken, and only one with a timeout by the time. -/
def State.step (s : State) : Op → Option State
  | .wait ptr wide v timeout => some (wait s ptr wide v timeout)
  | .timeout w => do
    let x ← s.waiters[w]?
    if x.status = .blocked ∧ x.timeout ≠ int64Max then
      some { s with waiters := s.waiters.set w (wake .timedOut x) }
    else none
  | .spurious w => do
    let x ← s.waiters[w]?
    if x.status = .blocked then some { s with waiters := s.waiters.set w (wake .zero x) } else none
  | .resume w => do
    let x ← s.waiters[w]?
    match x.status with
    | .woken ret => some (resume s w x ret)
    | _ => none
  | .notify ptr shared count => some (notify s ptr shared count)
  | .store mem => some { s with mem := mem }

/-- The wait returns ok, or can still do so. -/
def Waiter.returnsOk (x : Waiter) : Bool := x.status ≠ .returned .timedOut

/-- A wait that has returned ok was removed by a notify, one that has timed out was not, and a
notify has returned the number of the waits which it removed and which return ok. -/
structure Accounted (s : State) : Prop where
  ok : ∀ x ∈ s.waiters, x.status = .returned .ok → x.removedBy.isSome
  timedOut : ∀ x ∈ s.waiters, x.status = .returned .timedOut → x.removedBy = none
  counted : ∀ k n, s.notifies[k]? = some n → n = s.waiters.countP fun x => x.removedBy = some k ∧ x.returnsOk

/-- A waiter that takes the mutex again has slept until a notify unlinked it, or until its time was
over and none had. -/
def Faithful (s : State) : Op → Prop
  | .resume w => ∀ x ∈ s.waiters[w]?, x.status = .woken .zero ↔ x.linked = false
  | _ => True

/-! ## The list and the waiters -/

variable {s s' : State} {o : Op} {ops : List Op} {w k : ℕ} {x y : Waiter} {l l₁ l₂ : List ℕ}
  {ws : List Waiter} {P : Waiter → Prop}

/-- A waiter whose call has not returned. -/
def Waiter.Pending (x : Waiter) : Prop := ∀ r, x.status ≠ .returned r

/-- The list has the waiters that are linked and have not returned; the others have been removed
by a notify. -/
structure Listed (l : List ℕ) (ws : List Waiter) : Prop where
  nodup : l.Nodup
  mem : ∀ w, w ∈ l ↔ ∃ x, ws[w]? = some x ∧ x.linked = true ∧ x.Pending
  removed : ∀ x ∈ ws, x.linked = true ↔ x.removedBy = none

/-- How many waiters a notify has removed. -/
def removals (k : ℕ) (ws : List Waiter) : ℕ := ws.countP fun x => x.removedBy = some k

/-- A notify has returned the number of the waiters that it removed. -/
structure Consistent (s : State) : Prop where
  listed : Listed s.list s.waiters
  counted : ∀ k, removals k s.waiters = (s.notifies[k]?).getD 0

/-- The result of a call says whether a notify has removed the waiter. -/
def Waiter.Honest (x : Waiter) : Prop := ∀ r, x.status = .returned r → (r = .ok ↔ x.linked = false)

theorem Waiter.Pending.honest (h : x.Pending) : x.Honest := fun r hr => absurd hr (h r)

theorem forall_mem_set (hx : ws[w]? = some x) (hPx : P x) :
    (∀ z ∈ ws.set w y, P z) ↔ (∀ z ∈ ws, P z) ∧ P y := by
  have hw : w < ws.length := (List.getElem?_eq_some_iff.mp hx).1
  constructor
  · intro h
    refine ⟨fun z hz => ?_, h y (List.mem_set hw y)⟩
    obtain ⟨i, hi⟩ := List.mem_iff_getElem?.mp hz
    by_cases hwi : w = i
    · subst hwi
      rw [hx] at hi
      exact Option.some.inj hi ▸ hPx
    · refine h z (List.mem_iff_getElem?.mpr ⟨i, ?_⟩)
      rw [List.getElem?_set_ne hwi]
      exact hi
  · intro h z hz
    rcases List.mem_or_eq_of_mem_set hz with hz | hz
    · exact h.1 z hz
    · exact hz ▸ h.2

/-- A waiter changes, but neither where it is linked nor by whom it was removed. -/
theorem removals_set (hx : ws[w]? = some x) : removals k (ws.set w y) =
      removals k ws - (if x.removedBy = some k then 1 else 0) + if y.removedBy = some k then 1 else 0 := by
  obtain ⟨hw, hx⟩ := List.getElem?_eq_some_iff.mp hx
  rw [removals, List.countP_set hw, hx]
  simp only [decide_eq_true_eq]
  rfl

theorem removals_pos (hx : ws[w]? = some x) (hk : x.removedBy = some k) : 0 < removals k ws :=
  List.countP_pos_iff.mpr ⟨x, List.mem_of_getElem? hx, by simpa using hk⟩

theorem removals_set_of_eq (hx : ws[w]? = some x) (hr : y.removedBy = x.removedBy) :
    removals k (ws.set w y) = removals k ws := by
  rw [removals_set hx, hr]
  split
  · have := removals_pos hx ‹_›
    omega
  · rfl

/-- A waiter wakes. -/
theorem Listed.set (h : Listed l ws) (hx : ws[w]? = some x) (hlinked : y.linked = x.linked)
    (hremoved : y.removedBy = x.removedBy) (hpending : y.Pending ↔ x.Pending) :
    Listed l (ws.set w y) := by
  refine ⟨h.nodup, fun v => ?_, ?_⟩
  · rw [h.mem v]
    by_cases hwv : w = v
    · subst hwv
      rw [List.getElem?_set_self (List.getElem?_eq_some_iff.mp hx).1, hx]
      simp only [Option.some.injEq, exists_eq_left', hlinked, hpending]
    · rw [List.getElem?_set_ne hwv]
  · have hxr := h.removed x (List.mem_of_getElem? hx)
    exact (forall_mem_set hx hxr).mpr ⟨h.removed, by rw [hlinked, hremoved]; exact hxr⟩

/-- A waiter returns, and leaves the list if it is linked. -/
theorem Listed.resume (h : Listed l ws) (hx : ws[w]? = some x) (hlinked : y.linked = x.linked) (hremoved : y.removedBy = x.removedBy) (hy : ¬ y.Pending) :
    Listed (if x.linked then l.erase w else l) (ws.set w y) := by
  have hw : w < ws.length := (List.getElem?_eq_some_iff.mp hx).1
  refine ⟨?_, fun v => ?_, ?_⟩
  · split
    · exact h.nodup.erase w
    · exact h.nodup
  · by_cases hwv : w = v
    · subst hwv
      rw [List.getElem?_set_self hw]
      constructor
      · intro hv
        cases hxl : x.linked <;> rw [hxl] at hv
        · obtain ⟨z, hz, hzl, -⟩ := (h.mem w).mp hv
          rw [hx] at hz
          cases hz
          rw [hxl] at hzl
          cases hzl
        · exact absurd hv h.nodup.not_mem_erase
      · rintro ⟨z, hz, -, hzp⟩
        exact absurd (Option.some.inj hz ▸ hzp) hy
    · rw [List.getElem?_set_ne hwv, ← h.mem v]
      split
      · exact List.mem_erase_of_ne (Ne.symm hwv)
      · rfl
  · have hxr := h.removed x (List.mem_of_getElem? hx)
    exact (forall_mem_set hx hxr).mpr ⟨h.removed, by rw [hlinked, hremoved]; exact hxr⟩

variable {ret : CondRet} {ptr : ℕ}

/-! ## Notifying -/

theorem wake_pending (x : Waiter) : (wake ret x).Pending ↔ x.Pending := by
  simp only [Waiter.Pending, wake]
  split
  · rename_i hb
    simp [hb]
  · rfl

/-- A notifier takes a waiter from the list. -/
theorem Listed.remove (h : Listed (l₁ ++ w :: l₂) ws) :
    ∃ x, ws[w]? = some x ∧ x.removedBy = none ∧ x.Pending ∧
      ws.modify w (remove k) = ws.set w (AtomicsWait.remove k x) ∧
      Listed (l₁ ++ l₂) (ws.set w (AtomicsWait.remove k x)) := by
  obtain ⟨x, hx, hxl, hxp⟩ := (h.mem w).mp (List.mem_append_right _ (.head _))
  have hw : w < ws.length := (List.getElem?_eq_some_iff.mp hx).1
  have hxr : x.removedBy = none := (h.removed x (List.mem_of_getElem? hx)).mp hxl
  have hperm : (w :: (l₁ ++ l₂)).Nodup := (List.perm_middle.nodup_iff).mp h.nodup
  have hset : ws.modify w (AtomicsWait.remove k) = ws.set w (AtomicsWait.remove k x) := by
    refine List.ext_getElem? fun i => ?_
    by_cases hwi : w = i
    · subst hwi
      rw [List.getElem?_modify_eq, List.getElem?_set_self hw, hx]
      rfl
    · rw [List.getElem?_modify_ne _ _ hwi, List.getElem?_set_ne hwi]
  refine ⟨x, hx, hxr, hxp, hset, (List.nodup_cons.mp hperm).2, fun v => ?_, ?_⟩
  · by_cases hwv : w = v
    · subst hwv
      rw [List.getElem?_set_self hw]
      constructor
      · intro hv
        exact absurd hv (List.nodup_cons.mp hperm).1
      · rintro ⟨z, hz, hzl, -⟩
        cases hz
        cases hzl
    · rw [List.getElem?_set_ne hwv, ← h.mem v]
      simp only [List.mem_append, List.mem_cons, Ne.symm hwv, false_or]
  · refine (forall_mem_set hx (h.removed x (List.mem_of_getElem? hx))).mpr ⟨h.removed, ?_⟩
    constructor <;> rintro ⟨⟩

/-- A notifier takes waiters from the list: they are pending before and after, and it has removed
as many more as these are. -/
theorem Listed.removeAll (h : Listed (l₁ ++ l₂) ws) : Listed l₁ (removeAll k l₂ ws) ∧
      (∀ j, removals j (AtomicsWait.removeAll k l₂ ws) = removals j ws + if j = k then l₂.length else 0) ∧
      ((∀ x ∈ AtomicsWait.removeAll k l₂ ws, x.Honest) ↔ ∀ x ∈ ws, x.Honest) := by
  induction l₂ generalizing ws with
  | nil =>
    rw [List.append_nil] at h
    exact ⟨h, fun j => by simp [AtomicsWait.removeAll], Iff.rfl⟩
  | cons w l₂ ih =>
    obtain ⟨x, hx, hxr, hxp, hset, hl⟩ := h.remove (k := k)
    rw [AtomicsWait.removeAll, hset]
    obtain ⟨hl', hcount, hhonest⟩ := ih hl
    refine ⟨hl', fun j => ?_, hhonest.trans ?_⟩
    · rw [hcount, removals_set hx, hxr]
      simp only [AtomicsWait.remove, wake, List.length_cons, Option.some.injEq, reduceCtorEq, if_false]
      by_cases hj : j = k
      · subst hj
        simp only [if_true]
        omega
      · rw [if_neg hj, if_neg hj, if_neg (Ne.symm hj)]
        omega
    · rw [forall_mem_set hx hxp.honest]
      refine and_iff_left (Waiter.Pending.honest ?_)
      exact (wake_pending _).mpr hxp

/-- The notifier splits the list. -/
theorem unlink_perm (ptrOf : ℕ → Option ℕ) (ptr count n : ℕ) (l : List ℕ) :
    List.Perm ((unlink ptrOf ptr count l n).1 ++ (unlink ptrOf ptr count l n).2) l := by
  induction l generalizing n with
  | nil => exact .nil
  | cons w l ih =>
    rw [unlink]
    split
    · split
      · exact List.perm_append_singleton w l
      · exact List.perm_middle.trans (.cons w (ih (n + 1)))
    · exact .cons w (ih n)

theorem Listed.perm (h : Listed l₁ ws) (hp : List.Perm l₁ l₂) : Listed l₂ ws :=
  ⟨hp.nodup_iff.mp h.nodup, fun w => hp.mem_iff.symm.trans (h.mem w), h.removed⟩

/-! ## Every step -/

/-- Every call has told the truth. -/
def State.Honest (s : State) : Prop := ∀ x ∈ s.waiters, x.Honest

/-- A notifier writes down what it returns. -/
theorem getD_append_single (l : List ℕ) (n k : ℕ) :
    ((l ++ [n])[k]?).getD 0 = (l[k]?).getD 0 + if k = l.length then n else 0 := by
  rcases Nat.lt_trichotomy k l.length with h | h | h
  · rw [List.getElem?_append_left h, if_neg (Nat.ne_of_lt h)]
    rfl
  · subst h
    simp
  · rw [List.getElem?_eq_none (by simp; omega), List.getElem?_eq_none (Nat.le_of_lt h),
      if_neg (Nat.ne_of_gt h)]
    rfl

theorem wait_step {wide : Bool} {v : ℤ} {timeout : Option ℤ} (h : Consistent s) :
    Consistent (wait s ptr wide v timeout) ∧ ((wait s ptr wide v timeout).Honest ↔ s.Honest) := by
  rw [wait]
  split
  · exact ⟨h, Iff.rfl⟩
  have hlast : ∀ z ∈ [(⟨ptr, clampTimeout timeout, true, .blocked, none⟩ : Waiter)], z.Honest :=
    List.forall_mem_singleton.mpr fun r hr => by cases hr
  refine ⟨⟨⟨?_, fun w => ?_, ?_⟩, fun k => ?_⟩, ?_⟩
  · refine List.nodup_append.mpr ⟨h.listed.nodup, List.nodup_cons.mpr ⟨List.not_mem_nil, .nil⟩, ?_⟩
    rintro a ha b hb rfl
    rw [List.mem_singleton] at hb
    obtain ⟨x, hx, -⟩ := (h.listed.mem a).mp ha
    rw [hb, List.getElem?_eq_none (Nat.le_refl _)] at hx
    cases hx
  · rw [List.mem_append, List.mem_singleton, h.listed.mem w]
    rcases Nat.lt_trichotomy w s.waiters.length with hw | hw | hw
    · rw [List.getElem?_append_left hw]
      exact or_iff_left (Nat.ne_of_lt hw)
    · subst hw
      rw [List.getElem?_concat_length]
      exact iff_of_true (.inr rfl) ⟨_, rfl, rfl, by rintro _ ⟨⟩⟩
    · rw [List.getElem?_eq_none (Nat.le_of_lt hw), List.getElem?_eq_none (by simp; omega)]
      constructor
      · rintro (⟨_, hx, _⟩ | rfl)
        · cases hx
        · exact absurd hw (Nat.lt_irrefl _)
      · rintro ⟨_, hx, _⟩
        cases hx
  · intro x hx
    rcases List.mem_append.mp hx with hx | hx
    · exact h.listed.removed x hx
    · rw [List.mem_singleton] at hx
      subst hx
      exact iff_of_true rfl rfl
  · rw [← h.counted k, removals, List.countP_append]
    rfl
  · refine ⟨fun hs x hx => hs x (List.mem_append_left _ hx), fun hs x hx => ?_⟩
    rcases List.mem_append.mp hx with hx | hx
    · exact hs x hx
    · exact hlast x hx

/-- A waiter wakes, which is no answer yet. -/
theorem wake_step (h : Consistent s) (hx : s.waiters[w]? = some x)
    (hb : x.status = .blocked) :
    Consistent { s with waiters := s.waiters.set w (wake ret x) } ∧
      (State.Honest { s with waiters := s.waiters.set w (wake ret x) } ↔ s.Honest) := by
  have hxp : x.Pending := fun r hr => by rw [hb] at hr; cases hr
  refine ⟨⟨h.listed.set hx rfl rfl (wake_pending x), fun k => ?_⟩, ?_⟩
  · rw [removals_set_of_eq hx (by rfl), h.counted]
  · refine (forall_mem_set hx hxp.honest).trans (and_iff_left ?_)
    exact ((wake_pending x).mpr hxp).honest

/-- A waiter returns, and tells the truth if it was woken for a good reason. -/
theorem resume_step (h : Consistent s) (hx : s.waiters[w]? = some x)
    (hw : x.status = .woken ret) :
    Consistent (resume s w x ret) ∧
      ((resume s w x ret).Honest ↔ s.Honest ∧ (x.status = .woken .zero ↔ x.linked = false)) := by
  have hxp : x.Pending := fun r hr => by rw [hw] at hr; cases hr
  refine ⟨⟨h.listed.resume hx rfl rfl fun hp => hp _ rfl, fun k => ?_⟩, ?_⟩
  · rw [resume, removals_set_of_eq hx (by rfl), h.counted]
  · refine (forall_mem_set hx hxp.honest).trans (and_congr_right fun _ => ?_)
    rw [hw]
    cases ret <;> simp [Waiter.Honest, CondRet.result]

theorem notify_step {shared : Bool} {count : Option ℤ} (h : Consistent s) :
    Consistent (notify s ptr shared count) ∧ ((notify s ptr shared count).Honest ↔ s.Honest) := by
  rw [notify]
  split
  · obtain ⟨hl, hcount, hhonest⟩ := (h.listed.perm
      (unlink_perm s.ptrOf ptr (clampCount count) 0 s.list).symm).removeAll (k := s.notifies.length)
    refine ⟨⟨hl, fun k => ?_⟩, hhonest⟩
    rw [hcount, h.counted, getD_append_single]
  · refine ⟨⟨h.listed, fun k => ?_⟩, Iff.rfl⟩
    rw [h.counted, getD_append_single, ite_self, Nat.add_zero]

theorem step_honest (h : Consistent s) (hs : s.step o = some s') :
    Consistent s' ∧ (s'.Honest ↔ s.Honest ∧ Faithful s o) := by
  cases o with
  | wait ptr wide v timeout =>
    cases hs
    exact (wait_step h).imp_right fun h => h.trans (and_iff_left trivial).symm
  | timeout w =>
    obtain ⟨x, hx, hs⟩ := Option.bind_eq_some_iff.mp hs
    split at hs <;> cases hs
    rename_i hb
    exact (wake_step h hx hb.1).imp_right fun h => h.trans (and_iff_left trivial).symm
  | spurious w =>
    obtain ⟨x, hx, hs⟩ := Option.bind_eq_some_iff.mp hs
    split at hs <;> cases hs
    rename_i hb
    exact (wake_step h hx hb).imp_right fun h => h.trans (and_iff_left trivial).symm
  | resume w =>
    obtain ⟨x, hx, hs⟩ := Option.bind_eq_some_iff.mp hs
    split at hs <;> cases hs
    rename_i ret hw
    refine (resume_step h hx hw).imp_right fun h => h.trans (and_congr_right fun _ => ?_)
    simp only [Faithful, hx, Option.mem_def, Option.some.injEq, forall_eq']
  | notify ptr shared count =>
    cases hs
    exact (notify_step h).imp_right fun h => h.trans (and_iff_left trivial).symm
  | store mem =>
    cases hs
    exact ⟨⟨h.listed, h.counted⟩, (and_iff_left trivial).symm⟩

/-! ## Runs -/

theorem consistent_of_init (h : s.Init) : Consistent s := by
  obtain ⟨hw, hl, hn⟩ := h
  refine ⟨⟨by rw [hl]; exact List.nodup_nil, fun w => ?_, ?_⟩, fun k => ?_⟩
  · rw [hl, hw]
    exact iff_of_false List.not_mem_nil fun ⟨_, hx, _⟩ => by cases hx
  · rw [hw]
    exact fun _ hx => by cases hx
  · rw [hw, hn]
    rfl

def exampleState : State := ⟨fun _ _ => 0, [], [], []⟩

/-- In a run the list holds each waiter that waits once, a notify unlinks a waiter for good, and
each notify has returned how many it unlinked. -/
theorem consistent_of_exec (hi : s.Init) (hr : exec State.step s ops = some s') : Consistent s' :=
  (exec_iff_along (I := Consistent) (P := State.Honest)
    (fun _ _ _ => step_honest) (consistent_of_init hi) hr).1

/-- Of two waiters one is timed out, and a notify which may wake one finds it still linked. -/
theorem consistent_example : ∃ s', exec State.step exampleState
      [.wait 8 false 0 (some 10), .wait 8 false 0 none, .timeout 0, .notify 8 true (some 1),
        .resume 0] = some s' ∧ Consistent s' := by
  have hrun : ∃ s', exec State.step exampleState
      [.wait 8 false 0 (some 10), .wait 8 false 0 none, .timeout 0, .notify 8 true (some 1),
        .resume 0] = some s' := ⟨_, rfl⟩
  obtain ⟨s', hs⟩ := hrun
  exact ⟨s', hs, consistent_of_exec ⟨rfl, rfl, rfl⟩ hs⟩

end QuickJs.AtomicsWait
