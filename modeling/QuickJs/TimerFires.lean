import QuickJs.TimerInvariant

/-!
# Timers fire once

As long as the collector finds the callback of every timer in the list alive, and the clock and the
delays do not run over, each timer in the list has a live callback, fires once after its delay unless
it is cleared, and is freed once. The callback of a timer that only the timer's own callback still
refers to is collected while the timer is in the list.
-/

namespace QuickJs.Timer

open RefGraph Run

variable {s s' : State} {t n : ℕ} {due due' : ℤ} {op : Op} {ops ops' : List Op} {log : List Event}

theorem Inv.initial : Inv .initial where
  memory := by
    have hkind (o t : ℕ) : State.initial.kindOf o ≠ some (.osTimer t) := by
      match o with
      | 0 => nofun
      | _ + 1 => nofun
    exact ⟨List.nodup_nil, nofun, fun o t ho => absurd ho (hkind o t),
      fun o _ t ho => absurd ho (hkind o t), nofun, nofun⟩
  live := by
    refine ⟨fun o ho => ?_, nofun, fun o ob hob => ?_, nofun, nofun⟩
    · cases List.mem_singleton.mp ho
      rfl
    · match o with
      | 0 =>
        cases hob
        nofun
      | _ + 1 => cases hob
  logged := ⟨trivial, nofun, nofun, nofun, nofun, nofun, by decide⟩

/-! ## Punctuality -/

/-- A timer is armed once. -/
theorem Orderly.armed_inj (h : Orderly log) (ht : .armed t due ∈ log) (ht' : .armed t due' ∈ log) :
    due = due' := by
  induction log with
  | nil => cases ht
  | cons e log ih =>
    obtain ⟨hfollow, h⟩ := h
    rcases List.mem_cons.mp ht with rfl | hin <;> rcases List.mem_cons.mp ht' with heq | hin'
    · cases heq
      rfl
    · exact absurd rfl (hfollow (.armed t due') hin')
    · subst heq
      exact absurd rfl (hfollow (.armed t due) hin)
    · exact ih h hin hin'

/-- The delay of a timer has elapsed, and fewer than `n` timers in the list are before it if it is
still there. -/
def State.Overdue (s : State) (t : ℕ) (due : ℤ) (n : ℕ) : Prop :=
  .armed t due ∈ s.log ∧ due ≤ s.now ∧
    (t ∈ s.osTimers → ∃ before after, s.osTimers = before ++ t :: after ∧ before.length < n)

/-- A timer in the list does not move back. -/
theorem Onward.overdue (h : Onward s s') (hi : Inv s) (ho : s.Overdue t due n) : s'.Overdue t due n := by
  obtain ⟨harmed, hdue, hpos⟩ := ho
  refine ⟨h.log harmed, hdue.trans h.now, fun ht => ?_⟩
  obtain ⟨ts, new, hlist, hsub, hnew⟩ := h.osTimers
  have hts : t ∈ ts := by
    rw [hlist] at ht
    refine (List.mem_append.mp ht).resolve_right fun hin => ?_
    exact Nat.not_lt_of_le (hnew t hin) (hi.logged.known _ harmed)
  obtain ⟨before, after, heq, hlen⟩ := hpos (hsub.subset hts)
  have hnodup := hi.memory.nodup
  rw [heq] at hsub hnodup
  obtain ⟨l₁, l₂, rfl, hsub₁, hsub₂⟩ := List.sublist_append_iff.mp hsub
  obtain ⟨-, hnodup₂, hdisj⟩ := List.nodup_append.mp hnodup
  have ht₂ : t ∈ l₂ := by
    refine (List.mem_append.mp hts).resolve_left fun hin => ?_
    exact hdisj t (hsub₁.subset hin) t List.mem_cons_self rfl
  -- nothing but `t` itself comes first in what is left of `t :: after`
  cases hsub₂ with
  | cons _ hsub₂ => exact absurd (hsub₂.subset ht₂) (List.nodup_cons.mp hnodup₂).1
  | cons_cons _ hsub₂ =>
    rename_i l₂
    refine ⟨l₁, l₂ ++ new, ?_, hsub₁.length_le.trans_lt hlen⟩
    rw [hlist, List.append_assoc, List.cons_append]

/-- A poll takes a timer out of the list that is not behind an overdue one. -/
theorem poll_overdue (hi : Inv s) (hsafe : Op.safe s .poll) (ho : s.Overdue t due (n + 1)) :
    s.poll.Overdue t due n := by
  obtain ⟨harmed, hdue, hpos⟩ := ho
  have hdueOf {th : JSOSTimer} (ht : t ∈ s.osTimers) (hth : s.timer t = some th) : th.timeout ≤ s.now := by
    rwa [hi.logged.orderly.armed_inj (hi.logged.due t ht th hth).1 harmed]
  rcases poll_cases hi hsafe with ⟨heq, hnone⟩ | ⟨early, u, late, thu, hlist, hthu, -, heq, hearly⟩
  · refine heq.symm ▸ ⟨harmed, hdue, fun ht => ?_⟩
    obtain ⟨th, hth⟩ := hi.memory.listed t ht
    exact absurd (hdueOf ht hth) (Int.not_le.mpr (hnone t ht th hth))
  have hfire := fire_unlinks hthu
  rw [heq]
  refine ⟨hfire.onward.log harmed, hdue.trans hfire.onward.now, fun ht => ?_⟩
  have hnodup := hi.memory.nodup
  rw [hfire.osTimers, hnodup.mem_erase_iff] at ht
  obtain ⟨hne, ht⟩ := ht
  obtain ⟨before, after, hlist', hlen⟩ := hpos ht
  have hu : u ∈ before := by
    obtain ⟨th, hth⟩ := hi.memory.listed t ht
    have hnot : t ∉ early := fun hin => Int.not_le.mpr (hearly t hin th hth) (hdueOf ht hth)
    rw [hlist] at hlist'
    rcases List.append_eq_append_iff.mp hlist' with ⟨as, rfl, heq'⟩ | ⟨cs, rfl, heq'⟩
    · cases as with
      | nil => exact absurd (List.cons.inj heq').1.symm hne
      | cons a as =>
        rw [(List.cons.inj heq').1]
        exact List.mem_append_right _ List.mem_cons_self
    · cases cs with
      | nil => exact absurd (List.cons.inj heq').1 hne
      | cons c cs =>
        rw [(List.cons.inj heq').1] at hnot
        exact absurd (List.mem_append_right _ List.mem_cons_self) hnot
  refine ⟨before.erase u, after, ?_, ?_⟩
  · rw [hfire.osTimers, hlist', List.erase_append_left _ hu]
  · rw [List.length_erase_of_mem hu]
    have hpos := List.length_pos_of_mem hu
    omega

/-- A timer that is overdue leaves the list after as many polls as there are timers before it. -/
theorem overdue_exec (hi : Inv s) (hsafe : Along State.step Op.safe s ops)
    (hs : exec State.step s ops = some s') (ho : s.Overdue t due n) :
    Inv s' ∧ s'.Overdue t due (n - polls ops) := by
  induction ops generalizing s n with
  | nil =>
    cases hs
    exact ⟨hi, ho⟩
  | cons op ops ih =>
    obtain ⟨u, hu, hs⟩ := Option.bind_eq_some_iff.mp hs
    obtain ⟨hi', honward⟩ := hi.step hsafe.1 hu
    have hsafe' := hsafe.2 u hu
    by_cases hop : op = .poll
    · have hpolls : polls (op :: ops) = polls ops + 1 := by rw [hop, polls, List.count_cons_self, polls]
      rw [hpolls]
      cases n with
      | zero =>
        rw [Nat.zero_sub, ← Nat.zero_sub (polls ops)]
        exact ih hi' hsafe' hs (honward.overdue hi ho)
      | succ n =>
        rw [Nat.add_sub_add_right]
        refine ih hi' hsafe' hs ?_
        subst hop
        obtain ⟨-, hu⟩ := Option.ite_none_right_eq_some.mp hu
        cases hu
        exact poll_overdue hi hsafe.1 ho
    · have hpolls : polls (op :: ops) = polls ops := List.count_cons_of_ne hop
      rw [hpolls]
      exact ih hi' hsafe' hs (honward.overdue hi ho)

/-! ## Runs -/

/-- If the collector finds the callbacks of the timers in the list alive whenever it runs, and times
do not run over, then the timers are right: every callback is alive, every timer fires at most once,
not before its delay has elapsed and not after it has been cleared, and is freed once; and once its
delay has elapsed a timer has fired or has been cleared after as many polls as there are timers. -/
theorem timers_fire (hsafe : Along State.step Op.safe .initial (ops ++ ops'))
    (hs : exec State.step .initial ops = some s) (hs' : exec State.step s ops' = some s') :
    s.Correct ∧ ∀ t due, .armed t due ∈ s.log → due ≤ s.now → s.osTimers.length ≤ polls ops' →
      s'.Settled t ∨ s'.exited = true := by
  obtain ⟨hbefore, hafter⟩ := hsafe.of_append hs
  have hi : Inv s := hbefore.invariant (fun _ _ _ h hok hstep => (h.step hok hstep).1) Inv.initial hs
  refine ⟨hi.correct, fun t due harmed hdue hpolls => ?_⟩
  have hoverdue : s.Overdue t due s.osTimers.length := by
    refine ⟨harmed, hdue, fun ht => ?_⟩
    obtain ⟨before, after, hlist⟩ := List.append_of_mem ht
    refine ⟨before, after, hlist, ?_⟩
    rw [hlist, List.length_append, List.length_cons]
    omega
  obtain ⟨hi', harmed', -, hpos⟩ := overdue_exec hi hafter hs' hoverdue
  refine (hi'.correct.listed t due harmed').resolve_left fun ht => ?_
  obtain ⟨before, -, -, hlen⟩ := hpos ht
  omega

/-- Some test of the condition on steps. -/
def Op.passes (s : State) : Op → Bool
  | .runGC => s.osTimers.all fun t => (s.timer t).all fun th => th.func.all (· ∈ s.marked)
  | .setTimeout _ delay => s.now + delay < 2 ^ 63
  | .poll => s.osTimers.all fun t => (s.timer t).all fun th => -2 ^ 63 ≤ th.timeout - s.now
  | _ => true

theorem safe_of_passes (s : State) (op : Op) (h : op.passes s) : op.safe s := by
  cases op with
  | runGC =>
    intro t ht th func hth hf
    have h := List.all_eq_true.mp h t ht
    rw [hth, Option.all_some, hf, Option.all_some, decide_eq_true_eq] at h
    exact mem_marked_iff'.mp h
  | setTimeout func delay =>
    have hlt : s.now + delay < 2 ^ 63 := of_decide_eq_true h
    exact hlt
  | poll =>
    intro t ht th hth
    have h := List.all_eq_true.mp h t ht
    rw [hth, Option.all_some, decide_eq_true_eq] at h
    exact h
  | _ => trivial

/-- A script arms two timers and drops both objects, one before a collection; the timers fire. -/
theorem timers_fire_example :
    ∃ s s', exec State.step .initial [.setTimeout 0 5, .drop 1, .free 1, .newFunction [],
        .setTimeout 2 3, .setChild 2 3, .runGC, .drop 3, .elapse 7] = some s ∧
      exec State.step s [.poll, .pollReturns, .poll] = some s' ∧ s.Correct ∧
      (s'.Settled 0 ∨ s'.exited = true) ∧ (s'.Settled 1 ∨ s'.exited = true) := by
  obtain ⟨s, hs⟩ : ∃ s, exec State.step .initial [.setTimeout 0 5, .drop 1, .free 1,
      .newFunction [], .setTimeout 2 3, .setChild 2 3, .runGC, .drop 3, .elapse 7] = some s := ⟨_, rfl⟩
  obtain ⟨s', hs'⟩ : ∃ s', exec State.step s [.poll, .pollReturns, .poll] = some s' := by
    cases hs
    exact ⟨_, rfl⟩
  have h := timers_fire (.of_execIf safe_of_passes (by decide)) hs hs'
  refine ⟨s, s', hs, hs', h.1, h.2 0 5 ?_ ?_ ?_, h.2 1 3 ?_ ?_ ?_⟩ <;> cases hs <;> decide

/-- `let t = os.setTimeout(() => t, 1000)` in a function that returns, and a collection: the callback
is freed while its timer is in the list. -/
theorem timer_not_live : ¬ ∀ ops s, exec State.step .initial ops = some s → s.Correct := by
  intro h
  have h := (h [.newFunction [], .setTimeout 1 1000, .setChild 1 2, .drop 2, .drop 1, .runGC] _ rfl).live
  obtain ⟨th, func, hth, hf, halive⟩ := h 0 (by decide)
  cases hth
  cases hf
  revert halive
  decide

end QuickJs.Timer
