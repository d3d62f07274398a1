import Mathlib.Data.List.Basic

/-!
# Stateful computations in step

Two computations with a state and with errors run in step if from related states both succeed, with related
results and states, or both fail, with related errors and states. The relation goes through sequences and loops,
and the first computation may do more than the second.
-/

namespace QuickJs.Lockstep

universe u

variable {σ τ ε δ α β α' β' ι κ : Type u} {P P' : σ → τ → Prop} {Q Q' : α → β → σ → τ → Prop}
  {R : α' → β' → σ → τ → Prop} {E E' : ε → δ → σ → τ → Prop}

inductive Ends (Q : α → β → σ → τ → Prop) (E : ε → δ → σ → τ → Prop) :
    EStateM.Result ε σ α → EStateM.Result δ τ β → Prop
  | ok {a : α} {b : β} {s : σ} {t : τ} : Q a b s t → Ends Q E (.ok a s) (.ok b t)
  | error {e : ε} {d : δ} {s : σ} {t : τ} : E e d s t → Ends Q E (.error e s) (.error d t)

/-- From states that are related by `P`, both computations succeed and end in `Q`, or both fail and end in `E`. -/
def InStep (P : σ → τ → Prop) (x : EStateM ε σ α) (y : EStateM δ τ β) (Q : α → β → σ → τ → Prop)
    (E : ε → δ → σ → τ → Prop) : Prop :=
  ∀ ⦃s t⦄, P s t → Ends Q E (x s) (y t)

variable {x : EStateM ε σ α} {f : α → EStateM ε σ α'}

theorem InStep.bind {y : EStateM δ τ β} {g : β → EStateM δ τ β'}
    (h : InStep P x y Q E) (hf : ∀ a b, InStep (Q a b) (f a) (g b) R E) : InStep P (x >>= f) (y >>= g) R E := by
  intro s t hst
  have hxy := h hst
  change Ends R E (EStateM.bind x f s) (EStateM.bind y g t)
  rw [EStateM.bind, EStateM.bind]
  generalize x s = rx at hxy
  generalize y t = ry at hxy
  cases hxy with
  | ok hQ => exact hf _ _ hQ
  | error hE => exact .error hE

/-- A step that only the first computation takes. -/
theorem InStep.bind_left {y : EStateM δ τ β'} {Q : α → σ → τ → Prop}
    (h : ∀ s t, P s t → ∃ a s', x s = .ok a s' ∧ Q a s' t) (hf : ∀ a, InStep (Q a) (f a) y R E) :
    InStep P (x >>= f) y R E := by
  intro s t hst
  obtain ⟨a, s', hx, hQ⟩ := h s t hst
  change Ends R E (EStateM.bind x f s) (y t)
  rw [EStateM.bind, hx]
  exact hf a hQ

theorem InStep.pure {a : α} {b : β} (h : ∀ s t, P s t → Q a b s t) :
    InStep (ε := ε) (δ := δ) P (pure a) (pure b) Q E :=
  fun s t hst => .ok (h s t hst)

theorem InStep.throw {e : ε} {d : δ} (h : ∀ s t, P s t → E e d s t) :
    InStep (α := α) (β := β) P (throw e) (throw d) Q E :=
  fun s t hst => .error (h s t hst)

/-- Both look at their states. -/
theorem InStep.get {f : σ → EStateM ε σ α} {g : τ → EStateM δ τ β}
    (h : ∀ s t, P s t → InStep P (f s) (g t) Q E) : InStep P (get >>= f) (get >>= g) Q E :=
  fun s t hst => h s t hst hst

/-- Loops that go through lists of the same length. -/
theorem InStep.forM_map {f : ι → EStateM ε σ PUnit} {g : κ → EStateM δ τ PUnit} {part : ι → κ} (l : List ι)
    (h : ∀ x ∈ l, InStep P (f x) (g (part x)) (fun _ _ => P) E) :
    InStep P (forM l f) (forM (l.map part) g) (fun _ _ => P) E := by
  induction l with
  | nil => exact .pure fun _ _ hst => hst
  | cons x l ih =>
    exact (h x List.mem_cons_self).bind fun _ _ => ih fun y hy => h y (List.mem_cons_of_mem x hy)

end QuickJs.Lockstep
