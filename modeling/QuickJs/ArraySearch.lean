import Mathlib

/-!
# The search for an element

`js_array_includes` and `js_array_indexOf` go over the elements of a fast array directly, up to how many there are
when the arguments have been converted. They should only look below the length that the array had before.
-/

namespace QuickJs.ArraySearch

variable {W V E : Type}

/-- What the search asks of the object and of the engine, in a world `W`. -/
structure Host (W V E : Type) where
  /-- `js_get_length64` -/
  getLength : W → W × Except E ℕ
  /-- `JS_ToInt64SatFree` of the second argument; none if there is no second argument -/
  toInt64Sat : Option (W → W × Except E ℤ)
  /-- `js_get_fast_array` -/
  fastArray : W → Option (List V)
  /-- `JS_HasProperty` and `JS_GetProperty`, where there is no element of a fast array -/
  hasProperty : ℕ → W → W × Except E Bool
  getProperty : ℕ → W → W × Except E V
  /-- the indices of a fast array are `int32_t` -/
  fast_le : ∀ w values, fastArray w = some values → values.length ≤ 2 ^ 31

/-! ## Elements -/

/-- The element of a fast array. -/
def Host.fastElement (h : Host W V E) (idx : ℕ) (w : W) : Option V := (h.fastArray w).bind (·[idx]?)

/-- `JS_GetPropertyInt64`. -/
def Host.getPropertyInt64 (h : Host W V E) (idx : ℕ) (w : W) : W × Except E V :=
  if idx < 2 ^ 31 then
    match h.fastElement idx w with
    | some v => (w, .ok v)
    | none => h.getProperty idx w
  else h.getProperty idx w

/-- `JS_HasProperty` with an index. -/
def Host.hasElement (h : Host W V E) (idx : ℕ) (w : W) : W × Except E Bool :=
  match h.fastElement idx w with
  | some _ => (w, .ok true)
  | none => h.hasProperty idx w

/-- `JS_TryGetPropertyInt64`; none is a property that is not present. -/
def Host.tryGetPropertyInt64 (h : Host W V E) (idx : ℕ) (w : W) : W × Except E (Option V) :=
  match h.hasElement idx w with
  | (w, .error e) => (w, .error e)
  | (w, .ok false) => (w, .ok none)
  | (w, .ok true) =>
    match h.getPropertyInt64 idx w with
    | (w, .error e) => (w, .error e)
    | (w, .ok v) => (w, .ok (some v))

/-- How `js_array_includes` reads an element: one that is not there is `undefined`. -/
def Host.readAlways (h : Host W V E) (idx : ℕ) (w : W) : W × Except E (Option V) :=
  match h.getPropertyInt64 idx w with
  | (w, .error e) => (w, .error e)
  | (w, .ok v) => (w, .ok (some v))

/-! ## The search -/

/-- `JS_ToInt64Clamp` with the bounds 0 and `len`, where a negative number counts from the end. -/
def clamp (len : ℕ) (res : ℤ) : ℕ :=
  let res : ℤ := if res < 0 then res + len else res
  (if res < 0 then 0 else if (len : ℤ) < res then (len : ℤ) else res).toNat

/-- Where the search begins. -/
def Host.fromIndex (h : Host W V E) (len : ℕ) (w : W) : W × Except E ℕ :=
  match h.toInt64Sat with
  | none => (w, .ok 0)
  | some convert =>
    match convert w with
    | (w, .error e) => (w, .error e)
    | (w, .ok res) => (w, .ok (clamp len res))

/-- The loop over the elements of a fast array, from the one with the index `n` on. -/
def fastLoop (p : V → Bool) : List V → ℕ → Option ℕ
  | [], _ => none
  | v :: values, n => if p v then some n else fastLoop p values (n + 1)

/-- The loop over so many properties. -/
def genericLoop (read : ℕ → W → W × Except E (Option V)) (p : V → Bool) :
    ℕ → ℕ → W → W × Except E (Option ℕ)
  | 0, _, w => (w, .ok none)
  | k + 1, n, w =>
    match read n w with
    | (w, .error e) => (w, .error e)
    | (w, .ok v) => if v.any p then (w, .ok (some n)) else genericLoop read p k (n + 1) w

/-- The search itself, from an index below a length. -/
def Host.search (h : Host W V E) (read : ℕ → W → W × Except E (Option V)) (p : V → Bool) (len n : ℕ) (w : W) :
    W × Except E (Option ℕ) :=
  match h.fastArray w with
  | some values =>
    match fastLoop p (values.drop n) n with
    | some k => (w, .ok (some k))
    | none =>
      let n := max n values.length
      genericLoop read p (len - n) n w
  | none => genericLoop read p (len - n) n w

/-- What both functions do, with the search that is used. -/
def Host.searchFrom (h : Host W V E) (search : ℕ → ℕ → W → W × Except E (Option ℕ)) (w : W) :
    W × Except E (Option ℕ) :=
  match h.getLength w with
  | (w, .error e) => (w, .error e)
  | (w, .ok len) =>
    if 0 < len then
      match h.fromIndex len w with
      | (w, .error e) => (w, .error e)
      | (w, .ok n) => search len n w
    else (w, .ok none)

/-- A boolean or an exception. -/
def isFound (r : W × Except E (Option ℕ)) : W × Except E Bool := (r.1, r.2.map Option.isSome)

/-- An index, -1 if there is none, or an exception. -/
def foundAt (r : W × Except E (Option ℕ)) : W × Except E ℤ :=
  (r.1, r.2.map fun k => k.elim (-1) fun k => (k : ℤ))

/-- `js_array_includes`; `p` is `js_strict_eq2` with `JS_EQ_SAME_VALUE_ZERO`. -/
def Host.jsArrayIncludes (h : Host W V E) (p : V → Bool) (w : W) : W × Except E Bool :=
  isFound (h.searchFrom (h.search h.readAlways p) w)

/-- `js_array_indexOf`; `p` is `js_strict_eq2` with `JS_EQ_STRICT`. -/
def Host.jsArrayIndexOf (h : Host W V E) (p : V → Bool) (w : W) : W × Except E ℤ :=
  foundAt (h.searchFrom (h.search h.tryGetPropertyInt64 p) w)

/-! ## The specification -/

/-- Only the indices below the length are read, in order. -/
def specSearch (read : ℕ → W → W × Except E (Option V)) (p : V → Bool) (len n : ℕ) (w : W) :
    W × Except E (Option ℕ) :=
  genericLoop read p (len - n) n w

def Host.specIncludes (h : Host W V E) (p : V → Bool) (w : W) : W × Except E Bool :=
  isFound (h.searchFrom (specSearch h.readAlways p) w)

def Host.specIndexOf (h : Host W V E) (p : V → Bool) (w : W) : W × Except E ℤ :=
  foundAt (h.searchFrom (specSearch h.tryGetPropertyInt64 p) w)

/-- The elements of a fast array from `len` on do not matter: there is an equal one between `n` and `len`, or none
of them is equal. -/
def BoundHarmless (p : V → Bool) (len n : ℕ) (values : List V) : Prop :=
  (∃ j v, n ≤ j ∧ j < len ∧ values[j]? = some v ∧ p v = true) ∨
    ∀ j v, len ≤ j → values[j]? = some v → p v = false

/-- If the array is fast when the arguments have been converted, the elements beyond the length do not matter. -/
def Host.BoundKept (h : Host W V E) (p : V → Bool) (w : W) : Prop :=
  ∀ w₁ len w₂ n values, h.getLength w = (w₁, .ok len) → 0 < len → h.fromIndex len w₁ = (w₂, .ok n) →
    h.fastArray w₂ = some values → BoundHarmless p len n values

/-! ## Loops -/

variable {h : Host W V E} {read : ℕ → W → W × Except E (Option V)} {p : V → Bool} {len n k m : ℕ} {w : W}
  {values : List V} {v : V}

theorem fastLoop_spec (hk : fastLoop p values n = some k) :
    ∃ i v, k = n + i ∧ values[i]? = some v ∧ p v = true ∧ ∀ j u, j < i → values[j]? = some u → p u = false := by
  induction values generalizing n with
  | nil => cases hk
  | cons v values ih =>
    unfold fastLoop at hk
    split at hk
    · rename_i hp
      cases hk
      exact ⟨0, v, rfl, rfl, hp, fun j u hj => absurd hj (Nat.not_lt_zero j)⟩
    · rename_i hp
      obtain ⟨i, u, rfl, hu, hpu, hno⟩ := ih hk
      refine ⟨i + 1, u, by omega, hu, hpu, fun j x hj hx => ?_⟩
      cases j with
      | zero =>
        cases hx
        exact Bool.eq_false_iff.mpr hp
      | succ j => exact hno j x (Nat.lt_of_succ_lt_succ hj) hx

theorem fastLoop_none (hk : fastLoop p values n = none) (i : ℕ) (hv : values[i]? = some v) : p v = false := by
  induction values generalizing n i with
  | nil => cases hv
  | cons u values ih =>
    unfold fastLoop at hk
    split at hk
    · cases hk
    · rename_i hp
      cases i with
      | zero =>
        cases hv
        exact Bool.eq_false_iff.mpr hp
      | succ i => exact ih hk i hv

/-- Elements that are not equal are passed over. -/
theorem genericLoop_skip (i : ℕ) (hread : ∀ j < i, ∃ v, read (n + j) w = (w, .ok (some v)) ∧ p v = false) :
    genericLoop read p (i + k) n w = genericLoop read p k (n + i) w := by
  induction i generalizing n with
  | zero => rw [Nat.zero_add, Nat.add_zero]
  | succ i ih =>
    obtain ⟨v, hv, hp⟩ := hread 0 (Nat.succ_pos i)
    rw [Nat.succ_add, genericLoop, show read n w = _ from hv]
    dsimp only
    rw [Option.any_some, if_neg (Bool.eq_false_iff.mp hp), ih fun j hj => ?_, Nat.add_assoc, Nat.add_comm 1]
    obtain ⟨u, hu, hpu⟩ := hread (j + 1) (Nat.succ_lt_succ hj)
    refine ⟨u, ?_, hpu⟩
    rwa [Nat.add_assoc, Nat.add_comm 1]

/-- An equal element ends the loop. -/
theorem genericLoop_found (hk : k ≠ 0) (hread : read n w = (w, .ok (some v))) (hp : p v = true) :
    genericLoop read p k n w = (w, .ok (some n)) := by
  obtain ⟨k, rfl⟩ := Nat.exists_eq_succ_of_ne_zero hk
  rw [genericLoop, hread]
  exact if_pos hp

/-- The elements of a fast array are read without anything else. -/
structure ReadsFast (h : Host W V E) (read : ℕ → W → W × Except E (Option V)) : Prop where
  eq : ∀ w values i v, h.fastArray w = some values → values[i]? = some v → read i w = (w, .ok (some v))

theorem getPropertyInt64_fast {i : ℕ} (hfast : h.fastArray w = some values) (hv : values[i]? = some v) :
    h.getPropertyInt64 i w = (w, .ok v) := by
  have hlt := (List.getElem?_eq_some_iff.mp hv).1
  have hle := h.fast_le w values hfast
  rw [Host.getPropertyInt64, if_pos (by omega), Host.fastElement, hfast, Option.bind_some, hv]

theorem readsFast_readAlways (h : Host W V E) : ReadsFast h h.readAlways := by
  refine ⟨fun w values i v hfast hv => ?_⟩
  rw [Host.readAlways, getPropertyInt64_fast hfast hv]

theorem readsFast_tryGet (h : Host W V E) : ReadsFast h h.tryGetPropertyInt64 := by
  refine ⟨fun w values i v hfast hv => ?_⟩
  have hhas : h.hasElement i w = (w, .ok true) := by
    rw [Host.hasElement, Host.fastElement, hfast, Option.bind_some, hv]
  rw [Host.tryGetPropertyInt64, hhas]
  dsimp only
  rw [getPropertyInt64_fast hfast hv]

/-! ## The search -/

theorem clamp_le (len : ℕ) (res : ℤ) : clamp len res ≤ len := by
  unfold clamp
  dsimp only
  split_ifs <;> omega

theorem fromIndex_le {w' : W} (hn : h.fromIndex len w = (w', .ok n)) : n ≤ len := by
  unfold Host.fromIndex at hn
  split at hn
  · cases hn
    exact Nat.zero_le _
  · split at hn
    · cases hn
    · cases hn
      exact clamp_le len _

/-- The elements of a fast array that are not equal are passed over. -/
theorem genericLoop_fast (hr : ReadsFast h read) (hfast : h.fastArray w = some values) (i : ℕ)
    (hle : n + i ≤ values.length) (hno : ∀ j v, j < i → values[n + j]? = some v → p v = false) :
    genericLoop read p (i + k) n w = genericLoop read p k (n + i) w := by
  refine genericLoop_skip i fun j hj => ?_
  obtain ⟨v, hv⟩ : ∃ v, values[n + j]? = some v := ⟨_, List.getElem?_eq_getElem (by omega)⟩
  exact ⟨v, hr.eq w values (n + j) v hfast hv, hno j v hj hv⟩

/-- The search in a fast array: only an element beyond the length makes it go wrong. -/
theorem search_fast (hr : ReadsFast h read) (hfast : h.fastArray w = some values) (hn : n ≤ len) :
    (BoundHarmless p len n values ∧ h.search read p len n w = specSearch read p len n w) ∨
      (¬BoundHarmless p len n values ∧
        ∃ k, h.search read p len n w = (w, .ok (some k)) ∧ specSearch read p len n w = (w, .ok none)) := by
  rw [Host.search, hfast, specSearch]
  dsimp only
  cases hk : fastLoop p (values.drop n) n with
  | none =>
    have hno : ∀ j v, n ≤ j → values[j]? = some v → p v = false := by
      intro j v hj hv
      refine fastLoop_none hk (j - n) (v := v) ?_
      rwa [List.getElem?_drop, Nat.add_sub_cancel' hj]
    refine .inl ⟨.inr fun j v hj => hno j v (Nat.le_trans hn hj), ?_⟩
    dsimp only
    rcases Nat.le_total values.length n with hle | hle
    · rw [Nat.max_eq_left hle]
    rw [Nat.max_eq_right hle]
    rcases Nat.le_total values.length len with hlen | hlen
    · have hskip := genericLoop_fast (p := p) (k := len - values.length) hr hfast (values.length - n) (by omega)
        fun j v _ => hno (n + j) v (Nat.le_add_right n j)
      rw [Nat.add_sub_cancel' hle] at hskip
      rw [← hskip]
      congr 1
      omega
    · have hskip := genericLoop_fast (p := p) (k := 0) hr hfast (len - n) (by omega)
        fun j v _ => hno (n + j) v (Nat.le_add_right n j)
      rw [Nat.add_zero] at hskip
      rw [hskip, Nat.sub_eq_zero_of_le hlen]
      rfl
  | some k =>
    obtain ⟨i, v, rfl, hv, hp, hno⟩ := fastLoop_spec hk
    rw [List.getElem?_drop] at hv
    have hno' : ∀ j u, j < i → values[n + j]? = some u → p u = false := by
      intro j u hj hu
      refine hno j u hj ?_
      rwa [List.getElem?_drop]
    have hlt := (List.getElem?_eq_some_iff.mp hv).1
    dsimp only
    rcases Nat.lt_or_ge (n + i) len with hlen | hlen
    · refine .inl ⟨.inl ⟨n + i, v, Nat.le_add_right n i, hlen, hv, hp⟩, ?_⟩
      have hskip := genericLoop_fast (k := len - n - i) hr hfast i (Nat.le_of_lt hlt) hno'
      rw [genericLoop_found (by omega) (hr.eq w values _ v hfast hv) hp] at hskip
      rw [← hskip]
      congr 1
      omega
    · -- the loop over the properties has ended before
      refine .inr ⟨?_, n + i, rfl, ?_⟩
      · rintro (⟨j, u, hj, hjlen, hu, hpu⟩ | hall)
        · have := hno' (j - n) u (by omega) (by rwa [Nat.add_sub_cancel' hj])
          rw [hpu] at this
          cases this
        · have := hall (n + i) v hlen hv
          rw [hp] at this
          cases this
      · have hskip := genericLoop_fast (p := p) (k := 0) hr hfast (len - n) (by omega)
          fun j u hj => hno' j u (by omega)
        rw [Nat.add_zero] at hskip
        rw [hskip, genericLoop]

theorem boundKept_iff {w₁ w₂ : W} (hlen : h.getLength w = (w₁, .ok len)) (hpos : 0 < len)
    (hfrom : h.fromIndex len w₁ = (w₂, .ok n)) :
    h.BoundKept p w ↔ ∀ values, h.fastArray w₂ = some values → BoundHarmless p len n values := by
  refine ⟨fun hk values hv => hk w₁ len w₂ n values hlen hpos hfrom hv, ?_⟩
  intro hk w₁' len' w₂' n' values h1 _ h2 hv
  rw [hlen] at h1
  cases h1
  rw [hfrom] at h2
  cases h2
  exact hk values hv

/-- What is returned tells whether something has been found. -/
theorem searchFrom_iff {R : Type} (g : W × Except E (Option ℕ) → R)
    (hg : ∀ w k, g (w, .ok (some k)) ≠ g (w, .ok none)) (hr : ReadsFast h read) :
    g (h.searchFrom (h.search read p) w) = g (h.searchFrom (specSearch read p) w) ↔ h.BoundKept p w := by
  unfold Host.searchFrom
  rcases hlen : h.getLength w with ⟨w₁, e | len⟩
  · refine iff_of_true rfl fun _ _ _ _ _ h1 => ?_
    rw [hlen] at h1
    cases h1
  dsimp only
  by_cases hpos : 0 < len
  · rw [if_pos hpos, if_pos hpos]
    rcases hfrom : h.fromIndex len w₁ with ⟨w₂, e | n⟩
    · refine iff_of_true rfl fun _ _ _ _ _ h1 _ h2 => ?_
      rw [hlen] at h1
      cases h1
      rw [hfrom] at h2
      cases h2
    · rw [boundKept_iff hlen hpos hfrom]
      dsimp only
      cases hfast : h.fastArray w₂ with
      | none =>
        refine iff_of_true (congrArg g ?_) fun _ h => nomatch h
        rw [Host.search, hfast, specSearch]
      | some values =>
        rcases search_fast (p := p) hr hfast (fromIndex_le hfrom) with ⟨hb, heq⟩ | ⟨hb, k, hs, hspec⟩
        · exact iff_of_true (congrArg g heq) fun _ h => Option.some.inj h ▸ hb
        · refine iff_of_false ?_ fun hk => hb (hk values rfl)
          rw [hs, hspec]
          exact hg w₂ k
  · rw [if_neg hpos, if_neg hpos]
    refine iff_of_true rfl fun _ _ _ _ _ h1 h0 => ?_
    rw [hlen] at h1
    cases h1
    exact absurd h0 hpos

/-- `includes` and `indexOf` return what they should if and only if the elements do not matter that are beyond
the length when the arguments have been converted. -/
theorem search_spec_iff (h : Host W V E) (sameValueZero strictEq : V → Bool) (w : W) :
    (h.jsArrayIncludes sameValueZero w = h.specIncludes sameValueZero w ↔ h.BoundKept sameValueZero w) ∧
      (h.jsArrayIndexOf strictEq w = h.specIndexOf strictEq w ↔ h.BoundKept strictEq w) := by
  constructor
  · exact searchFrom_iff isFound (fun w k heq => nomatch (Prod.mk.inj heq).2) (readsFast_readAlways h)
  · refine searchFrom_iff foundAt (fun w k heq => ?_) (readsFast_tryGet h)
    have hk : (k : ℤ) = -1 := Except.ok.inj (Prod.mk.inj heq).2
    omega

/-! ## An array that grows -/

/-- The conversion of the second argument appends 2 to the array. -/
def growing : Host (List ℕ) ℕ Unit where
  getLength w := (w, .ok w.length)
  toInt64Sat := some fun w => (w ++ [2], .ok 0)
  fastArray w := some (w.take (2 ^ 31))
  hasProperty _ w := (w, .ok false)
  getProperty _ w := (w, .ok 0)
  fast_le w values h := by
    cases h
    exact List.length_take_le _ _

/-- In `[1]` the 2 that is appended is found. -/
theorem growing_found : growing.jsArrayIncludes (· = 2) [1] = ([1, 2], .ok true) ∧
      growing.specIncludes (· = 2) [1] = ([1, 2], .ok false) ∧
      growing.jsArrayIndexOf (· = 2) [1] = ([1, 2], .ok 1) ∧ growing.specIndexOf (· = 2) [1] = ([1, 2], .ok (-1)) :=
  ⟨rfl, rfl, rfl, rfl⟩

end QuickJs.ArraySearch
