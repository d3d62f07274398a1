import QuickJs.BoundCall

/-!
# The arguments that a bound function reads

The engine makes as many arguments readable as the length of a function says, and every closure is made with the length
1, whatever its arity is. The arguments are converted from the last one to the first, each of them read from the memory
that the engine has given. `WrapClosure` compares their number with the arity; a method does not.
-/

namespace QuickJs.ArgumentBounds

open ClassWrapper BoundCall Run

variable {β : Type}

/-! ## Memory -/

/-- `js_c_function_data_call`: the memory that the arguments are read from. -/
def jsCFunctionDataCall (length : ℕ) (argv : List JSValue) : List JSValue :=
  if argv.length < length then argv ++ List.replicate (length - argv.length) .undefined else argv

/-- The length that `CreateClosure` gives to every function. -/
def closureLength : ℕ := 1

/-- `ConvertArgsImpl`, where `n + 1` arguments are left: the indices that are read, and the result. -/
def convertArgsImpl (e : Engine β) (ts : List Param) (argv : List JSValue) :
    (n : ℕ) → n ≤ ts.length → State → List (Arg β) → List ℕ × Except Stop (State × List (Arg β))
  | 0, _, s, args => ([], .ok (s, args))
  | n + 1, h, s, args =>
    match argv[n]? with
    | none => ([n], .error .undefinedBehaviour)
    | some v =>
      match convertArg e (ts[n]) v s with
      | .error stop => ([n], .error stop)
      | .ok (s, arg) =>
        let r := convertArgsImpl e ts argv n (Nat.le_of_succ_le h) s (arg :: args)
        (n :: r.1, r.2)

/-- `ConvertArgs` -/
def convertArgs (e : Engine β) (ts : List Param) (argv : List JSValue) (s : State) :
    List ℕ × Except Stop (State × List (Arg β)) :=
  convertArgsImpl e ts argv ts.length (Nat.le_refl _) s []

/-- `closure_method`; a `this` that is no wrapper is a null pointer. -/
def callMethod (e : Engine β) (classIndex : ℕ) (ts : List Param) (this : JSValue) (argv : List JSValue) (s : State) :
    List ℕ × Outcome β :=
  match jsClass s this with
  | none => ([], .undefinedBehaviour)
  | some obj =>
    let r := convertArgs e ts argv s
    (r.1, match r.2 with
      | .error stop => stop.outcome
      | .ok (s, args) => .called s (.pointer classIndex obj.handle :: args))

/-- `WrapClosure`, which knows how many arguments there are in the call. -/
def callFunction (e : Engine β) (ts : List Param) (argc : ℕ) (argv : List JSValue) (s : State) : List ℕ × Outcome β :=
  if argc ≠ ts.length then ([], .typeError)
  else
    let r := convertArgs e ts argv s
    (r.1, match r.2 with
      | .error stop => stop.outcome
      | .ok (s, args) => .called s args)

/-- A script calls a bound function: the indices at which `ConvertArgs` reads, and what comes of the call. -/
def call (e : Engine β) (this : JSValue) (argv : List JSValue) (s : State) : Bound → List ℕ × Outcome β
  | .method classIndex ts => callMethod e classIndex ts this (jsCFunctionDataCall closureLength argv) s
  | .getter classIndex => ([], callGetter classIndex this s)
  | .setter classIndex type => ([], callSetter e classIndex type this argv s)
  | .function ts => callFunction e ts argv.length (jsCFunctionDataCall closureLength argv) s

/-- Only what the engine has made readable is read. -/
def InBounds (e : Engine β) (this : JSValue) (argv : List JSValue) (s : State) (b : Bound) : Prop :=
  ∀ n ∈ (call e this argv s b).1, n < (jsCFunctionDataCall closureLength argv).length

variable {e : Engine β} {s : State} {ts ps qs : List Param} {argv : List JSValue} {this : JSValue} {b : Bound} {n : ℕ}

/-! ## The calls of `BoundCall` -/

theorem jsCFunctionDataCall_eq (argv : List JSValue) : jsCFunctionDataCall closureLength argv = padArgs argv := by
  rw [jsCFunctionDataCall, padArgs, closureLength]
  cases argv with
  | nil => rfl
  | cons v argv =>
    have hlen : ¬(v :: argv).length < 1 := Nat.not_lt.mpr (Nat.le_add_left 1 argv.length)
    rw [if_neg hlen, List.isEmpty_cons, if_neg Bool.false_ne_true]

/-- The last parameters come first. -/
theorem convertArgs_append (ps qs : List Param) (argv : List JSValue) (s : State) :
    BoundCall.convertArgs e (ps ++ qs) argv s = match BoundCall.convertArgs e qs (argv.drop ps.length) s with
      | .error stop => .error stop
      | .ok (s, args) => (BoundCall.convertArgs e ps argv s).map fun r => (r.1, r.2 ++ args) := by
  induction ps generalizing argv with
  | nil =>
    rw [List.nil_append, List.length_nil, List.drop_zero]
    cases BoundCall.convertArgs e qs argv s <;> rfl
  | cons p ps ih =>
    rw [List.cons_append, BoundCall.convertArgs, ih, List.drop_tail]
    cases BoundCall.convertArgs e qs (argv.drop (ps.length + 1)) s with
    | error stop => rfl
    | ok r =>
      dsimp only
      rw [BoundCall.convertArgs]
      cases BoundCall.convertArgs e ps argv.tail r.1 with
      | error stop => rfl
      | ok q =>
        dsimp only [Except.map]
        cases argv.head? with
        | none => rfl
        | some v =>
          dsimp only
          cases convertArg e p v q.1 <;> rfl

theorem convertArgsImpl_eq (h : n ≤ ts.length) (s : State) (args : List (Arg β)) :
    (convertArgsImpl e ts argv n h s args).2 =
      (BoundCall.convertArgs e (ts.take n) argv s).map fun r => (r.1, r.2 ++ args) := by
  induction n generalizing s args with
  | zero => rfl
  | succ n ih =>
    rw [convertArgsImpl, List.take_succ_eq_append_getElem h, convertArgs_append, List.length_take,
      Nat.min_eq_left (Nat.le_of_succ_le h), BoundCall.convertArgs, BoundCall.convertArgs]
    rw [List.head?_drop]
    cases argv[n]? with
    | none => rfl
    | some v =>
      dsimp only
      cases convertArg e ts[n] v s with
      | error stop => rfl
      | ok r =>
        dsimp only
        rw [ih]
        cases BoundCall.convertArgs e (ts.take n) argv r.1 with
        | error stop => rfl
        | ok q =>
          dsimp only [Except.map]
          rw [List.append_assoc]
          rfl

theorem convertArgs_eq (argv : List JSValue) (s : State) :
    (convertArgs e ts argv s).2 = BoundCall.convertArgs e ts argv s := by
  rw [convertArgs, convertArgsImpl_eq, List.take_length]
  cases BoundCall.convertArgs e ts argv s with
  | error stop => rfl
  | ok r =>
    dsimp only [Except.map]
    rw [List.append_nil]

/-- What comes of a call is what comes of it there. -/
theorem call_eq (b : Bound) : (call e this argv s b).2 = b.call e this argv s := by
  cases b with
  | method classIndex ts =>
    rw [call, callMethod, Bound.call, BoundCall.callMethod, jsCFunctionDataCall_eq]
    cases jsClass s this with
    | none => rfl
    | some obj =>
      dsimp only
      rewrite [convertArgs_eq]
      cases BoundCall.convertArgs e ts (padArgs argv) s <;> rfl
  | getter classIndex => rfl
  | setter classIndex type => rfl
  | function ts =>
    rw [call, callFunction, Bound.call, BoundCall.callFunction, jsCFunctionDataCall_eq]
    split
    · rfl
    · dsimp only
      rewrite [convertArgs_eq]
      cases BoundCall.convertArgs e ts (padArgs argv) s <;> rfl

/-! ## What is read -/

theorem length_jsCFunctionDataCall (length : ℕ) (argv : List JSValue) :
    (jsCFunctionDataCall length argv).length = max argv.length length := by
  rw [jsCFunctionDataCall]
  split
  · rw [List.length_append, List.length_replicate]
    omega
  · omega

theorem lt_of_mem_convertArgsImpl (h : n ≤ ts.length) (s : State) (args : List (Arg β)) :
    ∀ i ∈ (convertArgsImpl e ts argv n h s args).1, i < n := by
  induction n generalizing s args with
  | zero => exact nofun
  | succ n ih =>
    have hone : ∀ i ∈ [n], i < n + 1 := fun i hi => List.mem_singleton.mp hi ▸ Nat.lt_succ_self n
    rw [convertArgsImpl]
    split
    · exact hone
    · split
      · exact hone
      · exact List.forall_mem_cons.mpr ⟨Nat.lt_succ_self n, fun i hi => Nat.lt_succ_of_lt (ih _ _ _ i hi)⟩

/-- The last argument is read, whatever it is. -/
theorem last_mem_convertArgsImpl (h : n ≤ ts.length) (hn : n ≠ 0) (s : State) (args : List (Arg β)) :
    n - 1 ∈ (convertArgsImpl e ts argv n h s args).1 := by
  obtain ⟨n, rfl⟩ := Nat.exists_eq_succ_of_ne_zero hn
  rw [convertArgsImpl]
  split
  · exact List.mem_singleton.mpr rfl
  · split
    · exact List.mem_singleton.mpr rfl
    · exact List.mem_cons_self

/-- All arguments must be there. -/
theorem convertArgs_inBounds_iff (ts : List Param) (argv : List JSValue) (s : State) :
    (∀ i ∈ (convertArgs e ts argv s).1, i < argv.length) ↔ ts.length ≤ argv.length := by
  constructor
  · intro hall
    by_contra hshort
    have hlast := hall _ (last_mem_convertArgsImpl (Nat.le_refl ts.length) (by omega) s [])
    omega
  · intro hle i hi
    exact Nat.lt_of_lt_of_le (lt_of_mem_convertArgsImpl _ s [] i hi) hle

/-- The condition for a call: a method is called on what is no wrapper, or it finds as many arguments as it has
parameters. -/
def Enough (this : JSValue) (argv : List JSValue) (s : State) : Bound → Prop
  | .method _ ts => jsClass s this = none ∨ ts.length ≤ max argv.length closureLength
  | .getter _ | .setter _ _ | .function _ => True

/-- A method that is called on a wrapper reads all its arguments. -/
theorem method_inBounds_iff {obj : Wrapper} (hobj : jsClass s this = some obj) (classIndex : ℕ) :
    InBounds e this argv s (.method classIndex ts) ↔ ts.length ≤ max argv.length closureLength := by
  rw [InBounds, call, callMethod, hobj]
  rw [convertArgs_inBounds_iff, length_jsCFunctionDataCall]

/-- **Reading stays inside the arguments** exactly where a method finds enough of them. -/
theorem call_inBounds_iff (e : Engine β) (this : JSValue) (argv : List JSValue) (s : State) (b : Bound) :
    InBounds e this argv s b ↔ Enough this argv s b := by
  cases b with
  | method classIndex ts =>
    rw [Enough]
    cases hobj : jsClass s this with
    | none =>
      refine iff_of_true ?_ (.inl rfl)
      rw [InBounds, call, callMethod, hobj]
      exact nofun
    | some obj => rw [method_inBounds_iff hobj, or_iff_right (Option.some_ne_none obj)]
  | getter classIndex => exact iff_of_true nofun trivial
  | setter classIndex type => exact iff_of_true nofun trivial
  | function ts =>
    refine iff_of_true ?_ trivial
    rw [InBounds, call, callFunction]
    split
    · exact nofun
    · rename_i hargc
      rw [convertArgs_inBounds_iff, length_jsCFunctionDataCall, ← not_not.mp hargc]
      exact Nat.le_max_left ..

/-- A method with two parameters reads beyond the one argument that it is given when it is called without any. -/
theorem not_inBounds_method : ¬∀ (e : Engine Unit) (classes : List ClassWrapper.Class) (s : State) (b : Bound)
    (this : JSValue) (argv : List JSValue),
    Reachable (· = State.initial classes) State.step (fun _ _ => True) s → InBounds e this argv s b := by
  intro hall
  let classes : List ClassWrapper.Class := [⟨"Triangle", true⟩]
  have hrun : (exec State.step (State.initial classes) [.construct (some 0) 16 false]).any fun s =>
      (s.wrapper 0).isSome := by
    decide +kernel
  obtain ⟨s, hs, hwrapper⟩ := (Option.any_eq_true ..).mp hrun
  obtain ⟨obj, hobj⟩ := Option.isSome_iff_exists.mp hwrapper
  have hin := hall ⟨true, fun _ _ s => (s, none)⟩ classes s (.method 0 [.base .float, .base .float]) (.wrapper 0) []
    (.exec (fun _ _ => trivial) (.init rfl) hs)
  have hthis : jsClass s (.wrapper 0) = some obj := hobj
  exact absurd ((method_inBounds_iff hthis 0).mp hin) (by decide)

end QuickJs.ArgumentBounds
