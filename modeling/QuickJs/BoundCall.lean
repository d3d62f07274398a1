import QuickJs.ClassWrapper

/-!
# Calls of bound functions

The methods, getters and setters of a registered class and the functions that take references to
objects of registered classes get their handles from the wrappers they are called with. All
wrappers have the same class id and the class index of a wrapper is never looked at, so that a
native function gets whatever handle is there.
-/

namespace QuickJs.BoundCall

open ClassWrapper Run

/-- The types with a `ConvertToCppType`. -/
inductive BaseType
  | int32 | uint32 | double | string | float | bool

/-- A parameter of a bound function: a value of a base type, or an object of a class. -/
inductive Param
  | base (type : BaseType)
  | pointer (classIndex : ℕ)

/-- The values of a script: whether they are wrappers is all that is looked at here. -/
inductive JSValue
  | undefined
  | wrapper (w : ℕ)
  | other (v : ℕ)

/-- An argument of a native function; a handle is taken for an object of the class. -/
inductive Arg (β : Type)
  | base (b : β)
  | pointer (classIndex : ℕ) (handle : Handle)
  deriving DecidableEq

/-- The build, and `ConvertToCppType<T>::Convert`, which may run a script and change the state. -/
structure Engine (β : Type) where
  ndebug : Bool
  convert : BaseType → JSValue → State → State × Option β

/-- Why the arguments were not converted: with an exception, by a failed assertion, or because
there is no such argument. -/
inductive Stop
  | failed | aborted | undefinedBehaviour

/-- What comes of a call: the native function is called in a state with its arguments; the other
ends do not call it. -/
inductive Outcome (β : Type)
  | called (s : State) (args : List (Arg β))
  | typeError
  | returned
  | aborted
  | undefinedBehaviour

variable {β : Type}

def Stop.outcome : Stop → Outcome β
  | .failed => .typeError
  | .aborted => .aborted
  | .undefinedBehaviour => .undefinedBehaviour

/-- `JS_GetOpaque` with the class id of the wrappers. -/
def jsClass (s : State) : JSValue → Option Wrapper
  | .wrapper w => s.wrapper w
  | _ => none

/-- `GetOpaque`. -/
def getOpaque (s : State) (v : JSValue) : Handle :=
  match jsClass s v with
  | none => 0
  | some obj => obj.handle

/-- `ConvertArg`. -/
def convertArg (e : Engine β) (p : Param) (v : JSValue) (s : State) :
    Except Stop (State × Arg β) :=
  match p with
  | .base type =>
    match e.convert type v s with
    | (s, some b) => .ok (s, .base b)
    | (_, none) => .error .failed
  | .pointer classIndex =>
    let handle := getOpaque s v
    if handle = 0 then .error (if e.ndebug then .failed else .aborted)
    else .ok (s, .pointer classIndex handle)

/-- `ConvertArgs`, from the last argument to the first. -/
def convertArgs (e : Engine β) : List Param → List JSValue → State → Except Stop (State × List (Arg β))
  | [], _, s => .ok (s, [])
  | p :: ps, argv, s =>
    match convertArgs e ps argv.tail s with
    | .error stop => .error stop
    | .ok (s, args) =>
      match argv.head? with
      | none => .error .undefinedBehaviour
      | some v =>
        match convertArg e p v s with
        | .error stop => .error stop
        | .ok (s, arg) => .ok (s, arg :: args)

/-- `js_c_function_data_call` pads the arguments to the length of the function, which is 1. -/
def padArgs (argv : List JSValue) : List JSValue := if argv.isEmpty then [.undefined] else argv

/-- A bound function, with the class it belongs to. -/
inductive Bound
  | method (classIndex : ℕ) (params : List Param)
  | getter (classIndex : ℕ)
  | setter (classIndex : ℕ) (type : BaseType)
  | function (params : List Param)

/-- `closure_method`. -/
def callMethod (e : Engine β) (classIndex : ℕ) (params : List Param) (this : JSValue)
    (argv : List JSValue) (s : State) : Outcome β :=
  match jsClass s this with
  | none => .undefinedBehaviour
  | some obj =>
    match convertArgs e params (padArgs argv) s with
    | .error stop => stop.outcome
    | .ok (s, args) => .called s (.pointer classIndex obj.handle :: args)

/-- `closure_getter`. -/
def callGetter (classIndex : ℕ) (this : JSValue) (s : State) : Outcome β :=
  match jsClass s this with
  | none => .undefinedBehaviour
  | some obj => .called s [.pointer classIndex obj.handle]

/-- `closure_setter`. -/
def callSetter (e : Engine β) (classIndex : ℕ) (type : BaseType) (this : JSValue)
    (argv : List JSValue) (s : State) : Outcome β :=
  match argv with
  | [v] =>
    match jsClass s this with
    | none => .undefinedBehaviour
    | some obj =>
      match e.convert type v s with
      | (s, some b) => .called s [.pointer classIndex obj.handle, .base b]
      | (_, none) => if e.ndebug then .returned else .aborted
  | _ => .typeError

/-- `WrapClosure`. -/
def callFunction (e : Engine β) (params : List Param) (argv : List JSValue) (s : State) :
    Outcome β :=
  if argv.length ≠ params.length then .typeError
  else match convertArgs e params (padArgs argv) s with
    | .error stop => stop.outcome
    | .ok (s, args) => .called s args

/-- A script calls a bound function. -/
def Bound.call (e : Engine β) (this : JSValue) (argv : List JSValue) (s : State) :
    Bound → Outcome β
  | .method classIndex params => callMethod e classIndex params this argv s
  | .getter classIndex => callGetter classIndex this s
  | .setter classIndex type => callSetter e classIndex type this argv s
  | .function params => callFunction e params argv s

/-! ## Type safety -/

/-- The handle is the address of a native object that is alive and was made by the constructor
of the class. -/
def isInstance (s : State) (classIndex : ℕ) (handle : Handle) : Bool :=
  (s.native handle).any fun n => s.natives[n]?.any fun x => x.classIndex = classIndex

def Arg.Live (s : State) : Arg β → Prop
  | .base _ => True
  | .pointer classIndex handle => isInstance s classIndex handle

/-- The native function gets live handles of the right classes, or a `TypeError` is raised. -/
def Outcome.TypeSafe : Outcome β → Prop
  | .called s args => ∀ arg ∈ args, arg.Live s
  | .typeError => True
  | .returned | .aborted | .undefinedBehaviour => False

/-! ## The calls that are type safe -/

/-- The conversion of an argument, and the state in which it starts. -/
structure Conversion where
  param : Param
  value : JSValue
  state : State

/-- The state after a conversion. -/
def Conversion.after (e : Engine β) (c : Conversion) : State :=
  match c.param with
  | .base type => (e.convert type c.value c.state).1
  | .pointer _ => c.state

/-- The conversions of the arguments, and the state after them. -/
def conversions (e : Engine β) : List Param → List JSValue → State → List Conversion × State
  | p :: ps, v :: argv, s =>
    let c : Conversion := ⟨p, v, (conversions e ps argv s).2⟩
    (c :: (conversions e ps argv s).1, c.after e)
  | _, _, s => ([], s)

/-- The value has the base type, or it is a wrapper with a handle. -/
def Conversion.Accepted (e : Engine β) (c : Conversion) : Prop :=
  match c.param with
  | .base type => (e.convert type c.value c.state).2.isSome
  | .pointer _ => getOpaque c.state c.value ≠ 0

/-- The value is refused with an exception. -/
def Conversion.Refused (e : Engine β) (c : Conversion) : Prop :=
  match c.param with
  | .base type => (e.convert type c.value c.state).2 = none
  | .pointer _ => getOpaque c.state c.value = 0 ∧ e.ndebug

/-- The wrapper has a live handle of the class. -/
def Conversion.Live (s : State) (c : Conversion) : Prop :=
  match c.param with
  | .base _ => True
  | .pointer classIndex => isInstance s classIndex (getOpaque c.state c.value)

/-- An argument is refused and all after it are accepted. -/
def Refused (e : Engine β) : List Conversion → Prop
  | [] => False
  | c :: cs => Refused e cs ∨ (∀ d ∈ cs, d.Accepted e) ∧ c.Refused e

/-- There are enough arguments; one of them is refused, or all are accepted and their handles,
and the one the function is called on, are live and of their classes. -/
def ArgsMeet (e : Engine β) (params : List Param) (argv : List JSValue) (s : State)
    (self : State → Prop) : Prop :=
  params.length ≤ argv.length ∧ (Refused e (conversions e params argv s).1 ∨
    (∀ c ∈ (conversions e params argv s).1,
      c.Accepted e ∧ c.Live (conversions e params argv s).2) ∧ self (conversions e params argv s).2)

/-- A call that has the right handles. -/
def Bound.Meets (e : Engine β) (this : JSValue) (argv : List JSValue) (s : State) : Bound → Prop
  | .method classIndex params => ∃ obj, jsClass s this = some obj ∧
    ArgsMeet e params (padArgs argv) s fun s => isInstance s classIndex obj.handle
  | .getter classIndex => ∃ obj, jsClass s this = some obj ∧ isInstance s classIndex obj.handle
  | .setter classIndex type => argv.length ≠ 1 ∨ ∃ obj v, jsClass s this = some obj ∧ argv = [v] ∧
    (e.convert type v s).2.isSome ∧ isInstance (e.convert type v s).1 classIndex obj.handle
  | .function params => argv.length ≠ params.length ∨ ArgsMeet e params (padArgs argv) s fun _ => True

variable {e : Engine β} {s t : State} {p : Param} {v this : JSValue} {argv : List JSValue}

theorem convertArg_spec (c : Conversion) : match convertArg e c.param c.value c.state with
    | .ok (t, arg) => c.Accepted e ∧ (∀ u, arg.Live u ↔ c.Live u) ∧ t = c.after e
    | .error .failed => c.Refused e
    | .error .aborted => ¬c.Accepted e ∧ ¬c.Refused e
    | .error .undefinedBehaviour => False := by
  obtain ⟨p, v, s⟩ := c
  cases p with
  | base type =>
    simp only [convertArg, Conversion.Accepted, Conversion.Refused, Conversion.after]
    rcases e.convert type v s with ⟨t, _ | b⟩
    · rfl
    · exact ⟨rfl, fun _ => Iff.rfl, rfl⟩
  | pointer classIndex =>
    simp only [convertArg, Conversion.Refused]
    by_cases hnull : getOpaque s v = 0
    · rw [if_pos hnull]
      cases hndebug : e.ndebug with
      | false => exact ⟨fun h => h hnull, fun h => nomatch h.2⟩
      | true => exact ⟨hnull, rfl⟩
    · rw [if_neg hnull]
      exact ⟨hnull, fun _ => Iff.rfl, rfl⟩

/-- A refused value is not accepted. -/
theorem Conversion.Refused.not_accepted {c : Conversion} (h : c.Refused e) : ¬c.Accepted e := by
  obtain ⟨p, v, s⟩ := c
  cases p with
  | base type =>
    intro hsome
    simp only [Conversion.Accepted] at h hsome
    rw [h] at hsome
    cases hsome
  | pointer classIndex => exact fun hne => hne h.1

theorem Refused.not_accepted : ∀ {cs : List Conversion}, Refused e cs → ¬∀ c ∈ cs, c.Accepted e
  | _ :: _, .inl h => fun hall => h.not_accepted fun c hc => hall c (.tail _ hc)
  | _ :: _, .inr h => fun hall => h.2.not_accepted (hall _ (.head _))

/-- With too few arguments the conversion starts behind their end. -/
theorem convertArgs_short (s : State) : ∀ (params : List Param) (argv : List JSValue),
    argv.length < params.length → convertArgs e params argv s = .error .undefinedBehaviour
  | [p], [], _ => rfl
  | p :: q :: ps, [], _ => by
    rw [convertArgs, convertArgs_short s (q :: ps) [].tail (Nat.succ_pos _)]
  | p :: ps, v :: argv, h => by
    rw [convertArgs, List.tail_cons, convertArgs_short s ps argv (Nat.lt_of_succ_lt_succ h)]

/-- The conversion goes through the arguments as the condition does. -/
theorem convertArgs_spec (s : State) : ∀ (params : List Param) (argv : List JSValue),
    params.length ≤ argv.length →
    match convertArgs e params argv s with
    | .ok (t, args) => t = (conversions e params argv s).2 ∧
      (∀ c ∈ (conversions e params argv s).1, c.Accepted e) ∧
      ∀ u, (∀ arg ∈ args, arg.Live u) ↔ ∀ c ∈ (conversions e params argv s).1, c.Live u
    | .error .failed => Refused e (conversions e params argv s).1
    | .error .aborted => ¬Refused e (conversions e params argv s).1 ∧
      ¬∀ c ∈ (conversions e params argv s).1, c.Accepted e
    | .error .undefinedBehaviour => False
  | [], argv, _ => ⟨rfl, nofun, fun _ => ⟨nofun, nofun⟩⟩
  | p :: ps, v :: argv, h => by
    have ih := convertArgs_spec s ps argv (Nat.le_of_succ_le_succ h)
    rw [convertArgs, List.tail_cons]
    rcases hrest : convertArgs e ps argv s with stop | ⟨t, args⟩ <;> rw [hrest] at ih
    · cases stop with
      | failed => exact .inl ih
      | aborted =>
        exact ⟨fun hr => hr.elim ih.1 fun hr => ih.2 hr.1, fun hall => ih.2 fun c hc => hall c (.tail _ hc)⟩
      | undefinedBehaviour => exact ih
    · obtain ⟨rfl, hall, hlive⟩ := ih
      have hnot : ¬Refused e (conversions e ps argv s).1 := fun hr => hr.not_accepted hall
      have hfirst := convertArg_spec (e := e) ⟨p, v, (conversions e ps argv s).2⟩
      simp only [List.head?_cons] at hfirst ⊢
      rcases harg : convertArg e p v (conversions e ps argv s).2 with stop | ⟨t, arg⟩ <;>
        rw [harg] at hfirst
      · cases stop with
        | failed => exact .inr ⟨hall, hfirst⟩
        | aborted =>
          exact ⟨fun hr => hr.elim hnot fun hr => hfirst.2 hr.2, fun hall => hfirst.1 (hall _ (.head _))⟩
        | undefinedBehaviour => exact hfirst
      · obtain ⟨haccepted, hfirstLive, rfl⟩ := hfirst
        refine ⟨rfl, List.forall_mem_cons.mpr ⟨haccepted, hall⟩, fun u => ?_⟩
        rw [List.forall_mem_cons, hfirstLive, hlive, conversions, List.forall_mem_cons]

/-- A native function that is called with the converted arguments, after `self` for the object it is
called on. -/
theorem args_typeSafe_iff (params : List Param) (argv : List JSValue) (s : State) (self : List (Arg β)) :
    Outcome.TypeSafe (match convertArgs e params argv s with
      | .error stop => stop.outcome
      | .ok (s, args) => .called s (self ++ args)) ↔
    ArgsMeet e params argv s fun s => ∀ arg ∈ self, arg.Live s := by
  obtain hlt | hge := Nat.lt_or_ge argv.length params.length
  · rw [convertArgs_short s params argv hlt]
    exact ⟨False.elim, fun h => absurd hlt (Nat.not_lt.mpr h.1)⟩
  · have hspec := convertArgs_spec (e := e) s params argv hge
    rcases h : convertArgs e params argv s with stop | ⟨t, args⟩ <;> rw [h] at hspec
    · cases stop with
      | failed => exact ⟨fun _ => ⟨hge, .inl hspec⟩, fun _ => trivial⟩
      | aborted =>
        refine ⟨False.elim, fun hmeets => hmeets.2.elim hspec.1 fun hgood => hspec.2 ?_⟩
        exact fun c hc => (hgood.1 c hc).1
      | undefinedBehaviour => exact hspec.elim
    · obtain ⟨rfl, hall, hlive⟩ := hspec
      constructor
      · intro hsafe
        obtain ⟨hself, hargs⟩ := List.forall_mem_append.mp hsafe
        exact ⟨hge, .inr ⟨fun c hc => ⟨hall c hc, (hlive _).mp hargs c hc⟩, hself⟩⟩
      · rintro ⟨-, hrefused | ⟨hgood, hself⟩⟩
        · exact absurd hall hrefused.not_accepted
        · exact List.forall_mem_append.mpr ⟨hself, (hlive _).mpr fun c hc => (hgood c hc).2⟩

/-- The object that a native function is called on. -/
theorem forall_self_iff {classIndex : ℕ} {handle : Handle} :
    (∀ arg ∈ [(Arg.pointer classIndex handle : Arg β)], arg.Live s) ↔ isInstance s classIndex handle :=
  List.forall_mem_singleton

theorem callSetter_typeSafe_iff {classIndex : ℕ} {type : BaseType} :
    (callSetter e classIndex type this argv s).TypeSafe ↔
      (Bound.setter classIndex type).Meets e this argv s := by
  rcases argv with _ | ⟨v, _ | ⟨w, argv⟩⟩
  · exact ⟨fun _ => .inl Nat.zero_ne_one, fun _ => trivial⟩
  · simp only [callSetter, Bound.Meets]
    have hone : ¬[v].length ≠ 1 := not_not_intro rfl
    rw [or_iff_right hone]
    cases jsClass s this with
    | none => exact ⟨False.elim, nofun⟩
    | some obj =>
      constructor
      · intro h
        refine ⟨obj, v, rfl, rfl, ?_⟩
        rcases hc : e.convert type v s with ⟨t, _ | b⟩ <;> simp only [hc] at h
        · split at h <;> exact h.elim
        · exact ⟨rfl, h _ (.head _)⟩
      · rintro ⟨obj', v', hobj, hv, hsome, hlive⟩
        cases hobj
        cases hv
        rcases hc : e.convert type v s with ⟨t, _ | b⟩ <;> rw [hc] at hsome hlive
        · cases hsome
        · exact List.forall_mem_cons.mpr ⟨hlive, List.forall_mem_singleton.mpr trivial⟩
  · exact ⟨fun _ => .inl (by simp), fun _ => trivial⟩

/-- **A call of a bound function is type safe exactly when** the script has called it on a wrapper
with a live handle of the class and with enough arguments, and every argument is refused with an
exception or is of a base type or such a wrapper itself. -/
theorem call_typeSafe_iff (e : Engine β) (bound : Bound) (this : JSValue) (argv : List JSValue)
    (s : State) : (bound.call e this argv s).TypeSafe ↔ bound.Meets e this argv s := by
  cases bound with
  | method classIndex params =>
    simp only [Bound.call, callMethod, Bound.Meets]
    cases jsClass s this with
    | none => exact ⟨False.elim, nofun⟩
    | some obj =>
      have h := args_typeSafe_iff (e := e) params (padArgs argv) s [.pointer classIndex obj.handle]
      simp only [forall_self_iff] at h
      exact h.trans ⟨fun h => ⟨obj, rfl, h⟩, fun ⟨_, rfl, h⟩ => h⟩
  | getter classIndex =>
    simp only [Bound.call, callGetter, Bound.Meets]
    cases jsClass s this with
    | none => exact ⟨False.elim, nofun⟩
    | some obj => exact forall_self_iff.trans ⟨fun h => ⟨obj, rfl, h⟩, fun ⟨_, rfl, h⟩ => h⟩
  | setter classIndex type => exact callSetter_typeSafe_iff
  | function params =>
    simp only [Bound.call, callFunction, Bound.Meets]
    split
    · rename_i hne
      exact ⟨fun _ => .inl hne, fun _ => trivial⟩
    · rename_i heq
      rw [or_iff_right heq]
      have h := args_typeSafe_iff (e := e) params (padArgs argv) s []
      exact h.trans (by simp)

/-- A method of the first class is called on an object of the second: it gets the handle. -/
theorem call_not_typeSafe :
    ¬∀ (e : Engine Unit) (classes : List ClassWrapper.Class) (s : State) (bound : Bound)
      (this : JSValue) (argv : List JSValue),
      Reachable (· = State.initial classes) State.step (fun _ _ => True) s →
      (bound.call e this argv s).TypeSafe := by
  intro hall
  let classes : List ClassWrapper.Class := [⟨"Point", true⟩, ⟨"Line", true⟩]
  have hrun : (exec State.step (State.initial classes) [.construct (some 1) 16 false]).any fun s =>
      (s.wrapper 0).map Wrapper.handle = some 16 ∧ isInstance s 0 16 = false := by
    decide +kernel
  obtain ⟨s, hs, hcheck⟩ := (Option.any_eq_true ..).mp hrun
  obtain ⟨hwrapper, hnot⟩ := of_decide_eq_true hcheck
  obtain ⟨obj, hobj, hhandle⟩ := Option.map_eq_some_iff.mp hwrapper
  have hsafe := hall ⟨true, fun _ _ s => (s, none)⟩ classes s (.method 0 []) (.wrapper 0) []
    (.exec (fun _ _ => trivial) (.init rfl) hs)
  simp only [Bound.call, callMethod, jsClass, hobj] at hsafe
  have hlive := forall_self_iff.mp hsafe
  rw [hhandle, hnot] at hlive
  cases hlive

end QuickJs.BoundCall
