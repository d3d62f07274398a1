import QuickJs.FastArray

/-!
# `push` and `unshift`

Both have a branch for fast arrays that only looks at the array. The generic code sets one element
after the other, and the prototype chain may have setters or read-only elements for the new indices.
-/

namespace QuickJs.ArrayElement

variable {chain : Chain} {idx n m argc : ℕ} {v v' : JSValue} {p : ℕ → Option JSValue}
  {values argv : List JSValue} {α β : Type}

/-! ## The generic code -/

def Outcome.bind (o : Outcome α) (f : JSArray → Outcome β) : Outcome β :=
  match o with
  | .returned _ a => f a
  | .exception e a => .exception e a
  | .call c a => .call c a

/-- What `JS_TryGetPropertyInt64` gets. -/
inductive Got
  | absent
  | present (v : JSValue)
  | call (c : Call)

/-- `undefined`. -/
def jsUndefined : JSValue := 0

def Element.got : Element → Got
  | data v _ _ _ => .present v
  | getset (some f) _ _ _ => .call (.getter f)
  | getset none _ _ _ => .present jsUndefined

/-- What the exotic part of an object has at an index. -/
def Exotic.element (idx : ℕ) : Exotic → Option Element
  | fast values => if idx < 2 ^ 31 then values[idx]?.map .plain else .none
  | own get => get idx
  | _ => .none

/-- `JS_HasProperty` and `JS_GetPropertyValue` along the prototype chain. -/
def protoGet (idx : ℕ) : Chain → Got
  | [] => .absent
  | ⟨o, _⟩ :: chain =>
    match o.exotic with
    | .trap q => .call (.trap q idx)
    | exotic =>
      match (o.prop idx).or (exotic.element idx) with
      | some e => e.got
      | none => if o.classId = .typedArray then .absent else protoGet idx chain

/-- `JS_TryGetPropertyInt64`. -/
def tryGet (chain : Chain) (a : JSArray) (idx : ℕ) : Got :=
  match a.elements.convert idx with
  | some e => e.got
  | none => protoGet idx chain

def Element.configurable : Element → Bool
  | data _ _ _ configurable => configurable
  | getset _ _ _ configurable => configurable

/-- `JS_DeletePropertyInt64` of an array that is not fast, with `JS_PROP_THROW`. -/
def deleteElement (a : JSArray) (idx : ℕ) : Outcome Bool :=
  if (a.elements.convert idx).all Element.configurable then
    .returned true { a with elements := .slow (Function.update a.elements.convert idx none) }
  else .exception (.typeError "could not delete property") a

/-- `JS_SetPropertyInt64`. -/
def jsSetPropertyInt64 (chain : Chain) (a : JSArray) (idx : ℕ) (val : JSValue) : Outcome Bool :=
  jsSetPropertyValue chain a idx (idx < 2 ^ 31) val true

/-- `JS_CopySubArray` from the end: the elements from `fromPos` go to `toPos`. -/
def jsCopySubArray (chain : Chain) (toPos fromPos : ℕ) : ℕ → JSArray → Outcome Unit
  | 0, a => .returned () a
  | count + 1, a =>
    match tryGet chain a (fromPos + count) with
    | .call c => .call c a
    | .present val =>
      (jsSetPropertyInt64 chain a (toPos + count) val).bind (jsCopySubArray chain toPos fromPos count)
    | .absent => (deleteElement a (toPos + count)).bind (jsCopySubArray chain toPos fromPos count)

/-- The loop over the arguments. -/
def setAll (chain : Chain) (start : ℕ) : List JSValue → JSArray → Outcome Unit
  | [], a => .returned () a
  | val :: argv, a => (jsSetPropertyInt64 chain a start val).bind (setAll chain (start + 1) argv)

/-- The end of the generic code sets a length that is not below any element: no element has to go. -/
def setLength (a : JSArray) (len : ℕ) : Outcome Unit :=
  if 2 ^ 32 ≤ len then .exception (.rangeError "invalid array length") a
  else if a.lengthWritable then .returned () { a with length := jsNewUint32 len }
  else .exception (.readOnly .length) a

/-- `js_array_push`, from `generic_case` on; all indices are array indices. -/
def genericPush (chain : Chain) (a : JSArray) (argv : List JSValue) (unshift : Bool) : Outcome ℕ :=
  let len := a.length.toUint32
  let newLen := len + argv.length
  if 2 ^ 53 - 1 < newLen then .exception (.typeError "Array loo long") a
  else
    let moved := if unshift && 0 < argv.length then jsCopySubArray chain argv.length 0 len a else .returned () a
    moved.bind fun a =>
      (setAll chain (if unshift && 0 < argv.length then 0 else len) argv a).bind fun a =>
        (setLength a newLen).bind fun a => .returned newLen a

/-! ## The fast branch -/

/-- `js_array_push`, up to `generic_case`; nothing if the branch is not taken. -/
def fastPush (a : JSArray) (argv : List JSValue) (unshift : Bool) : Option (ℕ × JSArray) :=
  match a.elements, a.length with
  | .fast values, .int len =>
    let newLen := values.length + argv.length
    if a.extensible && a.lengthWritable && len = values.length && newLen < 2 ^ 31 then
      some (newLen, { a with
        elements := .fast (if unshift && 0 < argv.length then argv ++ values else values ++ argv)
        length := jsNewInt32 newLen })
    else none
  | _, _ => none

/-- Nothing in the chain decides about a new element. -/
def Chain.Lets (chain : Chain) (idx : ℕ) : Prop := ∀ v, protoLookup idx v chain = .add

/-- Whether an element decides does not depend on the value. -/
theorem settles_cases (e : Element) :
    (∀ v, e.settles v = none) ∨ ∀ v, ∃ s, e.settles v = some s ∧ s ≠ .add := by
  cases e with
  | data _ writable _ _ =>
    cases writable with
    | false => exact .inr fun v => ⟨.readOnly, rfl, nofun⟩
    | true => exact .inl fun v => rfl
  | getset _ setter _ _ =>
    cases setter with
    | none => exact .inr fun v => ⟨.noSetter, rfl, nofun⟩
    | some f => exact .inr fun v => ⟨.call (.setter f v), rfl, nofun⟩

/-- The chain decides whatever the value is. -/
theorem protoLookup_cases (chain : Chain) (idx : ℕ) :
    chain.Lets idx ∨ ∀ v, protoLookup idx v chain ≠ .add := by
  induction chain with
  | nil => exact .inl fun v => rfl
  | cons o chain ih =>
    obtain ⟨o, ho⟩ := o
    have hprop : (∀ v, (o.prop idx).bind (Element.settles v) = none) ∨
        ∀ v, ∃ s, (o.prop idx).bind (Element.settles v) = some s ∧ s ≠ .add := by
      cases o.prop idx with
      | none => exact .inl fun v => rfl
      | some e => exact settles_cases e
    rcases hprop with hnone | hsome
    · cases hexotic : o.exotic with
      | none =>
        refine ih.imp (fun h v => ?_) fun h v => ?_
        · rw [protoLookup, hnone, hexotic]
          exact h v
        · rw [protoLookup, hnone, hexotic]
          exact h v
      | fast values =>
        by_cases hlt : idx < 2 ^ 31 ∧ idx < values.length
        · refine .inl fun v => ?_
          rw [protoLookup, hnone, hexotic]
          dsimp only
          rw [if_pos hlt, if_pos hlt, ite_self]
        by_cases hclass : o.classId = .typedArray
        · refine .inr fun v => ?_
          rw [protoLookup, hnone, hexotic]
          dsimp only
          rw [if_pos hclass, if_neg hlt]
          simp
        · refine ih.imp (fun h v => ?_) fun h v => ?_ <;> rw [protoLookup, hnone, hexotic] <;>
            dsimp only <;> rw [if_neg hclass, if_neg hlt]
          · exact h v
          · exact h v
      | trap q =>
        refine .inr fun v => ?_
        rw [protoLookup, hnone, hexotic]
        simp
      | own get =>
        cases hget : get idx with
        | none =>
          refine ih.imp (fun h v => ?_) fun h v => ?_ <;> rw [protoLookup, hnone, hexotic] <;>
            dsimp only <;> rw [hget]
          · exact h v
          · exact h v
        | some e =>
          refine (settles_cases e).imp (fun h v => ?_) fun h v => ?_ <;>
            rw [protoLookup, hnone, hexotic] <;> dsimp only <;> rw [hget] <;> dsimp only
          · rw [h v, Option.getD_none]
          · obtain ⟨s, hs, hne⟩ := h v
            rw [hs]
            exact hne
    · refine .inr fun v => ?_
      obtain ⟨s, hs, hne⟩ := hsome v
      rw [protoLookup, hs]
      exact hne

/-! ## Growing arrays -/

/-- An array in its slow representation whose elements are all plain. -/
def grown (p : ℕ → Option JSValue) (n : ℕ) : JSArray :=
  ⟨.slow fun i => (p i).map .plain, jsNewUint32 n, true, true⟩

/-- A run that ends with a result. -/
def Outcome.Returns : Outcome α → Prop
  | .returned _ _ => True
  | _ => False

variable {o : Outcome α} {unshift : Bool} {r : ℕ × JSArray}

theorem not_returns_bind {f : JSArray → Outcome β} (h : ¬o.Returns) : ¬(o.bind f).Returns := by
  cases o with
  | returned x a => exact absurd trivial h
  | exception e a => exact h
  | call c a => exact h

theorem map_update (p : ℕ → Option JSValue) (idx : ℕ) (v : JSValue) :
    Function.update (fun i => (p i).map Element.plain) idx (some (.plain v)) =
      fun i => (Function.update p idx (some v) i).map .plain := by
  funext i
  by_cases h : i = idx
  · subst h
    rw [Function.update_self, Function.update_self, Option.map_some]
  · rw [Function.update_of_ne h, Function.update_of_ne h]

theorem createElement_grown (hn : n < 2 ^ 32) : createElement (grown p n) idx v true =
    .returned true (grown (Function.update p idx (some v)) (max n (idx + 1))) := by
  have hlength : (grown p n).length.toUint32 = n := toUint32_jsNewUint32 hn
  have hconvert : (grown p n).elements.convert = fun i => (p i).map .plain := rfl
  rw [createElement, hlength, hconvert, map_update]
  split
  · rename_i hlt
    rw [Nat.max_eq_right (Nat.le_of_lt hlt)]
    rfl
  · rename_i hle
    rw [Nat.max_eq_left (Nat.not_lt.mp hle)]
    rfl

/-- An element is written that is there or that the chain lets be added. -/
theorem jsSetPropertyInt64_grown (hn : n < 2 ^ 32) (hp : p idx ≠ none → idx < n)
    (h : p idx ≠ none ∨ chain.Lets idx) : jsSetPropertyInt64 chain (grown p n) idx v =
      .returned true (grown (Function.update p idx (some v)) (max n (idx + 1))) := by
  have helements : (grown p n).elements = .slow fun i => (p i).map .plain := rfl
  rw [jsSetPropertyInt64, jsSetPropertyValue]
  rw [jsSetPropertyInternal, helements]
  dsimp only
  cases hidx : p idx with
  | some w =>
    have hlt : idx + 1 ≤ n := hp (by simp [hidx])
    rw [Option.map_some, Element.plain]
    dsimp only
    rw [← Element.plain, map_update, Nat.max_eq_left hlt]
    rfl
  | none =>
    have hlets := (h.resolve_left (· hidx)) v
    rw [addElement, hlets]
    exact (if_pos rfl).trans (createElement_grown hn)

theorem jsSetPropertyInt64_not_returns (hp : p idx = none) (h : ¬chain.Lets idx) :
    ¬(jsSetPropertyInt64 chain (grown p n) idx v).Returns := by
  have hne := (protoLookup_cases chain idx).resolve_left h v
  have helements : (grown p n).elements = .slow fun i => (p i).map .plain := rfl
  rw [jsSetPropertyInt64, jsSetPropertyValue]
  rw [jsSetPropertyInternal, helements]
  dsimp only
  rw [hp]
  rw [addElement]
  cases hsettled : protoLookup idx v chain with
  | add => exact absurd hsettled hne
  | readOnly => exact id
  | noSetter => exact id
  | call c => exact id

/-! ## The loops -/

/-- The elements after the loop over the arguments. -/
def written (p : ℕ → Option JSValue) (start : ℕ) (argv : List JSValue) (i : ℕ) : Option JSValue :=
  if start ≤ i ∧ i < start + argv.length then argv[i - start]? else p i

variable {start i count : ℕ}

theorem written_nil : written p start [] = p := by
  funext i
  rw [written, List.length_nil, if_neg (by omega)]

theorem written_cons :
    written p start (v :: argv) = written (Function.update p start (some v)) (start + 1) argv := by
  funext i
  rw [written, written, List.length_cons]
  rcases Nat.lt_trichotomy i start with hlt | rfl | hgt
  · rw [if_neg (by omega), if_neg (by omega), Function.update_of_ne (Nat.ne_of_lt hlt)]
  · rw [if_pos (by omega), if_neg (by omega), Function.update_self, Nat.sub_self, List.getElem?_cons_zero]
  · have hsub : i - start = (i - (start + 1)) + 1 := by omega
    rw [Function.update_of_ne (Nat.ne_of_gt hgt), hsub]
    split <;> split <;> first | rfl | omega

/-- The loop over the arguments goes through if every element is there or can be added. -/
theorem setAll_grown (hn : n < 2 ^ 32) (hp : ∀ i, p i ≠ none → i < n) (hstart : start ≤ n)
    (hend : start + argv.length < 2 ^ 32)
    (h : ∀ i, start ≤ i → i < start + argv.length → p i ≠ none ∨ chain.Lets i) :
    setAll chain start argv (grown p n) =
      .returned () (grown (written p start argv) (max n (start + argv.length))) := by
  induction argv generalizing p n start with
  | nil =>
    rw [setAll, written_nil, List.length_nil, Nat.add_zero, Nat.max_eq_left hstart]
  | cons v argv ih =>
    rw [List.length_cons] at hend h ⊢
    rw [setAll, jsSetPropertyInt64_grown hn (hp start) (h start (Nat.le_refl _) (by omega)), Outcome.bind]
    rw [ih (by omega) (fun i hi => ?_) (by omega) (by omega) fun i hle hlt => ?_, written_cons]
    · congr 2
      omega
    · by_cases heq : i = start
      · omega
      · rw [Function.update_of_ne heq] at hi
        exact Nat.lt_of_lt_of_le (hp i hi) (Nat.le_max_left ..)
    · rw [Function.update_of_ne (by omega)]
      exact h i (by omega) (by omega)

/-- It does not if some element is not there and cannot be added. -/
theorem setAll_not_returns (hn : n < 2 ^ 32) (hp : ∀ i, p i ≠ none → i < n)
    (hend : start + argv.length < 2 ^ 32) (hle : start ≤ i) (hlt : i < start + argv.length)
    (hi : p i = none) (h : ¬chain.Lets i) : ¬(setAll chain start argv (grown p n)).Returns := by
  induction argv generalizing p n start with
  | nil =>
    rw [List.length_nil] at hlt
    omega
  | cons v argv ih =>
    rw [List.length_cons] at hend hlt
    rw [setAll]
    by_cases hgo : p start ≠ none ∨ chain.Lets start
    · have hne : i ≠ start := by
        rintro rfl
        exact hgo.elim (· hi) h
      rw [jsSetPropertyInt64_grown hn (hp start) hgo]
      refine ih (by omega) (fun j hj => ?_) (by omega) (by omega) (by omega) ?_
      · by_cases heq : j = start
        · omega
        · rw [Function.update_of_ne heq] at hj
          exact Nat.lt_of_lt_of_le (hp j hj) (Nat.le_max_left ..)
      · rw [Function.update_of_ne hne]
        exact hi
    · obtain ⟨hnone, hnot⟩ := not_or.mp hgo
      exact not_returns_bind (jsSetPropertyInt64_not_returns (not_not.mp hnone) hnot)

/-- The elements after the elements up to `count` have gone `argc` places on. -/
def moved (p : ℕ → Option JSValue) (argc count i : ℕ) : Option JSValue :=
  if argc ≤ i ∧ i < argc + count then p (i - argc) else p i

theorem moved_succ (hargc : 0 < argc) (hv : p count = some v) :
    moved p argc (count + 1) = moved (Function.update p (argc + count) (some v)) argc count := by
  funext i
  rw [moved, moved]
  rcases Nat.lt_trichotomy i (argc + count) with hlt | rfl | hgt
  · rw [Function.update_of_ne (Nat.ne_of_lt hlt), Function.update_of_ne (by omega)]
    split <;> split <;> first | rfl | omega
  · rw [if_pos (by omega), if_neg (by omega), Function.update_self, Nat.add_sub_cancel_left, hv]
  · rw [if_neg (by omega), if_neg (by omega), Function.update_of_ne (Nat.ne_of_gt hgt)]

theorem tryGet_grown (hv : p idx = some v) : tryGet chain (grown p n) idx = .present v := by
  have hconvert : (grown p n).elements.convert idx = (p idx).map .plain := rfl
  rw [tryGet, hconvert, hv]
  rfl

/-- `JS_CopySubArray` goes through if every place is taken or can be. -/
theorem jsCopySubArray_grown (hargc : 0 < argc) (hn : n < 2 ^ 32) (hp : ∀ i, p i ≠ none → i < n)
    (hcount : count ≤ n) (hall : ∀ i < count, p i ≠ none) (hend : argc + count < 2 ^ 32)
    (h : ∀ i, argc ≤ i → i < argc + count → p i ≠ none ∨ chain.Lets i) :
    jsCopySubArray chain argc 0 count (grown p n) =
      .returned () (grown (moved p argc count) (if count = 0 then n else max n (argc + count))) := by
  induction count generalizing p n with
  | zero =>
    have hmoved : moved p argc 0 = p := by
      funext i
      rw [moved, if_neg (by omega)]
    rw [jsCopySubArray, hmoved, if_pos rfl]
  | succ count ih =>
    obtain ⟨v, hv⟩ := Option.ne_none_iff_exists'.mp (hall count (Nat.lt_succ_self _))
    rw [jsCopySubArray, Nat.zero_add, tryGet_grown hv]
    dsimp only
    rw [jsSetPropertyInt64_grown hn (hp _) (h (argc + count) (by omega) (by omega)), Outcome.bind,
      ih (by omega) (fun i hi => ?_) (by omega) (fun i hi => ?_) (by omega) fun i hle hlt => ?_,
      moved_succ hargc hv]
    · rw [if_neg (Nat.succ_ne_zero count)]
      congr 2
      split <;> omega
    · by_cases heq : i = argc + count
      · omega
      · rw [Function.update_of_ne heq] at hi
        exact Nat.lt_of_lt_of_le (hp i hi) (Nat.le_max_left ..)
    · rw [Function.update_of_ne (by omega)]
      exact hall i (by omega)
    · rw [Function.update_of_ne (by omega)]
      exact h i (by omega) (by omega)

theorem jsCopySubArray_not_returns (hargc : 0 < argc) (hn : n < 2 ^ 32)
    (hp : ∀ i, p i ≠ none → i < n) (hall : ∀ i < count, p i ≠ none) (hend : argc + count < 2 ^ 32)
    (hle : argc ≤ i) (hlt : i < argc + count) (hi : p i = none) (h : ¬chain.Lets i) :
    ¬(jsCopySubArray chain argc 0 count (grown p n)).Returns := by
  induction count generalizing p n with
  | zero => omega
  | succ count ih =>
    obtain ⟨v, hv⟩ := Option.ne_none_iff_exists'.mp (hall count (Nat.lt_succ_self _))
    rw [jsCopySubArray, Nat.zero_add, tryGet_grown hv]
    dsimp only
    by_cases hgo : p (argc + count) ≠ none ∨ chain.Lets (argc + count)
    · have hne : i ≠ argc + count := by
        rintro rfl
        exact hgo.elim (· hi) h
      rw [jsSetPropertyInt64_grown hn (hp _) hgo]
      refine ih (by omega) (fun j hj => ?_) (fun j hj => ?_) (by omega) (by omega) ?_
      · by_cases heq : j = argc + count
        · omega
        · rw [Function.update_of_ne heq] at hj
          exact Nat.lt_of_lt_of_le (hp j hj) (Nat.le_max_left ..)
      · rw [Function.update_of_ne (by omega)]
        exact hall j (by omega)
      · rw [Function.update_of_ne hne]
        exact hi
    · obtain ⟨hnone, hnot⟩ := not_or.mp hgo
      exact not_returns_bind (jsSetPropertyInt64_not_returns (not_not.mp hnone) hnot)

/-- All elements are below the length after that. -/
theorem moved_lt (hp : ∀ i, p i ≠ none → i < n) (hi : moved p argc n i ≠ none) :
    i < if n = 0 then n else max n (argc + n) := by
  rw [moved] at hi
  split at hi
  · split <;> omega
  · have hlt := hp i hi
    split <;> omega

/-! ## Both branches -/

theorem fastPush_eq_some {length : JSLength} {lengthWritable extensible : Bool}
    (h : fastPush ⟨.fast values, length, lengthWritable, extensible⟩ argv unshift = some r) :
    values.length + argv.length < 2 ^ 31 ∧ JSArray.toSlow ⟨.fast values, length, lengthWritable, extensible⟩ =
        grown (fun i => values[i]?) values.length ∧
      r = (values.length + argv.length,
        ⟨.fast (if unshift && 0 < argv.length then argv ++ values else values ++ argv),
          jsNewInt32 (values.length + argv.length), true, true⟩) := by
  cases length with
  | float64 n => cases h
  | int len =>
    obtain ⟨htest, h⟩ := Option.ite_none_right_eq_some.mp h
    simp only [Bool.and_eq_true, decide_eq_true_eq] at htest
    obtain ⟨⟨⟨rfl, rfl⟩, rfl⟩, hend⟩ := htest
    cases h
    refine ⟨hend, ?_, rfl⟩
    have hlength : JSLength.int values.length = jsNewUint32 values.length := by
      rw [jsNewUint32, if_pos (by omega)]
    rw [grown, ← hlength]
    rfl

/-- The generic code after its first check. -/
theorem genericPush_grown (hn : n < 2 ^ 31) (hend : n + argv.length < 2 ^ 31) :
    genericPush chain (grown p n) argv unshift =
      (if unshift && 0 < argv.length then jsCopySubArray chain argv.length 0 n (grown p n)
        else .returned () (grown p n)).bind fun a =>
          (setAll chain (if unshift && 0 < argv.length then 0 else n) argv a).bind fun a =>
            (setLength a (n + argv.length)).bind fun a => .returned (n + argv.length) a := by
  have hlength : (grown p n).length.toUint32 = n := toUint32_jsNewUint32 (by omega)
  rw [genericPush, hlength, if_neg (by omega)]

theorem setLength_grown (hm : m < 2 ^ 32) : setLength (grown p n) m = .returned () (grown p m) := by
  rw [setLength, if_neg (by omega)]
  exact if_pos rfl

/-- Two results are seen alike if the elements and the length are. -/
theorem observed_grown (hm : m < 2 ^ 31) (h : ∀ i, values[i]? = p i) :
    (Outcome.returned m ⟨.fast values, jsNewInt32 m, true, true⟩).observed =
      (Outcome.returned m (grown p m)).observed := by
  have hlength : (jsNewInt32 m).number = (jsNewUint32 m).number := by
    rw [number_jsNewUint32]
    exact (number_jsNewInt32 (Nat.le_of_lt hm)).mpr (Nat.ne_of_lt hm)
  refine observed_returned.mpr ?_
  rw [JSArray.view, View.mk.injEq]
  refine ⟨funext fun i => ?_, hlength, rfl, rfl⟩
  exact congrArg (Option.map Element.plain) (h i)

theorem returns_of_observed {x : α} {a : JSArray}
    (h : (Outcome.returned x a).observed = o.observed) : o.Returns := by
  cases o with
  | returned y b => trivial
  | exception e b => cases h
  | call c b => cases h

/-- The fast branch does what the generic code does exactly if the prototype chain lets every new
element be added. -/
theorem fastPush_iff (chain : Chain) (a : FastArray) (argv : List JSValue) (unshift : Bool)
    (h : fastPush a.toJSArray argv unshift = some r) :
    (Outcome.returned r.1 r.2).observed = (genericPush chain a.toJSArray.toSlow argv unshift).observed ↔
      ∀ i, a.values.length ≤ i → i < a.values.length + argv.length → chain.Lets i := by
  obtain ⟨hend, hslow, rfl⟩ := fastPush_eq_some h
  have hslow : a.toJSArray.toSlow = grown (fun i => a.values[i]?) a.values.length := hslow
  rw [hslow]
  generalize a.values = values at hend ⊢
  have hsome {i : ℕ} : values[i]? ≠ none ↔ i < values.length := by
    rw [ne_eq, List.getElem?_eq_none_iff, Nat.not_le]
  have hnone {i : ℕ} (hle : values.length ≤ i) : values[i]? = none := List.getElem?_eq_none hle
  rw [genericPush_grown (by omega) hend]
  cases hunshift : unshift && decide (0 < argv.length) with
  | false =>
    rw [if_neg Bool.false_ne_true, if_neg Bool.false_ne_true, if_neg Bool.false_ne_true, Outcome.bind]
    constructor
    · intro heq i hle hlt
      by_contra hnot
      exact not_returns_bind (setAll_not_returns (by omega) (fun i => hsome.mp) (by omega) hle hlt
        (hnone hle) hnot) (returns_of_observed heq)
    · intro hlets
      rw [setAll_grown (by omega) (fun i => hsome.mp) (Nat.le_refl _) (by omega)
        fun i hle hlt => .inr (hlets i hle hlt), Outcome.bind, setLength_grown (by omega)]
      refine observed_grown hend fun i => ?_
      rw [written, List.getElem?_append]
      by_cases hi : i < values.length
      · rw [if_pos hi, if_neg (by omega)]
      · rw [if_neg hi]
        by_cases hlt : i < values.length + argv.length
        · rw [if_pos ⟨Nat.not_lt.mp hi, hlt⟩]
        · rw [if_neg fun h => hlt h.2, List.getElem?_eq_none (by omega), List.getElem?_eq_none (by omega)]
  | true =>
    have hargc : 0 < argv.length := of_decide_eq_true (Bool.and_eq_true_iff.mp hunshift).2
    rw [if_pos rfl, if_pos rfl, if_pos rfl]
    constructor
    · intro heq i hle hlt
      by_contra hnot
      refine absurd (returns_of_observed heq) ?_
      by_cases hcopy : ∀ i, argv.length ≤ i → i < argv.length + values.length → values[i]? ≠ none ∨ chain.Lets i
      · rw [jsCopySubArray_grown hargc (by omega) (fun i => hsome.mp) (Nat.le_refl _) (fun i => hsome.mpr)
          (by omega) hcopy, Outcome.bind]
        -- the elements that are moved could be, so that this one is to be written after that
        have hi : i < argv.length := by
          by_contra hge
          exact (hcopy i (Nat.not_lt.mp hge) (by omega)).elim (· (hnone hle)) hnot
        refine not_returns_bind (setAll_not_returns (i := i) ?_ (fun j hj => ?_) (by omega) (Nat.zero_le _)
          (by omega) ?_ hnot)
        · split <;> omega
        · exact moved_lt (fun i => hsome.mp) hj
        · rw [moved, if_neg (by omega)]
          exact hnone hle
      · simp only [not_forall, not_or, not_not] at hcopy
        obtain ⟨j, hj, hjlt, hjnone, hjnot⟩ := hcopy
        exact not_returns_bind (jsCopySubArray_not_returns hargc (by omega) (fun i => hsome.mp)
          (fun i => hsome.mpr) (by omega) hj hjlt hjnone hjnot)
    · intro hlets
      have hcan (i : ℕ) (hlt : i < values.length + argv.length) : values[i]? ≠ none ∨ chain.Lets i := by
        by_cases hi : i < values.length
        · exact .inl (hsome.mpr hi)
        · exact .inr (hlets i (Nat.not_lt.mp hi) hlt)
      rw [jsCopySubArray_grown hargc (by omega) (fun i => hsome.mp) (Nat.le_refl _) (fun i => hsome.mpr)
          (by omega) fun i hle hlt => hcan i (by omega), Outcome.bind,
        setAll_grown (by split <;> omega) (fun i => moved_lt fun i => hsome.mp) (Nat.zero_le _) (by omega)
          fun i _ hlt => ?_, Outcome.bind, setLength_grown (by omega)]
      · refine observed_grown hend fun i => ?_
        rw [written, moved, List.getElem?_append, Nat.zero_add, Nat.sub_zero]
        by_cases hi : i < argv.length
        · rw [if_pos hi, if_pos ⟨Nat.zero_le _, hi⟩]
        · rw [if_neg hi, if_neg fun h => hi h.2]
          by_cases hlt : i < argv.length + values.length
          · rw [if_pos ⟨Nat.not_lt.mp hi, hlt⟩]
          · rw [if_neg fun h => hlt h.2, List.getElem?_eq_none (by omega), List.getElem?_eq_none (by omega)]
      · have hmoved : moved (fun i => values[i]?) argv.length values.length i = values[i]? := by
          rw [moved, if_neg (by omega)]
        rw [hmoved]
        exact hcan i (by omega)

/-! ## Stores -/

inductive Store
  /-- `JS_SetPropertyValue` -/
  | set (i : Index) (val : JSValue) (throws : Bool)
  /-- `js_array_push` -/
  | push (argv : List JSValue) (unshift : Bool)

/-- A fast path does what the generic one does with the same array. -/
def Store.Agrees (chain : Chain) (a : FastArray) : Store → Prop
  | set i val throws =>
    (jsSetPropertyValue chain a.toJSArray i.toNat i.tagInt val throws).observed =
      (jsSetPropertyInternal chain a.toJSArray.toSlow i.toNat val throws).observed
  | push argv unshift => ∀ r ∈ fastPush a.toJSArray argv unshift,
    (Outcome.returned r.1 r.2).observed = (genericPush chain a.toJSArray.toSlow argv unshift).observed

/-- The condition: the length fits an `int32_t`, and no new element concerns the chain. -/
def Store.Fits (chain : Chain) (a : FastArray) : Store → Prop
  | set i val _ => ¬(a.Overflows i.toNat ∧ protoLookup i.toNat val chain = .add)
  | push argv unshift => (fastPush a.toJSArray argv unshift).isSome →
    ∀ i, a.values.length ≤ i → i < a.values.length + argv.length → chain.Lets i

theorem agrees_iff_fits (chain : Chain) (a : FastArray) (s : Store) : s.Agrees chain a ↔ s.Fits chain a := by
  cases s with
  | set i val throws =>
    rw [Store.Agrees, jsSetPropertyValue_eq rfl i]
    exact jsSetPropertyInternal_iff chain a i.toNat val throws
  | push argv unshift =>
    rw [Store.Agrees, Store.Fits]
    cases h : fastPush a.toJSArray argv unshift with
    | none => exact iff_of_true nofun nofun
    | some r =>
      rw [← fastPush_iff chain a argv unshift h]
      exact ⟨fun hall _ => hall r rfl, fun hall r' hr' => Option.some.inj hr' ▸ hall rfl⟩

/-- `Array.prototype` with a setter for the index 0. -/
def prototypeWithSetter : Chain :=
  [⟨⟨.array, true, fun i => if i = 0 then some (.getset none (some 0) true true) else none, .none⟩,
    ⟨nofun, nofun, nofun⟩⟩]

/-- `[]`. -/
def emptyArray : FastArray := ⟨[], .int 0, true, true, Nat.zero_le _, 0, by decide, Nat.le_refl _, rfl⟩

/-- `[].push(1)` does not call the setter. -/
theorem push_not_agrees : ¬∀ chain a (s : Store), s.Agrees chain a := by
  intro h
  have hpush := h prototypeWithSetter emptyArray (.push [1] false) _ rfl
  cases hpush

end QuickJs.ArrayElement
