import QuickJs.Run
import Mathlib.Data.List.Nodup

/-!
# Wrappers of native objects

The constructor of a registered class makes a native object and a wrapper that owns it; the
finalizer of an owning wrapper calls the destructor of its class with the handle. A script can
read and write the handle and the ownership of every wrapper. A native object is destroyed once
and at the right time as long as these writes leave each handle with one owner.
-/

namespace QuickJs.ClassWrapper

open Run

/-- The address of a native object; 0 is the null pointer. -/
abbrev Handle : Type := BitVec 64

/-- What the wrappers need of a registered `Class`. -/
structure Class where
  className : String
  hasDestructor : Bool

/-- `JsClass`, the opaque data of a wrapper, and the references to the wrapper. -/
structure Wrapper where
  classIndex : ℕ
  handle : Handle
  owned : Bool
  refCount : ℕ
  deriving DecidableEq

/-- A native object, made by the constructor of a class. -/
structure Native where
  address : Handle
  classIndex : ℕ
  deriving DecidableEq

/-- A call of a destructor: the native object, whether the wrapper owned it, and whether another
owning wrapper referred to the handle. -/
structure Deletion where
  native : ℕ
  owned : Bool
  shared : Bool
  deriving DecidableEq

/-- The wrappers by their numbers, the native objects in the order of their making, the last
native object that was made at an address, and the destructor calls so far. -/
structure State where
  classes : List Class
  wrappers : List (Option Wrapper)
  natives : List Native
  last : Handle → Option ℕ
  deletions : List Deletion

/-- `g_RegisteredClasses` is filled before the first object is made. -/
def State.initial (classes : List Class) : State := ⟨classes, [], [], fun _ => none, []⟩

/-- `JS_GetOpaque`: the opaque data of a wrapper that is alive. -/
def State.wrapper (s : State) (w : ℕ) : Option Wrapper := s.wrappers[w]?.join

def State.setWrapper (s : State) (w : ℕ) (x : Option Wrapper) : State :=
  { s with wrappers := s.wrappers.set w x }

/-- The destructor of a native object has been called. -/
def State.isDeleted (s : State) (n : ℕ) : Bool := n ∈ s.deletions.map Deletion.native

/-- The native object that is alive at an address. -/
def State.native (s : State) (a : Handle) : Option ℕ := (s.last a).filter fun n => !s.isDeleted n

/-- An owning wrapper refers to the handle. -/
def State.hasOwner (s : State) (a : Handle) : Bool :=
  s.wrappers.any fun x => x.any fun x => x.owned && x.handle = a

/-- `new T()` at the address `a`. -/
def State.new (s : State) (classIndex : ℕ) (a : Handle) : State :=
  { s with
    natives := s.natives ++ [⟨a, classIndex⟩]
    last := fun b => if b = a then some s.natives.length else s.last b }

/-- `clazz.destructor(handle)`; what is at an address where there never was a native object
cannot be destroyed. -/
def State.delete (s : State) (x : Wrapper) : Option State :=
  match s.last x.handle with
  | none => none
  | some n => some { s with deletions := s.deletions ++ [⟨n, x.owned, s.hasOwner x.handle⟩] }

/-- `JsClass_Finalizer`, of the wrapper `w`. -/
def jsClassFinalizer (s : State) (w : ℕ) (x : Wrapper) : Option State :=
  let s := s.setWrapper w none
  if x.handle ≠ 0 ∧ x.owned then
    match s.classes[x.classIndex]? with
    | none => none
    | some clazz => if clazz.hasDestructor then s.delete x else some s
  else some s

/-- `DummyConstructor`: the class index is what the script has left in `__c_class_index`. If no
object can be made the native object has no wrapper. -/
def dummyConstructor (s : State) (classIndex : Option ℕ) (a : Handle) (fails : Bool) : Option State :=
  match classIndex with
  | none => some s
  | some classIndex =>
    if classIndex < s.classes.length ∧ a ≠ 0 ∧ s.native a = none then
      let s := s.new classIndex a
      some (if fails then s else { s with wrappers := s.wrappers ++ [some ⟨classIndex, a, true, 1⟩] })
    else none

/-! ## Runs -/

inductive Op
  /-- a constructor is called; the native object gets the address `a` -/
  | construct (classIndex : Option ℕ) (a : Handle) (fails : Bool)
  /-- `__c_opaque = a` -/
  | setOpaque (w : ℕ) (a : Handle)
  /-- `__c_owned = owned` -/
  | setOwned (w : ℕ) (owned : Bool)
  /-- `JS_DupValue` -/
  | dupValue (w : ℕ)
  /-- `JS_FreeValue` -/
  | freeValue (w : ℕ)
  /-- the collector finds the wrapper on a cycle of garbage -/
  | collect (w : ℕ)

/-- One step; a call without a wrapper is no step. -/
def State.step (s : State) : Op → Option State
  | .construct classIndex a fails => dummyConstructor s classIndex a fails
  | .setOpaque w a => (s.wrapper w).map fun x => s.setWrapper w (some { x with handle := a })
  | .setOwned w owned => (s.wrapper w).map fun x => s.setWrapper w (some { x with owned := owned })
  | .dupValue w => (s.wrapper w).map fun x =>
    s.setWrapper w (some { x with refCount := x.refCount + 1 })
  | .freeValue w =>
    match s.wrapper w with
    | none => none
    | some x =>
      if x.refCount ≤ 1 then jsClassFinalizer s w x
      else some (s.setWrapper w (some { x with refCount := x.refCount - 1 }))
  | .collect w => (s.wrapper w).bind (jsClassFinalizer s w)

/-- Every native object has been destroyed at most once, for an owning wrapper, when no other
owning wrapper referred to it. -/
structure DestroyedOnce (s : State) : Prop where
  once : (s.deletions.map Deletion.native).Nodup
  owned : ∀ d ∈ s.deletions, d.owned
  unshared : ∀ d ∈ s.deletions, d.shared = false

/-- The wrapper `w` may own the handle: it is null, or a native object that is alive and that no
other wrapper owns. -/
def State.mayOwn (s : State) (w : ℕ) (a : Handle) : Prop :=
  a = 0 ∨ (s.native a).isSome ∧ ∀ w' x, w' ≠ w → s.wrapper w' = some x → x.owned → x.handle ≠ a

theorem wrapper_eq_none {s : State} {w : ℕ} (h : s.wrappers.length ≤ w) : s.wrapper w = none := by
  rw [State.wrapper, List.getElem?_eq_none h]
  rfl

instance (s : State) (w : ℕ) (a : Handle) : Decidable (s.mayOwn w a) :=
  decidable_of_iff (a = 0 ∨ (s.native a).isSome ∧ ∀ w' < s.wrappers.length, w' ≠ w →
      ∀ x ∈ s.wrapper w', x.owned → x.handle ≠ a) <| by
    refine or_congr_right (and_congr_right fun _ => ⟨fun h w' x hne hx => ?_, fun h w' _ hne x hx =>
      h w' x hne hx⟩)
    obtain hlt | hge := Nat.lt_or_ge w' s.wrappers.length
    · exact h w' hlt hne x hx
    · rw [wrapper_eq_none hge] at hx
      cases hx

/-- A write leaves a wrapper that owns its handle as the only owner. -/
def Op.Proper (s : State) : Op → Prop
  | .setOpaque w a => ∀ x ∈ s.wrapper w, x.owned → s.mayOwn w a
  | .setOwned w owned => ∀ x ∈ s.wrapper w, owned → s.mayOwn w x.handle
  | _ => True

instance (s : State) : DecidablePred fun op : Op => op.Proper s
  | .construct .. | .dupValue _ | .freeValue _ | .collect _ => inferInstanceAs (Decidable True)
  | .setOpaque w a =>
    inferInstanceAs (Decidable (∀ x ∈ s.wrapper w, x.owned → s.mayOwn w a))
  | .setOwned w owned =>
    inferInstanceAs (Decidable (∀ x ∈ s.wrapper w, owned → s.mayOwn w x.handle))

/-! ## The invariant -/

variable {s s' : State} {op : Op} {w w' n : ℕ} {x y : Wrapper} {a b : Handle} {o : Option Wrapper}

/-- Every owner may own its handle, and the native objects are where they were made. -/
structure Sound (s : State) : Prop where
  destroyed : DestroyedOnce s
  owner : ∀ w x, s.wrapper w = some x → x.owned → s.mayOwn w x.handle
  made : ∀ a n, s.last a = some n → ∃ classIndex, s.natives[n]? = some ⟨a, classIndex⟩
  known : ∀ d ∈ s.deletions, d.native < s.natives.length

theorem sound_initial (classes : List Class) : Sound (State.initial classes) :=
  ⟨⟨List.nodup_nil, nofun, nofun⟩, nofun, nofun, nofun⟩

theorem wrapper_setWrapper (hw : s.wrapper w = some x) :
    (s.setWrapper w o).wrapper w' = if w' = w then o else s.wrapper w' := by
  have hlt : w < s.wrappers.length :=
    (List.getElem?_eq_some_iff.mp (Option.join_eq_some_iff.mp hw)).1
  simp only [State.wrapper, State.setWrapper, List.getElem?_set]
  by_cases hww : w' = w
  · rw [if_pos hww, if_pos hww.symm, if_pos hlt]
    rfl
  · rw [if_neg hww, if_neg (Ne.symm hww)]

/-- A wrapper other than the written one is the same. -/
theorem wrapper_setWrapper_ne (hw : s.wrapper w = some x) (hne : w' ≠ w) :
    (s.setWrapper w o).wrapper w' = s.wrapper w' := by
  rw [wrapper_setWrapper hw, if_neg hne]

theorem wrapper_setWrapper_self (hw : s.wrapper w = some x) : (s.setWrapper w o).wrapper w = o := by
  rw [wrapper_setWrapper hw, if_pos rfl]

/-- `mayOwn` depends on the native objects and the other owners. -/
theorem State.mayOwn.mono (h : s.mayOwn w a) (halive : a ≠ 0 → (s.native a).isSome → (s'.native a).isSome)
    (howner : ∀ w' y, w' ≠ w → s'.wrapper w' = some y → y.owned → a ≠ 0 → y.handle = a →
      ∃ y', s.wrapper w' = some y' ∧ y'.owned ∧ y'.handle = a) : s'.mayOwn w a := by
  by_cases hzero : a = 0
  · exact .inl hzero
  · obtain hnull | ⟨hsome, hother⟩ := h
    · exact absurd hnull hzero
    · refine .inr ⟨halive hzero hsome, fun w' y hne hy howned heq => ?_⟩
      obtain ⟨y', hy', howned', heq'⟩ := howner w' y hne hy howned hzero heq
      exact hother w' y' hne hy' howned' heq'

/-- No other owner has a handle that a wrapper may own. -/
theorem State.mayOwn.other (h : s.mayOwn w a) (hzero : a ≠ 0) (hne : w' ≠ w)
    (hy : s.wrapper w' = some y) (howned : y.owned) : y.handle ≠ a :=
  h.elim (fun hnull => absurd hnull hzero) fun h => h.2 w' y hne hy howned

theorem Sound.setWrapper (h : Sound s) (hw : s.wrapper w = some x)
    (hy : ∀ y ∈ o, y.owned → s.mayOwn w y.handle) : Sound (s.setWrapper w o) := by
  refine ⟨⟨h.destroyed.once, h.destroyed.owned, h.destroyed.unshared⟩, fun w' z hz howned => ?_,
    h.made, h.known⟩
  by_cases hww : w' = w
  · subst hww
    rw [wrapper_setWrapper_self hw] at hz
    refine (hy z hz howned).mono (fun _ => id) fun v y hne hv hyowned _ heq => ⟨y, ?_, hyowned, heq⟩
    rwa [wrapper_setWrapper_ne hw hne] at hv
  · rw [wrapper_setWrapper_ne hw hww] at hz
    refine (h.owner w' z hz howned).mono (fun _ => id) fun v y hne hv hyowned hzero heq => ?_
    by_cases hvw : v = w
    · -- the written wrapper has no handle that another owner has
      subst hvw
      rw [wrapper_setWrapper_self hw] at hv
      exact absurd heq.symm ((hy y hv hyowned).other (heq ▸ hzero) hww hz howned)
    · rw [wrapper_setWrapper_ne hw hvw] at hv
      exact ⟨y, hv, hyowned, heq⟩

/-- The native object at an address is the one that was made there. -/
theorem Sound.address_inj (h : Sound s) (ha : s.last a = some n) (hb : s.last b = some n) : a = b := by
  obtain ⟨i, hi⟩ := h.made a n ha
  obtain ⟨j, hj⟩ := h.made b n hb
  exact congrArg Native.address (Option.some.inj (hi.symm.trans hj))

theorem native_new_ne {classIndex : ℕ} (hne : b ≠ a) : (s.new classIndex a).native b = s.native b :=
  congrArg _ (if_neg hne)

theorem Sound.new {classIndex : ℕ} (h : Sound s) (ha : s.native a = none) : Sound (s.new classIndex a) := by
  refine ⟨⟨h.destroyed.once, h.destroyed.owned, h.destroyed.unshared⟩,
    fun w x hx howned => (h.owner w x hx howned).mono (fun _ halive => ?_)
      fun w' y _ hy hyowned _ heq => ⟨y, hy, hyowned, heq⟩, fun b n hb => ?_, fun d hd => ?_⟩
  · -- nothing was alive at the address of the new object
    have hne : x.handle ≠ a := fun heq => by
      rw [heq, ha] at halive
      cases halive
    rwa [native_new_ne hne]
  · simp only [State.new] at hb ⊢
    split at hb
    · rename_i heq
      cases heq
      cases hb
      exact ⟨classIndex, List.getElem?_concat_length⟩
    · obtain ⟨i, hi⟩ := h.made b n hb
      exact ⟨i, List.getElem?_append_left (List.getElem?_eq_some_iff.mp hi).1 ▸ hi⟩
  · exact Nat.lt_of_lt_of_le (h.known d hd) (by simp [State.new])

/-- The new object is alive. -/
theorem Sound.native_new {classIndex : ℕ} (h : Sound s) :
    (s.new classIndex a).native a = some s.natives.length := by
  have hnot : s.isDeleted s.natives.length = false := by
    rw [State.isDeleted, decide_eq_false_iff_not, List.mem_map]
    rintro ⟨d, hd, heq⟩
    exact Nat.ne_of_lt (h.known d hd) heq
  calc (s.new classIndex a).native a
    _ = (some s.natives.length).filter fun n => !s.isDeleted n := congrArg _ (if_pos rfl)
    _ = some s.natives.length := if_pos (congrArg Bool.not hnot)

theorem wrapper_append {l : List (Option Wrapper)}
    (hy : State.wrapper { s with wrappers := l ++ [some x] } w = some y) :
    State.wrapper { s with wrappers := l } w = some y ∨ w = l.length ∧ y = x := by
  rw [State.wrapper, Option.join_eq_some_iff, List.getElem?_append] at hy
  split at hy
  · exact .inl (Option.join_eq_some_iff.mpr hy)
  · rw [List.getElem?_singleton] at hy
    split at hy
    · cases hy
      exact .inr ⟨by omega, rfl⟩
    · cases hy

/-- A wrapper is added. -/
theorem Sound.addWrapper (h : Sound s) (hx : x.owned → s.mayOwn s.wrappers.length x.handle) :
    Sound { s with wrappers := s.wrappers ++ [some x] } := by
  refine ⟨⟨h.destroyed.once, h.destroyed.owned, h.destroyed.unshared⟩, fun w y hy howned => ?_,
    h.made, h.known⟩
  obtain hold | ⟨rfl, rfl⟩ := wrapper_append hy
  · refine (h.owner w y hold howned).mono (fun _ => id) fun w' z hne hz hzowned hzero heq => ?_
    obtain hz | ⟨rfl, rfl⟩ := wrapper_append hz
    · exact ⟨z, hz, hzowned, heq⟩
    · exact absurd heq.symm ((hx hzowned).other (heq ▸ hzero) (Ne.symm hne) hold howned)
  · refine (hx howned).mono (fun _ => id) fun w' z hne hz hzowned _ heq => ?_
    obtain hz | ⟨rfl, -⟩ := wrapper_append hz
    · exact ⟨z, hz, hzowned, heq⟩
    · exact absurd rfl hne

theorem Sound.dummyConstructor {classIndex : Option ℕ} {fails : Bool} (h : Sound s)
    (hs : dummyConstructor s classIndex a fails = some s') : Sound s' := by
  unfold ClassWrapper.dummyConstructor at hs
  split at hs
  · exact Option.some.inj hs ▸ h
  · rename_i classIndex
    split at hs
    · rename_i hcond
      obtain ⟨-, hzero, hfree⟩ := hcond
      have hnew : Sound (s.new classIndex a) := h.new hfree
      cases hs
      split
      · exact hnew
      · refine hnew.addWrapper fun _ => .inr ⟨by rw [h.native_new]; rfl, fun w y _ hy howned => ?_⟩
        -- the handles of the other owners are alive or null
        rintro rfl
        obtain hnull | ⟨halive, -⟩ := h.owner w y hy howned
        · exact hzero hnull
        · rw [hfree] at halive
          cases halive
    · cases hs

/-! ## The finalizer -/

theorem hasOwner_iff : s.hasOwner a ↔ ∃ w x, s.wrapper w = some x ∧ x.owned ∧ x.handle = a := by
  constructor
  · intro h
    obtain ⟨o, hmem, ho⟩ := List.any_eq_true.mp h
    obtain ⟨w, hw⟩ := List.mem_iff_getElem?.mp hmem
    obtain ⟨x, rfl, hx⟩ := (Option.any_eq_true ..).mp ho
    obtain ⟨howned, heq⟩ := Bool.and_eq_true_iff.mp hx
    exact ⟨w, x, Option.join_eq_some_iff.mpr hw, howned, of_decide_eq_true heq⟩
  · rintro ⟨w, x, hx, howned, heq⟩
    refine List.any_eq_true.mpr
      ⟨some x, List.mem_iff_getElem?.mpr ⟨w, Option.join_eq_some_iff.mp hx⟩, ?_⟩
    exact Bool.and_eq_true_iff.mpr ⟨howned, decide_eq_true heq⟩

/-- The destructor of an object that is alive and has no owner left. -/
theorem Sound.delete (h : Sound s) (howned : x.owned) (halive : (s.native x.handle).isSome)
    (hnone : s.hasOwner x.handle = false) (hs : s.delete x = some s') : Sound s' := by
  obtain ⟨n, hn⟩ := Option.isSome_iff_exists.mp halive
  obtain ⟨hlast, hnot⟩ := Option.filter_eq_some_iff.mp hn
  unfold State.delete at hs
  rw [hlast, hnone, howned] at hs
  cases hs
  have hfresh : n ∉ s.deletions.map Deletion.native := by simpa [State.isDeleted] using hnot
  refine ⟨⟨?_, ?_, ?_⟩, fun w y hy hyowned => ?_, h.made, fun d hd => ?_⟩
  · rw [List.map_append]
    refine h.destroyed.once.append (List.nodup_singleton n) ?_
    rintro m hm hmem
    exact hfresh ((List.mem_singleton.mp hmem : m = n) ▸ hm)
  · intro d hd
    obtain hd | rfl := List.mem_append.mp hd |>.imp id List.mem_singleton.mp
    · exact h.destroyed.owned d hd
    · rfl
  · intro d hd
    obtain hd | rfl := List.mem_append.mp hd |>.imp id List.mem_singleton.mp
    · exact h.destroyed.unshared d hd
    · rfl
  · refine (h.owner w y hy hyowned).mono (fun _ hyalive => ?_)
      fun w' z _ hz hzowned _ heq => ⟨z, hz, hzowned, heq⟩
    -- the destroyed object was at another address
    have hne : y.handle ≠ x.handle := fun heq => by
      have hown : s.hasOwner x.handle := hasOwner_iff.mpr ⟨w, y, hy, hyowned, heq⟩
      rw [hnone] at hown
      cases hown
    obtain ⟨m, hm⟩ := Option.isSome_iff_exists.mp hyalive
    obtain ⟨hmlast, hmnot⟩ := Option.filter_eq_some_iff.mp hm
    have hmn : m ≠ n := fun heq => hne (h.address_inj hmlast (heq ▸ hlast))
    refine Option.isSome_iff_exists.mpr ⟨m, Option.filter_eq_some_iff.mpr ⟨hmlast, ?_⟩⟩
    simpa [State.isDeleted, hmn] using hmnot
  · obtain hd | rfl := List.mem_append.mp hd |>.imp id List.mem_singleton.mp
    · exact h.known d hd
    · obtain ⟨i, hi⟩ := h.made _ n hlast
      exact (List.getElem?_eq_some_iff.mp hi).1

theorem Sound.jsClassFinalizer (h : Sound s) (hw : s.wrapper w = some x)
    (hs : jsClassFinalizer s w x = some s') : Sound s' := by
  have hnone : Sound (s.setWrapper w none) := h.setWrapper hw nofun
  unfold ClassWrapper.jsClassFinalizer at hs
  simp only at hs
  split at hs
  · rename_i hcond
    obtain ⟨hzero, howned⟩ := hcond
    have hmay := h.owner w x hw howned
    split at hs
    · cases hs
    · split at hs
      · refine hnone.delete howned ?_ ?_ hs
        · exact hmay.elim (fun hnull => absurd hnull hzero) And.left
        · rw [Bool.eq_false_iff]
          intro hown
          obtain ⟨w', y, hy, hyowned, heq⟩ := hasOwner_iff.mp hown
          by_cases hww : w' = w
          · subst hww
            rw [wrapper_setWrapper_self hw] at hy
            cases hy
          · rw [wrapper_setWrapper_ne hw hww] at hy
            exact hmay.other hzero hww hy hyowned heq
      · exact Option.some.inj hs ▸ hnone
  · exact Option.some.inj hs ▸ hnone

/-! ## The runs -/

theorem Sound.step (h : Sound s) (hok : op.Proper s) (hs : s.step op = some s') : Sound s' := by
  cases op with
  | construct classIndex a fails => exact h.dummyConstructor hs
  | setOpaque w a =>
    obtain ⟨x, hx, rfl⟩ := Option.map_eq_some_iff.mp hs
    exact h.setWrapper hx fun y hy howned => by
      cases hy
      exact hok x hx howned
  | setOwned w owned =>
    obtain ⟨x, hx, rfl⟩ := Option.map_eq_some_iff.mp hs
    exact h.setWrapper hx fun y hy howned => by
      cases hy
      exact hok x hx howned
  | dupValue w =>
    obtain ⟨x, hx, rfl⟩ := Option.map_eq_some_iff.mp hs
    exact h.setWrapper hx fun y hy howned => by
      cases hy
      exact h.owner w x hx howned
  | freeValue w =>
    simp only [State.step] at hs
    split at hs
    · cases hs
    · rename_i x hx
      split at hs
      · exact h.jsClassFinalizer hx hs
      · cases hs
        exact h.setWrapper hx fun y hy howned => by
          cases hy
          exact h.owner w x hx howned
  | collect w =>
    obtain ⟨x, hx, hs⟩ := Option.bind_eq_some_iff.mp hs
    exact h.jsClassFinalizer hx hs

/-- **Every native object is destroyed at most once**, for its only owner, if the writes to the
handles and the ownership of the wrappers leave every handle with one owner. -/
theorem natives_destroyedOnce (classes : List Class) (s : State)
    (h : Reachable (· = State.initial classes) State.step (fun s op => op.Proper s) s) :
    DestroyedOnce s :=
  Sound.destroyed (Reachable.invariant (fun _ hinit => hinit ▸ sound_initial classes)
    (fun _ _ _ h hop hs => h.step hop hs) h)

/-- A class with a destructor. -/
def Class.point : Class := ⟨"Point", true⟩

/-- A point is handed over from one wrapper to another, and both wrappers are freed. -/
theorem natives_destroyedOnce_example : ∃ s, DestroyedOnce s ∧
    s.deletions = [⟨0, true, false⟩] ∧ s.wrappers = [none, none] := by
  have hrun : (execIf (fun s op => decide (Op.Proper s op)) State.step (State.initial [Class.point])
      [.construct (some 0) 16 false, .construct (some 0) 32 false, .setOwned 0 false,
        .setOpaque 1 16, .freeValue 0, .freeValue 1]).any
      (fun s => s.deletions = [⟨0, true, false⟩] ∧ s.wrappers = [none, none]) := by
    decide +kernel
  obtain ⟨s, hs, hcheck⟩ := (Option.any_eq_true ..).mp hrun
  have hreach : Reachable (· = State.initial [Class.point]) State.step (fun s op => op.Proper s) s :=
    .execIf (fun _ _ htest => of_decide_eq_true htest) (.init rfl) hs
  exact ⟨s, natives_destroyedOnce _ s hreach, of_decide_eq_true hcheck⟩

/-- A script copies the handle of one wrapper to another, and both wrappers are freed: the native
object is destroyed twice, the first time when the other wrapper still owns it. -/
theorem natives_not_destroyedOnce :
    ¬∀ classes s, Reachable (· = State.initial classes) State.step (fun _ _ => True) s → DestroyedOnce s := by
  intro hall
  have hrun : (exec State.step (State.initial [Class.point])
      [.construct (some 0) 16 false, .construct (some 0) 32 false, .setOpaque 1 16, .freeValue 0,
        .freeValue 1]).any
      (fun s => s.deletions = [⟨0, true, true⟩, ⟨0, true, false⟩]) := by
    decide +kernel
  obtain ⟨s, hs, hcheck⟩ := (Option.any_eq_true ..).mp hrun
  have honce := (hall _ s (.exec (fun _ _ => trivial) (.init rfl) hs)).once
  rw [of_decide_eq_true hcheck] at honce
  exact absurd honce (by decide)

end QuickJs.ClassWrapper
