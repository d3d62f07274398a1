import QuickJs.ObjectWalk

/-!
# The marks that a writer leaves

Every object that the writer enters is left again by way of `p->tmp_mark = 0`, but for a shared buffer that the
flags do not allow: `goto invalid_tag` goes past it. With references the mark is cleared although it was never set.
-/

namespace QuickJs.ObjectWriter

open Lockstep

variable {ω α : Type} {rt : Runtime ω} {flags : Flags} {marked : Obj → Bool} {opened : List Obj} {p q : Obj}
  {s : BCWriterState ω} {t : Visit ω} {stop : Stop} {rec : Value → Write ω Unit} {sub : Value → Walk ω Unit}

/-- An object that may be entered: it is not open, and without references it had no mark. -/
structure Fresh (flags : Flags) (marked : Obj → Bool) (opened : List Obj) (p : Obj) : Prop where
  notMem : p ∉ opened
  unmarked : flags.allowReference = false → marked p = false

/-- The writer that enters `p` and leaves it. -/
def FollowsIn (flags : Flags) (marked : Obj → Bool) (opened : List Obj) (p : Obj) (x : Write ω Unit)
    (y : Walk ω Unit) : Prop :=
  InStep (Agree flags marked (p :: opened)) x y (fun _ _ => Agree flags marked opened)
    (fun _ stop => Stopped flags marked opened stop)

theorem Agree.clear (h : Agree flags marked (p :: opened) s t) (hp : Fresh flags marked opened p) :
    Agree flags marked opened { s with tmpMark := Function.update s.tmpMark p false } t where
  world := h.world
  listed := h.listed
  entered hf q hq := h.entered hf q (List.mem_cons_of_mem p hq)
  mark q := by
    by_cases hq : q = p
    · subst hq
      by_cases hf : flags.allowReference = true
      · simp [hf, hp.notMem, h.entered hf q List.mem_cons_self]
      · simp [hp.notMem, hp.unmarked (Bool.not_eq_true _ ▸ hf)]
    · dsimp only
      rw [Function.update_of_ne hq, h.mark q]
      simp only [List.mem_cons, hq, false_or]

theorem Stopped.clear (h : Stopped flags marked (p :: opened) stop s t) (hp : Fresh flags marked opened p) :
    Stopped flags marked opened stop { s with tmpMark := Function.update s.tmpMark p false } t where
  entered hf q hq := h.entered hf q (List.mem_cons_of_mem p hq)
  barred q hq := ⟨fun hmem => (h.barred q hq).1 (List.mem_cons_of_mem p hmem), (h.barred q hq).2⟩
  mark q := by
    by_cases hq : q = p
    · subst hq
      -- the writer did not stop at an object that was open
      have hne : stop ≠ .sharedBuffer q := fun hstop => (h.barred q hstop).1 List.mem_cons_self
      by_cases hf : flags.allowReference = true
      · simp [hf, hp.notMem, hne, h.entered hf q List.mem_cons_self]
      · simp [hp.notMem, hne, hp.unmarked (Bool.not_eq_true _ ▸ hf)]
    · dsimp only
      rw [Function.update_of_ne hq, h.mark q]
      simp only [List.mem_cons, hq, false_or]

theorem Follows.clearing {x : Write ω Unit} {y : Walk ω Unit} (hp : Fresh flags marked opened p)
    (h : Follows flags marked (p :: opened) x y) : FollowsIn flags marked opened p (clearingMark p x) y := by
  intro s t hst
  have hxy := h hst
  rw [clearingMark]
  generalize x s = rx at hxy
  generalize y t = ry at hxy
  cases hxy with
  | ok hst => exact .ok (hst.clear hp)
  | error hst => exact .error (hst.clear hp)

/-- Where the writer leaves an object with its mark. -/
theorem Agree.barred (h : Agree flags marked (p :: opened) s t) (hp : Fresh flags marked opened p) :
    Stopped flags marked opened (.sharedBuffer p) s t where
  entered hf q hq := h.entered hf q (List.mem_cons_of_mem p hq)
  barred q hq := by
    cases hq
    exact ⟨hp.notMem, hp.unmarked⟩
  mark q := by
    rw [h.mark q]
    by_cases hq : q = p
    · simp [hq]
    · have hne : Stop.sharedBuffer p ≠ .sharedBuffer q := fun h => hq (Stop.sharedBuffer.inj h).symm
      simp [hq, hne]

/-- The writer of what its class asks for. -/
theorem follows_writeClass (hrec : ∀ v, Follows flags marked (p :: opened) (rec v) (sub v))
    (hp : Fresh flags marked opened p) :
    FollowsIn flags marked opened p (writeClass rt flags rec p) (walkParts sub (objectParts rt flags p)) := by
  rw [objectParts, walkParts_bind]
  refine InStep.get fun s t hst => ?_
  rw [hst.world]
  cases hclass : rt.classId t.world p with
  | array => exact Follows.clearing hp (follows_jsWriteArray hrec)
  | object => exact Follows.clearing hp (follows_jsWriteObjectTag hrec)
  | arrayBuffer => exact Follows.clearing hp follows_jsWriteArrayBuffer
  | sharedArrayBuffer =>
    cases flags.allowSab with
    | false => exact InStep.throw fun s t hst => hst.barred hp
    | true => exact Follows.clearing hp follows_jsWriteSharedArrayBuffer
  | date => exact Follows.clearing hp (follows_jsWriteObjectData hrec .date)
  | number | string | boolean | bigInt | bigFloat | bigDecimal =>
    exact Follows.clearing hp (follows_jsWriteObjectData hrec .objectValue)
  | typedArray kind => exact Follows.clearing hp (follows_jsWriteTypedArray hrec kind)
  | other => exact Follows.clearing hp Follows.throw

/-- Without references: the mark is set. -/
theorem Agree.setMark (h : Agree flags marked opened s t) (hf : flags.allowReference = false)
    (hp : s.tmpMark p = false) :
    Fresh flags marked opened p ∧
      Agree flags marked (p :: opened) { s with tmpMark := Function.update s.tmpMark p true } t := by
  rw [h.mark p, if_neg (by simp [hf]), Bool.or_eq_false_iff, decide_eq_false_iff_not] at hp
  refine ⟨⟨hp.2, fun _ => hp.1⟩, h.world, h.listed, fun q => ?_, fun hf' => absurd hf' (by simp [hf])⟩
  by_cases hq : q = p
  · simp [hq, hf]
  · dsimp only
    rw [Function.update_of_ne hq, h.mark q]
    simp [hq]

/-- With references: the object comes into the list. -/
theorem Agree.list (h : Agree flags marked opened s t) (hf : flags.allowReference = true) (hp : p ∉ t.listed) :
    Fresh flags marked opened p ∧ Agree flags marked (p :: opened) { s with objectList := s.objectList ++ [p] }
      { t with listed := t.listed ++ [p] } := by
  refine ⟨⟨fun hmem => hp (h.entered hf p hmem), fun hf' => absurd hf (by simp [hf'])⟩, h.world, ?_, fun q => ?_,
    fun _ q hq => ?_⟩
  · rw [h.listed]
  · rw [h.mark q]
    by_cases hq : q = p
    · simp [hq, hf, hp]
    · simp [hq]
  · rcases List.mem_cons.mp hq with rfl | hq
    · exact List.mem_append_right _ List.mem_cons_self
    · exact List.mem_append_left _ (h.entered hf q hq)

/-- Memory is asked for before an object comes into the list. -/
theorem inStep_alloc : InStep (fun s t => Agree flags marked opened s t ∧ p ∉ t.listed) (alloc rt) (walkAlloc rt)
    (fun _ _ s t => Agree flags marked opened s t ∧ p ∉ t.listed)
    (fun _ stop => Stopped flags marked opened stop) := by
  refine InStep.bind (Q := fun a b s t => a = b ∧ Agree flags marked opened s t ∧ p ∉ t.listed) ?_ ?_
  · rintro s t ⟨hst, hp⟩
    refine .ok ⟨by rw [hst.world], ⟨by rw [hst.world], hst.listed, hst.mark, hst.entered⟩, hp⟩
  · rintro a b s t ⟨rfl, hst⟩
    cases a with
    | true => exact .error hst.1.stopped
    | false => exact .ok hst

theorem follows_writeReference {sub : List Obj → Value → Walk ω Unit} (hf : flags.allowReference = true)
    (hrec : ∀ opened v, Follows flags marked opened (rec v) (sub opened v)) :
    Follows flags marked opened (writeObject rt flags rec p) (walkValue rt flags marked sub opened (.object p)) := by
  rw [writeObject, walkValue, if_pos hf, if_pos hf]
  intro s t hst
  change Ends _ _ ((if p ∈ s.objectList then _ else _ : Write ω Unit) s) ((if p ∈ t.listed then _ else _ : Walk ω Unit) t)
  rw [hst.listed]
  by_cases hp : p ∈ t.listed
  · rw [if_pos hp, if_pos hp]
    refine Follows.of_quiet (x := bcPutTag .objectReference >>= fun _ => get >>= fun s =>
      bcPutLeb128 (UInt32.ofNat (s.objectList.idxOf p))) ?_ hst
    exact (quiet_bcPutTag _).bind fun _ => Quiet.bind (fun s => ⟨s, s, rfl, rfl, rfl, rfl⟩) fun _ => quiet_bcPutLeb128 _
  · rw [if_neg hp, if_neg hp]
    refine InStep.bind inStep_alloc (fun _ _ => ?_) ⟨hst, hp⟩
    rintro s t ⟨hst, hp⟩
    obtain ⟨hfresh, hst⟩ := hst.list hf hp
    exact follows_writeClass (hrec _) hfresh hst

theorem follows_writeMarked {sub : List Obj → Value → Walk ω Unit} (hf : flags.allowReference = false)
    (hrec : ∀ opened v, Follows flags marked opened (rec v) (sub opened v)) :
    Follows flags marked opened (writeObject rt flags rec p) (walkValue rt flags marked sub opened (.object p)) := by
  rw [writeObject, walkValue, if_neg (by simp [hf]), if_neg (by simp [hf])]
  intro s t hst
  change Ends _ _ ((if s.tmpMark p = true then _ else _ : Write ω Unit) s) _
  have hmark := hst.mark p
  rw [if_neg (by simp [hf])] at hmark
  by_cases hp : s.tmpMark p = true
  · rw [if_pos hp, if_pos (by simpa [hp] using hmark.symm)]
    exact Follows.throw hst
  · rw [if_neg hp, if_neg (by simpa [hp] using hmark)]
    obtain ⟨hfresh, hst⟩ := hst.setMark hf (Bool.not_eq_true _ ▸ hp)
    exact follows_writeClass (hrec _) hfresh hst

/-- A value is written as the walk goes through it, if that holds for the values in it. -/
theorem follows_writeValue {sub : List Obj → Value → Walk ω Unit} (v : Value)
    (hrec : ∀ opened v, Follows flags marked opened (rec v) (sub opened v)) :
    Follows flags marked opened (writeValue rt flags rec v) (walkValue rt flags marked sub opened v) := by
  cases v with
  | null | undefined | bool => exact Follows.of_quiet (quiet_bcPutTag _)
  | int i => exact Follows.of_quiet ((quiet_bcPutTag _).bind fun _ => quiet_bcPutSleb128 i)
  | float64 bits => exact Follows.of_quiet ((quiet_bcPutTag _).bind fun _ => quiet_bcPutU64 flags bits)
  | string c => exact Follows.of_quiet ((quiet_bcPutTag _).bind fun _ => quiet_jsWriteString flags c)
  | functionBytecode b =>
    dsimp only [writeValue, walkValue, valueParts]
    split
    · exact Follows.throw
    · exact follows_jsWriteFunctionTag (hrec opened) b
  | module m =>
    dsimp only [writeValue, walkValue, valueParts]
    split
    · exact Follows.throw
    · exact follows_jsWriteModule (hrec opened) m
  | object p =>
    cases hf : flags.allowReference with
    | true => exact follows_writeReference hf hrec
    | false => exact follows_writeMarked hf hrec
  | bigNum n => exact follows_jsWriteBigNum n
  | other tag => exact Follows.throw

/-- The writer follows the walk. -/
theorem follows_jsWriteObjectRec (rt : Runtime ω) (depth : ℕ) : ∀ opened v,
    Follows flags marked opened (jsWriteObjectRec rt flags depth v) (walk rt flags marked depth opened v) := by
  induction depth with
  | zero => exact fun _ _ => Follows.throw
  | succ depth ih =>
    intro opened v
    refine Follows.ask fun overflow => ?_
    cases overflow with
    | true => exact Follows.throw
    | false =>
      exact follows_writeValue v ih

/-! ## The whole call -/

/-- A part of the writer that leaves the marks alone, even where it fails. -/
def Keeps (x : Write ω α) : Prop :=
  ∀ s, match x s with
    | .ok _ s' => s'.tmpMark = s.tmpMark
    | .error _ s' => s'.tmpMark = s.tmpMark

theorem Quiet.keeps {x : Write ω α} (h : Quiet x) : Keeps x := by
  intro s
  obtain ⟨a, s', hx, -, hm, -⟩ := h s
  rw [hx]
  exact hm

theorem Keeps.bind {β : Type} {x : Write ω α} {f : α → Write ω β} (hx : Keeps x) (hf : ∀ a, Keeps (f a)) :
    Keeps (x >>= f) := by
  intro s
  change match EStateM.bind x f s with
    | .ok _ s' => s'.tmpMark = s.tmpMark
    | .error _ s' => s'.tmpMark = s.tmpMark
  have hs := hx s
  rw [EStateM.bind]
  generalize x s = r at hs
  cases r with
  | error e s₁ => exact hs
  | ok a s₁ =>
    have hs₁ := hf a s₁
    rw [hs] at hs₁
    exact hs₁

theorem keeps_alloc : Keeps (alloc rt) := by
  refine Keeps.bind (fun s => rfl) fun fails => ?_
  cases fails with
  | true => exact fun s => rfl
  | false => exact fun s => rfl

theorem keeps_jsWriteObjectAtoms : Keeps (jsWriteObjectAtoms rt flags) := by
  refine Keeps.bind (fun s => rfl) fun _ => Keeps.bind (fun s => rfl) fun _ => ?_
  refine (quiet_bcPutU8 _).keeps.bind fun _ => Keeps.bind (fun s => rfl) fun _ => ?_
  refine (quiet_bcPutLeb128 _).keeps.bind fun _ => Keeps.bind (fun s => rfl) fun _ => ?_
  refine (Quiet.forM _ fun a => quiet_jsWriteString flags _).keeps.bind fun _ => ?_
  exact keeps_alloc.bind fun _ => (quiet_bcPut _).keeps

/-- What the walk through a value says about the marks: without references it does not come to an end at a shared
buffer; with references no object that it enters was marked, unless that is where it ends. -/
def Unmarked (rt : Runtime ω) (flags : Flags) (depth : ℕ) (obj : Value) (w : ω) (tmpMark : Obj → Bool) : Prop :=
  match walk rt flags tmpMark depth [] obj ⟨w, []⟩ with
  | .ok _ t => flags.allowReference → ∀ p ∈ t.listed, tmpMark p = false
  | .error stop t =>
    if flags.allowReference then ∀ p ∈ t.listed, tmpMark p = true → stop = .sharedBuffer p
    else ∀ p, stop ≠ .sharedBuffer p

theorem Agree.tmpMark_eq_iff (h : Agree flags marked [] s t) :
    s.tmpMark = marked ↔ (flags.allowReference → ∀ p ∈ t.listed, marked p = false) := by
  have hmark := h.mark
  cases hf : flags.allowReference with
  | false =>
    simp only [hf, List.not_mem_nil, decide_false, Bool.or_false] at hmark
    exact ⟨fun _ h => absurd h (by simp), fun _ => funext hmark⟩
  | true =>
    simp only [hf] at hmark
    rw [funext_iff]
    simp only [hmark, forall_const]
    refine forall_congr' fun p => ?_
    cases marked p <;> simp

theorem Stopped.tmpMark_eq_iff (h : Stopped flags marked [] stop s t) :
    s.tmpMark = marked ↔ if flags.allowReference then ∀ p ∈ t.listed, marked p = true → stop = .sharedBuffer p
      else ∀ p, stop ≠ .sharedBuffer p := by
  have hmark := h.mark
  rw [funext_iff]
  cases hf : flags.allowReference with
  | false =>
    simp only [hf] at hmark ⊢
    refine forall_congr' fun p => ?_
    by_cases hp : stop = .sharedBuffer p
    · simp [hmark, (h.barred p hp).2 hf]
    · simp [hmark, hp]
  | true =>
    simp only [hf] at hmark ⊢
    simp only [hmark]
    refine forall_congr' fun p => ?_
    cases marked p <;> simp [Classical.or_iff_not_imp_left]

/-- When a call leaves every mark as it was. -/
theorem tmpMark_jsWriteObject2_iff (rt : Runtime ω) (flags : Flags) (depth : ℕ) (obj : Value) (w : ω)
    (tmpMark : Obj → Bool) :
    (jsWriteObject2 rt flags depth obj w tmpMark).tmpMark = tmpMark ↔ Unmarked rt flags depth obj w tmpMark := by
  have hst : Agree flags tmpMark [] (⟨w, tmpMark, [], [], [], []⟩ : BCWriterState ω) ⟨w, []⟩ :=
    ⟨rfl, rfl, fun q => by simp, fun _ q hq => absurd hq List.not_mem_nil⟩
  have hrun := follows_jsWriteObjectRec rt depth [] obj hst
  rw [Unmarked, jsWriteObject2]
  simp only [bind, EStateM.bind]
  generalize jsWriteObjectRec rt flags depth obj ⟨w, tmpMark, [], [], [], []⟩ = rx at hrun
  generalize walk rt flags tmpMark depth [] obj ⟨w, []⟩ = ry at hrun
  cases hrun with
  | error h => exact h.tmpMark_eq_iff
  | @ok _ _ s t h =>
    refine Iff.trans ?_ h.tmpMark_eq_iff
    have hatoms : Keeps (jsWriteObjectAtoms rt flags) := keeps_jsWriteObjectAtoms
    specialize hatoms s
    dsimp only
    generalize jsWriteObjectAtoms rt flags s = r at hatoms
    cases r with
    | ok u s' => exact hatoms ▸ Iff.rfl
    | error e s' => exact hatoms ▸ Iff.rfl

/-- A runtime with two objects: the property of the first one is the second one, which is a shared buffer. -/
def sharedRuntime : Runtime Unit where
  jsAtomEnd := 230
  atomString _ := .str8 []
  checkStackOverflow w := (false, w)
  allocFails w := (false, w)
  classId _ p := if p = 1 then .object else .sharedArrayBuffer
  extensible _ _ := true
  getLength32 w _ := (some 0, w)
  getPropertyUint32 w _ _ := (some .undefined, w)
  getRaw w _ := (some .undefined, w)
  shapeProps _ _ := [⟨300, true, true, false⟩]
  propValue _ _ _ := .object 2
  objectData _ _ := .undefined
  arrayBuffer _ _ := ⟨false, [], 0⟩
  typedArray _ _ := ⟨0, 0, 0⟩
  functionBytecode _ _ := ⟨[], [], [], []⟩
  moduleDef _ _ := ⟨[], .undefined⟩

theorem not_clear_shared :
    (jsWriteObject2 sharedRuntime ⟨false, false, false, false⟩ 10 (.object 1) () fun _ => false).tmpMark 2 = true ∧
    (jsWriteObject2 sharedRuntime ⟨false, false, true, false⟩ 10 (.object 2) () fun _ => false).result.isOk = true ∧
    (jsWriteObject2 sharedRuntime ⟨false, false, true, false⟩ 10 (.object 2) ()
      (jsWriteObject2 sharedRuntime ⟨false, false, false, false⟩ 10 (.object 1) () fun _ => false).tmpMark).result =
        .error (.typeError "circular reference") := by
  refine ⟨by decide, by decide, rfl⟩

end QuickJs.ObjectWriter
