import QuickJs.Lockstep
import QuickJs.ObjectWriter
import Mathlib

/-!
# What a writer goes through

The walk through a value and everything that it refers to, without the bytes and without the marks: an object is
open while its parts are read. Without references an object that is open, or was marked before, ends the walk; with
references an object is entered once. `jsWriteObjectRec` runs in step with the walk, and what that says about the
marks is in `Agree` and `Stopped`.
-/

namespace QuickJs.ObjectWriter

open Lockstep

/-- Where a walk is: the rest of the runtime, and the objects that were entered, if references are allowed. -/
structure Visit (ω : Type) where
  world : ω
  listed : List Obj

/-- Why a walk ends early. -/
inductive Stop
  /-- at a shared buffer, which the flags do not allow -/
  | sharedBuffer (p : Obj)
  | other
  deriving DecidableEq

abbrev Walk (ω : Type) (α : Type) := EStateM Stop (Visit ω) α

/-- A value that is to be read. -/
abbrev Part (ω : Type) := ω → Option Value × ω

variable {ω : Type}

namespace Walk

def ask {α : Type} (f : ω → α × ω) : Walk ω α :=
  modifyGet fun t => ((f t.world).1, { t with world := (f t.world).2 })

def read (part : Part ω) : Walk ω Value := do
  match ← ask part with
  | none => throw .other
  | some val => pure val

end Walk

variable (rt : Runtime ω) (flags : Flags)

/-- The walk fails where memory is asked for and there is none. -/
def walkAlloc : Walk ω Unit := do
  if (← Walk.ask rt.allocFails) then throw .other

/-- The properties that are written, from the `i`-th on. -/
def propParts (p : Obj) : ℕ → List ShapeProperty → List (Part ω)
  | _, [] => []
  | i, pr :: prs =>
    if pr.isWritten then (fun w => (some (rt.propValue w p i), w)) :: propParts p (i + 1) prs
    else propParts p (i + 1) prs

def arrayParts (p : Obj) : Walk ω (List (Part ω)) := do
  let template := isTemplate rt flags (← get).world p
  match ← Walk.ask (rt.getLength32 · p) with
  | none => throw .other
  | some len =>
    pure (((List.range len.toNat).map fun i w => rt.getPropertyUint32 w p i) ++
      if template then [fun w => rt.getRaw w p] else [])

def tagParts (p : Obj) : Walk ω (List (Part ω)) := do
  let sh := rt.shapeProps (← get).world p
  if sh.any (fun pr => pr.isWritten && pr.isTmask) then throw .other else pure (propParts rt p 0 sh)

def bufferParts (p : Obj) : Walk ω (List (Part ω)) := do
  if (rt.arrayBuffer (← get).world p).detached then throw .other else pure []

def sharedParts : Walk ω (List (Part ω)) := do
  walkAlloc rt
  pure []

/-- A single part, which is known. -/
def knownPart (f : ω → Value) : Walk ω (List (Part ω)) := do
  let val := f (← get).world
  pure [fun w => (some val, w)]

/-- The parts of an object that has been entered. -/
def objectParts (p : Obj) : Walk ω (List (Part ω)) := do
  match rt.classId (← get).world p with
  | .array => arrayParts rt flags p
  | .object => tagParts rt p
  | .arrayBuffer => bufferParts rt p
  | .sharedArrayBuffer => if !flags.allowSab then throw (.sharedBuffer p) else sharedParts rt
  | .date | .number | .string | .boolean | .bigInt | .bigFloat | .bigDecimal => knownPart (rt.objectData · p)
  | .typedArray _ => knownPart fun w => .object (rt.typedArray w p).buffer
  | .other _ => throw .other

def functionParts (b : ℕ) : Walk ω (List (Part ω)) := do
  let f := rt.functionBytecode (← get).world b
  walkAlloc rt
  pure (f.cpool.map fun v w => (some v, w))

/-- The parts of any other value. -/
def valueParts : Value → Walk ω (List (Part ω))
  | .functionBytecode b => if !flags.allowBytecode then throw .other else functionParts rt b
  | .module m => if !flags.allowBytecode then throw .other else knownPart fun w => (rt.moduleDef w m).funcObj
  | .bigNum n =>
    if n.e < -2 ^ 31 ∨ 2 ^ 31 - 1 < n.e ∨ 2 ^ 31 - 1 < n.mantissa.length then throw .other else pure []
  | .other _ => throw .other
  | _ => pure []

/-- The parts of a value, one after the other. -/
def walkParts (walk : Value → Walk ω Unit) (parts : Walk ω (List (Part ω))) : Walk ω Unit := do
  forM (← parts) fun part => do walk (← Walk.read part)

/-- The walk through a value, where some objects were marked before and some are open, with the walk through its
parts. -/
def walkValue (marked : Obj → Bool) (walk : List Obj → Value → Walk ω Unit) (opened : List Obj) :
    Value → Walk ω Unit
  | .object p =>
    if flags.allowReference then do
      if p ∈ (← get).listed then pure ()
      else
        walkAlloc rt
        modify fun t => { t with listed := t.listed ++ [p] }
        walkParts (walk (p :: opened)) (objectParts rt flags p)
    else
      if marked p ∨ p ∈ opened then throw .other
      else walkParts (walk (p :: opened)) (objectParts rt flags p)
  | v => walkParts (walk opened) (valueParts rt flags v)

def walk (marked : Obj → Bool) : ℕ → List Obj → Value → Walk ω Unit
  | 0, _, _ => throw .other
  | depth + 1, opened, v => do
    if (← Walk.ask rt.checkStackOverflow) then throw .other
    else walkValue rt flags marked (walk marked depth) opened v

variable {marked : Obj → Bool} {opened : List Obj} {p q : Obj} {s s' : BCWriterState ω} {t : Visit ω} {stop : Stop}
  {α β : Type}

/-- The state of a writer whose walk has come to `t`. With references, the objects that were entered and are not
open any more have lost their mark. Without, the marks are those from before and the open objects. -/
structure Agree (marked : Obj → Bool) (opened : List Obj) (s : BCWriterState ω) (t : Visit ω) : Prop where
  world : s.world = t.world
  listed : s.objectList = t.listed
  mark : ∀ q, s.tmpMark q =
    if flags.allowReference then marked q && !decide (q ∈ t.listed ∧ q ∉ opened) else marked q || decide (q ∈ opened)
  entered : flags.allowReference → ∀ q ∈ opened, q ∈ t.listed

/-- The state of a writer whose walk has ended early: the shared buffer at which it ended is left as it is, with
its mark. -/
structure Stopped (marked : Obj → Bool) (opened : List Obj) (stop : Stop) (s : BCWriterState ω) (t : Visit ω) :
    Prop where
  mark : ∀ q, s.tmpMark q =
    if flags.allowReference then marked q && !decide (q ∈ t.listed ∧ q ∉ opened ∧ stop ≠ .sharedBuffer q)
    else marked q || decide (q ∈ opened ∨ stop = .sharedBuffer q)
  entered : flags.allowReference → ∀ q ∈ opened, q ∈ t.listed
  barred : ∀ q, stop = .sharedBuffer q → q ∉ opened ∧ (flags.allowReference = false → marked q = false)

/-- A writer and a walk that run in step. -/
def Follows (marked : Obj → Bool) (opened : List Obj) (x : Write ω Unit) (y : Walk ω Unit) : Prop :=
  InStep (Agree flags marked opened) x y (fun _ _ => Agree flags marked opened)
    (fun _ stop => Stopped flags marked opened stop)

/-! ## What the writer puts does not matter -/

/-- A part of the writer that succeeds, and does not concern the walk. -/
def Quiet (x : Write ω α) : Prop :=
  ∀ s, ∃ a s', x s = .ok a s' ∧ s'.world = s.world ∧ s'.tmpMark = s.tmpMark ∧ s'.objectList = s.objectList

theorem Quiet.bind {x : Write ω α} {f : α → Write ω β} (hx : Quiet x) (hf : ∀ a, Quiet (f a)) : Quiet (x >>= f) := by
  intro s
  obtain ⟨a, s₁, hx, hw₁, hm₁, hl₁⟩ := hx s
  obtain ⟨b, s₂, hf, hw₂, hm₂, hl₂⟩ := hf a s₁
  refine ⟨b, s₂, ?_, hw₂.trans hw₁, hm₂.trans hm₁, hl₂.trans hl₁⟩
  change EStateM.bind x f s = _
  rw [EStateM.bind, hx]
  exact hf

theorem Quiet.forM {f : α → Write ω Unit} (l : List α) (hf : ∀ a, Quiet (f a)) : Quiet (forM l f) := by
  induction l with
  | nil => exact fun s => ⟨(), s, rfl, rfl, rfl, rfl⟩
  | cons a l ih =>
    exact (hf a).bind fun _ => ih

theorem quiet_bcPut (bytes : List UInt8) : Quiet (ω := ω) (bcPut bytes) := fun _ => ⟨(), _, rfl, rfl, rfl, rfl⟩

theorem quiet_bcPutU8 (v : UInt8) : Quiet (ω := ω) (bcPutU8 v) := quiet_bcPut _

theorem quiet_bcPutTag (tag : BCTag) : Quiet (ω := ω) (bcPutTag tag) := quiet_bcPut _

theorem quiet_bcPutBytes (bytes : List UInt8) : Quiet (ω := ω) (bcPutBytes flags bytes) := quiet_bcPut _

theorem quiet_bcPutU16 (v : UInt16) : Quiet (ω := ω) (bcPutU16 flags v) := quiet_bcPut _

theorem quiet_bcPutU64 (v : UInt64) : Quiet (ω := ω) (bcPutU64 flags v) := quiet_bcPut _

theorem quiet_bcPutLeb128 (v : UInt32) : Quiet (ω := ω) (bcPutLeb128 v) := quiet_bcPut _

theorem quiet_bcPutSleb128 (v : Int32) : Quiet (ω := ω) (bcPutSleb128 v) := quiet_bcPut _

theorem quiet_bcAtomToIdx (a : ℕ) : Quiet (bcAtomToIdx rt flags a) := by
  intro s
  rw [bcAtomToIdx]
  split
  · exact ⟨_, s, rfl, rfl, rfl, rfl⟩
  · by_cases ha : a ∈ s.idxToAtom
    · exact ⟨s.idxToAtom.idxOf a + firstAtom rt flags, s,
        by simp only [modifyGet, MonadStateOf.modifyGet, EStateM.modifyGet, if_pos ha], rfl, rfl, rfl⟩
    · exact ⟨s.idxToAtom.length + firstAtom rt flags, { s with idxToAtom := s.idxToAtom ++ [a] },
        by simp only [modifyGet, MonadStateOf.modifyGet, EStateM.modifyGet, if_neg ha], rfl, rfl, rfl⟩

theorem quiet_bcPutAtom (a : ℕ) : Quiet (bcPutAtom rt flags a) := by
  rw [bcPutAtom]
  split
  · exact quiet_bcPutLeb128 _
  · exact (quiet_bcAtomToIdx rt flags a).bind fun _ => quiet_bcPutLeb128 _

theorem quiet_jsWriteString (c : JSString.Chars) : Quiet (ω := ω) (jsWriteString flags c) := by
  refine (quiet_bcPutLeb128 _).bind fun _ => ?_
  cases c with
  | str8 units => exact quiet_bcPut units
  | str16 units => exact Quiet.forM units (quiet_bcPutU16 flags)

theorem quiet_field (f : Field) : Quiet (f.put rt flags) := by
  cases f with
  | u8 v => exact quiet_bcPutU8 v
  | u16 v => exact quiet_bcPutU16 flags v
  | leb128 v => exact quiet_bcPutLeb128 v
  | atom a => exact quiet_bcPutAtom rt flags a
  | bytes b => exact quiet_bcPut b

theorem quiet_codePiece (c : CodePiece) : Quiet (c.put rt flags) := by
  cases c with
  | opcode op => exact quiet_bcPutU8 op
  | operand bytes => exact quiet_bcPutBytes flags bytes
  | atom a => exact (quiet_bcAtomToIdx rt flags a).bind fun _ => quiet_bcPutBytes flags _

/-! ## The writer follows the walk -/

variable {rt flags} {x : Write ω Unit} {y : Walk ω Unit}

theorem Agree.quiet (h : Agree flags marked opened s t) (hw : s'.world = s.world) (hm : s'.tmpMark = s.tmpMark)
    (hl : s'.objectList = s.objectList) : Agree flags marked opened s' t where
  world := hw.trans h.world
  listed := hl.trans h.listed
  mark := by rw [hm]; exact h.mark
  entered := h.entered

/-- A walk that ends early for another reason leaves the marks as they are. -/
theorem Agree.stopped (h : Agree flags marked opened s t) : Stopped flags marked opened .other s t where
  mark q := by simpa using h.mark q
  entered := h.entered
  barred q hq := by cases hq

theorem Follows.quiet {x : Write ω α} {f : α → Write ω Unit} (hx : Quiet x)
    (hf : ∀ a, Follows flags marked opened (f a) y) : Follows flags marked opened (x >>= f) y := by
  refine InStep.bind_left (fun s t hst => ?_) hf
  obtain ⟨a, s', hs', hw, hm, hl⟩ := hx s
  exact ⟨a, s', hs', hst.quiet hw hm hl⟩

theorem Follows.of_quiet (hx : Quiet x) : Follows flags marked opened x (pure ()) := by
  have h : Follows flags marked opened (x >>= pure) (pure ()) :=
    Follows.quiet hx fun _ => InStep.pure fun _ _ hst => hst
  rwa [bind_pure] at h

theorem Follows.bind {f : Unit → Write ω Unit} {g : Unit → Walk ω Unit} (h : Follows flags marked opened x y)
    (hf : ∀ u, Follows flags marked opened (f u) (g u)) : Follows flags marked opened (x >>= f) (y >>= g) :=
  InStep.bind h fun _ _ => hf _

theorem Follows.throw {e : Failure} : Follows flags marked opened (ω := ω) (throw e) (throw .other) :=
  InStep.throw fun _ _ hst => hst.stopped

/-- The same is asked. -/
theorem Follows.ask {f : ω → α × ω} {k : α → Write ω Unit} {l : α → Walk ω Unit}
    (h : ∀ a, Follows flags marked opened (k a) (l a)) :
    Follows flags marked opened (ask f >>= k) (Walk.ask f >>= l) := by
  refine InStep.bind (Q := fun a b s t => a = b ∧ Agree flags marked opened s t) (fun s t hst => ?_) ?_
  · refine Ends.ok ⟨by rw [hst.world], ?_⟩
    exact ⟨by rw [hst.world], hst.listed, hst.mark, hst.entered⟩
  · rintro a b s t ⟨rfl, hst⟩
    exact h a hst

/-- What the rest of the runtime is. -/
theorem Follows.get {k : BCWriterState ω → Write ω Unit} {l : Visit ω → Walk ω Unit}
    (h : ∀ s t, s.world = t.world → s.objectList = t.listed → Follows flags marked opened (k s) (l t)) :
    Follows flags marked opened (get >>= k) (get >>= l) :=
  InStep.get fun s t hst => h s t hst.world hst.listed

theorem Follows.alloc {k : Unit → Write ω Unit} {l : Unit → Walk ω Unit}
    (h : ∀ u, Follows flags marked opened (k u) (l u)) :
    Follows flags marked opened (alloc rt >>= k) (walkAlloc rt >>= l) := by
  refine Follows.bind (Follows.ask fun a => ?_) h
  cases a with
  | true => exact Follows.throw
  | false => exact InStep.pure fun _ _ hst => hst

theorem Follows.read {part : Part ω} {k : Value → Write ω Unit} {l : Value → Walk ω Unit}
    (h : ∀ v, Follows flags marked opened (k v) (l v)) :
    Follows flags marked opened (read part >>= k) (Walk.read part >>= l) := by
  rw [ObjectWriter.read, Walk.read, bind_assoc, bind_assoc]
  refine Follows.ask fun o => ?_
  cases o with
  | none => exact Follows.throw
  | some v => exact h v

/-! ## One lemma for each part of the writer -/

variable {rec : Value → Write ω Unit} {sub : Value → Walk ω Unit} {v : Value}

theorem Follows.forM_parts {ι : Type} {f : ι → Write ω Unit} {part : ι → Part ω} (l : List ι)
    (h : ∀ i, Follows flags marked opened (f i) (Walk.read (part i) >>= sub)) :
    Follows flags marked opened (forM l f) (forM (l.map part) fun part => Walk.read part >>= sub) :=
  InStep.forM_map l fun i _ => h i

theorem walkParts_pure (ps : List (Part ω)) :
    walkParts sub (pure ps) = forM ps fun part => Walk.read part >>= sub := pure_bind _ _

/-- A single part, which is known. -/
theorem walkParts_single : walkParts sub (pure [fun w : ω => (some v, w)]) = sub v := by
  exact bind_pure (sub v)

theorem walkParts_bind {f : α → Walk ω (List (Part ω))} {z : Walk ω α} :
    walkParts sub (z >>= f) = z >>= fun a => walkParts sub (f a) := bind_assoc _ _ _

theorem walkParts_knownPart {f : ω → Value} :
    walkParts sub (knownPart f) = get >>= fun t => sub (f t.world) := by
  rw [knownPart, walkParts_bind]
  simp only [walkParts_single]

theorem follows_jsWriteArray (hrec : ∀ v, Follows flags marked opened (rec v) (sub v)) :
    Follows flags marked opened (jsWriteArray rt flags rec p) (walkParts sub (arrayParts rt flags p)) := by
  rw [arrayParts, walkParts_bind]
  refine Follows.get fun s t hw _ => ?_
  rw [hw]
  generalize isTemplate rt flags t.world p = template
  refine Follows.quiet (quiet_bcPutTag _) fun _ => ?_
  rw [walkParts_bind]
  refine Follows.ask fun len => ?_
  cases len with
  | none => exact Follows.throw
  | some len =>
    refine Follows.quiet (quiet_bcPutLeb128 _) fun _ => ?_
    simp only [walkParts_pure, List.forM_append]
    refine Follows.bind (Follows.forM_parts _ fun i => Follows.read hrec) fun _ => ?_
    cases template with
    | false => exact InStep.pure fun _ _ hst => hst
    | true =>
      simp only [if_true, List.forM_cons, List.forM_nil, bind_pure_unit]
      exact Follows.read hrec

/-- The first pass fails if a property that is written has no value. -/
theorem countProps_eq (sh : List ShapeProperty) (n : ℕ) :
    (sh.any (fun pr => pr.isWritten && pr.isTmask) = true →
      countProps (ω := ω) n sh = throw (.typeError "only value properties are supported")) ∧
    (sh.any (fun pr => pr.isWritten && pr.isTmask) = false → ∃ m, countProps (ω := ω) n sh = pure m) := by
  induction sh generalizing n with
  | nil => exact ⟨fun h => by simp at h, fun _ => ⟨n, rfl⟩⟩
  | cons pr sh ih =>
    rw [List.any_cons, countProps]
    cases pr.isWritten with
    | false => simpa using ih n
    | true =>
      cases pr.isTmask with
      | false => simpa using ih (n + 1)
      | true => simp

section

variable (hrec : ∀ v, Follows flags marked opened (rec v) (sub v))

include hrec

/-- The second pass reads the properties that are written. -/
theorem follows_writeProps (sh : List ShapeProperty)
    (i : ℕ) (hsh : sh.any (fun pr => pr.isWritten && pr.isTmask) = false) :
    Follows flags marked opened (writeProps rt flags rec p i sh) (walkParts sub (pure (propParts rt p i sh))) := by
  induction sh generalizing i with
  | nil => exact InStep.pure fun _ _ hst => hst
  | cons pr sh ih =>
    rw [List.any_cons, Bool.or_eq_false_iff] at hsh
    obtain ⟨hpr, hsh⟩ := hsh
    rw [writeProps, propParts]
    cases hwritten : pr.isWritten with
    | false => exact ih (i + 1) hsh
    | true =>
      rw [hwritten, Bool.true_and] at hpr
      simp only [hpr]
      refine Follows.quiet (quiet_bcPutAtom rt flags _) fun _ => ?_
      refine Follows.get (l := fun t => sub (rt.propValue t.world p i) >>= fun _ =>
        forM (propParts rt p (i + 1) sh) fun part => Walk.read part >>= sub) fun s t hw _ => ?_
      rw [hw]
      exact Follows.bind (hrec _) fun _ => ih (i + 1) hsh

theorem follows_jsWriteObjectTag :
    Follows flags marked opened (jsWriteObjectTag rt flags rec p) (walkParts sub (tagParts rt p)) := by
  rw [tagParts, walkParts_bind]
  refine Follows.get fun s t hw _ => ?_
  rw [hw]
  refine Follows.quiet (quiet_bcPutTag _) fun _ => ?_
  cases hsh : (rt.shapeProps t.world p).any (fun pr => pr.isWritten && pr.isTmask) with
  | true =>
    rw [(countProps_eq _ 0).1 hsh]
    simp only [hsh]
    exact Follows.throw (e := .typeError "only value properties are supported")
  | false =>
    obtain ⟨m, hm⟩ := (countProps_eq (ω := ω) _ 0).2 hsh
    rw [hm, pure_bind]
    refine Follows.quiet (quiet_bcPutLeb128 _) fun _ => ?_
    simp only [hsh]
    exact follows_writeProps hrec _ 0 hsh

theorem follows_jsWriteTypedArray (kind : UInt8) :
    Follows flags marked opened (jsWriteTypedArray rt rec kind p)
      (walkParts sub (knownPart fun w => .object (rt.typedArray w p).buffer)) := by
  rw [walkParts_knownPart]
  refine Follows.get fun s t hw _ => ?_
  rw [hw]
  refine Follows.quiet (quiet_bcPutTag _) fun _ => ?_
  refine Follows.quiet (quiet_bcPutU8 _) fun _ => ?_
  refine Follows.quiet (quiet_bcPutLeb128 _) fun _ => ?_
  exact Follows.quiet (quiet_bcPutLeb128 _) fun _ => hrec _

end

theorem follows_jsWriteArrayBuffer :
    Follows flags marked opened (jsWriteArrayBuffer rt p) (walkParts sub (bufferParts rt p)) := by
  rw [bufferParts, walkParts_bind]
  refine Follows.get fun s t hw _ => ?_
  rw [hw]
  cases hdetached : (rt.arrayBuffer t.world p).detached with
  | true =>
    simp only [hdetached]
    exact Follows.throw
  | false =>
    simp only [hdetached]
    refine Follows.quiet (quiet_bcPutTag _) fun _ => ?_
    exact Follows.of_quiet ((quiet_bcPutLeb128 _).bind fun _ => quiet_bcPut _)

theorem follows_jsWriteSharedArrayBuffer :
    Follows flags marked opened (jsWriteSharedArrayBuffer rt flags p) (walkParts sub (sharedParts rt)) := by
  rw [sharedParts, walkParts_bind]
  refine Follows.quiet (fun s => ⟨s, s, rfl, rfl, rfl, rfl⟩) fun s => ?_
  refine Follows.quiet (quiet_bcPutTag _) fun _ => ?_
  refine Follows.quiet (quiet_bcPutLeb128 _) fun _ => ?_
  refine Follows.quiet (quiet_bcPutU64 flags _) fun _ => ?_
  exact Follows.alloc fun _ => Follows.of_quiet fun s => ⟨(), _, rfl, rfl, rfl, rfl⟩

section

variable (hrec : ∀ v, Follows flags marked opened (rec v) (sub v))

include hrec

theorem follows_jsWriteObjectData (tag : BCTag) :
    Follows flags marked opened (jsWriteObjectData rt rec tag p)
      (walkParts sub (knownPart (rt.objectData · p))) := by
  rw [walkParts_knownPart]
  refine Follows.get fun s t hw _ => ?_
  rw [hw]
  exact Follows.quiet (quiet_bcPutTag _) fun _ => hrec _

theorem follows_jsWriteFunctionTag (b : ℕ) :
    Follows flags marked opened (jsWriteFunctionTag rt flags rec b) (walkParts sub (functionParts rt b)) := by
  rw [functionParts, walkParts_bind]
  refine Follows.get fun s t hw _ => ?_
  rw [hw]
  refine Follows.quiet (quiet_bcPutTag _) fun _ => ?_
  refine Follows.quiet (Quiet.forM _ (quiet_field rt flags)) fun _ => ?_
  rw [walkParts_bind]
  refine Follows.alloc fun _ => ?_
  refine Follows.quiet (Quiet.forM _ (quiet_codePiece rt flags)) fun _ => ?_
  refine Follows.quiet (Quiet.forM _ (quiet_field rt flags)) fun _ => ?_
  exact Follows.forM_parts _ hrec

theorem follows_jsWriteModule (m : ℕ) :
    Follows flags marked opened (jsWriteModule rt flags rec m)
      (walkParts sub (knownPart fun w => (rt.moduleDef w m).funcObj)) := by
  rw [walkParts_knownPart]
  refine Follows.get fun s t hw _ => ?_
  rw [hw]
  refine Follows.quiet (quiet_bcPutTag _) fun _ => ?_
  exact Follows.quiet (Quiet.forM _ (quiet_field rt flags)) fun _ => hrec _

end

theorem follows_jsWriteBigNum (n : BigNum) :
    Follows flags marked opened (jsWriteBigNum n) (walkParts sub (valueParts rt flags (.bigNum n))) := by
  rw [valueParts]
  refine Follows.quiet (quiet_bcPutTag _) fun _ => ?_
  by_cases he : n.e < -2 ^ 31 ∨ 2 ^ 31 - 1 < n.e
  · rw [if_pos he, if_pos (or_assoc.mp (.inl he))]
    exact Follows.throw
  · rw [if_neg he]
    refine Follows.quiet (quiet_bcPutSleb128 _) fun _ => ?_
    by_cases hlen : 2 ^ 31 - 1 < n.mantissa.length
    · have hne : n.mantissa ≠ [] := fun h => by simp [h] at hlen
      rw [if_neg hne, if_pos hlen, if_pos (.inr (.inr hlen))]
      exact Follows.throw
    · rw [if_neg fun h => (or_assoc.mpr h).elim he hlen]
      split
      · exact InStep.pure fun _ _ hst => hst
      · exact Follows.of_quiet ((quiet_bcPutLeb128 _).bind fun _ => quiet_bcPut _)

end QuickJs.ObjectWriter
