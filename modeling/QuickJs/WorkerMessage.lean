import QuickJs.Run
import Mathlib

/-!
# Messages between workers

One `JSWorkerMessagePipe`: the queue of the messages, the pipe that wakes up the receiver, and the
mutex of both. Any number of threads post with `js_worker_postMessage` and receive with
`handle_posted_message`. A call of `write` or `read` is a step of its own, as it may be interrupted
while the mutex is held. The pipe is a queue of bytes of which only the number matters.
-/

namespace QuickJs.WorkerMessage

open Run

/-- `JSWorkerMessage`: a number for what is sent, and the shared buffers that it refers to. -/
structure Message where
  id : ℕ
  sabTab : List ℕ
  deriving DecidableEq

/-- The errors of an interrupted call. -/
inductive Errno
  | eagain
  | eintr
  deriving DecidableEq

inductive WriteRet
  | one
  | zero
  | error (errno : Errno)
  deriving DecidableEq

inductive ReadRet
  | bytes (n : ℕ)
  | error (errno : Errno)
  deriving DecidableEq

/-- Who has the mutex. -/
inductive Mutex
  | free
  /-- a sender, which writes to the pipe before it adds the message -/
  | post (msg : Message)
  /-- a receiver, which reads from the pipe because it has taken the last message -/
  | receive (msg : Message)
  deriving DecidableEq

/-- The numbers of the messages are written down when they are posted, delivered, discarded and
released. -/
structure State where
  queue : List Message
  pipe : ℕ
  mutex : Mutex
  /-- messages whose senders have not yet got the mutex -/
  waiting : List Message
  /-- messages that receivers have taken from the queue and not yet freed -/
  inHand : List Message
  /-- the references to the shared buffers that were taken for messages, less those released -/
  sabRefs : ℕ → ℤ
  made : ℕ
  posted : List ℕ
  delivered : List ℕ
  discarded : List ℕ
  released : List ℕ
  /-- the message pipe has been freed -/
  closed : Bool

def State.init : State := ⟨[], 0, .free, [], [], fun _ => 0, 0, [], [], [], [], false⟩

/-- `js_sab_dup` for all buffers of a message. -/
def dupSabs (sabTab : List ℕ) (refs : ℕ → ℤ) : ℕ → ℤ := fun b => refs b + sabTab.count b

/-- `js_sab_free` for all buffers of a message. -/
def freeSabs (sabTab : List ℕ) (refs : ℕ → ℤ) : ℕ → ℤ := fun b => refs b - sabTab.count b

/-- `js_free_message`. -/
def State.freeMessage (s : State) (msg : Message) : State := { s with
  sabRefs := freeSabs msg.sabTab s.sabRefs
  released := s.released ++ [msg.id] }

/-- The message is added to the queue, and the mutex given back. -/
def State.addTail (s : State) (msg : Message) : State := { s with
  queue := s.queue ++ [msg]
  mutex := .free
  posted := s.posted ++ [msg.id] }

/-- The receiver gives back the mutex. -/
def State.unlock (s : State) (msg : Message) : State := { s with
  mutex := .free
  inHand := s.inHand ++ [msg] }

/-- Whether the loop around `write` ends with an error. -/
def writeGivesUp (errno : Errno) : Bool := errno ≠ .eagain ∨ errno ≠ .eintr

/-- Whether the loop around `read` ends with an error. -/
def readGivesUp (errno : Errno) : Bool := errno ≠ .eagain ∧ errno ≠ .eintr

inductive Op
  /-- a thread makes a message out of a value, if that can be serialized and the three
  allocations succeed -/
  | make (sabTab : Option (List ℕ)) (msg data tab : Bool)
  /-- a sender gets the mutex -/
  | lockPost (i : ℕ)
  /-- the call of `write` returns -/
  | write (ret : WriteRet)
  /-- a receiver gets the mutex -/
  | lockReceive
  /-- the call of `read` returns -/
  | read (ret : ReadRet)
  /-- a receiver has read the value of its message, or failed to, and frees the message -/
  | free (i : ℕ)
  /-- the last reference to the message pipe is released -/
  | close

/-- `js_free_message_pipe` for the messages that are left. -/
def freeAll : List Message → State → State
  | [], s => s
  | msg :: el, s => freeAll el (s.freeMessage msg)

/-- One step of a thread. A `read` of an empty pipe does not return. -/
def State.stepOpen (s : State) : Op → Option State
  | .make sabTab msg data tab =>
    match sabTab with
    | some sabTab =>
      if msg ∧ data ∧ tab then some { s with
        waiting := s.waiting ++ [⟨s.made, sabTab⟩]
        sabRefs := dupSabs sabTab s.sabRefs
        made := s.made + 1 }
      else some s
    | none => some s
  | .lockPost i => do
    let msg ← s.waiting[i]?
    if s.mutex ≠ .free then none else
      let s := { s with waiting := s.waiting.eraseIdx i }
      if s.queue = [] then some { s with mutex := .post msg } else some (s.addTail msg)
  | .write ret =>
    match s.mutex with
    | .post msg => match ret with
      | .one => some ({ s with pipe := s.pipe + 1 }.addTail msg)
      | .zero => some s
      | .error errno => if writeGivesUp errno then some (s.addTail msg) else some s
    | _ => none
  | .lockReceive =>
    if s.mutex ≠ .free then none else match s.queue with
      | [] => some s
      | msg :: el =>
        let s := { s with queue := el, delivered := s.delivered ++ [msg.id] }
        if el = [] then some { s with mutex := .receive msg } else some (s.unlock msg)
  | .read ret =>
    match s.mutex with
    | .receive msg => match ret with
      | .bytes n => if 0 < n ∧ n ≤ min 16 s.pipe then some ({ s with pipe := s.pipe - n }.unlock msg)
        else none
      | .error errno => if readGivesUp errno then some (s.unlock msg) else some s
    | _ => none
  | .free i => do
    let msg ← s.inHand[i]?
    some ({ s with inHand := s.inHand.eraseIdx i }.freeMessage msg)
  | .close =>
    if s.mutex = .free ∧ s.waiting = [] ∧ s.inHand = [] then
      some { freeAll s.queue s with
        queue := []
        discarded := s.queue.map Message.id
        closed := true }
    else none

/-- Nobody uses a message pipe that has been freed. -/
def State.step (s : State) (op : Op) : Option State := if s.closed then none else s.stepOpen op

def Mutex.messages : Mutex → List Message
  | .free => []
  | .post msg => [msg]
  | .receive msg => [msg]

/-- The messages that have been made and not freed. -/
def State.live (s : State) : List Message := s.waiting ++ s.mutex.messages ++ s.queue ++ s.inHand

/-- While the mutex is free there is a message in the queue exactly if there is a byte in the pipe.
The messages have been delivered in the order in which they were posted, each once, but for those in
the queue and those that were discarded with it. And of the messages that were made each has been
released once or is alive, and the alive ones are what the references to shared buffers are for. -/
structure Kept (s : State) : Prop where
  coupled : s.closed = false → s.mutex = .free → (s.queue ≠ [] ↔ 0 < s.pipe)
  order : s.posted = s.delivered ++ s.discarded ++ s.queue.map Message.id
  once : s.posted.Nodup
  released : List.Perm (s.released ++ s.live.map Message.id) (List.range s.made)
  references : ∀ b, s.sabRefs b = (s.live.map fun msg => (msg.sabTab.count b : ℤ)).sum

/-- The pipe takes the byte. -/
def Uninterrupted (_ : State) : Op → Prop
  | .write (.error _) => False
  | _ => True

/-! ## What the messages hold -/

variable {s s' : State} {op : Op} {ops : List Op} {msg : Message} {l l' el : List Message}

/-- The messages of a list are those that have been made and not released, and the references are
what they hold. -/
structure Balanced (l : List Message) (s : State) : Prop where
  released : List.Perm (s.released ++ l.map Message.id) (List.range s.made)
  references : ∀ b, s.sabRefs b = (l.map fun msg => (msg.sabTab.count b : ℤ)).sum

theorem Balanced.of_perm (h : Balanced l s) (hl : List.Perm l' l) (hr : s'.released = s.released)
    (hm : s'.made = s.made) (hs : s'.sabRefs = s.sabRefs) : Balanced l' s' := by
  refine ⟨?_, fun b => ?_⟩
  · rw [hr, hm]
    exact ((hl.map _).append_left _).trans h.released
  · rw [hs, h.references b]
    exact (hl.map _).sum_eq.symm

theorem Balanced.make (h : Balanced l s) (sabTab : List ℕ) (hl : List.Perm l' (⟨s.made, sabTab⟩ :: l))
    (hr : s'.released = s.released) (hm : s'.made = s.made + 1)
    (hs : s'.sabRefs = dupSabs sabTab s.sabRefs) : Balanced l' s' := by
  refine ⟨?_, fun b => ?_⟩
  · rw [hr, hm, List.range_succ]
    refine ((hl.map _).append_left _).trans (List.perm_middle.trans ?_)
    exact (List.Perm.cons _ h.released).trans (List.perm_append_singleton _ _).symm
  · rw [hs, (hl.map _).sum_eq, List.map_cons, List.sum_cons, dupSabs, h.references b, add_comm]

theorem Balanced.freeMessage (h : Balanced (msg :: l) s) : Balanced l (s.freeMessage msg) := by
  refine ⟨?_, fun b => ?_⟩
  · rw [State.freeMessage, List.append_assoc]
    exact h.released
  · change s.sabRefs b - _ = _
    rw [h.references b]
    exact add_sub_cancel_left _ _

theorem freeAll_eq (el : List Message) (s : State) : ∃ refs, freeAll el s =
    { s with sabRefs := refs, released := s.released ++ el.map Message.id } := by
  induction el generalizing s with
  | nil => exact ⟨s.sabRefs, by rw [List.map_nil, List.append_nil]; rfl⟩
  | cons msg el ih =>
    obtain ⟨refs, h⟩ := ih (s.freeMessage msg)
    refine ⟨refs, ?_⟩
    rw [freeAll, h, State.freeMessage, List.append_assoc]
    rfl

theorem Balanced.freeAll (h : Balanced (el ++ l) s) : Balanced l (freeAll el s) := by
  induction el generalizing s with
  | nil => exact h
  | cons msg el ih => exact ih h.freeMessage

theorem perm_cons_eraseIdx {i : ℕ} (h : l[i]? = some msg) : List.Perm (msg :: l.eraseIdx i) l := by
  obtain ⟨hi, rfl⟩ := List.getElem?_eq_some_iff.mp h
  exact List.getElem_cons_eraseIdx_perm hi

/-! ## Every step -/

/-- The queue and the pipe, as they are while a thread has the mutex and while none has it. -/
def Coupled (s : State) : Prop := match s.mutex with
  | .free => s.pipe = if s.queue = [] then 0 else 1
  | .post _ => s.queue = [] ∧ s.pipe = 0
  | .receive _ => s.queue = [] ∧ s.pipe = 1

/-- The messages that will still be posted. -/
def State.unposted (s : State) : List Message := s.waiting ++ match s.mutex with
  | .post msg => [msg]
  | _ => []

structure Invariant (s : State) : Prop where
  coupled : s.closed = false → Coupled s
  order : s.posted = s.delivered ++ s.discarded ++ s.queue.map Message.id
  discarded : s.closed = false → s.discarded = []
  once : List.Perm (s.posted ++ s.unposted.map Message.id) (List.range s.made)
  balanced : Balanced s.live s

theorem Invariant.kept (h : Invariant s) : Kept s := by
  refine ⟨fun hc hm => ?_, h.order, ?_, h.balanced.released, h.balanced.references⟩
  · have hp := h.coupled hc
    rw [Coupled, hm] at hp
    rw [hp]
    split
    · exact iff_of_false (fun hq => hq ‹_›) (Nat.lt_irrefl 0)
    · exact iff_of_true ‹_› Nat.one_pos
  · exact (List.nodup_append.mp ((h.once.nodup_iff).mpr List.nodup_range)).1

/-- A message is added to the queue, and there is a byte in the pipe. -/
theorem Invariant.addTail (h : Invariant s) {t : State} (hu : List.Perm (t.waiting ++ [msg]) s.unposted)
    (hl : List.Perm (t.waiting ++ [msg] ++ s.queue ++ t.inHand) s.live)
    (hp : t.pipe = 1) (hq : t.queue = s.queue) (hd : t.delivered = s.delivered)
    (hposted : t.posted = s.posted) (hdisc : t.discarded = s.discarded) (hmade : t.made = s.made)
    (hrel : t.released = s.released) (hrefs : t.sabRefs = s.sabRefs) (hc : s.closed = false) :
    Invariant (t.addTail msg) := by
  refine ⟨fun _ => ?_, ?_, fun _ => hdisc.trans (h.discarded hc), ?_, ?_⟩
  · change t.pipe = if t.queue ++ [msg] = [] then 0 else 1
    rw [if_neg (List.append_ne_nil_of_right_ne_nil _ (List.cons_ne_nil _ _)), hp]
  · change t.posted ++ [msg.id] = t.delivered ++ t.discarded ++ (t.queue ++ [msg]).map Message.id
    rw [hposted, h.order, hd, hdisc, hq, List.map_append, ← List.append_assoc]
    rfl
  · change List.Perm (t.posted ++ [msg.id] ++ (t.waiting ++ []).map Message.id) (List.range t.made)
    rw [hmade, hposted]
    refine List.Perm.trans ?_ (((hu.map _).append_left _).trans h.once)
    rw [List.append_nil, List.map_append, List.append_assoc]
    exact List.perm_append_comm.append_left _
  · refine h.balanced.of_perm (List.Perm.trans ?_ hl) hrel hmade hrefs
    change List.Perm (t.waiting ++ [] ++ (t.queue ++ [msg]) ++ t.inHand) _
    rw [hq, List.append_nil, List.append_assoc _ [msg]]
    exact (List.perm_append_comm.append_left _).append_right _

theorem make_step {sabTab : Option (List ℕ)} {m d t : Bool} (h : Invariant s)
    (hc : s.closed = false) (hs : s.stepOpen (.make sabTab m d t) = some s') : Invariant s' := by
  simp only [State.stepOpen] at hs
  split at hs
  · split at hs <;> cases hs
    · rename_i tab _
      refine ⟨fun _ => h.coupled hc, h.order, fun _ => h.discarded hc, ?_, ?_⟩
      · rw [List.range_succ]
        refine List.Perm.trans ?_ (h.once.append_right _)
        simp only [State.unposted, List.map_append, List.append_assoc]
        exact ((List.perm_append_singleton s.made _).symm.append_left _).append_left _
      · refine h.balanced.make tab ?_ rfl rfl rfl
        simp only [State.live, List.append_assoc]
        exact List.perm_middle
    · exact h
  · cases hs
    exact h

theorem lockPost_step {i : ℕ} (h : Invariant s) (hc : s.closed = false)
    (hs : s.stepOpen (.lockPost i) = some s') : Invariant s' := by
  simp only [State.stepOpen] at hs
  obtain ⟨msg, hmsg, hs⟩ := Option.bind_eq_some_iff.mp hs
  have hperm := perm_cons_eraseIdx hmsg
  split at hs
  · cases hs
  rename_i hfree
  have hfree : s.mutex = .free := Decidable.not_not.mp hfree
  have hcoupled := h.coupled hc
  rw [Coupled, hfree] at hcoupled
  have hunposted : List.Perm (s.waiting.eraseIdx i ++ [msg]) s.unposted := by
    rw [State.unposted, hfree, List.append_nil]
    exact (List.perm_append_singleton _ _).trans hperm
  have hlive : List.Perm (s.waiting.eraseIdx i ++ [msg] ++ s.queue ++ s.inHand) s.live := by
    rw [State.live, hfree, Mutex.messages, List.append_nil]
    exact (((List.perm_append_singleton _ _).trans hperm).append_right _).append_right _
  split at hs <;> cases hs
  · rename_i hq
    rw [if_pos hq] at hcoupled
    refine ⟨fun _ => ⟨hq, hcoupled⟩, h.order, fun _ => h.discarded hc, ?_, ?_⟩
    · exact ((hunposted.map _).append_left _).trans h.once
    · exact h.balanced.of_perm hlive rfl rfl rfl
  · rename_i hq
    rw [if_neg hq] at hcoupled
    exact h.addTail hunposted hlive hcoupled rfl rfl rfl rfl rfl rfl rfl hc

theorem writeGivesUp_eq_true (errno : Errno) : writeGivesUp errno = true := by
  cases errno <;> rfl

theorem readGivesUp_eq_false (errno : Errno) : readGivesUp errno = false := by
  cases errno <;> rfl

theorem write_step {ret : WriteRet} (h : Invariant s) (hok : Uninterrupted s (.write ret))
    (hc : s.closed = false) (hs : s.stepOpen (.write ret) = some s') : Invariant s' := by
  simp only [State.stepOpen] at hs
  split at hs
  · rename_i msg hm
    have hcoupled := h.coupled hc
    rw [Coupled, hm] at hcoupled
    cases ret with
    | one =>
      cases hs
      refine h.addTail ?_ ?_ ?_ rfl rfl rfl rfl rfl rfl rfl hc
      · rw [State.unposted, hm]
      · rw [State.live, hm]
        exact .refl _
      · exact congrArg (· + 1) hcoupled.2
    | zero =>
      cases hs
      exact h
    | error => exact absurd hok not_false
  · cases hs

section

variable (h : Invariant s) (hc : s.closed = false)

include h hc

theorem lockReceive_step
    (hs : s.stepOpen .lockReceive = some s') : Invariant s' := by
  simp only [State.stepOpen] at hs
  split at hs
  · cases hs
  rename_i hfree
  have hfree : s.mutex = .free := Decidable.not_not.mp hfree
  have hcoupled := h.coupled hc
  rw [Coupled, hfree] at hcoupled
  split at hs
  · cases hs
    exact h
  rename_i msg el hq
  rw [hq, if_neg (List.cons_ne_nil _ _)] at hcoupled
  have horder : s.posted = s.delivered ++ [msg.id] ++ s.discarded ++ el.map Message.id := by
    rw [h.order, hq, h.discarded hc, List.append_nil, List.append_nil, List.append_assoc]
    rfl
  have hunposted : s.unposted = s.waiting ++ [] := by rw [State.unposted, hfree]
  have honce : List.Perm (s.posted ++ (s.waiting ++ []).map Message.id) (List.range s.made) :=
    hunposted ▸ h.once
  have hlive : s.live = s.waiting ++ ([msg] ++ el) ++ s.inHand := by
    rw [State.live, hfree, hq, Mutex.messages, List.append_nil]
    rfl
  split at hs <;> cases hs
  · rename_i hel
    subst hel
    refine ⟨fun _ => ⟨rfl, hcoupled⟩, horder, fun _ => h.discarded hc, honce, ?_⟩
    refine h.balanced.of_perm (.of_eq ?_) rfl rfl rfl
    rw [hlive, ← List.append_assoc s.waiting]
    rfl
  · rename_i hel
    refine ⟨fun _ => ?_, horder, fun _ => h.discarded hc, honce, ?_⟩
    · change s.pipe = if el = [] then 0 else 1
      rw [if_neg hel, hcoupled]
    · refine h.balanced.of_perm ?_ rfl rfl rfl
      change List.Perm (s.waiting ++ [] ++ el ++ (s.inHand ++ [msg])) s.live
      rw [hlive, List.append_nil, List.append_assoc, List.append_assoc, ← List.append_assoc el]
      exact (List.perm_append_comm.trans (.of_eq (List.append_assoc _ _ _).symm)).append_left _

theorem read_step {ret : ReadRet}
    (hs : s.stepOpen (.read ret) = some s') : Invariant s' := by
  simp only [State.stepOpen] at hs
  split at hs
  · rename_i msg hm
    have hcoupled := h.coupled hc
    rw [Coupled, hm] at hcoupled
    obtain ⟨hq, hp⟩ := hcoupled
    cases ret with
    | bytes n =>
      simp only at hs
      split at hs <;> cases hs
      rename_i hn
      rw [hp] at hn
      have hn : n = 1 := Nat.le_antisymm (Nat.le_trans hn.2 (Nat.min_le_right _ _)) hn.1
      refine ⟨fun _ => ?_, h.order, fun _ => h.discarded hc, ?_, ?_⟩
      · change s.pipe - n = if s.queue = [] then 0 else 1
        rw [if_pos hq, hp, hn]
      · have := h.once
        rw [State.unposted, hm] at this
        exact this
      · refine h.balanced.of_perm ?_ rfl rfl rfl
        rw [State.live, State.live, hm]
        change List.Perm (s.waiting ++ [] ++ s.queue ++ (s.inHand ++ [msg])) _
        rw [hq, List.append_nil, List.append_nil, List.append_nil, List.append_assoc s.waiting]
        exact List.perm_append_comm.append_left _
    | error errno =>
      simp only [readGivesUp_eq_false] at hs
      cases hs
      exact h
  · cases hs

theorem free_step {i : ℕ}
    (hs : s.stepOpen (.free i) = some s') : Invariant s' := by
  obtain ⟨msg, hmsg, hs⟩ := Option.bind_eq_some_iff.mp hs
  cases hs
  refine ⟨fun _ => h.coupled hc, h.order, fun _ => h.discarded hc, h.once, ?_⟩
  refine Balanced.freeMessage (s := { s with inHand := s.inHand.eraseIdx i }) ?_
  refine h.balanced.of_perm ?_ rfl rfl rfl
  exact List.perm_middle.symm.trans ((perm_cons_eraseIdx hmsg).append_left _)

theorem close_step (hs : s.stepOpen .close = some s') :
    Invariant s' := by
  simp only [State.stepOpen] at hs
  split at hs
  · rename_i hidle
    obtain ⟨hm, hw, hi⟩ := hidle
    have hlive : s.live = s.queue ++ [] := by rw [State.live, hm, hw, hi]; rfl
    have hfreed : Balanced [] (freeAll s.queue s) := (hlive ▸ h.balanced).freeAll
    obtain ⟨refs, hrefs⟩ := freeAll_eq s.queue s
    rw [hrefs] at hs hfreed
    cases hs
    refine ⟨nofun, ?_, nofun, h.once, ?_⟩
    · change s.posted = s.delivered ++ s.queue.map Message.id ++ []
      rw [h.order, h.discarded hc, List.append_nil, List.append_nil]
    · refine hfreed.of_perm (.of_eq ?_) rfl rfl rfl
      rw [hm, hw, hi]
      rfl
  · cases hs

end

theorem stepOpen_of_step (hs : s.step op = some s') : s.closed = false ∧ s.stepOpen op = some s' := by
  rw [State.step] at hs
  split at hs
  · cases hs
  · exact ⟨eq_false_of_ne_true ‹_›, hs⟩

theorem Invariant.step (h : Invariant s) (hok : Uninterrupted s op) (hs : s.step op = some s') :
    Invariant s' := by
  obtain ⟨hc, hs⟩ := stepOpen_of_step hs
  cases op with
  | make => exact make_step h hc hs
  | lockPost => exact lockPost_step h hc hs
  | write => exact write_step h hok hc hs
  | lockReceive => exact lockReceive_step h hc hs
  | read => exact read_step h hc hs
  | free => exact free_step h hc hs
  | close => exact close_step h hc hs

/-- A message whose byte is not written is in the queue, and nothing is in the pipe. -/
theorem not_kept_of_interrupted (h : Invariant s) (hbad : ¬ Uninterrupted s op)
    (hs : s.step op = some s') : ¬ Kept s' := by
  obtain ⟨hc, hs⟩ := stepOpen_of_step hs
  cases op with
  | write ret =>
    cases ret with
    | error errno =>
      simp only [State.stepOpen] at hs
      split at hs
      · rename_i msg hm
        have hcoupled := h.coupled hc
        rw [Coupled, hm] at hcoupled
        simp only [writeGivesUp_eq_true] at hs
        cases hs
        intro hk
        have := (hk.coupled hc rfl).mp
          (List.append_ne_nil_of_right_ne_nil s.queue (List.cons_ne_nil msg []))
        change 0 < s.pipe at this
        rw [hcoupled.2] at this
        exact Nat.lt_irrefl 0 this
      · cases hs
    | one | zero => exact absurd trivial hbad
  | make | lockPost | lockReceive | read | free | close => exact absurd trivial hbad

theorem invariant_init : Invariant .init :=
  ⟨fun _ => rfl, rfl, fun _ => rfl, .refl _, ⟨.refl _, fun _ => rfl⟩⟩

/-- All the states of a run are right if and only if no write to the pipe is interrupted. -/
theorem messages_kept_iff (hs : exec State.step .init ops = some s) :
    Always State.step Kept .init ops ↔ Along State.step Uninterrupted .init ops :=
  always_iff_along (fun _ => Invariant.kept) (fun _ _ _ => Invariant.step)
    (fun _ _ _ => not_kept_of_interrupted) invariant_init hs

/-- A message with a shared buffer is posted and received. -/
theorem messages_kept_example : Always State.step Kept .init
    [.make (some [5]) true true true, .lockPost 0, .write .one, .lockReceive,
      .read (.error .eintr), .read (.bytes 1), .free 0] := by
  refine (messages_kept_iff (s := ⟨[], 0, .free, [], [], _, 1, [0], [0], [], [0], false⟩) rfl).mpr ?_
  refine Along.of_forall ?_
  simp only [List.forall_mem_cons]
  exact ⟨fun _ => trivial, fun _ => trivial, fun _ => trivial, fun _ => trivial, fun _ => trivial,
    fun _ => trivial, fun _ => trivial, fun _ h => by cases h⟩

/-- The write to the pipe is interrupted: the message is in the queue, and the pipe is empty. -/
theorem messages_not_kept : ∃ s, exec State.step .init
    [.make (some []) true true true, .lockPost 0, .write (.error .eintr)] = some s ∧
    s.mutex = .free ∧ s.queue = [⟨0, []⟩] ∧ s.pipe = 0 ∧ ¬ Kept s := by
  refine ⟨_, rfl, rfl, rfl, rfl, fun h => ?_⟩
  exact Nat.lt_irrefl 0 ((h.coupled rfl rfl).mp (List.cons_ne_nil _ _))

end QuickJs.WorkerMessage
