import QuickJs.Framing
import QuickJs.Run

/-!
# The lines of the debugger's tunnel

`WriteLine` gives the bytes of a line with its newline to `TcpTunnel::Write`, which calls `send` until all of them are
sent. `ReadLine` asks `TcpTunnel::Read` for one byte after the other until there is a newline. What `send` and `recv`
answer is up to the network: any number of the bytes that are there, or a failure. Sender and receiver take turns in any
order. However the bytes are cut, the lines that are read are the first of those that were written, and all of them when
nothing is left to be done.
-/

namespace QuickJs.LineTunnel

open Framing Run

/-- `'\n'` -/
def newline : UInt8 := 10

/-- A function goes on to its next system call or returns. -/
inductive Progress (σ α : Type*)
  | calls (s : σ)
  | returns (a : α)

/-! ## Writing -/

/-- The locals of `TcpTunnel::Write`. -/
structure Write where
  buffer : List UInt8
  totalWritten : ℕ

/-- What is given to `send`. -/
def Write.remaining (w : Write) : List UInt8 := w.buffer.drop w.totalWritten

/-- The head of the loop of `TcpTunnel::Write`. -/
def Write.loop (w : Write) : Progress Write Bool :=
  if w.totalWritten < w.buffer.length then .calls w else .returns true

/-- `send` has answered. -/
def Write.sent (w : Write) (bytesWritten : ℤ) : Progress Write Bool :=
  if bytesWritten ≤ 0 then .returns false
  else Write.loop { w with totalWritten := w.totalWritten + bytesWritten.toNat }

/-- The lines that are yet to be written are given to `WriteLine`; up to the first `send` that is called for one. What
`WriteLine` returns is not looked at. -/
def writeLines : List (List UInt8) → Option (Write × List (List UInt8))
  | [] => none
  | line :: lines =>
    match Write.loop ⟨line, 0⟩ with
    | .calls w => some (w, lines)
    | .returns _ => writeLines lines

/-! ## Reading -/

/-- The locals of `TcpTunnel::Read`; the buffer as far as it is filled. -/
structure Read where
  size : ℕ
  buffer : List UInt8
  totalRead : ℕ

/-- The head of the loop of `TcpTunnel::Read`. -/
def Read.loop (r : Read) : Progress Read (Bool × List UInt8) :=
  if r.totalRead < r.size then .calls r else .returns (true, r.buffer)

/-- `recv` has answered. -/
def Read.received (r : Read) (bytesRead : ℤ) (bytes : List UInt8) : Progress Read (Bool × List UInt8) :=
  if bytesRead ≤ 0 then .returns (false, r.buffer)
  else Read.loop { r with buffer := r.buffer ++ bytes, totalRead := r.totalRead + bytesRead.toNat }

/-- The locals of `ReadLine` and of the call of `Read` that it waits for. -/
structure ReadLine where
  line : List UInt8
  read : Read

/-- `readByte` is called: `Read` of one byte comes to `recv`. -/
def readByte (line : List UInt8) : ReadLine := ⟨line, 1, [], 0⟩

/-- `readByte` has returned. -/
def ReadLine.gotByte (line : List UInt8) : Bool × List UInt8 → Progress ReadLine (Bool × List UInt8)
  | (false, _) => .returns (false, line)
  | (true, buffer) =>
    let byte := buffer.headD 0
    if byte ≠ newline then .calls (readByte (line ++ [byte])) else .returns (true, line)

/-- `recv` has answered while `ReadLine` waits. -/
def ReadLine.received (rl : ReadLine) (bytesRead : ℤ) (bytes : List UInt8) : Progress ReadLine (Bool × List UInt8) :=
  match rl.read.received bytesRead bytes with
  | .calls r => .calls { rl with read := r }
  | .returns res => ReadLine.gotByte rl.line res

/-! ## Both ends -/

/-- The sender with the lines it has left, the bytes on their way, the receiver unless reading has failed, and the lines
that were read. -/
structure State where
  writer : Option (Write × List (List UInt8))
  channel : List UInt8
  reader : Option ReadLine
  lines : List (List UInt8)

/-- A system call answers. -/
inductive Op
  | send (bytesWritten : ℤ)
  | recv (bytesRead : ℤ)

/-- The call does not fail. -/
def Op.succeeds : Op → Prop
  | .send n | .recv n => 0 < n

/-- The sender starts to write the lines, the receiver to read. -/
def State.initial (lines : List (List UInt8)) : State :=
  ⟨writeLines (lines.map (· ++ [newline])), [], some (readByte []), []⟩

/-- `send` takes no more than it is given, `recv` no more than it is asked for and than there is. A receiver with a line
begins to read the next one. -/
def State.step (s : State) : Op → Option State
  | .send n =>
    match s.writer with
    | none => none
    | some (w, lines) =>
      if n ≤ w.remaining.length then
        some { s with
          channel := s.channel ++ w.remaining.take n.toNat
          writer := match w.sent n with
            | .calls w => some (w, lines)
            | .returns _ => writeLines lines }
      else none
  | .recv n =>
    match s.reader with
    | none => none
    | some rl =>
      if n ≤ rl.read.size - rl.read.totalRead ∧ n ≤ s.channel.length then
        let s' := { s with channel := s.channel.drop n.toNat }
        match rl.received n (s.channel.take n.toNat) with
        | .calls rl => some { s' with reader := some rl }
        | .returns (true, line) => some { s' with lines := s.lines ++ [line], reader := some (readByte []) }
        | .returns (false, _) => some { s' with reader := none }
      else none

variable {s s' : State} {op : Op} {n : ℤ} {lines : List (List UInt8)} {text : List UInt8}

/-! ## The sender -/

/-- What is yet to be sent. -/
def unsent : Option (Write × List (List UInt8)) → List UInt8
  | none => []
  | some (w, lines) => w.remaining ++ lines.flatten

theorem unsent_writeLines : ∀ lines : List (List UInt8), unsent (writeLines lines) = lines.flatten
  | [] => rfl
  | line :: lines => by
    rw [writeLines, Write.loop]
    by_cases hline : 0 < line.length
    · rw [if_pos hline]
      rfl
    · rw [if_neg hline, List.eq_nil_of_length_eq_zero (Nat.eq_zero_of_not_pos hline)]
      exact unsent_writeLines lines

/-- A sender that waits for `send` has something to send. -/
def Waits (writer : Option (Write × List (List UInt8))) : Prop := ∀ w lines, writer = some (w, lines) → w.remaining ≠ []

theorem remaining_ne_nil {w : Write} (h : w.totalWritten < w.buffer.length) : w.remaining ≠ [] :=
  fun hnil => absurd (List.drop_eq_nil_iff.mp hnil) (Nat.not_le_of_lt h)

theorem waits_writeLines : ∀ lines : List (List UInt8), Waits (writeLines lines)
  | [] => nofun
  | line :: lines => by
    rw [writeLines, Write.loop]
    by_cases hline : 0 < line.length
    · rw [if_pos hline]
      intro w lines' h
      obtain ⟨rfl, rfl⟩ := Prod.mk.inj (Option.some.inj h)
      exact remaining_ne_nil hline
    · rw [if_neg hline]
      exact waits_writeLines lines

/-- The sender after a `send` that has not failed. -/
theorem sent_cases (w : Write) (hpos : 0 < n) (lines : List (List UInt8)) : let writer := match w.sent n with
      | .calls w => some (w, lines)
      | .returns _ => writeLines lines
    w.remaining ++ lines.flatten = w.remaining.take n.toNat ++ unsent writer ∧ Waits writer := by
  have hdrop : w.remaining.drop n.toNat = (Write.mk w.buffer (w.totalWritten + n.toNat)).remaining := List.drop_drop
  rw [Write.sent, if_neg (by omega), Write.loop]
  by_cases hmore : w.totalWritten + n.toNat < w.buffer.length
  · rw [if_pos hmore]
    refine ⟨?_, fun w' lines' h => ?_⟩
    · rw [unsent, ← hdrop, ← List.append_assoc, List.take_append_drop]
    · obtain ⟨rfl, rfl⟩ := Prod.mk.inj (Option.some.inj h)
      exact remaining_ne_nil hmore
  · rw [if_neg hmore]
    refine ⟨?_, waits_writeLines lines⟩
    have hall : w.remaining.length ≤ n.toNat := by
      rw [Write.remaining, List.length_drop]
      omega
    rw [unsent_writeLines, List.take_of_length_le hall]

/-! ## The receiver -/

/-- The receiver after a `recv` that has not failed: the byte ends the line or belongs to it. -/
theorem received_byte (line : List UInt8) (byte : UInt8) : (readByte line).received 1 [byte] =
      if byte ≠ newline then .calls (readByte (line ++ [byte])) else .returns (true, line) := rfl

theorem received_fails {rl : ReadLine} (hn : n ≤ 0) (bytes : List UInt8) :
    rl.received n bytes = .returns (false, rl.line) := by
  rw [ReadLine.received, Read.received, if_pos hn]
  rfl

/-! ## Runs -/

/-- The bytes that were read, those on their way and those that are yet to be sent are the text. A receiver that has
failed may have read the beginning of a line. -/
structure Inv (text : List UInt8) (s : State) : Prop where
  waits : Waits s.writer
  clean : ∀ line ∈ s.lines, newline ∉ line
  begun : ∃ line, newline ∉ line ∧ text = frames newline s.lines ++ (line ++ (s.channel ++ unsent s.writer)) ∧
    ∀ rl, s.reader = some rl → rl = readByte line

theorem Inv.initial (lines : List (List UInt8)) : Inv (frames newline lines) (.initial lines) where
  waits := waits_writeLines _
  clean := nofun
  begun := by
    refine ⟨[], List.not_mem_nil, ?_, fun rl h => (Option.some.inj h).symm⟩
    exact (unsent_writeLines _).symm

theorem Inv.send (h : Inv text s) (hn : 0 < n) (hs : s.step (.send n) = some s') : Inv text s' := by
  rw [State.step] at hs
  split at hs
  · cases hs
  rename_i w lines hwriter
  split at hs <;> cases hs
  obtain ⟨hsent, hwaits⟩ := sent_cases w hn lines
  obtain ⟨line, hclean, htext, hreader⟩ := h.begun
  refine ⟨hwaits, h.clean, line, hclean, ?_, hreader⟩
  rw [htext, hwriter, unsent, hsent, List.append_assoc s.channel]

theorem Inv.recv (h : Inv text s) (hs : s.step (.recv n) = some s') : Inv text s' := by
  obtain ⟨line, hclean, htext, hreader⟩ := h.begun
  rw [State.step] at hs
  split at hs
  · cases hs
  rename_i rl hrl
  obtain rfl := hreader rl hrl
  split at hs
  · rename_i hle
    by_cases hn : n ≤ 0
    · -- the line that was begun is lost
      rw [received_fails hn] at hs
      cases hs
      refine ⟨h.waits, h.clean, line, hclean, ?_, nofun⟩
      rw [Int.toNat_of_nonpos hn]
      exact htext
    -- one byte was asked for
    obtain rfl : n = 1 := by
      have hone : n ≤ ((1 : ℕ) : ℤ) - ((0 : ℕ) : ℤ) := hle.1
      omega
    cases hchannel : s.channel with
    | nil =>
      rw [hchannel] at hle
      exact absurd hle.2 (by decide)
    | cons byte channel =>
      rw [hchannel] at htext hs
      have hreceived := received_byte line byte
      by_cases hbyte : byte = newline
      · rw [if_neg (not_not.mpr hbyte)] at hreceived
        simp only [Int.toNat_one, List.take_succ_cons, List.take_zero, hreceived, List.drop_succ_cons, List.drop_zero] at hs
        cases hs
        refine ⟨h.waits, fun l hl => ?_, [], List.not_mem_nil, ?_, fun rl h => (Option.some.inj h).symm⟩
        · rcases List.mem_append.mp hl with hl | hl
          · exact h.clean l hl
          · rwa [List.mem_singleton.mp hl]
        · rw [htext, frames_concat, hbyte]
          simp only [List.append_assoc, List.cons_append, List.nil_append]
      · rw [if_pos hbyte] at hreceived
        simp only [Int.toNat_one, List.take_succ_cons, List.take_zero, hreceived, List.drop_succ_cons, List.drop_zero] at hs
        cases hs
        refine ⟨h.waits, h.clean, line ++ [byte], ?_, ?_, fun rl h => (Option.some.inj h).symm⟩
        · rw [List.mem_append, List.mem_singleton, not_or]
          exact ⟨hclean, fun heq => hbyte heq.symm⟩
        · rw [htext]
          simp only [List.append_assoc, List.cons_append, List.nil_append]
  · cases hs

/-- The bytes that are yet to be sent count twice, for they are received as well. -/
def State.work (s : State) : ℕ :=
  2 * (unsent s.writer).length + s.channel.length + if s.reader.isSome then 1 else 0

theorem work_send (hn : 0 < n) (hs : s.step (.send n) = some s') : s'.work < s.work := by
  rw [State.step] at hs
  split at hs
  · cases hs
  rename_i w lines hwriter
  split at hs <;> cases hs
  have hlen := congrArg List.length (sent_cases w hn lines).1
  simp only [State.work, hwriter, unsent, List.length_append, List.length_take] at hlen ⊢
  omega

theorem work_recv (hs : s.step (.recv n) = some s') : s'.work < s.work := by
  rw [State.step] at hs
  split at hs
  · cases hs
  rename_i rl hrl
  split at hs
  · by_cases hn : n ≤ 0
    · rw [received_fails hn] at hs
      cases hs
      simp only [State.work, hrl, Int.toNat_of_nonpos hn]
      simp
    · split at hs <;> cases hs <;> simp only [State.work, hrl] <;> simp <;> omega
  · cases hs

theorem Inv.exec : ∀ {ops : List Op} {s s' : State}, Inv text s → (∀ n, .send n ∈ ops → 0 < n) →
    exec State.step s ops = some s' → Inv text s' ∧ ops.length + s'.work ≤ s.work
  | [], _, _, h, _, hs => by
    cases hs
    exact ⟨h, Nat.le_of_eq (Nat.zero_add _)⟩
  | op :: ops, s, s', h, hsend, hs => by
    obtain ⟨t, ht, hs⟩ := Option.bind_eq_some_iff.mp hs
    have hstep : Inv text t ∧ t.work < s.work := by
      cases op with
      | send n =>
        have hn := hsend n List.mem_cons_self
        exact ⟨h.send hn ht, work_send hn ht⟩
      | recv n => exact ⟨h.recv ht, work_recv ht⟩
    obtain ⟨hinv, hwork⟩ := Inv.exec hstep.1 (fun n hmem => hsend n (List.mem_cons_of_mem _ hmem)) hs
    refine ⟨hinv, ?_⟩
    rw [List.length_cons]
    omega

end QuickJs.LineTunnel
