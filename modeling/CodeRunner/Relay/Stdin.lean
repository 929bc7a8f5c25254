import Mathlib.Data.List.Infix
import CodeRunner.Relay.Delivery

/-! # The program's stdin

The worker's `relayStdin` turns writes and a close into frames, and the loop writes the payloads
to the session's stdin socket. The session reads exactly what was written as long as every
payload fits the free buffer of that socket when its frame is handled, and no read of the
connection gives the lone byte that the loop takes for a spurious wakeup.
-/

namespace CodeRunner.Relay

open Transition

inductive RelayCall where
  | write (p : List UInt8)
  | close
  | kill
  deriving DecidableEq, Repr

/-- The frames that a call sends, on a `relayStdin` that is closed or not. -/
def RelayCall.frames (closed : Bool) : RelayCall → List Frame
  | .write p => if closed ∨ p = [] ∨ maxFramePayload < p.length then [] else [⟨tStdin, p⟩]
  | .close => if closed then [] else [⟨tStdinClose, []⟩]
  | .kill => [⟨tKill, []⟩]

def RelayCall.closed (closed : Bool) : RelayCall → Bool
  | .close => true
  | .write _ | .kill => closed

def relayFrames (closed : Bool) : List RelayCall → List Frame
  | [] => []
  | c :: cs => c.frames closed ++ relayFrames (c.closed closed) cs

theorem RelayCall.frames_length {closed : Bool} {c : RelayCall} :
    ∀ f ∈ c.frames closed, f.payload.length ≤ maxFramePayload := by
  intro f hf
  cases c with
  | write p =>
    simp only [RelayCall.frames] at hf
    split at hf
    · cases hf
    · next hp =>
      obtain rfl := List.mem_singleton.mp hf
      exact Nat.le_of_not_lt fun hlt => hp (.inr (.inr hlt))
  | close =>
    simp only [RelayCall.frames] at hf
    split at hf
    · cases hf
    · obtain rfl := List.mem_singleton.mp hf
      exact Nat.zero_le _
  | kill =>
    obtain rfl := List.mem_singleton.mp hf
    exact Nat.zero_le _

theorem relayFrames_length (closed : Bool) (cs : List RelayCall) :
    ∀ f ∈ relayFrames closed cs, f.payload.length ≤ maxFramePayload := by
  induction cs generalizing closed with
  | nil => simp [relayFrames]
  | cons c cs ih =>
    intro f hf
    rcases List.mem_append.mp hf with hf | hf
    · exact RelayCall.frames_length f hf
    · exact ih _ f hf

/-- A closed `relayStdin` sends no more stdin. -/
theorem relayFrames_closed {cs : List RelayCall} :
    ∀ f ∈ relayFrames true cs, f.ftype ≠ tStdin := by
  induction cs with
  | nil => simp [relayFrames]
  | cons c cs ih =>
    intro f hf
    cases c with
    | write p => exact ih f (by simpa [relayFrames, RelayCall.frames, RelayCall.closed] using hf)
    | close => exact ih f (by simpa [relayFrames, RelayCall.frames, RelayCall.closed] using hf)
    | kill =>
      rcases List.mem_cons.mp hf with rfl | hf
      · decide
      · exact ih f hf

def ClosesLast (fs : List Frame) : Prop :=
  fs.Pairwise fun g f => g.ftype = tStdinClose → f.ftype ≠ tStdin

theorem relayFrames_closesLast (closed : Bool) (cs : List RelayCall) :
    ClosesLast (relayFrames closed cs) := by
  induction cs generalizing closed with
  | nil => exact List.Pairwise.nil
  | cons c cs ih =>
    have hone : (c.frames closed).Pairwise fun g f => g.ftype = tStdinClose → f.ftype ≠ tStdin := by
      cases c with
      | write p =>
        simp only [RelayCall.frames]
        split
        · exact List.Pairwise.nil
        · exact List.pairwise_singleton _ _
      | close =>
        simp only [RelayCall.frames]
        split
        · exact List.Pairwise.nil
        · exact List.pairwise_singleton _ _
      | kill => exact List.pairwise_singleton _ _
    refine List.pairwise_append.mpr ⟨hone, ih _, fun g hg f hf hclose => ?_⟩
    cases c with
    | close => exact relayFrames_closed f hf
    | write p =>
      simp only [RelayCall.frames] at hg
      split at hg
      · cases hg
      · obtain rfl := List.mem_singleton.mp hg
        exact absurd (show tStdin = tStdinClose from hclose) (by decide)
    | kill =>
      obtain rfl := List.mem_singleton.mp hg
      exact absurd hclose (by decide)

theorem frameReader_bytes {f : Frame} (hf : f.payload.length ≤ maxFramePayload)
    (rest : List UInt8) : frameReader.next (f.bytes ++ rest) = some (f, rest) := by
  have hmax : maxFramePayload < 4294967296 := by norm_num [maxFramePayload]
  have hget : Block.get (Block.put f.payload ++ rest) = some (f.payload, rest) :=
    Block.get_put (lt_of_le_of_lt hf hmax)
  rw [Frame.bytes_append]
  simp only [frameReader, hget, Option.map_some]

theorem frameReader_drain {fs : List Frame} (h : ∀ f ∈ fs, f.payload.length ≤ maxFramePayload) :
    frameReader.drain (fs.flatMap Frame.bytes) = (fs, []) := by
  have hdrain := Incremental.Parser.drain_flatMap (p := frameReader) Frame.bytes
    (fun f hf rest => frameReader_bytes (h f hf) rest) []
  rw [List.append_nil] at hdrain
  rw [hdrain, Incremental.Parser.drain_of_none rfl, List.append_nil]

def State.AtStdinEof (s : State) : Prop := s.stdin.unread = [] ∧ s.stdin.closed = true

/-- All that the worker sent has arrived and is handled, and the session has read its stdin. -/
structure State.StdinSettled (ws : List Frame) (s : State) : Prop where
  sent : s.inbox.bytes = ws.flatMap Frame.bytes
  received : s.inbox.unread = []
  handled : ∀ ready, s.pc ≠ .frames ready
  read : s.stdin.unread = []

/-- The session has read a prefix of what the frames carry, the whole of it before the end of
file, which follows a close alone; and it gets all of that in the end. -/
structure State.StdinIntact (ws : List Frame) (s : State) : Prop where
  read : s.stdin.read <+: payloads tStdin ws
  eof : s.AtStdinEof → (∃ f ∈ ws, f.ftype = tStdinClose) ∧ s.stdin.read = payloads tStdin ws
  settled : s.StdinSettled ws → s.stdin.read = payloads tStdin ws ∧
    (s.AtStdinEof ↔ ∃ f ∈ ws, f.ftype = tStdinClose)

def State.handling (s : State) : Act → Option Frame
  | .agent _ =>
    match s.pc with
    | .frames _ => (frameReader.next s.reader).map Prod.fst
    | _ => none
  | _ => none

def State.handle? (s : State) : Option Frame → State
  | some f => s.handleFrame f
  | none => s

/-- The session keeps its end of stdin open. -/
def KeepsStdin (_ : State) : Act → Prop
  | .closeStdin => False
  | _ => True

/-- A payload for the session's stdin fits the free buffer of its socket. -/
def StdinFits (s : State) (a : Act) : Prop :=
  ∀ f ∈ s.handling a, f.ftype = tStdin → s.stdinOpen = true → f.payload.length ≤ s.stdin.free

/-- A read of the connection does not give a lone `x`. -/
def NoLoneX (s : State) : Act → Prop
  | .agent _ =>
    match s.pc with
    | .conn ready => (s.connOpen && ready.conn) = true → (s.inbox.recv recvMax).1 ≠ .data [0x78]
    | _ => True
  | _ => True

instance (s : State) (a : Act) : Decidable (StdinFits s a) :=
  inferInstanceAs (Decidable (∀ f ∈ s.handling a, _ → _ → _ ≤ _))

instance (s : State) : (a : Act) → Decidable (NoLoneX s a)
  | .agent _ =>
    match hpc : s.pc with
    | .conn ready =>
      decidable_of_iff ((s.connOpen && ready.conn) = true → (s.inbox.recv recvMax).1 ≠ .data [0x78])
        (by simp [NoLoneX, hpc])
    | .reap | .select | .frames _ | .child _ _ | .cpu | .terminal _ | .artifacts _ _
    | .sendArtifact _ _ _ | .sendExit _ | .done => isTrue (by simp [NoLoneX, hpc])
  | .write _ _ | .close _ | .exit _ | .readStdin _ | .closeStdin | .send _ | .drain _ | .closeConn
  | .reset | .tick _ => isTrue trivial

/-- The loop is about to start: nothing of the worker's has arrived since HELLO, and nothing has
been written to the session's stdin. -/
structure State.StdinInitial (s : State) : Prop where
  pc : s.pc = .reap
  reader : s.reader = []
  inbox : s.inbox.bytes = []
  stdin : s.stdin.bytes = []
  closed : s.stdin.closed = false
  failed : s.stdin.failed = false
  stdinOpen : s.stdinOpen = true

variable {s s' : State} {a : Act} {f : Frame} {ws done : List Frame}

/-- What has arrived is the frames handled, the frames still to handle and an incomplete one;
outside of the frame loop no complete frame waits. -/
structure State.Handled (done : List Frame) (s : State) : Prop where
  arrived : frameReader.drain s.inbox.read =
    (done ++ (frameReader.drain s.reader).1, (frameReader.drain s.reader).2)
  waits : (∀ ready, s.pc ≠ .frames ready) → frameReader.next s.reader = none

structure Unmoved (s s' : State) : Prop where
  reader : s'.reader = s.reader
  inbox : s'.inbox = s.inbox
  stdin : s'.stdin = s.stdin
  stdinOpen : s'.stdinOpen = s.stdinOpen

theorem Unmoved.emit? {f : Option Frame} (h : Unmoved s s') : Unmoved s (s'.emit? f) := by
  obtain ⟨_, _, _, he⟩ := State.emit?_frame (s := s') (f := f)
  rw [he]
  exact ⟨h.reader, h.inbox, h.stdin, h.stdinOpen⟩

theorem Unmoved.chunk {fd : Fd} {bs : List UInt8} (h : Unmoved s s') :
    Unmoved s (s'.chunk fd bs) := by
  cases fd with
  | art => exact ⟨h.reader, h.inbox, h.stdin, h.stdinOpen⟩
  | out => exact Unmoved.emit? (f := Fd.out.frame bs) h
  | err => exact Unmoved.emit? (f := Fd.err.frame bs) h

def Pc.parsing : Pc → Bool
  | .frames _ => true
  | _ => false

theorem Pc.parsing_eq_false {pc : Pc} : pc.parsing = false ↔ ∀ ready, pc ≠ .frames ready := by
  cases pc <;> simp [Pc.parsing]

theorem readChild_unmoved {fd : Fd} {ready : Ready} : Unmoved s (s.readChild fd ready) := by
  unfold State.readChild
  split
  · split
    · exact ⟨rfl, rfl, rfl, rfl⟩
    · exact ⟨rfl, rfl, rfl, rfl⟩
    · exact ⟨rfl, rfl, rfl, rfl⟩
    · exact .chunk ⟨rfl, rfl, rfl, rfl⟩
  · exact ⟨rfl, rfl, rfl, rfl⟩

theorem pushCpu_unmoved {cpu : Option CpuReading} : Unmoved s (s.pushCpu cpu) := by
  unfold State.pushCpu
  split
  · exact .emit? ⟨rfl, rfl, rfl, rfl⟩
  · exact ⟨rfl, rfl, rfl, rfl⟩

theorem terminal_unmoved {now : ℕ} {o : Observed} :
    Unmoved s (s.terminal now o) ∧ (s.terminal now o).pc.parsing = false := by
  unfold State.terminal
  split
  · refine ⟨.emit? ⟨rfl, rfl, rfl, rfl⟩, ?_⟩
    rw [State.emit?_pc]
    rfl
  · split
    · exact ⟨⟨rfl, rfl, rfl, rfl⟩, rfl⟩
    · split
      · exact ⟨⟨rfl, rfl, rfl, rfl⟩, rfl⟩
      · exact ⟨⟨rfl, rfl, rfl, rfl⟩, rfl⟩

theorem nextArtifact_unmoved {todo : List Artifact} {truncated : Bool}
    (h : s.nextArtifact todo truncated = some s') : Unmoved s s' ∧ s'.pc.parsing = false := by
  cases todo with
  | nil =>
    obtain ⟨r, -, rfl⟩ := Option.map_eq_some_iff.mp h
    exact ⟨⟨rfl, rfl, rfl, rfl⟩, rfl⟩
  | cons a todo =>
    simp only [State.nextArtifact] at h
    split at h
    · obtain rfl := Option.some.inj h
      exact ⟨⟨rfl, rfl, rfl, rfl⟩, rfl⟩
    · obtain rfl := Option.some.inj h
      exact ⟨⟨rfl, rfl, rfl, rfl⟩, rfl⟩

theorem blockingSend_unmoved {rest : List UInt8} {failed finished : Pc} {more : List UInt8 → Pc}
    (hfailed : failed.parsing = false) (hfinished : finished.parsing = false)
    (hmore : ∀ rest, (more rest).parsing = false)
    (h : s.blockingSend rest failed finished more = some s') :
    Unmoved s s' ∧ s'.pc.parsing = false := by
  unfold State.blockingSend at h
  split at h
  · obtain rfl := Option.some.inj h
    exact ⟨⟨rfl, rfl, rfl, rfl⟩, hfailed⟩
  · split at h
    · obtain rfl := Option.some.inj h
      exact ⟨⟨rfl, rfl, rfl, rfl⟩, hfinished⟩
    · split at h
      · cases h
      · obtain rfl := Option.some.inj h
        exact ⟨⟨rfl, rfl, rfl, rfl⟩, hmore _⟩

theorem agent_unmoved {o : Observed} (hconn : ∀ ready, s.pc ≠ .conn ready)
    (hframes : ∀ ready, s.pc ≠ .frames ready) (h : s.agent o = some s') :
    Unmoved s s' ∧ s'.pc.parsing = false := by
  unfold State.agent at h
  split at h
  · obtain rfl := Option.some.inj h
    exact ⟨⟨rfl, rfl, rfl, rfl⟩, rfl⟩
  · obtain rfl := Option.some.inj h
    exact ⟨⟨rfl, rfl, rfl, rfl⟩, rfl⟩
  · next ready hpc => exact absurd hpc (hconn ready)
  · next ready hpc => exact absurd hpc (hframes ready)
  · next fd ready hpc =>
    obtain rfl := Option.some.inj h
    refine ⟨readChild_unmoved, ?_⟩
    rw [State.readChild_pc]
    cases fd <;> rfl
  · obtain rfl := Option.some.inj h
    refine ⟨pushCpu_unmoved, ?_⟩
    unfold State.pushCpu
    split
    · rw [State.emit?_pc]
      rfl
    · rfl
  · obtain rfl := Option.some.inj h
    exact terminal_unmoved
  · exact nextArtifact_unmoved h
  · exact blockingSend_unmoved rfl rfl (fun _ => rfl) h
  · exact blockingSend_unmoved rfl rfl (fun _ => rfl) h
  · cases h

theorem handleFrame_frame : (s.handleFrame f).reader = s.reader ∧
    (s.handleFrame f).inbox = s.inbox := by
  unfold State.handleFrame
  split
  · exact ⟨rfl, rfl⟩
  · split
    · exact ⟨rfl, rfl⟩
    · split <;> exact ⟨rfl, rfl⟩

theorem handleFrame_stdin (rest : List UInt8) :
    ({ s with reader := rest }.handleFrame f).stdin = (s.handleFrame f).stdin ∧
      ({ s with reader := rest }.handleFrame f).stdinOpen = (s.handleFrame f).stdinOpen := by
  unfold State.handleFrame
  split
  · exact ⟨rfl, rfl⟩
  · split
    · exact ⟨rfl, rfl⟩
    · split <;> exact ⟨rfl, rfl⟩

theorem State.Handled.of_unmoved (hs : s.Handled done) (hm : Unmoved s s')
    (hwaits : (∀ ready, s'.pc ≠ .frames ready) → frameReader.next s.reader = none) :
    s'.Handled done where
  arrived := by rw [hm.inbox, hm.reader, hs.arrived]
  waits hpc := by
    rw [hm.reader]
    exact hwaits hpc

theorem State.Handled.of_recv {bs : List UInt8} (hs : s.Handled done)
    (hnext : frameReader.next s.reader = none) (hreader : s'.reader = s.reader ++ bs)
    (hinbox : s'.inbox.read = s.inbox.read ++ bs) (hpc : s'.pc.parsing = true) :
    s'.Handled done where
  arrived := by
    have harrived := hs.arrived
    rw [Incremental.Parser.drain_of_none hnext, List.append_nil] at harrived
    rw [hinbox, hreader, Incremental.Parser.drain_append, harrived]
  waits hne := absurd hpc (by rw [Pc.parsing_eq_false.mpr hne]; decide)

theorem recvConn_handled (ready : Ready) (hs : s.Handled done)
    (hnext : frameReader.next s.reader = none)
    (hx : (s.inbox.recv recvMax).1 ≠ .data [0x78]) :
    (s.recvConn ready).Handled done ∧ (s.recvConn ready).stdin = s.stdin ∧
      (s.recvConn ready).stdinOpen = s.stdinOpen := by
  unfold State.recvConn
  split
  · exact ⟨hs.of_unmoved ⟨rfl, rfl, rfl, rfl⟩ fun _ => hnext, rfl, rfl⟩
  · exact ⟨hs.of_unmoved ⟨rfl, rfl, rfl, rfl⟩ fun _ => hnext, rfl, rfl⟩
  · exact ⟨hs.of_unmoved ⟨rfl, rfl, rfl, rfl⟩ fun _ => hnext, rfl, rfl⟩
  · next bs inbox hrecv =>
    obtain ⟨hbs, hinbox⟩ := ByteStream.recv_data hrecv
    rw [hrecv] at hx
    rw [if_neg fun hbs => hx (congrArg ByteStream.Received.data hbs)]
    refine ⟨hs.of_recv hnext rfl ?_ rfl, rfl, rfl⟩
    rw [hinbox, hbs]
    rfl

theorem iterFrames_handled {ready : Ready} (hs : s.Handled done) (hpc : s.pc = .frames ready) :
    (s.iterFrames ready).Handled
        (done ++ ((frameReader.next s.reader).map Prod.fst).toList) ∧
      (s.iterFrames ready).stdin = (s.handle? ((frameReader.next s.reader).map Prod.fst)).stdin ∧
      (s.iterFrames ready).stdinOpen =
        (s.handle? ((frameReader.next s.reader).map Prod.fst)).stdinOpen := by
  unfold State.iterFrames
  rcases hnext : frameReader.next s.reader with _ | ⟨f, rest⟩
  · refine ⟨?_, rfl, rfl⟩
    rw [Option.map_none, Option.toList_none, List.append_nil]
    exact hs.of_unmoved ⟨rfl, rfl, rfl, rfl⟩ fun _ => hnext
  · obtain ⟨hreader, hinbox⟩ := handleFrame_frame (s := { s with reader := rest }) (f := f)
    have hpc' : ({ s with reader := rest }.handleFrame f).pc = .frames ready := by
      rw [State.handleFrame_pc]
      exact hpc
    refine ⟨⟨?_, fun hne => absurd hpc' (hne ready)⟩, handleFrame_stdin rest⟩
    rw [hreader, hinbox, hs.arrived, Incremental.Parser.drain_of_some hnext]
    simp

/-- A step handles the frame it takes off the connection; the session reads what it likes. -/
theorem step_handled (hs : s.Handled done) (hk : KeepsStdin s a) (hx : NoLoneX s a)
    (h : s.step a = some s') :
    s'.Handled (done ++ (s.handling a).toList) ∧
      (∃ n, s'.stdin = (s.handle? (s.handling a)).stdin.pull n) ∧
      s'.stdinOpen = (s.handle? (s.handling a)).stdinOpen := by
  have hpull : ∀ stream : ByteStream, stream = stream.pull 0 := by
    intro stream
    simp [ByteStream.pull]
  -- A step that handles no frame and leaves stdin to the session.
  have hquiet : s.handling a = none → s'.Handled done → s'.stdinOpen = s.stdinOpen →
      (∃ n, s'.stdin = s.stdin.pull n) →
      s'.Handled (done ++ (s.handling a).toList) ∧
        (∃ n, s'.stdin = (s.handle? (s.handling a)).stdin.pull n) ∧
        s'.stdinOpen = (s.handle? (s.handling a)).stdinOpen := by
    intro hnone hs' hopen hstdin
    rw [hnone, Option.toList_none, List.append_nil]
    exact ⟨hs', hstdin, hopen⟩
  cases step_turn h with
  | agent o s' h =>
    rcases hpc : s.pc with _ | _ | ready | ready | _ | _ | _ | _ | _ | _ | _
    case conn =>
      simp only [State.agent, hpc] at h
      have hnone : s.handling (.agent o) = none := by simp only [State.handling, hpc]
      have hnext := hs.waits (by simp [hpc])
      by_cases hready : (s.connOpen && ready.conn) = true
      · rw [if_pos hready] at h
        obtain rfl := Option.some.inj h
        have hx : (s.inbox.recv recvMax).1 ≠ .data [0x78] := by
          simp only [NoLoneX, hpc] at hx
          exact hx hready
        obtain ⟨hs', hstdin, hopen⟩ := recvConn_handled ready hs hnext hx
        exact hquiet hnone hs' hopen ⟨0, hstdin.trans (hpull _)⟩
      · rw [if_neg hready] at h
        obtain rfl := Option.some.inj h
        exact hquiet hnone (hs.of_unmoved ⟨rfl, rfl, rfl, rfl⟩ fun _ => hnext) rfl ⟨0, hpull _⟩
    case frames =>
      simp only [State.agent, hpc] at h
      obtain rfl := Option.some.inj h
      obtain ⟨hs', hstdin, hopen⟩ := iterFrames_handled hs hpc
      simp only [State.handling, hpc]
      exact ⟨hs', ⟨0, hstdin.trans (hpull _)⟩, hopen⟩
    all_goals
      have hnone : s.handling (.agent o) = none := by simp only [State.handling, hpc]
      have hnext := hs.waits (by simp [hpc])
      obtain ⟨hm, -⟩ := agent_unmoved (by simp [hpc]) (by simp [hpc]) h
      exact hquiet hnone (hs.of_unmoved hm fun _ => hnext) hm.stdinOpen
        ⟨0, hm.stdin.trans (hpull _)⟩
  | readStdin n => exact hquiet rfl ⟨hs.arrived, hs.waits⟩ rfl ⟨n, rfl⟩
  | closeStdin => exact hk.elim
  | _ => exact hquiet rfl ⟨hs.arrived, hs.waits⟩ rfl ⟨0, hpull _⟩

/-- The session's stdin holds the payloads of the frames handled, and is closed by a close. -/
structure State.StdinExact (done : List Frame) (s : State) : Prop where
  bytes : s.stdin.bytes = payloads tStdin done
  closed : s.stdin.closed = true ↔ ∃ f ∈ done, f.ftype = tStdinClose
  stdinOpen : s.stdinOpen = !s.stdin.closed
  failed : s.stdin.failed = false

structure State.StdinLost (done : List Frame) (s : State) : Prop where
  bytes : s.stdin.bytes.length < (payloads tStdin done).length
  stdinOpen : s.stdinOpen = false

theorem payloads_snoc_self {t : UInt8} (hf : f.ftype = t) :
    payloads t (done ++ [f]) = payloads t done ++ f.payload := by
  simp [payloads, hf]

theorem payloads_snoc_of_ne {t : UInt8} (hf : f.ftype ≠ t) :
    payloads t (done ++ [f]) = payloads t done := by
  simp [payloads, hf]

theorem exists_close_snoc_of_ne (hf : f.ftype ≠ tStdinClose) :
    (∃ g ∈ done ++ [f], g.ftype = tStdinClose) ↔ ∃ g ∈ done, g.ftype = tStdinClose := by
  simp [List.mem_append, or_and_right, exists_or, hf]

theorem handleFrame_of_idle (hstdin : ¬ (f.ftype = tStdin ∧ s.stdinOpen = true))
    (hclose : ¬ (f.ftype = tStdinClose ∧ s.stdinOpen = true)) :
    (s.handleFrame f).stdin = s.stdin ∧ (s.handleFrame f).stdinOpen = s.stdinOpen := by
  unfold State.handleFrame
  rw [if_neg hstdin, if_neg hclose]
  split <;> exact ⟨rfl, rfl⟩

theorem State.StdinExact.of_idle (hs : s.StdinExact done) (hstdin : f.ftype ≠ tStdin)
    (hsame : s'.stdin = s.stdin ∧ s'.stdinOpen = s.stdinOpen)
    (hclosed : s.stdin.closed = true ↔ ∃ g ∈ done ++ [f], g.ftype = tStdinClose) :
    s'.StdinExact (done ++ [f]) where
  bytes := by rw [hsame.1, hs.bytes, payloads_snoc_of_ne hstdin]
  closed := by
    rw [hsame.1]
    exact hclosed
  stdinOpen := by rw [hsame.1, hsame.2, hs.stdinOpen]
  failed := by rw [hsame.1, hs.failed]

theorem handleFrame_exact (hs : s.StdinExact done) (hlast : ClosesLast (done ++ [f]))
    (hfit : f.ftype = tStdin → s.stdinOpen = true → f.payload.length ≤ s.stdin.free) :
    (s.handleFrame f).StdinExact (done ++ [f]) := by
  by_cases hstdin : f.ftype = tStdin
  · have hne : f.ftype ≠ tStdinClose := by
      rw [hstdin]
      decide
    -- No close came before this frame, so stdin is still open.
    have hopen : s.stdinOpen = true := by
      rw [hs.stdinOpen, Bool.not_eq_true', ← Bool.not_eq_true, hs.closed]
      rintro ⟨g, hg, hclose⟩
      exact (List.pairwise_append.mp hlast).2.2 g hg f (List.mem_singleton_self f) hclose hstdin
    have hsend := ByteStream.sendall_of_fits hs.failed (hfit hstdin hopen)
    unfold State.handleFrame
    rw [if_pos ⟨hstdin, hopen⟩, hsend]
    constructor
    · rw [ByteStream.bytes_write, hs.bytes, payloads_snoc_self hstdin]
    · exact hs.closed.trans (exists_close_snoc_of_ne hne).symm
    · exact hopen.symm.trans hs.stdinOpen
    · exact hs.failed
  · by_cases hclose : f.ftype = tStdinClose
    · have hmem : ∃ g ∈ done ++ [f], g.ftype = tStdinClose :=
        ⟨f, List.mem_append_right _ (List.mem_singleton_self f), hclose⟩
      by_cases hopen : s.stdinOpen = true
      · unfold State.handleFrame
        rw [if_neg fun h => hstdin h.1, if_pos ⟨hclose, hopen⟩]
        exact ⟨hs.bytes.trans (payloads_snoc_of_ne hstdin).symm, iff_of_true rfl hmem, rfl,
          hs.failed⟩
      · have hsame := handleFrame_of_idle (f := f) (fun h => hopen h.2) (fun h => hopen h.2)
        have hclosed : s.stdin.closed = true := by
          simpa [hs.stdinOpen] using hopen
        exact hs.of_idle hstdin hsame (iff_of_true hclosed hmem)
    · have hsame := handleFrame_of_idle (s := s) (fun h => hstdin h.1) (fun h => hclose h.1)
      exact hs.of_idle hstdin hsame (hs.closed.trans (exists_close_snoc_of_ne hclose).symm)

theorem handleFrame_lost (hs : s.StdinExact done) (hstdin : f.ftype = tStdin)
    (hopen : s.stdinOpen = true) (hfit : ¬ f.payload.length ≤ s.stdin.free) :
    (s.handleFrame f).StdinLost (done ++ [f]) := by
  unfold State.handleFrame
  rw [if_pos ⟨hstdin, hopen⟩]
  constructor
  · rw [payloads_snoc_self hstdin]
    simp only [ByteStream.sendall, hs.failed, Bool.false_eq_true, if_false]
    rw [ByteStream.bytes_write, hs.bytes, List.length_append, List.length_append,
      List.length_take]
    omega
  · simp [ByteStream.sendall, hs.failed, hfit]

theorem handleFrame_stays_lost (hs : s.StdinLost done) :
    (s.handleFrame f).StdinLost (done ++ [f]) := by
  have hopen : ¬ s.stdinOpen = true := by simp [hs.stdinOpen]
  obtain ⟨hsame, hsame'⟩ := handleFrame_of_idle (f := f) (fun h => hopen h.2) (fun h => hopen h.2)
  constructor
  · rw [hsame, payloads_append, List.length_append]
    exact Nat.lt_add_right _ hs.bytes
  · rw [hsame', hs.stdinOpen]

/-- What has arrived and is still under way are bytes of the frames sent. -/
def State.Receives (ws : List Frame) (s : State) : Prop :=
  s.inbox.bytes <+: ws.flatMap Frame.bytes

theorem State.Receives.of_eq (h : s.inbox.bytes = ws.flatMap Frame.bytes) : s.Receives ws := by
  rw [State.Receives, h]

theorem recvConn_inbox {ready : Ready} : (s.recvConn ready).inbox.bytes = s.inbox.bytes := by
  unfold State.recvConn
  split
  · rfl
  · rfl
  · rfl
  · next bs inbox hrecv =>
    obtain ⟨-, rfl⟩ := ByteStream.recv_data hrecv
    split <;> exact ByteStream.bytes_pull

theorem iterFrames_inbox {ready : Ready} : (s.iterFrames ready).inbox = s.inbox := by
  unfold State.iterFrames
  split
  · exact handleFrame_frame.2
  · rfl

theorem step_inbox (h : s.step a = some s') : s.inbox.bytes <+: s'.inbox.bytes := by
  cases step_turn h with
  | agent o s' h =>
    rcases hpc : s.pc with _ | _ | ready | ready | _ | _ | _ | _ | _ | _ | _
    case conn =>
      simp only [State.agent, hpc] at h
      split at h
      · obtain rfl := Option.some.inj h
        rw [recvConn_inbox]
      · obtain rfl := Option.some.inj h
        exact List.prefix_rfl
    case frames =>
      simp only [State.agent, hpc] at h
      obtain rfl := Option.some.inj h
      rw [iterFrames_inbox]
    all_goals
      obtain ⟨hm, -⟩ := agent_unmoved (by simp [hpc]) (by simp [hpc]) h
      rw [hm.inbox]
  | send bs =>
    rw [ByteStream.bytes_write]
    exact List.prefix_append _ _
  | _ => exact List.prefix_rfl

theorem always_receives {as : List Act} (hr : run State.step s as = some s')
    (hs : s'.Receives ws) : Always State.step (State.Receives ws) s as := by
  have hall := always_not_of_last (I := fun u => ¬ u.Receives ws)
    (fun u a u' hu hs hsent => hu ((step_inbox hs).trans hsent)) (not_not.mpr hs) hr
  exact hall.mono fun u hu => not_not.mp hu

theorem State.Handled.arrived_prefix (hs : s.Handled done) (hsent : s.Receives ws)
    (hlen : ∀ f ∈ ws, f.payload.length ≤ maxFramePayload) :
    done ++ (frameReader.drain s.reader).1 <+: ws := by
  obtain ⟨more, hmore⟩ := (List.prefix_append s.inbox.read s.inbox.unread).trans hsent
  have hpre := Incremental.Parser.drain_prefix (p := frameReader) s.inbox.read more
  rwa [hmore, frameReader_drain hlen, hs.arrived] at hpre

theorem handling_eq_some (h : s.handling a = some f) :
    ∃ rest, frameReader.next s.reader = some (f, rest) := by
  cases a with
  | agent o =>
    simp only [State.handling] at h
    split at h
    · obtain ⟨⟨g, rest⟩, hnext, rfl⟩ := Option.map_eq_some_iff.mp h
      exact ⟨rest, hnext⟩
    · cases h
  | _ => cases h

theorem State.Handled.handling_prefix (hs : s.Handled done) (hsent : s.Receives ws)
    (hlen : ∀ f ∈ ws, f.payload.length ≤ maxFramePayload) :
    done ++ (s.handling a).toList <+: ws := by
  refine List.IsPrefix.trans ?_ (hs.arrived_prefix hsent hlen)
  rw [List.prefix_append_right_inj]
  rcases hf : s.handling a with _ | f
  · exact List.nil_prefix
  · obtain ⟨rest, hnext⟩ := handling_eq_some hf
    rw [Incremental.Parser.drain_of_some hnext]
    exact List.prefix_append [f] _

theorem State.Handled.eq_of_settled (hs : s.Handled done) (hset : s.StdinSettled ws)
    (hlen : ∀ f ∈ ws, f.payload.length ≤ maxFramePayload) : done = ws := by
  have hread : s.inbox.read = ws.flatMap Frame.bytes := by
    rw [← hset.sent, ByteStream.bytes, hset.received, List.append_nil]
  have harrived := hs.arrived
  rw [hread, frameReader_drain hlen,
    Incremental.Parser.drain_of_none (hs.waits hset.handled), List.append_nil] at harrived
  exact (congrArg Prod.fst harrived).symm

theorem stdinIntact_of_exact (hs : s.Handled done) (hx : s.StdinExact done)
    (hsent : s.Receives ws) (hlen : ∀ f ∈ ws, f.payload.length ≤ maxFramePayload)
    (hlast : ClosesLast ws) : s.StdinIntact ws := by
  have hpre : done <+: ws :=
    (List.prefix_append done _).trans (hs.arrived_prefix hsent hlen)
  obtain ⟨rest, hrest⟩ := hpre
  constructor
  · refine (List.prefix_append s.stdin.read s.stdin.unread).trans ?_
    have hbytes : s.stdin.read ++ s.stdin.unread = payloads tStdin done := hx.bytes
    rw [hbytes, ← hrest, payloads_append]
    exact List.prefix_append _ _
  · rintro ⟨hunread, hclosed⟩
    obtain ⟨g, hg, hclose⟩ := hx.closed.mp hclosed
    refine ⟨⟨g, hrest ▸ List.mem_append_left _ hg, hclose⟩, ?_⟩
    -- Nothing after the close is stdin.
    have hquiet : payloads tStdin rest = [] := by
      refine payloads_of_ne fun f hf => ?_
      rw [← hrest] at hlast
      exact (List.pairwise_append.mp hlast).2.2 g hg f hf hclose
    have hbytes := hx.bytes
    rw [ByteStream.bytes, hunread, List.append_nil] at hbytes
    rw [← hrest, payloads_append, hquiet, List.append_nil, hbytes]
  · intro hset
    obtain rfl := hs.eq_of_settled hset hlen
    have hbytes := hx.bytes
    rw [ByteStream.bytes, hset.read, List.append_nil] at hbytes
    refine ⟨hbytes, ?_⟩
    rw [State.AtStdinEof, and_iff_right hset.read]
    exact hx.closed

/-- What the steps of a run keep to that loses no stdin of its own. -/
def KeepsFrames (ws : List Frame) (s : State) (a : Act) : Prop :=
  KeepsStdin s a ∧ NoLoneX s a ∧ s.Receives ws

def State.StdinKept (s : State) : Prop := ∃ done, s.Handled done ∧ s.StdinExact done

def State.StdinCut (s : State) : Prop := ∃ done, s.Handled done ∧ s.StdinLost done

theorem State.StdinExact.of_pull {n : ℕ} (hs : s.StdinExact done)
    (hstdin : s'.stdin = s.stdin.pull n) (hopen : s'.stdinOpen = s.stdinOpen) :
    s'.StdinExact done where
  bytes := by rw [hstdin, ByteStream.bytes_pull, hs.bytes]
  closed := by
    rw [hstdin]
    exact hs.closed
  stdinOpen := by
    rw [hstdin, hopen]
    exact hs.stdinOpen
  failed := by
    rw [hstdin]
    exact hs.failed

theorem State.StdinLost.of_pull {n : ℕ} (hs : s.StdinLost done)
    (hstdin : s'.stdin = s.stdin.pull n) (hopen : s'.stdinOpen = s.stdinOpen) :
    s'.StdinLost done where
  bytes := by
    rw [hstdin, ByteStream.bytes_pull]
    exact hs.bytes
  stdinOpen := hopen.trans hs.stdinOpen

variable (hlen : ∀ f ∈ ws, f.payload.length ≤ maxFramePayload) (hlast : ClosesLast ws)
include hlen hlast

theorem step_kept_of_fits (hs : s.StdinKept) (hk : KeepsFrames ws s a) (hfit : StdinFits s a)
    (h : s.step a = some s') : s'.StdinKept := by
  obtain ⟨done, hd, hx⟩ := hs
  obtain ⟨hopen, hnox, hsent⟩ := hk
  obtain ⟨hd', ⟨n, hstdin⟩, hflag⟩ := step_handled hd hopen hnox h
  have hpre := hd.handling_prefix (a := a) hsent hlen
  refine ⟨_, hd', ?_⟩
  rcases hf : s.handling a with _ | f
  · rw [hf] at hstdin hflag
    rw [Option.toList_none, List.append_nil]
    exact hx.of_pull hstdin hflag
  · rw [hf] at hstdin hflag hpre
    have hclose : ClosesLast (done ++ [f]) := hlast.sublist hpre.sublist
    exact (handleFrame_exact hx hclose (hfit f hf)).of_pull hstdin hflag

omit hlen hlast in
theorem step_cut_of_not_fits (hs : s.StdinKept) (hk : KeepsFrames ws s a)
    (hfit : ¬ StdinFits s a) (h : s.step a = some s') : s'.StdinCut := by
  obtain ⟨done, hd, hx⟩ := hs
  obtain ⟨hopen, hnox, -⟩ := hk
  obtain ⟨hd', ⟨n, hstdin⟩, hflag⟩ := step_handled hd hopen hnox h
  simp only [StdinFits, not_forall] at hfit
  obtain ⟨f, hf, htype, hopen', hbig⟩ := hfit
  rw [Option.mem_def.mp hf] at hd' hstdin hflag
  exact ⟨_, hd', (handleFrame_lost hx htype hopen' hbig).of_pull hstdin hflag⟩

omit hlen hlast in
theorem step_stays_cut (hs : s.StdinCut) (hk : KeepsFrames ws s a) (h : s.step a = some s') :
    s'.StdinCut := by
  obtain ⟨done, hd, hx⟩ := hs
  obtain ⟨hopen, hnox, -⟩ := hk
  obtain ⟨hd', ⟨n, hstdin⟩, hflag⟩ := step_handled hd hopen hnox h
  refine ⟨_, hd', ?_⟩
  rcases hf : s.handling a with _ | f
  · rw [hf] at hstdin hflag
    rw [Option.toList_none, List.append_nil]
    exact hx.of_pull hstdin hflag
  · rw [hf] at hstdin hflag
    exact (handleFrame_stays_lost hx).of_pull hstdin hflag

omit hlast in
theorem not_intact_of_cut (hs : s.StdinCut) (hset : s.StdinSettled ws) : ¬ s.StdinIntact ws := by
  intro hintact
  obtain ⟨done, hd, hx⟩ := hs
  obtain rfl := hd.eq_of_settled hset hlen
  have hread := (hintact.settled hset).1
  have hbytes := hx.bytes
  rw [ByteStream.bytes, hset.read, List.append_nil, hread] at hbytes
  exact Nat.lt_irrefl _ hbytes

omit hlen hlast

theorem State.StdinInitial.kept (hi : s.StdinInitial) : s.StdinKept := by
  obtain ⟨hread, -⟩ := List.append_eq_nil_iff.mp hi.inbox
  refine ⟨[], ⟨?_, fun _ => ?_⟩, ⟨?_, ?_, ?_, hi.failed⟩⟩
  · rw [hread, hi.reader]
    rfl
  · rw [hi.reader]
    rfl
  · rw [hi.stdin]
    rfl
  · rw [hi.closed]
    simp
  · rw [hi.stdinOpen, hi.closed]
    rfl

theorem start_stdinInitial (cap : ℕ) (leaf : Bool) : (State.start cap leaf).StdinInitial where
  pc := rfl
  reader := rfl
  inbox := rfl
  stdin := rfl
  closed := rfl
  failed := rfl
  stdinOpen := rfl

def hear : Act := .agent ⟨⟨true, fun _ => false⟩, none, false⟩

/-- The user types `x` and closes stdin; the header of the first frame, its payload and the second
frame arrive one by one, as they are written. -/
def typedX : List Act :=
  [.send [0x02, 0, 0, 0, 1], hear, hear, hear, hear, hear, hear, hear, hear, hear,
    .send [0x78], hear, hear, hear, hear, hear, hear, hear, hear,
    .send [0x03, 0, 0, 0, 0], hear, hear, hear, hear, hear, .readStdin 4096]

theorem typedX_read :
    (run State.step (.start 65536 false) typedX).map
        (fun s => (s.inbox.bytes, s.stdin.read, s.stdin.closed)) =
      some ((relayFrames false [.write [0x78], .close]).flatMap Frame.bytes, [0x03], false) := by
  decide +kernel

theorem typedX_keepsStdin (s : State) : EveryStep State.step KeepsStdin s typedX :=
  everyStep_of_mem (P := KeepsStdin s) (by simp [typedX, hear, KeepsStdin])

/-- The same two frames, each in one piece. -/
def typedXWhole : List Act :=
  [.send [0x02, 0, 0, 0, 1, 0x78], hear, hear, hear, hear, hear, hear, hear, hear, hear, hear,
    .send [0x03, 0, 0, 0, 0], hear, hear, hear, hear, hear, .readStdin 4096]

end CodeRunner.Relay
