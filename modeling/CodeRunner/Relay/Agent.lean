import Mathlib.Logic.Function.Basic
import CodeRunner.Lib.ByteStream
import CodeRunner.Relay.Frames

/-! # The agent's side of a relayed job

`relay_loop` from the first reap to its return, then `_send_artifacts` and the terminal EXIT
frame of `handle_job`, as steps that interleave with the session, the worker and the clock.
One step of the agent is one block of the loop body, or one partial write of a blocking send.
-/

namespace CodeRunner.Relay

inductive Fd where
  | out
  | err
  | art
  deriving DecidableEq, Repr

/-- The descriptors that `select` reports. -/
structure Ready where
  conn : Bool
  child : Fd → Bool

/-- What the kernel answers within one step: the ready descriptors, the CPU reading, and
whether the leaf's `cgroup.procs` reads empty. -/
structure Observed where
  ready : Ready
  cpu : Option CpuReading
  leafEmpty : Bool

inductive Pc where
  | reap
  | select
  | conn (ready : Ready)
  | frames (ready : Ready)
  | child (fd : Fd) (ready : Ready)
  | cpu
  | terminal (now : ℕ)
  | artifacts (todo : List Artifact) (truncated : Bool)
  | sendArtifact (rest : List UInt8) (todo : List Artifact) (truncated : Bool)
  | sendExit (rest : List UInt8)
  | done

/--
The locals of `relay_loop`, the sockets they name, the session and the monotonic clock in
milliseconds. `killed` and `meant` are history variables: whether `kill_session` was called,
and every frame handed to `emit`, `_send_artifacts` or the final `send_json`.
-/
structure State where
  pc : Pc
  connOpen : Bool
  killSentAt : Option ℕ
  killAttempts : ℕ
  opened : Fd → Bool
  stdinOpen : Bool
  lastCpuPush : ℕ
  lastCpuMs : Option ℕ
  result : Option ExitStatus
  reader : List UInt8
  artReader : List UInt8
  artifacts : List Artifact
  leaf : Bool
  inbox : ByteStream
  outbox : ByteStream
  stdin : ByteStream
  streams : Fd → ByteStream
  exit : Option ExitStatus
  clock : ℕ
  killed : Bool
  meant : List Frame

/-- The size of one `recv`. -/
def recvMax : ℕ := 65536

def State.killSession (s : State) : State := { s with killed := true }

/-- `emit`: a send that fails marks the connection closed. -/
def State.emit (s : State) (f : Frame) : State :=
  if s.connOpen then
    { s with
      connOpen := (s.outbox.sendall f.bytes).1
      outbox := (s.outbox.sendall f.bytes).2
      meant := s.meant ++ [f] }
  else { s with meant := s.meant ++ [f] }

/-- `emit`, when there is a frame to emit. -/
def State.emit? (s : State) : Option Frame → State
  | some f => s.emit f
  | none => s

def State.sends (s : State) (f : Option Frame) : Bool :=
  f.all fun f => (s.outbox.sendall f.bytes).1

section Emit

variable {s : State} {f : Option Frame}

/-- `emit` touches the connection and nothing else. -/
theorem State.emit?_frame : ∃ connOpen outbox meant,
    s.emit? f = { s with connOpen := connOpen, outbox := outbox, meant := meant } := by
  cases f with
  | none => exact ⟨_, _, _, rfl⟩
  | some f =>
    simp only [State.emit?, State.emit]
    split <;> exact ⟨_, _, _, rfl⟩

theorem State.emit?_connOpen : (s.emit? f).connOpen = (s.connOpen && s.sends f) := by
  cases f with
  | none => simp [State.emit?, State.sends]
  | some f =>
    simp only [State.emit?, State.emit, State.sends]
    split <;> simp_all

theorem State.emit?_meant : (s.emit? f).meant = s.meant ++ f.toList := by
  cases f with
  | none => simp [State.emit?]
  | some f =>
    simp only [State.emit?, State.emit]
    split <;> simp

@[simp] theorem State.emit?_result : (s.emit? f).result = s.result := by
  obtain ⟨_, _, _, h⟩ := State.emit?_frame (s := s) (f := f)
  rw [h]

@[simp] theorem State.emit?_killed : (s.emit? f).killed = s.killed := by
  obtain ⟨_, _, _, h⟩ := State.emit?_frame (s := s) (f := f)
  rw [h]

@[simp] theorem State.emit?_pc : (s.emit? f).pc = s.pc := by
  obtain ⟨_, _, _, h⟩ := State.emit?_frame (s := s) (f := f)
  rw [h]

end Emit

def State.recvConn (s : State) (ready : Ready) : State :=
  match s.inbox.recv recvMax with
  | (.wouldBlock, _) => { s with pc := .child .out ready }
  | (.eof, _) | (.error, _) =>
    { s.killSession with
      connOpen := false
      killSentAt := some s.clock
      pc := .child .out ready }
  | (.data bs, inbox) =>
    -- The loop marks a spurious wakeup by the same byte string.
    if bs = [0x78] then { s with inbox := inbox, pc := .child .out ready }
    else { s with inbox := inbox, reader := s.reader ++ bs, pc := .frames ready }

def State.handleFrame (s : State) (f : Frame) : State :=
  if f.ftype = tStdin ∧ s.stdinOpen then
    { s with
      stdinOpen := (s.stdin.sendall f.payload).1
      stdin := (s.stdin.sendall f.payload).2 }
  else if f.ftype = tStdinClose ∧ s.stdinOpen then
    { s with stdin := { s.stdin with closed := true }, stdinOpen := false }
  else if f.ftype = tKill then { s.killSession with killSentAt := some s.clock }
  else s

theorem State.handleFrame_pc {s : State} {f : Frame} : (s.handleFrame f).pc = s.pc := by
  unfold State.handleFrame
  split
  · rfl
  · split
    · rfl
    · split <;> rfl

def State.iterFrames (s : State) (ready : Ready) : State :=
  match frameReader.next s.reader with
  | some (f, rest) => { s with reader := rest }.handleFrame f
  | none => { s with pc := .child .out ready }

/-- The frame that a chunk read from a session stream goes out in. -/
def Fd.frame : Fd → List UInt8 → Option Frame
  | .out, bs => some ⟨tStdout, bs⟩
  | .err, bs => some ⟨tStderr, bs⟩
  | .art, _ => none

theorem Fd.frame_payload {fd : Fd} {bs : List UInt8} {f : Frame} (h : f ∈ fd.frame bs) :
    f.payload = bs := by
  cases fd <;> cases h <;> rfl

def Fd.pc : Fd → Ready → Pc
  | .out, ready => .child .err ready
  | .err, ready => .child .art ready
  | .art, _ => .cpu

def State.feedArtifacts (s : State) (bs : List UInt8) : State :=
  { s with
    artReader := (artifactReader.drain (s.artReader ++ bs)).2
    artifacts := s.artifacts ++ (artifactReader.drain (s.artReader ++ bs)).1 }

/-- An artifact chunk goes to the record reader, an output chunk to the worker. -/
def State.chunk (s : State) (fd : Fd) (bs : List UInt8) : State :=
  match fd with
  | .art => s.feedArtifacts bs
  | .out | .err => s.emit? (fd.frame bs)

def State.readChild (s : State) (fd : Fd) (ready : Ready) : State :=
  if s.opened fd && ready.child fd then
    match (s.streams fd).recv recvMax with
    | (.wouldBlock, _) => { s with pc := fd.pc ready }
    | (.eof, _) | (.error, _) =>
      { s with opened := Function.update s.opened fd false, pc := fd.pc ready }
    | (.data bs, stream) =>
      { s with streams := Function.update s.streams fd stream, pc := fd.pc ready }.chunk fd bs
  else { s with pc := fd.pc ready }

theorem State.readChild_pc {s : State} {fd : Fd} {ready : Ready} :
    (s.readChild fd ready).pc = fd.pc ready := by
  unfold State.readChild
  split
  · split
    · rfl
    · rfl
    · rfl
    · unfold State.chunk
      split
      · rfl
      · rw [State.emit?_pc]
      · rw [State.emit?_pc]
  · rfl

theorem State.readChild_of_data {s : State} {fd : Fd} {ready : Ready} {bs : List UInt8}
    {stream : ByteStream} (hc : (s.opened fd && ready.child fd) = true)
    (hr : (s.streams fd).recv recvMax = (.data bs, stream)) :
    s.readChild fd ready =
      State.chunk { s with
        streams := Function.update s.streams fd stream
        pc := fd.pc ready } fd bs := by
  unfold State.readChild
  rw [if_pos hc, hr]

def State.cpuPush (s : State) (cpu : Option CpuReading) : Option Frame :=
  cpu.bind fun r => if some r.ms = s.lastCpuMs then none else some (cpuFrame r)

def State.pushCpu (s : State) (cpu : Option CpuReading) : State :=
  if 100 ≤ s.clock - s.lastCpuPush then
    { s with
      pc := .terminal s.clock
      lastCpuPush := s.clock
      lastCpuMs := (cpu.map CpuReading.ms).or s.lastCpuMs }.emit? (s.cpuPush cpu)
  else { s with pc := .terminal s.clock }

def State.drained (s : State) : Bool := !s.opened .out && !s.opened .err && !s.opened .art

/-- At least five seconds since the last `kill_session`. -/
def State.killOverdue (s : State) (now : ℕ) : Bool := s.killSentAt.any fun t => 5000 ≤ now - t

/-- The loop returns although a stream is still open: the leaf is empty, or the session was
killed five seconds ago. -/
def State.exitsEarly (s : State) (now : ℕ) (leafEmpty : Bool) : Bool :=
  s.result.isSome && !s.drained && ((s.leaf && leafEmpty) || s.killOverdue now)

def State.return (s : State) : State := { s with pc := .artifacts s.artifacts false }

def State.terminal (s : State) (now : ℕ) (o : Observed) : State :=
  if s.result.isSome && s.drained then s.return.emit? (s.cpuPush o.cpu)
  else if s.exitsEarly now o.leafEmpty then s.return
  else if s.result.isNone && s.killOverdue now then
    { s.killSession with
      pc := .reap
      killAttempts := s.killAttempts + 1
      killSentAt := some now }
  else { s with pc := .reap }

def State.nextArtifact (s : State) (todo : List Artifact) (truncated : Bool) : Option State :=
  match todo with
  | a :: todo =>
    let f : Frame := ⟨tArtifact, artifactPayload a⟩
    if maxFramePayload < f.payload.length then some { s with pc := .artifacts todo true }
    else some { s with pc := .sendArtifact f.bytes todo truncated, meant := s.meant ++ [f] }
  | [] => s.result.map fun r =>
      { s with
        pc := .sendExit (exitFrame r truncated).bytes
        meant := s.meant ++ [exitFrame r truncated] }

/-- One step of a blocking `sendall` with `rest` still to write: `failed` and `finished` are
where it leads when it raises and when it returns. It waits while the buffer is full. -/
def State.blockingSend (s : State) (rest : List UInt8) (failed finished : Pc)
    (more : List UInt8 → Pc) : Option State :=
  if s.outbox.failed then some { s with pc := failed }
  else if rest = [] then some { s with pc := finished }
  else if s.outbox.free = 0 then none
  else some
    { s with
      pc := more (rest.drop s.outbox.free)
      outbox := s.outbox.write (rest.take s.outbox.free) }

def State.agent (s : State) (o : Observed) : Option State :=
  match s.pc with
  | .reap => some { s with pc := .select, result := s.result.or s.exit }
  | .select => some { s with pc := .conn o.ready }
  | .conn ready =>
    if s.connOpen && ready.conn then some (s.recvConn ready)
    else some { s with pc := .child .out ready }
  | .frames ready => some (s.iterFrames ready)
  | .child fd ready => some (s.readChild fd ready)
  | .cpu => some (s.pushCpu o.cpu)
  | .terminal now => some (s.terminal now o)
  | .artifacts todo truncated => s.nextArtifact todo truncated
  | .sendArtifact rest todo truncated =>
    s.blockingSend rest (.artifacts [] true) (.artifacts todo truncated)
      fun rest => .sendArtifact rest todo truncated
  | .sendExit rest => s.blockingSend rest .done .done .sendExit
  | .done => none

/-- `write` and `exit` are the session's; a stream closes when its last holder is gone. -/
inductive Act where
  | agent (o : Observed)
  | write (fd : Fd) (bs : List UInt8)
  | close (fd : Fd)
  | exit (status : ExitStatus)
  | readStdin (n : ℕ)
  | closeStdin
  | send (bs : List UInt8)
  | drain (n : ℕ)
  | closeConn
  | reset
  | tick (ms : ℕ)

def State.step (s : State) : Act → Option State
  | .agent o => s.agent o
  | .write fd bs =>
    if s.exit.isNone && !(s.streams fd).closed && decide (bs.length ≤ (s.streams fd).free) then
      some { s with streams := Function.update s.streams fd ((s.streams fd).write bs) }
    else none
  | .close fd => some
      { s with streams := Function.update s.streams fd { s.streams fd with closed := true } }
  | .exit status => if s.exit.isNone then some { s with exit := some status } else none
  | .readStdin n => some { s with stdin := s.stdin.pull n }
  | .closeStdin => some { s with stdin := { s.stdin with failed := true } }
  | .send bs => if s.inbox.closed then none else some { s with inbox := s.inbox.write bs }
  | .drain n => some { s with outbox := s.outbox.pull n }
  | .closeConn => some { s with inbox := { s.inbox with closed := true } }
  | .reset => some
      { s with
        inbox := { s.inbox with failed := true }
        outbox := { s.outbox with failed := true } }
  | .tick ms => some { s with clock := s.clock + ms }

inductive Turn (s : State) : Act → State → Prop where
  | agent (o : Observed) (s' : State) (hs : s.agent o = some s') : Turn s (.agent o) s'
  | write (fd : Fd) (bs : List UInt8) (hrun : s.exit = none)
      (hopen : (s.streams fd).closed = false) (hfree : bs.length ≤ (s.streams fd).free) :
      Turn s (.write fd bs)
        { s with streams := Function.update s.streams fd ((s.streams fd).write bs) }
  | close (fd : Fd) :
      Turn s (.close fd)
        { s with streams := Function.update s.streams fd { s.streams fd with closed := true } }
  | exit (status : ExitStatus) (hrun : s.exit = none) :
      Turn s (.exit status) { s with exit := some status }
  | readStdin (n : ℕ) : Turn s (.readStdin n) { s with stdin := s.stdin.pull n }
  | closeStdin : Turn s .closeStdin { s with stdin := { s.stdin with failed := true } }
  | send (bs : List UInt8) (hopen : s.inbox.closed = false) :
      Turn s (.send bs) { s with inbox := s.inbox.write bs }
  | drain (n : ℕ) : Turn s (.drain n) { s with outbox := s.outbox.pull n }
  | closeConn : Turn s .closeConn { s with inbox := { s.inbox with closed := true } }
  | reset :
      Turn s .reset
        { s with
          inbox := { s.inbox with failed := true }
          outbox := { s.outbox with failed := true } }
  | tick (ms : ℕ) : Turn s (.tick ms) { s with clock := s.clock + ms }

theorem step_turn {s s' : State} {a : Act} (h : s.step a = some s') : Turn s a s' := by
  cases a with
  | agent o => exact .agent o s' h
  | write fd bs =>
    simp only [State.step, Option.ite_none_right_eq_some, Option.some.injEq, Bool.and_eq_true,
      Option.isNone_iff_eq_none, Bool.not_eq_true', decide_eq_true_eq] at h
    obtain ⟨⟨⟨hrun, hopen⟩, hfree⟩, rfl⟩ := h
    exact .write fd bs hrun hopen hfree
  | close fd =>
    obtain rfl := Option.some.inj h
    exact .close fd
  | exit status =>
    simp only [State.step, Option.ite_none_right_eq_some, Option.some.injEq,
      Option.isNone_iff_eq_none] at h
    obtain ⟨hrun, rfl⟩ := h
    exact .exit status hrun
  | readStdin n =>
    obtain rfl := Option.some.inj h
    exact .readStdin n
  | closeStdin =>
    obtain rfl := Option.some.inj h
    exact .closeStdin
  | send bs =>
    simp only [State.step, Option.ite_none_left_eq_some, Option.some.injEq, Bool.not_eq_true] at h
    obtain ⟨hopen, rfl⟩ := h
    exact .send bs hopen
  | drain n =>
    obtain rfl := Option.some.inj h
    exact .drain n
  | closeConn =>
    obtain rfl := Option.some.inj h
    exact .closeConn
  | reset =>
    obtain rfl := Option.some.inj h
    exact .reset
  | tick ms =>
    obtain rfl := Option.some.inj h
    exact .tick ms

/-- The loop about to start: STARTED is the only frame sent, nothing of the session's output
is read, whatever it has written or closed so far. -/
structure State.Initial (s : State) : Prop where
  pc : s.pc = .reap
  connOpen : s.connOpen = true
  killed : s.killed = false
  killSentAt : s.killSentAt = none
  opened : ∀ fd, s.opened fd = true
  result : s.result = none
  artReader : s.artReader = []
  artifacts : s.artifacts = []
  streams : ∀ fd, (s.streams fd).read = [] ∧ (s.streams fd).failed = false
  meant : ∃ started, s.meant = [⟨0x10, started⟩] ∧ started.length ≤ maxFramePayload
  outbox : s.outbox.bytes = s.meant.flatMap Frame.bytes

/-- The loop of a session that has not written, on a connection with `cap` bytes of buffer. -/
def State.start (cap : ℕ) (leaf : Bool) : State where
  pc := .reap
  connOpen := true
  killSentAt := none
  killAttempts := 0
  opened _ := true
  stdinOpen := true
  lastCpuPush := 0
  lastCpuMs := none
  result := none
  reader := []
  artReader := []
  artifacts := []
  leaf := leaf
  inbox := .empty 65536
  outbox := { ByteStream.empty cap with read := Frame.bytes ⟨0x10, []⟩ }
  stdin := .empty 65536
  streams _ := .empty 212992
  exit := none
  clock := 0
  killed := false
  meant := [⟨0x10, []⟩]

theorem start_initial (cap : ℕ) (leaf : Bool) : (State.start cap leaf).Initial where
  pc := rfl
  connOpen := rfl
  killed := rfl
  killSentAt := rfl
  opened _ := rfl
  result := rfl
  artReader := rfl
  artifacts := rfl
  streams _ := ⟨rfl, rfl⟩
  meant := ⟨[], rfl, Nat.zero_le _⟩
  outbox := rfl

/-- One step of the agent that sees only these output sockets ready, and no CPU reading. -/
def Act.pass (fds : List Fd) (leafEmpty : Bool) : Act :=
  .agent ⟨⟨false, (· ∈ fds)⟩, none, leafEmpty⟩

/-- The frame that the next step of the agent hands to `emit`. -/
def State.emission (s : State) (o : Observed) : Option Frame :=
  match s.pc with
  | .child fd ready =>
    if s.opened fd && ready.child fd then
      match (s.streams fd).recv recvMax with
      | (.data bs, _) => fd.frame bs
      | _ => none
    else none
  | .cpu => if 100 ≤ s.clock - s.lastCpuPush then s.cpuPush o.cpu else none
  | .terminal _ => if s.result.isSome && s.drained then s.cpuPush o.cpu else none
  | _ => none

theorem State.emission_of_data {s : State} {o : Observed} {fd : Fd} {ready : Ready}
    {bs : List UInt8} {stream : ByteStream} (hpc : s.pc = .child fd ready)
    (hc : (s.opened fd && ready.child fd) = true)
    (hr : (s.streams fd).recv recvMax = (.data bs, stream)) : s.emission o = fd.frame bs := by
  unfold State.emission
  rw [hpc]
  dsimp only
  rw [if_pos hc, hr]

/-- The frame that a step hands to `emit`. -/
def State.emits (s : State) : Act → Option Frame
  | .agent o => s.emission o
  | _ => none

end CodeRunner.Relay
