import CodeRunner.Lib.Encoding
import CodeRunner.Lib.Fallible
import CodeRunner.Relay.Codec
import CodeRunner.Zygote.Hello

/-! # A job of the agent from its HELLO to its EXIT

`handle_job` once the HELLO is complete. Each step may raise, and the handlers at the end tell the
worker with an EXIT frame, or do not.
-/

namespace CodeRunner.Zygote

open Fallible Relay

/-- An `Exception` with its text, in the classes that the handlers tell apart: `closed` are
`BrokenPipeError` and `ConnectionResetError`. -/
inductive Exn where
  | closed (text : String)
  | osError (text : String)
  | other (text : String)
  deriving DecidableEq, Repr

def Exn.text : Exn → String
  | .closed text | .osError text | .other text => text

/-- Whether `except OSError` catches it. -/
def Exn.isOSError : Exn → Bool
  | .closed _ | .osError _ => true
  | .other _ => false

/-- Whether the first handler of `handle_job` takes it. -/
def Exn.isClosed : Exn → Bool
  | .closed _ => true
  | .osError _ | .other _ => false

def tStarted : UInt8 := 0x10

def startedFrame (realpid : ℕ) (cgroupEnforced : Bool) : Frame :=
  ⟨tStarted, jsonBytes ("\x7b\"realpid\": " ++ realpid.repr ++ ", \"cgroupEnforced\": " ++
    jsonBool cgroupEnforced ++ "\x7d")⟩

def unicodeEscape (n : ℕ) : List Char :=
  ['\\', 'u', Hex.digit (n / 4096 % 16), Hex.digit (n / 256 % 16), Hex.digit (n / 16 % 16),
    Hex.digit (n % 16)]

/-- A character in a string of `json.dumps`, which is ASCII. -/
def jsonEscape (c : Char) : List Char :=
  if c = '"' ∨ c = '\\' then ['\\', c]
  else if c = '\n' then ['\\', 'n']
  else if c = '\r' then ['\\', 'r']
  else if c = '\t' then ['\\', 't']
  else if c.toNat = 0x08 then ['\\', 'b']
  else if c.toNat = 0x0c then ['\\', 'f']
  else if 0x20 ≤ c.toNat ∧ c.toNat ≤ 0x7e then [c]
  else if c.toNat < 0x10000 then unicodeEscape c.toNat
  else
    unicodeEscape (0xd800 + (c.toNat - 0x10000) / 0x400) ++
      unicodeEscape (0xdc00 + (c.toNat - 0x10000) % 0x400)

/-- The EXIT frame of the last handler, with `str(e)`. -/
def errorFrame (text : String) : Frame :=
  ⟨tExit, jsonBytes ("\x7b\"exitCode\": null, \"signal\": null, \"error\": \"" ++
    String.ofList (text.toList.flatMap jsonEscape) ++ "\"\x7d")⟩

/-- What the agent does to the connection and to sessions: `torn` is a send that raises after some
bytes, and `kill` is SIGKILL. -/
inductive Event where
  | send (f : Frame)
  | torn (f : Frame) (sent : ℕ)
  | fork (pid : ℕ)
  | kill (pid : ℕ)
  | close
  deriving DecidableEq, Repr

/-- The locals of `handle_job` that its handlers read, and whether the connection blocks. -/
structure Job where
  realpid : Option ℕ
  started : Bool
  exited : Bool
  blocking : Bool
  trace : List Event
  deriving DecidableEq, Repr

def Job.start : Job := ⟨none, false, false, true, []⟩

def Job.event (job : Job) (e : Event) : Job := { job with trace := job.trace ++ [e] }

abbrev Py := EStateM Exn Job

structure Fault where
  sent : ℕ
  exn : Exn
  deriving DecidableEq, Repr

/-- How `spawn_session` ends. It fails on an `ERR` message of the intermediate or on none; the
intermediate may have forked the session by then. -/
inductive Spawned where
  | returned (realpid : ℕ)
  | raised (e : Exn)
  | failed (message : String) (session : Option ℕ)

/-- A frame of `relay_loop`. When the buffer is full, only its beginning is sent. -/
structure Emission where
  frame : Frame
  noExit : frame.ftype ≠ tExit
  cut : Option ℕ

inductive SocketPair where
  | stdin
  | stdout
  | stderr
  | art
  deriving DecidableEq, Repr

/-- What the steps of `handle_job` meet, for any one job. The worker reads the connection, so that
a blocking send completes unless the kernel fails it; `room` is what a send that does not block
finds in the buffer. -/
structure Env where
  uidBase : ℤ
  n : ℕ
  loads : Except Exn Hello
  socketpair : SocketPair → Option Exn
  spawn : JobParams → Spawned
  leaf : ℕ → JobParams → Bool
  startedFault : Option Fault
  relayed : List Emission
  relay : Except Exn (ExitStatus × List Artifact)
  artifactFault : ℕ → Option Fault
  room : ℕ
  exitFault : Option Fault

def Event.bytes : Event → List UInt8
  | .send f => f.bytes
  | .torn f sent => f.bytes.take sent
  | .fork _ | .kill _ | .close => []

def Job.sent (job : Job) : List UInt8 := job.trace.flatMap Event.bytes

def emit (e : Event) : Py Unit := modify (·.event e)

def raise : Option Exn → Py Unit
  | some e => throw e
  | none => pure ()

def spawnSession : Spawned → Py ℕ
  | .returned realpid => do
    emit (.fork realpid)
    return realpid
  | .raised e => throw e
  | .failed message session => do
    match session with
    | some pid => emit (.fork pid)
    | none => pure ()
    throw (.other s!"session spawn failed: {message}")

def Emission.event (e : Emission) : Event :=
  match e.cut with
  | none => .send e.frame
  | some n => .torn e.frame n

namespace Env

variable (env : Env)

/-- `send_frame` and `send_json`. -/
def sendFrame (f : Frame) (fault : Option Fault) : Py Unit := do
  match fault with
  | some fault =>
    emit (.torn f fault.sent)
    throw fault.exn
  | none =>
    if (← get).blocking ∨ f.bytes.length ≤ env.room then emit (.send f)
    else
      emit (.torn f env.room)
      throw (.osError "[Errno 11] Resource temporarily unavailable")

/-- `relay_loop`, which leaves the connection without blocking. -/
def relayLoop : Py (ExitStatus × List Artifact) := do
  modify fun job => { job with blocking := false, trace := job.trace ++ env.relayed.map (·.event) }
  match env.relay with
  | .error e => throw e
  | .ok r => return r

/-- The `try` of `_send_artifacts`: whether the frame was sent. -/
def trySend (f : Frame) (fault : Option Fault) : Py Bool :=
  tryCatch (do env.sendFrame f fault; return true) fun e =>
    if e.isOSError then return false else throw e

/-- The loop of `_send_artifacts`, at the artifact numbered `i`. -/
def sendArtifactsLoop (i : ℕ) (truncated : Bool) : List Artifact → Py Bool
  | [] => return truncated
  | a :: artifacts =>
    if maxFramePayload < 4 + (encodeName a.name).length + a.data.length then
      sendArtifactsLoop (i + 1) true artifacts
    else do
      let sent ← env.trySend a.frame (env.artifactFault i)
      if sent then sendArtifactsLoop (i + 1) truncated artifacts else return true

def sendArtifacts (artifacts : List Artifact) : Py Bool := do
  modify fun job => { job with blocking := true }
  env.sendArtifactsLoop 0 false artifacts

def readParams : Py JobParams :=
  match env.loads with
  | .error e => throw e
  | .ok hello => return readHello hello env.uidBase env.n

def openPairs : Py Unit := do
  raise (env.socketpair .stdin)
  raise (env.socketpair .stdout)
  raise (env.socketpair .stderr)
  raise (env.socketpair .art)

def openJob : Py Unit := do
  let params ← env.readParams
  env.openPairs
  let realpid ← spawnSession (env.spawn params)
  modify fun job => { job with realpid := some realpid }
  env.sendFrame (startedFrame realpid (env.leaf realpid params)) env.startedFault
  modify fun job => { job with started := true }

/-- From `relay_loop` to EXIT. -/
def concludeJob : Py Unit := do
  let (status, artifacts) ← env.relayLoop
  let truncated ← env.sendArtifacts artifacts
  modify fun job => { job with exited := true }
  env.sendFrame (exitFrame status truncated) env.exitFault

/-- The handlers of `handle_job`. -/
def handle (job : Job) (e : Exn) : Job :=
  if e.isClosed then job
  else if job.started && !job.exited then
    match env.sendFrame (errorFrame e.text) env.exitFault job with
    | .ok _ job | .error _ job => job
  else job

/-- `cleanup` and the close of the connection. -/
def finish (job : Job) : Job :=
  let job := match job.realpid with
    | some pid => job.event (.kill pid)
    | none => job
  job.event .close

/-- `handle_job` on a connection whose HELLO is complete. -/
def handleJob : Job :=
  match (do env.openJob; env.concludeJob : Py Unit) Job.start with
  | .ok _ job => finish job
  | .error e job => finish (env.handle job e)

/-- `f` has the status of the job, or an error that the worker takes for one. -/
def Reports (f : Frame) : Prop :=
  (∃ text, text ≠ "" ∧ f = errorFrame text) ∨
    ∃ status artifacts truncated, env.relay = .ok (status, artifacts) ∧
      f = exitFrame status truncated

end Env

def Event.isExit : Event → Bool
  | .send f => f.ftype = tExit
  | _ => false

/-- One EXIT frame is sent before the connection is closed, and no session is left. -/
structure EndsInExit (env : Env) : Prop where
  exit : ∃ before f, env.handleJob.trace = before ++ [.close] ∧ .close ∉ before ∧
    before.filter Event.isExit = [.send f] ∧ env.Reports f
  killed : ∀ pid, .fork pid ∈ env.handleJob.trace →
    List.Sublist [.fork pid, .kill pid] env.handleJob.trace

/-- The last handler takes the exception, and its text is not empty. -/
def Exn.Reportable (e : Exn) : Prop := e.isClosed = false ∧ e.text ≠ ""

/-- No step before STARTED raises. -/
def Env.Opens (env : Env) (realpid : ℕ) (hello : Hello) : Prop :=
  env.loads = .ok hello ∧ (∀ s, env.socketpair s = none) ∧
    env.spawn (readHello hello env.uidBase env.n) = .returned realpid ∧ env.startedFault = none

def Env.started (env : Env) (realpid : ℕ) (hello : Hello) : Frame :=
  startedFrame realpid (env.leaf realpid (readHello hello env.uidBase env.n))

/-- The exception of the first send of an artifact that fails, when it is no `OSError`. -/
def Env.artifactError (env : Env) (i : ℕ) : List Artifact → Option Exn
  | [] => none
  | a :: artifacts =>
    if maxFramePayload < 4 + (encodeName a.name).length + a.data.length then
      env.artifactError (i + 1) artifacts
    else
      match env.artifactFault i with
      | none => env.artifactError (i + 1) artifacts
      | some fault => if fault.exn.isOSError then none else some fault.exn

/-- What raises is `relay_loop` with room in the buffer for the error, or an artifact that fails
with another exception than `OSError`, or nothing. -/
def Env.Concludes (env : Env) : Prop :=
  match env.relay with
  | .error e => e.Reportable ∧ (errorFrame e.text).bytes.length ≤ env.room
  | .ok (_, artifacts) => ∀ e ∈ env.artifactError 0 artifacts, e.Reportable

/-- The artifacts that the session left. -/
def Env.artifacts (env : Env) : List Artifact :=
  match env.relay with
  | .error _ => []
  | .ok (_, artifacts) => artifacts

/-- `_send_artifacts` skips one of them. -/
def leavesOut (artifacts : List Artifact) : Bool := artifacts.any fun a => !decide a.Fits

/-- The EXIT frame of a job that tells: with what was raised, or with the status. -/
def Env.ConcludesWith (env : Env) (f : Frame) : Prop :=
  match env.relay with
  | .error e => f = errorFrame e.text
  | .ok (status, artifacts) =>
    match env.artifactError 0 artifacts with
    | some e => f = errorFrame e.text
    | none => ∃ truncated, f = exitFrame status truncated ∧
      ((∀ i, env.artifactFault i = none) → truncated = leavesOut artifacts)

def Env.Falters (env : Env) (job : Job) : Prop :=
  job.sent = [] ∨ ∃ realpid hello fault, env.startedFault = some fault ∧
    env.spawn (readHello hello env.uidBase env.n) = .returned realpid ∧
    job.sent = (env.started realpid hello).bytes.take fault.sent

def Event.Plain : Event → Prop
  | .send f => f.ftype ≠ tExit
  | .torn .. => True
  | _ => False

variable {env : Env} {job : Job} {f : Frame} {realpid : ℕ} {hello : Hello} {e : Exn}

theorem sendFrame_blocking (h : job.blocking = true) :
    env.sendFrame f none job = .ok () (job.event (.send f)) := by
  change (if job.blocking = true ∨ _ then emit (.send f) else _ : Py Unit) job = _
  rw [if_pos (.inl h)]
  rfl

theorem sendFrame_room (h : f.bytes.length ≤ env.room) :
    env.sendFrame f none job = .ok () (job.event (.send f)) := by
  change (if _ ∨ f.bytes.length ≤ env.room then emit (.send f) else _ : Py Unit) job = _
  rw [if_pos (.inr h)]
  rfl

theorem sendFrame_full (hjob : job.blocking = false) (h : ¬ f.bytes.length ≤ env.room) :
    ∃ exn, env.sendFrame f none job = .error exn (job.event (.torn f env.room)) := by
  refine ⟨.osError "[Errno 11] Resource temporarily unavailable", ?_⟩
  have hneg : ¬ (job.blocking = true ∨ f.bytes.length ≤ env.room) := by simp [hjob, h]
  change (if job.blocking = true ∨ f.bytes.length ≤ env.room then emit (.send f) else
    (do emit (.torn f env.room); throw _) : Py Unit) job = _
  rw [if_neg hneg]
  rfl

theorem sendFrame_fault {fault : Fault} :
    env.sendFrame f (some fault) job = .error fault.exn (job.event (.torn f fault.sent)) := rfl

theorem readParams_error (h : env.loads = .error e) : env.readParams job = .error e job := by
  rw [Env.readParams, h]
  rfl

theorem readParams_ok (h : env.loads = .ok hello) :
    env.readParams job = .ok (readHello hello env.uidBase env.n) job := by
  rw [Env.readParams, h]
  rfl

theorem openPairs_ok (h : ∀ s, env.socketpair s = none) : env.openPairs job = .ok () job := by
  simp only [Env.openPairs, h]
  rfl

theorem openPairs_error (job : Job) (h : ¬ ∀ s, env.socketpair s = none) :
    ∃ e, env.openPairs job = .error e job := by
  unfold Env.openPairs
  cases hin : env.socketpair .stdin with
  | some e => exact ⟨e, rfl⟩
  | none =>
    cases hout : env.socketpair .stdout with
    | some e => exact ⟨e, rfl⟩
    | none =>
      cases herr : env.socketpair .stderr with
      | some e => exact ⟨e, rfl⟩
      | none =>
        cases hart : env.socketpair .art with
        | some e => exact ⟨e, rfl⟩
        | none =>
          refine absurd (fun s => ?_) h
          cases s <;> assumption

theorem openJob_eq (h : env.Opens realpid hello) :
    env.openJob Job.start = .ok () ⟨some realpid, true, false, true,
      [.fork realpid, .send (env.started realpid hello)]⟩ := by
  obtain ⟨hhello, hpair, hspawn, hfault⟩ := h
  unfold Env.openJob
  rw [bind_of_ok (readParams_ok hhello), bind_of_ok (openPairs_ok hpair), hspawn, hfault]
  rfl

theorem openJob_error (h : ∀ realpid hello, ¬ env.Opens realpid hello) :
    ∃ e job, env.openJob Job.start = .error e job ∧ job.started = false ∧
      (∀ x ∈ job.trace, x.isExit = false) ∧ env.Falters job := by
  unfold Env.openJob
  cases hloads : env.loads with
  | error e => exact ⟨e, .start, bind_of_error (readParams_error hloads), rfl, nofun, .inl rfl⟩
  | ok hello =>
    rw [bind_of_ok (readParams_ok hloads)]
    by_cases hpair : ∀ s, env.socketpair s = none
    · rw [bind_of_ok (openPairs_ok hpair)]
      cases hspawn : env.spawn (readHello hello env.uidBase env.n) with
      | raised e => exact ⟨e, .start, rfl, rfl, nofun, .inl rfl⟩
      | failed message session =>
        cases session with
        | none => exact ⟨_, .start, rfl, rfl, nofun, .inl rfl⟩
        | some pid =>
          exact ⟨_, Job.start.event (.fork pid), rfl, rfl,
            by simp [Job.event, Job.start, Event.isExit], .inl rfl⟩
      | returned realpid =>
        cases hfault : env.startedFault with
        | none => exact absurd ⟨hloads, hpair, hspawn, hfault⟩ (h realpid hello)
        | some fault =>
          refine ⟨_, _, rfl, rfl, by simp [Job.event, Job.start, Event.isExit], .inr ?_⟩
          exact ⟨realpid, hello, fault, hfault, hspawn, by
            simp [Job.sent, Job.event, Job.start, Event.bytes, Env.started]⟩
    · obtain ⟨e, he⟩ := openPairs_error .start hpair
      exact ⟨e, .start, bind_of_error he, rfl, nofun, .inl rfl⟩

theorem plain_relayed : ∀ x ∈ env.relayed.map (·.event), x.Plain := by
  intro x hx
  obtain ⟨⟨frame, hframe, cut⟩, -, rfl⟩ := List.mem_map.mp hx
  cases cut with
  | none => exact hframe
  | some n => trivial

theorem plain_artifact (a : Artifact) : (Event.send a.frame).Plain := by
  change tArtifact ≠ tExit
  decide

theorem trySend_ok (hjob : job.blocking = true) :
    env.trySend f none job = .ok true (job.event (.send f)) := by
  have hsend : (do env.sendFrame f none; return true : Py Bool) job =
      .ok true (job.event (.send f)) := by
    rw [bind_of_ok (sendFrame_blocking hjob)]
    rfl
  change EStateM.tryCatch _ _ job = _
  rw [EStateM.tryCatch, hsend]

theorem trySend_fault {fault : Fault} :
    env.trySend f (some fault) job =
      if fault.exn.isOSError then .ok false (job.event (.torn f fault.sent))
      else .error fault.exn (job.event (.torn f fault.sent)) := by
  change (if fault.exn.isOSError then return false else throw fault.exn : Py Bool)
    (job.event (.torn f fault.sent)) = _
  split <;> rfl

/-- The artifacts that `_send_artifacts` does not skip. -/
def offered (artifacts : List Artifact) : List Event :=
  (artifacts.filter fun a => a.Fits).map fun a => .send a.frame

theorem offered_skip {a : Artifact} {artifacts : List Artifact}
    (h : maxFramePayload < 4 + (encodeName a.name).length + a.data.length) :
    offered (a :: artifacts) = offered artifacts := by
  have hfits : ¬ a.Fits := Nat.not_le.mpr h
  simp [offered, hfits]

theorem offered_cons {a : Artifact} {artifacts : List Artifact}
    (h : ¬ maxFramePayload < 4 + (encodeName a.name).length + a.data.length) :
    offered (a :: artifacts) = .send a.frame :: offered artifacts := by
  have hfits : a.Fits := Nat.le_of_not_lt h
  simp [offered, hfits]

theorem leavesOut_skip {a : Artifact} {artifacts : List Artifact}
    (h : maxFramePayload < 4 + (encodeName a.name).length + a.data.length) :
    leavesOut (a :: artifacts) = true := by
  have hfits : ¬ a.Fits := Nat.not_le.mpr h
  simp [leavesOut, hfits]

theorem leavesOut_cons {a : Artifact} {artifacts : List Artifact}
    (h : ¬ maxFramePayload < 4 + (encodeName a.name).length + a.data.length) :
    leavesOut (a :: artifacts) = leavesOut artifacts := by
  have hfits : a.Fits := Nat.le_of_not_lt h
  simp [leavesOut, hfits]

theorem sendArtifactsLoop_eq (env : Env) (job : Job) (hjob : job.blocking = true) (i : ℕ)
    (truncated : Bool) (artifacts : List Artifact) :
    ∃ sent : List Event, (∀ x ∈ sent, x.Plain) ∧
      ((∀ j, env.artifactFault j = none) → sent = offered artifacts) ∧
      (∀ e, env.artifactError i artifacts = some e →
        env.sendArtifactsLoop i truncated artifacts job =
          .error e { job with trace := job.trace ++ sent }) ∧
      (env.artifactError i artifacts = none →
        ∃ truncated', env.sendArtifactsLoop i truncated artifacts job =
            .ok truncated' { job with trace := job.trace ++ sent } ∧
          ((∀ j, env.artifactFault j = none) →
            truncated' = (truncated || leavesOut artifacts))) := by
  induction artifacts generalizing job i truncated with
  | nil =>
    refine ⟨[], nofun, fun _ => rfl, nofun,
      fun _ => ⟨truncated, ?_, fun _ => (Bool.or_false _).symm⟩⟩
    rw [List.append_nil]
    rfl
  | cons a artifacts ih =>
    by_cases hcap : maxFramePayload < 4 + (encodeName a.name).length + a.data.length
    · simp only [Env.artifactError, Env.sendArtifactsLoop, if_pos hcap]
      rw [offered_skip hcap]
      obtain ⟨sent, hsent, hoffered, herror, hok⟩ := ih job hjob (i + 1) true
      refine ⟨sent, hsent, hoffered, herror, fun hnone => ?_⟩
      obtain ⟨truncated', hloop, htruncated⟩ := hok hnone
      refine ⟨truncated', hloop, fun h => ?_⟩
      rw [htruncated h, leavesOut_skip hcap, Bool.true_or, Bool.or_true]
    · simp only [Env.artifactError, Env.sendArtifactsLoop, if_neg hcap]
      cases hfault : env.artifactFault i with
      | none =>
        obtain ⟨sent, hsent, hoffered, herror, hok⟩ :=
          ih (job.event (.send a.frame)) hjob (i + 1) truncated
        rw [bind_of_ok (trySend_ok hjob), if_pos rfl]
        refine ⟨.send a.frame :: sent, List.forall_mem_cons.mpr ⟨plain_artifact a, hsent⟩,
          fun h => ?_, ?_, ?_⟩
        · rw [offered_cons hcap, hoffered h]
        · simpa only [Job.event, List.append_assoc, List.singleton_append] using herror
        · simpa only [Job.event, List.append_assoc, List.singleton_append,
            leavesOut_cons hcap] using hok
      | some fault =>
        refine ⟨[.torn a.frame fault.sent], List.forall_mem_singleton.mpr trivial,
          fun h => ?_, ?_, ?_⟩
        · rw [h i] at hfault
          cases hfault
        · intro e he
          obtain ⟨hos, he⟩ := Option.ite_none_left_eq_some.mp he
          obtain rfl := Option.some.inj he
          exact bind_of_error (trySend_fault.trans (if_neg hos))
        · intro hnone
          have hos : fault.exn.isOSError = true := by simpa using hnone
          rw [bind_of_ok (trySend_fault.trans (if_pos hos))]
          refine ⟨true, rfl, fun h => ?_⟩
          rw [h i] at hfault
          cases hfault

theorem relayLoop_error (h : env.relay = .error e) :
    env.relayLoop job = .error e
      { job with blocking := false, trace := job.trace ++ env.relayed.map (·.event) } := by
  unfold Env.relayLoop
  rw [h]
  rfl

theorem relayLoop_ok {r : ExitStatus × List Artifact} (h : env.relay = .ok r) :
    env.relayLoop job = .ok r
      { job with blocking := false, trace := job.trace ++ env.relayed.map (·.event) } := by
  unfold Env.relayLoop
  rw [h]
  rfl

/-- The steps after STARTED raise what an artifact raises, or come to the last EXIT. -/
theorem concludeJob_eq {status : ExitStatus} {artifacts : List Artifact} (job : Job)
    (h : env.relay = .ok (status, artifacts)) :
    ∃ sent : List Event, (∀ x ∈ sent, x.Plain) ∧
      ((∀ j, env.artifactFault j = none) →
        sent = env.relayed.map (·.event) ++ offered artifacts) ∧
      (∀ e, env.artifactError 0 artifacts = some e →
        env.concludeJob job =
          .error e { job with blocking := true, trace := job.trace ++ sent }) ∧
      (env.artifactError 0 artifacts = none →
        ∃ truncated, env.concludeJob job =
            env.sendFrame (exitFrame status truncated) env.exitFault
              { job with blocking := true, exited := true, trace := job.trace ++ sent } ∧
          ((∀ j, env.artifactFault j = none) → truncated = leavesOut artifacts)) := by
  obtain ⟨sent, hsent, hoffered, herror, hok⟩ := sendArtifactsLoop_eq env { job with
    blocking := true, trace := job.trace ++ env.relayed.map (·.event) } rfl 0 false artifacts
  refine ⟨env.relayed.map (·.event) ++ sent,
    List.forall_mem_append.mpr ⟨plain_relayed, hsent⟩, fun h => by rw [hoffered h],
    fun e he => ?_, fun hnone => ?_⟩
  · rw [Env.concludeJob, bind_of_ok (relayLoop_ok h)]
    have hloop := herror e he
    rw [List.append_assoc] at hloop
    exact bind_of_error hloop
  · obtain ⟨truncated, hloop, htruncated⟩ := hok hnone
    rw [List.append_assoc] at hloop
    refine ⟨truncated, ?_, fun h => (htruncated h).trans (Bool.false_or _)⟩
    rw [Env.concludeJob, bind_of_ok (relayLoop_ok h)]
    exact bind_of_ok hloop

theorem jsonEscape_ne_nil (c : Char) : jsonEscape c ≠ [] := by
  unfold jsonEscape
  repeat' split
  all_goals nofun

theorem errorFrame_length (text : String) :
    (errorFrame text).payload.length = 47 + (text.toList.flatMap jsonEscape).length := by
  have hopen : "\x7b\"exitCode\": null, \"signal\": null, \"error\": \"".length = 45 := by decide
  have hclose : "\"\x7d".length = 2 := by decide
  simp only [errorFrame, jsonBytes, List.length_map, String.toList_append, List.length_append,
    String.length_toList, hopen, hclose, String.toList_ofList]
  omega

theorem exitFrame_longer (status : ExitStatus) (truncated : Bool) :
    50 ≤ (exitFrame status truncated).payload.length := by
  have hcode : "\x7b\"exitCode\": ".length = 13 := by decide
  have hsignal : ", \"signal\": ".length = 12 := by decide
  have htruncated : ", \"artifactsTruncated\": ".length = 24 := by decide
  have hclose : "\x7d".length = 1 := by decide
  simp only [exitFrame, jsonBytes, List.length_map, String.toList_append, List.length_append,
    String.length_toList, hcode, hsignal, htruncated, hclose]
  omega

theorem reports_errorFrame {text : String} : env.Reports (errorFrame text) ↔ text ≠ "" := by
  constructor
  · intro h htext
    have hlen : (errorFrame text).payload.length = 47 := by
      rw [errorFrame_length, htext]
      rfl
    rcases h with ⟨text', hne, heq⟩ | ⟨status, artifacts, truncated, -, heq⟩
    · rw [heq, errorFrame_length] at hlen
      have hnil : text'.toList.flatMap jsonEscape = [] := List.length_eq_zero_iff.mp (by omega)
      cases hchars : text'.toList with
      | nil => exact hne (String.toList_eq_nil_iff.mp hchars)
      | cons c cs =>
        rw [hchars, List.flatMap_cons, List.append_eq_nil_iff] at hnil
        exact jsonEscape_ne_nil c hnil.1
    · have hle := exitFrame_longer status truncated
      rw [← heq, hlen] at hle
      omega
  · exact fun h => .inl ⟨text, h, rfl⟩

def Env.Takes (env : Env) (job : Job) (text : String) : Prop :=
  env.exitFault = none ∧ (job.blocking = true ∨ (errorFrame text).bytes.length ≤ env.room)

theorem handle_sends (hstarted : job.started = true) (hexited : job.exited = false)
    (hclosed : e.isClosed = false) (htakes : env.Takes job e.text) :
    env.handle job e = job.event (.send (errorFrame e.text)) := by
  obtain ⟨hfault, hroom⟩ := htakes
  have hsend : env.sendFrame (errorFrame e.text) none job =
      .ok () (job.event (.send (errorFrame e.text))) := by
    rcases hroom with hroom | hroom
    · exact sendFrame_blocking hroom
    · exact sendFrame_room hroom
  simp only [Env.handle, hclosed, hstarted, hexited, hfault, hsend]
  rfl

theorem handle_silent (h : e.isClosed = false → ¬ env.Takes job e.text) :
    ∃ tail : List Event, env.handle job e = { job with trace := job.trace ++ tail } ∧
      ∀ x ∈ tail, x.Plain := by
  have hsame : ∃ tail : List Event, job = { job with trace := job.trace ++ tail } ∧
      ∀ x ∈ tail, x.Plain := ⟨[], by rw [List.append_nil], nofun⟩
  unfold Env.handle
  split
  · exact hsame
  · next hclosed =>
    split
    · cases hfault : env.exitFault with
      | some fault => exact ⟨[.torn _ fault.sent], rfl, List.forall_mem_singleton.mpr trivial⟩
      | none =>
        have hfull : ¬ (job.blocking = true ∨ (errorFrame e.text).bytes.length ≤ env.room) :=
          fun hroom => h (eq_false_of_ne_true hclosed) ⟨hfault, hroom⟩
        obtain ⟨hblocking, hroom⟩ := not_or.mp hfull
        obtain ⟨exn, hsend⟩ := sendFrame_full (eq_false_of_ne_true hblocking) hroom
        rw [hsend]
        exact ⟨[.torn _ env.room], rfl, List.forall_mem_singleton.mpr trivial⟩
    · exact hsame

theorem handle_done (h : job.started = false ∨ job.exited = true) : env.handle job e = job := by
  unfold Env.handle
  rcases h with h | h <;> simp [h]

def Env.Told (env : Env) (tail : List Event) : Prop :=
  ∃ f, tail = [.send f] ∧ f.ftype = tExit ∧ env.Reports f

def Env.Untold (env : Env) (tail : List Event) : Prop :=
  ∀ x ∈ tail, x.Plain ∨ ∃ f, x = .send f ∧ ¬ env.Reports f

theorem finish_trace (job : Job) (h : job.realpid = some realpid) :
    (Env.finish job).trace = job.trace ++ [.kill realpid, .close] := by
  rw [Env.finish, h]
  exact List.append_assoc ..

/-- `cleanup` sends nothing. -/
theorem finish_sent (job : Job) : (Env.finish job).sent = job.sent := by
  rw [Env.finish]
  cases job.realpid <;> simp [Job.sent, Job.event, Event.bytes]

/-- After STARTED an exception is told exactly if it is reportable and the connection takes it. -/
theorem handle_trace (env : Env) (job : Job) (e : Exn) (hpid : job.realpid = some realpid)
    (hstarted : job.started = true) (hexited : job.exited = false) :
    ∃ tail : List Event, (Env.finish (env.handle job e)).trace =
        job.trace ++ tail ++ [.kill realpid, .close] ∧
      (e.Reportable ∧ env.Takes job e.text → env.Told tail) ∧
      (¬ (e.Reportable ∧ env.Takes job e.text) → env.Untold tail) ∧
      (e.Reportable ∧ env.Takes job e.text → tail = [.send (errorFrame e.text)]) := by
  by_cases hsends : e.isClosed = false ∧ env.Takes job e.text
  · obtain ⟨hclosed, htakes⟩ := hsends
    refine ⟨[.send (errorFrame e.text)], ?_, fun h => ?_, fun h => ?_, fun _ => rfl⟩
    · rw [handle_sends hstarted hexited hclosed htakes]
      exact finish_trace (job.event _) hpid
    · exact ⟨_, rfl, rfl, reports_errorFrame.mpr h.1.2⟩
    · refine List.forall_mem_singleton.mpr (.inr ⟨_, rfl, fun hreports => ?_⟩)
      exact h ⟨⟨hclosed, reports_errorFrame.mp hreports⟩, htakes⟩
  · obtain ⟨tail, hhandle, htail⟩ := handle_silent (not_and.mp hsends)
    refine ⟨tail, ?_, fun h => absurd ⟨h.1.1, h.2⟩ hsends, fun _ x hx => .inl (htail x hx),
      fun h => absurd ⟨h.1.1, h.2⟩ hsends⟩
    rw [hhandle]
    exact finish_trace { job with trace := job.trace ++ tail } hpid

/-- Nothing raises after STARTED, or what does is told. -/
def Env.Tells (env : Env) : Prop := env.exitFault = none ∧ env.Concludes

theorem handleJob_trace (h : env.Opens realpid hello) :
    ∃ early tail : List Event, env.handleJob.trace =
        .fork realpid :: early ++ tail ++ [.kill realpid, .close] ∧
      (∀ x ∈ early, x.Plain) ∧ (env.Tells → env.Told tail) ∧ (¬ env.Tells → env.Untold tail) ∧
      early.head? = some (.send (env.started realpid hello)) ∧
      (env.Tells → ∃ f, tail = [.send f] ∧ env.ConcludesWith f) ∧
      ((∀ j, env.artifactFault j = none) →
        early = .send (env.started realpid hello) :: env.relayed.map (·.event) ++
          offered env.artifacts) := by
  have hopen := openJob_eq h
  have hstarted : (Event.send (env.started realpid hello)).Plain := by
    change tStarted ≠ tExit
    decide
  set opened : Job := ⟨some realpid, true, false, true,
    [.fork realpid, .send (env.started realpid hello)]⟩ with hopened
  have hrun : (do env.openJob; env.concludeJob : Py Unit) .start = env.concludeJob opened :=
    bind_of_ok hopen
  unfold Env.handleJob
  rw [hrun]
  cases hrelay : env.relay with
  | error e =>
    have hconclude : env.concludeJob opened = .error e { opened with
        blocking := false, trace := opened.trace ++ env.relayed.map (·.event) } :=
      bind_of_error (relayLoop_error hrelay)
    rw [hconclude]
    obtain ⟨tail, htrace, htold, huntold, hlast⟩ := handle_trace env { opened with
      blocking := false, trace := opened.trace ++ env.relayed.map (·.event) } e rfl rfl rfl
    have htells : env.Tells ↔ e.Reportable ∧ env.Takes { opened with
        blocking := false, trace := opened.trace ++ env.relayed.map (·.event) } e.text := by
      simp only [Env.Tells, Env.Concludes, Env.Takes, hrelay]
      tauto
    rw [htells]
    refine ⟨.send (env.started realpid hello) :: env.relayed.map (Emission.event ·), tail, htrace,
      List.forall_mem_cons.mpr ⟨hstarted, plain_relayed⟩, htold, huntold, rfl,
      fun h => ⟨_, hlast h, by simp only [Env.ConcludesWith, hrelay]⟩, fun _ => ?_⟩
    rw [Env.artifacts, hrelay]
    exact (List.append_nil _).symm
  | ok r =>
    obtain ⟨status, artifacts⟩ := r
    obtain ⟨sent, hsent, hoffered, herror, hok⟩ := concludeJob_eq opened hrelay
    have hartifacts : env.artifacts = artifacts := by rw [Env.artifacts, hrelay]
    have hearly : (∀ j, env.artifactFault j = none) →
        .send (env.started realpid hello) :: sent =
          .send (env.started realpid hello) :: env.relayed.map (Emission.event ·) ++
            offered env.artifacts := by
      intro h
      rw [hoffered h, hartifacts, List.cons_append]
    cases hart : env.artifactError 0 artifacts with
    | some e =>
      rw [herror e hart]
      obtain ⟨tail, htrace, htold, huntold, hlast⟩ := handle_trace env { opened with
        blocking := true, trace := opened.trace ++ sent } e rfl rfl rfl
      have htells : env.Tells ↔ e.Reportable ∧ env.Takes { opened with
          blocking := true, trace := opened.trace ++ sent } e.text := by
        simp only [Env.Tells, Env.Concludes, Env.Takes, hrelay, hart, Option.mem_def,
          Option.some.injEq, forall_eq']
        tauto
      rw [htells]
      exact ⟨.send (env.started realpid hello) :: sent, tail, htrace,
        List.forall_mem_cons.mpr ⟨hstarted, hsent⟩, htold, huntold, rfl,
        fun h => ⟨_, hlast h, by simp only [Env.ConcludesWith, hrelay, hart]⟩, hearly⟩
    | none =>
      obtain ⟨truncated, hconclude, htruncated⟩ := hok hart
      rw [hconclude]
      have htells : env.Tells ↔ env.exitFault = none := by
        simp [Env.Tells, Env.Concludes, hrelay, hart]
      rw [htells]
      cases hfault : env.exitFault with
      | none =>
        rw [sendFrame_blocking rfl]
        refine ⟨.send (env.started realpid hello) :: sent,
          [.send (exitFrame status truncated)], ?_,
          List.forall_mem_cons.mpr ⟨hstarted, hsent⟩, fun _ => ?_, fun h => absurd rfl h, rfl,
          fun _ => ⟨_, rfl, ?_⟩, hearly⟩
        · exact finish_trace _ rfl
        · exact ⟨_, rfl, rfl, .inr ⟨status, artifacts, truncated, hrelay, rfl⟩⟩
        · rw [Env.ConcludesWith, hrelay]
          dsimp only
          rw [hart]
          exact ⟨truncated, rfl, htruncated⟩
      | some fault =>
        rw [sendFrame_fault]
        dsimp only
        rw [handle_done (.inr rfl)]
        refine ⟨.send (env.started realpid hello) :: sent,
          [.torn (exitFrame status truncated) fault.sent], ?_,
          List.forall_mem_cons.mpr ⟨hstarted, hsent⟩, nofun, fun _ => ?_, rfl, nofun, hearly⟩
        · exact finish_trace _ rfl
        · exact List.forall_mem_singleton.mpr (.inl trivial)

theorem EndsInExit.exists (h : EndsInExit env) :
    ∃ f, .send f ∈ env.handleJob.trace ∧ f.ftype = tExit ∧ env.Reports f := by
  obtain ⟨before, f, htrace, -, hfilter, hreports⟩ := h.exit
  have hmem : .send f ∈ before.filter Event.isExit := hfilter ▸ List.mem_singleton_self _
  obtain ⟨hbefore, hexit⟩ := List.mem_filter.mp hmem
  refine ⟨f, ?_, of_decide_eq_true hexit, hreports⟩
  rw [htrace]
  exact List.mem_append_left _ hbefore

theorem Event.Plain.isExit {x : Event} (h : x.Plain) : x.isExit = false := by
  cases x with
  | send f => exact decide_eq_false h
  | _ => rfl

theorem handleJob_unopened (h : ∀ realpid hello, ¬ env.Opens realpid hello) :
    (∀ x ∈ env.handleJob.trace, x.isExit = false) ∧ env.Falters env.handleJob := by
  obtain ⟨e, job, hopen, hstarted, hjob, hfalters⟩ := openJob_error h
  have hrun : (do env.openJob; env.concludeJob : Py Unit) .start = .error e job :=
    bind_of_error hopen
  unfold Env.handleJob
  rw [hrun]
  dsimp only
  rw [handle_done (.inl hstarted)]
  constructor
  · rw [Env.finish]
    cases job.realpid <;> simpa [Job.event, Event.isExit, or_imp, forall_and] using hjob
  · rw [Env.Falters, finish_sent]
    exact hfalters

/-- An EXIT ends the job exactly if no step before STARTED raises, and what raises after it is
told. -/
theorem endsInExit_iff (env : Env) :
    EndsInExit env ↔ (∃ realpid hello, env.Opens realpid hello) ∧ env.Tells := by
  constructor
  · intro h
    obtain ⟨f, hmem, hexit, hreports⟩ := h.exists
    by_cases hopens : ∃ realpid hello, env.Opens realpid hello
    · refine ⟨hopens, ?_⟩
      obtain ⟨realpid, hello, hopens⟩ := hopens
      obtain ⟨early, tail, htrace, hearly, -, huntold, -⟩ := handleJob_trace hopens
      by_contra htells
      have hin : .send f ∈ early ∨ .send f ∈ tail := by simpa [htrace] using hmem
      rcases hin with hin | hin
      · exact hearly _ hin hexit
      · rcases huntold htells _ hin with hplain | ⟨f', heq, hnot⟩
        · exact hplain hexit
        · obtain rfl := Event.send.inj heq
          exact hnot hreports
    · simp only [not_exists] at hopens
      have hnot := (handleJob_unopened hopens).1 _ hmem
      rw [Event.isExit, decide_eq_false_iff_not] at hnot
      exact absurd hexit hnot
  · rintro ⟨⟨realpid, hello, hopens⟩, htells⟩
    obtain ⟨early, tail, htrace, hearly, htold, -⟩ := handleJob_trace hopens
    obtain ⟨f, rfl, hexit, hreports⟩ := htold htells
    constructor
    · refine ⟨.fork realpid :: early ++ [.send f] ++ [.kill realpid], f, ?_, ?_, ?_, hreports⟩
      · rw [htrace, List.append_assoc _ [Event.kill realpid] _]
        rfl
      · have hclose : .close ∉ early := fun hmem => hearly _ hmem
        simp [hclose]
      · have hnone : early.filter Event.isExit = [] :=
          List.filter_eq_nil_iff.mpr fun x hx => by simp [(hearly x hx).isExit]
        simp [hnone, Event.isExit, hexit]
    · intro pid hmem
      have hpid : pid = realpid := by
        have hfork : .fork pid ∉ early := fun hmem => hearly _ hmem
        simpa [htrace, hfork] using hmem
      subst hpid
      rw [htrace]
      refine List.Sublist.cons_cons _ (List.singleton_sublist.mpr ?_)
      simp

/-- The intermediate may not unshare its pid namespace. -/
def spawnFails : Env where
  uidBase := 100000
  n := 0
  loads := .ok ⟨some "1", some "main.py", some [], some 100000, none, none, none⟩
  socketpair _ := none
  spawn _ := .failed "b'ERR [Errno 1] Operation not permitted'" none
  leaf _ _ := false
  startedFault := none
  relayed := []
  relay := .ok (⟨some 0, none⟩, [])
  artifactFault _ := none
  room := 65536
  exitFault := none

theorem spawn_failure_untold : ¬ EndsInExit spawnFails := by
  intro h
  obtain ⟨f, hmem, -⟩ := h.exists
  have htrace : spawnFails.handleJob.trace = [.close] := rfl
  rw [htrace, List.mem_singleton] at hmem
  cases hmem

end CodeRunner.Zygote
