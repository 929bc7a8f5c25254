import CodeRunner.Lib.Transition
import CodeRunner.Wire

/-! # The handler of one job

`runJobFromSpec` as a machine: its calls, the start handshake, the compile step, the
supervised session and the straight-line endings, next to the sandbox it creates and the
program inside it. The environment requests starts, sends control messages, cancels the
jobs context and lets time pass.
-/

namespace CodeRunner.Worker

/-- The types of `wire.ControlMessage`. -/
inductive Control | start | stdinClose | kill
  deriving DecidableEq, Repr

/-- The terminal states among those of `wire.JobState`. -/
inductive JobState | done | error | killed
  deriving DecidableEq, Repr

inductive Tier | docker | zygote
  deriving DecidableEq, Repr

/-- A claimed job. `eligible` is the routing predicate of `TieredRunner` with a zygote
runner configured, `marked` says that one of the files lands on the compile marker. -/
structure Job where
  spec : JobSpec
  eligible : Bool
  marked : Bool
  warmupMs : ℕ

/-- The statements of the endings: of the early returns, of `terminate` and of `teardown`. -/
inductive Effect where
  | closeStdinSub
  | closeCtrlSub
  | removeOwned
  | releaseSlot
  | releaseLeases
  | publishResult
  | writeStatus (state : JobState)
  | putArtifacts
  | writeRunResult
  | captureArtifacts
  | kill
  | cleanup
  | stopClocks
  deriving DecidableEq, Repr

/-- The single `sync.Once` teardown. The slot is released before the sandbox is cleaned up. -/
def teardown (job : Job) (state : JobState) : List Effect :=
  [.closeStdinSub, .closeCtrlSub, .removeOwned, .releaseSlot, .releaseLeases, .publishResult,
    .writeStatus state] ++
  (if job.spec.collectOutput = some true then [.putArtifacts, .writeRunResult] else []) ++
  [.cleanup]

/-- `session.terminate`; closing `done` stops the clocks. -/
def terminate : List Effect := [.captureArtifacts, .kill, .cleanup, .stopClocks]

def blobsFailed : List Effect :=
  [.releaseLeases, .closeStdinSub, .closeCtrlSub, .publishResult, .writeStatus .error,
    .releaseSlot]

def createFailed : List Effect :=
  [.removeOwned, .closeStdinSub, .closeCtrlSub, .releaseLeases, .publishResult,
    .writeStatus .error, .releaseSlot]

/-- Inside `Create`: the handshake of the zygote runner, and the calls of the Docker runner. The
last one follows on an error of the three before it. -/
inductive CreatePc where
  | dial
  | hello
  | started
  | containerCreate
  | copyFiles
  | attach
  | containerStart
  | containerRemove
  deriving DecidableEq, Repr

/-- Inside `Compile`: the exec, the marker exec, and the pause after it. -/
inductive CompilePc where
  | running
  | touching
  | pausing (wake : ℕ)
  deriving DecidableEq, Repr

/-- The call the handler is in. `deadline` is that of the warm-up timer, `since` the start of
the compile step and `wallMs` the wall budget left for the run. -/
inductive Pc where
  | readSpec
  | subscribe
  | subscribeControl
  | announceQueued
  | resolveBlobs
  | addOwned
  | create (pc : CreatePc)
  | startFlag (deadline : ℕ)
  | parked (deadline : ℕ)
  | compile (since : ℕ) (pc : CompilePc)
  | announceRunning (wallMs : ℤ)
  | session
  | ending (todo : List Effect)
  deriving DecidableEq, Repr

inductive Sandbox where
  | absent
  | building (tier : Tier)
  | created (tier : Tier)
  | cleaned
  deriving DecidableEq, Repr

/-- `Create` returns what it has built. -/
def Sandbox.complete : Sandbox → Sandbox
  | .building tier => .created tier
  | sandbox => sandbox

/-- What runs in the sandbox: the compile hold script, a forked child that has not reached
the user code, or the submitted program. -/
inductive Program where
  | absent
  | holding
  | spawning
  | executing
  | ended
  deriving DecidableEq, Repr

/-- The clocks of the session; the CPU clock polls and has no deadline. -/
inductive Clocks where
  | unarmed
  | armed (wall idle : ℕ)
  | stopped
  deriving DecidableEq, Repr

/-- `compileCtrlWatch`. -/
structure Watch where
  killed : Bool
  pending : List Control
  deriving DecidableEq, Repr

/-- `Err` of a context that is done. -/
inductive ContextErr | canceled | deadlineExceeded
  deriving DecidableEq, Repr

/-- `startSetAt` is when the start flag was last set. `compileErr` belongs to the context of the
compile step; `compiler` is set while a process of that step may be alive in the container. -/
structure Handler where
  job : Job
  pc : Pc
  clock : ℕ
  cancelled : Bool
  startSetAt : Option ℕ
  ctrlSub : Bool
  ctrlCh : List Control
  watch : Watch
  compileErr : Option ContextErr
  sandbox : Sandbox
  compiler : Bool
  marker : Bool
  program : Program
  executedMs : ℕ
  clocks : Clocks

def Handler.start (job : Job) : Handler where
  job := job
  pc := .readSpec
  clock := 0
  cancelled := false
  startSetAt := none
  ctrlSub := false
  ctrlCh := []
  watch := ⟨false, []⟩
  compileErr := none
  sandbox := .absent
  compiler := false
  marker := false
  program := .absent
  executedMs := 0
  clocks := .unarmed

/-- A small script with the default warm-up time, on the Docker tier. -/
def script : Job where
  spec :=
    { channel := "job-1"
      collectOutput := some false
      compile := none
      entrypoint := "main.py"
      files := []
      image := ""
      interactive := false
      jobId := "1"
      language := "python"
      limits := ⟨10000, 10000, 0, 0, 128, 1024, 64, 30000⟩
      run := ["python", "main.py"]
      version := "3.12" }
  eligible := false
  marked := false
  warmupMs := 30000

def Handler.startRequested (s : Handler) : Bool := s.startSetAt.isSome

/-- `START_FLAG_TTL_SECONDS`. -/
def startFlagTtlMs : ℕ := 3600000

def Handler.startFlag (s : Handler) : Bool :=
  s.startSetAt.any fun setAt => s.clock < setAt + startFlagTtlMs

/-- The buffer of `ctrlCh`. -/
def ctrlCap : ℕ := 32

def markerPauseMs : ℕ := 200

/-- `call` is the return of the call the handler is in, and `lost` its return with an error when
the daemon has carried it out. Then come the other ways on for the handler and its goroutines, by
the calls they belong to, and the steps of the environment and of the processes in the sandbox. -/
inductive Act where
  | call (ok : Bool)
  | lost
  | contextDone
  | warmup
  | receive
  | watch
  | expire
  | compileExit (code : ℤ)
  | compileFails
  | touch (ok : Bool)
  | resume
  | pump
  | waitReturns
  | wall
  | idle
  | cpu (usageMs : ℤ)
  | effect
  | requestStart
  | deliver (msg : Control)
  | cancel
  | poll
  | spawn
  | exit
  | activity
  | writeMarker
  | tick (ms : ℕ)
  deriving DecidableEq

namespace Handler

def finish (s : Handler) (state : JobState) : Handler :=
  { s with pc := .ending (teardown s.job state) }

/-- `Create` fails, and nothing is left behind. -/
def createFails (s : Handler) : Handler :=
  { s with sandbox := .absent, program := .absent, pc := .ending createFailed }

/-- The zygote runner closes the connection, which kills the child, and the job falls back
to Docker unless its context is done. -/
def zygoteFails (s : Handler) : Handler :=
  if s.cancelled then s.createFails
  else { s with sandbox := .absent, program := .absent, pc := .create .containerCreate }

def created (s : Handler) : Handler :=
  { s with sandbox := s.sandbox.complete, pc := .startFlag (s.clock + s.job.warmupMs) }

/-- The command of the container, which without a compile step is the program itself. -/
def command (s : Handler) : Program :=
  if s.job.spec.compile.isSome then .holding else .executing

def create (s : Handler) (ok : Bool) : CreatePc → Handler
  | .dial => if ok then { s with pc := .create .hello } else s.zygoteFails
  | .hello =>
    if ok then
      { s with pc := .create .started, sandbox := .building .zygote, program := .spawning }
    else s.zygoteFails
  | .started => if ok then s.created else s.zygoteFails
  | .containerCreate =>
    if ok then { s with pc := .create .copyFiles, sandbox := .building .docker }
    else s.createFails
  | .copyFiles =>
    if ok then { s with pc := .create .attach, marker := s.job.marked }
    else { s with pc := .create .containerRemove }
  | .attach => { s with pc := .create (if ok then .containerStart else .containerRemove) }
  | .containerStart =>
    if ok then { s.created with program := s.command }
    else { s with pc := .create .containerRemove }
  -- the error is discarded, and the container stays
  | .containerRemove => if ok then s.createFails else { s with pc := .ending createFailed }

/-- A call of the daemon returns an error, and has been carried out all the same. Without its ID
a container cannot be removed. -/
def lost (s : Handler) : Option Handler :=
  match s.pc with
  | .create .containerCreate =>
    some { s with pc := .ending createFailed, sandbox := .building .docker }
  | .create .containerStart =>
    some { s with pc := .create .containerRemove, program := s.command }
  | _ => none

def begin (s : Handler) : Handler :=
  if s.job.spec.compile.isSome then
    { s with
      pc := .compile s.clock .running
      watch := ⟨false, []⟩
      compileErr := if s.cancelled then some .canceled else none
      compiler := true }
  else { s with pc := .announceRunning s.job.spec.limits.wallTimeMs.toInt }

/-- `RunInteractive` arms the clocks. -/
def arm (s : Handler) (wallMs : ℤ) : Handler :=
  { s with
    pc := .session
    clocks := .armed (s.clock + wallMs.toNat) (s.clock + s.job.spec.limits.idleMs.toInt.toNat) }

def call (s : Handler) (ok : Bool) : Option Handler :=
  match s.pc with
  | .readSpec => some { s with pc := if ok then .subscribe else .ending [.releaseSlot] }
  | .subscribe =>
    some { s with pc := if ok then .subscribeControl else .ending [.releaseSlot] }
  | .subscribeControl =>
    some { s with
      ctrlSub := ok
      pc := if ok then .announceQueued else .ending [.closeStdinSub, .releaseSlot] }
  | .announceQueued => some { s with pc := .resolveBlobs }
  | .resolveBlobs => some { s with pc := if ok then .addOwned else .ending blobsFailed }
  | .addOwned =>
    some { s with pc := .create (if s.job.eligible then .dial else .containerCreate) }
  | .create pc => some (s.create ok pc)
  | .startFlag deadline =>
    if ok ∧ s.startFlag then some s.begin else some { s with pc := .parked deadline }
  | .announceRunning wallMs => some (s.arm wallMs)
  | _ => none

def park (s : Handler) (a : Act) : Option Handler :=
  match s.pc, a with
  | .parked _, .contextDone => if s.cancelled then some (s.finish .error) else none
  | .parked deadline, .warmup => if deadline ≤ s.clock then some (s.finish .error) else none
  | .parked _, .receive =>
    match s.ctrlCh with
    | .start :: rest => some { s with ctrlCh := rest }.begin
    | .kill :: rest => some ({ s with ctrlCh := rest }.finish .killed)
    | .stdinClose :: rest => some { s with ctrlCh := rest }
    | [] => none
  | _, _ => none

/-- The context of the compile step is done, with the first error it gets. -/
def endCompile (s : Handler) (err : ContextErr) : Handler :=
  { s with compileErr := s.compileErr <|> some err }

def runWallMs (s : Handler) (since : ℕ) : ℤ :=
  let wallMs := s.job.spec.limits.wallTimeMs.toInt
  if 0 < wallMs then max 1 (wallMs - (s.clock - since)) else wallMs

/-- `Compile` has returned: the watch stops and gives back what it held. -/
def compiled (s : Handler) (since : ℕ) (ok : Bool) : Handler :=
  let s := { s with ctrlCh := s.ctrlCh ++ s.watch.pending.take (ctrlCap - s.ctrlCh.length) }
  if s.watch.killed then s.finish .killed
  else if s.compileErr = some .deadlineExceeded then s.finish .error
  else if ok then { s with pc := .announceRunning (s.runWallMs since) }
  else s.finish .error

def compile (s : Handler) (a : Act) : Option Handler :=
  match s.pc, a with
  | .compile _ _, .watch =>
    match s.ctrlCh with
    | .kill :: rest =>
      let s := s.endCompile .canceled
      some { s with ctrlCh := rest, watch := { s.watch with killed := true } }
    | msg :: rest =>
      some { s with ctrlCh := rest, watch := { s.watch with pending := s.watch.pending ++ [msg] } }
    | [] => none
  -- the wall budget bounds the compile step, when there is one
  | .compile since _, .expire =>
    let wallMs := s.job.spec.limits.wallTimeMs.toInt
    if 0 < wallMs ∧ since + wallMs.toNat ≤ s.clock then some (s.endCompile .deadlineExceeded)
    else none
  | .compile since .running, .compileExit code =>
    if s.sandbox ≠ .created .docker then none
    else if code = 0 then some { s with pc := .compile since .touching }
    else some (s.compiled since false)
  -- an exec that cannot be created, read or inspected, a done context, the zygote tier
  | .compile since .running, .compileFails => some (s.compiled since false)
  | .compile since .touching, .touch ok =>
    if ok then some { s with pc := .compile since (.pausing (s.clock + markerPauseMs)) }
    else some (s.compiled since true)
  | .compile since (.pausing wake), .resume =>
    if wake ≤ s.clock then some (s.compiled since true) else none
  | _, _ => none

def terminates (s : Handler) (state : JobState) : Handler :=
  { s with pc := .ending (terminate ++ teardown s.job state) }

def session (s : Handler) (a : Act) : Option Handler :=
  match s.pc, s.clocks, a with
  | .session, _, .pump =>
    match s.ctrlCh with
    | .kill :: rest => some { s with ctrlCh := rest, program := .ended }
    | _ :: rest => some { s with ctrlCh := rest }
    | [] => none
  -- on exit of the program, when the context is done, or with an error
  | .session, _, .waitReturns => some (s.terminates .done)
  | .session, .armed wall _, .wall =>
    if wall ≤ s.clock then some (s.terminates .error) else none
  | .session, .armed _ idle, .idle =>
    if idle ≤ s.clock then some (s.terminates .error) else none
  | .session, .armed _ _, .cpu usageMs =>
    if s.job.spec.limits.cpuMs.toInt < usageMs then some (s.terminates .error) else some s
  | .session, .armed wall _, .activity =>
    some { s with clocks := .armed wall (s.clock + s.job.spec.limits.idleMs.toInt.toNat) }
  | _, _, _ => none

def perform (s : Handler) : Effect → Handler
  | .closeCtrlSub => { s with ctrlSub := false }
  | .kill => { s with program := .ended }
  | .cleanup => { s with sandbox := .cleaned, program := .ended }
  | .stopClocks => { s with clocks := .stopped }
  | _ => s

def effect (s : Handler) : Option Handler :=
  match s.pc with
  | .ending (e :: todo) => some { s.perform e with pc := .ending todo }
  | _ => none

def environment (s : Handler) : Act → Option Handler
  | .requestStart => some { s with startSetAt := some s.clock }
  -- a full channel drops the message
  | .deliver msg =>
    if s.ctrlSub = true ∧ (msg = .start → s.startRequested = true) then
      some { s with ctrlCh := if s.ctrlCh.length < ctrlCap then s.ctrlCh ++ [msg] else s.ctrlCh }
    else none
  | .cancel => some { s.endCompile .canceled with cancelled := true }
  | .poll =>
    if s.program = .holding ∧ s.marker = true ∧ s.job.spec.run ≠ [] then
      some { s with program := .executing, marker := false }
    else none
  | .spawn => if s.program = .spawning then some { s with program := .executing } else none
  | .exit => if s.program = .executing then some { s with program := .ended } else none
  | .writeMarker =>
    if s.compiler = true ∧ s.sandbox = .created .docker then some { s with marker := true }
    else none
  | .tick ms =>
    some { s with
      clock := s.clock + ms
      executedMs := if s.program = .executing then s.executedMs + ms else s.executedMs }
  | _ => none

def step (s : Handler) (a : Act) : Option Handler :=
  match a with
  | .call ok => s.call ok
  | .lost => s.lost
  | .contextDone | .warmup | .receive => s.park a
  | .watch | .expire | .compileExit _ | .compileFails | .touch _ | .resume => s.compile a
  | .pump | .waitReturns | .wall | .idle | .cpu _ | .activity => s.session a
  | .effect => s.effect
  | .requestStart | .deliver _ | .cancel | .poll | .spawn | .exit | .writeMarker | .tick _ =>
    s.environment a

end Handler

end CodeRunner.Worker
