import CodeRunner.Wire

/-! # The HELLO of a zygote job

`buildHello` on the worker, and the agent's reading of the HELLO in `handle_job`, with the
defaults of both sides.
-/

namespace CodeRunner.Zygote

/-- `Config.ZygoteUIDBase`, which the worker also hands to its pool containers as `UID_BASE`. -/
structure Config where
  uidBase : Int64
  uidBase_pos : 0 < uidBase.toInt

structure HelloFile where
  name : String
  content : String
  encoding : Encoding
  deriving DecidableEq, Repr

structure HelloPayload where
  jobId : String
  entrypoint : String
  files : List HelloFile
  uid : Int64
  memMaxBytes : Int64
  pidsMax : Int64
  tmpfsBytes : Int64
  deriving DecidableEq, Repr

def defaultZygoteTmpfsBytes : Int64 := 64 * 1024 * 1024

/-- Room for twice the output cap, if that is more than the default. -/
def helloTmpfs (limits : Limits) : Int64 :=
  if 0 < limits.outputKb then
    let mb := (limits.outputKb / 1024 + 1) * 2 * 1024 * 1024
    if defaultZygoteTmpfsBytes < mb then mb else defaultZygoteTmpfsBytes
  else defaultZygoteTmpfsBytes

def buildHello (spec : JobSpec) (cfg : Config) : HelloPayload where
  jobId := spec.jobId
  entrypoint := if spec.entrypoint = "" then "main.py" else spec.entrypoint
  files := spec.files.map fun f =>
    { name := f.name, content := f.content.getD "", encoding := f.encoding }
  uid := cfg.uidBase
  memMaxBytes :=
    let memBytes := spec.limits.memoryMb * 1024 * 1024
    if memBytes ≤ 0 then 128 * 1024 * 1024 else memBytes
  pidsMax := if spec.limits.pids ≤ 0 then 64 else spec.limits.pids
  tmpfsBytes := helloTmpfs spec.limits

/-- The HELLO as the dictionary that `json.loads` gives, each key present or absent. -/
structure Hello where
  jobId : Option String
  entrypoint : Option String
  files : Option (List HelloFile)
  uid : Option ℤ
  memMaxBytes : Option ℤ
  pidsMax : Option ℤ
  tmpfsBytes : Option ℤ
  deriving DecidableEq, Repr

/-- Every field of the payload is marshalled, zero values included. -/
def HelloPayload.toHello (p : HelloPayload) : Hello where
  jobId := some p.jobId
  entrypoint := some p.entrypoint
  files := some p.files
  uid := some p.uid.toInt
  memMaxBytes := some p.memMaxBytes.toInt
  pidsMax := some p.pidsMax.toInt
  tmpfsBytes := some p.tmpfsBytes.toInt

/-- Python's `value or default` on an optional number. -/
def orDefault (value : Option ℤ) (default : ℤ) : ℤ :=
  match value with
  | none => default
  | some v => if v = 0 then default else v

/-- What `handle_job` takes from a HELLO. -/
structure JobParams where
  jobId : String
  entrypoint : String
  files : List HelloFile
  memBytes : ℤ
  pidsMax : ℤ
  tmpfsBytes : ℤ
  uidN : ℤ
  deriving DecidableEq, Repr

/-- The offset of the session's UID: an explicit UID less the base, or the job number. -/
def helloUidN (uid : Option ℤ) (uidBase : ℤ) (n : ℕ) : ℤ :=
  match uid with
  | some uid => if uid - uidBase < 0 then n else uid - uidBase
  | none => n

def readHello (hello : Hello) (uidBase : ℤ) (n : ℕ) : JobParams where
  jobId := hello.jobId.getD s!"job{n}"
  entrypoint := hello.entrypoint.getD "main.py"
  files := hello.files.getD []
  memBytes := orDefault hello.memMaxBytes (128 * 1024 * 1024)
  pidsMax := orDefault hello.pidsMax 64
  tmpfsBytes := orDefault hello.tmpfsBytes (64 * 1024 * 1024)
  uidN := helloUidN hello.uid uidBase n

/-- The UID that `_harden_child` switches to. -/
def JobParams.uid (p : JobParams) (uidBase : ℤ) : ℤ := uidBase + p.uidN

/-- The agent's reading of the HELLO that the worker builds for a job. -/
def workerParams (cfg : Config) (spec : JobSpec) (n : ℕ) : JobParams :=
  readHello (buildHello spec cfg).toHello cfg.uidBase.toInt n

/-- The worker's UID is explicit and equals the base, so the job number is never used. -/
theorem workerParams_uid (cfg : Config) (spec : JobSpec) (n : ℕ) :
    (workerParams cfg spec n).uid cfg.uidBase.toInt = cfg.uidBase.toInt := by
  have hn : (workerParams cfg spec n).uidN = 0 := by
    simp [workerParams, readHello, helloUidN, HelloPayload.toHello, buildHello]
  rw [JobParams.uid, hn, Int.add_zero]

end CodeRunner.Zygote
