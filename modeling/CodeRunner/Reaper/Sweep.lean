import CodeRunner.Lib.Transition
import Mathlib.Data.Finset.Image

/-! # The sweep of the reaper

Every worker sweeps the containers of the host. A sweep lists them, reads from Redis which jobs
live workers own, and removes what is left; each call to Docker or Redis is a step of its own, and
the workers' steps come between.
-/

namespace CodeRunner.Reaper

open Transition

def workerJobsKeyPrefix : String := "worker:"

def workerJobsKeySuffix : String := ":jobs"

def workerJobsKey (workerID : String) : String :=
  workerJobsKeyPrefix ++ workerID ++ workerJobsKeySuffix

def extractWorkerID (k : String) : String :=
  if workerJobsKeyPrefix.toList <+: k.toList ∧ workerJobsKeySuffix.toList <:+ k.toList then
    String.ofList ((k.toList.take (k.length - workerJobsKeySuffix.length)).drop
      workerJobsKeyPrefix.length)
  else ""

/-- A container with its label `code-runner.jobId`, empty if it has none. -/
structure Container where
  id : ℕ
  jobID : String
  created : ℕ
  deriving DecidableEq, Repr

inductive Phase
  | queued
  | claimed (workerID : String)
  | owned (workerID : String)
  | created (workerID : String)
  | done (workerID : String)
  deriving DecidableEq, Repr

/-- Inside `Sweep`: in `ScanWorkerJobsKeys` with the keys so far, before the `HeartbeatAlive` of
each key that is left, before the `OwnedJobs` of each live worker that is left, before the next
container is evaluated, before `ContainerRemove`, and in `cleanupOwnedJobMembership` with what is
left of a page. -/
inductive Sweep
  | idle
  | scanning (containers : List Container) (keys : List String) (lasting : Finset String)
  | checking (containers : List Container) (keys : List String) (liveIDs : List String)
  | reading (containers : List Container) (workerIDs : List String) (liveJobs : Finset String)
  | evaluating (containers : List Container) (liveJobs : Finset String)
  | removing (c : Container) (containers : List Container) (liveJobs : Finset String)
  | cleaning (jobID : String) (page : List String) (more : Bool) (containers : List Container)
      (liveJobs : Finset String)
  deriving DecidableEq

def keysOf (owned : Finset (String × String)) : Finset String := owned.image Prod.fst

/-- The host with its containers, the owned-jobs sets and heartbeats in Redis, the phase of each
job, and the sweep of each worker. -/
structure Cluster where
  now : ℕ
  owned : Finset (String × String)
  beating : Finset String
  containers : List Container
  phase : String → Phase
  sweep : String → Sweep

inductive WorkerAct
  | heartbeat (workerID : String)
  | expire (workerID : String)
  | claim (workerID jobID : String)
  | addOwnedJob (jobID : String) (applied : Bool)
  | create (jobID : String) (id : ℕ)
  | removeOwnedJob (jobID : String) (applied : Bool)
  | cleanup (jobID : String)
  deriving DecidableEq, Repr

inductive Removal | removed | notFound | failed
  deriving DecidableEq, Repr

inductive SweepAct
  | containerList (ok : Bool)
  | scan (page : List String) (more : Bool)
  | scanFails
  | heartbeatAlive (ok : Bool)
  | ownedJobs (ok : Bool)
  | next
  | containerRemove (res : Removal)
  | removeOwnedJob (applied : Bool)
  deriving DecidableEq, Repr

inductive Act
  | tick (seconds : ℕ)
  | worker (act : WorkerAct)
  | sweep (workerID : String) (act : SweepAct)
  deriving DecidableEq, Repr

/-- A scan is known to return the keys that are there from its start to its end. -/
def Sweep.refresh (owned : Finset (String × String)) : Sweep → Sweep
  | .scanning containers keys lasting => .scanning containers keys (lasting ∩ keysOf owned)
  | q => q

namespace Cluster

def start : Cluster where
  now := 0
  owned := ∅
  beating := ∅
  containers := []
  phase := fun _ => .queued
  sweep := fun _ => .idle

def setOwned (s : Cluster) (owned : Finset (String × String)) : Cluster :=
  { s with owned, sweep := fun r => (s.sweep r).refresh owned }

def setPhase (s : Cluster) (jobID : String) (p : Phase) : Cluster :=
  { s with phase := Function.update s.phase jobID p }

/-- The jobs that `OwnedJobs` returns. -/
def ownedJobs (s : Cluster) (workerID : String) : Finset String :=
  (s.owned.filter (·.1 = workerID)).image Prod.snd

/-- The steps of the workers. An error of `AddOwnedJob` or `RemoveOwnedJob` is logged; the set may
have changed or not. `newWorkerID` never returns an empty string. -/
def work (s : Cluster) : WorkerAct → Option Cluster
  | .heartbeat w => some { s with beating := insert w s.beating }
  | .expire w => some { s with beating := s.beating.erase w }
  | .claim w jobID =>
    if w ≠ "" ∧ s.phase jobID = .queued then some (s.setPhase jobID (.claimed w)) else none
  | .addOwnedJob jobID applied =>
    match s.phase jobID with
    | .claimed w =>
      let s := s.setPhase jobID (.owned w)
      some (if applied then s.setOwned (insert (w, jobID) s.owned) else s)
    | _ => none
  | .create jobID id =>
    match s.phase jobID with
    | .owned w =>
      let s := s.setPhase jobID (.created w)
      if id ∈ s.containers.map (·.id) then none
      else some { s with containers := s.containers ++ [⟨id, jobID, s.now⟩] }
    | _ => none
  | .removeOwnedJob jobID applied =>
    match s.phase jobID with
    | .owned w | .created w =>
      let s := s.setPhase jobID (.done w)
      some (if applied then s.setOwned (s.owned.erase (w, jobID)) else s)
    | _ => none
  | .cleanup jobID =>
    match s.phase jobID with
    | .created _ | .done _ =>
      some { s with containers := s.containers.filter (·.jobID ≠ jobID) }
    | _ => none

end Cluster

namespace Sweep

/-- A container that a sweep comes to: it is skipped without a job, when a live worker owns its
job, or when it is young. -/
def evaluate (minAge now : ℕ) (liveJobs : Finset String) (c : Container) (cs : List Container) :
    Sweep :=
  if c.jobID = "" then .evaluating cs liveJobs
  else if c.jobID ∈ liveJobs then .evaluating cs liveJobs
  else if now < c.created + minAge then .evaluating cs liveJobs
  else .removing c cs liveJobs

def step (minAge : ℕ) (s : Cluster) : Sweep → SweepAct → Option Sweep
  | .idle, .containerList ok =>
    if ok = true ∧ s.containers ≠ [] then some (.scanning s.containers [] (keysOf s.owned))
    else some .idle
  | .scanning cs keys lasting, .scan page more =>
    if more then some (.scanning cs (keys ++ page) lasting)
    else if ∀ w ∈ lasting, workerJobsKey w ∈ keys ++ page then some (.checking cs (keys ++ page) [])
    else none
  -- the sweep is skipped to avoid false positives
  | .scanning _ _ _, .scanFails => some .idle
  | .checking cs (k :: keys) liveIDs, .heartbeatAlive ok =>
    let w := extractWorkerID k
    if w = "" then none
    -- a failed check is logged, and counts like a heartbeat that is not there
    else some (.checking cs keys (if ok = true ∧ w ∈ s.beating then liveIDs ++ [w] else liveIDs))
  | .checking cs (k :: keys) liveIDs, .next =>
    if extractWorkerID k = "" then some (.checking cs keys liveIDs) else none
  | .checking cs [] liveIDs, .next => some (.reading cs liveIDs ∅)
  | .reading cs (w :: ws) liveJobs, .ownedJobs ok =>
    -- the jobs of a worker whose set cannot be read look orphaned
    some (.reading cs ws (if ok then liveJobs ∪ s.ownedJobs w else liveJobs))
  | .reading cs [] liveJobs, .next => some (.evaluating cs liveJobs)
  | .evaluating [] _, .next => some .idle
  | .evaluating (c :: cs) liveJobs, .next => some (evaluate minAge s.now liveJobs c cs)
  | .removing c cs liveJobs, .containerRemove res =>
    match res with
    | .failed => some (.evaluating cs liveJobs)
    | .removed => if c ∈ s.containers then some (.cleaning c.jobID [] true cs liveJobs) else none
    | .notFound => if c ∈ s.containers then none else some (.cleaning c.jobID [] true cs liveJobs)
  | .cleaning jobID [] true cs liveJobs, .scan page more =>
    some (.cleaning jobID page more cs liveJobs)
  | .cleaning _ [] true cs liveJobs, .scanFails => some (.evaluating cs liveJobs)
  | .cleaning _ [] false cs liveJobs, .next => some (.evaluating cs liveJobs)
  | .cleaning jobID (k :: page) more cs liveJobs, .next =>
    if extractWorkerID k = "" then some (.cleaning jobID page more cs liveJobs) else none
  | .cleaning jobID (k :: page) more cs liveJobs, .removeOwnedJob _ =>
    if extractWorkerID k = "" then none else some (.cleaning jobID page more cs liveJobs)
  | _, _ => none

def effect (s : Cluster) : Sweep → SweepAct → Cluster
  | .removing c _ _, .containerRemove .removed =>
    { s with containers := s.containers.erase c }
  | .cleaning jobID (k :: _) _ _ _, .removeOwnedJob true =>
    s.setOwned (s.owned.erase (extractWorkerID k, jobID))
  | _, _ => s

end Sweep

namespace Cluster

def sweepStep (minAge : ℕ) (s : Cluster) (r : String) (act : SweepAct) : Option Cluster :=
  ((s.sweep r).step minAge s act).map fun q =>
    (s.sweep r).effect { s with sweep := Function.update s.sweep r q } act

def step (minAge : ℕ) (s : Cluster) : Act → Option Cluster
  | .tick seconds => some { s with now := s.now + seconds }
  | .worker act => s.work act
  | .sweep r act => s.sweepStep minAge r act

end Cluster

/-- The container that a sweep force-removes is not that of a job in the set of a live worker. -/
def Spares (s : Cluster) : Act → Prop
  | .sweep r (.containerRemove _) =>
    match s.sweep r with
    | .removing c _ _ => ∀ w ∈ s.beating, (w, c.jobID) ∉ s.owned
    | _ => True
  | _ => True

end CodeRunner.Reaper
