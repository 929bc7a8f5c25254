import CodeRunner.Blob.Store
import CodeRunner.Lib.Threads

/-! # The parties that use the blob store

The `/v1/blobs/check` handler, the SDK's upload with its `/v1/blobs/finalize` call, a worker
resolving the references of a job, and one collector sweep, each as the sequence of store
commands that its source issues. A command that fails changes nothing and replies `err`.
-/

namespace CodeRunner.Blob

/-- The idle TTL of API and workers, the collector's grace window and its lock TTL. -/
structure Config where
  idleTtlMs : ℕ
  graceMs : ℕ
  lockTtlMs : ℕ
  idleTtl_pos : 0 < idleTtlMs

inductive CheckPc where
  | begin (hashes : List Hash)
  | query (todo : List Hash) (createdAtMs : ℕ)
  | refresh (h : Hash) (todo : List Hash) (createdAtMs : ℕ)
  | failed
  deriving DecidableEq, Repr

/-- A `POST /v1/blobs/check` request and the answer built so far. -/
structure Check where
  pc : CheckPc
  missing : List Hash
  present : List Hash
  deriving DecidableEq, Repr

def Check.start (hashes : List Hash) : Check := ⟨.begin hashes, [], []⟩

def Check.next (cfg : Config) (t : Check) : Option Cmd :=
  match t.pc with
  | .begin _ => some .time
  | .query (h :: _) _ => some (.existsMeta h)
  | .query [] _ => none
  | .refresh h _ createdAtMs => some (.touch h 0 createdAtMs cfg.idleTtlMs)
  | .failed => none

def Check.resume (t : Check) (r : Reply) : Check :=
  match t.pc, r with
  | .begin hashes, .int now => { t with pc := .query hashes.eraseDups now }
  | .query (h :: todo) now, .bool true => { t with pc := .refresh h todo now }
  | .query (h :: todo) now, .bool false =>
      { t with pc := .query todo now, missing := t.missing ++ [h] }
  | .refresh h todo now, .ok => { t with pc := .query todo now, present := t.present ++ [h] }
  | _, _ => { t with pc := .failed }

inductive UploadPc where
  | check (t : Check)
  | put
  | finalizeTime
  | finalize (createdAtMs : ℕ)
  | done
  | failed
  deriving DecidableEq, Repr

/-- `uploadBlob`: check, PUT when missing, and finalize only after the PUT succeeded. -/
structure Upload where
  ref : Hash
  size : ℕ
  pc : UploadPc
  deriving DecidableEq, Repr

def Upload.start (ref : Hash) (size : ℕ) : Upload := ⟨ref, size, .check (.start [ref])⟩

def Upload.next (cfg : Config) (t : Upload) : Option Cmd :=
  match t.pc with
  | .check c => c.next cfg
  | .put => some (.putObject t.ref t.size)
  | .finalizeTime => some .time
  | .finalize createdAtMs => some (.touch t.ref 0 createdAtMs cfg.idleTtlMs)
  | .done => none
  | .failed => none

/-- What the SDK does with the state its check request is in: wait, PUT, or stop. -/
def Upload.afterCheck (ref : Hash) (c : Check) : UploadPc :=
  match c.pc with
  | .query [] _ => if ref ∈ c.missing then .put else .done
  | .failed => .failed
  | _ => .check c

def Upload.resume (t : Upload) (r : Reply) : Upload :=
  match t.pc, r with
  | .check c, r => { t with pc := Upload.afterCheck t.ref (c.resume r) }
  | .put, .ok => { t with pc := .finalizeTime }
  | .finalizeTime, .int now => { t with pc := .finalize now }
  | .finalize _, .ok => { t with pc := .done }
  | _, _ => { t with pc := .failed }

inductive JobPc where
  | lease (todo : List Hash)
  | leaseTouchTime (ref : Hash) (todo : List Hash)
  | leaseTouch (ref : Hash) (todo : List Hash) (createdAtMs : ℕ)
  | pull (ref : Hash) (todo : List Hash)
  | touchTime (ref : Hash) (todo : List Hash) (size : ℕ)
  | touch (ref : Hash) (todo : List Hash) (size createdAtMs : ℕ)
  | run
  | release (todo : List Hash)
  deriving DecidableEq, Repr

/-- `resolveBlobRefs` over the references of a job, the run, and `releaseLeases`. -/
structure Job where
  jobId : JobId
  leased : List Hash
  pc : JobPc
  deriving DecidableEq, Repr

def Job.start (jobId : JobId) (refs : List Hash) : Job := ⟨jobId, [], .lease refs⟩

def Job.next (cfg : Config) (t : Job) : Option Cmd :=
  match t.pc with
  | .lease (ref :: _) => some (.saddLease ref t.jobId)
  | .lease [] => some .time
  | .leaseTouchTime _ _ => some .time
  | .leaseTouch ref _ createdAtMs => some (.touch ref 0 createdAtMs cfg.idleTtlMs)
  | .pull ref _ => some (.getObject ref)
  | .touchTime _ _ _ => some .time
  | .touch ref _ size createdAtMs => some (.touch ref size createdAtMs cfg.idleTtlMs)
  | .run => some .time
  | .release (ref :: _) => some (.sremLease ref t.jobId)
  | .release [] => none

def Job.resume (t : Job) (r : Reply) : Job :=
  match t.pc, r with
  | .lease (ref :: todo), .ok => { t with pc := .leaseTouchTime ref todo }
  | .lease [], _ => { t with pc := .run }
  | .leaseTouchTime ref todo, .int now => { t with pc := .leaseTouch ref todo now }
  | .leaseTouch ref todo _, .ok => { t with leased := t.leased ++ [ref], pc := .pull ref todo }
  | .pull ref todo, .opt (some size) => { t with pc := .touchTime ref todo size }
  | .touchTime ref todo size, .int now => { t with pc := .touch ref todo size now }
  -- A failed touch is not fatal: the lease already pins the blob.
  | .touch _ todo _ _, _ => { t with pc := .lease todo }
  | .release (_ :: todo), _ => { t with pc := .release todo }
  | .release [], _ => t
  | _, _ => { t with pc := .release t.leased }

/-- The hash a sweep is at, the time it read at its start, and the hashes still to visit. -/
structure Visit where
  nowMs : ℕ
  hash : Hash
  rest : List Hash
  deriving DecidableEq, Repr

inductive SweepPc where
  | lock
  | list
  | clock (hashes : List Hash)
  | loop (nowMs : ℕ) (todo : List Hash)
  | scard (v : Visit) (metaN : Bool)
  | recovered (v : Visit)
  | zscore (v : Visit)
  | zadd (v : Visit)
  | stat (v : Visit)
  | remove (v : Visit) (freed : ℕ)
  | scrubIndex (v : Visit) (freed : ℕ)
  | scrubCandidate (v : Visit) (freed : ℕ)
  | scrubLease (v : Visit) (freed : ℕ)
  | scrubMeta (v : Visit) (freed : ℕ)
  | unlock
  | done
  deriving DecidableEq, Repr

/-- `Sweep` with the number of blobs and bytes it has reclaimed. -/
structure Sweep where
  pc : SweepPc
  reclaimed : ℕ
  bytesFreed : ℕ
  deriving DecidableEq, Repr

def Sweep.start : Sweep := ⟨.lock, 0, 0⟩

def Sweep.next (cfg : Config) (t : Sweep) : Option Cmd :=
  match t.pc with
  | .lock => some (.setnxLock cfg.lockTtlMs)
  | .list => some .smembersIndex
  | .clock _ => some .time
  | .loop _ (h :: _) => some (.existsMeta h)
  | .loop _ [] => some .delLock
  | .scard v _ => some (.scardLease v.hash)
  | .recovered v => some (.zrem v.hash)
  | .zscore v => some (.zscore v.hash)
  | .zadd v => some (.zadd v.hash v.nowMs)
  | .stat v => some (.statObject v.hash)
  | .remove v _ => some (.removeObject v.hash)
  | .scrubIndex v _ => some (.sremIndex v.hash)
  | .scrubCandidate v _ => some (.zrem v.hash)
  | .scrubLease v _ => some (.delLease v.hash)
  | .scrubMeta v _ => some (.delMeta v.hash)
  | .unlock => some .delLock
  | .done => none

def Sweep.resume (cfg : Config) (t : Sweep) (r : Reply) : Sweep :=
  match t.pc, r with
  | .lock, .bool true => { t with pc := .list }
  | .lock, _ => { t with pc := .done }
  | .list, .members hashes => { t with pc := .clock hashes }
  | .list, _ => { t with pc := .unlock }
  | .clock hashes, .int now => { t with pc := .loop now hashes }
  | .clock _, _ => { t with pc := .unlock }
  | .loop now (h :: todo), .bool metaN => { t with pc := .scard ⟨now, h, todo⟩ metaN }
  | .loop now (_ :: todo), _ => { t with pc := .loop now todo }
  | .loop _ [], _ => { t with pc := .done }
  | .scard v metaN, .int leaseN =>
      if metaN = false ∧ leaseN = 0 then { t with pc := .zscore v }
      else { t with pc := .recovered v }
  | .scard v _, _ => { t with pc := .loop v.nowMs v.rest }
  | .recovered v, _ => { t with pc := .loop v.nowMs v.rest }
  | .zscore v, .opt none => { t with pc := .zadd v }
  | .zscore v, .opt (some score) =>
      if cfg.graceMs < v.nowMs - score then { t with pc := .stat v }
      else { t with pc := .loop v.nowMs v.rest }
  | .zscore v, _ => { t with pc := .loop v.nowMs v.rest }
  | .zadd v, _ => { t with pc := .loop v.nowMs v.rest }
  | .stat v, .opt (some size) => { t with pc := .remove v size }
  | .stat v, _ => { t with pc := .remove v 0 }
  | .remove v freed, .ok => { t with pc := .scrubIndex v freed }
  -- The blob stays a candidate; the next sweep retries.
  | .remove v _, _ => { t with pc := .loop v.nowMs v.rest }
  | .scrubIndex v freed, _ => { t with pc := .scrubCandidate v freed }
  | .scrubCandidate v freed, _ => { t with pc := .scrubLease v freed }
  | .scrubLease v freed, _ => { t with pc := .scrubMeta v freed }
  | .scrubMeta v freed, _ =>
      { pc := .loop v.nowMs v.rest
        reclaimed := t.reclaimed + 1
        bytesFreed := t.bytesFreed + freed }
  | .unlock, _ => { t with pc := .done }
  | .done, _ => t

inductive Thread where
  | check (t : Check)
  | upload (t : Upload)
  | job (t : Job)
  | sweep (t : Sweep)
  deriving DecidableEq, Repr

/-- A thread that has issued no command yet. -/
inductive Thread.Initial : Thread → Prop
  | check (hashes : List Hash) : Initial (.check (.start hashes))
  | upload (ref : Hash) (size : ℕ) : Initial (.upload (.start ref size))
  | job (jobId : JobId) (refs : List Hash) : Initial (.job (.start jobId refs))
  | sweep : Initial (.sweep .start)

def Thread.next (cfg : Config) : Thread → Option Cmd
  | .check t => t.next cfg
  | .upload t => t.next cfg
  | .job t => t.next cfg
  | .sweep t => t.next cfg

def Thread.resume (cfg : Config) : Thread → Reply → Thread
  | .check t, r => .check (t.resume r)
  | .upload t, r => .upload (t.resume r)
  | .job t, r => .job (t.resume r)
  | .sweep t, r => .sweep (t.resume cfg r)

def program (cfg : Config) : Threads.Program Store Cmd Reply Thread Env where
  exec := Store.exec
  fault := .err
  next := Thread.next cfg
  resume := Thread.resume cfg
  env := Store.env

/-- Any number of parties, interleaved command by command. -/
abbrev System (ι : Type*) := Threads.Config ι Store Thread

/-- Nothing stored yet, and no party has started. -/
structure System.Fresh {ι : Type*} (c : System ι) : Prop where
  shared : ∃ now, c.shared = .empty now
  threads : ∀ i, (c.threads i).Initial

end CodeRunner.Blob
