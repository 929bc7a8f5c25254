import CodeRunner.Worker.Outcome

/-! # What is stored of a job

The values of the keys `job:<id>:status` and of its kin, as workers, reapers and the API write
them. The time stamps are left out, nothing reads them.
-/

namespace CodeRunner

/-- `wire.JobStatus`. -/
structure JobStatus where
  channel : String
  jobId : String
  language : String
  state : Worker.Status
  version : String
  deriving DecidableEq, Repr

/-- The status that the worker of a job writes. -/
def JobSpec.status (spec : JobSpec) (state : Worker.Status) : JobStatus where
  channel := spec.channel
  jobId := spec.jobId
  language := spec.language
  state := state
  version := spec.version

end CodeRunner
