import Mathlib.Data.Int.Notation
import Mathlib.Data.Nat.Notation

/-! # The job specification on the wire

The parts of `wire.JobSpec` that the worker and the two sandbox tiers read. A Go `int` is a
64-bit integer.
-/

namespace CodeRunner

structure Limits where
  cpuMs : Int64
  idleMs : Int64
  maxArtifactBytes : Int64
  maxArtifacts : Int64
  memoryMb : Int64
  outputKb : Int64
  pids : Int64
  wallTimeMs : Int64
  deriving DecidableEq, Repr

/-- `FileInputEncoding`, a string type; the empty string is an absent encoding. -/
abbrev Encoding := String

structure FileInput where
  content : Option String
  encoding : Encoding
  name : String
  ref : Option String
  deriving DecidableEq, Repr

structure JobSpec where
  channel : String
  collectOutput : Option Bool
  compile : Option (List String)
  entrypoint : String
  files : List FileInput
  image : String
  interactive : Bool
  jobId : String
  language : String
  limits : Limits
  run : List String
  version : String
  deriving DecidableEq, Repr

end CodeRunner
