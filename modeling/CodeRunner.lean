import CodeRunner.Blob.Soundness
import CodeRunner.Blob.Leases
import CodeRunner.Lib.Block
import CodeRunner.Lib.ByteStream
import CodeRunner.Relay.Frames
import CodeRunner.Relay.Agent
import CodeRunner.Relay.Connection
import CodeRunner.Relay.Integrity
import CodeRunner.Relay.Delivery
import CodeRunner.Wire
import CodeRunner.Zygote.Hello
import CodeRunner.Zygote.Uid
import CodeRunner.Zygote.Cgroup
import CodeRunner.Docker.Attach
import CodeRunner.Worker.Job
import CodeRunner.Worker.Moves
import CodeRunner.Worker.Window
import CodeRunner.Lib.Tally
import CodeRunner.Worker.Slots
import CodeRunner.Worker.Branches
import CodeRunner.Worker.Outcome
import CodeRunner.Docker.Workspace
import CodeRunner.Worker.Marker
import CodeRunner.Worker.Verdict
import CodeRunner.Lib.PubSub
import CodeRunner.Worker.Control
import CodeRunner.Worker.Stdin
import CodeRunner.Lib.Quota
import CodeRunner.Session.Pump
import CodeRunner.Session.Terminate
import CodeRunner.Lib.Utf8
import CodeRunner.Publisher.Event
import CodeRunner.Publisher.Split
import CodeRunner.Lib.Buffer
import CodeRunner.Publisher.Boundary
import CodeRunner.Publisher.Pipeline
import CodeRunner.React.Reassemble
import CodeRunner.Reaper.Safety
import CodeRunner.Jobstore
import CodeRunner.Reaper.Status
import CodeRunner.Worker.Blobs
import CodeRunner.Worker.Drain
import CodeRunner.Worker.Collect
import CodeRunner.Api.Execute
import CodeRunner.Worker.Handshake
import CodeRunner.Api.StdinCap
import CodeRunner.Lib.Lock
import CodeRunner.Blob.Exclusion
import CodeRunner.Blob.Pass
import CodeRunner.Blob.Grace
import CodeRunner.Relay.Stdin
import CodeRunner.Lib.Encoding
import CodeRunner.Lib.Reads
import CodeRunner.Relay.Codec
import CodeRunner.Pool.Manager
import CodeRunner.Pool.Reap
import CodeRunner.Pool.Containers
import CodeRunner.React.Status
import CodeRunner.Sdk.Files
import CodeRunner.Api.Files
import CodeRunner.Docker.Contents
import CodeRunner.Worker.Inline
import CodeRunner.Publisher.Calls
import CodeRunner.React.Order
import CodeRunner.Api.QueueDepth
import CodeRunner.Manifest.Registry
import CodeRunner.Lib.Fallible
import CodeRunner.Lib.First
import CodeRunner.Manifest.Resolve
import CodeRunner.Worker.Tier
import CodeRunner.Lib.Posix
import CodeRunner.Zygote.Materialize
import CodeRunner.Session.Once
import CodeRunner.Worker.CompileWatch
import CodeRunner.Worker.StdinPump
import CodeRunner.Worker.PumpKill
import CodeRunner.Worker.Resolution
import CodeRunner.Worker.Artifacts
import CodeRunner.Worker.Capture
import CodeRunner.Zygote.Capture
import CodeRunner.Zygote.Job
import CodeRunner.Blob.Touch
import CodeRunner.Pool.Accounting
import CodeRunner.Lib.Json
import CodeRunner.Relay.Reader
import CodeRunner.Docker.Archive
import CodeRunner.Lib.Stringify
import CodeRunner.Api.Handover
import CodeRunner.Lib.Shell
import CodeRunner.Docker.CompileHold
import CodeRunner.Scaling
import CodeRunner.Session.IdleClock
import CodeRunner.Session.Relayed
import CodeRunner.Lib.Descriptors
import CodeRunner.Zygote.Channels
import CodeRunner.Api.FrameRate
import CodeRunner.Worker.Heartbeat
import CodeRunner.Lib.Fields
import CodeRunner.Zygote.CgroupBase
import CodeRunner.Zygote.CpuUsage
import CodeRunner.Lib.Document
import CodeRunner.Lib.Dumps
import CodeRunner.Zygote.Payloads
import CodeRunner.Zygote.Started
import CodeRunner.Zygote.EndToEnd
import CodeRunner.Zygote.Delivered
