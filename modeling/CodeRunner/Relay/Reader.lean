import CodeRunner.Lib.Json
import CodeRunner.Relay.Codec

/-! # The reader goroutine of a relay connection

`startReader` takes frames off the connection until the first EXIT frame or the first error.
Whatever bytes come, it ends: it closes both pipes and resolves the exit channel once, and the
pipes have carried the payloads of the frames before that point.
-/

namespace CodeRunner.Relay

open Incremental Transition

/-- How the reads of a connection end: in `io.EOF` or in another error. -/
inductive ConnEnd where
  | eof
  | failed (text : String)
  deriving DecidableEq, Repr

/-- The error of `io.ReadFull`. -/
def ConnEnd.error : ConnEnd → Reads.Error → RelayError
  | .eof, e => .ofRead e
  | .failed text, _ => .errorf text

/-- The error of `io.ReadFull` inside a frame. -/
def ConnEnd.cutError (fin : ConnEnd) (e : Reads.Error) : RelayError :=
  match fin.error e with
  | .eof => .unexpectedEof
  | e => e

/-- `frameDecoder.next`, with the lengths of the payload buffers it made. -/
def decoderNext (fin : ConnEnd) (reads : List (List UInt8)) :
    Except RelayError (Frame × List (List UInt8)) × List ℕ :=
  match Reads.fill 5 reads with
  | .error e => (.error (fin.error e), [])
  | .ok ([ftype, b₀, b₁, b₂, b₃], reads) =>
    let length := Block.ofBe32 b₀ b₁ b₂ b₃
    if maxFramePayload < length then
      (.error (.errorf
        s!"zygote: inbound frame length {length} exceeds cap {maxFramePayload}"), [])
    else if length = 0 then (.ok (⟨ftype, []⟩, reads), [length])
    else
      match Reads.fill length reads with
      | .error e => (.error (fin.cutError e), [length])
      | .ok (payload, reads) => (.ok (⟨ftype, payload⟩, reads), [length])
  | .ok _ => (.error .unexpectedEof, [])

variable {fin : ConnEnd} {reads reads' : List (List UInt8)} {f : Frame}

theorem decoderNext_spec (fin : ConnEnd) (reads : List (List UInt8)) :
    (∀ r, (decoderNext fin reads).1 = .ok r ↔ nextFrame reads = .ok r) ∧
      ∀ n ∈ (decoderNext fin reads).2, n ≤ maxFramePayload := by
  by_cases hlen : reads.flatten.length < 5
  · rw [nextFrame_of_short hlen, decoderNext, Reads.fill_of_lt hlen]
    exact ⟨fun r => iff_of_false (by rintro ⟨⟩) (by rintro ⟨⟩),
      fun _ hn => absurd hn List.not_mem_nil⟩
  · obtain ⟨t, b₀, b₁, b₂, b₃, bs, hbs⟩ := exists_header (Nat.le_of_not_lt hlen)
    obtain ⟨reads₁, hfill, -⟩ := Reads.fill_of_le (Nat.le_of_not_lt hlen)
    rw [hbs] at hfill
    have htake : (t :: b₀ :: b₁ :: b₂ :: b₃ :: bs).take 5 = [t, b₀, b₁, b₂, b₃] := rfl
    rw [decoderNext, nextFrame, hfill, htake]
    dsimp only
    generalize Block.ofBe32 b₀ b₁ b₂ b₃ = length
    by_cases hmax : maxFramePayload < length
    · rw [if_pos hmax, if_pos hmax]
      exact ⟨fun r => iff_of_false (by rintro ⟨⟩) (by rintro ⟨⟩),
        fun _ hn => absurd hn List.not_mem_nil⟩
    · have hle : ∀ n ∈ [length], n ≤ maxFramePayload :=
        List.forall_mem_singleton.mpr (Nat.le_of_not_lt hmax)
      rw [if_neg hmax, if_neg hmax]
      by_cases hzero : length = 0
      · rw [if_pos hzero, if_pos hzero]
        exact ⟨fun r => Iff.rfl, hle⟩
      · rw [if_neg hzero, if_neg hzero]
        cases Reads.fill length reads₁ with
        | error e => exact ⟨fun r => iff_of_false (by rintro ⟨⟩) (by rintro ⟨⟩), hle⟩
        | ok r => exact ⟨fun r => Iff.rfl, hle⟩

/-- A complete frame at the front of the stream is taken, and anything else is an error. -/
theorem decoderNext_cases (fin : ConnEnd) (reads : List (List UInt8)) :
    (∃ f reads', (decoderNext fin reads).1 = .ok (f, reads') ∧
      frameDecoder.next reads.flatten = some (f, reads'.flatten)) ∨
    ∃ e, (decoderNext fin reads).1 = .error e ∧ frameDecoder.next reads.flatten = none := by
  cases hdec : frameDecoderNext reads.flatten with
  | frame f rest =>
    obtain ⟨reads', hnext, rfl⟩ := nextFrame_frame hdec
    exact .inl ⟨f, reads', ((decoderNext_spec fin reads).1 _).mpr hnext,
      by rw [frameDecoder_next, hdec]⟩
  | _ =>
    have hnone : frameDecoder.next reads.flatten = none := by rw [frameDecoder_next, hdec]
    have hother : ∀ f rest, frameDecoderNext reads.flatten ≠ .frame f rest := by
      rw [hdec]
      nofun
    have herr := nextFrame_error hother
    refine .inr ?_
    cases hres : (decoderNext fin reads).1 with
    | error e => exact ⟨e, rfl, hnone⟩
    | ok r =>
      rw [((decoderNext_spec fin reads).1 r).mp hres] at herr
      cases herr

theorem length_of_next {bs rest : List UInt8} (h : frameDecoder.next bs = some (f, rest)) :
    bs.length = 5 + f.payload.length + rest.length := by
  rw [frameDecoder_next] at h
  split at h
  · next hdec =>
    cases h
    obtain ⟨t, tl, rfl, -, hget, -⟩ := frameDecoderNext_frame.mp hdec
    obtain ⟨b₀, b₁, b₂, b₃, tl, rfl, hlen, hpayload, hrest⟩ := Block.get_eq_some.mp hget
    rw [hpayload, hrest]
    simp only [List.length_cons, List.length_take, List.length_drop]
    omega
  · cases h

/-- `exitPayload`. -/
structure ExitPayload where
  exitCode : Option ℤ
  signal : Option ℤ
  error : List UInt8
  artifactsTruncated : Bool
  deriving DecidableEq, Repr

def ExitPayload.member (key : List UInt8) : Json.Setter ExitPayload := fun v e =>
  if Json.named "exitCode" key then
    ({ e with exitCode := (Json.setIntPtr v e.exitCode).1 }, (Json.setIntPtr v e.exitCode).2)
  else if Json.named "signal" key then
    ({ e with signal := (Json.setIntPtr v e.signal).1 }, (Json.setIntPtr v e.signal).2)
  else if Json.named "error" key then
    ({ e with error := (Json.setString v e.error).1 }, (Json.setString v e.error).2)
  else if Json.named "artifactsTruncated" key then
    ({ e with artifactsTruncated := (Json.setBool v e.artifactsTruncated).1 },
      (Json.setBool v e.artifactsTruncated).2)
  else (e, true)

/-- The EXIT payload as the reader has it, which drops the error of `json.Unmarshal`. -/
def unmarshalExit (payload : List UInt8) : ExitPayload :=
  (Json.unmarshal ExitPayload.member ⟨none, none, [], false⟩ payload).1

/-- `cpuMs` of a CPU payload. -/
def unmarshalCpu (payload : List UInt8) : Option ℤ :=
  let r := Json.unmarshal (fun key v n =>
    if Json.named "cpuMs" key then Json.setInt v n else (n, true)) 0 payload
  if r.2 then some r.1 else none

/-- The writer's end of an `io.Pipe`: what has gone through, and what it was closed with. -/
structure Pipe where
  delivered : List UInt8
  closed : Option (Option RelayError)
  deriving DecidableEq, Repr

/-- `CloseWithError`, of which the first counts. -/
def Pipe.close (p : Pipe) (err : Option RelayError) : Pipe :=
  { p with closed := p.closed.or (some err) }

inductive Output where
  | stdout
  | stderr
  deriving DecidableEq, Repr

def Output.ftype : Output → UInt8
  | .stdout => tStdout
  | .stderr => tStderr

/-- The errors of `normalizeConnErr`, and the one that the agent reports. -/
inductive ExitError where
  | closedBeforeExit
  | relayRead (err : RelayError)
  | reported (text : List UInt8)
  deriving DecidableEq, Repr

/-- `relayExit`. -/
structure RelayExit where
  exitCode : Option ℤ
  signal : Option ℤ
  err : Option ExitError
  deriving DecidableEq, Repr

/-- Where the goroutine is: before a frame, in a `Write` with what the pipe's reader has not taken
yet, at the two closes of `closeOutputs`, before `resolveExit`, or returned. -/
inductive ReaderPc where
  | next
  | write (out : Output) (rest : List UInt8)
  | closeStdout (err : Option RelayError) (e : RelayExit)
  | closeStderr (err : Option RelayError) (e : RelayExit)
  | resolve (e : RelayExit)
  | returned
  deriving DecidableEq, Repr

/-- `relayConn` with its reader. `exitCh` has what was sent on the channel. -/
structure RelayConn where
  pc : ReaderPc
  reads : List (List UInt8)
  made : List ℕ
  pipe : Output → Pipe
  latestCpuMs : ℤ
  artifacts : List CapturedArtifact
  artifactsTruncated : Bool
  exitOnce : Bool
  exitCh : List RelayExit
  exitClosed : Bool

/-- At `startReader`. -/
def RelayConn.start (reads : List (List UInt8)) : RelayConn :=
  { pc := .next, reads, made := [], pipe := fun _ => ⟨[], none⟩, latestCpuMs := 0,
    artifacts := [], artifactsTruncated := false, exitOnce := false, exitCh := [],
    exitClosed := false }

def normalizeConnErr (err : RelayError) : ExitError :=
  if err = .eof then .closedBeforeExit else .relayRead err

namespace RelayConn

variable (s : RelayConn)

/-- The first statement of `closeOutputs`. -/
def closeOutputs (err : RelayError) (e : RelayExit) : RelayConn :=
  { s with pc := .closeStdout (if err = .eof then none else some err) e }

def output (out : Output) (payload : List UInt8) : RelayConn :=
  if 0 < payload.length then { s with pc := .write out payload } else s

def exit (payload : List UInt8) : RelayConn :=
  let e := unmarshalExit payload
  let s := if e.artifactsTruncated then { s with artifactsTruncated := true } else s
  s.closeOutputs .eof
    ⟨e.exitCode, e.signal, if e.error ≠ [] then some (.reported e.error) else none⟩

def handle (f : Frame) : RelayConn :=
  if f.ftype = tStdout then s.output .stdout f.payload
  else if f.ftype = tStderr then s.output .stderr f.payload
  else if f.ftype = tCpu then
    match unmarshalCpu f.payload with
    | some n => { s with latestCpuMs := n }
    | none => s
  else if f.ftype = tArtifact then
    match decodeArtifactFrame f.payload with
    | .ok a => { s with artifacts := s.artifacts ++ [a] }
    | .error _ => s
  else if f.ftype = tExit then s.exit f.payload
  else s

/-- The connection after `frameDecoder.next`. -/
def took (made : List ℕ) (reads : List (List UInt8)) : RelayConn :=
  { s with made := s.made ++ made, reads }

def readNext (fin : ConnEnd) : RelayConn :=
  match decoderNext fin s.reads with
  | (.error err, made) =>
    (s.took made s.reads).closeOutputs err ⟨none, none, some (normalizeConnErr err)⟩
  | (.ok (f, reads), made) => (s.took made reads).handle f

def close (out : Output) (err : Option RelayError) : RelayConn :=
  { s with pipe := Function.update s.pipe out ((s.pipe out).close err) }

def resolveExit (e : RelayExit) : RelayConn :=
  if s.exitOnce then s
  else { s with exitOnce := true, exitCh := s.exitCh ++ [e], exitClosed := true }

end RelayConn

/-- A step of the goroutine, or a read of at most `n + 1` bytes from a pipe. -/
inductive ReaderAct where
  | go
  | take (out : Output) (n : ℕ)
  deriving DecidableEq, Repr

def RelayConn.step (fin : ConnEnd) (s : RelayConn) : ReaderAct → Option RelayConn
  | .go =>
    match s.pc with
    | .next => some (s.readNext fin)
    | .write _ rest => if rest = [] then some { s with pc := .next } else none
    | .closeStdout err e => some { s.close .stdout err with pc := .closeStderr err e }
    | .closeStderr err e => some { s.close .stderr err with pc := .resolve e }
    | .resolve e => some { s.resolveExit e with pc := .returned }
    | .returned => none
  | .take out n =>
    match s.pc with
    | .write out' rest =>
      if out = out' ∧ rest ≠ [] then
        let p := s.pipe out
        some { s with
          pc := .write out (rest.drop (n + 1))
          pipe := Function.update s.pipe out
            { p with delivered := p.delivered ++ rest.take (n + 1) } }
      else none
    | _ => none

/-- The complete frames at the front of the stream, up to the first decoding error. -/
def framesOf (reads : List (List UInt8)) : List Frame := (frameDecoder.drain reads.flatten).1

def Frame.isExit (f : Frame) : Bool := f.ftype = tExit

def beforeExit (frames : List Frame) : List Frame := frames.takeWhile fun f => !f.isExit

def firstExit (frames : List Frame) : Option Frame := frames.find? Frame.isExit

/-- An error exactly if there is no EXIT frame or it carries an error. -/
def RelayExit.Fits (e : RelayExit) (frames : List Frame) : Prop :=
  e.err.isSome = true ↔ ∀ f ∈ firstExit frames, (unmarshalExit f.payload).error ≠ []

/-- The result of an EXIT frame. -/
def ExitPayload.relayExit (e : ExitPayload) : RelayExit :=
  ⟨e.exitCode, e.signal, if e.error ≠ [] then some (.reported e.error) else none⟩

/-- What the first EXIT frame says, or an error of the connection without one. -/
def RelayExit.Says (e : RelayExit) (frames : List Frame) : Prop :=
  match firstExit frames with
  | some f => e = (unmarshalExit f.payload).relayExit
  | none => ∃ err, e = ⟨none, none, some (normalizeConnErr err)⟩

variable {frames : List Frame} {out : Output} {n : ℕ} {s s' : RelayConn} {a : ReaderAct}
  {e : RelayExit}

theorem RelayExit.Says.fits (h : e.Says frames) : e.Fits frames := by
  unfold RelayExit.Says at h
  unfold RelayExit.Fits
  split at h
  · next f hf =>
    rw [hf, h]
    simp [ExitPayload.relayExit]
  · next hnone =>
    obtain ⟨err, rfl⟩ := h
    rw [hnone]
    exact iff_of_true rfl nofun

theorem framesOf_none (h : frameDecoder.next reads.flatten = none) : framesOf reads = [] := by
  rw [framesOf, Parser.drain_of_none h]

theorem framesOf_some (h : frameDecoder.next reads.flatten = some (f, reads'.flatten)) :
    framesOf reads = f :: framesOf reads' := by
  rw [framesOf, Parser.drain_of_some h, framesOf]

theorem beforeExit_exit (h : f.isExit = true) : beforeExit (f :: frames) = [] := by
  simp [beforeExit, h]

theorem beforeExit_cons (h : f.isExit = false) :
    beforeExit (f :: frames) = f :: beforeExit frames := by
  simp [beforeExit, h]

theorem firstExit_exit (h : f.isExit = true) : firstExit (f :: frames) = some f := by
  simp [firstExit, h]

theorem firstExit_cons (h : f.isExit = false) : firstExit (f :: frames) = firstExit frames := by
  simp [firstExit, h]

theorem payloads_cons (t : UInt8) :
    payloads t (f :: frames) = (if f.ftype = t then f.payload else []) ++ payloads t frames := by
  unfold payloads
  by_cases ht : f.ftype = t <;> simp [ht]

def ReaderPc.pending (out : Output) : ReaderPc → List UInt8
  | .write out' rest => if out = out' then rest else []
  | _ => []

/-- Before a frame or in a `Write`. -/
def ReaderPc.reading : ReaderPc → Bool
  | .next | .write _ _ => true
  | _ => false

/-- A frame before the first EXIT frame: its output is to be written and nothing else changes but
the CPU time and the artifacts. -/
structure Handles (f : Frame) (s s' : RelayConn) : Prop where
  reads : s'.reads = s.reads
  made : s'.made = s.made
  pipe : s'.pipe = s.pipe
  unresolved : s'.exitOnce = s.exitOnce ∧ s'.exitCh = s.exitCh ∧ s'.exitClosed = s.exitClosed
  reading : s'.pc.reading = true
  pending : ∀ out, s'.pc.pending out = if f.ftype = out.ftype then f.payload else []

theorem Handles.silent (hpc : s'.pc = .next) (hreads : s'.reads = s.reads)
    (hmade : s'.made = s.made) (hpipe : s'.pipe = s.pipe)
    (hunresolved :
      s'.exitOnce = s.exitOnce ∧ s'.exitCh = s.exitCh ∧ s'.exitClosed = s.exitClosed)
    (hf : ∀ out : Output, f.ftype = out.ftype → f.payload = []) : Handles f s s' where
  reads := hreads
  made := hmade
  pipe := hpipe
  unresolved := hunresolved
  reading := by rw [hpc]; rfl
  pending out := by
    rw [hpc]
    split
    · next ht => exact (hf out ht).symm
    · rfl

theorem Output.ftype_injective {out out' : Output} (h : out.ftype = out'.ftype) : out = out' := by
  cases out <;> cases out' <;> first | rfl | exact absurd h (by decide)

theorem output_handles (hpc : s.pc = .next) (ht : f.ftype = out.ftype) :
    Handles f s (s.output out f.payload) := by
  unfold RelayConn.output
  split
  · constructor
    case pending =>
      intro out'
      simp only [ReaderPc.pending, ht]
      by_cases hout : out' = out
      · simp [hout]
      · rw [if_neg hout, if_neg fun h => hout (Output.ftype_injective h).symm]
    all_goals first | rfl | exact ⟨rfl, rfl, rfl⟩
  · next hempty =>
    have hnil : f.payload = [] := List.length_eq_zero_iff.mp (Nat.eq_zero_of_not_pos hempty)
    exact .silent hpc rfl rfl rfl ⟨rfl, rfl, rfl⟩ fun _ _ => hnil

theorem handle_handles (hpc : s.pc = .next) (hf : f.isExit = false) : Handles f s (s.handle f) := by
  have hexit : f.ftype ≠ tExit := of_decide_eq_false hf
  unfold RelayConn.handle
  by_cases hout : f.ftype = tStdout
  · rw [if_pos hout]
    exact output_handles hpc hout
  · by_cases herr : f.ftype = tStderr
    · rw [if_neg hout, if_pos herr]
      exact output_handles hpc herr
    · have hnone : ∀ out : Output, f.ftype = out.ftype → f.payload = [] := by
        intro out ht
        cases out
        · exact absurd ht hout
        · exact absurd ht herr
      rw [if_neg hout, if_neg herr]
      split
      · split <;> exact .silent hpc rfl rfl rfl ⟨rfl, rfl, rfl⟩ hnone
      · split
        · split <;> exact .silent hpc rfl rfl rfl ⟨rfl, rfl, rfl⟩ hnone
        · exact .silent hpc rfl rfl rfl ⟨rfl, rfl, rfl⟩ hnone

structure Leaves (e : RelayExit) (s s' : RelayConn) : Prop where
  pc : ∃ err, s'.pc = .closeStdout err e
  made : s'.made = s.made
  pipe : s'.pipe = s.pipe
  unresolved : s'.exitOnce = s.exitOnce ∧ s'.exitCh = s.exitCh ∧ s'.exitClosed = s.exitClosed
  reads : s'.reads = s.reads

theorem exit_leaves (s : RelayConn) (payload : List UInt8) :
    Leaves (unmarshalExit payload).relayExit s (s.exit payload) := by
  refine ⟨⟨_, rfl⟩, ?_, ?_, ?_, ?_⟩
  all_goals dsimp only [RelayConn.exit, RelayConn.closeOutputs]
  · split <;> rfl
  · split <;> rfl
  · split <;> exact ⟨rfl, rfl, rfl⟩
  · split <;> rfl

theorem handle_exit (hf : f.isExit = true) : s.handle f = s.exit f.payload := by
  have hexit : f.ftype = tExit := of_decide_eq_true hf
  unfold RelayConn.handle
  rw [hexit, if_neg (by decide), if_neg (by decide), if_neg (by decide), if_neg (by decide),
    if_pos rfl]

structure Reading (frames : List Frame) (s : RelayConn) : Prop where
  out : ∀ out, (s.pipe out).delivered ++ s.pc.pending out ++
    payloads out.ftype (beforeExit (framesOf s.reads)) = payloads out.ftype (beforeExit frames)
  exit : firstExit (framesOf s.reads) = firstExit frames

def RelayConn.Delivered (frames : List Frame) (s : RelayConn) : Prop :=
  ∀ out, (s.pipe out).delivered = payloads out.ftype (beforeExit frames)

def RelayConn.Unresolved (s : RelayConn) : Prop :=
  s.exitOnce = false ∧ s.exitCh = [] ∧ s.exitClosed = false

def RelayConn.Closed (s : RelayConn) (out : Output) : Prop := (s.pipe out).closed.isSome = true

def Phase (frames : List Frame) (s : RelayConn) : Prop :=
  match s.pc with
  | .next | .write _ _ => Reading frames s ∧ s.Unresolved
  | .closeStdout _ e => s.Delivered frames ∧ e.Says frames ∧ s.Unresolved
  | .closeStderr _ e => s.Delivered frames ∧ e.Says frames ∧ s.Unresolved ∧ s.Closed .stdout
  | .resolve e => s.Delivered frames ∧ e.Says frames ∧ s.Unresolved ∧ ∀ out, s.Closed out
  | .returned => s.Delivered frames ∧ (∀ out, s.Closed out) ∧ s.exitClosed = true ∧
    ∃ e : RelayExit, s.exitCh = [e] ∧ e.Says frames

/-- How many steps are left at most: two for each byte of the stream, one for each byte of the
current frame that its reader has not taken, and the way out. -/
def ReaderPc.left : ReaderPc → ℕ
  | .next => 4
  | .write _ rest => rest.length + 5
  | .closeStdout _ _ => 3
  | .closeStderr _ _ => 2
  | .resolve _ => 1
  | .returned => 0

def RelayConn.left (s : RelayConn) : ℕ := 2 * s.reads.flatten.length + s.pc.left

theorem Phase.of_reading (hpc : s.pc.reading = true) (h : Reading frames s)
    (hu : s.Unresolved) : Phase frames s := by
  unfold Phase
  cases hcase : s.pc with
  | next | write out rest => exact ⟨h, hu⟩
  | _ => rw [hcase] at hpc; cases hpc

theorem Phase.reading (h : Phase frames s) (hpc : s.pc.reading = true) :
    Reading frames s ∧ s.Unresolved := by
  unfold Phase at h
  cases hcase : s.pc with
  | next | write out rest => rwa [hcase] at h
  | _ => rw [hcase] at hpc; cases hpc

theorem Phase.start (reads : List (List UInt8)) :
    Phase (framesOf reads) (RelayConn.start reads) :=
  ⟨⟨fun _ => rfl, rfl⟩, rfl, rfl, rfl⟩

theorem Phase.leaves {made : List ℕ} (h : Reading frames s) (hu : s.Unresolved)
    (hpc : s.pc = .next) (hl : Leaves e (s.took made reads) s')
    (hrest : beforeExit (framesOf s.reads) = []) (he : e.Says frames) : Phase frames s' := by
  obtain ⟨err, hpc'⟩ := hl.pc
  unfold Phase
  rw [hpc']
  refine ⟨fun out => ?_, he, ?_⟩
  · have hout := h.out out
    rw [hrest, hpc] at hout
    rw [hl.pipe, ← hout]
    simp [payloads, ReaderPc.pending, RelayConn.took]
  · obtain ⟨honce, hch, hclosed⟩ := hl.unresolved
    exact ⟨honce.trans hu.1, hch.trans hu.2.1, hclosed.trans hu.2.2⟩

theorem Phase.handles {made : List ℕ} (h : Reading frames s) (hu : s.Unresolved)
    (hpc : s.pc = .next) (hframes : framesOf s.reads = f :: framesOf reads)
    (hf : f.isExit = false) (hh : Handles f (s.took made reads) s') : Phase frames s' := by
  have hreads : s'.reads = reads := hh.reads
  apply Phase.of_reading hh.reading
  · constructor
    · intro out
      have hout := h.out out
      rw [hframes, beforeExit_cons hf, payloads_cons, hpc] at hout
      rw [hh.pipe, hh.pending, hreads, ← hout]
      simp [ReaderPc.pending, RelayConn.took]
    · rw [hreads, ← h.exit, hframes, firstExit_cons hf]
  · obtain ⟨honce, hch, hclosed⟩ := hh.unresolved
    exact ⟨honce.trans hu.1, hch.trans hu.2.1, hclosed.trans hu.2.2⟩

theorem error_leaves (err : RelayError) (e : RelayExit) : Leaves e s (s.closeOutputs err e) :=
  ⟨⟨_, rfl⟩, rfl, rfl, ⟨rfl, rfl, rfl⟩, rfl⟩

theorem readNext_error {err : RelayError} (h : (decoderNext fin s.reads).1 = .error err) :
    s.readNext fin = (s.took (decoderNext fin s.reads).2 s.reads).closeOutputs err
      ⟨none, none, some (normalizeConnErr err)⟩ := by
  rw [RelayConn.readNext]
  generalize decoderNext fin s.reads = r at h ⊢
  obtain ⟨res, made⟩ := r
  obtain rfl : res = .error err := h
  rfl

theorem readNext_ok (h : (decoderNext fin s.reads).1 = .ok (f, reads')) :
    s.readNext fin = (s.took (decoderNext fin s.reads).2 reads').handle f := by
  rw [RelayConn.readNext]
  generalize decoderNext fin s.reads = r at h ⊢
  obtain ⟨res, made⟩ := r
  obtain rfl : res = .ok (f, reads') := h
  rfl

/-- One turn of the loop: a frame before the first EXIT frame, or a way out of the loop, with the
result that the stream asks for. -/
theorem readNext_cases (fin : ConnEnd) (hpc : s.pc = .next) :
    (∃ f reads', f.isExit = false ∧ framesOf s.reads = f :: framesOf reads' ∧
      s.reads.flatten.length = 5 + f.payload.length + reads'.flatten.length ∧
      Handles f (s.took (decoderNext fin s.reads).2 reads') (s.readNext fin)) ∨
    ∃ e reads', beforeExit (framesOf s.reads) = [] ∧ RelayExit.Says e (framesOf s.reads) ∧
      reads'.flatten.length ≤ s.reads.flatten.length ∧
      Leaves e (s.took (decoderNext fin s.reads).2 reads') (s.readNext fin) := by
  rcases decoderNext_cases fin s.reads with ⟨f, reads', hok, hnext⟩ | ⟨err, herr, hnext⟩
  · have hframes := framesOf_some hnext
    have hlen := length_of_next hnext
    rw [readNext_ok hok]
    cases hf : f.isExit with
    | true =>
      have hleaves := exit_leaves (s.took (decoderNext fin s.reads).2 reads') f.payload
      refine .inr ⟨_, reads', ?_, ?_, by omega, handle_exit hf ▸ hleaves⟩
      · rw [hframes, beforeExit_exit hf]
      · rw [RelayExit.Says, hframes, firstExit_exit hf]
    | false => exact .inl ⟨f, reads', hf, hframes, hlen, handle_handles hpc hf⟩
  · have hframes := framesOf_none hnext
    rw [readNext_error herr]
    refine .inr ⟨_, s.reads, ?_, ?_, Nat.le_refl _, error_leaves err _⟩
    · rw [hframes]
      rfl
    · rw [RelayExit.Says, hframes]
      exact ⟨err, rfl⟩

theorem Phase.readNext (h : Phase frames s) (hpc : s.pc = .next) :
    Phase frames (s.readNext fin) := by
  obtain ⟨hread, hu⟩ := h.reading (by rw [hpc]; rfl)
  rcases readNext_cases fin hpc with ⟨f, reads', hf, hframes, -, hh⟩ | ⟨e, reads', hnil, he, -, hl⟩
  · exact .handles hread hu hpc hframes hf hh
  · apply Phase.leaves hread hu hpc hl hnil
    rwa [RelayExit.Says, hread.exit] at he

theorem readNext_made (hpc : s.pc = .next) :
    (s.readNext fin).made = s.made ++ (decoderNext fin s.reads).2 := by
  rcases readNext_cases fin hpc with ⟨f, reads', -, -, -, hh⟩ | ⟨e, reads', -, -, -, hl⟩
  · exact hh.made
  · exact hl.made

theorem left_write_le (hreading : s.pc.reading = true) :
    ∃ out, s.pc.left ≤ (s.pc.pending out).length + 5 := by
  cases hpc : s.pc with
  | next => exact ⟨.stdout, by simp [ReaderPc.left]⟩
  | write out rest => exact ⟨out, by simp [ReaderPc.left, ReaderPc.pending]⟩
  | _ => rw [hpc] at hreading; cases hreading

theorem readNext_left (hpc : s.pc = .next) : (s.readNext fin).left < s.left := by
  unfold RelayConn.left
  rw [hpc]
  rcases readNext_cases fin hpc with ⟨f, reads', -, -, hlen, hh⟩ | ⟨e, reads', -, -, hlen, hl⟩
  · have hreads : (s.readNext fin).reads = reads' := hh.reads
    obtain ⟨out, hle⟩ := left_write_le hh.reading
    have hpending : ((s.readNext fin).pc.pending out).length ≤ f.payload.length := by
      rw [hh.pending]
      split <;> simp
    rw [hreads]
    simp only [ReaderPc.left] at *
    omega
  · obtain ⟨err, hpc'⟩ := hl.pc
    have hreads : (s.readNext fin).reads = reads' := hl.reads
    rw [hreads, hpc']
    simp only [ReaderPc.left]
    omega

theorem close_delivered (out out' : Output) (err : Option RelayError) :
    ((s.close out err).pipe out').delivered = (s.pipe out').delivered := by
  by_cases hout : out' = out
  · subst hout
    simp [RelayConn.close, Pipe.close]
  · simp [RelayConn.close, Function.update_of_ne hout]

theorem close_closed (out : Output) (err : Option RelayError) : (s.close out err).Closed out := by
  simp [RelayConn.Closed, RelayConn.close, Pipe.close]

theorem closed_of_closed {out' : Output} (h : s.Closed out') (err : Option RelayError) :
    (s.close out err).Closed out' := by
  by_cases hout : out' = out
  · subst hout
    exact close_closed out' err
  · simpa [RelayConn.Closed, RelayConn.close, Function.update_of_ne hout] using h

theorem Reading.take {rest : List UInt8} (h : Reading frames s) (hpc : s.pc = .write out rest)
    (n : ℕ) :
    Reading frames { s with
      pc := .write out (rest.drop (n + 1))
      pipe := Function.update s.pipe out
        { s.pipe out with delivered := (s.pipe out).delivered ++ rest.take (n + 1) } } := by
  refine ⟨fun out' => ?_, h.exit⟩
  have hout := h.out out'
  rw [hpc] at hout
  rw [← hout]
  by_cases hsame : out' = out
  · subst hsame
    simp [ReaderPc.pending, List.append_assoc]
  · simp [ReaderPc.pending, hsame]

theorem Phase.step (h : Phase frames s) (hs : s.step fin a = some s') :
    Phase frames s' ∧ s'.left < s.left := by
  cases a with
  | go =>
    simp only [RelayConn.step] at hs
    split at hs
    · next hpc =>
      cases hs
      exact ⟨h.readNext hpc, readNext_left hpc⟩
    · next out rest hpc =>
      split at hs <;> cases hs
      next hrest =>
      obtain ⟨hread, hu⟩ := h.reading (by rw [hpc]; rfl)
      refine ⟨⟨⟨fun out => ?_, hread.exit⟩, hu⟩, ?_⟩
      · have hout := hread.out out
        rw [hpc, hrest] at hout
        simpa [ReaderPc.pending] using hout
      · simp only [RelayConn.left, hpc, ReaderPc.left]
        omega
    · next err e hpc =>
      cases hs
      simp only [Phase, hpc] at h
      obtain ⟨hdelivered, he, hu⟩ := h
      refine ⟨⟨fun out => ?_, he, hu, close_closed .stdout err⟩, ?_⟩
      · exact (close_delivered .stdout out err).trans (hdelivered out)
      · simp [RelayConn.left, hpc, ReaderPc.left, RelayConn.close]
    · next err e hpc =>
      cases hs
      simp only [Phase, hpc] at h
      obtain ⟨hdelivered, he, hu, hclosed⟩ := h
      refine ⟨⟨fun out => ?_, he, hu, fun out => ?_⟩, ?_⟩
      · exact (close_delivered .stderr out err).trans (hdelivered out)
      · cases out
        · exact closed_of_closed hclosed err
        · exact close_closed .stderr err
      · simp [RelayConn.left, hpc, ReaderPc.left, RelayConn.close]
    · next e hpc =>
      cases hs
      simp only [Phase, hpc] at h
      obtain ⟨hdelivered, he, ⟨honce, hch, -⟩, hclosed⟩ := h
      have hresolve : s.resolveExit e =
          { s with exitOnce := true, exitCh := [e], exitClosed := true } := by
        rw [RelayConn.resolveExit, honce, hch]
        rfl
      rw [hresolve]
      refine ⟨⟨hdelivered, hclosed, rfl, e, rfl, he⟩, ?_⟩
      simp [RelayConn.left, hpc, ReaderPc.left]
    · cases hs
  | take out n =>
    simp only [RelayConn.step] at hs
    split at hs
    · next out' rest hpc =>
      split at hs <;> cases hs
      next hguard =>
      obtain ⟨rfl, hrest⟩ := hguard
      obtain ⟨hread, hu⟩ := h.reading (by rw [hpc]; rfl)
      refine ⟨⟨hread.take hpc n, hu⟩, ?_⟩
      have hpos : 0 < rest.length := List.length_pos_of_ne_nil hrest
      simp only [RelayConn.left, hpc, ReaderPc.left, List.length_drop]
      omega
    · cases hs

theorem step_made (h : ∀ n ∈ s.made, n ≤ maxFramePayload) (hs : s.step fin a = some s') :
    ∀ n ∈ s'.made, n ≤ maxFramePayload := by
  cases a with
  | go =>
    simp only [RelayConn.step] at hs
    split at hs
    · next hpc =>
      cases hs
      rw [readNext_made hpc]
      intro n hn
      rcases List.mem_append.mp hn with hn | hn
      · exact h n hn
      · exact (decoderNext_spec fin s.reads).2 n hn
    · split at hs <;> cases hs
      exact h
    · cases hs
      exact h
    · cases hs
      exact h
    · cases hs
      unfold RelayConn.resolveExit
      split <;> exact h
    · cases hs
  | take out n =>
    simp only [RelayConn.step] at hs
    split at hs
    · split at hs <;> cases hs
      exact h
    · cases hs

/-- While the goroutine runs it has a step to take, or the reader of the pipe that it writes to. -/
theorem exists_step (fin : ConnEnd) (hpc : s.pc ≠ .returned) :
    ∃ a s', s.step fin a = some s' := by
  cases hcase : s.pc with
  | write out rest =>
    by_cases hrest : rest = []
    · exact ⟨.go, _, by simp only [RelayConn.step, hcase, hrest, if_true]; rfl⟩
    · exact ⟨.take out 0, _, by
        simp only [RelayConn.step, hcase, ne_eq, hrest, not_false_eq_true, and_self, if_true]; rfl⟩
  | returned => exact absurd hcase hpc
  | _ => exact ⟨.go, _, by simp only [RelayConn.step, hcase]; rfl⟩

theorem run_left {as : List ReaderAct} (h : Phase frames s)
    (hr : run (RelayConn.step fin) s as = some s') : as.length + s'.left ≤ s.left := by
  induction as generalizing s with
  | nil =>
    cases hr
    exact Nat.le_of_eq (Nat.zero_add _)
  | cons a as ih =>
    obtain ⟨s₁, hs, hr⟩ := run_cons_eq_some.mp hr
    obtain ⟨h₁, hlt⟩ := h.step hs
    have hle := ih h₁ hr
    rw [List.length_cons]
    omega

theorem run_phase {as : List ReaderAct} (hr : run (RelayConn.step fin) (.start reads) as = some s) :
    Phase (framesOf reads) s :=
  Reachable.invariant (fun _ _ _ h hs => (Phase.step h hs).1) (Phase.start reads) ⟨as, hr⟩

theorem returned_says {as : List ReaderAct}
    (hr : run (RelayConn.step fin) (.start reads) as = some s) (hpc : s.pc = .returned) :
    s.Delivered (framesOf reads) ∧ ∃ e, s.exitCh = [e] ∧ RelayExit.Says e (framesOf reads) := by
  have hphase := run_phase hr
  simp only [Phase, hpc] at hphase
  obtain ⟨hdelivered, -, -, hexit⟩ := hphase
  exact ⟨hdelivered, hexit⟩

/-- Whatever bytes come and however they end, the reader takes a bounded number of steps and never
waits but for the reader of a pipe. It makes no payload buffer above the limit. When it has
returned, both pipes are closed and have carried the output of the complete frames before the
first EXIT frame or decoding error, and the exit channel is closed with one result in it, an
error exactly if the EXIT frame is missing or carries one. -/
theorem startReader_total {as : List ReaderAct}
    (hr : run (RelayConn.step fin) (.start reads) as = some s) :
    as.length ≤ 2 * reads.flatten.length + 4 ∧
    (s.pc ≠ .returned → ∃ a s', s.step fin a = some s') ∧
    (∀ n ∈ s.made, n ≤ maxFramePayload) ∧
    (s.pc = .returned →
      (∀ out, (s.pipe out).closed.isSome = true ∧
        (s.pipe out).delivered = payloads out.ftype (beforeExit (framesOf reads))) ∧
      s.exitClosed = true ∧
      ∃ e, s.exitCh = [e] ∧ (e.err.isSome = true ↔
        ∀ f ∈ firstExit (framesOf reads), (unmarshalExit f.payload).error ≠ [])) := by
  have hphase := run_phase hr
  have hmade : ∀ n ∈ s.made, n ≤ maxFramePayload :=
    Reachable.invariant (I := fun s : RelayConn => ∀ n ∈ s.made, n ≤ maxFramePayload)
      (fun _ _ _ h hs => step_made h hs) (List.forall_mem_nil _) ⟨as, hr⟩
  refine ⟨?_, exists_step fin, hmade, fun hpc => ?_⟩
  · have hle := run_left (Phase.start reads) hr
    have hstart : (RelayConn.start reads).left = 2 * reads.flatten.length + 4 := rfl
    omega
  · simp only [Phase, hpc] at hphase
    obtain ⟨hdelivered, hclosed, hexit, e, hch, he⟩ := hphase
    exact ⟨fun out => ⟨hclosed out, hdelivered out⟩, hexit, e, hch, he.fits⟩

/-- An output frame in two reads, an artifact too short for its name, and a header cut short. -/
def cutStream : List (List UInt8) :=
  [[0x11, 0, 0, 0, 2, 0x68], [0x69, 0x15, 0, 0, 0, 4, 0, 0, 0, 9], [0x14, 0, 0]]

theorem startReader_total_cutStream :
    ∃ s, run (RelayConn.step .eof) (.start cutStream)
        [.go, .take .stdout 0, .take .stdout 7, .go, .go, .go, .go, .go, .go] = some s ∧
      s.exitClosed = true ∧
      ∃ e, s.exitCh = [e] ∧ e.err.isSome = true := by
  obtain ⟨s, hr, hpc⟩ : ∃ s, run (RelayConn.step .eof) (.start cutStream)
      [.go, .take .stdout 0, .take .stdout 7, .go, .go, .go, .go, .go, .go] = some s ∧
      s.pc = .returned := ⟨_, rfl, rfl⟩
  obtain ⟨-, -, -, hreturned⟩ := startReader_total hr
  obtain ⟨-, hclosed, e, he, herr⟩ := hreturned hpc
  exact ⟨s, hr, hclosed, e, he, herr.mpr (by decide)⟩

/-- The error is kept though the code before it is of the wrong kind. -/
example : unmarshalExit (jsonBytes "\x7b\"exitCode\": \"1\", \"error\": \"no\"\x7d") =
    ⟨some 0, none, [0x6E, 0x6F], false⟩ := by
  decide

end CodeRunner.Relay
