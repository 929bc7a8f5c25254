import CodeRunner.Zygote.Started

/-! # A job from end to end

The agent runs `handle_job`, and the worker its handshake and then the reader of the connection.
When no frame breaks off, the worker has of the job what the agent had: the output, the artifacts,
and the status of the session or the text of what was raised.
-/

namespace CodeRunner.Zygote

open Incremental Json Relay Transition

/-- No frame after STARTED breaks off. `relay_loop` sends output and CPU frames, and all that it
raises fits into a frame. -/
structure Env.Whole (env : Env) : Prop where
  relayed : ∀ e ∈ env.relayed, e.cut = none ∧ e.frame.ftype ∈ [tStdout, tStderr, tCpu] ∧
    e.frame.payload.length ≤ maxFramePayload
  artifacts : ∀ i, env.artifactFault i = none
  told : ∀ e, env.relay = .error e → (errorFrame e.text).payload.length ≤ maxFramePayload

/-- The frames between STARTED and EXIT. -/
def Env.frames (env : Env) : List Relay.Frame :=
  env.relayed.map (·.frame) ++ (env.artifacts.filter fun a => a.Fits).map Artifact.frame

def ExitStatus.relayExit (status : ExitStatus) : RelayExit :=
  ⟨status.exitCode.map fun n => (n.toNat : ℤ), status.signal.map fun n => (n.toNat : ℤ), none⟩

def Exn.relayExit (e : Exn) : RelayExit := ⟨none, none, some (.reported (utf8 e.text))⟩

/-- How the job ends for the worker: with what `relay_loop` raised, or with the status of the
session. -/
def Env.result (env : Env) : RelayExit :=
  match env.relay with
  | .error e => e.relayExit
  | .ok (status, _) => ExitStatus.relayExit status

def capture? (f : Relay.Frame) : Option CapturedArtifact :=
  if f.ftype = tArtifact then (decodeArtifactFrame f.payload).toOption else none

variable {fin : ConnEnd} {reads : List (List UInt8)} {f g : Relay.Frame} {fs : List Relay.Frame}
  {p : HelloPayload} {env : Env} {realpid : ℕ} {hello : Hello} {out : Output}
  {s s' : RelayConn} {a : ReaderAct}

theorem flatMap_send (fs : List Relay.Frame) :
    (fs.map Event.send).flatMap Event.bytes = fs.flatMap Frame.bytes := by
  rw [List.flatMap_map]
  rfl

theorem sent_eq (h : env.Opens realpid hello) (htells : env.Tells) (hwhole : env.Whole) :
    ∃ f, env.ConcludesWith f ∧ env.handleJob.sent =
      (env.started realpid hello).bytes ++ (env.frames ++ [f]).flatMap Frame.bytes := by
  obtain ⟨early, tail, htrace, -, -, -, -, hlast, hearly⟩ := handleJob_trace h
  obtain ⟨f, rfl, hf⟩ := hlast htells
  have hrelayed : env.relayed.map (·.event) = (env.relayed.map (·.frame)).map Event.send := by
    rw [List.map_map]
    apply List.map_congr_left
    intro e he
    rw [Function.comp_apply, Emission.event, (hwhole.relayed e he).1]
  have hoffered : offered env.artifacts =
      ((env.artifacts.filter fun a => a.Fits).map Artifact.frame).map Event.send := by
    rw [offered, List.map_map]
    rfl
  have hframes : early = (env.started realpid hello :: env.frames).map Event.send := by
    rw [hearly hwhole.artifacts, hrelayed, hoffered, Env.frames, List.map_cons, List.map_append,
      List.cons_append]
  refine ⟨f, hf, ?_⟩
  rw [Job.sent, htrace, List.cons_append, List.cons_append, List.flatMap_cons, List.flatMap_append,
    List.flatMap_append, hframes, flatMap_send]
  simp [Event.bytes]

theorem mem_frames (hwhole : env.Whole) (hg : g ∈ env.frames) :
    g.isExit = false ∧ g.payload.length ≤ maxFramePayload := by
  rcases List.mem_append.mp hg with hg | hg
  · obtain ⟨e, he, rfl⟩ := List.mem_map.mp hg
    exact ⟨decide_eq_false e.noExit, (hwhole.relayed e he).2.2⟩
  · obtain ⟨a, ha, rfl⟩ := List.mem_map.mp hg
    have hfits : a.Fits := by simpa using (List.mem_filter.mp ha).2
    exact ⟨rfl, hfits.frame_length⟩

theorem beforeExit_append (hfs : ∀ g ∈ fs, g.isExit = false) (hf : f.isExit = true) :
    beforeExit (fs ++ [f]) = fs ∧ firstExit (fs ++ [f]) = some f := by
  induction fs with
  | nil => exact ⟨beforeExit_exit hf, firstExit_exit hf⟩
  | cons g fs ih =>
    obtain ⟨hg, hfs⟩ := List.forall_mem_cons.mp hfs
    obtain ⟨hbefore, hfirst⟩ := ih hfs
    rw [List.cons_append]
    exact ⟨by rw [beforeExit_cons hg, hbefore], by rw [firstExit_cons hg, hfirst]⟩

theorem payloads_frames (env : Env) (out : Output) :
    payloads out.ftype env.frames = payloads out.ftype (env.relayed.map (·.frame)) := by
  have hart : tArtifact ≠ out.ftype := by cases out <;> decide
  have hnone : payloads out.ftype ((env.artifacts.filter fun a => a.Fits).map Artifact.frame) =
      [] := by
    rw [payloads, List.filter_eq_nil_iff.mpr, List.flatMap_nil]
    intro g hg
    obtain ⟨a, -, rfl⟩ := List.mem_map.mp hg
    exact fun h => hart (of_decide_eq_true h)
  unfold payloads at hnone ⊢
  rw [Env.frames, List.filter_append, List.flatMap_append, hnone, List.append_nil]

theorem utf8_ne_nil {s : String} (h : s ≠ "") : utf8 s ≠ [] := by
  intro hnil
  have hdecode := congrArg Utf8.decode hnil
  rw [utf8, Utf8.decode_encode] at hdecode
  exact h (String.toList_eq_nil_iff.mp hdecode)

theorem relayExit_error {e : Exn} (h : e.text ≠ "") :
    (unmarshalExit (errorFrame e.text).payload).relayExit = e.relayExit := by
  rw [unmarshalExit_error, ExitPayload.relayExit, if_pos (utf8_ne_nil h)]
  rfl

theorem relayExit_status (status : ExitStatus) (truncated : Bool) :
    (unmarshalExit (exitFrame status truncated).payload).relayExit =
      ExitStatus.relayExit status := by
  rw [unmarshalExit_frame, ExitPayload.relayExit, if_neg (not_not_intro rfl)]
  rfl

theorem artifactError_none (h : ∀ i, env.artifactFault i = none) (i : ℕ)
    (artifacts : List Artifact) : env.artifactError i artifacts = none := by
  induction artifacts generalizing i with
  | nil => rfl
  | cons a artifacts ih =>
    rw [Env.artifactError, h i]
    dsimp only
    rw [ih, ite_self]

theorem result_of_concludes (htells : env.Tells) (hwhole : env.Whole)
    (h : env.ConcludesWith f) : f.isExit = true ∧ f.payload.length ≤ maxFramePayload ∧
      (unmarshalExit f.payload).relayExit = env.result ∧
      (unmarshalExit f.payload).artifactsTruncated = leavesOut env.artifacts := by
  have hconcludes := htells.2
  unfold Env.ConcludesWith at h
  unfold Env.Concludes at hconcludes
  unfold Env.result
  cases hrelay : env.relay with
  | error e =>
    rw [hrelay] at h hconcludes
    obtain rfl : f = errorFrame e.text := h
    refine ⟨rfl, hwhole.told e hrelay, relayExit_error hconcludes.1.2, ?_⟩
    rw [unmarshalExit_error, Env.artifacts, hrelay]
    rfl
  | ok r =>
    obtain ⟨status, artifacts⟩ := r
    rw [hrelay] at h
    dsimp only at h
    rw [artifactError_none hwhole.artifacts] at h
    obtain ⟨truncated, rfl, htruncated⟩ := h
    refine ⟨rfl, exitFrame_length status truncated, relayExit_status status truncated, ?_⟩
    rw [unmarshalExit_frame, Env.artifacts, hrelay]
    exact htruncated hwhole.artifacts

def saysTruncated (frames : List Relay.Frame) : Bool :=
  (firstExit frames).any fun f => (unmarshalExit f.payload).artifactsTruncated

theorem saysTruncated_exit (hf : f.isExit = true) :
    saysTruncated (f :: fs) = (unmarshalExit f.payload).artifactsTruncated := by
  rw [saysTruncated, firstExit_exit hf]
  rfl

theorem saysTruncated_cons (hf : f.isExit = false) :
    saysTruncated (f :: fs) = saysTruncated fs := by
  rw [saysTruncated, firstExit_cons hf, saysTruncated]

/-- The reader has the artifacts of the frames that it has taken, and what EXIT says about them. -/
structure Gathers (frames : List Relay.Frame) (s : RelayConn) : Prop where
  artifacts : s.artifacts ++
      (if s.pc.reading then (beforeExit (framesOf s.reads)).filterMap capture? else []) =
    (beforeExit frames).filterMap capture?
  truncated : (s.artifactsTruncated || (s.pc.reading && saysTruncated (framesOf s.reads))) =
    saysTruncated frames

theorem exit_gathers (s : RelayConn) (payload : List UInt8) :
    (s.exit payload).artifacts = s.artifacts ∧ (s.exit payload).artifactsTruncated =
      (s.artifactsTruncated || (unmarshalExit payload).artifactsTruncated) := by
  dsimp only [RelayConn.exit, RelayConn.closeOutputs]
  split
  · next h => simp [h]
  · next h => simp [h]

theorem output_gathers (s : RelayConn) (payload : List UInt8) :
    (s.output out payload).artifacts = s.artifacts ∧
      (s.output out payload).artifactsTruncated = s.artifactsTruncated := by
  unfold RelayConn.output
  split <;> exact ⟨rfl, rfl⟩

theorem handle_gathers (hf : f.isExit = false) (s : RelayConn) :
    (s.handle f).artifacts = s.artifacts ++ (capture? f).toList ∧
      (s.handle f).artifactsTruncated = s.artifactsTruncated := by
  have hexit : f.ftype ≠ tExit := of_decide_eq_false hf
  unfold RelayConn.handle capture?
  by_cases hart : f.ftype = tArtifact
  · rw [hart, if_neg (by decide), if_neg (by decide), if_neg (by decide), if_pos rfl, if_pos rfl]
    cases decodeArtifactFrame f.payload <;> simp [Except.toOption]
  · simp only [hart, hexit, if_false, Option.toList_none, List.append_nil]
    split
    · exact output_gathers s f.payload
    · split
      · exact output_gathers s f.payload
      · split
        · split <;> exact ⟨rfl, rfl⟩
        · exact ⟨rfl, rfl⟩

theorem Gathers.of_eq (h : Gathers fs s) (hreads : s'.reads = s.reads)
    (hartifacts : s'.artifacts = s.artifacts)
    (htruncated : s'.artifactsTruncated = s.artifactsTruncated)
    (hreading : s'.pc.reading = s.pc.reading) : Gathers fs s' := by
  obtain ⟨h₁, h₂⟩ := h
  constructor
  · rw [hartifacts, hreading, hreads, h₁]
  · rw [htruncated, hreading, hreads, h₂]

theorem Gathers.readNext (h : Gathers fs s) (hpc : s.pc = .next) :
    Gathers fs (s.readNext fin) := by
  obtain ⟨hartifacts, htruncated⟩ := h
  rw [hpc] at hartifacts htruncated
  rcases decoderNext_cases fin s.reads with ⟨f, reads', hok, hnext⟩ | ⟨err, herr, hnext⟩
  · rw [framesOf_some hnext] at hartifacts htruncated
    rw [readNext_ok hok]
    cases hf : f.isExit with
    | true =>
      have hleaves := exit_leaves (s.took (decoderNext fin s.reads).2 reads') f.payload
      obtain ⟨err, hpc'⟩ := hleaves.pc
      obtain ⟨hart, htr⟩ := exit_gathers (s.took (decoderNext fin s.reads).2 reads') f.payload
      constructor
      · rw [handle_exit hf, hart, hpc', ← hartifacts, beforeExit_exit hf]
        rfl
      · rw [handle_exit hf, htr, hpc', ← htruncated, saysTruncated_exit hf]
        exact Bool.or_false _
    | false =>
      have hhandles := handle_handles (s := s.took (decoderNext fin s.reads).2 reads') hpc hf
      have hreads : ((s.took (decoderNext fin s.reads).2 reads').handle f).reads = reads' :=
        hhandles.reads
      obtain ⟨hart, htr⟩ := handle_gathers hf (s.took (decoderNext fin s.reads).2 reads')
      constructor
      · rw [hart, hhandles.reading, hreads, ← hartifacts, beforeExit_cons hf, List.append_assoc]
        cases hcapture : capture? f <;> simp [hcapture, RelayConn.took, ReaderPc.reading]
      · rw [htr, hhandles.reading, hreads, ← htruncated, saysTruncated_cons hf]
        rfl
  · rw [framesOf_none hnext] at hartifacts htruncated
    rw [readNext_error herr]
    exact ⟨hartifacts, htruncated⟩

theorem Gathers.step (h : Gathers fs s) (hs : s.step fin a = some s') : Gathers fs s' := by
  cases a with
  | go =>
    simp only [RelayConn.step] at hs
    split at hs
    · next hpc =>
      cases hs
      exact h.readNext hpc
    · next hpc =>
      split at hs <;> cases hs
      exact h.of_eq rfl rfl rfl (by rw [hpc]; rfl)
    · next hpc =>
      cases hs
      exact h.of_eq rfl rfl rfl (by rw [hpc]; rfl)
    · next hpc =>
      cases hs
      exact h.of_eq rfl rfl rfl (by rw [hpc]; rfl)
    · next hpc =>
      cases hs
      unfold RelayConn.resolveExit
      split <;> exact h.of_eq rfl rfl rfl (by rw [hpc]; rfl)
    · cases hs
  | take out n =>
    simp only [RelayConn.step] at hs
    split at hs
    · next hpc =>
      split at hs <;> cases hs
      exact h.of_eq rfl rfl rfl (by rw [hpc]; rfl)
    · cases hs

theorem returned_gathers {as : List ReaderAct}
    (hr : run (RelayConn.step fin) (.start reads) as = some s) (hpc : s.pc = .returned) :
    s.artifacts = (beforeExit (framesOf reads)).filterMap capture? ∧
      s.artifactsTruncated = saysTruncated (framesOf reads) := by
  have hstart : Gathers (framesOf reads) (.start reads) := ⟨rfl, rfl⟩
  obtain ⟨hartifacts, htruncated⟩ : Gathers (framesOf reads) s :=
    Reachable.invariant (fun _ _ _ h hs => Gathers.step h hs) hstart ⟨as, hr⟩
  rw [hpc] at hartifacts htruncated
  rw [← hartifacts, ← htruncated]
  exact ⟨(List.append_nil _).symm, (Bool.or_false _).symm⟩

theorem captures_artifacts {artifacts : List Artifact} (h : ∀ a ∈ artifacts, a.Fits) :
    (artifacts.map Artifact.frame).filterMap capture? = artifacts.map Artifact.captured := by
  induction artifacts with
  | nil => rfl
  | cons a artifacts ih =>
    obtain ⟨ha, hrest⟩ := List.forall_mem_cons.mp h
    have htype : a.frame.ftype = tArtifact := rfl
    have hcapture : capture? a.frame = some a.captured := by
      rw [capture?, if_pos htype, decodeArtifactFrame_frame ha]
      rfl
    rw [List.map_cons, List.map_cons, List.filterMap_cons_some hcapture, ih hrest]

theorem captures_frames (hwhole : env.Whole) : env.frames.filterMap capture? =
    (env.artifacts.filter fun a => a.Fits).map Artifact.captured := by
  have hrelayed : (env.relayed.map (·.frame)).filterMap capture? = [] := by
    rw [List.filterMap_eq_nil_iff]
    intro g hg
    obtain ⟨e, he, rfl⟩ := List.mem_map.mp hg
    have hart : e.frame.ftype ≠ tArtifact := by
      intro h
      have hmem := (hwhole.relayed e he).2.1
      rw [h] at hmem
      revert hmem
      decide
    rw [capture?, if_neg hart]
  rw [Env.frames, List.filterMap_append, hrelayed, List.nil_append, captures_artifacts]
  intro a ha
  simpa using (List.mem_filter.mp ha).2

/-- A reader that has returned has put through the pipes what the frames before EXIT carry, and has
the artifacts and the result that they say. -/
theorem reader_told {as : List ReaderAct} (hfs : ∀ g ∈ fs, g.isExit = false)
    (hexit : f.isExit = true) (hfit : ∀ g ∈ fs ++ [f], g.payload.length ≤ maxFramePayload)
    (hreads : reads.flatten = (fs ++ [f]).flatMap Frame.bytes)
    (hr : run (RelayConn.step fin) (.start reads) as = some s) (hpc : s.pc = .returned) :
    (∀ out, (s.pipe out).delivered = payloads out.ftype fs) ∧
      s.artifacts = fs.filterMap capture? ∧
      s.artifactsTruncated = (unmarshalExit f.payload).artifactsTruncated ∧
      s.exitCh = [(unmarshalExit f.payload).relayExit] := by
  have hframes : framesOf reads = fs ++ [f] := by
    have hdrain := frameDecoder_drain hfit []
    rw [List.append_nil, ← hreads] at hdrain
    rw [framesOf, hdrain]
    exact List.append_nil _
  obtain ⟨hbefore, hfirst⟩ := beforeExit_append hfs hexit
  obtain ⟨hdelivered, e, hch, hsays⟩ := returned_says hr hpc
  obtain ⟨hartifacts, hsaid⟩ := returned_gathers hr hpc
  rw [hframes] at hdelivered hsays hartifacts hsaid
  refine ⟨fun out => ?_, ?_, ?_, ?_⟩
  · rw [hdelivered, hbefore]
  · rw [hartifacts, hbefore]
  · rw [hsaid, saysTruncated, hfirst]
    rfl
  · rw [RelayExit.Says, hfirst] at hsays
    rw [hch]
    exact congrArg (fun e => [e]) hsays

/-- Whatever the session prints and however the network cuts the stream, a worker whose reader has
returned has put all output that the agent relayed through the pipes, and has every artifact within
the frame limit, whether there were others, and the result of the job. -/
theorem job_relayed (hhears : env.Hears p) (hsane : env.Sane) (hstarts : env.Starts p realpid)
    (htells : env.Tells) (hwhole : env.Whole) (hreads : reads.flatten = env.handleJob.sent) :
    ∃ leaf reads', leaf = env.leaf realpid (readHello p.toHello env.uidBase env.n) ∧
      readStarted fin reads = .ok (⟨realpid, leaf⟩, reads') ∧
      ∀ as s, run (RelayConn.step fin) (.start reads') as = some s → s.pc = .returned →
        (∀ out, (s.pipe out).delivered =
          payloads out.ftype (env.relayed.map (·.frame))) ∧
        s.artifacts = (env.artifacts.filter fun a => a.Fits).map Artifact.captured ∧
        s.artifactsTruncated = leavesOut env.artifacts ∧ s.exitCh = [env.result] := by
  have hopens := (opens_iff hhears).mpr ⟨rfl, hstarts⟩
  obtain ⟨f, hlast, hsent⟩ := sent_eq hopens htells hwhole
  obtain ⟨hexit, hlen, hresult, htruncated⟩ := result_of_concludes htells hwhole hlast
  have hfit : ∀ g ∈ env.frames ++ [f], g.payload.length ≤ maxFramePayload :=
    List.forall_mem_append.mpr ⟨fun g hg => (mem_frames hwhole hg).2,
      List.forall_mem_singleton.mpr hlen⟩
  obtain ⟨reads', hread, hrest⟩ := readStarted_bytes (hsane.pid _ _ hstarts.2.2)
    (fun _ hf => absurd hf List.not_mem_nil) (hreads.trans hsent)
  refine ⟨_, reads', rfl, hread, fun as s hr hpc => ?_⟩
  obtain ⟨hdelivered, hartifacts, hsaid, hch⟩ :=
    reader_told (fun g hg => (mem_frames hwhole hg).1) hexit hfit hrest hr hpc
  refine ⟨fun out => ?_, ?_, ?_, ?_⟩
  · rw [hdelivered, payloads_frames]
  · rw [hartifacts, captures_frames hwhole]
  · rw [hsaid, htruncated]
  · rw [hch, hresult]

theorem printsOne_starts : printsOne.Starts printOne 42 := ⟨fun _ => rfl, rfl, rfl⟩

theorem printsOne_whole : printsOne.Whole where
  relayed := List.forall_mem_singleton.mpr ⟨rfl, by decide, by decide⟩
  artifacts _ := rfl
  told := nofun

theorem job_relayed_printsOne :
    ∃ reads', readStarted .eof [printsOne.handleJob.sent] = .ok (⟨42, true⟩, reads') ∧
      ∀ as s, run (RelayConn.step .eof) (.start reads') as = some s → s.pc = .returned →
        (s.pipe .stdout).delivered = [0x31, 0x0A] ∧ s.artifacts = [⟨[0x61], "", [0x41]⟩] ∧
          s.artifactsTruncated = false ∧ s.exitCh = [⟨some 0, none, none⟩] := by
  obtain ⟨leaf, reads', hleaf, hread, hreader⟩ := job_relayed printsOne_hears printsOne_sane
    printsOne_starts ⟨rfl, nofun⟩ printsOne_whole (List.flatten_singleton ..)
  obtain rfl : leaf = true := hleaf
  refine ⟨reads', hread, fun as s hr hpc => ?_⟩
  obtain ⟨hout, hrest⟩ := hreader as s hr hpc
  exact ⟨hout .stdout, hrest⟩

end CodeRunner.Zygote
