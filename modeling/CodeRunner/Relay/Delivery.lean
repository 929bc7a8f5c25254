import CodeRunner.Relay.Integrity

/-! # What is delivered before the EXIT frame

On a connection that stays open and writable, the loop loses output in one way only: it
returns on an empty leaf, or five seconds after a kill, with bytes of the session still in
its sockets. It reads at most one buffer from each socket in a pass, so the pass that reaps
the session may leave some.
-/

namespace CodeRunner.Relay

open Transition

/-- The payloads of the frames of one type, in order. -/
def payloads (t : UInt8) (fs : List Frame) : List UInt8 :=
  (fs.filter (·.ftype = t)).flatMap Frame.payload

/-- What the worker decodes from the frames of one type. -/
def State.delivered (s : State) (t : UInt8) : List UInt8 :=
  payloads t (frameDecoder.drain s.outbox.bytes).1

def Pc.returned : Pc → Bool
  | .artifacts _ _ | .sendArtifact _ _ _ | .sendExit _ | .done => true
  | _ => false

/-- Once the loop has returned, everything that the session wrote to its output has gone out
in frames, and every artifact record that it completed has been returned. -/
def State.Delivered (s : State) : Prop :=
  s.pc.returned = true →
    s.delivered tStdout = (s.streams .out).bytes ∧
    s.delivered tStderr = (s.streams .err).bytes ∧
    s.artifacts = (artifactReader.drain (s.streams .art).bytes).1

/-- The sockets hold no more output, and what the artifact socket holds completes no record. -/
def State.Drained (s : State) : Prop :=
  (s.streams .out).unread = [] ∧ (s.streams .err).unread = [] ∧
    (artifactReader.drain (s.artReader ++ (s.streams .art).unread)).1 = []

/-- The loop returns with a stream still open only when the sockets are drained. -/
def ExitsDrained (s : State) : Act → Prop
  | .agent o => ∀ now, s.pc = .terminal now → s.exitsEarly now o.leafEmpty = true → s.Drained
  | _ => True

instance (s : State) : Decidable s.Drained := inferInstanceAs (Decidable (_ ∧ _ ∧ _))

instance (s : State) : (a : Act) → Decidable (ExitsDrained s a)
  | .agent o =>
    match hpc : s.pc with
    | .terminal now =>
      decidable_of_iff (s.exitsEarly now o.leafEmpty = true → s.Drained)
        (by simp [ExitsDrained, hpc])
    | .reap | .select | .conn _ | .frames _ | .child _ _ | .cpu | .artifacts _ _
    | .sendArtifact _ _ _ | .sendExit _ | .done => isTrue (by simp [ExitsDrained, hpc])
  | .write _ _ | .close _ | .exit _ | .readStdin _ | .closeStdin | .send _ | .drain _ | .closeConn
  | .reset | .tick _ => isTrue trivial

/-- The connection stays open and has room for every frame of the loop. -/
def Writable (s : State) (a : Act) : Prop := KeepsOpen s a ∧ Fits s a

instance Writable.instDecidable (s : State) (a : Act) : Decidable (Writable s a) :=
  inferInstanceAs (Decidable (KeepsOpen s a ∧ Fits s a))

theorem payloads_append (t : UInt8) (fs gs : List Frame) :
    payloads t (fs ++ gs) = payloads t fs ++ payloads t gs := by
  simp [payloads]

theorem payloads_of_ne {t : UInt8} {fs : List Frame} (h : ∀ f ∈ fs, f.ftype ≠ t) :
    payloads t fs = [] := by
  have hfilter : fs.filter (·.ftype = t) = [] := by
    simpa [List.filter_eq_nil_iff] using h
  rw [payloads, hfilter, List.flatMap_nil]

def Frame.Quiet (f : Frame) : Prop := f.ftype ≠ tStdout ∧ f.ftype ≠ tStderr

theorem Frame.quiet_of_ftype {f : Frame}
    (h : f.ftype = tCpu ∨ f.ftype = tArtifact ∨ f.ftype = tExit) : f.Quiet := by
  unfold Frame.Quiet
  rcases h with h | h | h <;> rw [h] <;> decide

theorem payloads_quiet {fs : List Frame} {t : UInt8} (h : ∀ f ∈ fs, f.Quiet)
    (ht : t = tStdout ∨ t = tStderr) : payloads t fs = [] := by
  refine payloads_of_ne fun f hf => ?_
  rcases ht with rfl | rfl
  · exact (h f hf).1
  · exact (h f hf).2

/-- A frame that a blocking send has not finished carries no output. -/
def State.SendsQuiet (s : State) : Prop :=
  s.pending = [] ∨ ∃ init f part, s.meant = init ++ [f] ∧ f.Quiet ∧ part ++ s.pending = f.bytes

/-- What was read is what was relayed; a stream is given up only at its end; and a frame that
is partly sent carries no output. -/
structure State.Relayed (s : State) : Prop extends s.Framed where
  out : payloads tStdout s.meant = (s.streams .out).read
  err : payloads tStderr s.meant = (s.streams .err).read
  art : artifactReader.drain (s.streams .art).read = (s.artifacts, s.artReader)
  failed : ∀ fd, (s.streams fd).failed = false
  closed : ∀ fd, s.opened fd = false → (s.streams fd).closed = true ∧ (s.streams fd).unread = []
  result : s.result.isSome → s.exit.isSome
  returned : s.pc.returned = true → s.result.isSome
  sendsQuiet : s.SendsQuiet

variable {s s' : State} {a : Act}

theorem State.Relayed.delivered_eq (hs : s.Relayed) {t : UInt8} (ht : t = tStdout ∨ t = tStderr) :
    s.delivered t = payloads t s.meant := by
  have hbytes := hs.bytes
  rcases hs.sendsQuiet with hp | ⟨init, f, part, hm, hf, hpart⟩
  · rw [hp, List.append_nil] at hbytes
    rw [State.delivered, hbytes, drain_frames hs.length]
  · have hlen : ∀ g ∈ init, g.payload.length ≤ maxFramePayload := fun g hg =>
      hs.length g (hm ▸ List.mem_append_left _ hg)
    have hflen : f.payload.length ≤ maxFramePayload :=
      hs.length f (hm ▸ List.mem_append_right _ (List.mem_singleton_self f))
    have hsent : s.outbox.bytes = init.flatMap Frame.bytes ++ part := by
      rw [hm, List.flatMap_append, List.flatMap_singleton, ← hpart, ← List.append_assoc] at hbytes
      exact List.append_cancel_right hbytes
    have hdrain := Incremental.Parser.drain_flatMap (p := frameDecoder) Frame.bytes
      (fun g hg rest => frameDecoder_bytes (hlen g hg) rest) part
    -- The part of `f` that was sent decodes to a prefix of `[f]`.
    have hpre : (frameDecoder.drain part).1 <+: [f] := by
      have hwhole := Incremental.Parser.drain_prefix (p := frameDecoder) part s.pending
      rw [hpart] at hwhole
      have hone : frameDecoder.drain ([f].flatMap Frame.bytes) = ([f], []) :=
        drain_frames (by simpa using hflen)
      rw [List.flatMap_singleton] at hone
      rwa [hone] at hwhole
    have hquiet : ∀ g ∈ (frameDecoder.drain part).1, g.Quiet := fun g hg => by
      obtain rfl := List.mem_singleton.mp (hpre.subset hg)
      exact hf
    have hfquiet : ∀ g ∈ [f], g.Quiet := by simpa using hf
    rw [State.delivered, hsent, hdrain, hm, payloads_append, payloads_append,
      payloads_quiet hquiet ht, payloads_quiet hfquiet ht]

/-- What is delivered falls short of what was written by what the sockets still hold. -/
theorem State.Relayed.delivered_iff (hs : s.Relayed) :
    s.Delivered ↔ (s.pc.returned = true → s.Drained) := by
  have hout := (hs.delivered_eq (.inl rfl)).trans hs.out
  have herr := (hs.delivered_eq (.inr rfl)).trans hs.err
  have hart : (artifactReader.drain (s.streams .art).bytes).1 =
      s.artifacts ++ (artifactReader.drain (s.artReader ++ (s.streams .art).unread)).1 := by
    rw [ByteStream.bytes, Incremental.Parser.drain_append, hs.art]
  unfold State.Delivered State.Drained
  rw [hout, herr, hart]
  simp [ByteStream.bytes]

/-- A step that relays no output: it reads no session stream and sends no output frame. -/
structure Idle (s s' : State) : Prop where
  streams : s'.streams = s.streams
  opened : s'.opened = s.opened
  artReader : s'.artReader = s.artReader
  artifacts : s'.artifacts = s.artifacts
  result : s'.result.isSome → s.result.isSome ∨ s.exit.isSome
  kept : s.result.isSome → s'.result.isSome
  exit : s.exit.isSome → s'.exit.isSome
  meant : ∃ fs, s'.meant = s.meant ++ fs ∧ ∀ f ∈ fs, f.Quiet

theorem Idle.of_same (hs : s'.streams = s.streams) (ho : s'.opened = s.opened)
    (hr : s'.artReader = s.artReader) (ha : s'.artifacts = s.artifacts)
    (hres : s'.result = s.result) (he : s'.exit = s.exit) (hm : s'.meant = s.meant) :
    Idle s s' where
  streams := hs
  opened := ho
  artReader := hr
  artifacts := ha
  result h := .inl (hres ▸ h)
  kept h := hres ▸ h
  exit h := he ▸ h
  meant := ⟨[], by rw [hm, List.append_nil], by simp⟩

theorem Idle.emit? {f : Option Frame} (h : Idle s s') (hf : ∀ g ∈ f, g.Quiet) :
    Idle s (s'.emit? f) := by
  obtain ⟨fs, hm, hquiet⟩ := h.meant
  have hmeant : (s'.emit? f).meant = s.meant ++ (fs ++ f.toList) := by
    rw [State.emit?_meant, hm, List.append_assoc]
  obtain ⟨_, _, _, heq⟩ := State.emit?_frame (s := s') (f := f)
  rw [heq] at hmeant ⊢
  refine ⟨h.streams, h.opened, h.artReader, h.artifacts, h.result, h.kept, h.exit,
    _, hmeant, fun g hg => ?_⟩
  rcases List.mem_append.mp hg with hg | hg
  · exact hquiet g hg
  · exact hf g (Option.mem_toList.mp hg)

theorem cpuPush_quiet {cpu : Option CpuReading} : ∀ f ∈ s.cpuPush cpu, f.Quiet := by
  intro f hf
  obtain ⟨r, -, h⟩ := Option.bind_eq_some_iff.mp hf
  split at h <;> cases h
  exact Frame.quiet_of_ftype (.inl rfl)

theorem recvConn_idle (ready : Ready) : Idle s (s.recvConn ready) := by
  unfold State.recvConn
  split
  · exact .of_same rfl rfl rfl rfl rfl rfl rfl
  · exact .of_same rfl rfl rfl rfl rfl rfl rfl
  · exact .of_same rfl rfl rfl rfl rfl rfl rfl
  · split <;> exact .of_same rfl rfl rfl rfl rfl rfl rfl

theorem iterFrames_idle (ready : Ready) : Idle s (s.iterFrames ready) := by
  unfold State.iterFrames
  split
  · unfold State.handleFrame
    split
    · exact .of_same rfl rfl rfl rfl rfl rfl rfl
    · split
      · exact .of_same rfl rfl rfl rfl rfl rfl rfl
      · split <;> exact .of_same rfl rfl rfl rfl rfl rfl rfl
  · exact .of_same rfl rfl rfl rfl rfl rfl rfl

theorem pushCpu_idle (cpu : Option CpuReading) : Idle s (s.pushCpu cpu) := by
  unfold State.pushCpu
  split
  · exact Idle.emit? (.of_same rfl rfl rfl rfl rfl rfl rfl) cpuPush_quiet
  · exact .of_same rfl rfl rfl rfl rfl rfl rfl

theorem terminal_idle (now : ℕ) (o : Observed) : Idle s (s.terminal now o) := by
  unfold State.terminal
  split
  · exact Idle.emit? (.of_same rfl rfl rfl rfl rfl rfl rfl) cpuPush_quiet
  · split
    · exact .of_same rfl rfl rfl rfl rfl rfl rfl
    · split <;> exact .of_same rfl rfl rfl rfl rfl rfl rfl

theorem nextArtifact_idle {todo : List Artifact} {truncated : Bool}
    (h : s.nextArtifact todo truncated = some s') : Idle s s' := by
  unfold State.nextArtifact at h
  split at h
  · dsimp only at h
    split at h <;> obtain rfl := Option.some.inj h
    · exact .of_same rfl rfl rfl rfl rfl rfl rfl
    · refine ⟨rfl, rfl, rfl, rfl, .inl, id, id, _, rfl, fun f hf => ?_⟩
      obtain rfl := List.mem_singleton.mp hf
      exact Frame.quiet_of_ftype (.inr (.inl rfl))
  · obtain ⟨r, -, rfl⟩ := Option.map_eq_some_iff.mp h
    refine ⟨rfl, rfl, rfl, rfl, .inl, id, id, _, rfl, fun f hf => ?_⟩
    obtain rfl := List.mem_singleton.mp hf
    exact Frame.quiet_of_ftype (.inr (.inr rfl))

theorem blockingSend_idle {rest : List UInt8} {failed finished : Pc} {more : List UInt8 → Pc}
    (h : s.blockingSend rest failed finished more = some s') : Idle s s' := by
  unfold State.blockingSend at h
  split at h
  · exact Option.some.inj h ▸ .of_same rfl rfl rfl rfl rfl rfl rfl
  · split at h
    · exact Option.some.inj h ▸ .of_same rfl rfl rfl rfl rfl rfl rfl
    · split at h
      · cases h
      · exact Option.some.inj h ▸ .of_same rfl rfl rfl rfl rfl rfl rfl

theorem agent_idle {o : Observed} (hpc : ∀ fd ready, s.pc ≠ .child fd ready)
    (h : s.agent o = some s') : Idle s s' := by
  unfold State.agent at h
  split at h
  · obtain rfl := Option.some.inj h
    refine ⟨rfl, rfl, rfl, rfl, fun h => ?_, fun h => ?_, id, [], by simp, by simp⟩
    · cases hr : s.result with
      | none => simp only [hr, Option.none_or] at h; exact .inr h
      | some r => exact .inl rfl
    · simp [Option.isSome_or, h]
  · exact Option.some.inj h ▸ .of_same rfl rfl rfl rfl rfl rfl rfl
  · split at h <;> obtain rfl := Option.some.inj h
    · exact recvConn_idle _
    · exact .of_same rfl rfl rfl rfl rfl rfl rfl
  · exact Option.some.inj h ▸ iterFrames_idle _
  · next hchild => exact absurd hchild (hpc _ _)
  · exact Option.some.inj h ▸ pushCpu_idle _
  · exact Option.some.inj h ▸ terminal_idle _ _
  · exact nextArtifact_idle h
  · exact blockingSend_idle h
  · exact blockingSend_idle h
  · cases h

theorem recvConn_returned {ready : Ready} : (s.recvConn ready).pc.returned = false := by
  unfold State.recvConn
  split
  · rfl
  · rfl
  · rfl
  · split <;> rfl

theorem iterFrames_returned {ready : Ready} (hpc : s.pc = .frames ready) :
    (s.iterFrames ready).pc.returned = false := by
  unfold State.iterFrames
  split
  · rw [State.handleFrame_pc, hpc]; rfl
  · rfl

theorem readChild_returned {fd : Fd} {ready : Ready} :
    (s.readChild fd ready).pc.returned = false := by
  rw [State.readChild_pc]
  cases fd <;> rfl

theorem pushCpu_returned {cpu : Option CpuReading} : (s.pushCpu cpu).pc.returned = false := by
  unfold State.pushCpu
  split
  · rw [State.emit?_pc]; rfl
  · rfl

theorem terminal_returned {now : ℕ} {o : Observed}
    (hret : (s.terminal now o).pc.returned = true) : s.result.isSome ∧
      (s.drained = true ∨ s.exitsEarly now o.leafEmpty = true) := by
  unfold State.terminal at hret
  split at hret
  · next hc =>
    rw [Bool.and_eq_true] at hc
    exact ⟨hc.1, .inl hc.2⟩
  · split at hret
    · next hc =>
      refine ⟨?_, .inr hc⟩
      simp only [State.exitsEarly, Bool.and_eq_true] at hc
      exact hc.1.1
    · split at hret <;> cases hret

theorem terminal_returns {now : ℕ} {o : Observed}
    (h : s.exitsEarly now o.leafEmpty = true) : (s.terminal now o).pc.returned = true := by
  have hc := h
  simp only [State.exitsEarly, Bool.and_eq_true, Bool.not_eq_true'] at hc
  simp [State.terminal, hc.1.2, h, State.return, Pc.returned]

theorem agent_returned {o : Observed} (h : s.agent o = some s') (hret : s'.pc.returned = true) :
    s.pc.returned = true ∨ ∃ now, s.pc = .terminal now ∧ s.result.isSome ∧
      (s.drained = true ∨ s.exitsEarly now o.leafEmpty = true) := by
  unfold State.agent at h
  split at h
  · obtain rfl := Option.some.inj h; cases hret
  · obtain rfl := Option.some.inj h; cases hret
  · split at h <;> obtain rfl := Option.some.inj h
    · exact absurd hret (by simp [recvConn_returned])
    · cases hret
  · next hpc =>
    obtain rfl := Option.some.inj h
    exact absurd hret (by simp [iterFrames_returned hpc])
  · obtain rfl := Option.some.inj h
    exact absurd hret (by simp [readChild_returned])
  · obtain rfl := Option.some.inj h
    exact absurd hret (by simp [pushCpu_returned])
  · next now hpc =>
    obtain rfl := Option.some.inj h
    exact .inr ⟨now, hpc, terminal_returned hret⟩
  · next hpc => exact .inl (by rw [hpc]; rfl)
  · next hpc => exact .inl (by rw [hpc]; rfl)
  · next hpc => exact .inl (by rw [hpc]; rfl)
  · cases h

theorem nextArtifact_sendsQuiet {todo : List Artifact} {truncated : Bool}
    (h : s.nextArtifact todo truncated = some s') : s'.SendsQuiet := by
  unfold State.nextArtifact at h
  split at h
  · dsimp only at h
    split at h <;> obtain rfl := Option.some.inj h
    · exact .inl rfl
    · exact .inr ⟨_, _, [], rfl, Frame.quiet_of_ftype (.inr (.inl rfl)), rfl⟩
  · obtain ⟨r, -, rfl⟩ := Option.map_eq_some_iff.mp h
    exact .inr ⟨_, _, [], rfl, Frame.quiet_of_ftype (.inr (.inr rfl)), rfl⟩

theorem blockingSend_sendsQuiet {rest : List UInt8} {failed finished : Pc}
    {more : List UInt8 → Pc} (hs : s.SendsQuiet) (hp : s.pending = rest)
    (hfailed : failed.pending = []) (hfinished : finished.pending = [])
    (hmore : ∀ rest, (more rest).pending = rest)
    (h : s.blockingSend rest failed finished more = some s') : s'.SendsQuiet := by
  unfold State.blockingSend at h
  split at h
  · obtain rfl := Option.some.inj h; exact .inl hfailed
  · split at h
    · obtain rfl := Option.some.inj h; exact .inl hfinished
    · next hrest =>
      split at h
      · cases h
      · obtain rfl := Option.some.inj h
        rcases hs with hnil | ⟨init, f, part, hm, hf, hpart⟩
        · exact absurd (hp ▸ hnil) hrest
        · refine .inr ⟨init, f, part ++ rest.take s.outbox.free, hm, hf, ?_⟩
          rw [State.pending, hmore, List.append_assoc, List.take_append_drop, ← hp, hpart]

theorem agent_sendsQuiet {o : Observed} (hs : s.SendsQuiet) (h : s.agent o = some s') :
    s'.SendsQuiet := by
  have hloop : ∀ pc : Pc, pc.returned = false → pc.pending = [] := by
    intro pc hpc
    cases pc <;> first | rfl | cases hpc
  unfold State.agent at h
  split at h
  · obtain rfl := Option.some.inj h; exact .inl rfl
  · obtain rfl := Option.some.inj h; exact .inl rfl
  · split at h <;> obtain rfl := Option.some.inj h
    · exact .inl (hloop _ recvConn_returned)
    · exact .inl rfl
  · next hpc =>
    obtain rfl := Option.some.inj h
    exact .inl (hloop _ (iterFrames_returned hpc))
  · obtain rfl := Option.some.inj h
    exact .inl (hloop _ readChild_returned)
  · obtain rfl := Option.some.inj h
    exact .inl (hloop _ pushCpu_returned)
  · obtain rfl := Option.some.inj h
    left
    rw [State.pending]
    unfold State.terminal
    split
    · rw [State.emit?_pc]; rfl
    · split
      · rfl
      · split <;> rfl
  · exact nextArtifact_sendsQuiet h
  · next hpc =>
    exact blockingSend_sendsQuiet hs (by rw [State.pending, hpc]; rfl) rfl rfl (fun _ => rfl) h
  · next hpc =>
    exact blockingSend_sendsQuiet hs (by rw [State.pending, hpc]; rfl) rfl rfl (fun _ => rfl) h
  · cases h

theorem State.Relayed.of_idle (hs : s.Relayed) (hi : Idle s s') (hf : s'.Framed)
    (hret : s'.pc.returned = true → s.pc.returned = true ∨ s.result.isSome)
    (hq : s'.SendsQuiet) : s'.Relayed := by
  obtain ⟨fs, hm, hquiet⟩ := hi.meant
  refine ⟨hf, ?_, ?_, ?_, ?_, ?_, ?_, ?_, hq⟩
  · rw [hm, payloads_append, payloads_quiet hquiet (.inl rfl), List.append_nil, hi.streams]
    exact hs.out
  · rw [hm, payloads_append, payloads_quiet hquiet (.inr rfl), List.append_nil, hi.streams]
    exact hs.err
  · rw [hi.streams, hi.artifacts, hi.artReader]
    exact hs.art
  · rw [hi.streams]
    exact hs.failed
  · rw [hi.streams, hi.opened]
    exact hs.closed
  · intro h
    rcases hi.result h with h | h
    · exact hi.exit (hs.result h)
    · exact hi.exit h
  · intro h
    rcases hret h with h | h
    · exact hi.kept (hs.returned h)
    · exact hi.kept h

theorem chunk_relayed {fd : Fd} {ready : Ready} {r : List UInt8} {stream : ByteStream} {s₁ : State}
    (hs : s.Relayed) (hrecv : (s.streams fd).recv recvMax = (.data r, stream))
    (h₁ : s₁ = { s with streams := Function.update s.streams fd stream, pc := fd.pc ready })
    (hf : (s₁.chunk fd r).Framed) : (s₁.chunk fd r).Relayed := by
  obtain ⟨rfl, rfl⟩ := ByteStream.recv_data hrecv
  have hread : ((s.streams fd).pull recvMax).read =
    (s.streams fd).read ++ (s.streams fd).unread.take recvMax := rfl
  have hclosed : ∀ fd', s.opened fd' = false →
      (Function.update s.streams fd ((s.streams fd).pull recvMax) fd').closed = true ∧
      (Function.update s.streams fd ((s.streams fd).pull recvMax) fd').unread = [] := by
    intro fd' ho
    obtain ⟨hc, hu⟩ := hs.closed fd' ho
    by_cases h : fd' = fd
    · subst h
      rw [Function.update_self]
      exact ⟨hc, by simp [ByteStream.pull, hu]⟩
    · rw [Function.update_of_ne h]
      exact ⟨hc, hu⟩
  have hfailed : ∀ fd', (Function.update s.streams fd ((s.streams fd).pull recvMax) fd').failed =
      false := by
    intro fd'
    by_cases h : fd' = fd
    · subst h
      rw [Function.update_self]
      exact hs.failed fd'
    · rw [Function.update_of_ne h]
      exact hs.failed fd'
  have hloop : (fd.pc ready).returned = false ∧ (fd.pc ready).pending = [] := by
    cases fd <;> exact ⟨rfl, rfl⟩
  have hret : (fd.pc ready).returned = true → s.result.isSome := fun h => by
    simp [hloop.1] at h
  have hm := State.emit?_meant (s := s₁) (f := fd.frame ((s.streams fd).unread.take recvMax))
  obtain ⟨_, _, _, heq⟩ :=
    State.emit?_frame (s := s₁) (f := fd.frame ((s.streams fd).unread.take recvMax))
  rw [heq] at hm
  subst h₁
  cases fd with
  | art =>
    refine ⟨hf, hs.out, hs.err, ?_, hfailed, hclosed, hs.result, hret, .inl hloop.2⟩
    simp only [State.chunk, State.feedArtifacts, Function.update_self]
    rw [hread, Incremental.Parser.drain_append, hs.art]
  | out =>
    simp only [State.chunk] at hf ⊢
    rw [heq] at hf ⊢
    refine ⟨hf, ?_, ?_, hs.art, hfailed, hclosed, hs.result, hret, .inl hloop.2⟩
    · rw [hm, payloads_append, hs.out]
      simp [payloads, Fd.frame, hread]
    · rw [hm, payloads_append, hs.err, payloads_of_ne (by simp [Fd.frame, tStdout, tStderr])]
      simp
  | err =>
    simp only [State.chunk] at hf ⊢
    rw [heq] at hf ⊢
    refine ⟨hf, ?_, ?_, hs.art, hfailed, hclosed, hs.result, hret, .inl hloop.2⟩
    · rw [hm, payloads_append, hs.out, payloads_of_ne (by simp [Fd.frame, tStdout, tStderr])]
      simp
    · rw [hm, payloads_append, hs.err]
      simp [payloads, Fd.frame, hread]

theorem readChild_relayed {fd : Fd} {ready : Ready} (hs : s.Relayed)
    (hf : (s.readChild fd ready).Framed) : (s.readChild fd ready).Relayed := by
  have hloop : (fd.pc ready).returned = false ∧ (fd.pc ready).pending = [] := by
    cases fd <;> exact ⟨rfl, rfl⟩
  have hret : (fd.pc ready).returned = true → s.result.isSome := fun h => by
    simp [hloop.1] at h
  unfold State.readChild at hf ⊢
  split at hf
  · next hcond =>
    rw [if_pos hcond]
    split at hf
    · exact ⟨hf, hs.out, hs.err, hs.art, hs.failed, hs.closed, hs.result, hret, .inl hloop.2⟩
    · next hrecv =>
      have heof := ByteStream.recv_eof (by decide) (congrArg Prod.fst hrecv)
      refine ⟨hf, hs.out, hs.err, hs.art, hs.failed, fun fd' ho => ?_, hs.result, hret,
        .inl hloop.2⟩
      by_cases h : fd' = fd
      · subst h; exact ⟨heof.2, heof.1⟩
      · exact hs.closed fd' (by simpa [Function.update_of_ne h] using ho)
    · next hrecv =>
      have herr := ByteStream.recv_error (congrArg Prod.fst hrecv)
      rw [hs.failed fd] at herr
      cases herr
    · next hrecv => exact chunk_relayed hs hrecv rfl hf
  · next hcond =>
    rw [if_neg hcond]
    exact ⟨hf, hs.out, hs.err, hs.art, hs.failed, hs.closed, hs.result, hret, .inl hloop.2⟩

theorem agent_relayed {o : Observed} (hs : s.Relayed) (hf : s'.Framed)
    (h : s.agent o = some s') : s'.Relayed := by
  by_cases hchild : ∃ fd ready, s.pc = .child fd ready
  · obtain ⟨fd, ready, hpc⟩ := hchild
    obtain rfl : s.readChild fd ready = s' := by simpa [State.agent, hpc] using h
    exact readChild_relayed hs hf
  · have hi : Idle s s' := agent_idle (fun fd ready hpc => hchild ⟨fd, ready, hpc⟩) h
    refine hs.of_idle hi hf (fun hret => ?_) (agent_sendsQuiet hs.sendsQuiet h)
    rcases agent_returned h hret with h | ⟨now, -, hres, -⟩
    · exact .inl h
    · exact .inr hres

theorem State.Relayed.of_streams (hs : s.Relayed) (hf : s'.Framed) (hpc : s'.pc = s.pc)
    (ho : s'.opened = s.opened) (hr : s'.artReader = s.artReader)
    (ha : s'.artifacts = s.artifacts) (hres : s'.result = s.result) (hm : s'.meant = s.meant)
    (he : s.exit.isSome → s'.exit.isSome)
    (hread : ∀ fd, (s'.streams fd).read = (s.streams fd).read ∧
      (s'.streams fd).failed = (s.streams fd).failed)
    (hclosed : ∀ fd, (s.streams fd).closed = true →
      (s'.streams fd).closed = true ∧ (s'.streams fd).unread = (s.streams fd).unread) :
    s'.Relayed where
  toFramed := hf
  out := by rw [hm, (hread .out).1]; exact hs.out
  err := by rw [hm, (hread .err).1]; exact hs.err
  art := by rw [(hread .art).1, ha, hr]; exact hs.art
  failed fd := (hread fd).2.trans (hs.failed fd)
  closed fd h := by
    obtain ⟨hc, hu⟩ := hs.closed fd (ho ▸ h)
    exact ⟨(hclosed fd hc).1, (hclosed fd hc).2.trans hu⟩
  result h := he (hs.result (hres ▸ h))
  returned h := by rw [hres]; exact hs.returned (hpc ▸ h)
  sendsQuiet := by
    have hq := hs.sendsQuiet
    unfold State.SendsQuiet State.pending at hq ⊢
    rw [hpc, hm]
    exact hq

theorem step_relayed (hs : s.Relayed) (hw : Writable s a) (h : s.step a = some s') :
    s'.Relayed := by
  have hf : s'.Framed := step_framed hs.toFramed hw.1 hw.2 h
  cases step_turn h with
  | agent o s' h => exact agent_relayed hs hf h
  | write fd bs _ hopen =>
    refine hs.of_streams hf rfl rfl rfl rfl rfl rfl id (fun fd' => ?_) fun fd' hc => ?_
    · by_cases h : fd' = fd
      · subst h; simp [ByteStream.write]
      · simp [Function.update_of_ne h]
    · have h : fd' ≠ fd := by
        rintro rfl
        simp [hopen] at hc
      simp [Function.update_of_ne h, hc]
  | close fd =>
    refine hs.of_streams hf rfl rfl rfl rfl rfl rfl id (fun fd' => ?_) fun fd' hc => ?_
    · by_cases h : fd' = fd
      · subst h; simp
      · simp [Function.update_of_ne h]
    · by_cases h : fd' = fd
      · subst h; simp
      · simp [Function.update_of_ne h, hc]
  | exit status =>
    exact hs.of_streams hf rfl rfl rfl rfl rfl rfl (fun _ => rfl) (fun _ => ⟨rfl, rfl⟩)
      fun _ hc => ⟨hc, rfl⟩
  | _ =>
    exact hs.of_streams hf rfl rfl rfl rfl rfl rfl id (fun _ => ⟨rfl, rfl⟩) fun _ hc => ⟨hc, rfl⟩

theorem State.Relayed.drained (hs : s.Relayed) (h : s.drained = true) : s.Drained := by
  simp only [State.drained, Bool.and_eq_true, Bool.not_eq_true'] at h
  have hnext := Incremental.Parser.next_drain (p := artifactReader) (s.streams .art).read
  rw [hs.art] at hnext
  refine ⟨(hs.closed .out h.1.1).2, (hs.closed .err h.1.2).2, ?_⟩
  rw [(hs.closed .art h.2).2, List.append_nil, Incremental.Parser.drain_of_none hnext]

theorem drained_congr (hs : s'.streams = s.streams) (hr : s'.artReader = s.artReader) :
    s'.Drained ↔ s.Drained := by
  rw [State.Drained, State.Drained, hs, hr]

theorem agent_drained_iff {o : Observed} (hs : s.Relayed)
    (hd : s.pc.returned = true → s.Drained) (h : s.agent o = some s') :
    (s'.pc.returned = true → s'.Drained) ↔ ExitsDrained s (.agent o) := by
  by_cases hchild : ∃ fd ready, s.pc = .child fd ready
  · obtain ⟨fd, ready, hpc⟩ := hchild
    obtain rfl : s.readChild fd ready = s' := by simpa [State.agent, hpc] using h
    constructor
    · intro _ now hpc'
      rw [hpc] at hpc'
      cases hpc'
    · intro _ hret
      simp [readChild_returned] at hret
  · have hi : Idle s s' := agent_idle (fun fd ready hpc => hchild ⟨fd, ready, hpc⟩) h
    rw [drained_congr hi.streams hi.artReader]
    constructor
    · intro h' now hpc hearly
      obtain rfl : s.terminal now o = s' := by simpa [State.agent, hpc] using h
      exact h' (terminal_returns hearly)
    · intro hg hret
      rcases agent_returned h hret with h | ⟨now, hpc, -, hall | hearly⟩
      · exact hd h
      · exact hs.drained hall
      · exact hg now hpc hearly

theorem step_drained_iff (hs : s.Relayed) (hd : s.pc.returned = true → s.Drained)
    (h : s.step a = some s') :
    (s'.pc.returned = true → s'.Drained) ↔ ExitsDrained s a := by
  cases step_turn h with
  | agent o s' h => exact agent_drained_iff hs hd h
  | write fd bs hrun =>
    -- The session still runs, so the loop has not returned.
    refine iff_of_true (fun hret => ?_) trivial
    have hexit := hs.result (hs.returned hret)
    simp [hrun] at hexit
  | close fd =>
    have hunread : ∀ fd', (Function.update s.streams fd
        { s.streams fd with closed := true } fd').unread = (s.streams fd').unread := by
      intro fd'
      by_cases h : fd' = fd
      · subst h; simp
      · simp [Function.update_of_ne h]
    refine iff_of_true (fun hret => ?_) trivial
    simpa only [State.Drained, hunread] using hd hret
  | _ => exact iff_of_true hd trivial

theorem State.Initial.relayed (hs : s.Initial) (hc : s.Connected) : s.Relayed where
  toFramed := hs.framed hc
  out := by
    obtain ⟨started, hm, -⟩ := hs.meant
    rw [hm, (hs.streams .out).1]
    exact payloads_of_ne (by simp [tStdout])
  err := by
    obtain ⟨started, hm, -⟩ := hs.meant
    rw [hm, (hs.streams .err).1]
    exact payloads_of_ne (by simp [tStderr])
  art := by
    rw [(hs.streams .art).1, hs.artifacts, hs.artReader]
    exact Incremental.Parser.drain_of_none rfl
  failed fd := (hs.streams fd).2
  closed fd h := by simp [hs.opened fd] at h
  result h := by simp [hs.result] at h
  returned h := by simp [hs.pc, Pc.returned] at h
  sendsQuiet := .inl (by rw [State.pending, hs.pc]; rfl)

/-- On a connection that stays open and writable, everything that the session wrote before it
exited is delivered before the EXIT frame exactly in the runs whose loop, when it returns with
a stream still open, leaves nothing in the sockets. -/
theorem delivered_iff_exitsDrained {s t : State} {as : List Act} (hs : s.Initial) (hc : s.Connected)
    (hw : EveryStep State.step Writable s as) (hr : run State.step s as = some t) :
    Always State.step State.Delivered s as ↔ EveryStep State.step ExitsDrained s as := by
  have hrelayed := hs.relayed hc
  have hinit : s.Delivered := fun hret => by simp [hs.pc, Pc.returned] at hret
  refine always_iff_everyStep_of (fun s a s' hs hw h => step_relayed hs hw h) ?_ hrelayed hinit
    hw hr
  intro s a s' hs hs' hd _ h
  rw [hs'.delivered_iff]
  exact step_drained_iff hs (hs.delivered_iff.mp hd) h

/-- A session that wrote `bs` to its stdout and exited before the first pass of the loop. -/
def flooded (bs : List UInt8) : State :=
  { State.start 200000 true with
    streams := Function.update (fun _ => .empty 212992) .out
      { ByteStream.empty 212992 with unread := bs }
    exit := some ⟨some 0, none⟩ }

theorem flooded_initial (bs : List UInt8) : (flooded bs).Initial :=
  { start_initial 200000 true with
    streams := by rintro (_ | _ | _) <;> exact ⟨rfl, rfl⟩ }

/-- The only socket that a pass over the flood finds ready is stdout; the leaf reads empty. -/
def floodPass : Act := .pass [.out] true

/-- The loop at its read of stdout, in the pass that reaped the session. -/
def floodedAtRead (bs : List UInt8) : State :=
  { flooded bs with pc := .child .out ⟨false, (· ∈ [Fd.out])⟩, result := some ⟨some 0, none⟩ }

def floodedAfterRead (bs : List UInt8) : State :=
  { floodedAtRead bs with
    pc := .child .err ⟨false, (· ∈ [Fd.out])⟩
    streams := Function.update (flooded bs).streams .out
      (((flooded bs).streams .out).pull recvMax)
    outbox := (flooded bs).outbox.write (Frame.bytes ⟨tStdout, bs.take recvMax⟩)
    meant := [⟨0x10, []⟩, ⟨tStdout, bs.take recvMax⟩] }

theorem flooded_atRead (bs : List UInt8) :
    run State.step (flooded bs) (List.replicate 3 floodPass) = some (floodedAtRead bs) := rfl

theorem floodedAtRead_recv {bs : List UInt8} (h : recvMax < bs.length) :
    ((floodedAtRead bs).streams .out).recv recvMax =
      (.data (bs.take recvMax), ((floodedAtRead bs).streams .out).pull recvMax) :=
  ByteStream.recv_of_unread rfl (by decide) (List.ne_nil_of_length_pos (Nat.zero_lt_of_lt h))

theorem flood_fits (bs : List UInt8) :
    (Frame.bytes ⟨tStdout, bs.take recvMax⟩).length ≤ (flooded bs).outbox.free := by
  have hfree : (flooded bs).outbox.free = 200000 := rfl
  rw [hfree, Frame.length_bytes, List.length_take, recvMax]
  omega

theorem floodedAtRead_step {bs : List UInt8} (h : recvMax < bs.length) :
    (floodedAtRead bs).step floodPass = some (floodedAfterRead bs) := by
  have hsend := ByteStream.sendall_of_fits (s := (flooded bs).outbox) rfl (flood_fits bs)
  have hread : (floodedAtRead bs).readChild .out ⟨false, (· ∈ [Fd.out])⟩ = _ :=
    State.readChild_of_data rfl (floodedAtRead_recv h)
  have hemit : ∀ s : State, s.connOpen = true → s.outbox = (flooded bs).outbox →
      s.emit ⟨tStdout, bs.take recvMax⟩ =
        { s with
          outbox := (flooded bs).outbox.write (Frame.bytes ⟨tStdout, bs.take recvMax⟩)
          meant := s.meant ++ [⟨tStdout, bs.take recvMax⟩] } := by
    intro s hopen hout
    simp [State.emit, hopen, hout, hsend]
  refine congrArg some (hread.trans ?_)
  exact hemit
    { floodedAtRead bs with
      streams := Function.update (flooded bs).streams .out
        (((flooded bs).streams .out).pull recvMax)
      pc := .child .err ⟨false, (· ∈ [Fd.out])⟩ } rfl rfl

def floodedReturned (bs : List UInt8) : State :=
  { floodedAfterRead bs with pc := .artifacts [] false }

theorem floodedReturned_unread (bs : List UInt8) :
    ((floodedReturned bs).streams .out).unread = bs.drop recvMax := rfl

theorem floodedAfterRead_returns (bs : List UInt8) :
    run State.step (floodedAfterRead bs) (List.replicate 4 floodPass) =
      some (floodedReturned bs) := rfl

/-- Three steps to the read of stdout, the read, and four more to the return. -/
def floodSchedule : List Act :=
  List.replicate 3 floodPass ++ floodPass :: List.replicate 4 floodPass

theorem flooded_returns {bs : List UInt8} (h : recvMax < bs.length) :
    run State.step (flooded bs) floodSchedule = some (floodedReturned bs) := by
  rw [floodSchedule, run_append, flooded_atRead, Option.bind_some,
    run_cons_of_step (floodedAtRead_step h)]
  exact floodedAfterRead_returns bs

theorem flooded_writable {bs : List UInt8} (h : recvMax < bs.length) :
    EveryStep State.step Writable (flooded bs) floodSchedule := by
  have hsilent : ∀ s : State, s.emits floodPass = none → Writable s floodPass :=
    fun s hs => ⟨rfl, fun f hf => by rw [hs] at hf; cases hf⟩
  refine (everyStep_append (flooded_atRead bs)).mpr ⟨?_, ?_⟩
  · iterate 3 refine (everyStep_cons rfl).mpr ⟨hsilent _ rfl, ?_⟩
    trivial
  · refine (everyStep_cons (floodedAtRead_step h)).mpr ⟨⟨rfl, fun f hf => ?_⟩, ?_⟩
    · have hemits := State.emission_of_data (s := floodedAtRead bs)
        (o := ⟨⟨false, (· ∈ [Fd.out])⟩, none, true⟩) rfl rfl (floodedAtRead_recv h)
      obtain rfl := Option.some.inj (hemits.symm.trans hf)
      exact flood_fits bs
    · iterate 4 refine (everyStep_cons rfl).mpr ⟨hsilent _ rfl, ?_⟩
      trivial

/-- One byte of the flood is still in the socket when the loop has returned. -/
theorem not_always_delivered :
    ¬ ∀ (s t : State) (as : List Act), s.Initial → s.Connected →
      EveryStep State.step Writable s as → run State.step s as = some t →
      Always State.step State.Delivered s as := by
  intro hall
  have h : recvMax < (List.replicate (recvMax + 1) (97 : UInt8)).length := by
    rw [List.length_replicate]
    exact Nat.lt_succ_self _
  have hinit := flooded_initial (List.replicate (recvMax + 1) 97)
  have hwritable := flooded_writable h
  have hr := flooded_returns h
  have hdelivered := (hall _ _ _ hinit ⟨rfl, rfl, rfl⟩ hwritable hr).last hr
  have hrelayed : Always State.step State.Relayed _ floodSchedule :=
    .of_guarded (fun s a s' hs hw h => step_relayed hs hw h) (hinit.relayed ⟨rfl, rfl, rfl⟩)
      hwritable
  have hdrained := (hrelayed.last hr).delivered_iff.mp hdelivered rfl
  have hunread := hdrained.1
  rw [floodedReturned_unread, List.drop_eq_nil_iff] at hunread
  omega

/-- Everything is delivered when the flood ends where the read does. -/
theorem flooded_delivered :
    Always State.step State.Delivered (flooded [97]) (List.replicate 8 floodPass) :=
  (delivered_iff_exitsDrained (flooded_initial [97]) ⟨rfl, rfl, rfl⟩ (by decide) rfl).mpr
    (by decide)

end CodeRunner.Relay
