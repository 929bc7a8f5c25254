import CodeRunner.Zygote.EndToEnd

/-! # The output of a session in the worker

`relay_loop` runs against the session, the worker and the network in any order of their steps. When
it drains the sockets before it returns, the worker's pipes have carried exactly what the session
wrote, and its exit channel has the status that the session ended with.
-/

namespace CodeRunner.Zygote

open Incremental Relay Transition

variable {fin : ConnEnd} {reads : List (List UInt8)} {f g : Relay.Frame} {fs : List Relay.Frame}
  {realpid : ℕ} {leaf : Bool} {s s' t : State} {a : Relay.Act}

def exiting : Pc → Bool
  | .sendExit _ | .done => true
  | _ => false

/-- `g` was sent first, and EXIT is sent last, with the status of the session. -/
structure Concluding (g : Relay.Frame) (s : State) : Prop where
  exit : ∀ r ∈ s.result, s.exit = some r
  head : s.meant.head? = some g
  meant : if exiting s.pc then ∃ fs r truncated, s.meant = fs ++ [exitFrame r truncated] ∧
      s.result = some r ∧ ∀ f ∈ fs, f.isExit = false
    else ∀ f ∈ s.meant, f.isExit = false

theorem Concluding.congr (h : Concluding g s) (hpc : exiting s'.pc = exiting s.pc)
    (hresult : s'.result = s.result) (hexit : s'.exit = s.exit) (hmeant : s'.meant = s.meant) :
    Concluding g s' := by
  obtain ⟨h₁, h₂, h₃⟩ := h
  exact ⟨by rwa [hresult, hexit], by rwa [hmeant], by rwa [hpc, hmeant, hresult]⟩

theorem Concluding.append (h : Concluding g s) (hpc : exiting s.pc = false)
    (hpc' : exiting s'.pc = false) (hresult : s'.result = s.result) (hexit : s'.exit = s.exit)
    (hmeant : s'.meant = s.meant ++ fs) (hfs : ∀ f ∈ fs, f.isExit = false) :
    Concluding g s' := by
  obtain ⟨h₁, h₂, h₃⟩ := h
  rw [hpc] at h₃
  refine ⟨by rwa [hresult, hexit], ?_, ?_⟩
  · rw [hmeant, List.head?_append, h₂]
    rfl
  · rw [hpc', hmeant]
    exact List.forall_mem_append.mpr ⟨h₃, hfs⟩

theorem Concluding.emit? {f : Option Relay.Frame} (h : Concluding g s)
    (hpc : exiting s.pc = false) (hf : ∀ x ∈ f, x.isExit = false) :
    Concluding g (s.emit? f) := by
  have hexit : (s.emit? f).exit = s.exit := by
    obtain ⟨_, _, _, heq⟩ := State.emit?_frame (s := s) (f := f)
    rw [heq]
  have hpc' : exiting (s.emit? f).pc = false := by rwa [State.emit?_pc]
  refine h.append hpc hpc' State.emit?_result hexit State.emit?_meant fun x hx => ?_
  exact hf x (Option.mem_toList.mp hx)

theorem cpuPush_isExit (cpu : Option CpuReading) : ∀ x ∈ s.cpuPush cpu, x.isExit = false := by
  intro x hx
  obtain ⟨r, -, hr⟩ := Option.bind_eq_some_iff.mp hx
  split at hr
  · cases hr
  · obtain rfl := Option.some.inj hr
    rfl

theorem recvConn_concluding {ready : Ready} (h : Concluding g s) (hpc : exiting s.pc = false) :
    Concluding g (s.recvConn ready) := by
  unfold State.recvConn
  split
  · exact h.congr hpc.symm rfl rfl rfl
  · exact h.congr hpc.symm rfl rfl rfl
  · exact h.congr hpc.symm rfl rfl rfl
  · split <;> exact h.congr hpc.symm rfl rfl rfl

theorem iterFrames_concluding {ready : Ready} (h : Concluding g s) (hpc : exiting s.pc = false) :
    Concluding g (s.iterFrames ready) := by
  unfold State.iterFrames
  split
  · unfold State.handleFrame
    split
    · exact h.congr rfl rfl rfl rfl
    · split
      · exact h.congr rfl rfl rfl rfl
      · split <;> exact h.congr rfl rfl rfl rfl
  · exact h.congr hpc.symm rfl rfl rfl

theorem chunk_concluding {fd : Fd} {bs : List UInt8} (h : Concluding g s)
    (hpc : exiting s.pc = false) : Concluding g (s.chunk fd bs) := by
  unfold State.chunk
  split
  · exact h.congr rfl rfl rfl rfl
  · exact h.emit? hpc fun x hx => Option.some.inj hx ▸ rfl
  · exact h.emit? hpc fun x hx => Option.some.inj hx ▸ rfl

theorem readChild_concluding {fd : Fd} {ready : Ready} (h : Concluding g s)
    (hpc : exiting s.pc = false) : Concluding g (s.readChild fd ready) := by
  have hnext : exiting (fd.pc ready) = exiting s.pc := by
    rw [hpc]
    cases fd <;> rfl
  unfold State.readChild
  split
  · split
    · exact h.congr hnext rfl rfl rfl
    · exact h.congr hnext rfl rfl rfl
    · exact h.congr hnext rfl rfl rfl
    · next bs stream _ =>
      have hread : Concluding g { s with
          streams := Function.update s.streams fd stream, pc := fd.pc ready } :=
        h.congr hnext rfl rfl rfl
      exact chunk_concluding hread (hnext.trans hpc)
  · exact h.congr hnext rfl rfl rfl

theorem pushCpu_concluding {cpu : Option CpuReading} (h : Concluding g s)
    (hpc : exiting s.pc = false) : Concluding g (s.pushCpu cpu) := by
  unfold State.pushCpu
  split
  · exact Concluding.emit? (h.congr hpc.symm rfl rfl rfl) rfl (cpuPush_isExit cpu)
  · exact h.congr hpc.symm rfl rfl rfl

theorem terminal_concluding {now : ℕ} {o : Observed} (h : Concluding g s)
    (hpc : exiting s.pc = false) : Concluding g (s.terminal now o) := by
  unfold State.terminal
  split
  · exact Concluding.emit? (h.congr hpc.symm rfl rfl rfl) rfl (cpuPush_isExit o.cpu)
  · split
    · exact h.congr hpc.symm rfl rfl rfl
    · split <;> exact h.congr hpc.symm rfl rfl rfl

theorem nextArtifact_concluding {todo : List Artifact} {truncated : Bool} (h : Concluding g s)
    (hpc : exiting s.pc = false) (hs : s.nextArtifact todo truncated = some s') :
    Concluding g s' := by
  unfold State.nextArtifact at hs
  split at hs
  · dsimp only at hs
    split at hs <;> obtain rfl := Option.some.inj hs
    · exact h.congr hpc.symm rfl rfl rfl
    · exact h.append hpc rfl rfl rfl rfl (List.forall_mem_singleton.mpr rfl)
  · obtain ⟨r, hr, rfl⟩ := Option.map_eq_some_iff.mp hs
    obtain ⟨h₁, h₂, h₃⟩ := h
    rw [hpc] at h₃
    refine ⟨h₁, ?_, s.meant, r, truncated, rfl, hr, h₃⟩
    change (s.meant ++ _).head? = _
    rw [List.head?_append, h₂]
    rfl

theorem blockingSend_concluding {rest : List UInt8} {failed finished : Pc}
    {more : List UInt8 → Pc} (h : Concluding g s) (hfailed : exiting failed = exiting s.pc)
    (hfinished : exiting finished = exiting s.pc) (hmore : ∀ bs, exiting (more bs) = exiting s.pc)
    (hs : s.blockingSend rest failed finished more = some s') : Concluding g s' := by
  unfold State.blockingSend at hs
  split at hs
  · exact Option.some.inj hs ▸ h.congr hfailed rfl rfl rfl
  · split at hs
    · exact Option.some.inj hs ▸ h.congr hfinished rfl rfl rfl
    · split at hs
      · cases hs
      · exact Option.some.inj hs ▸ h.congr (hmore _) rfl rfl rfl

theorem agent_concluding {o : Observed} (h : Concluding g s) (hs : s.agent o = some s') :
    Concluding g s' := by
  unfold State.agent at hs
  split at hs
  · next hpc =>
    obtain rfl := Option.some.inj hs
    obtain ⟨h₁, h₂, h₃⟩ := h
    rw [hpc] at h₃
    refine ⟨fun r hr => ?_, h₂, h₃⟩
    cases hresult : s.result with
    | none => rwa [hresult, Option.none_or] at hr
    | some r' =>
      rw [hresult, Option.some_or] at hr
      exact h₁ r (hresult.trans hr)
  · next hpc => exact Option.some.inj hs ▸ h.congr (by rw [hpc]; rfl) rfl rfl rfl
  · next hpc =>
    split at hs <;> obtain rfl := Option.some.inj hs
    · exact recvConn_concluding h (by rw [hpc]; rfl)
    · exact h.congr (by rw [hpc]; rfl) rfl rfl rfl
  · next hpc => exact Option.some.inj hs ▸ iterFrames_concluding h (by rw [hpc]; rfl)
  · next hpc => exact Option.some.inj hs ▸ readChild_concluding h (by rw [hpc]; rfl)
  · next hpc => exact Option.some.inj hs ▸ pushCpu_concluding h (by rw [hpc]; rfl)
  · next hpc => exact Option.some.inj hs ▸ terminal_concluding h (by rw [hpc]; rfl)
  · next hpc => exact nextArtifact_concluding h (by rw [hpc]; rfl) hs
  · next hpc =>
    exact blockingSend_concluding h (by rw [hpc]; rfl) (by rw [hpc]; rfl)
      (fun _ => by rw [hpc]; rfl) hs
  · next hpc =>
    exact blockingSend_concluding h (by rw [hpc]; rfl) (by rw [hpc]; rfl)
      (fun _ => by rw [hpc]; rfl) hs
  · cases hs

theorem step_concluding (h : Concluding g s) (hs : s.step a = some s') : Concluding g s' := by
  cases step_turn hs with
  | agent o s' hs => exact agent_concluding h hs
  | exit status hrun =>
    refine ⟨fun r hr => ?_, h.head, h.meant⟩
    cases (h.exit r hr).symm.trans hrun
  | _ => exact h.congr rfl rfl rfl rfl

theorem run_relayed {as : List Relay.Act} (hs : s.Initial) (hc : s.Connected)
    (hw : EveryStep State.step Writable s as) (hd : EveryStep State.step ExitsDrained s as)
    (hr : run State.step s as = some t) :
    t.Relayed ∧ (t.pc.returned = true → t.Drained) := by
  have hall : Always State.step (fun s => s.Relayed ∧ (s.pc.returned = true → s.Drained)) s as := by
    refine Always.of_guarded (fun s a s' h hG hs => ?_) ?_ (hw.and hd)
    · exact ⟨step_relayed h.1 hG.1 hs, (step_drained_iff h.1 h.2 hs).mpr hG.2⟩
    · exact ⟨hs.relayed hc, fun hret => by simp [hs.pc, Pc.returned] at hret⟩
  exact hall.last hr

/-- However the steps of the loop, of the session, of the network and of the worker interleave: if
the connection stays open and writable, and the loop drains the sockets before it returns, then the
worker's pipes have carried exactly what the session wrote to its stdout and stderr, and the exit
channel has the status that the session ended with. -/
theorem session_delivered {as : List Relay.Act} (hs : s.Initial) (hc : s.Connected)
    (hstarted : s.meant = [startedFrame realpid leaf]) (hpid : realpid < 2 ^ 63)
    (hw : EveryStep State.step Writable s as) (hd : EveryStep State.step ExitsDrained s as)
    (hr : run State.step s as = some t) (hdone : t.pc = .done)
    (hreads : reads.flatten = t.outbox.bytes) :
    ∃ reads', readStarted fin reads = .ok (⟨realpid, leaf⟩, reads') ∧
      ∀ bs c, run (RelayConn.step fin) (.start reads') bs = some c → c.pc = .returned →
        (c.pipe .stdout).delivered = (t.streams .out).bytes ∧
        (c.pipe .stderr).delivered = (t.streams .err).bytes ∧
        ∃ status, t.exit = some status ∧ c.exitCh = [ExitStatus.relayExit status] := by
  obtain ⟨hrelayed, hdrained⟩ := run_relayed hs hc hw hd hr
  have hstart : Concluding (startedFrame realpid leaf) s := by
    refine ⟨fun r hr => ?_, by rw [hstarted]; rfl, ?_⟩
    · rw [hs.result] at hr
      cases hr
    · rw [hs.pc, hstarted]
      exact List.forall_mem_singleton.mpr rfl
  obtain ⟨hexit, hhead, hmeant⟩ : Concluding (startedFrame realpid leaf) t :=
    Reachable.invariant (fun _ _ _ h hs => step_concluding h hs) hstart ⟨as, hr⟩
  rw [hdone] at hmeant
  obtain ⟨fs, r, truncated, hmeant, hresult, hfs⟩ := hmeant
  obtain ⟨fs, rfl⟩ : ∃ rest, fs = startedFrame realpid leaf :: rest := by
    cases fs with
    | nil =>
      rw [hmeant] at hhead
      have hftype : tExit = tStarted := congrArg Relay.Frame.ftype (Option.some.inj hhead)
      exact absurd hftype (by decide)
    | cons x rest =>
      rw [hmeant] at hhead
      exact ⟨rest, by rw [Option.some.inj hhead]⟩
  have hfits := hrelayed.length
  have hbytes := hrelayed.bytes
  rw [State.pending, hdone, hmeant] at hbytes
  rw [hmeant] at hfits
  obtain ⟨reads', hread, hrest⟩ := readStarted_bytes hpid
    (fun _ hf => absurd hf List.not_mem_nil)
    (hreads.trans ((List.append_nil _).symm.trans hbytes))
  refine ⟨reads', hread, fun bs c hrun hpc => ?_⟩
  obtain ⟨hdelivered, -, -, hch⟩ := reader_told (List.forall_mem_cons.mp hfs).2 rfl
    (List.forall_mem_cons.mp hfits).2 hrest hrun hpc
  have hret : t.pc.returned = true := by rw [hdone]; rfl
  obtain ⟨hout, herr, -⟩ := hdrained hret
  have hpayloads : ∀ out : Output, payloads out.ftype fs = payloads out.ftype t.meant := by
    intro out
    have hne : tStarted ≠ out.ftype ∧ tExit ≠ out.ftype := by cases out <;> decide
    have hends : t.meant = [startedFrame realpid leaf] ++ fs ++ [exitFrame r truncated] := hmeant
    rw [hends, payloads_append, payloads_append,
      payloads_of_ne (List.forall_mem_singleton.mpr hne.1),
      payloads_of_ne (List.forall_mem_singleton.mpr hne.2), List.nil_append, List.append_nil]
  refine ⟨?_, ?_, r, hexit r hresult, ?_⟩
  · rw [hdelivered, hpayloads, ByteStream.bytes, hout, List.append_nil]
    exact hrelayed.out
  · rw [hdelivered, hpayloads, ByteStream.bytes, herr, List.append_nil]
    exact hrelayed.err
  · rw [hch, relayExit_status]

/-- A session that printed a line and exited before the first pass of the loop. -/
def printed : State :=
  { State.start (200000000) true with
    outbox := { ByteStream.empty (200000000) with read := (startedFrame 42 true).bytes }
    meant := [startedFrame 42 true]
    streams := Function.update (fun _ => .empty 212992) .out
      { ByteStream.empty 212992 with unread := [0x31, 0x0A] }
    exit := some ⟨some 0, none⟩ }

theorem printed_initial : printed.Initial :=
  have hlen : (startedFrame 42 true).payload.length ≤ maxFramePayload :=
    startedFrame_length (by decide)
  { start_initial (200000000) true with
    streams := by rintro (_ | _ | _) <;> exact ⟨rfl, rfl⟩
    meant := ⟨(startedFrame 42 true).payload, rfl, hlen⟩
    outbox := by
      change (startedFrame 42 true).bytes ++ [] = [startedFrame 42 true].flatMap Frame.bytes
      rw [List.append_nil, List.flatMap_singleton] }

theorem printed_sendExit : ∃ t, run State.step printed (List.replicate 9 floodPass) = some t ∧
    t.pc = .sendExit (exitFrame ⟨some 0, none⟩ false).bytes ∧ t.outbox.failed = false ∧
    maxFramePayload + 5 ≤ t.outbox.free ∧ (t.streams .out).bytes = [0x31, 0x0A] ∧
    t.exit = some ⟨some 0, none⟩ :=
  ⟨_, rfl, rfl, rfl, by decide, rfl, rfl⟩

theorem exitsDrained_of_drained (h : s.Drained) : ExitsDrained s a := by
  cases a with
  | agent o => exact fun _ _ _ => h
  | _ => trivial

theorem exitsDrained_of_ne (h : ∀ now, s.pc ≠ .terminal now) : ExitsDrained s a := by
  cases a with
  | agent o => exact fun now hpc => absurd hpc (h now)
  | _ => trivial

theorem exitsDrained_sendExit {bs : List UInt8} (hpc : s.pc = .sendExit bs) : ExitsDrained s a :=
  exitsDrained_of_ne (by simp [hpc])

theorem writable_sendExit {bs : List UInt8} (hpc : s.pc = .sendExit bs) :
    Writable s floodPass := by
  refine ⟨rfl, fun f hf => ?_⟩
  simp [floodPass, Act.pass, State.emits, State.emission, hpc] at hf

theorem sendExit_done (hpc : s.pc = .sendExit f.bytes)
    (hlen : f.payload.length ≤ maxFramePayload) (hfailed : s.outbox.failed = false)
    (hfree : maxFramePayload + 5 ≤ s.outbox.free) :
    (∃ t, run State.step s (List.replicate 2 floodPass) = some t ∧ t.pc = .done ∧
      t.streams = s.streams ∧ t.exit = s.exit) ∧
    EveryStep State.step Writable s (List.replicate 2 floodPass) ∧
    EveryStep State.step ExitsDrained s (List.replicate 2 floodPass) := by
  have hfits : f.bytes.length ≤ s.outbox.free := by
    rw [Frame.length_bytes]
    omega
  have hne : s.outbox.free ≠ 0 := by omega
  have hsend : s.step floodPass =
      some { s with pc := .sendExit [], outbox := s.outbox.write f.bytes } := by
    have hcons : f.bytes ≠ [] := List.cons_ne_nil _ _
    simp [floodPass, Act.pass, State.step, State.agent, hpc, State.blockingSend, hfailed,
      hcons, hne, List.drop_eq_nil_of_le hfits, List.take_of_length_le hfits]
  have hdone : State.step { s with pc := .sendExit [], outbox := s.outbox.write f.bytes } floodPass
      = some { s with pc := .done, outbox := s.outbox.write f.bytes } := by
    simp only [floodPass, Act.pass, State.step, State.agent, State.blockingSend]
    split <;> rfl
  refine ⟨⟨_, (run_cons_of_step hsend).trans ((run_cons_of_step hdone).trans rfl), rfl, rfl, rfl⟩,
    ?_, ?_⟩
  · exact (everyStep_cons hsend).mpr ⟨writable_sendExit hpc,
      (everyStep_cons hdone).mpr ⟨writable_sendExit rfl, trivial⟩⟩
  · exact (everyStep_cons hsend).mpr ⟨exitsDrained_sendExit hpc,
      (everyStep_cons hdone).mpr ⟨exitsDrained_sendExit rfl, trivial⟩⟩

theorem printed_exitsDrained :
    EveryStep State.step ExitsDrained printed (List.replicate 9 floodPass) := by
  iterate 7 refine (everyStep_cons rfl).mpr ⟨exitsDrained_of_ne nofun, ?_⟩
  refine (everyStep_cons rfl).mpr
    ⟨exitsDrained_of_drained
      ⟨rfl, rfl, congrArg Prod.fst (Incremental.Parser.drain_of_none rfl)⟩, ?_⟩
  exact (everyStep_cons rfl).mpr ⟨exitsDrained_of_ne nofun, trivial⟩

theorem session_delivered_printed : ∃ t reads',
    run State.step printed (List.replicate 9 floodPass ++ List.replicate 2 floodPass) = some t ∧
      readStarted .eof [t.outbox.bytes] = .ok (⟨42, true⟩, reads') ∧
      ∀ bs c, run (RelayConn.step .eof) (.start reads') bs = some c → c.pc = .returned →
        (c.pipe .stdout).delivered = [0x31, 0x0A] ∧ c.exitCh = [⟨some 0, none, none⟩] := by
  obtain ⟨t₁, hr₁, hpc, hfailed, hfree, hout, hexit⟩ := printed_sendExit
  obtain ⟨⟨t, hr₂, hdone, hstreams, hsame⟩, hw, hd⟩ :=
    sendExit_done hpc (exitFrame_length _ _) hfailed hfree
  have hr : run State.step printed (List.replicate 9 floodPass ++ List.replicate 2 floodPass) =
      some t := by rw [run_append, hr₁, Option.bind_some, hr₂]
  obtain ⟨reads', hread, hreader⟩ := session_delivered
    printed_initial ⟨rfl, rfl, rfl⟩ rfl (by decide)
    ((everyStep_append hr₁).mpr ⟨by decide, hw⟩)
    ((everyStep_append hr₁).mpr ⟨printed_exitsDrained, hd⟩) hr hdone
    (List.flatten_singleton ..)
  refine ⟨t, reads', hr, hread, fun bs c hrun hret => ?_⟩
  obtain ⟨hdelivered, -, status, hstatus, hch⟩ := hreader bs c hrun hret
  obtain rfl := Option.some.inj (hstatus.symm.trans (hsame.trans hexit))
  exact ⟨by rw [hdelivered, hstreams, hout], hch⟩

end CodeRunner.Zygote
