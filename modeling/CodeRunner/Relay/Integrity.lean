import CodeRunner.Relay.Connection

/-! # Frames under backpressure

While the worker keeps the connection open and every frame of the loop fits the free send
buffer, what the kernel took and what a blocking send has still to write are together the
frames meant, one after the other. A frame that does not fit is cut, and its failed send
marks an open connection closed.
-/

namespace CodeRunner.Relay

open Transition

def Pc.pending : Pc → List UInt8
  | .sendArtifact rest _ _ | .sendExit rest => rest
  | _ => []

def State.pending (s : State) : List UInt8 := s.pc.pending

/-- The worker decodes a prefix of the frames meant from whatever it has read, and exactly
the frames meant from all bytes sent once no send is under way; and the agent does not hold
the connection for lost. -/
structure State.Intact (s : State) : Prop where
  read : (frameDecoder.drain s.outbox.read).1 <+: s.meant
  sent : s.pending = [] → frameDecoder.drain s.outbox.bytes = (s.meant, [])
  connOpen : s.connOpen = true

def Act.breaksConn : Act → Bool
  | .closeConn | .reset => true
  | _ => false

/-- The worker does not close the connection and the network does not break it. -/
def KeepsOpen (_ : State) (a : Act) : Prop := a.breaksConn = false

instance KeepsOpen.instDecidable (s : State) (a : Act) : Decidable (KeepsOpen s a) :=
  inferInstanceAs (Decidable (a.breaksConn = false))

/-- The frame that a step emits fits the free send buffer. -/
def Fits (s : State) (a : Act) : Prop := ∀ f ∈ s.emits a, f.bytes.length ≤ s.outbox.free

instance Fits.instDecidable (s : State) (a : Act) : Decidable (Fits s a) :=
  inferInstanceAs (Decidable (∀ f ∈ s.emits a, f.bytes.length ≤ s.outbox.free))

/-- Neither end of the connection has closed or failed. -/
structure State.Connected (s : State) : Prop where
  inbox_closed : s.inbox.closed = false
  inbox_failed : s.inbox.failed = false
  outbox_failed : s.outbox.failed = false

/-- Bytes sent and bytes pending are the frames meant, and no frame is over the limit. -/
structure State.Framed (s : State) : Prop extends s.Connected where
  connOpen : s.connOpen = true
  bytes : s.outbox.bytes ++ s.pending = s.meant.flatMap Frame.bytes
  length : ∀ f ∈ s.meant, f.payload.length ≤ maxFramePayload

variable {s s' : State} {a : Act} {f : Frame}

theorem Frame.length_bytes : f.bytes.length = 5 + f.payload.length := by
  rw [Frame.bytes, List.length_cons, Block.length_put]
  omega

theorem drain_frames {fs : List Frame} (h : ∀ f ∈ fs, f.payload.length ≤ maxFramePayload) :
    frameDecoder.drain (fs.flatMap Frame.bytes) = (fs, []) := by
  have hdrain := Incremental.Parser.drain_flatMap (p := frameDecoder) Frame.bytes
    (fun f hf rest => frameDecoder_bytes (h f hf) rest) []
  rw [List.append_nil] at hdrain
  rw [hdrain, Incremental.Parser.drain_of_none rfl, List.append_nil]

theorem State.Framed.intact (hs : s.Framed) : s.Intact where
  read := by
    have hall := drain_frames hs.length
    have hpre : s.outbox.read <+: s.meant.flatMap Frame.bytes := by
      rw [← hs.bytes, ByteStream.bytes, List.append_assoc]
      exact List.prefix_append _ _
    obtain ⟨more, hmore⟩ := hpre
    have := Incremental.Parser.drain_prefix (p := frameDecoder) s.outbox.read more
    rwa [hmore, hall] at this
  sent hp := by
    have hbytes := hs.bytes
    rw [hp, List.append_nil] at hbytes
    rw [hbytes, drain_frames hs.length]
  connOpen := hs.connOpen

/-- A step that hands over the frames `fs` for sending, on a connection that stays open. -/
structure Sent (s s' : State) (fs : List Frame) : Prop where
  connOpen : s'.connOpen = s.connOpen
  inbox_closed : s'.inbox.closed = s.inbox.closed
  inbox_failed : s'.inbox.failed = s.inbox.failed
  outbox_failed : s'.outbox.failed = s.outbox.failed
  bytes : s'.outbox.bytes ++ s'.pending =
    s.outbox.bytes ++ s.pending ++ fs.flatMap Frame.bytes
  meant : s'.meant = s.meant ++ fs
  length : ∀ f ∈ fs, f.payload.length ≤ maxFramePayload

theorem State.Framed.of_sent {fs : List Frame} (hs : s.Framed) (h : Sent s s' fs) :
    s'.Framed where
  inbox_closed := h.inbox_closed.trans hs.inbox_closed
  inbox_failed := h.inbox_failed.trans hs.inbox_failed
  outbox_failed := h.outbox_failed.trans hs.outbox_failed
  connOpen := h.connOpen.trans hs.connOpen
  bytes := by rw [h.bytes, hs.bytes, h.meant, List.flatMap_append]
  length f hf := by
    rw [h.meant] at hf
    rcases List.mem_append.mp hf with hf | hf
    · exact hs.length f hf
    · exact h.length f hf

theorem Sent.of_same (hc : s'.connOpen = s.connOpen) (hi : s'.inbox = s.inbox)
    (ho : s'.outbox = s.outbox) (hp : s'.pending = s.pending) (hm : s'.meant = s.meant) :
    Sent s s' [] where
  connOpen := hc
  inbox_closed := by rw [hi]
  inbox_failed := by rw [hi]
  outbox_failed := by rw [ho]
  bytes := by rw [ho, hp, List.flatMap_nil, List.append_nil]
  meant := by rw [hm, List.append_nil]
  length _ hf := by cases hf

theorem Sent.of_emit {f : Option Frame} (hs : s.Framed) (hp : s.pending = [])
    (hc : s'.connOpen = s.connOpen) (hi : s'.inbox = s.inbox) (ho : s'.outbox = s.outbox)
    (hp' : s'.pending = []) (hm : s'.meant = s.meant)
    (hfit : ∀ g ∈ f, g.bytes.length ≤ s.outbox.free)
    (hlen : ∀ g ∈ f, g.payload.length ≤ maxFramePayload) : Sent s (s'.emit? f) f.toList := by
  cases f with
  | none => exact .of_same hc hi ho (hp'.trans hp.symm) hm
  | some f =>
    have hsend := ByteStream.sendall_of_fits hs.outbox_failed (hfit f rfl)
    have hemit : s'.emit? (some f) =
        { s' with outbox := s.outbox.write f.bytes, meant := s.meant ++ [f] } := by
      simp [State.emit?, State.emit, hc, ho, hm, hs.connOpen, hsend]
    have hpend : (s'.emit? (some f)).pending = [] := by rw [hemit]; exact hp'
    rw [hemit] at hpend ⊢
    refine ⟨hc, congrArg _ hi, congrArg _ hi, rfl, ?_, rfl, ?_⟩
    · rw [hpend, hp]
      simp
    · intro g hg
      obtain rfl := List.mem_singleton.mp hg
      exact hlen g rfl

theorem Sent.of_chunk {fd : Fd} {bs : List UInt8} (hs : s.Framed) (hp : s.pending = [])
    (hc : s'.connOpen = s.connOpen) (hi : s'.inbox = s.inbox) (ho : s'.outbox = s.outbox)
    (hp' : s'.pending = []) (hm : s'.meant = s.meant)
    (hfit : ∀ g ∈ fd.frame bs, g.bytes.length ≤ s.outbox.free)
    (hlen : ∀ g ∈ fd.frame bs, g.payload.length ≤ maxFramePayload) :
    Sent s (s'.chunk fd bs) (fd.frame bs).toList := by
  cases fd with
  | art => exact .of_same hc hi ho (hp'.trans hp.symm) hm
  | out => exact .of_emit (f := Fd.out.frame bs) hs hp hc hi ho hp' hm hfit hlen
  | err => exact .of_emit (f := Fd.err.frame bs) hs hp hc hi ho hp' hm hfit hlen

theorem emission_length {o : Observed} (h : f ∈ s.emission o) :
    f.payload.length ≤ maxFramePayload := by
  have hpush : f ∈ s.cpuPush o.cpu → f.payload.length ≤ maxFramePayload := by
    intro h
    obtain ⟨r, -, h⟩ := Option.bind_eq_some_iff.mp h
    split at h <;> cases h
    exact cpuFrame_length r
  unfold State.emission at h
  split at h
  · next fd ready =>
    split at h
    · split at h
      · next bs _ hr =>
        have hbs : bs.length ≤ recvMax := by
          rw [(ByteStream.recv_data hr).1, List.length_take]
          omega
        rw [Fd.frame_payload h]
        exact hbs.trans (by decide)
      · cases h
    · cases h
  · split at h
    · exact hpush h
    · cases h
  · split at h
    · exact hpush h
    · cases h
  · cases h

theorem pending_fd {fd : Fd} {ready : Ready} (hpc : s.pc = fd.pc ready) : s.pending = [] := by
  rw [State.pending, hpc]
  cases fd <;> rfl

theorem recvConn_sent {ready : Ready} (hs : s.Framed) (hp : s.pending = []) :
    Sent s (s.recvConn ready) [] := by
  have hbytes : ∀ s' : State, s'.connOpen = s.connOpen → s'.inbox.closed = s.inbox.closed →
      s'.inbox.failed = s.inbox.failed → s'.outbox = s.outbox → s'.pending = [] →
      s'.meant = s.meant → Sent s s' [] := by
    intro s' hc hcl hfl ho hp' hm
    refine ⟨hc, hcl, hfl, by rw [ho], ?_, by rw [hm, List.append_nil], fun f hf => by cases hf⟩
    rw [ho, hp', hp]
    simp
  unfold State.recvConn
  split
  · exact hbytes _ rfl rfl rfl rfl rfl rfl
  · next hr =>
    have heof := ByteStream.recv_eof (by decide) (congrArg Prod.fst hr)
    rw [hs.inbox_closed] at heof
    cases heof.2
  · next hr =>
    have herr := ByteStream.recv_error (congrArg Prod.fst hr)
    rw [hs.inbox_failed] at herr
    cases herr
  · next bs inbox hr =>
    obtain rfl := (ByteStream.recv_data hr).2
    split <;> exact hbytes _ rfl rfl rfl rfl rfl rfl

theorem iterFrames_sent {ready : Ready} (hpc : s.pc = .frames ready) :
    Sent s (s.iterFrames ready) [] := by
  have hp : s.pending = [] := by rw [State.pending, hpc]; rfl
  unfold State.iterFrames
  split
  · unfold State.handleFrame
    split
    · exact .of_same rfl rfl rfl rfl rfl
    · split
      · exact .of_same rfl rfl rfl rfl rfl
      · split <;> exact .of_same rfl rfl rfl rfl rfl
  · exact .of_same rfl rfl rfl hp.symm rfl

theorem readChild_sent {fd : Fd} {ready : Ready} {o : Observed} (hs : s.Framed)
    (hpc : s.pc = .child fd ready) (hfit : Fits s (.agent o)) :
    Sent s (s.readChild fd ready) (s.emission o).toList := by
  have hp : s.pending = [] := by rw [State.pending, hpc]; rfl
  have hlen := fun f => emission_length (s := s) (o := o) (f := f)
  simp only [Fits, State.emits] at hfit
  unfold State.readChild
  simp only [State.emission, hpc] at hfit hlen ⊢
  split
  · next hcond =>
    simp only [hcond, if_true] at hfit hlen
    generalize (s.streams fd).recv recvMax = r at hfit hlen ⊢
    obtain ⟨r, stream⟩ := r
    cases r with
    | data bs =>
      dsimp only at hfit hlen ⊢
      exact .of_chunk hs hp rfl rfl rfl (pending_fd rfl) rfl hfit hlen
    | _ => exact .of_same rfl rfl rfl ((pending_fd rfl).trans hp.symm) rfl
  · exact .of_same rfl rfl rfl ((pending_fd rfl).trans hp.symm) rfl

theorem pushCpu_sent {o : Observed} (hs : s.Framed) (hpc : s.pc = .cpu)
    (hfit : Fits s (.agent o)) : Sent s (s.pushCpu o.cpu) (s.emission o).toList := by
  have hp : s.pending = [] := by rw [State.pending, hpc]; rfl
  have hlen := fun f => emission_length (s := s) (o := o) (f := f)
  simp only [Fits, State.emits] at hfit
  unfold State.pushCpu
  simp only [State.emission, hpc] at hfit hlen ⊢
  split
  · next hcond =>
    simp only [hcond, if_true] at hfit hlen
    exact .of_emit hs hp rfl rfl rfl rfl rfl hfit hlen
  · exact .of_same rfl rfl rfl hp.symm rfl

theorem terminal_sent {o : Observed} {now : ℕ} (hs : s.Framed) (hpc : s.pc = .terminal now)
    (hfit : Fits s (.agent o)) : Sent s (s.terminal now o) (s.emission o).toList := by
  have hp : s.pending = [] := by rw [State.pending, hpc]; rfl
  have hlen := fun f => emission_length (s := s) (o := o) (f := f)
  simp only [Fits, State.emits] at hfit
  unfold State.terminal
  simp only [State.emission, hpc] at hfit hlen ⊢
  split
  · next hcond =>
    simp only [hcond, if_true] at hfit hlen
    exact .of_emit hs hp rfl rfl rfl rfl rfl hfit hlen
  · split
    · exact .of_same rfl rfl rfl hp.symm rfl
    · split <;> exact .of_same rfl rfl rfl hp.symm rfl

theorem blockingSend_sent {rest : List UInt8} {failed finished : Pc} {more : List UInt8 → Pc}
    (hs : s.Framed) (hp : s.pending = rest)
    (hfinished : finished.pending = []) (hmore : ∀ rest, (more rest).pending = rest)
    (h : s.blockingSend rest failed finished more = some s') : Sent s s' [] := by
  simp only [State.blockingSend, hs.outbox_failed] at h
  split at h
  · next hf => cases hf
  · split at h
    · next hrest =>
      obtain rfl := Option.some.inj h
      exact .of_same rfl rfl rfl (by rw [State.pending, hfinished, hp, hrest]) rfl
    · split at h
      · cases h
      · obtain rfl := Option.some.inj h
        refine ⟨rfl, rfl, rfl, rfl, ?_, by simp, fun f hf => by cases hf⟩
        rw [hp]
        simp [State.pending, hmore]

theorem nextArtifact_sent {todo : List Artifact} {truncated : Bool}
    (hp : s.pending = []) (h : s.nextArtifact todo truncated = some s') :
    ∃ fs, Sent s s' fs := by
  unfold State.nextArtifact at h
  split at h
  · dsimp only at h
    split at h
    · obtain rfl := Option.some.inj h
      exact ⟨[], .of_same rfl rfl rfl hp.symm rfl⟩
    · next hlen =>
      obtain rfl := Option.some.inj h
      refine ⟨_, rfl, rfl, rfl, rfl, ?_, rfl, ?_⟩
      · rw [hp]; simp [State.pending, Pc.pending]
      · intro g hg
        obtain rfl := List.mem_singleton.mp hg
        exact Nat.not_lt.mp hlen
  · obtain ⟨r, -, rfl⟩ := Option.map_eq_some_iff.mp h
    refine ⟨_, rfl, rfl, rfl, rfl, ?_, rfl, ?_⟩
    · rw [hp]; simp [State.pending, Pc.pending]
    · intro g hg
      obtain rfl := List.mem_singleton.mp hg
      exact exitFrame_length r truncated

theorem agent_sent {o : Observed} (hs : s.Framed) (hfit : Fits s (.agent o))
    (h : s.agent o = some s') : ∃ fs, Sent s s' fs := by
  unfold State.agent at h
  have hp : ∀ pc, s.pc = pc → pc.pending = [] → s.pending = [] := by
    rintro _ rfl hp
    exact hp
  cases hpc : s.pc with
  | reap =>
    simp only [hpc, Option.some.injEq] at h
    exact ⟨[], h ▸ .of_same rfl rfl rfl (hp _ hpc rfl).symm rfl⟩
  | select =>
    simp only [hpc, Option.some.injEq] at h
    exact ⟨[], h ▸ .of_same rfl rfl rfl (hp _ hpc rfl).symm rfl⟩
  | conn ready =>
    simp only [hpc] at h
    split at h <;> obtain rfl := Option.some.inj h
    · exact ⟨[], recvConn_sent hs (hp _ hpc rfl)⟩
    · exact ⟨[], .of_same rfl rfl rfl (hp _ hpc rfl).symm rfl⟩
  | frames ready =>
    simp only [hpc, Option.some.injEq] at h
    exact ⟨[], h ▸ iterFrames_sent hpc⟩
  | child fd ready =>
    simp only [hpc, Option.some.injEq] at h
    exact ⟨_, h ▸ readChild_sent hs hpc hfit⟩
  | cpu =>
    simp only [hpc, Option.some.injEq] at h
    exact ⟨_, h ▸ pushCpu_sent hs hpc hfit⟩
  | terminal now =>
    simp only [hpc, Option.some.injEq] at h
    exact ⟨_, h ▸ terminal_sent hs hpc hfit⟩
  | artifacts todo truncated =>
    simp only [hpc] at h
    exact nextArtifact_sent (hp _ hpc rfl) h
  | sendArtifact rest todo truncated =>
    simp only [hpc] at h
    exact ⟨[], blockingSend_sent hs (by rw [State.pending, hpc]; rfl) rfl (fun _ => rfl) h⟩
  | sendExit rest =>
    simp only [hpc] at h
    exact ⟨[], blockingSend_sent hs (by rw [State.pending, hpc]; rfl) rfl (fun _ => rfl) h⟩
  | done => simp [hpc] at h

theorem step_sent (hs : s.Framed) (hk : KeepsOpen s a) (hfit : Fits s a)
    (h : s.step a = some s') : ∃ fs, Sent s s' fs := by
  cases step_turn h with
  | agent o s' h => exact agent_sent hs hfit h
  | closeConn => cases hk
  | reset => cases hk
  | send bs =>
    exact ⟨[], rfl, rfl, rfl, rfl, by simp [State.pending], by simp, fun f hf => by cases hf⟩
  | drain n =>
    refine ⟨[], rfl, rfl, rfl, rfl, ?_, by simp, fun f hf => by cases hf⟩
    simp [State.pending]
  | _ => exact ⟨[], .of_same rfl rfl rfl rfl rfl⟩

theorem step_framed (hs : s.Framed) (hk : KeepsOpen s a) (hfit : Fits s a)
    (h : s.step a = some s') : s'.Framed := by
  obtain ⟨fs, hsent⟩ := step_sent hs hk hfit h
  exact hs.of_sent hsent

theorem State.Initial.framed (hs : s.Initial) (hc : s.Connected) : s.Framed where
  toConnected := hc
  connOpen := hs.connOpen
  bytes := by
    have hp : s.pending = [] := by rw [State.pending, hs.pc]; rfl
    rw [hp, List.append_nil, hs.outbox]
  length f hf := by
    obtain ⟨started, hm, hlen⟩ := hs.meant
    rw [hm] at hf
    obtain rfl := List.mem_singleton.mp hf
    exact hlen

theorem fits_of_connOpen (hs : s.connOpen = true) (hs' : s'.connOpen = true)
    (h : s.step a = some s') : Fits s a := by
  intro f hf
  obtain ⟨-, -, hopen⟩ := (step_effect h).emit (by rw [hf]; rfl)
  rw [hs', hs, Bool.true_and, State.sends, hf] at hopen
  exact (ByteStream.sendall_fst.mp hopen.symm).2

/-- While the worker does not close, the worker decodes exactly the frames meant and the agent
keeps the connection in every state of a run exactly when every frame of the loop fits the
free send buffer at the moment it is sent. -/
theorem intact_iff_fits {s t : State} {as : List Act} (hs : s.Initial) (hc : s.Connected)
    (hk : EveryStep State.step KeepsOpen s as) (hr : run State.step s as = some t) :
    Always State.step State.Intact s as ↔ EveryStep State.step Fits s as := by
  constructor
  · intro h
    exact .of_always_next (fun s a s' hs hs' h => fits_of_connOpen hs.connOpen hs'.connOpen h) h hr
  · intro hfit
    have hframed : Always State.step State.Framed s as :=
      .of_guarded (fun s a s' hs hg h => step_framed hs hg.1 hg.2 h) (hs.framed hc) (hk.and hfit)
    exact hframed.mono fun s hs => hs.intact

/-- Two chunks of one byte, the first of which is still in the buffer when the second goes
out. -/
def backlogSchedule : List Act :=
  .write .out [97] :: List.replicate 8 (.pass [.out] false) ++
    .write .out [98] :: List.replicate 4 (.pass [.out] false)

theorem backlogSchedule_cuts :
    (run State.step (.start 8 true) backlogSchedule).map
      (fun s => (s.connOpen, s.outbox.unread)) =
      some (false, [0x11, 0, 0, 0, 1, 97, 0x11, 0]) := rfl

theorem not_always_intact :
    ¬ ∀ (s t : State) (as : List Act), s.Initial → s.Connected →
      EveryStep State.step KeepsOpen s as → run State.step s as = some t →
      Always State.step State.Intact s as := by
  intro h
  obtain ⟨t, hr, ht⟩ := Option.map_eq_some_iff.mp backlogSchedule_cuts
  simp only [Prod.mk.injEq] at ht
  have hk : EveryStep State.step KeepsOpen (.start 8 true) backlogSchedule := by
    decide
  have hlast := (h _ t _ (start_initial 8 true) ⟨rfl, rfl, rfl⟩ hk hr).last hr
  exact absurd hlast.connOpen (by simp [ht.1])

/-- The same schedule with room for both chunks. -/
theorem backlogSchedule_intact :
    Always State.step State.Intact (.start 4096 true) backlogSchedule :=
  (intact_iff_fits (start_initial 4096 true) ⟨rfl, rfl, rfl⟩ (by decide) rfl).mpr (by decide)

end CodeRunner.Relay
