import CodeRunner.Lib.Transition
import CodeRunner.Relay.Agent

/-! # The session of a lost connection

Once the loop has marked the connection closed it does not select on it again, so a session
that is still running must have been killed by then. A failed send in `emit` marks the
connection closed without killing: the property holds exactly in the runs in which no send
fails before the session is reaped or killed.
-/

namespace CodeRunner.Relay

open Transition

/-- On a connection marked closed, a session that is not reaped has been killed. -/
def State.Supervised (s : State) : Prop :=
  s.connOpen = false → s.result = none → s.killed = true

/-- No send of `emit` fails while the session is neither reaped nor killed. -/
def SendsUntilKilled (s : State) (a : Act) : Prop :=
  s.connOpen = true → s.sends (s.emits a) = false → s.result = none → s.killed = true

instance (s : State) (a : Act) : Decidable (SendsUntilKilled s a) :=
  inferInstanceAs (Decidable (_ → _ → _ → _))

/-- What a step does to the connection mark, the result and the kill, when it emits `f`. -/
structure Effect (s s' : State) (f : Option Frame) : Prop where
  killed : s.killed = true → s'.killed = true
  result : s'.result = none → s.result = none
  conn : s'.connOpen = (s.connOpen && s.sends f) ∨ s'.killed = true
  emit : f.isSome → s'.result = s.result ∧ s'.killed = s.killed ∧
    s'.connOpen = (s.connOpen && s.sends f)

variable {s s' : State} {a : Act} {f : Option Frame}

theorem Effect.of_same (hk : s'.killed = s.killed) (hr : s'.result = s.result)
    (hc : s'.connOpen = s.connOpen) : Effect s s' none where
  killed h := hk ▸ h
  result h := hr ▸ h
  conn := .inl (by simp [hc, State.sends])
  emit h := by cases h

theorem Effect.of_kill (hk : s'.killed = true) (hr : s'.result = s.result) :
    Effect s s' none where
  killed _ := hk
  result h := hr ▸ h
  conn := .inr hk
  emit h := by cases h

theorem Effect.of_emit (hk : s'.killed = s.killed) (hr : s'.result = s.result)
    (hc : s'.connOpen = s.connOpen) (ho : s'.outbox = s.outbox) :
    Effect s (s'.emit? f) f := by
  have hconn : (s'.emit? f).connOpen = (s.connOpen && s.sends f) := by
    rw [State.emit?_connOpen, State.sends, State.sends, hc, ho]
  refine ⟨fun h => ?_, fun h => ?_, .inl hconn, fun _ => ⟨?_, ?_, hconn⟩⟩
  · rw [State.emit?_killed, hk]; exact h
  · rw [State.emit?_result, hr] at h; exact h
  · rw [State.emit?_result, hr]
  · rw [State.emit?_killed, hk]

theorem Effect.of_chunk {fd : Fd} {bs : List UInt8} (hk : s'.killed = s.killed)
    (hr : s'.result = s.result)
    (hc : s'.connOpen = s.connOpen) (ho : s'.outbox = s.outbox) :
    Effect s (s'.chunk fd bs) (fd.frame bs) := by
  cases fd with
  | art => exact .of_same hk hr hc
  | out => exact .of_emit (f := Fd.out.frame bs) hk hr hc ho
  | err => exact .of_emit (f := Fd.err.frame bs) hk hr hc ho

theorem recvConn_effect (ready : Ready) : Effect s (s.recvConn ready) none := by
  unfold State.recvConn
  split
  · exact .of_same rfl rfl rfl
  · exact .of_kill rfl rfl
  · exact .of_kill rfl rfl
  · split <;> exact .of_same rfl rfl rfl

theorem iterFrames_effect (ready : Ready) : Effect s (s.iterFrames ready) none := by
  unfold State.iterFrames
  split
  · unfold State.handleFrame
    split
    · exact .of_same rfl rfl rfl
    · split
      · exact .of_same rfl rfl rfl
      · split
        · exact .of_kill rfl rfl
        · exact .of_same rfl rfl rfl
  · exact .of_same rfl rfl rfl

theorem readChild_effect {fd : Fd} {ready : Ready} (o : Observed) (hpc : s.pc = .child fd ready) :
    Effect s (s.readChild fd ready) (s.emission o) := by
  simp only [State.readChild, State.emission, hpc]
  split
  · obtain ⟨r, stream⟩ := (s.streams fd).recv recvMax
    cases r with
    | data bs =>
      dsimp only
      exact .of_chunk rfl rfl rfl rfl
    | _ => exact .of_same rfl rfl rfl
  · exact .of_same rfl rfl rfl

theorem blockingSend_effect {rest : List UInt8} {failed finished : Pc} {more : List UInt8 → Pc}
    (h : s.blockingSend rest failed finished more = some s') : Effect s s' none := by
  unfold State.blockingSend at h
  split at h
  · exact Option.some.inj h ▸ .of_same rfl rfl rfl
  · split at h
    · exact Option.some.inj h ▸ .of_same rfl rfl rfl
    · split at h
      · cases h
      · exact Option.some.inj h ▸ .of_same rfl rfl rfl

theorem pushCpu_effect (o : Observed) (hpc : s.pc = .cpu) :
    Effect s (s.pushCpu o.cpu) (s.emission o) := by
  simp only [State.pushCpu, State.emission, hpc]
  split
  · exact .of_emit rfl rfl rfl rfl
  · exact .of_same rfl rfl rfl

theorem terminal_effect {now : ℕ} (o : Observed) (hpc : s.pc = .terminal now) :
    Effect s (s.terminal now o) (s.emission o) := by
  simp only [State.terminal, State.emission, hpc]
  split
  · exact .of_emit rfl rfl rfl rfl
  · split
    · exact .of_same rfl rfl rfl
    · split
      · exact .of_kill rfl rfl
      · exact .of_same rfl rfl rfl

theorem agent_effect {o : Observed} (h : s.agent o = some s') : Effect s s' (s.emission o) := by
  unfold State.agent at h
  cases hpc : s.pc with
  | reap =>
    simp only [hpc, Option.some.injEq] at h
    subst h
    simp only [State.emission, hpc]
    refine ⟨id, fun h => ?_, .inl (by simp [State.sends]), fun h => by cases h⟩
    exact (Option.or_eq_none_iff.mp h).1
  | child fd ready =>
    simp only [hpc, Option.some.injEq] at h
    exact h ▸ readChild_effect o hpc
  | cpu =>
    simp only [hpc, Option.some.injEq] at h
    exact h ▸ pushCpu_effect o hpc
  | terminal now =>
    simp only [hpc, Option.some.injEq] at h
    exact h ▸ terminal_effect o hpc
  | select =>
    simp only [hpc, Option.some.injEq] at h
    simp only [State.emission, hpc]
    exact h ▸ .of_same rfl rfl rfl
  | conn ready =>
    simp only [hpc] at h
    simp only [State.emission, hpc]
    split at h <;> obtain rfl := Option.some.inj h
    · exact recvConn_effect ready
    · exact .of_same rfl rfl rfl
  | frames ready =>
    simp only [hpc, Option.some.injEq] at h
    simp only [State.emission, hpc]
    exact h ▸ iterFrames_effect ready
  | artifacts todo truncated =>
    simp only [hpc, State.nextArtifact] at h
    simp only [State.emission, hpc]
    split at h
    · split at h <;> obtain rfl := Option.some.inj h <;> exact .of_same rfl rfl rfl
    · obtain ⟨r, -, rfl⟩ := Option.map_eq_some_iff.mp h
      exact .of_same rfl rfl rfl
  | sendArtifact rest todo truncated =>
    simp only [hpc] at h
    simp only [State.emission, hpc]
    exact blockingSend_effect h
  | sendExit rest =>
    simp only [hpc] at h
    simp only [State.emission, hpc]
    exact blockingSend_effect h
  | done => simp [hpc] at h

theorem step_effect (h : s.step a = some s') : Effect s s' (s.emits a) := by
  cases step_turn h with
  | agent o s' hs => exact agent_effect hs
  | _ => exact .of_same rfl rfl rfl

theorem step_supervised_iff (hs : s.Supervised) (h : s.step a = some s') :
    s'.Supervised ↔ SendsUntilKilled s a := by
  have he := step_effect h
  constructor
  · intro hs' hopen hfail hres
    cases hf : s.emits a with
    | none => simp [hf, State.sends] at hfail
    | some f =>
      obtain ⟨hres', hkilled, hopen'⟩ := he.emit (by rw [hf]; rfl)
      rw [← hkilled]
      exact hs' (by rw [hopen', hfail, Bool.and_false]) (hres'.trans hres)
  · intro hg hopen' hres'
    have hres := he.result hres'
    rcases he.conn with hconn | hkilled
    · rw [hopen'] at hconn
      rcases Bool.and_eq_false_iff.mp hconn.symm with hopen | hfail
      · exact he.killed (hs hopen hres)
      · cases hopen : s.connOpen with
        | false => exact he.killed (hs hopen hres)
        | true => exact he.killed (hg hopen hfail hres)
    · exact hkilled

/-- The session of a connection marked closed is reaped or killed in every state of a run
exactly when every send that fails in the run comes after the session was reaped or killed. -/
theorem supervised_iff {s t : State} {as : List Act} (hs : s.Initial)
    (hr : run State.step s as = some t) :
    Always State.step State.Supervised s as ↔ EveryStep State.step SendsUntilKilled s as := by
  have hinit : s.Supervised := fun hopen => by simp [hs.connOpen] at hopen
  exact always_iff_everyStep (fun s a s' hs h => step_supervised_iff hs h) hinit hr

/-- The worker's end resets the connection between a chunk's `select` and its `emit`. -/
def resetSchedule : List Act :=
  [.write .out [97], .pass [.out] false, .pass [.out] false, .pass [.out] false, .reset,
    .pass [.out] false]

theorem resetSchedule_orphans :
    (run State.step (.start 4096 true) resetSchedule).map
      (fun s => (s.connOpen, s.result, s.killed)) = some (false, none, false) := rfl

theorem not_always_supervised :
    ¬ ∀ (s t : State) (as : List Act), s.Initial → run State.step s as = some t →
      Always State.step State.Supervised s as := by
  intro h
  obtain ⟨t, hr, ht⟩ := Option.map_eq_some_iff.mp resetSchedule_orphans
  simp only [Prod.mk.injEq] at ht
  obtain ⟨hopen, hres, hkilled⟩ := ht
  have hlast := (h _ t _ (start_initial 4096 true) hr).last hr
  exact absurd (hlast hopen hres) (by simp [hkilled])

/-- The worker closes its end, and the next pass kills the session. -/
theorem start_supervised :
    Always State.step State.Supervised (.start 4096 true)
      [.closeConn, .pass [] false, .agent ⟨⟨true, fun _ => false⟩, none, false⟩, .pass [] false] :=
  (supervised_iff (start_initial 4096 true) rfl).mpr (by decide)

end CodeRunner.Relay
