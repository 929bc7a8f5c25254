import CodeRunner.Worker.Branches

/-! # What a step of the handler can do

Every step stays within a stage of the job or moves on to the next: from the setup to the
compile step and the run, into the session, and out of either into an ending. Each of these
moves touches the program, the sandbox and the clocks in few ways.
-/

namespace CodeRunner.Worker

inductive Stage | setup | started | session | ending
  deriving DecidableEq, Repr

def Pc.stage : Pc → Stage
  | .compile _ _ | .announceRunning _ => .started
  | .session => .session
  | .ending _ => .ending
  | _ => .setup

def Pc.todo : Pc → List Effect
  | .ending todo => todo
  | _ => []

theorem Pc.todo_eq_nil {pc : Pc} (h : pc.stage ≠ .ending) : pc.todo = [] := by
  cases pc with
  | ending todo => exact absurd rfl h
  | _ => rfl

theorem Pc.exists_eq_ending {pc : Pc} (h : pc.stage = .ending) : ∃ todo, pc = .ending todo := by
  cases pc with
  | ending todo => exact ⟨todo, rfl⟩
  | _ => cases h

/-- From the container or the child being made to `Cleanup`. -/
def Sandbox.live : Sandbox → Bool
  | .building _ | .created _ => true
  | _ => false

@[simp] theorem Sandbox.live_complete (sandbox : Sandbox) :
    sandbox.complete.live = sandbox.live := by
  cases sandbox <;> rfl

def Clocks.isArmed : Clocks → Bool
  | .armed _ _ => true
  | _ => false

/-- The steps of `Create` that make a sandbox. -/
def Builds (s : Handler) : Act → Prop
  | .call ok => ok = true ∧ (s.pc = .create .hello ∨ s.pc = .create .containerCreate)
  | .lost => s.pc = .create .containerCreate
  | _ => False

def Launches (s : Handler) : Act → Prop
  | .call ok =>
    ok = true ∧ s.pc = .create .containerStart ∧ s.job.spec.compile.isSome = false
  | .lost => s.pc = .create .containerStart ∧ s.job.spec.compile.isSome = false
  | .poll | .spawn => True
  | _ => False

/-- What every step respects, whatever it does to the program counter and the clocks. -/
structure Frame (s : Handler) (a : Act) (s' : Handler) : Prop where
  sandbox : s'.sandbox.live = true → s.sandbox.live = true ∨ Builds s a
  program : s'.program = .executing → s.program = .executing ∨ Launches s a
  ended : s.program = .ended → s.pc.stage ≠ .setup → s'.program = .ended
  startRequested : s.startRequested = true → s'.startRequested = true
  message : .start ∈ s'.ctrlCh →
    .start ∈ s.ctrlCh ∨ s'.startRequested = true ∨ s.pc.stage = .started

inductive Move (s : Handler) (a : Act) (s' : Handler) : Prop where

  | stays (hpc : s'.pc = s.pc ∨ s'.pc.stage = s.pc.stage ∧ s.pc.stage ≠ .ending)
      (hclocks : s'.clocks = s.clocks ∨ s.clocks.isArmed = true ∧ s'.clocks.isArmed = true) :
      Move s a s'

  | begins (hpc : s.pc.stage = .setup) (hpc' : s'.pc.stage = .started)
      (hstart : s.startRequested = true ∨ .start ∈ s.ctrlCh) (hclocks : s'.clocks = s.clocks) :
      Move s a s'

  | arms (hpc : s.pc.stage = .started) (hpc' : s'.pc.stage = .session)
      (hclocks : s'.clocks.isArmed = true) : Move s a s'

  | ends (todo : List Effect) (hpc : s.pc.stage = .setup ∨ s.pc.stage = .started)
      (hpc' : s'.pc = .ending todo) (hslot : todo.count .releaseSlot = 1)
      (hstop : .stopClocks ∉ todo) (hclocks : s'.clocks = s.clocks) : Move s a s'

  | terminates (state : JobState) (hpc : s.pc.stage = .session)
      (hpc' : s'.pc = .ending (terminate ++ teardown s.job state))
      (hclocks : s'.clocks = s.clocks) : Move s a s'

  | effect (e : Effect) (todo : List Effect) (ha : a = .effect) (hpc : s.pc = .ending (e :: todo))
      (hpc' : s'.pc = .ending todo)
      (hclocks : s'.clocks = if e = .stopClocks then .stopped else s.clocks)
      (hkill : e = .kill → s'.program = .ended) (hclean : e = .cleanup → s'.sandbox = .cleaned) :
      Move s a s'

variable {s s' : Handler} {a : Act}

theorem Frame.of_eq (hs : s'.sandbox = s.sandbox) (hp : s'.program = s.program)
    (hr : s'.startRequested = s.startRequested) (hm : ∀ msg ∈ s'.ctrlCh, msg ∈ s.ctrlCh) :
    Frame s a s' where
  sandbox h := .inl (hs ▸ h)
  program h := .inl (hp ▸ h)
  ended h _ := hp.trans h
  startRequested h := hr.trans h
  message h := .inl (hm _ h)

theorem Move.within {k : Stage} (hpc : s.pc.stage = k) (hpc' : s'.pc.stage = k)
    (hk : k ≠ .ending) (hclocks : s'.clocks = s.clocks) : Move s a s' :=
  .stays (.inr ⟨hpc'.trans hpc.symm, hpc ▸ hk⟩) (.inl hclocks)

@[simp] theorem count_teardown (job : Job) (state : JobState) :
    (teardown job state).count .releaseSlot = 1 := by
  unfold teardown
  split <;> rfl

theorem stopClocks_notMem_teardown (job : Job) (state : JobState) :
    .stopClocks ∉ teardown job state := by
  unfold teardown
  split <;> simp

theorem createFailed_move (hpc : s.pc.stage = .setup) (hpc' : s'.pc = .ending createFailed)
    (hclocks : s'.clocks = s.clocks) : Move s a s' :=
  .ends createFailed (.inl hpc) hpc' rfl (by decide) hclocks

theorem command_executing (h : s.command = .executing) : s.job.spec.compile.isSome = false := by
  unfold Handler.command at h
  split at h
  · cases h
  · next hc => exact Bool.not_eq_true _ ▸ hc

theorem createFails_move (hpc : s.pc.stage = .setup) :
    Frame s a s.createFails ∧ Move s a s.createFails := by
  refine ⟨⟨fun h => ?_, fun h => ?_, fun _ h => absurd hpc h, id, .inl⟩, ?_⟩
  · cases h
  · cases h
  · exact createFailed_move hpc rfl rfl

theorem zygoteFails_move (hpc : s.pc.stage = .setup) :
    Frame s a s.zygoteFails ∧ Move s a s.zygoteFails := by
  unfold Handler.zygoteFails
  split
  · exact createFails_move hpc
  · refine ⟨⟨fun h => ?_, fun h => ?_, fun _ h => absurd hpc h, id, .inl⟩, ?_⟩
    · cases h
    · cases h
    · exact .within hpc rfl (by decide) rfl

theorem create_move {ok : Bool} {pc : CreatePc} (hpc : s.pc = .create pc) :
    Frame s (.call ok) (s.create ok pc) ∧ Move s (.call ok) (s.create ok pc) := by
  have hsetup : s.pc.stage = .setup := by rw [hpc]; rfl
  have hstays : ∀ t : Handler, t.pc.stage = .setup → t.clocks = s.clocks →
      Move s (.call ok) t := fun _ h hc => .within hsetup h (by decide) hc
  cases ok with
  | false =>
    cases pc with
    | dial | hello | started => exact zygoteFails_move hsetup
    | containerCreate => exact createFails_move hsetup
    | copyFiles | attach | containerStart =>
      exact ⟨.of_eq rfl rfl rfl fun _ h => h, hstays _ rfl rfl⟩
    | containerRemove => exact ⟨.of_eq rfl rfl rfl fun _ h => h, createFailed_move hsetup rfl rfl⟩
  | true =>
    cases pc with
    | dial | attach | copyFiles => exact ⟨.of_eq rfl rfl rfl fun _ h => h, hstays _ rfl rfl⟩
    | hello =>
      refine ⟨⟨fun _ => .inr ⟨rfl, .inl hpc⟩, fun h => ?_, fun _ h => absurd hsetup h, id, .inl⟩,
        hstays _ rfl rfl⟩
      cases h
    | containerCreate =>
      exact ⟨⟨fun _ => .inr ⟨rfl, .inr hpc⟩, .inl, fun _ h => absurd hsetup h, id, .inl⟩,
        hstays _ rfl rfl⟩
    | started =>
      refine ⟨⟨fun h => .inl ?_, .inl, fun _ h => absurd hsetup h, id, .inl⟩, hstays _ rfl rfl⟩
      exact (Sandbox.live_complete _).symm.trans h
    | containerStart =>
      refine ⟨⟨fun h => .inl ?_, fun h => .inr ⟨rfl, hpc, ?_⟩, fun _ h => absurd hsetup h, id,
        .inl⟩, hstays _ rfl rfl⟩
      · exact (Sandbox.live_complete _).symm.trans h
      · exact command_executing h
    | containerRemove => exact createFails_move hsetup

theorem lost_move (h : s.lost = some s') : Frame s .lost s' ∧ Move s .lost s' := by
  cases lost_branch h with
  | createLost hpc =>
    have hsetup : s.pc.stage = .setup := by rw [hpc]; rfl
    exact ⟨⟨fun _ => .inr hpc, .inl, fun _ h => absurd hsetup h, id, .inl⟩,
      createFailed_move hsetup rfl rfl⟩
  | startLost hpc =>
    have hsetup : s.pc.stage = .setup := by rw [hpc]; rfl
    exact ⟨⟨.inl, fun h => .inr ⟨hpc, command_executing h⟩, fun _ h => absurd hsetup h, id, .inl⟩,
      .within hsetup rfl (by decide) rfl⟩

theorem finish_move {state : JobState} {t : Handler}
    (hpc : s.pc.stage = .setup ∨ s.pc.stage = .started) (ht : Frame s a t)
    (hc : t.clocks = s.clocks) :
    Frame s a (t.finish state) ∧ Move s a (t.finish state) :=
  ⟨⟨ht.sandbox, ht.program, ht.ended, ht.startRequested, ht.message⟩,
    .ends _ hpc rfl (count_teardown _ _) (stopClocks_notMem_teardown _ _) hc⟩

theorem begin_move {t : Handler} (hpc : s.pc.stage = .setup) (ht : Frame s a t)
    (hc : t.clocks = s.clocks) (hstart : s.startRequested = true ∨ .start ∈ s.ctrlCh) :
    Frame s a t.begin ∧ Move s a t.begin := by
  unfold Handler.begin
  split
  · exact ⟨⟨ht.sandbox, ht.program, ht.ended, ht.startRequested, ht.message⟩,
      .begins hpc rfl hstart hc⟩
  · exact ⟨⟨ht.sandbox, ht.program, ht.ended, ht.startRequested, ht.message⟩,
      .begins hpc rfl hstart hc⟩

theorem compiled_move {since : ℕ} {ok : Bool} (hpc : s.pc.stage = .started) :
    Frame s a (s.compiled since ok) ∧ Move s a (s.compiled since ok) := by
  have hframe : ∀ msgs, Frame s a { s with ctrlCh := s.ctrlCh ++ msgs } := fun msgs =>
    ⟨.inl, .inl, fun h _ => h, id, fun _ => .inr (.inr hpc)⟩
  unfold Handler.compiled
  have hfinish : ∀ msgs state,
      Frame s a (Handler.finish { s with ctrlCh := s.ctrlCh ++ msgs } state) ∧
        Move s a (Handler.finish { s with ctrlCh := s.ctrlCh ++ msgs } state) :=
    fun msgs state => finish_move (.inr hpc) (hframe msgs) rfl
  dsimp only
  split
  · exact hfinish _ _
  · split
    · exact hfinish _ _
    · split
      · exact ⟨⟨.inl, .inl, fun h _ => h, id, fun _ => .inr (.inr hpc)⟩,
          .within hpc rfl (by decide) rfl⟩
      · exact hfinish _ _

theorem effect_move {e : Effect} {todo : List Effect} (hpc : s.pc = .ending (e :: todo)) :
    Frame s .effect { s.perform e with pc := .ending todo } ∧
      Move s .effect { s.perform e with pc := .ending todo } := by
  cases e with
  | kill =>
    refine ⟨⟨.inl, fun h => ?_, fun _ _ => rfl, id, .inl⟩,
      .effect .kill todo rfl hpc rfl rfl (fun _ => rfl) nofun⟩
    cases h
  | cleanup =>
    refine ⟨⟨fun h => ?_, fun h => ?_, fun _ _ => rfl, id, .inl⟩,
      .effect .cleanup todo rfl hpc rfl rfl nofun fun _ => rfl⟩ <;> cases h
  | _ =>
    exact ⟨.of_eq rfl rfl rfl fun _ h => h, .effect _ todo rfl hpc rfl rfl nofun nofun⟩

theorem Frame.of_tail {msg : Control} {rest : List Control} (hctrl : s.ctrlCh = msg :: rest)
    (hs : s'.sandbox = s.sandbox) (hp : s'.program = s.program)
    (hr : s'.startRequested = s.startRequested) (hc : s'.ctrlCh = rest) : Frame s a s' := by
  apply Frame.of_eq hs hp hr
  intro m hm
  rw [hctrl]
  exact List.mem_cons_of_mem msg (hc ▸ hm)

theorem Frame.of_launch (hl : Launches s a) (hne : s.program ≠ .ended)
    (hs : s'.sandbox = s.sandbox) (hr : s'.startRequested = s.startRequested)
    (hc : s'.ctrlCh = s.ctrlCh) : Frame s a s' where
  sandbox h := .inl (hs ▸ h)
  program _ := .inr hl
  ended h _ := absurd h hne
  startRequested h := hr.trans h
  message h := .inl (hc ▸ h)

theorem branch_move (h : Branch s a s') : Frame s a s' ∧ Move s a s' := by
  have hsame : Frame s a s := .of_eq rfl rfl rfl fun _ h => h
  cases h with
  | readSpec hpc | subscribe hpc | subscribeControl hpc | announceQueued ok hpc
  | resolveBlobs hpc | addOwned ok hpc | parks ok deadline hpc =>
    have hsetup : s.pc.stage = .setup := by rw [hpc]; rfl
    exact ⟨.of_eq rfl rfl rfl fun _ h => h, .within hsetup rfl (by decide) rfl⟩
  | readSpecFails hpc | subscribeFails hpc | subscribeControlFails hpc
  | resolveBlobsFails hpc =>
    exact ⟨.of_eq rfl rfl rfl fun _ h => h, .ends _ (.inl (hpc ▸ rfl)) rfl rfl (by decide) rfl⟩
  | create ok pc hpc => exact create_move hpc
  | createLost hpc =>
    exact lost_move (by rw [Handler.lost, hpc])
  | startLost hpc =>
    exact lost_move (by rw [Handler.lost, hpc])
  | durableStart deadline hpc hstart =>
    exact begin_move (hpc ▸ rfl) hsame rfl (.inl (startRequested_of_startFlag hstart))
  | announceRunning ok wallMs hpc =>
    exact ⟨.of_eq rfl rfl rfl fun _ h => h, .arms (hpc ▸ rfl) rfl rfl⟩
  | contextDone deadline hpc | warmup deadline hpc =>
    exact finish_move (.inl (hpc ▸ rfl)) hsame rfl
  | parkedStart deadline rest hpc hctrl =>
    have hread : Frame s .receive { s with ctrlCh := rest } := .of_tail hctrl rfl rfl rfl rfl
    exact begin_move (hpc ▸ rfl) hread rfl (.inr (hctrl ▸ List.mem_cons_self))
  | parkedKill deadline rest hpc hctrl =>
    have hread : Frame s .receive { s with ctrlCh := rest } := .of_tail hctrl rfl rfl rfl rfl
    exact finish_move (.inl (hpc ▸ rfl)) hread rfl
  | parkedClose deadline rest hpc hctrl | watchKill since pc rest hpc hctrl
  | watchHold since pc msg rest hpc hctrl | pumpSkip msg rest hpc hctrl =>
    exact ⟨.of_tail hctrl rfl rfl rfl rfl, .stays (.inl rfl) (.inl rfl)⟩
  | expire | cancel | tick =>
    exact ⟨.of_eq rfl rfl rfl fun _ h => h, .stays (.inl rfl) (.inl rfl)⟩
  | compileSucceeds since hpc | touches since hpc =>
    have hstarted : s.pc.stage = .started := by rw [hpc]; rfl
    exact ⟨.of_eq rfl rfl rfl fun _ h => h, .within hstarted rfl (by decide) rfl⟩
  | compileExits since code hpc | compileFails since hpc | touchFails since hpc
  | resumes since wake hpc =>
    exact compiled_move (hpc ▸ rfl)
  | pumpKill rest hpc hctrl =>
    refine ⟨⟨.inl, fun h => ?_, fun _ _ => rfl, id, fun hm => ?_⟩, .stays (.inl rfl) (.inl rfl)⟩
    · cases h
    · exact .inl (hctrl ▸ List.mem_cons_of_mem _ hm)
  | waitReturns hpc | wall _ _ hpc | idle _ _ hpc | cpu _ _ _ hpc =>
    exact ⟨.of_eq rfl rfl rfl fun _ h => h, .terminates _ (hpc ▸ rfl) rfl rfl⟩
  | cpuPolls => exact ⟨hsame, .stays (.inl rfl) (.inl rfl)⟩
  | activity wall idle hpc hclocks =>
    exact ⟨.of_eq rfl rfl rfl fun _ h => h, .stays (.inl rfl) (.inr ⟨hclocks ▸ rfl, rfl⟩)⟩
  | effect e todo hpc => exact effect_move hpc
  | requestStart =>
    exact ⟨⟨.inl, .inl, fun h _ => h, fun _ => rfl, .inl⟩, .stays (.inl rfl) (.inl rfl)⟩
  | deliver msg hsub hstart =>
    refine ⟨⟨.inl, .inl, fun h _ => h, id, fun hm => ?_⟩, .stays (.inl rfl) (.inl rfl)⟩
    dsimp only at hm
    split at hm
    · rcases List.mem_append.mp hm with hm | hm
      · exact .inl hm
      · exact .inr (.inl (hstart (List.mem_singleton.mp hm).symm))
    · exact .inl hm
  | poll hp =>
    have hne : s.program ≠ .ended := by rw [hp]; nofun
    exact ⟨.of_launch True.intro hne rfl rfl rfl, .stays (.inl rfl) (.inl rfl)⟩
  | spawn hp =>
    have hne : s.program ≠ .ended := by rw [hp]; nofun
    exact ⟨.of_launch True.intro hne rfl rfl rfl, .stays (.inl rfl) (.inl rfl)⟩
  | exit hp =>
    refine ⟨⟨.inl, fun h => ?_, fun _ _ => rfl, id, .inl⟩, .stays (.inl rfl) (.inl rfl)⟩
    cases h
  | writeMarker =>
    exact ⟨.of_eq rfl rfl rfl fun _ h => h, .stays (.inl rfl) (.inl rfl)⟩

theorem step_move (h : s.step a = some s') : Frame s a s' ∧ Move s a s' :=
  branch_move (step_branch h)

end CodeRunner.Worker
