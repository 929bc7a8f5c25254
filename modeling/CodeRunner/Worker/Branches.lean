import CodeRunner.Worker.Job

/-! # The branches of the handler

Every enabled step takes one of these branches, each with its guard and the exact state it
leads to.
-/

namespace CodeRunner.Worker

inductive Branch (s : Handler) : Act → Handler → Prop where
  | readSpec (hpc : s.pc = .readSpec) : Branch s (.call true) { s with pc := .subscribe }
  | readSpecFails (hpc : s.pc = .readSpec) :
      Branch s (.call false) { s with pc := .ending [.releaseSlot] }
  | subscribe (hpc : s.pc = .subscribe) :
      Branch s (.call true) { s with pc := .subscribeControl }
  | subscribeFails (hpc : s.pc = .subscribe) :
      Branch s (.call false) { s with pc := .ending [.releaseSlot] }
  | subscribeControl (hpc : s.pc = .subscribeControl) :
      Branch s (.call true) { s with ctrlSub := true, pc := .announceQueued }
  | subscribeControlFails (hpc : s.pc = .subscribeControl) :
      Branch s (.call false)
        { s with ctrlSub := false, pc := .ending [.closeStdinSub, .releaseSlot] }
  | announceQueued (ok : Bool) (hpc : s.pc = .announceQueued) :
      Branch s (.call ok) { s with pc := .resolveBlobs }
  | resolveBlobs (hpc : s.pc = .resolveBlobs) : Branch s (.call true) { s with pc := .addOwned }
  | resolveBlobsFails (hpc : s.pc = .resolveBlobs) :
      Branch s (.call false) { s with pc := .ending blobsFailed }
  | addOwned (ok : Bool) (hpc : s.pc = .addOwned) :
      Branch s (.call ok)
        { s with pc := .create (if s.job.eligible then .dial else .containerCreate) }
  | create (ok : Bool) (pc : CreatePc) (hpc : s.pc = .create pc) :
      Branch s (.call ok) (s.create ok pc)
  | createLost (hpc : s.pc = .create .containerCreate) :
      Branch s .lost { s with pc := .ending createFailed, sandbox := .building .docker }
  | startLost (hpc : s.pc = .create .containerStart) :
      Branch s .lost { s with pc := .create .containerRemove, program := s.command }
  | durableStart (deadline : ℕ) (hpc : s.pc = .startFlag deadline)
      (hstart : s.startFlag = true) : Branch s (.call true) s.begin
  | parks (ok : Bool) (deadline : ℕ) (hpc : s.pc = .startFlag deadline)
      (hstart : ¬ (ok = true ∧ s.startFlag = true)) :
      Branch s (.call ok) { s with pc := .parked deadline }
  | announceRunning (ok : Bool) (wallMs : ℤ) (hpc : s.pc = .announceRunning wallMs) :
      Branch s (.call ok) (s.arm wallMs)
  | contextDone (deadline : ℕ) (hpc : s.pc = .parked deadline) (hc : s.cancelled = true) :
      Branch s .contextDone (s.finish .error)
  | warmup (deadline : ℕ) (hpc : s.pc = .parked deadline) (hle : deadline ≤ s.clock) :
      Branch s .warmup (s.finish .error)
  | parkedStart (deadline : ℕ) (rest : List Control) (hpc : s.pc = .parked deadline)
      (hctrl : s.ctrlCh = .start :: rest) : Branch s .receive { s with ctrlCh := rest }.begin
  | parkedKill (deadline : ℕ) (rest : List Control) (hpc : s.pc = .parked deadline)
      (hctrl : s.ctrlCh = .kill :: rest) :
      Branch s .receive ({ s with ctrlCh := rest }.finish .killed)
  | parkedClose (deadline : ℕ) (rest : List Control) (hpc : s.pc = .parked deadline)
      (hctrl : s.ctrlCh = .stdinClose :: rest) : Branch s .receive { s with ctrlCh := rest }
  | watchKill (since : ℕ) (pc : CompilePc) (rest : List Control) (hpc : s.pc = .compile since pc)
      (hctrl : s.ctrlCh = .kill :: rest) :
      Branch s .watch
        { s.endCompile .canceled with
          ctrlCh := rest, watch := { s.watch with killed := true } }
  | watchHold (since : ℕ) (pc : CompilePc) (msg : Control) (rest : List Control)
      (hpc : s.pc = .compile since pc) (hctrl : s.ctrlCh = msg :: rest) (hmsg : msg ≠ .kill) :
      Branch s .watch
        { s with ctrlCh := rest, watch := { s.watch with pending := s.watch.pending ++ [msg] } }
  | expire (since : ℕ) (pc : CompilePc) (hpc : s.pc = .compile since pc)
      (hwall : 0 < s.job.spec.limits.wallTimeMs.toInt)
      (hle : since + s.job.spec.limits.wallTimeMs.toInt.toNat ≤ s.clock) :
      Branch s .expire (s.endCompile .deadlineExceeded)
  | compileSucceeds (since : ℕ) (hpc : s.pc = .compile since .running)
      (hsandbox : s.sandbox = .created .docker) :
      Branch s (.compileExit 0) { s with pc := .compile since .touching }
  | compileExits (since : ℕ) (code : ℤ) (hpc : s.pc = .compile since .running)
      (hsandbox : s.sandbox = .created .docker) (hcode : code ≠ 0) :
      Branch s (.compileExit code) (s.compiled since false)
  | compileFails (since : ℕ) (hpc : s.pc = .compile since .running) :
      Branch s .compileFails (s.compiled since false)
  | touches (since : ℕ) (hpc : s.pc = .compile since .touching) :
      Branch s (.touch true) { s with pc := .compile since (.pausing (s.clock + markerPauseMs)) }
  | touchFails (since : ℕ) (hpc : s.pc = .compile since .touching) :
      Branch s (.touch false) (s.compiled since true)
  | resumes (since wake : ℕ) (hpc : s.pc = .compile since (.pausing wake))
      (hle : wake ≤ s.clock) : Branch s .resume (s.compiled since true)
  | pumpKill (rest : List Control) (hpc : s.pc = .session) (hctrl : s.ctrlCh = .kill :: rest) :
      Branch s .pump { s with ctrlCh := rest, program := .ended }
  | pumpSkip (msg : Control) (rest : List Control) (hpc : s.pc = .session)
      (hctrl : s.ctrlCh = msg :: rest) (hmsg : msg ≠ .kill) :
      Branch s .pump { s with ctrlCh := rest }
  | waitReturns (hpc : s.pc = .session) : Branch s .waitReturns (s.terminates .done)
  | wall (wall idle : ℕ) (hpc : s.pc = .session) (hclocks : s.clocks = .armed wall idle)
      (hle : wall ≤ s.clock) : Branch s .wall (s.terminates .error)
  | idle (wall idle : ℕ) (hpc : s.pc = .session) (hclocks : s.clocks = .armed wall idle)
      (hle : idle ≤ s.clock) : Branch s .idle (s.terminates .error)
  | cpu (wall idle : ℕ) (usageMs : ℤ) (hpc : s.pc = .session)
      (hclocks : s.clocks = .armed wall idle)
      (hlt : s.job.spec.limits.cpuMs.toInt < usageMs) :
      Branch s (.cpu usageMs) (s.terminates .error)
  | cpuPolls (wall idle : ℕ) (usageMs : ℤ) (hpc : s.pc = .session)
      (hclocks : s.clocks = .armed wall idle)
      (hle : usageMs ≤ s.job.spec.limits.cpuMs.toInt) : Branch s (.cpu usageMs) s
  | activity (wall idle : ℕ) (hpc : s.pc = .session) (hclocks : s.clocks = .armed wall idle) :
      Branch s .activity
        { s with clocks := .armed wall (s.clock + s.job.spec.limits.idleMs.toInt.toNat) }
  | effect (e : Effect) (todo : List Effect) (hpc : s.pc = .ending (e :: todo)) :
      Branch s .effect { s.perform e with pc := .ending todo }
  | requestStart : Branch s .requestStart { s with startSetAt := some s.clock }
  | deliver (msg : Control) (hsub : s.ctrlSub = true)
      (hstart : msg = .start → s.startRequested = true) :
      Branch s (.deliver msg)
        { s with
          ctrlCh := if s.ctrlCh.length < ctrlCap then s.ctrlCh ++ [msg] else s.ctrlCh }
  | cancel : Branch s .cancel { s.endCompile .canceled with cancelled := true }
  | poll (hp : s.program = .holding) (hm : s.marker = true) (hrun : s.job.spec.run ≠ []) :
      Branch s .poll { s with program := .executing, marker := false }
  | spawn (hp : s.program = .spawning) : Branch s .spawn { s with program := .executing }
  | exit (hp : s.program = .executing) : Branch s .exit { s with program := .ended }
  | writeMarker (hc : s.compiler = true) (hsandbox : s.sandbox = .created .docker) :
      Branch s .writeMarker { s with marker := true }
  | tick (ms : ℕ) :
      Branch s (.tick ms)
        { s with
          clock := s.clock + ms
          executedMs := if s.program = .executing then s.executedMs + ms else s.executedMs }

variable {s s' : Handler} {a : Act}

theorem create_eq (s : Handler) (ok : Bool) (pc : CreatePc) :
    s.create ok pc =
      { s with
        sandbox := (s.create ok pc).sandbox
        program := (s.create ok pc).program
        marker := (s.create ok pc).marker
        pc := (s.create ok pc).pc } := by
  have hzygote : s.zygoteFails =
      { s with
        sandbox := s.zygoteFails.sandbox
        program := s.zygoteFails.program
        marker := s.zygoteFails.marker
        pc := s.zygoteFails.pc } := by
    unfold Handler.zygoteFails
    split <;> rfl
  cases ok <;> cases pc <;> first | exact hzygote | rfl

theorem begin_eq (s : Handler) :
    s.begin =
      { s with
        pc := s.begin.pc
        watch := s.begin.watch
        compileErr := s.begin.compileErr
        compiler := s.begin.compiler } := by
  unfold Handler.begin
  split <;> rfl

theorem compiled_eq (s : Handler) (since : ℕ) (ok : Bool) :
    s.compiled since ok =
      { s with
        ctrlCh := s.ctrlCh ++ s.watch.pending.take (ctrlCap - s.ctrlCh.length)
        pc := (s.compiled since ok).pc } := by
  unfold Handler.compiled
  dsimp only
  split
  · rfl
  · split
    · rfl
    · split <;> rfl

theorem startRequested_of_startFlag (h : s.startFlag = true) : s.startRequested = true := by
  unfold Handler.startFlag at h
  unfold Handler.startRequested
  cases hset : s.startSetAt with
  | none =>
    rw [hset] at h
    cases h
  | some setAt => rfl

theorem zygoteFails_program (s : Handler) : s.zygoteFails.program = .absent := by
  unfold Handler.zygoteFails
  split <;> rfl

theorem zygoteFails_sandbox (s : Handler) : s.zygoteFails.sandbox = .absent := by
  unfold Handler.zygoteFails
  split <;> rfl

theorem pc_zygoteFails (s : Handler) :
    s.zygoteFails.pc = .ending createFailed ∨ s.zygoteFails.pc = .create .containerCreate := by
  unfold Handler.zygoteFails
  split
  · exact .inl rfl
  · exact .inr rfl

theorem pc_create (s : Handler) (ok : Bool) (pc : CreatePc) :
    (∃ pc', (s.create ok pc).pc = .create pc') ∨
      (∃ deadline, (s.create ok pc).pc = .startFlag deadline) ∨
        (s.create ok pc).pc = .ending createFailed := by
  cases ok with
  | false =>
    cases pc with
    | dial | hello | started =>
      rcases pc_zygoteFails s with h | h
      · exact .inr (.inr h)
      · exact .inl ⟨_, h⟩
    | copyFiles | attach | containerStart => exact .inl ⟨_, rfl⟩
    | containerCreate | containerRemove => exact .inr (.inr rfl)
  | true =>
    cases pc with
    | dial | hello | containerCreate | copyFiles | attach => exact .inl ⟨_, rfl⟩
    | started | containerStart => exact .inr (.inl ⟨_, rfl⟩)
    | containerRemove => exact .inr (.inr rfl)

theorem pc_begin (s : Handler) :
    s.begin.pc = .compile s.clock .running ∨ ∃ wallMs, s.begin.pc = .announceRunning wallMs := by
  unfold Handler.begin
  split
  · exact .inl rfl
  · exact .inr ⟨_, rfl⟩

theorem pc_compiled (s : Handler) (since : ℕ) (ok : Bool) :
    (∃ wallMs, (s.compiled since ok).pc = .announceRunning wallMs) ∨
      ∃ state, (s.compiled since ok).pc = .ending (teardown s.job state) := by
  unfold Handler.compiled
  dsimp only
  split
  · exact .inr ⟨_, rfl⟩
  · split
    · exact .inr ⟨_, rfl⟩
    · split
      · exact .inl ⟨_, rfl⟩
      · exact .inr ⟨_, rfl⟩

theorem call_branch {ok : Bool} (h : s.call ok = some s') : Branch s (.call ok) s' := by
  unfold Handler.call at h
  split at h
  · next hpc =>
    obtain rfl := Option.some.inj h
    cases ok with
    | true => exact .readSpec hpc
    | false => exact .readSpecFails hpc
  · next hpc =>
    obtain rfl := Option.some.inj h
    cases ok with
    | true => exact .subscribe hpc
    | false => exact .subscribeFails hpc
  · next hpc =>
    obtain rfl := Option.some.inj h
    cases ok with
    | true => exact .subscribeControl hpc
    | false => exact .subscribeControlFails hpc
  · next hpc =>
    obtain rfl := Option.some.inj h
    exact .announceQueued ok hpc
  · next hpc =>
    obtain rfl := Option.some.inj h
    cases ok with
    | true => exact .resolveBlobs hpc
    | false => exact .resolveBlobsFails hpc
  · next hpc =>
    obtain rfl := Option.some.inj h
    exact .addOwned ok hpc
  · next pc hpc =>
    obtain rfl := Option.some.inj h
    exact .create ok pc hpc
  · next deadline hpc =>
    split at h
    · next hstart =>
      obtain rfl := Option.some.inj h
      obtain ⟨rfl, hstart⟩ := hstart
      exact .durableStart deadline hpc hstart
    · next hstart =>
      obtain rfl := Option.some.inj h
      exact .parks ok deadline hpc hstart
  · next wallMs hpc =>
    obtain rfl := Option.some.inj h
    exact .announceRunning ok wallMs hpc
  · cases h

theorem lost_branch (h : s.lost = some s') : Branch s .lost s' := by
  unfold Handler.lost at h
  split at h
  · next hpc =>
    obtain rfl := Option.some.inj h
    exact .createLost hpc
  · next hpc =>
    obtain rfl := Option.some.inj h
    exact .startLost hpc
  · cases h

theorem park_branch (h : s.park a = some s') : Branch s a s' := by
  unfold Handler.park at h
  split at h
  · next deadline hpc =>
    obtain ⟨hc, ⟨⟩⟩ := Option.ite_none_right_eq_some.mp h
    exact .contextDone deadline hpc hc
  · next deadline hpc =>
    obtain ⟨hle, ⟨⟩⟩ := Option.ite_none_right_eq_some.mp h
    exact .warmup deadline hpc hle
  · next deadline hpc =>
    split at h
    · next rest hctrl =>
      obtain rfl := Option.some.inj h
      exact .parkedStart deadline rest hpc hctrl
    · next rest hctrl =>
      obtain rfl := Option.some.inj h
      exact .parkedKill deadline rest hpc hctrl
    · next rest hctrl =>
      obtain rfl := Option.some.inj h
      exact .parkedClose deadline rest hpc hctrl
    · cases h
  · cases h

theorem compile_branch (h : s.compile a = some s') : Branch s a s' := by
  unfold Handler.compile at h
  split at h
  · next since pc hpc =>
    split at h
    · next rest hctrl =>
      obtain rfl := Option.some.inj h
      exact .watchKill since pc rest hpc hctrl
    · next msg rest hmsg hctrl =>
      obtain rfl := Option.some.inj h
      exact .watchHold since pc msg rest hpc hctrl hmsg
    · cases h
  · next since pc hpc =>
    obtain ⟨⟨hwall, hle⟩, h⟩ := Option.ite_none_right_eq_some.mp h
    obtain rfl := Option.some.inj h
    exact .expire since pc hpc hwall hle
  · next since code hpc =>
    split at h
    · cases h
    · next hsandbox =>
      split at h
      · next hcode =>
        obtain rfl := Option.some.inj h
        exact hcode ▸ .compileSucceeds since hpc (not_not.mp hsandbox)
      · next hcode =>
        obtain rfl := Option.some.inj h
        exact .compileExits since code hpc (not_not.mp hsandbox) hcode
  · next since hpc =>
    obtain rfl := Option.some.inj h
    exact .compileFails since hpc
  · next since ok hpc =>
    cases ok with
    | true =>
      obtain rfl := Option.some.inj h
      exact .touches since hpc
    | false =>
      obtain rfl := Option.some.inj h
      exact .touchFails since hpc
  · next since wake hpc =>
    obtain ⟨hle, ⟨⟩⟩ := Option.ite_none_right_eq_some.mp h
    exact .resumes since wake hpc hle
  · cases h

theorem session_branch (h : s.session a = some s') : Branch s a s' := by
  unfold Handler.session at h
  split at h
  · next hpc =>
    split at h
    · next rest hctrl =>
      obtain rfl := Option.some.inj h
      exact .pumpKill rest hpc hctrl
    · next msg rest hmsg hctrl =>
      obtain rfl := Option.some.inj h
      exact .pumpSkip msg rest hpc hctrl hmsg
    · cases h
  · next hpc =>
    obtain rfl := Option.some.inj h
    exact .waitReturns hpc
  · next wall idle hpc hclocks =>
    obtain ⟨hle, ⟨⟩⟩ := Option.ite_none_right_eq_some.mp h
    exact .wall wall idle hpc hclocks hle
  · next wall idle hpc hclocks =>
    obtain ⟨hle, ⟨⟩⟩ := Option.ite_none_right_eq_some.mp h
    exact .idle wall idle hpc hclocks hle
  · next wall idle usageMs hpc hclocks =>
    split at h
    · next hlt =>
      obtain rfl := Option.some.inj h
      exact .cpu wall idle usageMs hpc hclocks hlt
    · next hle =>
      obtain rfl := Option.some.inj h
      exact .cpuPolls wall idle usageMs hpc hclocks (Int.not_lt.mp hle)
  · next wall idle hpc hclocks =>
    obtain rfl := Option.some.inj h
    exact .activity wall idle hpc hclocks
  · cases h

theorem environment_branch (h : s.environment a = some s') : Branch s a s' := by
  unfold Handler.environment at h
  split at h
  · obtain rfl := Option.some.inj h
    exact .requestStart
  · next msg =>
    obtain ⟨⟨hsub, hstart⟩, ⟨⟩⟩ := Option.ite_none_right_eq_some.mp h
    exact .deliver msg hsub hstart
  · obtain rfl := Option.some.inj h
    exact .cancel
  · obtain ⟨⟨hp, hm, hrun⟩, ⟨⟩⟩ := Option.ite_none_right_eq_some.mp h
    exact .poll hp hm hrun
  · obtain ⟨hp, ⟨⟩⟩ := Option.ite_none_right_eq_some.mp h
    exact .spawn hp
  · obtain ⟨hp, ⟨⟩⟩ := Option.ite_none_right_eq_some.mp h
    exact .exit hp
  · obtain ⟨⟨hc, hsandbox⟩, ⟨⟩⟩ := Option.ite_none_right_eq_some.mp h
    exact .writeMarker hc hsandbox
  · next ms =>
    obtain rfl := Option.some.inj h
    exact .tick ms
  · cases h

theorem effect_branch (h : s.effect = some s') : Branch s .effect s' := by
  unfold Handler.effect at h
  split at h
  · next e todo hpc =>
    obtain rfl := Option.some.inj h
    exact .effect e todo hpc
  · cases h

theorem step_branch (h : s.step a = some s') : Branch s a s' := by
  cases a with
  | call ok => exact call_branch h
  | lost => exact lost_branch h
  | contextDone | warmup | receive => exact park_branch h
  | watch | expire | compileExit | compileFails | touch | resume => exact compile_branch h
  | pump | waitReturns | wall | idle | cpu | activity => exact session_branch h
  | effect => exact effect_branch h
  | requestStart | deliver | cancel | poll | spawn | exit | writeMarker | tick =>
    exact environment_branch h

end CodeRunner.Worker
