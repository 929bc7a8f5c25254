import CodeRunner.Lib.PubSub
import CodeRunner.Worker.Verdict

/-! # A kill before the run

The control requests of a job are published on a channel that only an active subscription
hears. A kill that is accepted before the run reaches the handler as long as nothing on the way
loses it, and the handler does not go past it.
-/

namespace CodeRunner.Worker

open PubSub Transition

/-- The handler has sent its subscription to the control channel and not closed it. -/
def Handler.listens (s : Handler) : Bool := decide (s.pc = .subscribeControl) || s.ctrlSub

def Handler.awaits (s : Handler) : Bool :=
  s.listens && (decide (s.pc.stage = .setup) || s.pc.compiling)

/-- The handler next to the control channel of its job. `accepted` is set by a kill that is
accepted before the running stage has been published. -/
structure Line where
  handler : Handler
  sub : Subscription Control
  accepted : Bool
  record : List Output

def Line.start (job : Job) : Line := ⟨.start job, .closed, false, []⟩

/-- `request` is a publish of the API, `activate` the moment at which Redis takes the
subscription, and `arrive` a message at the delivery goroutine. -/
inductive LineAct where
  | request (msg : Control)
  | activate
  | arrive
  | act (a : Act)
  deriving DecidableEq

namespace Line

def running (l : Line) : Bool := decide (.stage .running ∈ l.record)

/-- The record and the subscription after a step of the handler. -/
def after (l : Line) (a : Act) (s' : Handler) : Line where
  handler := s'
  sub := if s'.listens then l.sub else .closed
  accepted := l.accepted
  record := l.record ++ l.handler.emits a

def step (l : Line) : LineAct → Option Line
  | .request msg =>
    -- the flag is set before the start is published
    if msg = .start → l.handler.startRequested = true then
      some { l with
        sub := l.sub.publish msg
        accepted := l.accepted || (decide (msg = .kill) && !l.running) }
    else none
  | .activate => if l.handler.listens then some { l with sub := l.sub.activate } else none
  | .arrive =>
    match l.sub.take? with
    | some (msg, sub) =>
      (l.handler.step (.deliver msg)).map fun s' => { l with handler := s', sub := sub }
    | none => none
  | .act a => if a.delivers then none else (l.handler.step a).map (l.after a)

/-- An accepted kill keeps the job from running and ends it as killed. -/
def Obeys (l : Line) : Prop :=
  l.accepted = true →
    l.running = false ∧ (l.handler.Ended → lastStatus l.record = .ended .killed)

/-- The handler is writing, or has written, that the job was killed. -/
def Killed (l : Line) : Prop :=
  ∃ todo, l.handler.pc = .ending todo ∧ (∀ state, .writeStatus state ∈ todo → state = .killed) ∧
    (.writeStatus .killed ∈ todo ∨ lastStatus l.record = .ended .killed)

/-- The control messages that the handler has yet to read, in the order it reads them. -/
def unread (l : Line) : List Control := l.handler.ctrlCh ++ l.sub.inflight

def taken (l : Line) : Bool :=
  decide (l.handler.pc.stage = .ending) || l.handler.pc.compiling && l.handler.watch.killed

end Line

def Pc.past : Pc → Bool
  | .parked _ | .compile _ _ | .announceRunning _ | .session | .ending _ => true
  | _ => false

def Pc.mayFail : Pc → Bool
  | .announceQueued | .addOwned | .create .dial | .create .hello | .create .started
  | .startFlag _ => true
  | _ => false

/-- A kill is to be read, and a start before it only in a job that has a compile step. -/
def killLeads (compiles : Bool) : List Control → Bool
  | [] => false
  | .kill :: _ => true
  | .start :: rest => compiles && killLeads compiles rest
  | .stdinClose :: rest => killLeads compiles rest

/-- The handler has neither gone on to the run nor failed, and the flag it is still to read does
not start a job without a compile step. -/
structure Handler.Waits (s : Handler) : Prop where
  awaits : s.awaits = true
  live : s.pc.stage = .setup → s.cancelled = false
  sound : s.pc ≠ .create .containerRemove
  flag : s.job.spec.compile.isSome = false → s.pc.past = false → s.startFlag = false

structure Line.Pending (l : Line) : Prop where
  leads : killLeads l.handler.job.spec.compile.isSome l.unread = true
  waits : l.handler.Waits

/-- A kill that is published now is on its way. -/
def Line.Hears (l : Line) : Prop :=
  l.sub.active = true ∧ Line.Pending { l with sub := l.sub.publish .kill }

/-- No call of the setup fails, the context is not cancelled before the compile step, the warm-up
timer does not fire, nobody sets the flag that starts a job without a compile step, and `Compile`
does not return. -/
def Handler.Undisturbed (s : Handler) : Act → Prop
  | .call ok => ok = true ∨ s.pc.mayFail = true
  | .lost | .warmup => False
  | .cancel => s.pc.compiling = true
  | .requestStart => s.job.spec.compile.isSome = true ∨ s.pc.past = true
  | a => a.afterCompile = none

/-- Until a kill is taken it finds room in the channel, and nothing else ends the wait. -/
def Clear (l : Line) : LineAct → Prop
  | .arrive => l.taken = false → l.sub.inflight.head? = some .kill →
      l.handler.ctrlCh.length < ctrlCap ∨
        killLeads l.handler.job.spec.compile.isSome
          (l.handler.ctrlCh ++ l.sub.inflight.tail) = true
  | .act a => l.taken = false → l.handler.Undisturbed a
  | .request _ | .activate => True

/-- Some kill is heard, and the way is clear for it from then on. -/
def Heeded (job : Job) (as : List LineAct) : Prop :=
  ∃ before after l, as = before ++ .request .kill :: after ∧
    run Line.step (.start job) before = some l ∧ l.Hears ∧
    ∀ l', l.step (.request .kill) = some l' → EveryStep Line.step Clear l' after

/-- A kill is on its way, or has been taken. -/
def Line.Holds (l : Line) : Prop :=
  l.Pending ∨ (l.handler.pc.compiling = true ∧ l.handler.watch.killed = true) ∨ l.Killed

instance (s : Handler) : (a : Act) → Decidable (s.Undisturbed a)
  | .call _ => inferInstanceAs (Decidable (_ ∨ _))
  | .lost | .warmup => inferInstanceAs (Decidable False)
  | .cancel => inferInstanceAs (Decidable (_ = _))
  | .requestStart => inferInstanceAs (Decidable (_ ∨ _))
  | .contextDone | .receive | .watch | .expire | .compileExit _ | .compileFails | .touch _
  | .resume | .pump | .waitReturns | .wall | .idle | .cpu _ | .effect | .deliver _ | .poll
  | .spawn | .exit | .activity | .writeMarker | .tick _ =>
    inferInstanceAs (Decidable (Act.afterCompile _ = none))

instance (l : Line) : (la : LineAct) → Decidable (Clear l la)
  | .arrive => inferInstanceAs (Decidable (_ → _ → _ ∨ _))
  | .act a => inferInstanceAs (Decidable (_ → l.handler.Undisturbed a))
  | .request _ | .activate => inferInstanceAs (Decidable True)

variable {l l' : Line} {s s' : Handler} {a : Act} {la : LineAct} {job : Job}
  {inflight : List Control}

theorem emits_running (h : .stage .running ∈ s.emits a) :
    ∃ wallMs, s.pc = .announceRunning wallMs := by
  have hbegin : .stage .running ∉ s.beginEmits := by
    unfold Handler.beginEmits
    split <;> decide
  unfold Handler.emits at h
  split at h
  · exact absurd h (by decide)
  · split at h
    · exact absurd h hbegin
    · cases h
  · split at h
    · exact absurd h hbegin
    · cases h
  · next hpc => exact ⟨_, hpc⟩
  · next e todo _ =>
    cases e <;> simp [Effect.emits] at h
  · cases h

theorem Line.running_after (hr : l.running = false)
    (hpc : ∀ wallMs, l.handler.pc ≠ .announceRunning wallMs) : (l.after a s').running = false := by
  simp only [Line.running, decide_eq_false_iff_not] at hr ⊢
  intro hmem
  rcases List.mem_append.mp hmem with hmem | hmem
  · exact hr hmem
  · obtain ⟨wallMs, hpc'⟩ := emits_running hmem
    exact hpc wallMs hpc'

inductive Takes (inflight : List Control) (s' : Handler) : Prop where
  | keeps (hleads : killLeads s'.job.spec.compile.isSome (s'.ctrlCh ++ inflight) = true)
      (hwaits : s'.Waits) : Takes inflight s'
  | watches (hpc : s'.pc.compiling = true) (hk : s'.watch.killed = true) : Takes inflight s'
  | ends (t : Handler) (h : s' = t.finish .killed) : Takes inflight s'

theorem killLeads_append {compiles : Bool} {msgs : List Control}
    (h : killLeads compiles msgs = true) (more : List Control) :
    killLeads compiles (msgs ++ more) = true := by
  induction msgs with
  | nil => cases h
  | cons msg rest ih =>
    cases msg with
    | kill => rfl
    | start =>
      obtain ⟨hc, hrest⟩ := Bool.and_eq_true_iff.mp h
      exact Bool.and_eq_true_iff.mpr ⟨hc, ih hrest⟩
    | stdinClose => exact ih h

theorem killLeads_tail {compiles : Bool} {msg : Control} {msgs : List Control}
    (h : killLeads compiles (msg :: msgs) = true) (hmsg : msg ≠ .kill) :
    killLeads compiles msgs = true := by
  cases msg with
  | kill => exact absurd rfl hmsg
  | start => exact (Bool.and_eq_true_iff.mp h).2
  | stdinClose => exact h

/-- A message before the kill, or one behind it, does not hold the kill up by going. -/
theorem killLeads_drop {compiles : Bool} {msg : Control} {msgs more : List Control}
    (h : killLeads compiles (msgs ++ msg :: more) = true) (hmsg : msg ≠ .kill) :
    killLeads compiles (msgs ++ more) = true := by
  induction msgs with
  | nil => exact killLeads_tail h hmsg
  | cons msg' rest ih =>
    cases msg' with
    | kill => rfl
    | start =>
      obtain ⟨hc, hrest⟩ := Bool.and_eq_true_iff.mp h
      exact Bool.and_eq_true_iff.mpr ⟨hc, ih hrest⟩
    | stdinClose => exact ih h

theorem listens_of_ctrlSub (h : s.ctrlSub = true) : s.listens = true := by
  rw [Handler.listens, h, Bool.or_true]

theorem ctrlSub_of_listens {pc : Pc} (h : s.listens = true) (hpc : s.pc = pc)
    (hne : pc ≠ .subscribeControl) : s.ctrlSub = true := by
  rw [Handler.listens, hpc, decide_eq_false hne, Bool.false_or] at h
  exact h

theorem awaits_iff :
    s.awaits = true ↔ s.listens = true ∧ (s.pc.stage = .setup ∨ s.pc.compiling = true) := by
  simp [Handler.awaits]

theorem awaits_of_ctrlSub (hl : s.ctrlSub = true)
    (hpc : s.pc.stage = .setup ∨ s.pc.compiling = true) : s.awaits = true :=
  awaits_iff.mpr ⟨listens_of_ctrlSub hl, hpc⟩

theorem Handler.Waits.ctrlSub (hw : s.Waits) {pc : Pc} (hpc : s.pc = pc)
    (hne : pc ≠ .subscribeControl) : s.ctrlSub = true :=
  ctrlSub_of_listens (awaits_iff.mp hw.awaits).1 hpc hne

theorem Handler.Waits.of_eq (hw : s.Waits) (hpc : s'.pc = s.pc) (hsub : s'.ctrlSub = s.ctrlSub)
    (hjob : s'.job = s.job) (hcancelled : s'.cancelled = s.cancelled ∨ s.pc.compiling = true)
    (hflag : s'.startFlag = true → s.startFlag = true ∨ s.job.spec.compile.isSome = true ∨
      s.pc.past = true) : s'.Waits where
  awaits := by
    rw [Handler.awaits, Handler.listens, hpc, hsub]
    exact hw.awaits
  live hstage := by
    rw [hpc] at hstage
    rcases hcancelled with hc | hc
    · exact hc.trans (hw.live hstage)
    · cases hpc' : s.pc with
      | compile => rw [hpc'] at hstage; cases hstage
      | _ => rw [hpc'] at hc; cases hc
  sound := hpc ▸ hw.sound
  flag hcompile hpast := by
    rw [hjob] at hcompile
    rw [hpc] at hpast
    rw [← Bool.not_eq_true]
    intro hs'
    rcases hflag hs' with hf | hf | hf
    · rw [hw.flag hcompile hpast] at hf
      cases hf
    · rw [hcompile] at hf
      cases hf
    · rw [hpast] at hf
      cases hf

theorem Handler.Waits.next (hw : s.Waits) {pc : Pc} (hstage : s.pc.stage = .setup)
    (hpc : pc.stage = .setup) (hsound : pc ≠ .create .containerRemove)
    (hpast : s.pc.past = false ∨ pc.past = true) (hpc' : s'.pc = pc) (hsub : s'.ctrlSub = true)
    (hjob : s'.job = s.job) (hcancelled : s'.cancelled = s.cancelled)
    (hflag : s'.startFlag = s.startFlag) : s'.Waits where
  awaits := awaits_of_ctrlSub hsub (.inl (hpc' ▸ hpc))
  live _ := hcancelled.trans (hw.live hstage)
  sound := hpc' ▸ hsound
  flag hcompile hpast' := by
    rw [hjob] at hcompile
    rw [hpc'] at hpast'
    rw [hflag]
    exact hw.flag hcompile (hpast.resolve_right fun h => by rw [hpast'] at h; cases h)

theorem waits_of_compiling (hsub : s'.ctrlSub = true) (hpc : s'.pc.compiling = true) :
    s'.Waits := by
  have hne : ∀ pc, s'.pc = pc → pc.compiling = true := fun pc h => h ▸ hpc
  refine ⟨awaits_of_ctrlSub hsub (.inr hpc), fun h => ?_, fun h => ?_, fun _ h => ?_⟩
  · cases hpc' : s'.pc with
    | compile => rw [hpc'] at h; cases h
    | _ => cases hne _ hpc'
  · cases hne _ h
  · cases hpc' : s'.pc with
    | compile => rw [hpc'] at h; cases h
    | _ => cases hne _ hpc'

theorem begin_takes {t : Handler} (hcompile : t.job.spec.compile.isSome = true)
    (hleads : killLeads t.job.spec.compile.isSome (t.ctrlCh ++ inflight) = true)
    (hsub : t.ctrlSub = true) : Takes inflight t.begin := by
  have hbegin : t.begin.ctrlCh = t.ctrlCh ∧ t.begin.pc.compiling = true ∧
      t.begin.ctrlSub = true ∧ t.begin.job = t.job := by
    unfold Handler.begin
    rw [if_pos hcompile]
    exact ⟨rfl, rfl, hsub, rfl⟩
  obtain ⟨hctrl, hpc, hsub', hjob⟩ := hbegin
  exact .keeps (by rw [hctrl, hjob]; exact hleads) (waits_of_compiling hsub' hpc)

theorem create_takes {ok : Bool} {pc : CreatePc} (hpc : s.pc = .create pc) (hw : s.Waits)
    (hleads : killLeads s.job.spec.compile.isSome (s.ctrlCh ++ inflight) = true)
    (ho : s.Undisturbed (.call ok)) : Takes inflight (s.create ok pc) := by
  have hsub : s.ctrlSub = true := hw.ctrlSub hpc nofun
  have hstage : s.pc.stage = .setup := by rw [hpc]; rfl
  have hpast : s.pc.past = false := by rw [hpc]; rfl
  have hnext : ∀ (pc' : Pc) (t : Handler), t.pc = pc' → pc'.stage = .setup →
      pc' ≠ .create .containerRemove → t.job = s.job → t.ctrlCh = s.ctrlCh →
      t.ctrlSub = s.ctrlSub → t.cancelled = s.cancelled → t.startFlag = s.startFlag →
      Takes inflight t := fun pc' t hpc' hst hne hjob hctrl hs hc hf =>
    .keeps (by rw [hjob, hctrl]; exact hleads)
      (hw.next hstage hst hne (.inl hpast) hpc' (hs.trans hsub) hjob hc hf)
  cases ok with
  | true =>
    cases pc with
    | containerRemove => exact absurd hpc hw.sound
    | _ => exact hnext _ _ rfl rfl nofun rfl rfl rfl rfl rfl
  | false =>
    have hmay : s.pc.mayFail = true := ho.resolve_left nofun
    rw [hpc] at hmay
    cases pc with
    | dial | hello | started =>
      change Takes inflight s.zygoteFails
      rw [Handler.zygoteFails, if_neg (ne_true_of_eq_false (hw.live hstage))]
      exact hnext _ _ rfl rfl nofun rfl rfl rfl rfl rfl
    | containerCreate | copyFiles | attach | containerStart | containerRemove => cases hmay

theorem startFlag_tick {ms : ℕ} {executedMs : ℕ}
    (h : Handler.startFlag { s with clock := s.clock + ms, executedMs := executedMs } = true) :
    s.startFlag = true := by
  unfold Handler.startFlag at h ⊢
  dsimp only at h
  cases hset : s.startSetAt with
  | none => rw [hset] at h; cases h
  | some setAt =>
    rw [hset, Option.any_some, decide_eq_true_eq] at h
    rw [Option.any_some, decide_eq_true_eq]
    omega

theorem step_takes (h : s.step a = some s') (ha : a.delivers = false) (hw : s.Waits)
    (hleads : killLeads s.job.spec.compile.isSome (s.ctrlCh ++ inflight) = true)
    (ho : s.Undisturbed a) : Takes inflight s' := by
  obtain ⟨hl, hpc⟩ := awaits_iff.mp hw.awaits
  have hstays : ∀ t : Handler, t.pc = s.pc → t.ctrlSub = s.ctrlSub → t.job = s.job →
      t.cancelled = s.cancelled → t.startFlag = s.startFlag →
      killLeads s.job.spec.compile.isSome (t.ctrlCh ++ inflight) = true → Takes inflight t :=
    fun t hpc' hsub hjob hc hf hq =>
      .keeps (hjob ▸ hq) (hw.of_eq hpc' hsub hjob (.inl hc) fun h => .inl (hf ▸ h))
  have hnext : ∀ {pc : Pc} (pc' : Pc), s.pc = pc → pc ≠ .subscribeControl → pc.stage = .setup →
      pc'.stage = .setup → pc' ≠ .create .containerRemove → pc.past = false ∨ pc'.past = true →
      Takes inflight { s with pc := pc' } :=
    fun pc' hpc hne hst hst' hsound hpast => .keeps hleads
      (hw.next (hpc ▸ hst) hst' hsound (hpc ▸ hpast) rfl (hw.ctrlSub hpc hne) rfl rfl rfl)
  cases step_branch h with
  | readSpec hpc | subscribe hpc | announceQueued ok hpc | resolveBlobs hpc =>
    exact hnext _ hpc nofun rfl rfl nofun (.inl rfl)
  | addOwned ok hpc =>
    refine hnext _ hpc nofun rfl rfl ?_ (.inl rfl)
    split <;> nofun
  | parks ok deadline hpc => exact hnext _ hpc nofun rfl rfl nofun (.inr rfl)
  | subscribeControl hpc =>
    have hstage : s.pc.stage = .setup := by rw [hpc]; rfl
    have hpast : s.pc.past = false := by rw [hpc]; rfl
    have hwaits : Handler.Waits { s with ctrlSub := true, pc := .announceQueued } :=
      hw.next hstage (rfl : Pc.stage .announceQueued = _) nofun (.inl hpast) rfl rfl rfl rfl rfl
    exact .keeps hleads hwaits
  | readSpecFails hpc | subscribeFails hpc | subscribeControlFails hpc | resolveBlobsFails hpc =>
    have hmay : s.pc.mayFail = true := ho.resolve_left nofun
    rw [hpc] at hmay
    cases hmay
  | create ok pc hpc => exact create_takes hpc hw hleads ho
  | createLost | startLost | warmup => exact ho.elim
  | contextDone deadline hpc hc =>
    rw [hw.live (hpc ▸ rfl)] at hc
    cases hc
  | durableStart deadline hpc hstart =>
    refine begin_takes ?_ hleads (hw.ctrlSub hpc nofun)
    rw [← Bool.not_eq_false]
    intro hcompile
    rw [hw.flag hcompile (hpc ▸ rfl)] at hstart
    cases hstart
  | parkedStart deadline rest hpc hctrl =>
    rw [hctrl] at hleads
    obtain ⟨hcompile, hrest⟩ := Bool.and_eq_true_iff.mp hleads
    exact begin_takes hcompile hrest (hw.ctrlSub hpc nofun)
  | parkedKill deadline rest hpc hctrl => exact .ends _ rfl
  | parkedClose deadline rest hpc hctrl =>
    rw [hctrl] at hleads
    exact hstays _ rfl rfl rfl rfl rfl hleads
  | watchKill since pc rest hpc hctrl =>
    exact .watches (show s.pc.compiling = true by rw [hpc]; rfl) rfl
  | watchHold since pc msg rest hpc hctrl hmsg =>
    rw [hctrl] at hleads
    exact hstays _ rfl rfl rfl rfl rfl (killLeads_tail hleads hmsg)
  | compileSucceeds since hpc | touches since hpc =>
    exact .keeps hleads (waits_of_compiling (hw.ctrlSub hpc nofun) rfl)
  | compileExits since code hpc hsandbox hcode =>
    have hafter : (Act.compileExit code).afterCompile = none := ho
    rw [Act.afterCompile, if_neg hcode] at hafter
    cases hafter
  | compileFails since hpc | touchFails since hpc | resumes since wake hpc => cases ho
  | deliver => cases ha
  | announceRunning ok wallMs hpc' | effect e todo hpc' =>
    rw [hpc'] at hpc
    rcases hpc with hpc | hpc <;> cases hpc
  | pumpKill rest hpc' | pumpSkip msg rest hpc' | waitReturns hpc' | wall wall idle hpc'
  | idle wall idle hpc' | cpu wall idle usageMs hpc' | cpuPolls wall idle usageMs hpc'
  | activity wall idle hpc' =>
    rw [hpc'] at hpc
    rcases hpc with hpc | hpc <;> cases hpc
  | requestStart => exact .keeps hleads (hw.of_eq rfl rfl rfl (.inl rfl) fun _ => .inr ho)
  | cancel => exact .keeps hleads (hw.of_eq rfl rfl rfl (.inr ho) .inl)
  | tick ms =>
    exact .keeps hleads (hw.of_eq rfl rfl rfl (.inl rfl) fun h => .inl (startFlag_tick h))
  | expire | poll | spawn | exit | writeMarker => exact hstays _ rfl rfl rfl rfl rfl hleads

theorem compiling_takes (h : s.step a = some s') (hpc : s.pc.compiling = true)
    (hk : s.watch.killed = true) :
    s'.pc.compiling = true ∧ s'.watch.killed = true ∨ ∃ t : Handler, s' = t.finish .killed := by
  cases hpc' : s'.pc.compiling with
  | true =>
    rcases step_compile h hpc' with hc | hc
    · exact .inl ⟨rfl, hc.killed.mpr (.inl hk)⟩
    · rw [hc.idle] at hpc
      cases hpc
  | false =>
    obtain ⟨since, ok, -, rfl⟩ := step_compile_ends h hpc hpc'
    exact .inr (compiled_killed since ok hk)

theorem Line.Killed.of_finish {t : Handler} (h : l.handler = t.finish .killed) : l.Killed :=
  ⟨_, by rw [h]; rfl, fun _ => writeStatus_mem_teardown.mp, .inl (writeStatus_mem_teardown.mpr rfl)⟩

theorem Line.Killed.after (hk : l.Killed) (h : l.handler.step a = some s') :
    (l.after a s').Killed := by
  obtain ⟨todo, hpc, hall, hsome⟩ := hk
  rcases step_of_ending h (by rw [hpc]; rfl) with ⟨hpc', hemits⟩ | ⟨e, rest, -, hpc₁, hpc', hemits⟩
  · refine ⟨todo, hpc'.trans hpc, hall, hsome.imp_right fun hlast => ?_⟩
    change lastStatus (l.record ++ l.handler.emits a) = _
    rw [hemits, List.append_nil]
    exact hlast
  · obtain rfl : todo = e :: rest := Pc.ending.inj (hpc.symm.trans hpc₁)
    refine ⟨rest, hpc', fun state hmem => hall state (List.mem_cons_of_mem e hmem), ?_⟩
    change .writeStatus .killed ∈ rest ∨ lastStatus (l.record ++ l.handler.emits a) = _
    rw [hemits]
    rcases e.lastStatus_emits l.record with ⟨state, rfl, hlast⟩ | ⟨hne, hlast⟩
    · exact .inr (hlast.trans (congrArg Status.ended (hall state List.mem_cons_self)))
    · rw [hlast]
      exact hsome.imp_left fun hmem => (List.mem_cons.mp hmem).resolve_left (hne _).symm

theorem Line.Pending.not_taken (hp : l.Pending)
    (hk : ¬ (l.handler.pc.compiling = true ∧ l.handler.watch.killed = true)) :
    l.taken = false := by
  have hstage : l.handler.pc.stage ≠ .ending := by
    intro hend
    obtain ⟨todo, hpc⟩ := Pc.exists_eq_ending hend
    obtain ⟨-, h | h⟩ := awaits_iff.mp hp.waits.awaits <;> rw [hpc] at h <;> cases h
  rw [Line.taken, decide_eq_false hstage, Bool.false_or, ← Bool.not_eq_true, Bool.and_eq_true]
  exact hk

theorem Line.Holds.after (hh : l.Holds) (h : l.handler.step a = some s')
    (ha : a.delivers = false) (hg : Clear l (.act a)) : (l.after a s').Holds := by
  rcases hh with hp | ⟨hpc, hk⟩ | hk
  · by_cases hk : l.handler.pc.compiling = true ∧ l.handler.watch.killed = true
    · rcases compiling_takes h hk.1 hk.2 with hk' | ⟨t, ht⟩
      · exact .inr (.inl hk')
      · exact .inr (.inr (.of_finish ht))
    · cases step_takes h ha hp.waits hp.leads (hg (hp.not_taken hk)) with
      | keeps hleads hwaits =>
        have hsub : (l.after a s').sub = l.sub := if_pos (awaits_iff.mp hwaits.awaits).1
        exact .inl ⟨by rw [Line.unread, hsub]; exact hleads, hwaits⟩
      | watches hpc' hk' => exact .inr (.inl ⟨hpc', hk'⟩)
      | ends t ht => exact .inr (.inr (.of_finish ht))
  · rcases compiling_takes h hpc hk with hk' | ⟨t, ht⟩
    · exact .inr (.inl hk')
    · exact .inr (.inr (.of_finish ht))
  · exact .inr (.inr (hk.after h))

theorem Line.Holds.not_running (hh : l.Holds) (wallMs : ℤ) :
    l.handler.pc ≠ .announceRunning wallMs := by
  intro hpc
  rcases hh with hp | ⟨hpc', -⟩ | ⟨todo, hpc', -⟩
  · obtain ⟨-, hpc' | hpc'⟩ := awaits_iff.mp hp.waits.awaits <;> rw [hpc] at hpc' <;> cases hpc'
  · rw [hpc] at hpc'
    cases hpc'
  · rw [hpc] at hpc'
    cases hpc'

theorem killLeads_publish {compiles : Bool} {sub : Subscription Control} {msgs : List Control}
    (h : killLeads compiles (msgs ++ sub.inflight) = true) (msg : Control) :
    killLeads compiles (msgs ++ (sub.publish msg).inflight) = true := by
  unfold Subscription.publish
  split
  · rw [← List.append_assoc]
    exact killLeads_append h [msg]
  · exact h

theorem Line.Holds.request (hh : l.Holds) (msg : Control) {accepted : Bool} :
    Line.Holds { l with sub := l.sub.publish msg, accepted := accepted } := by
  rcases hh with hp | hk | hk
  · exact .inl ⟨killLeads_publish hp.leads msg, hp.waits⟩
  · exact .inr (.inl hk)
  · exact .inr (.inr hk)

theorem killLeads_deliver {compiles : Bool} {msg : Control} {msgs more : List Control}
    (h : killLeads compiles (msgs ++ msg :: more) = true)
    (hroom : msg = .kill → msgs.length < ctrlCap ∨ killLeads compiles (msgs ++ more) = true) :
    killLeads compiles (offer ctrlCap msgs msg ++ more) = true := by
  by_cases hlt : msgs.length < ctrlCap
  · rw [offer_of_lt hlt, List.append_assoc]
    exact h
  · rw [offer, if_neg hlt]
    by_cases hmsg : msg = .kill
    · exact (hroom hmsg).resolve_left hlt
    · exact killLeads_drop h hmsg

theorem arrive_holds {msg : Control} {sub : Subscription Control} (hh : l.Holds)
    (hin : l.sub.inflight = msg :: sub.inflight) (h : l.handler.step (.deliver msg) = some s')
    (hg : Clear l .arrive) : Line.Holds { l with handler := s', sub := sub } := by
  cases step_branch h with
  | deliver =>
    rcases hh with hp | hk | hk
    · by_cases hk : l.handler.pc.compiling = true ∧ l.handler.watch.killed = true
      · exact .inr (.inl hk)
      · have hleads := hp.leads
        have hroom := hg (hp.not_taken hk)
        rw [Line.unread, hin] at hleads
        rw [hin, List.head?_cons, List.tail_cons, Option.some.injEq] at hroom
        exact .inl ⟨killLeads_deliver hleads hroom, hp.waits.of_eq rfl rfl rfl (.inl rfl) .inl⟩
    · exact .inr (.inl hk)
    · exact .inr (.inr hk)

def Line.Minds (l : Line) : Prop := l.running = false ∧ l.Holds

theorem step_minds (hm : l.Minds) (hg : Clear l la) (h : l.step la = some l') : l'.Minds := by
  obtain ⟨hrun, hh⟩ := hm
  cases la with
  | request msg =>
    obtain ⟨-, h⟩ := Option.ite_none_right_eq_some.mp h
    obtain rfl := Option.some.inj h
    exact ⟨hrun, hh.request msg⟩
  | activate =>
    obtain ⟨-, h⟩ := Option.ite_none_right_eq_some.mp h
    obtain rfl := Option.some.inj h
    exact ⟨hrun, hh.imp_left fun hp => ⟨hp.leads, hp.waits⟩⟩
  | arrive =>
    simp only [Line.step] at h
    split at h
    · next msg sub htake =>
      obtain ⟨s', hs, rfl⟩ := Option.map_eq_some_iff.mp h
      obtain ⟨hin, -⟩ := Subscription.take?_eq_some.mp htake
      exact ⟨hrun, arrive_holds hh hin hs hg⟩
    · cases h
  | act a =>
    simp only [Line.step] at h
    split at h
    · cases h
    · next ha =>
      obtain ⟨s', hs, rfl⟩ := Option.map_eq_some_iff.mp h
      exact ⟨Line.running_after hrun hh.not_running, hh.after hs (Bool.not_eq_true _ ▸ ha) hg⟩

theorem Line.Minds.ended (hm : l.Minds) (hend : l.handler.Ended) :
    lastStatus l.record = .ended .killed := by
  obtain ⟨-, hp | ⟨hpc, -⟩ | ⟨todo, hpc, -, hlast⟩⟩ := hm
  · obtain ⟨-, hpc | hpc⟩ := awaits_iff.mp hp.waits.awaits <;> rw [hend] at hpc <;> cases hpc
  · rw [hend] at hpc
    cases hpc
  · obtain rfl : [] = todo := Pc.ending.inj (hend.symm.trans hpc)
    exact hlast.resolve_left List.not_mem_nil

theorem line_handler (h : l.step la = some l') :
    l'.handler = l.handler ∧ (∀ a, la ≠ .act a) ∨
      (∃ msg, la = .arrive ∧ l.handler.step (.deliver msg) = some l'.handler) ∨
        ∃ a, la = .act a ∧ a.delivers = false ∧ l.handler.step a = some l'.handler := by
  cases la with
  | request msg =>
    obtain ⟨-, h⟩ := Option.ite_none_right_eq_some.mp h
    obtain rfl := Option.some.inj h
    exact .inl ⟨rfl, nofun⟩
  | activate =>
    obtain ⟨-, h⟩ := Option.ite_none_right_eq_some.mp h
    obtain rfl := Option.some.inj h
    exact .inl ⟨rfl, nofun⟩
  | arrive =>
    simp only [Line.step] at h
    split at h
    · next msg sub htake =>
      obtain ⟨s', hs, rfl⟩ := Option.map_eq_some_iff.mp h
      exact .inr (.inl ⟨msg, rfl, hs⟩)
    · cases h
  | act a =>
    simp only [Line.step] at h
    split at h
    · cases h
    · next ha =>
      obtain ⟨s', hs, rfl⟩ := Option.map_eq_some_iff.mp h
      exact .inr (.inr ⟨a, rfl, Bool.not_eq_true _ ▸ ha, hs⟩)

def LineAct.advances : LineAct → Bool
  | .act a => a.advances
  | _ => false

def LineAct.arrives : LineAct → Bool
  | .arrive => true
  | _ => false

theorem line_advances_le {as : List LineAct} (hr : run Line.step (.start job) as = some l) :
    as.countP LineAct.advances ≤ 34 + 2 * as.countP LineAct.arrives := by
  have hrank : (Line.start job).handler.rank = 34 := rfl
  have hle := countP_le_of_measure (P := LineAct.advances) (Q := LineAct.arrives) (k := 2)
    (μ := fun l : Line => l.handler.rank) (fun l la l' ha h => ?_) (fun l la l' ha h => ?_) hr
  · omega
  · rcases line_handler h with ⟨-, hne⟩ | ⟨msg, rfl, -⟩ | ⟨a, rfl, -, hstep⟩
    · cases la with
      | act a => exact absurd rfl (hne a)
      | _ => cases ha
    · cases ha
    · exact (step_rank hstep).1 ha
  · rcases line_handler h with ⟨hsame, -⟩ | ⟨msg, rfl, hstep⟩ | ⟨a, rfl, hd, hstep⟩
    · exact hsame ▸ Nat.le_add_right _ _
    · exact (step_rank hstep).2
    · have hle := (step_rank hstep).2
      rw [hd] at hle
      exact Nat.le_trans hle (Nat.le_add_right _ _)

def Line.Announced (l : Line) : Prop :=
  l.running = true → l.handler.pc.stage = .session ∨ l.handler.pc.stage = .ending

theorem step_session_or_ending (h : s.step a = some s')
    (hs : s.pc.stage = .session ∨ s.pc.stage = .ending) :
    s'.pc.stage = .session ∨ s'.pc.stage = .ending := by
  obtain ⟨-, hmove⟩ := step_move h
  cases hmove with
  | stays hpc =>
    have hstage : s'.pc.stage = s.pc.stage := hpc.elim (congrArg Pc.stage) And.left
    exact hstage ▸ hs
  | begins hpc => rcases hs with hs | hs <;> rw [hs] at hpc <;> cases hpc
  | arms _ hpc' => exact .inl hpc'
  | ends todo _ hpc' | terminates _ _ hpc' | effect _ _ _ _ hpc' =>
    exact .inr (by rw [hpc']; rfl)

theorem line_announced (hl : l.Announced) (h : l.step la = some l') : l'.Announced := by
  cases la with
  | request msg =>
    obtain ⟨-, h⟩ := Option.ite_none_right_eq_some.mp h
    obtain rfl := Option.some.inj h
    exact hl
  | activate =>
    obtain ⟨-, h⟩ := Option.ite_none_right_eq_some.mp h
    obtain rfl := Option.some.inj h
    exact hl
  | arrive =>
    simp only [Line.step] at h
    split at h
    · obtain ⟨s', hs, rfl⟩ := Option.map_eq_some_iff.mp h
      exact fun hrun => step_session_or_ending hs (hl hrun)
    · cases h
  | act a =>
    obtain ⟨-, h⟩ := Option.ite_none_left_eq_some.mp h
    obtain ⟨s', hs, rfl⟩ := Option.map_eq_some_iff.mp h
    intro hrun
    by_cases hrun' : l.running = true
    · exact step_session_or_ending hs (hl hrun')
    · rw [Line.running, decide_eq_true_eq] at hrun hrun'
      have hemits := (List.mem_append.mp hrun).resolve_left hrun'
      obtain ⟨wallMs, hpc⟩ := emits_running hemits
      cases a with
      | call ok =>
        simp only [Handler.step, Handler.call, hpc, Option.some.injEq] at hs
        exact .inl (hs ▸ rfl)
      | _ => simp [Handler.emits, hpc] at hemits

def Line.Flagged (l : Line) : Prop :=
  .start ∈ l.sub.inflight → l.handler.startRequested = true

theorem line_flagged (hf : l.Flagged) (h : l.step la = some l') : l'.Flagged := by
  cases la with
  | request msg =>
    obtain ⟨hmsg, h⟩ := Option.ite_none_right_eq_some.mp h
    obtain rfl := Option.some.inj h
    exact fun hmem => (Subscription.mem_publish hmem).elim hf fun hm => hmsg hm.symm
  | activate =>
    obtain ⟨-, h⟩ := Option.ite_none_right_eq_some.mp h
    obtain rfl := Option.some.inj h
    exact hf
  | arrive =>
    simp only [Line.step] at h
    split at h
    · next msg sub htake =>
      obtain ⟨s', hs, rfl⟩ := Option.map_eq_some_iff.mp h
      obtain ⟨hin, -⟩ := Subscription.take?_eq_some.mp htake
      intro hmem
      exact (step_move hs).1.startRequested (hf (hin ▸ List.mem_cons_of_mem msg hmem))
    · cases h
  | act a =>
    obtain ⟨-, h⟩ := Option.ite_none_left_eq_some.mp h
    obtain ⟨s', hs, rfl⟩ := Option.map_eq_some_iff.mp h
    intro hmem
    apply (step_move hs).1.startRequested
    apply hf
    rw [Line.after] at hmem
    split at hmem
    · exact hmem
    · cases hmem

theorem line_reachable (hr : Reachable Line.step (.start job) l) : l.Announced ∧ l.Flagged :=
  hr.invariant (I := fun l => l.Announced ∧ l.Flagged)
    (fun _ _ _ hl h => ⟨line_announced hl.1 h, line_flagged hl.2 h⟩)
    ⟨nofun, nofun⟩

/-- What the job has still to go through at most, with the messages in flight. -/
def Line.rank (l : Line) : ℕ := l.handler.rank + 3 * l.sub.inflight.length

theorem rank_after_le (l : Line) (a : Act) (s' : Handler) :
    (l.after a s').rank ≤ s'.rank + 3 * l.sub.inflight.length := by
  have hlen : (l.after a s').sub.inflight.length ≤ l.sub.inflight.length := by
    rw [Line.after]
    split
    · exact Nat.le_refl _
    · exact Nat.zero_le _
  exact Nat.add_le_add_left (Nat.mul_le_mul_left 3 hlen) _

def Line.GoesOn (l : Line) : Prop :=
  ∃ as l', run Line.step l as = some l' ∧ EveryStep Line.step Clear l as ∧ l'.rank < l.rank

theorem goesOn_of_act (a : Act) (ha : a.advances = true) (hd : a.delivers = false)
    (hg : l.taken = false → l.handler.Undisturbed a) (h : (l.handler.step a).isSome = true) :
    l.GoesOn := by
  obtain ⟨s', hs⟩ := Option.isSome_iff_exists.mp h
  have hlt := (step_rank hs).1 ha
  have hle := rank_after_le l a s'
  have hstep : l.step (.act a) = some (l.after a s') := by simp [Line.step, hd, hs]
  refine ⟨[.act a], _, run_cons_of_step hstep, ⟨hg, fun _ _ => trivial⟩, ?_⟩
  exact Nat.lt_of_le_of_lt hle (Nat.add_lt_add_right hlt _)

theorem goesOn_of_later (hstep : l.step la = some l') (hg : Clear l la) (hle : l'.rank ≤ l.rank)
    (h : l'.GoesOn) : l.GoesOn := by
  obtain ⟨as, t, hr, hgs, hlt⟩ := h
  refine ⟨la :: as, t, (run_cons_of_step hstep).trans hr, ?_, Nat.lt_of_lt_of_le hlt hle⟩
  exact (everyStep_cons hstep).mpr ⟨hg, hgs⟩

theorem goesOn_of_inflight (hf : l.Flagged) (hsub : l.handler.ctrlSub = true)
    (hctrl : l.handler.ctrlCh = []) (hin : l.sub.inflight ≠ []) : l.GoesOn := by
  obtain ⟨msg, rest, hin⟩ := List.exists_cons_of_ne_nil hin
  have hstart : msg = .start → l.handler.startRequested = true := by
    rintro rfl
    exact hf (hin ▸ List.mem_cons_self)
  have hroom : l.handler.ctrlCh.length < ctrlCap := by
    rw [hctrl]
    decide
  obtain ⟨s', hs⟩ : ∃ s', l.handler.step (.deliver msg) = some s' := ⟨_, if_pos ⟨hsub, hstart⟩⟩
  have hstep : l.step .arrive =
      some { l with handler := s', sub := { l.sub with inflight := rest } } := by
    simp [Line.step, Subscription.take?, hin, hs]
  refine ⟨[.arrive], _, run_cons_of_step hstep, ⟨fun _ _ => .inl hroom, fun _ _ => trivial⟩, ?_⟩
  · have hle := (step_rank hs).2
    rw [Act.delivers, if_pos rfl] at hle
    simp only [Line.rank, hin, List.length_cons]
    omega

theorem Line.Pending.goesOn (hp : l.Pending) (hf : l.Flagged) : l.GoesOn := by
  obtain ⟨hl, hpc⟩ := awaits_iff.mp hp.waits.awaits
  have hread : l.handler.ctrlCh = [] → l.sub.inflight ≠ [] := fun hctrl hin => by
    have hleads := hp.leads
    rw [Line.unread, hctrl, hin] at hleads
    cases hleads
  cases hpc' : l.handler.pc with
  | readSpec | subscribe | subscribeControl | announceQueued | resolveBlobs | addOwned
  | create pc =>
    refine goesOn_of_act (.call true) rfl rfl (fun _ => .inl rfl) ?_
    simp [Handler.step, Handler.call, hpc']
  | startFlag deadline =>
    refine goesOn_of_act (.call false) rfl rfl (fun _ => .inr (hpc' ▸ rfl)) ?_
    simp [Handler.step, Handler.call, hpc']
  | parked deadline =>
    cases hctrl : l.handler.ctrlCh with
    | nil => exact goesOn_of_inflight hf (hp.waits.ctrlSub hpc' (by simp)) hctrl (hread hctrl)
    | cons msg rest =>
      refine goesOn_of_act .receive rfl rfl (fun _ => rfl) ?_
      cases msg <;> simp [Handler.step, Handler.park, hpc', hctrl]
  | compile since pc =>
    cases hctrl : l.handler.ctrlCh with
    | nil => exact goesOn_of_inflight hf (hp.waits.ctrlSub hpc' (by simp)) hctrl (hread hctrl)
    | cons msg rest =>
      refine goesOn_of_act .watch rfl rfl (fun _ => rfl) ?_
      cases msg <;> simp [Handler.step, Handler.compile, hpc', hctrl]
  | announceRunning | session | ending =>
    rw [hpc'] at hpc
    rcases hpc with hpc | hpc <;> cases hpc

/-- `Compile` returns once its context is done. -/
theorem goesOn_of_watched (hpc : l.handler.pc.compiling = true)
    (hk : l.handler.watch.killed = true) : l.GoesOn := by
  have htaken : l.taken = true := by rw [Line.taken, hpc, hk, Bool.and_self, Bool.or_true]
  have hg : ∀ a, l.taken = false → l.handler.Undisturbed a := fun a h => by
    rw [htaken] at h
    cases h
  cases hpc' : l.handler.pc with
  | compile since pc =>
    cases pc with
    | running =>
      refine goesOn_of_act .compileFails rfl rfl (hg _) ?_
      simp [Handler.step, Handler.compile, hpc']
    | touching =>
      refine goesOn_of_act (.touch false) rfl rfl (hg _) ?_
      simp [Handler.step, Handler.compile, hpc']
    | pausing wake =>
      obtain ⟨s', hs, hpc₁, hwatch, hwake, hrank⟩ : ∃ s', l.handler.step (.tick wake) = some s' ∧
          s'.pc = l.handler.pc ∧ s'.watch = l.handler.watch ∧ wake ≤ s'.clock ∧
            s'.rank = l.handler.rank :=
        ⟨_, rfl, rfl, rfl, Nat.le_add_left _ _, rank_congr rfl rfl rfl⟩
      have hstep : l.step (.act (.tick wake)) = some (l.after (.tick wake) s') := by
        simp [Line.step, Act.delivers, hs]
      refine goesOn_of_later hstep (hg _) ?_ (goesOn_of_act .resume rfl rfl (fun h => ?_) ?_)
      · have hle := rank_after_le l (.tick wake) s'
        rw [hrank] at hle
        exact hle
      · change (decide (s'.pc.stage = .ending) || s'.pc.compiling && s'.watch.killed) = false at h
        rw [hpc₁, hpc, hwatch, hk, Bool.and_self, Bool.or_true] at h
        cases h
      · simp [Line.after, Handler.step, Handler.compile, hpc₁, hpc', hwake]
  | _ => rw [hpc'] at hpc; cases hpc

theorem Line.Killed.goesOn (hk : l.Killed) (hend : ¬ l.handler.Ended) : l.GoesOn := by
  obtain ⟨todo, hpc, -⟩ := hk
  cases todo with
  | nil => exact absurd hpc hend
  | cons e todo =>
    refine goesOn_of_act .effect rfl rfl (fun h => ?_) ?_
    · rw [Line.taken, hpc] at h
      cases h
    · simp [Handler.step, Handler.effect, hpc]

theorem Line.Holds.goesOn (hh : l.Holds) (hf : l.Flagged) (hend : ¬ l.handler.Ended) :
    l.GoesOn := by
  rcases hh with hp | ⟨hpc, hk⟩ | hk
  · exact hp.goesOn hf
  · exact goesOn_of_watched hpc hk
  · exact hk.goesOn hend

theorem run_minds {as : List LineAct} (hm : l.Minds ∧ l.Flagged)
    (hg : EveryStep Line.step Clear l as) :
    Always Line.step (fun l => l.Minds ∧ l.Flagged) l as :=
  .of_guarded (fun _ _ _ hl hg h => ⟨step_minds hl.1 hg h, line_flagged hl.2 h⟩) hm hg

theorem exists_ended (hm : l.Minds ∧ l.Flagged) :
    ∃ as t, run Line.step l as = some t ∧ EveryStep Line.step Clear l as ∧
      t.handler.Ended ∧ t.running = false ∧ lastStatus t.record = .ended .killed := by
  have hnext : ∀ l : Line, l.Minds ∧ l.Flagged → l.handler.Ended ∨
      ∃ as l', run Line.step l as = some l' ∧ EveryStep Line.step Clear l as ∧
        (l'.Minds ∧ l'.Flagged) ∧ l'.rank < l.rank := fun l hl => by
    by_cases hend : l.handler.Ended
    · exact .inl hend
    · obtain ⟨as, l', hr, hg, hlt⟩ := hl.1.2.goesOn hl.2 hend
      exact .inr ⟨as, l', hr, hg, (run_minds hl hg).last hr, hlt⟩
  obtain ⟨as, t, hr, hg, ⟨hm', -⟩, hend⟩ := exists_run_of_measure Line.rank hnext hm
  exact ⟨as, t, hr, hg, hend, hm'.1, hm'.ended hend⟩

theorem step_accepted (h : l.step la = some l') (hacc : l.accepted = true) :
    l'.accepted = true := by
  cases la with
  | request msg =>
    obtain ⟨-, h⟩ := Option.ite_none_right_eq_some.mp h
    obtain rfl := Option.some.inj h
    exact Bool.or_eq_true_iff.mpr (.inl hacc)
  | activate =>
    obtain ⟨-, h⟩ := Option.ite_none_right_eq_some.mp h
    obtain rfl := Option.some.inj h
    exact hacc
  | arrive =>
    simp only [Line.step] at h
    split at h
    · obtain ⟨s', -, rfl⟩ := Option.map_eq_some_iff.mp h
      exact hacc
    · cases h
  | act a =>
    obtain ⟨-, h⟩ := Option.ite_none_left_eq_some.mp h
    obtain ⟨s', -, rfl⟩ := Option.map_eq_some_iff.mp h
    exact hacc

def Line.Over (l : Line) : Prop :=
  l.handler.pc.stage = .session ∨ l.handler.pc.stage = .ending

theorem step_over (h : l.step la = some l') (ho : l.Over) : l'.Over := by
  rcases line_handler h with ⟨hsame, -⟩ | ⟨msg, -, hstep⟩ | ⟨a, -, -, hstep⟩
  · rw [Line.Over, hsame]
    exact ho
  · exact step_session_or_ending hstep ho
  · exact step_session_or_ending hstep ho

theorem Line.Hears.not_over (hh : l.Hears) : ¬ l.Over := by
  obtain ⟨-, hpc⟩ := awaits_iff.mp hh.2.waits.awaits
  change l.handler.pc.stage = .setup ∨ l.handler.pc.compiling = true at hpc
  intro ho
  unfold Line.Over at ho
  cases hpc' : l.handler.pc with
  | session | ending => rw [hpc'] at hpc; rcases hpc with hpc | hpc <;> cases hpc
  | _ => rw [hpc'] at ho; rcases ho with ho | ho <;> cases ho

theorem obeys_of_not_over (hl : l.Announced) (ho : ¬ l.Over) : l.Obeys := by
  refine fun _ => ⟨?_, fun hend => absurd (.inr (by rw [hend]; rfl)) ho⟩
  rw [← Bool.not_eq_true]
  exact fun hrun => ho (hl hrun)

theorem Line.Minds.obeys (hm : l.Minds) : l.Obeys := fun _ => ⟨hm.1, hm.ended⟩

theorem Line.Hears.minds (hh : l.Hears) (hl : l.Announced) (h : l.step (.request .kill) = some l') :
    l'.Minds := by
  simp only [Line.step, reduceCtorEq, false_implies, if_true, Option.some.injEq] at h
  subst h
  refine ⟨?_, .inl ⟨hh.2.leads, hh.2.waits⟩⟩
  rw [← Bool.not_eq_true]
  exact fun hrun => hh.not_over (hl hrun)

theorem obeys_of_hears {before after : List LineAct} {l₀ : Line}
    (hr₀ : run Line.step (.start job) before = some l₀) (hh : l₀.Hears)
    (hg : ∀ l', l₀.step (.request .kill) = some l' → EveryStep Line.step Clear l' after)
    (hr : run Line.step (.start job) (before ++ .request .kill :: after) = some l) :
    Always Line.step Line.Obeys (.start job) (before ++ .request .kill :: after) ∧
      l.Minds ∧ l.Flagged := by
  have hbefore : Always Line.step Line.Obeys (.start job) before := by
    have hover : Always Line.step (fun l => ¬ l.Over) (.start job) before :=
      always_not_of_last (fun _ _ _ ho h => step_over h ho) hh.not_over hr₀
    have hannounced : Always Line.step Line.Announced (.start job) before :=
      .of_invariant (fun _ _ _ => line_announced) nofun
    exact (hover.and hannounced).mono fun _ h => obeys_of_not_over h.2 h.1
  rw [run_append, hr₀, Option.bind_some] at hr
  obtain ⟨l₁, h₁, hr₁⟩ := run_cons_eq_some.mp hr
  obtain ⟨hannounced, hflagged⟩ := line_reachable ⟨before, hr₀⟩
  have hafter := run_minds ⟨hh.minds hannounced h₁, line_flagged hflagged h₁⟩ (hg l₁ h₁)
  refine ⟨(always_append hr₀).mpr ⟨hbefore, hbefore.last hr₀, fun l' h' => ?_⟩, hafter.last hr₁⟩
  obtain rfl : l₁ = l' := Option.some.inj (h₁.symm.trans h')
  exact hafter.mono fun _ h => h.1.obeys

/-- The calls of a started job, with a kill that is accepted while the job is queued. -/
def killWhileQueued : List LineAct :=
  .request .kill ::
    (toCreate ++ dockerCreate ++ [Act.requestStart, .call true, .call true]).map .act

/-- The calls of a job up to the park, with a kill that is accepted while the job is queued. -/
def parkQueued : List LineAct :=
  [.request .kill, .act (.call true), .act (.call true), .activate] ++
    (List.replicate 4 (Act.call true) ++ dockerCreate ++ [Act.call false]).map .act

/-- A second kill is accepted while the job is parked. -/
def killWhileWaiting : List LineAct :=
  parkQueued ++ .request .kill :: [.arrive, .act .receive] ++ List.replicate 8 (.act .effect)

end CodeRunner.Worker
