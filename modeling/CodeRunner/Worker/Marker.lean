import CodeRunner.Docker.Workspace
import CodeRunner.Worker.Outcome

/-! # The compile marker

The hold script execs the run command once it finds the marker in the workspace. The marker is
written for a compile step that has exited with 0, but the workspace also holds the input files
and whatever the compile command leaves there. The script looks at any time, so the run waits
for the compile step exactly when the marker is never there too early.
-/

namespace CodeRunner.Worker

open Docker Transition

/-- `.compile_ready` in the workspace. -/
def compileRunMarker : Path := [".compile_ready".toList]

/-- A claimed job with what its files do to the marker. -/
def Job.ofSpec (spec : JobSpec) (eligible : Bool) (warmupMs : ℕ) : Job where
  spec := spec
  eligible := eligible
  marked := leavesFile spec.files compileRunMarker
  warmupMs := warmupMs

/-- The handler with what `Compile` and the hold script have done: `observed` is set when the
exec of the compile command is seen to have exited with 0, `execed` when the script execs the
run command. -/
structure Gate where
  handler : Handler
  observed : Bool
  execed : Bool

def Gate.start (job : Job) : Gate := ⟨.start job, false, false⟩

namespace Gate

def accepts (g : Gate) (a : Act) : Bool :=
  match g.handler.pc, a, buildFilesTar g.handler.job.spec.files with
  | .create .copyFiles, .call true, .error _ => false
  | _, _, _ => true

def step (g : Gate) (a : Act) : Option Gate :=
  if g.accepts a then
    (g.handler.step a).map fun s' =>
      ⟨s', g.observed || decide (a = .compileExit 0), g.execed || decide (a = .poll)⟩
  else none

/-- The run command has only been entered after the compile command was seen to succeed, and
after the start of the job was requested. -/
def Gated (g : Gate) : Prop :=
  g.execed = true → g.observed = true ∧ g.handler.startRequested = true

/-- Now and whenever the hold script looks next. -/
def Waits (g : Gate) : Prop := g.Gated ∧ ∀ g', g.step .poll = some g' → g'.Gated

end Gate

def Gate.StartsUnmarked (g : Gate) : Prop :=
  g.handler.job.spec.compile.isSome = true → g.handler.job.spec.run ≠ [] →
    leavesFile g.handler.job.spec.files compileRunMarker = false

instance (g : Gate) : Decidable g.StartsUnmarked := inferInstanceAs (Decidable (_ → _ → _))

/-- The container starts without the marker, and nothing writes it for a hold script before the
compile command was seen to succeed. -/
def MarksInTime (g : Gate) : Act → Prop
  | .call ok => ok = true → g.handler.pc = .create .containerStart → g.StartsUnmarked
  | .lost => g.handler.pc = .create .containerStart → g.StartsUnmarked
  | .writeMarker =>
      g.handler.program = .holding → g.handler.job.spec.run ≠ [] → g.observed = true
  | _ => True

instance (g : Gate) : (a : Act) → Decidable (MarksInTime g a)
  | .call _ => inferInstanceAs (Decidable (_ → _ → g.StartsUnmarked))
  | .lost => inferInstanceAs (Decidable (_ → g.StartsUnmarked))
  | .writeMarker => inferInstanceAs (Decidable (_ → _ → _))
  | .contextDone | .warmup | .receive | .watch | .expire | .compileExit _ | .compileFails
  | .touch _ | .resume | .pump | .waitReturns | .wall | .idle | .cpu _ | .effect | .requestStart
  | .deliver _ | .cancel | .poll | .spawn | .exit | .activity | .tick _ =>
    inferInstanceAs (Decidable True)

def Pc.early : Pc → Bool
  | .create .containerRemove | .startFlag _ | .parked _ | .compile _ _ | .announceRunning _
  | .session | .ending _ => false
  | _ => true

/-- Before the container starts there is no hold script and no compiler, and the marker is what
the files have left. -/
structure Placed (g : Gate) : Prop where
  marked : g.handler.job.marked = leavesFile g.handler.job.spec.files compileRunMarker
  program : g.handler.pc.early = true → g.handler.program ≠ .holding
  compiler : g.handler.pc.stage = .setup → g.handler.compiler = false
  marker : g.handler.pc = .create .attach ∨ g.handler.pc = .create .containerStart →
    g.handler.marker = g.handler.job.marked
  observed : g.observed = true → g.handler.startRequested = true
  unobserved : g.handler.pc.early = true → g.observed = false
  ordered : Ordered g.handler

variable {s s' : Handler} {a : Act} {g g' : Gate} {job : Job}

def Act.quiet (s : Handler) : Act → Prop
  | .call _ | .lost => s.pc ≠ .create .containerStart
  | .writeMarker => False
  | _ => True

structure Leaves (s s' : Handler) : Prop where
  job : s'.job = s.job
  program : s'.program = .holding → s.program = .holding
  marker : s'.marker = s.marker
  pc : s'.pc = s.pc ∨ s'.pc.early = false ∧ (s'.pc.stage = .setup → s.pc.stage = .setup)
  compiler : s'.pc.stage = .setup → s'.compiler = s.compiler

inductive Marks (s : Handler) : Act → Handler → Prop where
  | leaves (a : Act) (s' : Handler) (ha : a.quiet s) (h : Leaves s s') : Marks s a s'
  | opens (a : Act) (pc : Pc) (ctrlSub : Bool) (ha : a.quiet s) (hearly : s.pc.early = true)
      (hpc : pc ≠ .create .attach ∧ pc ≠ .create .containerStart) :
      Marks s a { s with pc := pc, ctrlSub := ctrlSub }
  | creates (ok : Bool) (pc : CreatePc) (hpc : s.pc = .create pc) (hearly : s.pc.early = true) :
      Marks s (.call ok) (s.create ok pc)
  | starts (hpc : s.pc = .create .containerStart) :
      Marks s .lost { s with pc := .create .containerRemove, program := s.command }
  | polls (hprogram : s.program = .holding) (hmarker : s.marker = true)
      (hrun : s.job.spec.run ≠ []) : Marks s .poll { s with program := .executing, marker := false }
  | writes (hcompiler : s.compiler = true) : Marks s .writeMarker { s with marker := true }

theorem leaves_of_pc (hpc : s'.pc = s.pc) (hjob : s'.job = s.job)
    (hprogram : s'.program = s.program) (hmarker : s'.marker = s.marker)
    (hcompiler : s'.compiler = s.compiler) : Leaves s s' :=
  ⟨hjob, fun h => hprogram ▸ h, hmarker, .inl hpc, fun _ => hcompiler⟩

theorem leaves_of_late (hpc : s'.pc.early = false) (hstage : s'.pc.stage ≠ .setup)
    (hjob : s'.job = s.job) (hprogram : s'.program = s.program) (hmarker : s'.marker = s.marker) :
    Leaves s s' :=
  ⟨hjob, fun h => hprogram ▸ h, hmarker, .inr ⟨hpc, fun h => absurd h hstage⟩,
    fun h => absurd h hstage⟩

theorem begin_leaves {t : Handler} (hjob : t.job = s.job) (hprogram : t.program = s.program)
    (hmarker : t.marker = s.marker) : Leaves s t.begin := by
  have hlate : t.begin.pc.early = false ∧ t.begin.pc.stage ≠ .setup := by
    rcases pc_begin t with h | ⟨wallMs, h⟩ <;> rw [h] <;> exact ⟨rfl, nofun⟩
  refine leaves_of_late hlate.1 hlate.2 ?_ ?_ ?_ <;> unfold Handler.begin <;> split <;> assumption

theorem compiled_late (s : Handler) (since : ℕ) (ok : Bool) :
    (s.compiled since ok).pc.early = false ∧ (s.compiled since ok).pc.stage ≠ .setup := by
  rcases pc_compiled s since ok with ⟨wallMs, h⟩ | ⟨state, h⟩ <;> rw [h] <;> exact ⟨rfl, nofun⟩

theorem compiled_leaves {since : ℕ} {ok : Bool} : Leaves s (s.compiled since ok) := by
  obtain ⟨hearly, hstage⟩ := compiled_late s since ok
  refine leaves_of_late hearly hstage ?_ ?_ ?_ <;> rw [compiled_eq]

theorem quiet_call {ok : Bool} {pc : Pc} (hpc : s.pc = pc) (h : pc ≠ .create .containerStart) :
    (Act.call ok).quiet s := by
  subst hpc
  exact h

theorem create_marks {ok : Bool} {pc : CreatePc} (hpc : s.pc = .create pc) :
    Marks s (.call ok) (s.create ok pc) := by
  cases pc with
  | containerRemove =>
    have hquiet : (Act.call ok).quiet s := quiet_call hpc nofun
    cases ok with
    | true => exact .leaves _ _ hquiet ⟨rfl, nofun, rfl, .inr ⟨rfl, nofun⟩, nofun⟩
    | false => exact .leaves _ _ hquiet (leaves_of_late rfl nofun rfl rfl rfl)
  | _ => exact .creates ok _ hpc (hpc ▸ rfl)

theorem step_marks (h : s.step a = some s') : Marks s a s' := by
  cases step_branch h with
  | readSpec hpc | subscribe hpc | announceQueued ok hpc | resolveBlobs hpc =>
    exact .opens _ _ s.ctrlSub (quiet_call hpc nofun) (hpc ▸ rfl) ⟨nofun, nofun⟩
  | subscribeControl hpc => exact .opens _ _ true (quiet_call hpc nofun) (hpc ▸ rfl) ⟨nofun, nofun⟩
  | addOwned ok hpc =>
    refine .opens _ _ s.ctrlSub (quiet_call hpc nofun) (hpc ▸ rfl) ?_
    split <;> exact ⟨nofun, nofun⟩
  | readSpecFails hpc | subscribeFails hpc | subscribeControlFails hpc | resolveBlobsFails hpc
  | announceRunning ok wallMs hpc =>
    exact .leaves _ _ (quiet_call hpc nofun) (leaves_of_late rfl nofun rfl rfl rfl)
  | create ok pc hpc => exact create_marks hpc
  | createLost hpc =>
    have hquiet : Act.lost.quiet s := fun hpc' => by cases hpc.symm.trans hpc'
    exact .leaves _ _ hquiet (leaves_of_late rfl nofun rfl rfl rfl)
  | startLost hpc => exact .starts hpc
  | poll hp hm hrun => exact .polls hp hm hrun
  | writeMarker hc => exact .writes hc
  | durableStart deadline hpc => exact .leaves _ _ (quiet_call hpc nofun) (begin_leaves rfl rfl rfl)
  | parkedStart => exact .leaves _ _ trivial (begin_leaves rfl rfl rfl)
  | compileExits | compileFails | touchFails | resumes =>
    exact .leaves _ _ trivial compiled_leaves
  | parks ok deadline hpc =>
    exact .leaves _ _ (quiet_call hpc nofun)
      ⟨rfl, id, rfl, .inr ⟨rfl, fun _ => hpc ▸ rfl⟩, fun _ => rfl⟩
  | pumpKill | spawn | exit =>
    exact .leaves _ _ trivial ⟨rfl, nofun, rfl, .inl rfl, fun _ => rfl⟩
  | effect e todo hpc =>
    refine .leaves _ _ trivial ⟨?_, ?_, ?_, .inr ⟨rfl, nofun⟩, nofun⟩ <;> cases e <;>
      first | rfl | exact id | exact nofun
  | contextDone | warmup | parkedKill | compileSucceeds | touches | waitReturns | wall | idle
  | cpu => exact .leaves _ _ trivial (leaves_of_late rfl nofun rfl rfl rfl)
  | parkedClose | watchKill | watchHold | expire | pumpSkip | cpuPolls | activity | requestStart
  | deliver | cancel | tick => exact .leaves _ _ trivial (leaves_of_pc rfl rfl rfl rfl rfl)

theorem Pc.early_stage {pc : Pc} (h : pc.early = true) : pc.stage = .setup := by
  cases pc with
  | compile | announceRunning | session | ending => cases h
  | _ => rfl

theorem gate_cases (h : g.step a = some g') :
    g.accepts a = true ∧ ∃ s', g.handler.step a = some s' ∧
      g' = ⟨s', g.observed || decide (a = .compileExit 0), g.execed || decide (a = .poll)⟩ := by
  obtain ⟨hacc, h⟩ := Option.ite_none_right_eq_some.mp h
  obtain ⟨s', hs, rfl⟩ := Option.map_eq_some_iff.mp h
  exact ⟨hacc, s', hs, rfl⟩

theorem create_job (ok : Bool) (pc : CreatePc) : (s.create ok pc).job = s.job := by
  rw [create_eq]

theorem create_compiler (ok : Bool) (pc : CreatePc) :
    (s.create ok pc).compiler = s.compiler := by
  rw [create_eq]

theorem command_holding : s.command = .holding ↔ s.job.spec.compile.isSome = true := by
  unfold Handler.command
  split
  · next hc => exact iff_of_true rfl hc
  · next hc => exact iff_of_false nofun hc

theorem create_program {ok : Bool} {pc : CreatePc} (h : (s.create ok pc).program = .holding) :
    s.program = .holding ∨ ok = true ∧ pc = .containerStart ∧
      s.job.spec.compile.isSome = true := by
  cases ok with
  | false =>
    cases pc with
    | dial | hello | started =>
      change s.zygoteFails.program = .holding at h
      rw [zygoteFails_program] at h
      cases h
    | containerCreate => cases h
    | copyFiles | attach | containerStart | containerRemove => exact .inl h
  | true =>
    cases pc with
    | hello | containerRemove => cases h
    | dial | started | containerCreate | copyFiles | attach => exact .inl h
    | containerStart =>
      exact .inr ⟨rfl, rfl, command_holding.mp h⟩

theorem create_marker {ok : Bool} {pc : CreatePc}
    (h : (s.create ok pc).pc = .create .attach ∨ (s.create ok pc).pc = .create .containerStart) :
    pc = .copyFiles ∧ (s.create ok pc).marker = s.job.marked ∨
      pc = .attach ∧ (s.create ok pc).marker = s.marker := by
  have hzygote : s.zygoteFails.pc ≠ .create .attach ∧
      s.zygoteFails.pc ≠ .create .containerStart := by
    rcases pc_zygoteFails s with h | h <;> rw [h] <;> exact ⟨nofun, nofun⟩
  cases ok with
  | false =>
    cases pc with
    | dial | hello | started => exact absurd h (not_or.mpr hzygote)
    | containerCreate | copyFiles | attach | containerStart | containerRemove =>
      rcases h with h | h <;> cases h
  | true =>
    cases pc with
    | copyFiles => exact .inl ⟨rfl, rfl⟩
    | attach => exact .inr ⟨rfl, rfl⟩
    | dial | hello | started | containerCreate | containerStart | containerRemove =>
      rcases h with h | h <;> cases h

theorem create_early {ok : Bool} {pc : CreatePc} (h : (s.create ok pc).pc.early = true) :
    ¬ (ok = true ∧ pc = .containerStart) := by
  rintro ⟨rfl, rfl⟩
  cases h

theorem step_job (h : s.step a = some s') : s'.job = s.job := by
  cases step_marks h with
  | leaves _ _ _ hl => exact hl.job
  | opens | starts | polls | writes => rfl
  | creates ok pc => exact create_job ok pc

theorem step_early (h : s.step a = some s') (he : s'.pc.early = true) :
    s.pc.early = true ∧ a ≠ .compileExit 0 := by
  constructor
  · cases step_marks h with
    | leaves _ _ _ hl =>
      rcases hl.pc with hpc | ⟨hpc, -⟩
      · exact hpc ▸ he
      · rw [hpc] at he
        cases he
    | opens _ _ _ _ hearly => exact hearly
    | creates ok pc hpc hearly => exact hearly
    | starts => cases he
    | polls | writes => exact he
  · rintro rfl
    cases step_branch h with
    | compileSucceeds => cases he
    | compileExits _ _ _ _ hcode => exact hcode rfl

theorem step_placed (hp : Placed g) (h : g.step a = some g') : Placed g' := by
  obtain ⟨-, s', hs, rfl⟩ := gate_cases h
  have hordered : Ordered s' := step_ordered hp.ordered hs
  have hobserved : (g.observed || decide (a = .compileExit 0)) = true →
      s'.startRequested = true := by
    rw [Bool.or_eq_true, decide_eq_true_eq]
    rintro (hobs | rfl)
    · exact (step_move hs).1.startRequested (hp.observed hobs)
    · cases step_branch hs with
      | compileSucceeds since hpc => exact hp.ordered.started (hpc ▸ rfl)
      | compileExits since _ _ _ hcode => exact absurd rfl hcode
  have hjob : s'.job = g.handler.job := step_job hs
  have hmarked : s'.job.marked = leavesFile s'.job.spec.files compileRunMarker :=
    hjob ▸ hp.marked
  have hunobserved : s'.pc.early = true →
      (g.observed || decide (a = .compileExit 0)) = false := fun he => by
    obtain ⟨hearly, ha⟩ := step_early hs he
    rw [hp.unobserved hearly, decide_eq_false ha, Bool.or_false]
  cases step_marks hs with
  | leaves _ _ _ hl =>
    refine ⟨hmarked, fun he hpr => ?_, fun hst => ?_, fun hpc => ?_, hobserved, hunobserved,
      hordered⟩
    · rcases hl.pc with hpc | ⟨hpc, -⟩
      · exact hp.program (hpc ▸ he) (hl.program hpr)
      · change s'.pc.early = true at he
        rw [hpc] at he
        cases he
    · refine (hl.compiler hst).trans (hp.compiler ?_)
      exact hl.pc.elim (fun hpc => hpc ▸ hst) fun hpc => hpc.2 hst
    · rcases hl.pc with hpc' | ⟨hpc', -⟩
      · exact hl.marker.trans ((hp.marker (hpc' ▸ hpc)).trans (congrArg Job.marked hjob.symm))
      · change s'.pc = _ ∨ s'.pc = _ at hpc
        rcases hpc with hpc | hpc <;> rw [hpc] at hpc' <;> cases hpc'
  | opens _ pc ctrlSub _ hearly hpc =>
    exact ⟨hmarked, fun _ => hp.program hearly, fun _ => hp.compiler (Pc.early_stage hearly),
      fun h => absurd h (not_or.mpr hpc), hobserved, hunobserved, hordered⟩
  | starts hpc =>
    refine ⟨hmarked, nofun, fun _ => hp.compiler (hpc ▸ rfl), fun h => ?_, hobserved, nofun,
      hordered⟩
    rcases h with h | h <;> cases h
  | creates ok pc hpc hearly =>
    refine ⟨hmarked, fun he hpr => ?_, fun _ => ?_, fun h => ?_, hobserved, hunobserved, hordered⟩
    · rcases create_program hpr with hpr | ⟨hok, hstart, -⟩
      · exact hp.program hearly hpr
      · exact create_early he ⟨hok, hstart⟩
    · exact (create_compiler ok pc).trans (hp.compiler (Pc.early_stage hearly))
    · rw [hjob]
      rcases create_marker h with ⟨-, hm⟩ | ⟨rfl, hm⟩
      · exact hm
      · exact hm.trans (hp.marker (.inl hpc))
  | polls hprogram =>
    refine ⟨hmarked, fun _ => nofun, hp.compiler, fun h => ?_, hobserved, hunobserved, hordered⟩
    exact absurd hprogram (hp.program (by rcases h with h | h <;> rw [h] <;> rfl))
  | writes hcompiler =>
    refine ⟨hmarked, hp.program, hp.compiler, fun h => ?_, hobserved, hunobserved, hordered⟩
    have hnone : g.handler.compiler = false :=
      hp.compiler (by rcases h with h | h <;> rw [h] <;> rfl)
    rw [hnone] at hcompiler
    cases hcompiler

def Handler.finds (s : Handler) : Prop :=
  s.program = .holding ∧ s.marker = true ∧ s.job.spec.run ≠ []

theorem gated_iff (hp : Placed g) : g.Gated ↔ (g.execed = true → g.observed = true) :=
  ⟨fun h hex => (h hex).1, fun h hex => ⟨h hex, hp.observed (h hex)⟩⟩

theorem poll_enabled (h : g.handler.finds) :
    g.step .poll =
      some ⟨{ g.handler with program := .executing, marker := false }, g.observed, true⟩ := by
  obtain ⟨hprogram, hmarker, hrun⟩ := h
  have haccepts : g.accepts .poll = true := by
    unfold Gate.accepts
    split
    · next ha _ => cases ha
    · rfl
  have hstep : g.handler.step .poll =
      some { g.handler with program := .executing, marker := false } :=
    if_pos ⟨hprogram, hmarker, hrun⟩
  rw [Gate.step, if_pos haccepts, hstep]
  simp

theorem waits_iff (hp : Placed g) :
    g.Waits ↔ (g.execed = true → g.observed = true) ∧ (g.handler.finds → g.observed = true) := by
  rw [Gate.Waits, gated_iff hp]
  refine and_congr_right fun _ => ?_
  constructor
  · intro h hfinds
    exact (h _ (poll_enabled hfinds) rfl).1
  · intro h g' hg'
    obtain ⟨-, s', hs, rfl⟩ := gate_cases hg'
    have hplaced := step_placed hp hg'
    refine (gated_iff hplaced).mpr fun _ => ?_
    cases step_branch hs with
    | poll hprogram hmarker hrun => simp [h ⟨hprogram, hmarker, hrun⟩]

theorem marksInTime_of_quiet (ha : a.quiet g.handler) : MarksInTime g a := by
  cases a with
  | call ok => exact fun _ hpc => absurd hpc ha
  | lost => exact fun hpc => absurd hpc ha
  | writeMarker => exact ha.elim
  | _ => trivial

theorem finds_of_leaves (hl : Leaves s s') (h : s'.finds) : s.finds :=
  ⟨hl.program h.1, hl.marker ▸ h.2.1, hl.job ▸ h.2.2⟩

/-- The hold script of a container that has just been started finds what the files have left. -/
theorem finds_started_iff (hp : Placed g) (hpc : g.handler.pc = .create .containerStart)
    (hjob : s'.job = g.handler.job) (hprogram : s'.program = g.handler.command)
    (hmarker : s'.marker = g.handler.marker) : ¬ s'.finds ↔ g.StartsUnmarked := by
  have hleft : s'.marker = leavesFile g.handler.job.spec.files compileRunMarker := by
    rw [hmarker, hp.marker (.inr hpc), hp.marked]
  rw [Handler.finds, hprogram, command_holding, hleft, hjob, Gate.StartsUnmarked]
  constructor
  · intro h hcompile hrun
    rw [← Bool.not_eq_true]
    exact fun hm => h ⟨hcompile, hm, hrun⟩
  · rintro h ⟨hcompile, hm, hrun⟩
    rw [h hcompile hrun] at hm
    cases hm

theorem step_waits_iff (hp : Placed g) (hp' : Placed g') (hw : g.Waits) (h : g.step a = some g') :
    g'.Waits ↔ MarksInTime g a := by
  obtain ⟨-, s', hs, rfl⟩ := gate_cases h
  obtain ⟨hexec, hfind⟩ := (waits_iff hp).mp hw
  rw [waits_iff hp']
  -- what was observed stays on record
  have hkeeps : g.observed = true → (g.observed || decide (a = .compileExit 0)) = true :=
    fun hobs => by rw [hobs, Bool.true_or]
  have hexec' : (g.execed || decide (a = .poll)) = true →
      (g.observed || decide (a = .compileExit 0)) = true := by
    rw [Bool.or_eq_true, decide_eq_true_eq]
    rintro (hex | rfl)
    · exact hkeeps (hexec hex)
    · cases step_branch hs with
      | poll hprogram hmarker hrun => exact hkeeps (hfind ⟨hprogram, hmarker, hrun⟩)
  rw [and_iff_right hexec']
  cases step_marks hs with
  | leaves _ _ ha hl =>
    exact iff_of_true (fun hf => hkeeps (hfind (finds_of_leaves hl hf))) (marksInTime_of_quiet ha)
  | opens _ pc ctrlSub ha hearly =>
    refine iff_of_true (fun hf => ?_) (marksInTime_of_quiet ha)
    exact absurd hf.1 (hp.program hearly)
  | polls => exact iff_of_true (fun hf => by cases hf.1) trivial
  | writes =>
    change (Handler.finds { g.handler with marker := true } → _) ↔
      (g.handler.program = .holding → g.handler.job.spec.run ≠ [] → g.observed = true)
    rw [show decide (Act.writeMarker = .compileExit 0) = false from rfl, Bool.or_false]
    exact ⟨fun h hprogram hrun => h ⟨hprogram, rfl, hrun⟩, fun h hf => h hf.1 hf.2.2⟩
  | starts hpc =>
    have hobs : (g.observed || decide (Act.lost = .compileExit 0)) = false := by
      rw [hp.unobserved (hpc ▸ rfl)]
      rfl
    rw [hobs]
    have hfinds : ¬ Handler.finds { g.handler with
        pc := .create .containerRemove, program := g.handler.command } ↔ g.StartsUnmarked :=
      finds_started_iff hp hpc rfl rfl rfl
    refine Iff.trans ?_ (hfinds.trans ⟨fun h _ => h, fun h => h hpc⟩)
    exact imp_congr_right fun _ => iff_of_false Bool.false_ne_true id
  | creates ok pc hpc hearly =>
    have hobs : (g.observed || decide (Act.call ok = .compileExit 0)) = false := by
      rw [hp.unobserved hearly]
      rfl
    rw [hobs]
    by_cases hstart : ok = true ∧ pc = .containerStart
    · obtain ⟨rfl, rfl⟩ := hstart
      refine Iff.trans ?_ (Iff.trans (finds_started_iff hp hpc (create_job true .containerStart)
        rfl rfl) ⟨fun h _ _ => h, fun h => h rfl hpc⟩)
      exact imp_congr_right fun _ => iff_of_false Bool.false_ne_true id
    · refine iff_of_true (fun hf => ?_) fun hok hpc' => ?_
      · rcases create_program hf.1 with hpr | ⟨hok, hcs, -⟩
        · exact absurd hpr (hp.program hearly)
        · exact absurd ⟨hok, hcs⟩ hstart
      · exact absurd ⟨hok, Pc.create.inj (hpc.symm.trans hpc')⟩ hstart

theorem start_placed (spec : JobSpec) (eligible : Bool) (warmupMs : ℕ) :
    Placed (.start (.ofSpec spec eligible warmupMs)) :=
  ⟨rfl, fun _ => nofun, fun _ => rfl, fun h => h.elim nofun nofun, nofun, fun _ => rfl,
    start_ordered _⟩

/-- The hold script waits for a compile command that succeeds throughout a run exactly when the
container starts without the marker and nothing marks it earlier. -/
theorem waits_iff_marksInTime {spec : JobSpec} {eligible : Bool} {warmupMs : ℕ} {as : List Act}
    (hr : run Gate.step (.start (.ofSpec spec eligible warmupMs)) as = some g) :
    Always Gate.step Gate.Waits (.start (.ofSpec spec eligible warmupMs)) as ↔
      EveryStep Gate.step MarksInTime (.start (.ofSpec spec eligible warmupMs)) as := by
  have hplaced := start_placed spec eligible warmupMs
  refine always_iff_everyStep_of (fun _ _ _ hp _ h => step_placed hp h)
    (fun _ _ _ hp hp' hw _ h => step_waits_iff hp hp' hw h) hplaced ?_ EveryStep.trivial hr
  exact (waits_iff hplaced).mpr ⟨nofun, fun h => by cases h.1⟩

def file (name : String) : FileInput where
  content := some ""
  encoding := "utf8"
  name := name
  ref := none

def compiledSpec (names : List String) : JobSpec :=
  { compiledScript.spec with files := names.map file }

def lookWhileParked : List Act := toCreate ++ dockerCreate ++ [Act.call false, .poll]

theorem not_always_waits :
    ¬ ∀ (spec : JobSpec) (eligible : Bool) (warmupMs : ℕ) (g : Gate) (as : List Act),
      run Gate.step (.start (.ofSpec spec eligible warmupMs)) as = some g →
        Always Gate.step Gate.Waits (.start (.ofSpec spec eligible warmupMs)) as := by
  intro hall
  obtain ⟨g, hr, hexec, hobs⟩ : ∃ g, run Gate.step
      (.start (.ofSpec (compiledSpec ["main.c", "./.compile_ready"]) false 30000))
        lookWhileParked = some g ∧ g.execed = true ∧ g.observed = false :=
    ⟨_, rfl, rfl, rfl⟩
  have hgated := ((hall _ _ _ g _ hr).last hr).1 hexec
  rw [hobs] at hgated
  cases hgated.1

/-- The script finds the marker that was written for the compile step. -/
def lookAfterCompile : List Act :=
  toCreate ++ dockerCreate ++
    [.requestStart, .call true, .compileExit 0, .writeMarker, .poll, .touch true]

theorem lookAfterCompile_waits :
    ∃ g, run Gate.step (.start (.ofSpec (compiledSpec ["main.c"]) false 30000))
        lookAfterCompile = some g ∧ g.execed = true ∧
      Always Gate.step Gate.Waits (.start (.ofSpec (compiledSpec ["main.c"]) false 30000))
        lookAfterCompile := by
  obtain ⟨g, hr, hexec⟩ : ∃ g, run Gate.step
      (.start (.ofSpec (compiledSpec ["main.c"]) false 30000)) lookAfterCompile = some g ∧
        g.execed = true := ⟨_, rfl, rfl⟩
  exact ⟨g, hr, hexec, (waits_iff_marksInTime hr).mpr (by decide)⟩

end CodeRunner.Worker
