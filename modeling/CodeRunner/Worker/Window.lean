import CodeRunner.Worker.Moves

/-! # The supervised window

The session arms its clocks when the handler has seen the start and has compiled. The
submitted program is inside that window in every state of a run exactly when nothing before
the session enters it: neither the container's own command, nor the hold script, nor the
forked child.
-/

namespace CodeRunner.Worker

open Transition

/-- While the program executes, its start has been requested and its clocks are armed. -/
def InWindow (s : Handler) : Prop :=
  s.program = .executing → s.startRequested = true ∧ s.clocks.isArmed = true

instance (s : Handler) : Decidable (InWindow s) := inferInstanceAs (Decidable (_ → _))

/-- The container only starts with the hold script for its command, and the script and the
forked child reach the program after `RunInteractive` has armed the clocks. -/
def LaunchesArmed (s : Handler) : Act → Prop
  | .call ok =>
    ok = true → s.pc = .create .containerStart → s.job.spec.compile.isSome = true
  | .lost => s.pc = .create .containerStart → s.job.spec.compile.isSome = true
  | .poll | .spawn => s.clocks.isArmed = true
  | _ => True

instance (s : Handler) : (a : Act) → Decidable (LaunchesArmed s a)
  | .call _ => inferInstanceAs (Decidable (_ → _ → _))
  | .lost => inferInstanceAs (Decidable (_ → _))
  | .poll | .spawn => inferInstanceAs (Decidable (_ = _))
  | .contextDone | .warmup | .receive | .watch | .expire | .compileExit _ | .compileFails
  | .touch _ | .resume | .pump | .waitReturns | .wall | .idle | .cpu _ | .effect | .requestStart
  | .deliver _ | .cancel | .exit | .activity | .writeMarker | .tick _ =>
    inferInstanceAs (Decidable True)

def KillsFirst (todo : List Effect) : Prop :=
  ∀ pre post, todo = pre ++ .stopClocks :: post → .kill ∈ pre

structure Ordered (s : Handler) : Prop where
  unarmed : s.pc.stage = .setup ∨ s.pc.stage = .started → s.clocks = .unarmed
  started : s.pc.stage = .started → s.startRequested = true
  armed : s.clocks.isArmed = true → s.startRequested = true
  message : .start ∈ s.ctrlCh → s.startRequested = true
  killed : KillsFirst s.pc.todo ∨ s.program = .ended

variable {s s' t : Handler} {a : Act} {as : List Act} {job : Job}

theorem KillsFirst.of_notMem {todo : List Effect} (h : .stopClocks ∉ todo) : KillsFirst todo := by
  rintro pre post rfl
  exact absurd (List.mem_append_right pre List.mem_cons_self) h

theorem KillsFirst.tail {e : Effect} {todo : List Effect} (h : KillsFirst (e :: todo))
    (he : e ≠ .kill) : KillsFirst todo := by
  rintro pre post rfl
  rcases List.mem_cons.mp (h (e :: pre) post rfl) with hk | hk
  · exact absurd hk.symm he
  · exact hk

theorem killsFirst_terminate (job : Job) (state : JobState) :
    KillsFirst (terminate ++ teardown job state) := by
  intro pre post h
  rcases pre with _ | ⟨e, _ | ⟨e', pre⟩⟩
  · cases h
  · cases h
  · have hk : e' = .kill := (List.cons.inj (List.cons.inj h).2).1.symm
    exact hk ▸ List.mem_cons_of_mem _ List.mem_cons_self

theorem killsFirst_of_stage {pc : Pc} (h : pc.stage ≠ .ending) : KillsFirst pc.todo :=
  .of_notMem (Pc.todo_eq_nil h ▸ List.not_mem_nil)

theorem step_ordered (hs : Ordered s) (h : s.step a = some s') : Ordered s' := by
  obtain ⟨hframe, hmove⟩ := step_move h
  have hmessage : .start ∈ s'.ctrlCh → s'.startRequested = true := fun hm => by
    rcases hframe.message hm with h | h | h
    · exact hframe.startRequested (hs.message h)
    · exact h
    · exact hframe.startRequested (hs.started h)
  have hending : ∀ todo, s'.pc = .ending todo →
      (s'.clocks.isArmed = true → s.clocks.isArmed = true) →
      (KillsFirst todo ∨ s'.program = .ended) → Ordered s' := fun todo hpc' harmed hkilled => by
    refine ⟨fun h => ?_, fun h => ?_, fun ha => ?_, hmessage, hpc' ▸ hkilled⟩
    · rw [hpc'] at h
      rcases h with h | h <;> cases h
    · rw [hpc'] at h
      cases h
    · exact hframe.startRequested (hs.armed (harmed ha))
  cases hmove with
  | stays hpc hclocks =>
    have hstage : s'.pc.stage = s.pc.stage := hpc.elim (congrArg Pc.stage) And.left
    refine ⟨fun hp => ?_, fun hp => ?_, fun ha => ?_, hmessage, ?_⟩
    · rw [hstage] at hp
      rcases hclocks with hc | ⟨hc, -⟩
      · exact hc.trans (hs.unarmed hp)
      · rw [hs.unarmed hp] at hc
        cases hc
    · exact hframe.startRequested (hs.started (hstage ▸ hp))
    · rcases hclocks with hc | ⟨hc, -⟩
      · exact hframe.startRequested (hs.armed (hc ▸ ha))
      · exact hframe.startRequested (hs.armed hc)
    · by_cases hend : s.pc.stage = .ending
      · rcases hpc with hpc | ⟨-, hne⟩
        · rw [hpc]
          exact hs.killed.imp_right fun hk => hframe.ended hk (hend ▸ nofun)
        · exact absurd hend hne
      · exact .inl (killsFirst_of_stage (hstage ▸ hend))
  | begins hpc hpc' hstart hclocks =>
    have hr : s'.startRequested = true :=
      hframe.startRequested (hstart.elim id hs.message)
    have hc : s'.clocks = .unarmed := hclocks.trans (hs.unarmed (.inl hpc))
    exact ⟨fun _ => hc, fun _ => hr, fun _ => hr, hmessage,
      .inl (killsFirst_of_stage (hpc' ▸ nofun))⟩
  | arms hpc hpc' hclocks =>
    have hr : s'.startRequested = true := hframe.startRequested (hs.started hpc)
    refine ⟨?_, fun _ => hr, fun _ => hr, hmessage, .inl (killsFirst_of_stage (hpc' ▸ nofun))⟩
    rw [hpc']
    rintro (h | h) <;> cases h
  | ends todo hpc hpc' hslot hstop hclocks =>
    refine hending todo hpc' (fun ha => hclocks ▸ ha) (.inl ?_)
    exact .of_notMem hstop
  | terminates state hpc hpc' hclocks =>
    exact hending _ hpc' (fun ha => hclocks ▸ ha) (.inl (killsFirst_terminate _ _))
  | effect e todo ha hpc hpc' hclocks hkill hclean =>
    refine hending todo hpc' (fun ha => ?_) ?_
    · rw [hclocks] at ha
      split at ha
      · cases ha
      · exact ha
    · by_cases he : e = .kill
      · exact .inr (hkill he)
      · refine hs.killed.imp (fun hk => ?_) fun hk => hframe.ended hk (hpc ▸ nofun)
        rw [hpc] at hk
        exact hk.tail he

theorem command_of_uncompiled (h : s.job.spec.compile.isSome = false) :
    s.command = .executing :=
  if_neg (h ▸ Bool.false_ne_true)

theorem launch (hl : Launches s a) (h : s.step a = some s') :
    s'.program = .executing ∧ s'.clocks = s.clocks := by
  cases a with
  | call ok =>
    obtain ⟨rfl, hpc, hcompile⟩ := hl
    simp only [Handler.step, Handler.call, hpc] at h
    obtain rfl := Option.some.inj h
    exact ⟨command_of_uncompiled hcompile, rfl⟩
  | lost =>
    obtain ⟨hpc, hcompile⟩ := hl
    simp only [Handler.step, Handler.lost, hpc] at h
    obtain rfl := Option.some.inj h
    exact ⟨command_of_uncompiled hcompile, rfl⟩
  | poll | spawn =>
    simp only [Handler.step, Handler.environment, Option.ite_none_right_eq_some,
      Option.some.injEq] at h
    obtain ⟨-, rfl⟩ := h
    exact ⟨rfl, rfl⟩
  | _ => exact hl.elim

theorem step_armed (hs : Ordered s) (h : s.step a = some s') (hp : s'.program = .executing)
    (ha : s.clocks.isArmed = true) : s'.clocks.isArmed = true := by
  obtain ⟨hframe, hmove⟩ := step_move h
  cases hmove with
  | stays hpc hclocks => exact hclocks.elim (fun hc => hc ▸ ha) And.right
  | begins _ _ _ hclocks | ends _ _ _ _ _ hclocks | terminates _ _ _ hclocks => exact hclocks ▸ ha
  | arms _ _ hclocks => exact hclocks
  | effect e todo _ hpc _ hclocks =>
    rw [hclocks]
    split
    · next he =>
      have hend : s.program = .ended := by
        refine hs.killed.resolve_left fun hk => ?_
        rw [hpc, he] at hk
        exact absurd (hk [] todo rfl) List.not_mem_nil
      rw [hframe.ended hend (hpc ▸ nofun)] at hp
      cases hp
    · exact ha

theorem not_inWindow_of_containerStart (hs : Ordered s) (hpc : s.pc = .create .containerStart)
    (hl : Launches s a) (h : s.step a = some s') : ¬ InWindow s' := by
  intro hw'
  obtain ⟨hp, hc⟩ := launch hl h
  have harmed := (hw' hp).2
  rw [hc, hs.unarmed (.inl (by rw [hpc]; rfl))] at harmed
  cases harmed

theorem step_inWindow_iff (hs : Ordered s) (hw : InWindow s) (h : s.step a = some s') :
    InWindow s' ↔ LaunchesArmed s a := by
  obtain ⟨hframe, -⟩ := step_move h
  constructor
  · intro hw'
    cases a with
    | call ok =>
      intro hok hpc
      rw [← Bool.not_eq_false]
      intro hcompile
      have hl : Launches s (.call ok) := ⟨hok, hpc, hcompile⟩
      exact not_inWindow_of_containerStart hs hpc hl h hw'
    | lost =>
      intro hpc
      rw [← Bool.not_eq_false]
      intro hcompile
      have hl : Launches s .lost := ⟨hpc, hcompile⟩
      exact not_inWindow_of_containerStart hs hpc hl h hw'
    | poll | spawn =>
      obtain ⟨hp, hc⟩ := launch (by trivial) h
      rw [LaunchesArmed, ← hc]
      exact (hw' hp).2
    | _ => trivial
  · intro hl hp
    have harmed : s.clocks.isArmed = true := by
      rcases hframe.program hp with hp | hlaunch
      · exact (hw hp).2
      · cases a with
        | call ok =>
          obtain ⟨hok, hpc, hcompile⟩ := hlaunch
          rw [hl hok hpc] at hcompile
          cases hcompile
        | lost =>
          obtain ⟨hpc, hcompile⟩ := hlaunch
          rw [hl hpc] at hcompile
          cases hcompile
        | poll | spawn => exact hl
        | _ => exact hlaunch.elim
    exact ⟨hframe.startRequested (hs.armed harmed), step_armed hs h hp harmed⟩

theorem start_ordered (job : Job) : Ordered (.start job) where
  unarmed _ := rfl
  started h := by cases h
  armed h := by cases h
  message h := by cases h
  killed := .inl (killsFirst_of_stage nofun)

def toCreate : List Act := List.replicate 6 (.call true)

def dockerCreate : List Act := List.replicate 4 (.call true)

def parkFor (ms : ℕ) : List Act := toCreate ++ dockerCreate ++ [.call false, .tick ms]

def forkFor (ms : ℕ) : List Act := toCreate ++ [.call true, .call true, .spawn, .tick ms]

/-- A compiled program that the hold script finds before `Compile` returns. -/
def compileFor (ms : ℕ) : List Act :=
  toCreate ++ dockerCreate ++
    [.requestStart, .call true, .compileExit 0, .touch true, .writeMarker, .poll, .tick ms]

/-- Every job can execute for any time before its clocks are armed, and without a compile
step before its start is requested. -/
theorem exists_outside (hrun : job.spec.compile.isSome = true → job.spec.run ≠ []) (n : ℕ) :
    ∃ s, Reachable Handler.step (.start job) s ∧ s.program = .executing ∧ s.executedMs = n ∧
      s.clocks = .unarmed ∧ (job.spec.compile = none → s.startRequested = false) := by
  obtain ⟨⟨_, _, compile, _, _, _, _, _, _, _, argv, _⟩, eligible, marked, warmupMs⟩ := job
  cases eligible with
  | true => exact ⟨_, ⟨forkFor n, rfl⟩, rfl, Nat.zero_add n, rfl, fun _ => rfl⟩
  | false =>
    cases compile with
    | none => exact ⟨_, ⟨parkFor n, rfl⟩, rfl, Nat.zero_add n, rfl, fun _ => rfl⟩
    | some _ =>
      cases argv with
      | nil => exact absurd rfl (hrun rfl)
      | cons arg argv => exact ⟨_, ⟨compileFor n, rfl⟩, rfl, Nat.zero_add n, rfl, nofun⟩

/-- A job with a compile step whose hold script only looks once the session has begun. -/
def compiledScript : Job :=
  { script with spec := { script.spec with compile := some ["cc", "main.c"] } }

def compileThenRun : List Act :=
  toCreate ++ dockerCreate ++
    [.requestStart, .call true, .compileExit 0, .touch true, .tick markerPauseMs, .resume,
      .call true, .writeMarker, .poll, .tick 1000, .exit, .waitReturns]

end CodeRunner.Worker
