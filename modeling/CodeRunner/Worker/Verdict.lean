import CodeRunner.Worker.Outcome

/-! # What ended the job

The handler beside the cause that ends its job: a kill that struck the program or was taken
while the job was parked or compiling, a clock, the cancellation of the jobs context, an error
of `Wait`, or the process itself. The state that a teardown writes is compared with it.
-/

namespace CodeRunner.Worker

open Transition

inductive Cause where
  | kill
  | clock
  | cancelled
  | waitFailed
  | warmup
  | compileFailed
  | exited
  deriving DecidableEq, Repr

/-- How `Sandbox.Wait` returns: with what the process ended with, because the context is done,
or with an error. -/
inductive WaitReturn | exited | context | failed
  deriving DecidableEq, Repr

def WaitReturn.cause : WaitReturn → Cause
  | .exited => .exited
  | .context => .cancelled
  | .failed => .waitFailed

def WaitReturn.Enabled (s : Handler) : WaitReturn → Prop
  | .exited => s.program = .ended
  | .context => s.cancelled = true
  | .failed => True

instance (s : Handler) : ∀ ret, Decidable (WaitReturn.Enabled s ret)
  | .exited | .context => inferInstanceAs (Decidable (_ = _))
  | .failed => isTrue trivial

structure Truthful (cause : Cause) (state : JobState) : Prop where
  killed : state = .killed ↔ cause = .kill
  error : cause = .clock ∨ cause = .cancelled ∨ cause = .waitFailed → state = .error
  done : state = .done → cause = .exited

instance (cause : Cause) (state : JobState) : Decidable (Truthful cause state) :=
  decidable_of_iff ((state = .killed ↔ cause = .kill) ∧
      (cause = .clock ∨ cause = .cancelled ∨ cause = .waitFailed → state = .error) ∧
      (state = .done → cause = .exited))
    ⟨fun ⟨h₁, h₂, h₃⟩ => ⟨h₁, h₂, h₃⟩, fun ⟨h₁, h₂, h₃⟩ => ⟨h₁, h₂, h₃⟩⟩

/-- `struck` is set when the kill of the pump ends a live program. `first` is the first cause to
end the context of the compile step, and `settled` what it was when `Compile` returned. `cause`
is what ended the job. -/
structure Judged where
  handler : Handler
  struck : Bool
  first : Option Cause
  settled : Option (Option Cause)
  cause : Option Cause

def Judged.start (job : Job) : Judged := ⟨.start job, false, none, none, none⟩

/-- `settle` is the return of `Compile`, before the watch is stopped. -/
inductive JudgedAct where
  | settle
  | wait (ret : WaitReturn)
  | act (a : Act)
  deriving DecidableEq

/-- The steps in which the handler goes on from a `Compile` that has returned, with or without
success. -/
def Act.afterCompile : Act → Option Bool
  | .compileExit code => if code = 0 then none else some false
  | .compileFails => some false
  | .touch ok => if ok then none else some true
  | .resume => some true
  | _ => none

def Pc.compiling : Pc → Bool
  | .compile _ _ => true
  | _ => false

/-- The steps inside `Compile`. -/
def Act.inCompile : Act → Bool
  | .compileExit code => decide (code = 0)
  | .touch ok => ok
  | _ => false

/-- The cause for which a step ends the context of the compile step. -/
def Handler.endsCompile (s : Handler) : Act → Option Cause
  | .watch => if s.ctrlCh.head? = some .kill then some .kill else none
  | .expire => some .clock
  | .cancel => some .cancelled
  | _ => none

def Cause.contextErr : Cause → ContextErr
  | .clock => .deadlineExceeded
  | _ => .canceled

def Handler.Fires (s : Handler) : Act → Prop
  | .wall | .idle => True
  | .cpu usageMs => s.job.spec.limits.cpuMs.toInt < usageMs
  | _ => False

namespace Judged

def strikes (j : Judged) (a : Act) : Bool :=
  decide (a = .pump ∧ j.handler.ctrlCh.head? = some .kill ∧ j.handler.program ≠ .ended)

def nextFirst (j : Judged) (a : Act) (s' : Handler) : Option Cause :=
  match j.handler.pc, s'.pc with
  | .compile _ _, _ => j.first <|> j.handler.endsCompile a
  | _, .compile _ _ => if s'.cancelled then some .cancelled else none
  | _, _ => j.first

/-- What ends the job in a step that goes on to the teardown. A compile step that succeeded has
been ended by whichever came first of the clock and the kill. -/
def causeOf (j : Judged) (a : Act) : Option Cause :=
  match j.handler.pc, a with
  | .parked _, .contextDone => some .cancelled
  | .parked _, .warmup => some .warmup
  | .parked _, .receive => some .kill
  | .compile _ _, a =>
    a.afterCompile.map fun ok =>
      if ok then if j.first = some .clock then .clock else .kill
      else ((j.settled.getD none).getD .compileFailed)
  | .session, _ => some (if j.struck then .kill else .clock)
  | _, _ => none

def advance (j : Judged) (a : Act) (cause : Option Cause) (s' : Handler) : Judged where
  handler := s'
  struck := j.struck || j.strikes a
  first := j.nextFirst a s'
  settled := if a.afterCompile.isSome then none else j.settled
  cause := if j.handler.pc.stage ≠ .ending ∧ s'.pc.stage = .ending then cause else j.cause

def step (j : Judged) : JudgedAct → Option Judged
  | .settle =>
    match j.handler.pc, j.settled with
    | .compile _ _, none => some { j with settled := some j.first }
    | _, _ => none
  | .wait ret =>
    if ret.Enabled j.handler then
      (j.handler.step .waitReturns).map
        (j.advance .waitReturns (some (if j.struck then .kill else ret.cause)))
    else none
  | .act a =>
    if a ≠ .waitReturns ∧ (a.afterCompile.isSome = true → j.settled ≠ none) ∧
        (a.inCompile = true → j.settled = none) then
      (j.handler.step a).map (j.advance a (j.causeOf a))
    else none

/-- The state that is to be written fits the cause. -/
def Judges (j : Judged) : Prop :=
  ∀ cause state, j.cause = some cause → .writeStatus state ∈ j.handler.pc.todo →
    Truthful cause state

end Judged

/-- No kill has struck a session that a clock ends. A kill that was taken while compiling came
before the clock, and before `Compile` failed. -/
def ActsFairly (j : Judged) (a : Act) : Prop :=
  match j.handler.pc with
  | .compile _ _ => ∀ ok, a.afterCompile = some ok → j.handler.watch.killed = true →
      if ok then j.first ≠ some .clock else j.settled = some (some .kill)
  | .session => j.handler.Fires a → j.struck = false
  | _ => True

instance (s : Handler) : (a : Act) → Decidable (s.Fires a)
  | .wall | .idle => inferInstanceAs (Decidable True)
  | .cpu _ => inferInstanceAs (Decidable (_ < _))
  | .call _ | .lost | .contextDone | .warmup | .receive | .watch | .expire | .compileExit _
  | .compileFails | .touch _ | .resume | .pump | .waitReturns | .effect | .requestStart
  | .deliver _ | .cancel | .poll | .spawn | .exit | .activity | .writeMarker | .tick _ =>
    inferInstanceAs (Decidable False)

instance (j : Judged) (a : Act) : Decidable (ActsFairly j a) :=
  match hpc : j.handler.pc with
  | .compile _ _ =>
    decidable_of_iff (∀ ok, a.afterCompile = some ok → j.handler.watch.killed = true →
      if ok then j.first ≠ some .clock else j.settled = some (some .kill))
      (by simp [ActsFairly, hpc])
  | .session => decidable_of_iff (j.handler.Fires a → j.struck = false) (by simp [ActsFairly, hpc])
  | .readSpec | .subscribe | .subscribeControl | .announceQueued | .resolveBlobs | .addOwned
  | .create _ | .startFlag _ | .parked _ | .announceRunning _ | .ending _ =>
    isTrue (by simp [ActsFairly, hpc])

/-- `Wait` returns what the program ended with, and no kill has struck it. -/
def JudgesFairly (j : Judged) : JudgedAct → Prop
  | .settle => True
  | .wait ret => j.struck = false ∧ ret = .exited
  | .act a => ActsFairly j a

instance (j : Judged) : (ja : JudgedAct) → Decidable (JudgesFairly j ja)
  | .settle => inferInstanceAs (Decidable True)
  | .wait _ => inferInstanceAs (Decidable (_ ∧ _))
  | .act a => inferInstanceAs (Decidable (ActsFairly j a))

structure OnRecord (s : Handler) (first : Option Cause) (settled : Option (Option Cause)) :
    Prop where
  kill : first = some .kill ∨ settled = some (some .kill) → s.watch.killed = true
  fresh : s.compileErr = none → first = none
  clock : s.compileErr = some .deadlineExceeded → first = some .clock

structure Tracks (j : Judged) : Prop where
  cause : j.handler.pc.stage ≠ .ending → j.cause = none
  record : j.handler.pc.compiling = true → OnRecord j.handler j.first j.settled
  settled : j.handler.pc.compiling = false → j.settled = none

variable {j j' : Judged} {s' : Handler} {a : Act} {ja : JudgedAct} {job : Job}

@[simp] theorem writeStatus_mem_teardown {state state' : JobState} :
    .writeStatus state' ∈ teardown job state ↔ state' = state := by
  unfold teardown
  split <;> simp

@[simp] theorem writeStatus_mem_terminate {state : JobState} : .writeStatus state ∉ terminate := by
  simp [terminate]

def Judged.Concludes (j : Judged) (cause : Option Cause) (s' : Handler) : Prop :=
  j.handler.pc.stage ≠ .ending → s'.pc.stage = .ending →
    ∀ c state, cause = some c → .writeStatus state ∈ s'.pc.todo → Truthful c state

theorem advance_judges {cause : Option Cause} (ht : Tracks j) (hj : j.Judges)
    (h : j.handler.step a = some s') :
    (j.advance a cause s').Judges ↔ j.Concludes cause s' := by
  by_cases hs : j.handler.pc.stage = .ending
  · refine ⟨fun _ hne => absurd hs hne, fun _ c state hc hmem => ?_⟩
    have hcause : (j.advance a cause s').cause = j.cause := if_neg fun h => h.1 hs
    rw [hcause] at hc
    refine hj c state hc ?_
    rcases step_of_ending h hs with ⟨hpc', -⟩ | ⟨e, todo, -, hpc, hpc', -⟩
    · exact hpc' ▸ hmem
    · change .writeStatus state ∈ s'.pc.todo at hmem
      rw [hpc'] at hmem
      rw [hpc]
      exact List.mem_cons_of_mem e hmem
  · by_cases hs' : s'.pc.stage = .ending
    · have hcause : (j.advance a cause s').cause = cause := if_pos ⟨hs, hs'⟩
      refine ⟨fun hj' _ _ c state hc hmem => ?_, fun hconc c state hc hmem => ?_⟩
      · exact hj' c state (hcause.trans hc) hmem
      · exact hconc hs hs' c state (hcause.symm.trans hc) hmem
    · have hcause : (j.advance a cause s').cause = none :=
        (if_neg fun h => hs' h.2).trans (ht.cause hs)
      refine ⟨fun _ _ h => absurd h hs', fun _ c state hc => ?_⟩
      rw [hcause] at hc
      cases hc

variable {s : Handler}

theorem create_pc (ok : Bool) (pc : CreatePc) : (s.create ok pc).pc.stage ≠ .started := by
  rcases pc_create s ok pc with ⟨pc', h⟩ | ⟨deadline, h⟩ | h <;> rw [h] <;> nofun

theorem compiled_pc (since : ℕ) (ok : Bool) : (s.compiled since ok).pc.compiling = false := by
  rcases pc_compiled s since ok with ⟨wallMs, h⟩ | ⟨state, h⟩ <;> rw [h] <;> rfl

/-- The compile step goes on, and its context has the first of the errors it is ended with. -/
structure CompileGoesOn (s : Handler) (a : Act) (s' : Handler) : Prop where
  compiling : s.pc.compiling = true
  err : s'.compileErr = (s.compileErr <|> (s.endsCompile a).map Cause.contextErr)
  killed : s'.watch.killed = true ↔ s.watch.killed = true ∨ s.endsCompile a = some .kill

structure CompileBegins (s s' : Handler) : Prop where
  idle : s.pc.compiling = false
  killed : s'.watch.killed = false
  err : s'.compileErr = if s'.cancelled then some .canceled else none

theorem begin_compile {t : Handler} (hs : s.pc.compiling = false)
    (h : t.begin.pc.compiling = true) : CompileBegins s t.begin := by
  unfold Handler.begin at h ⊢
  split at h
  · next hc => exact ⟨hs, by rw [if_pos hc], by rw [if_pos hc]⟩
  · cases h

theorem step_compile (h : s.step a = some s') (hs' : s'.pc.compiling = true) :
    CompileGoesOn s a s' ∨ CompileBegins s s' := by
  have hsame : ∀ t : Handler, s.pc.compiling = true → s.endsCompile a = none →
      t.compileErr = s.compileErr → t.watch.killed = s.watch.killed → CompileGoesOn s a t :=
    fun t hs ha herr hkilled => ⟨hs, by simp [herr, ha], by simp [hkilled, ha]⟩
  cases step_branch h with
  | durableStart deadline hpc | parkedStart deadline rest hpc =>
    exact .inr (begin_compile (hpc ▸ rfl) hs')
  | create ok pc hpc =>
    have hstage : (s.create ok pc).pc.stage = .started := by
      cases hpc' : (s.create ok pc).pc with
      | compile since pc => rfl
      | _ => rw [hpc'] at hs'; cases hs'
    exact absurd hstage (create_pc ok pc)
  | compileExits since code hpc | compileFails since hpc | touchFails since hpc
  | resumes since wake hpc =>
    rw [compiled_pc] at hs'
    cases hs'
  | watchKill since pc rest hpc hctrl =>
    refine .inl ⟨hpc ▸ rfl, ?_, ?_⟩ <;>
      simp [Handler.endsCompile, hctrl, Handler.endCompile, Cause.contextErr]
  | watchHold since pc msg rest hpc hctrl hmsg =>
    exact .inl (hsame _ hs' (by simp [Handler.endsCompile, hctrl, hmsg]) rfl rfl)
  | expire since pc hpc =>
    refine .inl ⟨hpc ▸ rfl, ?_, ?_⟩ <;>
      simp [Handler.endsCompile, Handler.endCompile, Cause.contextErr]
  | cancel =>
    refine .inl ⟨hs', ?_, ?_⟩ <;>
      simp [Handler.endsCompile, Handler.endCompile, Cause.contextErr]
  | compileSucceeds since hpc | touches since hpc =>
    refine .inl ⟨hpc ▸ rfl, ?_, ?_⟩ <;> simp [Handler.endsCompile]
  | parkedClose deadline rest hpc | pumpKill rest hpc | pumpSkip msg rest hpc
  | cpuPolls wall idle usageMs hpc | activity wall idle hpc =>
    simp only [hpc] at hs'
    cases hs'
  | requestStart | deliver | poll | spawn | exit | writeMarker | tick =>
    exact .inl (hsame _ hs' rfl rfl rfl)
  | _ => cases hs'

/-- The handler only leaves the compile step when `Compile` has returned. -/
theorem step_compile_ends (h : s.step a = some s') (hs : s.pc.compiling = true)
    (hs' : s'.pc.compiling = false) :
    ∃ since ok, a.afterCompile = some ok ∧ s' = s.compiled since ok := by
  cases step_branch h with
  | compileExits since code hpc hsandbox hcode =>
    exact ⟨since, false, by simp [Act.afterCompile, hcode], rfl⟩
  | compileFails since | touchFails since | resumes since => exact ⟨since, _, rfl, rfl⟩
  | compileSucceeds | touches => cases hs'
  | requestStart | deliver | cancel | poll | spawn | exit | writeMarker | tick | expire
  | watchKill | watchHold =>
    exact absurd (hs.symm.trans hs') (by decide)
  | _ =>
    simp_all [Pc.compiling]

theorem nextFirst_of_compile (hs : j.handler.pc.compiling = true) :
    j.nextFirst a s' = (j.first <|> j.handler.endsCompile a) := by
  cases hpc : j.handler.pc with
  | compile since pc => simp only [Judged.nextFirst, hpc]
  | _ => rw [hpc] at hs; cases hs

theorem nextFirst_of_begins (hs : j.handler.pc.compiling = false)
    (hs' : s'.pc.compiling = true) :
    j.nextFirst a s' = if s'.cancelled then some .cancelled else none := by
  unfold Judged.nextFirst
  split
  · next hpc => rw [hpc] at hs; cases hs
  · rfl
  · next hpc =>
    cases hpc' : s'.pc with
    | compile since pc => exact absurd hpc' (hpc _ _)
    | _ => rw [hpc'] at hs'; cases hs'

theorem OnRecord.goesOn {first : Option Cause} {settled : Option (Option Cause)}
    (ho : OnRecord s first settled) (hc : CompileGoesOn s a s') :
    OnRecord s' (first <|> s.endsCompile a) settled where
  kill h := by
    refine hc.killed.mpr ?_
    rcases h with h | h
    · cases first with
      | none => exact .inr h
      | some c => exact .inl (ho.kill (.inl h))
    · exact .inl (ho.kill (.inr h))
  fresh h := by
    rw [hc.err] at h
    cases herr : s.compileErr with
    | some err => rw [herr] at h; cases h
    | none =>
      rw [herr] at h
      rw [ho.fresh herr]
      exact Option.map_eq_none_iff.mp h
  clock h := by
    rw [hc.err] at h
    cases herr : s.compileErr with
    | some err =>
      rw [herr] at h
      rw [ho.clock (herr.trans h)]
      rfl
    | none =>
      rw [herr] at h
      rw [ho.fresh herr]
      obtain ⟨c, hends, hclock⟩ := Option.map_eq_some_iff.mp h
      cases c with
      | clock => exact hends
      | _ => cases hclock

theorem OnRecord.begins (hc : CompileBegins s s') :
    OnRecord s' (if s'.cancelled then some .cancelled else none) none where
  kill h := by
    rcases h with h | h
    · split at h <;> cases h
    · cases h
  fresh h := by
    rw [hc.err] at h
    split at h
    · cases h
    · next hcancel => exact if_neg hcancel
  clock h := by
    rw [hc.err] at h
    split at h <;> cases h

theorem OnRecord.unsettle {first : Option Cause} {settled : Option (Option Cause)}
    (ho : OnRecord s first settled) : OnRecord s first none :=
  ⟨fun h => ho.kill (.inl (h.resolve_right nofun)), ho.fresh, ho.clock⟩

theorem advance_tracks {cause : Option Cause} (ht : Tracks j) (h : j.handler.step a = some s') :
    Tracks (j.advance a cause s') := by
  refine ⟨fun hs' => ?_, fun hs' => ?_, fun hs' => ?_⟩
  · have hs : j.handler.pc.stage ≠ .ending := fun hs => by
      rcases step_of_ending h hs with ⟨hpc', -⟩ | ⟨e, todo, -, -, hpc', -⟩
      · exact hs' (hpc' ▸ hs)
      · exact hs' (by change s'.pc.stage = .ending; rw [hpc']; rfl)
    exact (if_neg fun h => hs' h.2).trans (ht.cause hs)
  · change OnRecord s' (j.nextFirst a s') (if a.afterCompile.isSome then none else j.settled)
    change s'.pc.compiling = true at hs'
    rcases step_compile h hs' with hc | hc
    · rw [nextFirst_of_compile hc.compiling]
      have hrecord := (ht.record hc.compiling).goesOn hc
      split
      · exact hrecord.unsettle
      · exact hrecord
    · rw [nextFirst_of_begins hc.idle hs', ht.settled hc.idle, ite_self]
      exact .begins hc
  · change (if a.afterCompile.isSome then none else j.settled) = none
    cases hs : j.handler.pc.compiling with
    | true =>
      obtain ⟨since, ok, ha, -⟩ := step_compile_ends h hs hs'
      exact if_pos (by rw [ha]; rfl)
    | false => rw [ht.settled hs, ite_self]

theorem concludes_of_stays {cause : Option Cause} (h : s'.pc.stage ≠ .ending) :
    j.Concludes cause s' := fun _ hs' => absurd hs' h

theorem concludes_none : j.Concludes none s' := fun _ _ _ _ hc => by cases hc

theorem concludes_iff {c : Cause} {state : JobState} {todo : List Effect}
    (hs : j.handler.pc.stage ≠ .ending) (hpc' : s'.pc = .ending todo)
    (htodo : ∀ state', .writeStatus state' ∈ todo ↔ state' = state) :
    j.Concludes (some c) s' ↔ Truthful c state := by
  constructor
  · intro hconc
    refine hconc hs (by rw [hpc']; rfl) c state rfl ?_
    rw [hpc']
    exact (htodo state).mpr rfl
  · intro ht _ _ c' state' hc hmem
    rw [hpc'] at hmem
    obtain rfl := Option.some.inj hc
    exact (htodo state').mp hmem ▸ ht

theorem concludes_finish_iff {c : Cause} {state : JobState} (hs : j.handler.pc.stage ≠ .ending) :
    j.Concludes (some c) (s.finish state) ↔ Truthful c state :=
  concludes_iff hs rfl fun _ => writeStatus_mem_teardown

theorem concludes_terminates_iff {c : Cause} {state : JobState}
    (hs : j.handler.pc.stage ≠ .ending) :
    j.Concludes (some c) (s.terminates state) ↔ Truthful c state :=
  concludes_iff hs rfl fun _ => by
    rw [List.mem_append, writeStatus_mem_teardown]
    exact or_iff_right writeStatus_mem_terminate

theorem truthful_killed_iff {c : Cause} : Truthful c .killed ↔ c = .kill := by
  cases c <;> decide

theorem truthful_error_iff {c : Cause} : Truthful c .error ↔ c ≠ .kill := by
  cases c <;> decide

theorem truthful_done_iff {c : Cause} : Truthful c .done ↔ c = .exited := by
  cases c <;> decide

def Judged.failure (j : Judged) : Cause := (j.settled.getD none).getD .compileFailed

theorem failure_eq_kill (hset : j.settled ≠ none) :
    j.failure = .kill ↔ j.settled = some (some .kill) := by
  unfold Judged.failure
  cases h : j.settled with
  | none => exact absurd h hset
  | some first =>
    cases first with
    | none => exact ⟨nofun, nofun⟩
    | some c => simp

theorem compiled_killed (since : ℕ) (ok : Bool) (hk : s.watch.killed = true) :
    ∃ t : Handler, s.compiled since ok = t.finish .killed := by
  unfold Handler.compiled
  exact ⟨_, if_pos hk⟩

theorem compiled_error (since : ℕ) (ok : Bool) (hk : s.watch.killed = false)
    (h : s.compileErr = some .deadlineExceeded ∨ ok = false) :
    ∃ t : Handler, s.compiled since ok = t.finish .error := by
  unfold Handler.compiled
  dsimp only
  rw [hk, if_neg Bool.false_ne_true]
  split
  · exact ⟨_, rfl⟩
  · next herr =>
    rw [h.resolve_left herr, if_neg Bool.false_ne_true]
    exact ⟨_, rfl⟩

theorem compiled_stage {since : ℕ} (hk : s.watch.killed = false)
    (h : s.compileErr ≠ some .deadlineExceeded) :
    (s.compiled since true).pc.stage = .started := by
  unfold Handler.compiled
  dsimp only
  rw [hk, if_neg Bool.false_ne_true, if_neg h]
  rfl

theorem compiled_concludes_iff {since : ℕ} {pc : CompilePc} {ok : Bool} (ht : Tracks j)
    (hpc : j.handler.pc = .compile since pc) (ha : a.afterCompile = some ok)
    (hset : j.settled ≠ none) :
    j.Concludes (j.causeOf a) (j.handler.compiled since ok) ↔
      (j.handler.watch.killed = true →
        if ok then j.first ≠ some .clock else j.settled = some (some .kill)) := by
  have hs : j.handler.pc.stage ≠ .ending := by rw [hpc]; exact nofun
  have hrecord : OnRecord j.handler j.first j.settled := ht.record (by rw [hpc]; rfl)
  have hcause : j.causeOf a =
      some (if ok then if j.first = some .clock then .clock else .kill else j.failure) := by
    simp only [Judged.causeOf, hpc, ha, Option.map_some, Judged.failure]
  rw [hcause]
  cases hk : j.handler.watch.killed with
  | true =>
    obtain ⟨t, ht'⟩ := compiled_killed since ok hk
    rw [ht', concludes_finish_iff hs, truthful_killed_iff]
    simp only [forall_const]
    cases ok with
    | true =>
      simp only [if_true]
      split
      · next hclock => exact iff_of_false nofun fun h => h hclock
      · next hclock => exact iff_of_true rfl hclock
    | false => exact failure_eq_kill hset
  | false =>
    have hfailure : j.failure ≠ .kill := fun h => by
      have hkill := hrecord.kill (.inr ((failure_eq_kill hset).mp h))
      rw [hk] at hkill
      cases hkill
    refine iff_of_true ?_ nofun
    by_cases herr : j.handler.compileErr = some .deadlineExceeded
    · obtain ⟨t, ht'⟩ := compiled_error since ok hk (.inl herr)
      rw [ht', concludes_finish_iff hs, truthful_error_iff, hrecord.clock herr]
      cases ok with
      | true => exact (by decide : Cause.clock ≠ .kill)
      | false => exact hfailure
    · cases ok with
      | true => exact concludes_of_stays (compiled_stage hk herr ▸ nofun)
      | false =>
        obtain ⟨t, ht'⟩ := compiled_error since false hk (.inr rfl)
        rw [ht', concludes_finish_iff hs, truthful_error_iff]
        exact hfailure

theorem clock_concludes_iff (hpc : j.handler.pc = .session) :
    j.Concludes (j.causeOf a) (j.handler.terminates .error) ↔ j.struck = false := by
  have hcause : j.causeOf a = some (if j.struck then .kill else .clock) := by
    simp only [Judged.causeOf, hpc]
  rw [hcause, concludes_terminates_iff (hpc ▸ nofun), truthful_error_iff]
  cases j.struck <;> decide

theorem concludes_of_pc {cause : Option Cause} (h : s'.pc = j.handler.pc) :
    j.Concludes cause s' := fun hs hs' => absurd (h ▸ hs') hs

theorem fair_of_pc (hcompile : j.handler.pc.compiling = false)
    (hsession : j.handler.pc.stage ≠ .session) : ActsFairly j a := by
  unfold ActsFairly
  split
  · next hpc =>
    rw [hpc] at hcompile
    cases hcompile
  · next hpc =>
    rw [hpc] at hsession
    exact absurd rfl hsession
  · trivial

/-- A step that neither returns from `Compile` nor is a clock that fires. -/
theorem fair_of_quiet (ha : a.afterCompile = none) (hfires : ¬ j.handler.Fires a) :
    ActsFairly j a := by
  unfold ActsFairly
  split
  · intro ok hok
    rw [ha] at hok
    cases hok
  · exact fun h => absurd h hfires
  · trivial

theorem fair_iff_of_compile {since : ℕ} {pc : CompilePc} {ok : Bool}
    (hpc : j.handler.pc = .compile since pc) (ha : a.afterCompile = some ok) :
    ActsFairly j a ↔ (j.handler.watch.killed = true →
      if ok then j.first ≠ some .clock else j.settled = some (some .kill)) := by
  simp only [ActsFairly, hpc, ha, Option.some.injEq, forall_eq']

theorem fair_iff_of_session (hpc : j.handler.pc = .session) (hfires : j.handler.Fires a) :
    ActsFairly j a ↔ j.struck = false := by
  simp only [ActsFairly, hpc, hfires, forall_const]

theorem act_concludes_iff (ht : Tracks j) (ha : a ≠ .waitReturns)
    (hset : a.afterCompile.isSome = true → j.settled ≠ none)
    (h : j.handler.step a = some s') :
    j.Concludes (j.causeOf a) s' ↔ ActsFairly j a := by
  cases step_branch h with
  | readSpec hpc | subscribe hpc | subscribeControl hpc | announceQueued ok hpc | resolveBlobs hpc
  | addOwned ok hpc | parks ok deadline hpc =>
    exact iff_of_true (concludes_of_stays nofun) (fair_of_pc (hpc ▸ rfl) (hpc ▸ nofun))
  | durableStart deadline hpc | parkedStart deadline rest hpc =>
    exact iff_of_true (concludes_of_stays (begin_stage _ ▸ nofun))
      (fair_of_pc (hpc ▸ rfl) (hpc ▸ nofun))
  | readSpecFails hpc | subscribeFails hpc | subscribeControlFails hpc | resolveBlobsFails hpc
  | create ok pc hpc =>
    have hcause : ∀ ok, j.causeOf (.call ok) = none := fun ok => by simp only [Judged.causeOf, hpc]
    exact iff_of_true (hcause _ ▸ concludes_none) (fair_of_pc (hpc ▸ rfl) (hpc ▸ nofun))
  | createLost hpc =>
    have hcause : j.causeOf .lost = none := by simp only [Judged.causeOf, hpc]
    exact iff_of_true (hcause ▸ concludes_none) (fair_of_pc (hpc ▸ rfl) (hpc ▸ nofun))
  | startLost hpc =>
    exact iff_of_true (concludes_of_stays nofun) (fair_of_pc (hpc ▸ rfl) (hpc ▸ nofun))
  | announceRunning ok wallMs hpc =>
    exact iff_of_true (concludes_of_stays nofun) (fair_of_pc (hpc ▸ rfl) (hpc ▸ nofun))
  | contextDone deadline hpc | warmup deadline hpc | parkedKill deadline rest hpc =>
    refine iff_of_true ?_ (fair_of_pc (hpc ▸ rfl) (hpc ▸ nofun))
    simp only [Judged.causeOf, hpc]
    exact (concludes_finish_iff (hpc ▸ nofun)).mpr (by decide)
  | parkedClose deadline rest hpc =>
    exact iff_of_true (concludes_of_pc rfl) (fair_of_pc (hpc ▸ rfl) (hpc ▸ nofun))
  | watchKill since pc rest hpc | watchHold since pc msg rest hpc | expire since pc hpc =>
    exact iff_of_true (concludes_of_pc rfl) (fair_of_quiet rfl id)
  | compileSucceeds since hpc | touches since hpc =>
    exact iff_of_true (concludes_of_stays nofun) (fair_of_quiet rfl id)
  | compileExits since code hpc hsandbox hcode =>
    have hfail : (Act.compileExit code).afterCompile = some false := by
      simp [Act.afterCompile, hcode]
    rw [compiled_concludes_iff ht hpc hfail (hset (by rw [hfail]; rfl)),
      fair_iff_of_compile hpc hfail]
  | compileFails since hpc | touchFails since hpc | resumes since wake hpc =>
    rw [compiled_concludes_iff ht hpc rfl (hset rfl), fair_iff_of_compile hpc rfl]
  | pumpKill rest hpc | pumpSkip msg rest hpc | activity wall idle hpc =>
    exact iff_of_true (concludes_of_pc rfl) (fair_of_quiet rfl id)
  | waitReturns => exact absurd rfl ha
  | wall wall idle hpc | idle wall idle hpc =>
    rw [clock_concludes_iff hpc]
    exact Iff.symm (fair_iff_of_session hpc trivial)
  | cpu wall idle usageMs hpc hclocks hlt =>
    rw [clock_concludes_iff hpc]
    exact Iff.symm (fair_iff_of_session hpc hlt)
  | cpuPolls wall idle usageMs hpc hclocks hle =>
    exact iff_of_true (concludes_of_pc rfl) (fair_of_quiet rfl (Int.not_lt.mpr hle))
  | effect e todo hpc =>
    refine iff_of_true (fun hs => absurd (by rw [hpc]; rfl) hs) ?_
    exact fair_of_pc (hpc ▸ rfl) (hpc ▸ nofun)
  | requestStart | deliver | cancel | poll | spawn | exit | writeMarker | tick =>
    exact iff_of_true (concludes_of_pc rfl) (fair_of_quiet rfl id)

theorem step_tracks (ht : Tracks j) (h : j.step ja = some j') : Tracks j' := by
  cases ja with
  | settle =>
    simp only [Judged.step] at h
    split at h
    · next hpc hnone =>
      obtain rfl := Option.some.inj h
      refine ⟨ht.cause, fun hs => ?_, fun hs => ?_⟩
      · have hrecord := ht.record hs
        refine ⟨fun hkill => hrecord.kill (.inl ?_), hrecord.fresh, hrecord.clock⟩
        exact hkill.elim id Option.some.inj
      · rw [hpc] at hs
        cases hs
    · cases h
  | wait ret =>
    obtain ⟨-, h⟩ := Option.ite_none_right_eq_some.mp h
    obtain ⟨s', hs, rfl⟩ := Option.map_eq_some_iff.mp h
    exact advance_tracks ht hs
  | act a =>
    obtain ⟨-, h⟩ := Option.ite_none_right_eq_some.mp h
    obtain ⟨s', hs, rfl⟩ := Option.map_eq_some_iff.mp h
    exact advance_tracks ht hs

theorem step_judges_iff (ht : Tracks j) (hj : j.Judges) (h : j.step ja = some j') :
    j'.Judges ↔ JudgesFairly j ja := by
  cases ja with
  | settle =>
    simp only [Judged.step] at h
    split at h
    · obtain rfl := Option.some.inj h
      exact iff_of_true hj trivial
    · cases h
  | wait ret =>
    obtain ⟨-, h⟩ := Option.ite_none_right_eq_some.mp h
    obtain ⟨s', hs, rfl⟩ := Option.map_eq_some_iff.mp h
    rw [advance_judges ht hj hs]
    cases step_branch hs with
    | waitReturns hpc =>
      rw [concludes_terminates_iff (hpc ▸ nofun), truthful_done_iff, JudgesFairly]
      cases j.struck <;> cases ret <;> decide
  | act a =>
    obtain ⟨⟨hwait, hset, -⟩, h⟩ := Option.ite_none_right_eq_some.mp h
    obtain ⟨s', hs, rfl⟩ := Option.map_eq_some_iff.mp h
    rw [advance_judges ht hj hs]
    exact act_concludes_iff ht hwait hset hs

theorem start_tracks (job : Job) : Tracks (.start job) :=
  ⟨fun _ => rfl, nofun, fun _ => rfl⟩

/-- The state written for a job fits what ended it throughout a run exactly when no session ends
by a kill or other than with what its process returned, and no kill of a compile step comes
after what ended that step. -/
theorem judges_iff_judgesFairly {as : List JudgedAct}
    (hr : run Judged.step (.start job) as = some j) :
    Always Judged.step Judged.Judges (.start job) as ↔
      EveryStep Judged.step JudgesFairly (.start job) as :=
  always_iff_everyStep_of (fun _ _ _ ht _ h => step_tracks ht h)
    (fun _ _ _ ht _ hj _ h => step_judges_iff ht hj h) (start_tracks job)
    (fun _ _ hc => by cases hc) EveryStep.trivial hr

def toSession : List Act := toCreate ++ dockerCreate ++ [.requestStart, .call true, .call true]

/-- A kill strikes the running program, and `Wait` returns that it has ended. -/
def killWhileRunning : List JudgedAct :=
  (toSession ++ [Act.deliver .kill, .pump]).map .act ++ [.wait .exited]

theorem not_always_judges :
    ¬ ∀ (job : Job) (j : Judged) (as : List JudgedAct),
      run Judged.step (.start job) as = some j →
        Always Judged.step Judged.Judges (.start job) as := by
  intro hall
  obtain ⟨j, hr, hcause, htodo⟩ : ∃ j, run Judged.step (.start script) killWhileRunning = some j ∧
      j.cause = some .kill ∧ .writeStatus .done ∈ j.handler.pc.todo :=
    ⟨_, rfl, rfl, by decide⟩
  have hfits : Truthful .kill .done := (hall script j _ hr).last hr .kill .done hcause htodo
  cases truthful_done_iff.mp hfits

/-- The program ends by itself. -/
def exitWhileRunning : List JudgedAct := (toSession ++ [Act.exit]).map .act ++ [.wait .exited]

theorem exitWhileRunning_judges :
    ∃ j, run Judged.step (.start script) exitWhileRunning = some j ∧ j.cause = some .exited ∧
      Always Judged.step Judged.Judges (.start script) exitWhileRunning := by
  obtain ⟨j, hr, hcause⟩ : ∃ j, run Judged.step (.start script) exitWhileRunning = some j ∧
      j.cause = some .exited := ⟨_, rfl, rfl⟩
  exact ⟨j, hr, hcause, (judges_iff_judgesFairly hr).mpr (by decide)⟩

end CodeRunner.Worker
