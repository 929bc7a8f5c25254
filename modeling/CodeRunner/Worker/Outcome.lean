import CodeRunner.Worker.Branches
import CodeRunner.Worker.Window

/-! # One outcome for each job

What the handler publishes on the channel of its job and stores as its status. Every ending
publishes one result and stores one terminal state, but for those of the three calls that
come before the job is announced.
-/

namespace CodeRunner.Worker

open Transition

inductive StagePhase | queued | compiling | running
  deriving DecidableEq, Repr

/-- The states of `wire.JobState` that are ever written. -/
inductive Status where
  | queued
  | running
  | ended (state : JobState)
  deriving DecidableEq, Repr

inductive Output where
  | stage (phase : StagePhase)
  | status (status : Status)
  | result
  deriving DecidableEq, Repr

def Effect.emits : Effect → List Output
  | .publishResult => [.result]
  | .writeStatus state => [.status (.ended state)]
  | _ => []

/-- The stage that `begin` publishes. -/
def Handler.beginEmits (s : Handler) : List Output :=
  if s.job.spec.compile.isSome then [.stage .compiling] else []

def Handler.emits (s : Handler) (a : Act) : List Output :=
  match s.pc, a with
  | .announceQueued, .call _ => [.stage .queued, .status .queued]
  | .startFlag _, .call ok => if ok ∧ s.startFlag then s.beginEmits else []
  | .parked _, .receive => if s.ctrlCh.head? = some .start then s.beginEmits else []
  | .announceRunning _, .call _ => [.stage .running, .status .running]
  | .ending (e :: _), .effect => e.emits
  | _, _ => []

def claimed (job : Job) : Recorded Handler Output := ⟨.start job, []⟩

/-- The status that is stored last, after the one of the API. -/
def lastStatus (log : List Output) : Status :=
  log.foldl (fun status o => match o with | .status status => status | _ => status) .queued

structure OneOutcome (log : List Output) : Prop where
  result : log.count .result = 1
  status : ∃ state, lastStatus log = .ended state

/-- The handler has returned. -/
def Handler.Ended (s : Handler) : Prop := s.pc = .ending []

def Pc.opening : Pc → Bool
  | .readSpec | .subscribe | .subscribeControl => true
  | _ => false

def OpeningSucceeds (s : Handler) : Act → Prop
  | .call ok => s.pc.opening = true → ok = true
  | _ => True

instance (s : Handler) : (a : Act) → Decidable (OpeningSucceeds s a)
  | .call _ => inferInstanceAs (Decidable (_ → _))
  | .lost | .contextDone | .warmup | .receive | .watch | .expire | .compileExit _ | .compileFails
  | .touch _ | .resume | .pump | .waitReturns | .wall | .idle | .cpu _ | .effect | .requestStart
  | .deliver _ | .cancel | .poll | .spawn | .exit | .activity | .writeMarker | .tick _ =>
    inferInstanceAs (Decidable True)

inductive Concludes (job : Job) : List Effect → Prop where
  | blobsFailed : Concludes job blobsFailed
  | createFailed : Concludes job createFailed
  | teardown (state : JobState) : Concludes job (teardown job state)
  | terminate (state : JobState) : Concludes job (terminate ++ teardown job state)

def Silent (todo : List Effect) : Prop := .publishResult ∉ todo

instance (todo : List Effect) : Decidable (Silent todo) := inferInstanceAs (Decidable (¬ _))

variable {s s' : Handler} {a : Act} {job : Job} {log : List Output}

@[simp] theorem lastStatus_append (o : Output) :
    lastStatus (log ++ [o]) = match o with | .status status => status | _ => lastStatus log := by
  rw [lastStatus, List.foldl_append]
  rfl

theorem Concludes.count_result {todo : List Effect} (h : Concludes job todo) :
    todo.count .publishResult = 1 := by
  cases h with
  | blobsFailed | createFailed => rfl
  | teardown state | terminate state =>
    unfold CodeRunner.Worker.teardown
    split <;> rfl

theorem Concludes.writes {todo : List Effect} (h : Concludes job todo) :
    ∃ state, .writeStatus state ∈ todo := by
  cases h with
  | blobsFailed | createFailed => exact ⟨.error, by decide⟩
  | teardown state | terminate state =>
    refine ⟨state, ?_⟩
    simp [CodeRunner.Worker.teardown]

/-- What a step outside the ending leads to: no ending, one that concludes the job, or a silent
one. -/
inductive Arrives (s : Handler) (a : Act) (s' : Handler) : Prop where
  | stays (hg : OpeningSucceeds s a) (hpc : s'.pc.stage ≠ .ending) : Arrives s a s'
  | concludes (todo : List Effect) (hg : OpeningSucceeds s a) (hpc : s'.pc = .ending todo)
      (htodo : Concludes s.job todo) : Arrives s a s'
  | silent (todo : List Effect) (hg : ¬ OpeningSucceeds s a) (hpc : s'.pc = .ending todo)
      (htodo : Silent todo) : Arrives s a s'

theorem openingSucceeds_of_pc (h : s.pc.opening = false) : OpeningSucceeds s a := by
  cases a with
  | call ok =>
    intro hopening
    rw [h] at hopening
    cases hopening
  | _ => trivial

theorem begin_stage (s : Handler) : s.begin.pc.stage = .started := by
  rcases pc_begin s with h | ⟨wallMs, h⟩ <;> rw [h] <;> rfl

theorem create_arrives {ok : Bool} {pc : CreatePc} (hpc : s.pc = .create pc) :
    Arrives s (.call ok) (s.create ok pc) := by
  have hg : OpeningSucceeds s (.call ok) := openingSucceeds_of_pc (hpc ▸ rfl)
  have hfails : Arrives s (.call ok) s.createFails := .concludes _ hg rfl .createFailed
  have hzygote : Arrives s (.call ok) s.zygoteFails := by
    unfold Handler.zygoteFails
    split
    · exact hfails
    · exact .stays hg nofun
  cases ok with
  | true =>
    cases pc with
    | containerRemove => exact hfails
    | _ => exact .stays hg nofun
  | false =>
    cases pc with
    | dial | hello | started => exact hzygote
    | containerCreate => exact hfails
    | copyFiles | attach | containerStart => exact .stays hg nofun
    | containerRemove => exact .concludes _ hg rfl .createFailed

theorem compiled_arrives {since : ℕ} {pc : CompilePc} {ok : Bool}
    (hpc : s.pc = .compile since pc) : Arrives s a (s.compiled since ok) := by
  have hg : OpeningSucceeds s a := openingSucceeds_of_pc (hpc ▸ rfl)
  have hfinish : ∀ (t : Handler) state, t.job = s.job → Arrives s a (t.finish state) :=
    fun t state hjob => .concludes _ hg rfl (hjob ▸ .teardown state)
  unfold Handler.compiled
  dsimp only
  split
  · exact hfinish _ _ rfl
  · split
    · exact hfinish _ _ rfl
    · split
      · exact .stays hg nofun
      · exact hfinish _ _ rfl

theorem step_arrives (h : s.step a = some s') (hs : s.pc.stage ≠ .ending) :
    Arrives s a s' := by
  have hstays : ∀ t : Handler, OpeningSucceeds s a → t.pc = s.pc → Arrives s a t :=
    fun t hg hpc => .stays hg (hpc ▸ hs)
  cases step_branch h with
  | readSpec hpc | subscribe hpc | subscribeControl hpc => exact .stays (fun _ => rfl) nofun
  | readSpecFails hpc | subscribeFails hpc | subscribeControlFails hpc =>
    have hg : ¬ OpeningSucceeds s (.call false) := fun hg => by
      cases hg (by rw [hpc]; rfl)
    exact .silent _ hg rfl (by decide)
  | announceQueued ok hpc | addOwned ok hpc =>
    exact .stays (openingSucceeds_of_pc (hpc ▸ rfl)) nofun
  | resolveBlobs hpc => exact .stays (openingSucceeds_of_pc (hpc ▸ rfl)) nofun
  | resolveBlobsFails hpc =>
    exact .concludes _ (openingSucceeds_of_pc (hpc ▸ rfl)) rfl .blobsFailed
  | create ok pc hpc => exact create_arrives hpc
  | createLost hpc => exact .concludes _ trivial rfl .createFailed
  | startLost hpc => exact .stays trivial nofun
  | durableStart deadline hpc =>
    exact .stays (openingSucceeds_of_pc (hpc ▸ rfl)) (begin_stage _ ▸ nofun)
  | parks ok deadline hpc | announceRunning ok wallMs hpc =>
    exact .stays (openingSucceeds_of_pc (hpc ▸ rfl)) nofun
  | contextDone deadline hpc | warmup deadline hpc | parkedKill deadline rest hpc =>
    exact .concludes _ trivial rfl (.teardown _)
  | parkedStart deadline rest hpc => exact .stays trivial (begin_stage _ ▸ nofun)
  | compileExits since code hpc | compileFails since hpc | touchFails since hpc
  | resumes since wake hpc => exact compiled_arrives hpc
  | compileSucceeds since hpc | touches since hpc => exact .stays trivial nofun
  | waitReturns hpc | wall wall idle hpc | idle wall idle hpc | cpu wall idle usageMs hpc =>
    exact .concludes _ trivial rfl (.terminate _)
  | effect e todo hpc => exact absurd (by rw [hpc]; rfl) hs
  | _ => exact hstays _ trivial rfl

theorem step_of_ending (h : s.step a = some s') (hs : s.pc.stage = .ending) :
    s'.pc = s.pc ∧ s.emits a = [] ∨ ∃ e todo, a = .effect ∧ s.pc = .ending (e :: todo) ∧
      s'.pc = .ending todo ∧ s.emits a = e.emits := by
  obtain ⟨todo, hpc⟩ := Pc.exists_eq_ending hs
  obtain ⟨-, hmove⟩ := step_move h
  by_cases ha : a = .effect
  · subst ha
    cases step_branch h with
    | effect e todo hpc => exact .inr ⟨e, todo, rfl, hpc, rfl, by simp only [Handler.emits, hpc]⟩
  · refine .inl ⟨?_, ?_⟩
    · cases hmove with
      | stays hpc' => exact hpc'.resolve_right fun h => h.2 hs
      | begins h | arms h | terminates _ h => rw [hs] at h; cases h
      | ends _ h => rw [hs] at h; rcases h with h | h <;> cases h
      | effect e todo h => exact absurd h ha
    · cases a with
      | effect => exact absurd rfl ha
      | _ => simp only [Handler.emits, hpc]

def Handler.unpublished (s : Handler) : ℕ :=
  match s.pc with
  | .ending todo => todo.count .publishResult
  | _ => 1

/-- The job has had or is to get its result, and its terminal state once it is ending. -/
structure Owing (r : Recorded Handler Output) : Prop where
  result : r.record.count .result + r.state.unpublished = 1
  status : ∀ todo, r.state.pc = .ending todo →
    (∃ state, .writeStatus state ∈ todo) ∨ ∃ state, lastStatus r.record = .ended state

structure Forsaken (r : Recorded Handler Output) : Prop where
  ending : r.state.pc.stage = .ending
  result : r.record.count .result = 0
  silent : Silent r.state.pc.todo

variable {r r' : Recorded Handler Output}

theorem unpublished_of_stage (h : s.pc.stage ≠ .ending) : s.unpublished = 1 := by
  unfold Handler.unpublished
  split
  · next hpc => exact absurd (by rw [hpc]; rfl) h
  · rfl

theorem unpublished_of_ending {todo : List Effect} (h : s.pc = .ending todo) :
    s.unpublished = todo.count .publishResult := by
  unfold Handler.unpublished
  rw [h]

theorem count_beginEmits (s : Handler) : s.beginEmits.count .result = 0 := by
  unfold Handler.beginEmits
  split <;> rfl

theorem count_emits (h : s.pc.stage ≠ .ending) : (s.emits a).count .result = 0 := by
  unfold Handler.emits
  split
  · rfl
  · split
    · exact count_beginEmits s
    · rfl
  · split
    · exact count_beginEmits s
    · rfl
  · rfl
  · next hpc => exact absurd (by rw [hpc]; rfl) h
  · rfl

theorem Effect.count_emits (e : Effect) (todo : List Effect) :
    e.emits.count .result + todo.count .publishResult = (e :: todo).count .publishResult := by
  rw [List.count_cons, Nat.add_comm]
  cases e <;> rfl

theorem Effect.lastStatus_emits (e : Effect) (log : List Output) :
    (∃ state, e = .writeStatus state ∧ lastStatus (log ++ e.emits) = .ended state) ∨
      (∀ state, e ≠ .writeStatus state) ∧ lastStatus (log ++ e.emits) = lastStatus log := by
  cases e with
  | writeStatus state => exact .inl ⟨state, rfl, lastStatus_append _⟩
  | publishResult => exact .inr ⟨nofun, lastStatus_append _⟩
  | _ => exact .inr ⟨nofun, congrArg lastStatus (List.append_nil log)⟩

theorem step_owing (ho : Owing r) (hg : OpeningSucceeds r.state a)
    (h : recorded Handler.step Handler.emits r a = some r') : Owing r' := by
  obtain ⟨h, hrec⟩ := recorded_eq_some.mp h
  by_cases hs : r.state.pc.stage = .ending
  · rcases step_of_ending h hs with ⟨hpc', hemits⟩ | ⟨e, todo, -, hpc, hpc', hemits⟩
    · rw [hemits, List.append_nil] at hrec
      refine ⟨?_, fun todo hpc => ?_⟩
      · rw [hrec, Handler.unpublished, hpc']
        exact ho.result
      · rw [hrec]
        exact ho.status todo (hpc' ▸ hpc)
    · rw [hemits] at hrec
      refine ⟨?_, fun todo' hpc'' => ?_⟩
      · have hcount := e.count_emits todo
        have hresult := ho.result
        rw [unpublished_of_ending hpc] at hresult
        rw [hrec, unpublished_of_ending hpc', List.count_append]
        omega
      · obtain rfl : todo = todo' := Pc.ending.inj (hpc'.symm.trans hpc'')
        rw [hrec]
        rcases e.lastStatus_emits r.record with ⟨state, -, hlast⟩ | ⟨hne, hlast⟩
        · exact .inr ⟨state, hlast⟩
        · rw [hlast]
          refine (ho.status _ hpc).imp_left fun ⟨state, hmem⟩ => ⟨state, ?_⟩
          exact (List.mem_cons.mp hmem).resolve_left (hne state).symm
  · have hcount : r'.record.count .result = r.record.count .result := by
      rw [hrec, List.count_append, count_emits hs, Nat.add_zero]
    have hresult := ho.result
    rw [unpublished_of_stage hs] at hresult
    cases step_arrives h hs with
    | stays _ hpc' =>
      refine ⟨?_, fun todo hpc => ?_⟩
      · rw [hcount, unpublished_of_stage hpc']
        exact hresult
      · rw [hpc] at hpc'
        exact absurd rfl hpc'
    | concludes todo _ hpc' htodo =>
      refine ⟨?_, fun todo' hpc => ?_⟩
      · rw [hcount, unpublished_of_ending hpc', htodo.count_result]
        exact hresult
      · obtain rfl : todo = todo' := Pc.ending.inj (hpc'.symm.trans hpc)
        exact .inl htodo.writes
    | silent todo hfail => exact absurd hg hfail

theorem step_forsaken_of_fails (ho : Owing r) (hg : ¬ OpeningSucceeds r.state a)
    (h : recorded Handler.step Handler.emits r a = some r') : Forsaken r' := by
  obtain ⟨h, hrec⟩ := recorded_eq_some.mp h
  have hs : r.state.pc.stage ≠ .ending := fun hs => hg (openingSucceeds_of_pc (by
    cases hpc : r.state.pc with
    | ending todo => rfl
    | _ => rw [hpc] at hs; cases hs))
  cases step_arrives h hs with
  | stays hg' | concludes _ hg' => exact absurd hg' hg
  | silent todo _ hpc' htodo =>
    have hresult := ho.result
    rw [unpublished_of_stage hs] at hresult
    refine ⟨by rw [hpc']; rfl, ?_, by rw [hpc']; exact htodo⟩
    rw [hrec, List.count_append, count_emits hs]
    omega

theorem step_forsaken (hf : Forsaken r)
    (h : recorded Handler.step Handler.emits r a = some r') : Forsaken r' := by
  obtain ⟨h, hrec⟩ := recorded_eq_some.mp h
  rcases step_of_ending h hf.ending with ⟨hpc', hemits⟩ | ⟨e, todo, -, hpc, hpc', hemits⟩
  · rw [hemits, List.append_nil] at hrec
    exact ⟨hpc' ▸ hf.ending, hrec ▸ hf.result, hpc' ▸ hf.silent⟩
  · have hsilent : Silent (e :: todo) := by
      have := hf.silent
      rwa [hpc] at this
    have hcount := e.count_emits todo
    have hzero : (e :: todo).count .publishResult = 0 := List.count_eq_zero.mpr hsilent
    refine ⟨by rw [hpc']; rfl, ?_, ?_⟩
    · rw [hrec, hemits, List.count_append, hf.result]
      omega
    · rw [hpc']
      exact fun hmem => hsilent (List.mem_cons_of_mem e hmem)

/-- The steps of the handler and its goroutines that bring it forward. The polls of the CPU
clock, the activity of the program and the expiry of the compile context do not. -/
def Act.advances : Act → Bool
  | .expire | .cpu _ | .activity | .requestStart | .deliver _ | .cancel | .poll | .spawn | .exit
  | .writeMarker | .tick _ => false
  | _ => true

def Act.delivers : Act → Bool
  | .deliver _ => true
  | _ => false

def CreatePc.rank : CreatePc → ℕ
  | .containerRemove => 8
  | .containerStart => 22
  | .attach => 23
  | .copyFiles => 24
  | .containerCreate => 25
  | .started => 26
  | .hello => 27
  | .dial => 28

/-- The statements that are to come at most. An ending has up to fourteen of them. -/
def Pc.rank : Pc → ℕ
  | .ending todo => todo.length
  | .session => 15
  | .announceRunning _ => 16
  | .compile _ (.pausing _) => 17
  | .compile _ .touching => 18
  | .compile _ .running => 19
  | .parked _ => 20
  | .startFlag _ => 21
  | .create pc => pc.rank
  | .addOwned => 29
  | .resolveBlobs => 30
  | .announceQueued => 31
  | .subscribeControl => 32
  | .subscribe => 33
  | .readSpec => 34

/-- A control message may be received twice when the watch gives it back. -/
def Handler.unread (s : Handler) : ℕ :=
  match s.pc with
  | .ending _ => 0
  | .session | .announceRunning _ => s.ctrlCh.length
  | .compile _ _ => 2 * s.ctrlCh.length + s.watch.pending.length
  | _ => 2 * s.ctrlCh.length

def Handler.rank (s : Handler) : ℕ := s.pc.rank + s.unread

theorem rank_congr (hpc : s'.pc = s.pc) (hctrl : s'.ctrlCh = s.ctrlCh)
    (hwatch : s'.watch = s.watch) : s'.rank = s.rank := by
  rw [Handler.rank, Handler.rank, Handler.unread, Handler.unread, hpc, hctrl, hwatch]

theorem length_teardown_le (job : Job) (state : JobState) : (teardown job state).length ≤ 10 := by
  unfold teardown
  split
  · exact Nat.le_refl 10
  · exact (by decide : 8 ≤ 10)

theorem rank_finish_le (s : Handler) (state : JobState) : (s.finish state).rank ≤ 10 :=
  length_teardown_le s.job state

theorem rank_terminates_le (s : Handler) (state : JobState) : (s.terminates state).rank ≤ 14 := by
  have hlen := length_teardown_le s.job state
  change (terminate ++ teardown s.job state).length + 0 ≤ 14
  rw [List.length_append, terminate]
  simp only [List.length_cons, List.length_nil]
  omega

theorem rank_begin_le (s : Handler) : s.begin.rank ≤ 19 + 2 * s.ctrlCh.length := by
  unfold Handler.begin
  split
  · exact Nat.le_of_eq (congrArg (19 + ·) (Nat.add_zero _))
  · change 16 + s.ctrlCh.length ≤ _
    omega

theorem rank_create_lt (s : Handler) (ok : Bool) (pc : CreatePc) :
    (s.create ok pc).rank < pc.rank + 2 * s.ctrlCh.length := by
  have hfails : s.createFails.rank = 7 := rfl
  have hleft : ({ s with pc := .ending createFailed } : Handler).rank = 7 := rfl
  have hremove : ({ s with pc := .create .containerRemove } : Handler).rank =
      8 + 2 * s.ctrlCh.length := rfl
  have hzygote : s.zygoteFails.rank ≤ 25 + 2 * s.ctrlCh.length := by
    unfold Handler.zygoteFails
    split
    · rw [hfails]
      omega
    · exact Nat.le_refl _
  cases ok with
  | true =>
    cases pc with
    | containerRemove =>
      simp only [Handler.create, CreatePc.rank, if_true]
      omega
    | _ =>
      simp only [Handler.create, Handler.created, Handler.rank, Handler.unread, Pc.rank,
        CreatePc.rank, if_true]
      omega
  | false =>
    cases pc <;> simp only [Handler.create, CreatePc.rank, Bool.false_eq_true, if_false] <;> omega

theorem rank_compiled_le (s : Handler) (since : ℕ) (ok : Bool) :
    (s.compiled since ok).rank ≤ 16 + s.ctrlCh.length + s.watch.pending.length := by
  have hfinish : ∀ (t : Handler) state, (t.finish state).rank ≤ 16 + s.ctrlCh.length +
      s.watch.pending.length := fun t state => by
    have hle := rank_finish_le t state
    omega
  unfold Handler.compiled
  dsimp only
  split
  · exact hfinish _ _
  · split
    · exact hfinish _ _
    · split
      · have htake := List.length_take_le' (ctrlCap - s.ctrlCh.length) s.watch.pending
        simp only [Handler.rank, Handler.unread, Pc.rank, List.length_append]
        omega
      · exact hfinish _ _

theorem rank_compile {since : ℕ} {pc : CompilePc} (h : s.pc = .compile since pc) :
    16 + s.ctrlCh.length + s.watch.pending.length < s.rank := by
  cases pc <;> simp only [Handler.rank, Handler.unread, Pc.rank, h] <;> omega

/-- What a step does to the rank: one that brings the handler forward lowers it, and of the others
only a delivered message raises it. -/
def Ranks (s : Handler) (a : Act) (s' : Handler) : Prop :=
  (a.advances = true → s'.rank < s.rank) ∧ s'.rank ≤ s.rank + if a.delivers then 2 else 0

theorem Ranks.of_lt (h : s'.rank < s.rank) : Ranks s a s' :=
  ⟨fun _ => h, Nat.le_trans (Nat.le_of_lt h) (Nat.le_add_right _ _)⟩

theorem Ranks.of_eq (ha : a.advances = false) (h : s'.rank = s.rank) : Ranks s a s' :=
  ⟨fun hadv => absurd (ha.symm.trans hadv) (by decide),
    Nat.le_trans (Nat.le_of_eq h) (Nat.le_add_right _ _)⟩

theorem ranks_deliver (msg : Control) : Ranks s (.deliver msg)
    { s with ctrlCh := if s.ctrlCh.length < ctrlCap then s.ctrlCh ++ [msg] else s.ctrlCh } := by
  have hlen : (if s.ctrlCh.length < ctrlCap then s.ctrlCh ++ [msg] else s.ctrlCh).length ≤
      s.ctrlCh.length + 1 := by
    split
    · exact Nat.le_of_eq List.length_append
    · exact Nat.le_succ _
  refine ⟨nofun, ?_⟩
  simp only [Handler.rank, Handler.unread, Act.delivers, if_true]
  split <;> omega

theorem rank_terminates_lt (hpc : s.pc = .session) (state : JobState) :
    (s.terminates state).rank < s.rank := by
  have hle := rank_terminates_le s state
  simp only [Handler.rank, hpc, Pc.rank] at hle ⊢
  omega

theorem rank_finish_lt {deadline : ℕ} (hpc : s.pc = .parked deadline) (t : Handler)
    (state : JobState) : (t.finish state).rank < s.rank := by
  refine Nat.lt_of_le_of_lt (rank_finish_le t state) ?_
  simp only [Handler.rank, hpc, Pc.rank]
  omega

theorem rank_parked_lt {deadline : ℕ} {msg : Control} {rest : List Control}
    (hpc : s.pc = .parked deadline) (hctrl : s.ctrlCh = msg :: rest) :
    ({ s with ctrlCh := rest } : Handler).rank < s.rank ∧
      ({ s with ctrlCh := rest } : Handler).begin.rank < s.rank := by
  have hbegin := rank_begin_le { s with ctrlCh := rest }
  simp only [Handler.rank, Handler.unread, hpc, hctrl, Pc.rank, List.length_cons] at hbegin ⊢
  omega

theorem rank_watch_lt {since : ℕ} {pc : CompilePc} {msg : Control} {rest : List Control}
    (hpc : s.pc = .compile since pc) (hctrl : s.ctrlCh = msg :: rest) (watch : Watch)
    (hpending : watch.pending.length ≤ s.watch.pending.length + 1) :
    ({ s with ctrlCh := rest, watch := watch } : Handler).rank < s.rank := by
  simp only [Handler.rank, Handler.unread, hpc, hctrl, List.length_cons]
  omega

theorem rank_pump_lt {msg : Control} {rest : List Control} (hpc : s.pc = .session)
    (hctrl : s.ctrlCh = msg :: rest) :
    ({ s with ctrlCh := rest } : Handler).rank < s.rank := by
  simp only [Handler.rank, Handler.unread, hpc, hctrl, List.length_cons]
  omega

theorem step_rank (h : s.step a = some s') : Ranks s a s' := by
  cases step_branch h with
  | readSpec hpc | readSpecFails hpc | subscribe hpc | subscribeFails hpc | subscribeControl hpc
  | subscribeControlFails hpc | resolveBlobs hpc | resolveBlobsFails hpc =>
    refine .of_lt ?_
    simp only [Handler.rank, Handler.unread, hpc, Pc.rank, List.length_cons, List.length_nil,
      blobsFailed]
    omega
  | announceQueued ok hpc | parks ok deadline hpc =>
    refine .of_lt ?_
    simp only [Handler.rank, Handler.unread, hpc, Pc.rank]
    omega
  | addOwned ok hpc =>
    refine .of_lt ?_
    simp only [Handler.rank, Handler.unread, hpc, Pc.rank]
    split <;> simp only [CreatePc.rank] <;> omega
  | create ok pc hpc =>
    refine .of_lt (Nat.lt_of_lt_of_eq (rank_create_lt s ok pc) ?_)
    simp only [Handler.rank, Handler.unread, hpc, Pc.rank]
  | createLost hpc | startLost hpc =>
    refine .of_lt ?_
    simp only [Handler.rank, Handler.unread, hpc, Pc.rank, CreatePc.rank, createFailed,
      List.length_cons, List.length_nil]
    omega
  | durableStart deadline hpc =>
    refine .of_lt (Nat.lt_of_le_of_lt (rank_begin_le s) ?_)
    simp only [Handler.rank, Handler.unread, hpc, Pc.rank]
    omega
  | announceRunning ok wallMs hpc =>
    refine .of_lt ?_
    simp only [Handler.rank, Handler.unread, Handler.arm, hpc, Pc.rank]
    omega
  | contextDone deadline hpc | warmup deadline hpc => exact .of_lt (rank_finish_lt hpc _ _)
  | parkedKill deadline rest hpc hctrl => exact .of_lt (rank_finish_lt hpc _ _)
  | parkedStart deadline rest hpc hctrl => exact .of_lt (rank_parked_lt hpc hctrl).2
  | parkedClose deadline rest hpc hctrl => exact .of_lt (rank_parked_lt hpc hctrl).1
  | watchKill since pc rest hpc hctrl =>
    exact .of_lt (rank_watch_lt hpc hctrl { s.watch with killed := true } (Nat.le_succ _))
  | watchHold since pc msg rest hpc hctrl =>
    exact .of_lt (rank_watch_lt hpc hctrl _ (Nat.le_of_eq List.length_append))
  | compileSucceeds since hpc | touches since hpc =>
    refine .of_lt ?_
    simp only [Handler.rank, Handler.unread, hpc, Pc.rank]
    omega
  | compileExits since code hpc | compileFails since hpc | touchFails since hpc
  | resumes since wake hpc =>
    exact .of_lt (Nat.lt_of_le_of_lt (rank_compiled_le _ _ _) (rank_compile hpc))
  | pumpKill rest hpc hctrl | pumpSkip msg rest hpc hctrl => exact .of_lt (rank_pump_lt hpc hctrl)
  | waitReturns hpc | wall wall idle hpc | idle wall idle hpc | cpu wall idle usageMs hpc =>
    exact .of_lt (rank_terminates_lt hpc _)
  | effect e todo hpc =>
    refine .of_lt ?_
    simp only [Handler.rank, Handler.unread, hpc, Pc.rank, List.length_cons]
    omega
  | deliver msg => exact ranks_deliver msg
  | expire | cpuPolls | activity | requestStart | cancel | poll | spawn | exit | writeMarker
  | tick => exact .of_eq rfl (rank_congr rfl rfl rfl)

def SessionArmed (s : Handler) : Prop := s.pc.stage = .session → s.clocks.isArmed = true

theorem step_sessionArmed (hs : SessionArmed s) (h : s.step a = some s') : SessionArmed s' := by
  obtain ⟨-, hmove⟩ := step_move h
  intro hstage'
  cases hmove with
  | stays hpc hclocks =>
    have hstage : s.pc.stage = .session := by
      rw [← hstage']
      exact hpc.elim (fun h => congrArg Pc.stage h.symm) fun h => h.1.symm
    exact hclocks.elim (fun hc => hc ▸ hs hstage) And.right
  | begins _ hpc' => rw [hpc'] at hstage'; cases hstage'
  | arms _ _ hclocks => exact hclocks
  | ends _ _ hpc' | terminates _ _ hpc' | effect _ _ _ _ hpc' => rw [hpc'] at hstage'; cases hstage'

theorem sessionArmed_of_reachable (hr : Reachable Handler.step (.start job) s) :
    SessionArmed s :=
  hr.invariant (fun _ _ _ => step_sessionArmed) fun h => by cases h

/-- Some time from here a step brings the handler forward. -/
def CanAdvance (s : Handler) : Prop :=
  ∃ ms a, a.advances = true ∧ (run Handler.step s [.tick ms, a]).isSome = true

theorem canAdvance (harmed : SessionArmed s) (hend : ¬ s.Ended) : CanAdvance s := by
  cases hpc : s.pc with
  | readSpec | subscribe | subscribeControl | announceQueued | resolveBlobs | addOwned
  | create pc | announceRunning wallMs =>
    refine ⟨0, .call true, rfl, ?_⟩
    simp [run, Handler.step, Handler.environment, Handler.call, hpc]
  | startFlag deadline =>
    refine ⟨0, .call false, rfl, ?_⟩
    simp [run, Handler.step, Handler.environment, Handler.call, hpc]
  | parked deadline =>
    refine ⟨deadline, .warmup, rfl, ?_⟩
    simp [run, Handler.step, Handler.environment, Handler.park, hpc]
  | compile since pc =>
    cases pc with
    | running =>
      refine ⟨0, .compileFails, rfl, ?_⟩
      simp [run, Handler.step, Handler.environment, Handler.compile, hpc]
    | touching =>
      refine ⟨0, .touch true, rfl, ?_⟩
      simp [run, Handler.step, Handler.environment, Handler.compile, hpc]
    | pausing wake =>
      refine ⟨wake, .resume, rfl, ?_⟩
      simp [run, Handler.step, Handler.environment, Handler.compile, hpc]
  | session =>
    obtain ⟨wall, idle, hclocks⟩ : ∃ wall idle, s.clocks = .armed wall idle := by
      have harm : s.clocks.isArmed = true := harmed (by rw [hpc]; rfl)
      cases hclocks : s.clocks with
      | armed wall idle => exact ⟨wall, idle, rfl⟩
      | unarmed | stopped => rw [hclocks] at harm; cases harm
    refine ⟨wall, .wall, rfl, ?_⟩
    simp [run, Handler.step, Handler.environment, Handler.session, hpc, hclocks]
  | ending todo =>
    cases todo with
    | nil => exact absurd hpc hend
    | cons e todo =>
      refine ⟨0, .effect, rfl, ?_⟩
      simp [run, Handler.step, Handler.environment, Handler.effect, hpc]

theorem countP_advances_le {as : List Act} (hr : run Handler.step (.start job) as = some s) :
    as.countP Act.advances ≤ 34 + 2 * as.countP Act.delivers := by
  have hrank : (Handler.start job).rank = 34 := rfl
  have hle := countP_le_of_measure (P := Act.advances) (Q := Act.delivers) (k := 2)
    (fun _ _ _ ha h => (step_rank h).1 ha) (fun _ _ _ _ h => (step_rank h).2) hr
  omega

theorem oneOutcome_of_latch {as : List Act}
    (hr : run (recorded Handler.step Handler.emits) (claimed job) as = some r)
    (hend : r.state.Ended) :
    OneOutcome r.record ↔ EveryStep (recorded Handler.step Handler.emits)
      (fun r a => OpeningSucceeds r.state a) (claimed job) as := by
  have hstart : Owing (claimed job) := ⟨rfl, nofun⟩
  rcases everyStep_or_of_latch (G := fun r a => OpeningSucceeds r.state a)
      (fun _ _ _ => step_owing) (fun _ _ _ => step_forsaken_of_fails)
      (fun _ _ _ => step_forsaken) hstart hr with ⟨hall, ho⟩ | ⟨hnot, hf⟩
  · refine ⟨fun _ => hall, fun _ => ⟨?_, ?_⟩⟩
    · have hresult := ho.result
      rwa [unpublished_of_ending hend] at hresult
    · exact (ho.status [] hend).resolve_left fun ⟨state, hmem⟩ => List.not_mem_nil hmem
  · refine ⟨fun hone => ?_, fun hall => absurd hall hnot⟩
    have hresult := hone.result
    rw [hf.result] at hresult
    cases hresult

/-- Every run brings the handler forward a bounded number of times and can do so until it has
returned; by then its job has got one outcome exactly when the calls before the announcement
have succeeded. -/
theorem oneOutcome_iff_openingSucceeds {as : List Act}
    (hr : run (recorded Handler.step Handler.emits) (claimed job) as = some r) :
    as.countP Act.advances ≤ 34 + 2 * as.countP Act.delivers ∧
      (¬ r.state.Ended → CanAdvance r.state) ∧
      (r.state.Ended → (OneOutcome r.record ↔
        EveryStep (recorded Handler.step Handler.emits)
          (fun r a => OpeningSucceeds r.state a) (claimed job) as)) := by
  have hrun : run Handler.step (.start job) as = some r.state := run_of_recorded hr
  refine ⟨countP_advances_le hrun, fun hend => ?_, fun hend => oneOutcome_of_latch hr hend⟩
  exact canAdvance (sessionArmed_of_reachable ⟨as, hrun⟩) hend

def unreadable : List Act := [.call false, .effect]

theorem not_always_oneOutcome :
    ¬ ∀ (job : Job) (r : Recorded Handler Output) (as : List Act),
      run (recorded Handler.step Handler.emits) (claimed job) as = some r → r.state.Ended →
        OneOutcome r.record := by
  intro hall
  obtain ⟨r, hr, hend, hlog⟩ : ∃ r, run (recorded Handler.step Handler.emits) (claimed script)
      unreadable = some r ∧ r.state.Ended ∧ r.record = [] := ⟨_, rfl, rfl, rfl⟩
  have hresult := (hall script r unreadable hr hend).result
  rw [hlog] at hresult
  cases hresult

/-- A job that is killed while it is parked, to the end of its teardown. -/
def killWhileParked : List Act :=
  toCreate ++ dockerCreate ++ [Act.call false, .deliver .kill, .receive] ++
    List.replicate 8 Act.effect

theorem killWhileParked_oneOutcome :
    ∃ r, run (recorded Handler.step Handler.emits) (claimed script) killWhileParked = some r ∧
      r.state.Ended ∧ OneOutcome r.record := by
  obtain ⟨r, hr, hend⟩ : ∃ r, run (recorded Handler.step Handler.emits) (claimed script)
      killWhileParked = some r ∧ r.state.Ended := ⟨_, rfl, rfl⟩
  exact ⟨r, hr, hend, ((oneOutcome_iff_openingSucceeds hr).2.2 hend).mpr (by decide)⟩

end CodeRunner.Worker
