import Mathlib.Data.List.Induction
import Mathlib.Data.List.Nodup
import CodeRunner.Lib.Tally
import CodeRunner.Worker.Window

/-! # Slots and sandboxes

The claim loop takes a slot for every job it claims and the handler of the job gives it
back. Slots are conserved, and as long as no sandbox is made beside one whose job has
already given its slot back, there are never more sandboxes than slots.
-/

namespace CodeRunner.Worker

open Tally Transition

inductive LoopPc | acquiring | claiming | stopped
  deriving DecidableEq, Repr

/-- The free slots are the length of the channel, and the jobs stand in claim order. -/
structure Node where
  free : ℕ
  loop : LoopPc
  jobs : List Handler

def Node.start (maxSandboxes : ℕ) : Node := ⟨maxSandboxes, .acquiring, []⟩

/-- `claim none` is a timeout or an error of `Claim`, after which the loop puts its slot
back. -/
inductive NodeAct where
  | acquire
  | claim (job : Option Job)
  | stop
  | job (i : ℕ) (a : Act)

def Handler.releases (s : Handler) (a : Act) : Bool :=
  decide (a = .effect ∧ s.pc.todo.head? = some .releaseSlot)

def Node.putSlot (maxSandboxes : ℕ) (w : Node) : Option Node :=
  if w.free < maxSandboxes then some { w with free := w.free + 1 } else none

def Node.step (maxSandboxes : ℕ) (w : Node) : NodeAct → Option Node
  | .acquire =>
    if w.loop = .acquiring ∧ 0 < w.free then
      some { w with free := w.free - 1, loop := .claiming }
    else none
  | .claim (some job) =>
    if w.loop = .claiming then
      some { w with loop := .acquiring, jobs := w.jobs ++ [Handler.start job] }
    else none
  | .claim none =>
    if w.loop = .claiming then Node.putSlot maxSandboxes { w with loop := .acquiring }
    else none
  | .stop => if w.loop = .acquiring then some { w with loop := .stopped } else none
  | .job i a =>
    match w.jobs[i]? with
    | none => none
    | some s =>
      match s.step a with
      | none => none
      | some s' =>
        if s.releases a then Node.putSlot maxSandboxes { w with jobs := w.jobs.set i s' }
        else some { w with jobs := w.jobs.set i s' }

def Node.sandboxes (w : Node) : ℕ := w.jobs.countP (·.sandbox.live)

def Node.Bounded (maxSandboxes : ℕ) (w : Node) : Prop := w.sandboxes ≤ maxSandboxes

instance (m : ℕ) (w : Node) : Decidable (w.Bounded m) := inferInstanceAs (Decidable (_ ≤ _))

def Handler.owed (s : Handler) : ℕ :=
  match s.pc with
  | .ending todo => todo.count .releaseSlot
  | _ => 1

/-- A job that has given its slot back but not cleaned up its sandbox. -/
def Handler.Lingers (s : Handler) : Prop := s.sandbox.live = true ∧ s.owed = 0

instance (s : Handler) : Decidable s.Lingers := inferInstanceAs (Decidable (_ ∧ _))

/-- `Create` makes a sandbox only while no other job lingers. -/
def BuildsAlone (w : Node) : NodeAct → Prop
  | .job i a => ∀ s ∈ w.jobs[i]?, Builds s a → ∀ j ∈ w.jobs, ¬ j.Lingers
  | _ => True

instance (s : Handler) : ∀ a, Decidable (Builds s a)
  | .call _ => inferInstanceAs (Decidable (_ ∧ _))
  | .lost => inferInstanceAs (Decidable (_ = _))
  | .contextDone | .warmup | .receive | .watch | .expire | .compileExit _ | .compileFails
  | .touch _ | .resume | .pump | .waitReturns | .wall | .idle | .cpu _ | .effect
  | .requestStart | .deliver _ | .cancel | .poll | .spawn | .exit | .activity | .writeMarker
  | .tick _ => isFalse id

instance (w : Node) : ∀ a, Decidable (BuildsAlone w a)
  | .job i a =>
    inferInstanceAs (Decidable (∀ s ∈ w.jobs[i]?, Builds s a → ∀ j ∈ w.jobs, ¬ j.Lingers))
  | .acquire | .claim _ | .stop => isTrue trivial

/-- The slot the claim loop holds. -/
def LoopPc.held : LoopPc → ℕ
  | .claiming => 1
  | _ => 0

def Node.Conserved (maxSandboxes : ℕ) (w : Node) : Prop :=
  w.free + w.loop.held + tally Handler.owed w.jobs = maxSandboxes

variable {m : ℕ} {w w' : Node} {wa : NodeAct} {s s' : Handler} {a : Act}

theorem owed_of_stage (h : s.pc.stage ≠ .ending) : s.owed = 1 := by
  unfold Handler.owed
  split
  · next hpc => exact absurd (by rw [hpc]; rfl) h
  · rfl

theorem owed_of_stage_eq {k : Stage} (h : s.pc.stage = k) (hk : k ≠ .ending) : s.owed = 1 :=
  owed_of_stage (h ▸ hk)

theorem owed_of_ending {todo : List Effect} (h : s.pc = .ending todo) :
    s.owed = todo.count .releaseSlot := by
  unfold Handler.owed
  rw [h]

theorem releases_eq_false (ha : a ≠ .effect) : s.releases a = false := by
  simp [Handler.releases, ha]

theorem step_owed (h : s.step a = some s') : s'.owed + (s.releases a).toNat = s.owed := by
  obtain ⟨-, hmove⟩ := step_move h
  by_cases ha : a = .effect
  · subst ha
    obtain ⟨e, todo, hpc, hpc'⟩ : ∃ e todo, s.pc = .ending (e :: todo) ∧ s'.pc = .ending todo := by
      simp only [Handler.step, Handler.effect] at h
      split at h
      · next e todo hpc =>
        obtain rfl := Option.some.inj h
        exact ⟨e, todo, hpc, rfl⟩
      · cases h
    rw [owed_of_ending hpc', owed_of_ending hpc, List.count_cons]
    by_cases he : e = .releaseSlot <;> simp [Handler.releases, hpc, Pc.todo, he]
  · rw [releases_eq_false ha, Bool.toNat_false, Nat.add_zero]
    cases hmove with
    | stays hpc hclocks =>
      rcases hpc with hpc | ⟨hstage, hend⟩
      · unfold Handler.owed
        rw [hpc]
      · rw [owed_of_stage (hstage ▸ hend), owed_of_stage hend]
    | begins hpc hpc' | arms hpc hpc' =>
      rw [owed_of_stage_eq hpc' (by decide), owed_of_stage_eq hpc (by decide)]
    | ends todo hpc hpc' hslot =>
      rw [owed_of_ending hpc', hslot]
      rcases hpc with hpc | hpc <;> exact (owed_of_stage_eq hpc (by decide)).symm
    | terminates state hpc hpc' =>
      rw [owed_of_ending hpc', List.count_append, count_teardown,
        owed_of_stage_eq hpc (by decide)]
      rfl
    | effect e todo he => exact absurd he ha

theorem job_cases {i : ℕ} (h : w.step m (.job i a) = some w') :
    ∃ s s', w.jobs[i]? = some s ∧ s.step a = some s' ∧
      w' = ⟨w.free + (s.releases a).toNat, w.loop, w.jobs.set i s'⟩ := by
  simp only [Node.step] at h
  split at h
  · cases h
  · next s hi =>
    split at h
    · cases h
    · next s' hs =>
      refine ⟨s, s', hi, hs, ?_⟩
      split at h
      · next hr =>
        simp only [Node.putSlot, Option.ite_none_right_eq_some, Option.some.injEq] at h
        rw [hr]
        exact h.2.symm
      · next hr =>
        rw [Bool.not_eq_true] at hr
        rw [hr]
        exact (Option.some.inj h).symm

/-- What a step does to the jobs: nothing, or it claims one, or one of them takes a step. -/
theorem jobs_cases (h : w.step m wa = some w') :
    w'.jobs = w.jobs ∨ (∃ job, w'.jobs = w.jobs ++ [.start job]) ∨
      ∃ i a s s', wa = .job i a ∧ w.jobs[i]? = some s ∧ s.step a = some s' ∧
        w'.jobs = w.jobs.set i s' := by
  cases wa with
  | acquire =>
    simp only [Node.step, Option.ite_none_right_eq_some, Option.some.injEq] at h
    obtain ⟨-, rfl⟩ := h
    exact .inl rfl
  | claim job =>
    cases job with
    | some job =>
      simp only [Node.step, Option.ite_none_right_eq_some, Option.some.injEq] at h
      obtain ⟨-, rfl⟩ := h
      exact .inr (.inl ⟨job, rfl⟩)
    | none =>
      simp only [Node.step, Node.putSlot, Option.ite_none_right_eq_some, Option.some.injEq] at h
      obtain ⟨-, -, rfl⟩ := h
      exact .inl rfl
  | stop =>
    simp only [Node.step, Option.ite_none_right_eq_some, Option.some.injEq] at h
    obtain ⟨-, rfl⟩ := h
    exact .inl rfl
  | job i a =>
    obtain ⟨s, s', hi, hs, rfl⟩ := job_cases h
    exact .inr (.inr ⟨i, a, s, s', rfl, hi, hs, rfl⟩)

theorem step_conserved (hw : w.Conserved m) (h : w.step m wa = some w') : w'.Conserved m := by
  cases wa with
  | acquire =>
    simp only [Node.step, Option.ite_none_right_eq_some, Option.some.injEq] at h
    obtain ⟨⟨hloop, hfree⟩, rfl⟩ := h
    simp only [Node.Conserved, hloop, LoopPc.held] at hw ⊢
    omega
  | claim job =>
    cases job with
    | some job =>
      simp only [Node.step, Option.ite_none_right_eq_some, Option.some.injEq] at h
      obtain ⟨hloop, rfl⟩ := h
      have hone : (Handler.start job).owed = 1 := rfl
      simp only [Node.Conserved, hloop, LoopPc.held, tally_append_singleton] at hw ⊢
      omega
    | none =>
      simp only [Node.step, Node.putSlot, Option.ite_none_right_eq_some, Option.some.injEq] at h
      obtain ⟨hloop, hfree, rfl⟩ := h
      simp only [Node.Conserved, hloop, LoopPc.held] at hw ⊢
      omega
  | stop =>
    simp only [Node.step, Option.ite_none_right_eq_some, Option.some.injEq] at h
    obtain ⟨hloop, rfl⟩ := h
    simp only [Node.Conserved, hloop, LoopPc.held] at hw ⊢
    omega
  | job i a =>
    obtain ⟨s, s', hi, hs, rfl⟩ := job_cases h
    have howed : s'.owed + (s.releases a).toNat = s.owed := step_owed hs
    have hset : tally Handler.owed (w.jobs.set i s') + s.owed =
        tally Handler.owed w.jobs + s'.owed := tally_set hi
    simp only [Node.Conserved] at hw ⊢
    omega

theorem Node.Conserved.tally_le (hw : w.Conserved m) : tally Handler.owed w.jobs ≤ m := by
  unfold Node.Conserved at hw
  omega

theorem bounded_of_backed (hw : w.Conserved m) (hback : ∀ j ∈ w.jobs, ¬ j.Lingers) :
    w.Bounded m := by
  refine Nat.le_trans (countP_le_tally fun j hj hlive => ?_) hw.tally_le
  exact Nat.pos_of_ne_zero fun howed => hback j hj ⟨hlive, howed⟩

theorem Builds.stage (hb : Builds s a) : s.pc.stage = .setup := by
  cases a with
  | call ok => rcases hb.2 with hpc | hpc <;> rw [hpc] <;> rfl
  | lost =>
    have hpc : s.pc = .create .containerCreate := hb
    rw [hpc]
    rfl
  | _ => exact hb.elim

theorem Builds.owed (hb : Builds s a) (h : s.step a = some s') : s'.owed = 1 := by
  have hne : a ≠ .effect := by
    rintro rfl
    exact hb.elim
  have howed := step_owed h
  rw [releases_eq_false hne, owed_of_stage_eq hb.stage (by decide)] at howed
  exact howed

theorem step_bounded (hw : w.Conserved m) (hb : w.Bounded m) (hg : BuildsAlone w wa)
    (h : w.step m wa = some w') : w'.Bounded m := by
  rcases jobs_cases h with hjobs | ⟨job, hjobs⟩ | ⟨i, a, s, s', rfl, hi, hs, hjobs⟩
  · unfold Node.Bounded Node.sandboxes
    rw [hjobs]
    exact hb
  · unfold Node.Bounded Node.sandboxes
    rw [hjobs, List.countP_append]
    exact hb
  · by_cases hbuild : Builds s a
    · refine bounded_of_backed (step_conserved hw h) fun j hj => ?_
      rw [hjobs] at hj
      rcases List.mem_or_eq_of_mem_set hj with hj | rfl
      · exact hg s hi hbuild j hj
      · rintro ⟨-, howed⟩
        rw [hbuild.owed hs] at howed
        cases howed
    · unfold Node.Bounded Node.sandboxes
      rw [hjobs]
      refine Nat.le_trans (countP_set_le hi fun hlive => ?_) hb
      exact ((step_move hs).1.sandbox hlive).resolve_right hbuild

theorem start_conserved : (Node.start m).Conserved m := rfl

theorem start_bounded : (Node.start m).Bounded m := Nat.zero_le m

theorem conserved_of_run {as : List NodeAct} (hr : run (Node.step m) (.start m) as = some w) :
    w.Conserved m :=
  Reachable.invariant (fun _ _ _ => step_conserved) start_conserved ⟨as, hr⟩

/-- In the ending of a session the sandbox is cleaned up before the slot goes back. -/
def CleansFirst (s : Handler) : Prop :=
  s.pc.stage = .ending → s.clocks = .unarmed ∧ .stopClocks ∉ s.pc.todo ∨
    s.sandbox.live = false ∨ ∃ pre post, s.pc.todo = pre ++ .cleanup :: post ∧ .releaseSlot ∈ post

theorem step_dead (h : s.step a = some s') (hend : s.pc.stage = .ending)
    (hlive : s.sandbox.live = false) : s'.sandbox.live = false := by
  rw [← Bool.not_eq_true]
  intro hlive'
  rcases (step_move h).1.sandbox hlive' with h | h
  · rw [hlive] at h
    cases h
  · rw [h.stage] at hend
    cases hend

theorem step_cleansFirst (ho : Ordered s) (hs : CleansFirst s) (h : s.step a = some s') :
    CleansFirst s' := by
  obtain ⟨-, hmove⟩ := step_move h
  intro hend'
  cases hmove with
  | stays hpc hclocks =>
    have hstage : s'.pc.stage = s.pc.stage := hpc.elim (congrArg Pc.stage) And.left
    have hend : s.pc.stage = .ending := hstage ▸ hend'
    have hpc : s'.pc = s.pc := hpc.resolve_right fun h => h.2 hend
    rcases hs hend with ⟨hc, hstop⟩ | hlive | htodo
    · rcases hclocks with hc' | ⟨harmed, -⟩
      · exact .inl ⟨hc'.trans hc, hpc ▸ hstop⟩
      · rw [hc] at harmed
        cases harmed
    · exact .inr (.inl (step_dead h hend hlive))
    · exact .inr (.inr (hpc ▸ htodo))
  | begins _ hpc' | arms _ hpc' =>
    rw [hpc'] at hend'
    cases hend'
  | ends todo hpc hpc' _ hstop hclocks =>
    exact .inl ⟨hclocks.trans (ho.unarmed hpc), hpc' ▸ hstop⟩
  | terminates state hpc hpc' =>
    refine .inr (.inr ⟨[.captureArtifacts, .kill], .stopClocks :: teardown s.job state, ?_, ?_⟩)
    · rw [hpc']
      rfl
    · exact List.mem_cons_of_mem _ (List.count_pos_iff.mp (by rw [count_teardown]; decide))
  | effect e todo ha hpc hpc' hclocks _ hclean =>
    have hend : s.pc.stage = .ending := by rw [hpc]; rfl
    have htodo : s.pc.todo = e :: todo := by rw [hpc]; rfl
    have htodo' : s'.pc.todo = todo := by rw [hpc']; rfl
    rcases hs hend with ⟨hc, hstop⟩ | hlive | ⟨pre, post, hpre, hslot⟩
    · rw [htodo, List.mem_cons, not_or] at hstop
      rw [if_neg (Ne.symm hstop.1)] at hclocks
      exact .inl ⟨hclocks.trans hc, htodo' ▸ hstop.2⟩
    · exact .inr (.inl (step_dead h hend hlive))
    · rw [htodo] at hpre
      cases pre with
      | nil =>
        obtain ⟨rfl, -⟩ := List.cons.inj hpre
        exact .inr (.inl (by rw [hclean rfl]; rfl))
      | cons e' pre =>
        obtain ⟨-, hrest⟩ := List.cons.inj hpre
        exact .inr (.inr ⟨pre, post, htodo'.trans hrest, hslot⟩)

theorem Handler.Lingers.unarmed {job : Job} (hr : Reachable Handler.step (.start job) s)
    (hl : s.Lingers) : s.clocks = .unarmed := by
  have hinv : Ordered s ∧ CleansFirst s :=
    hr.invariant (I := fun s => Ordered s ∧ CleansFirst s)
      (fun s a s' hs h => ⟨step_ordered hs.1 h, step_cleansFirst hs.1 hs.2 h⟩)
      ⟨start_ordered job, fun h => by cases h⟩
  have hend : s.pc.stage = .ending := by
    by_contra hne
    have howed := hl.2
    rw [owed_of_stage hne] at howed
    cases howed
  rcases hinv.2 hend with ⟨hc, -⟩ | hlive | ⟨pre, post, htodo, hslot⟩
  · exact hc
  · rw [hl.1] at hlive
    cases hlive
  · have hpos : 0 < s.pc.todo.count .releaseSlot := by
      rw [htodo, List.count_pos_iff]
      exact List.mem_append_right _ (List.mem_cons_of_mem _ hslot)
    have howed : s.owed = s.pc.todo.count .releaseSlot := by
      cases hpc : s.pc with
      | ending todo => exact owed_of_ending hpc
      | _ => rw [hpc] at hend; cases hend
    rw [← howed, hl.2] at hpos
    cases hpos

theorem job_reachable {as : List NodeAct} (hr : run (Node.step m) (.start m) as = some w) :
    ∀ s ∈ w.jobs, ∃ job, Reachable Handler.step (.start job) s := by
  refine Reachable.invariant
    (I := fun w : Node => ∀ s ∈ w.jobs, ∃ job, Reachable Handler.step (.start job) s)
    (fun w wa w' hw h => ?_) (fun s hs => by cases hs) ⟨as, hr⟩
  intro j hj
  rcases jobs_cases h with hjobs | ⟨job, hjobs⟩ | ⟨i, a, s, s', -, hi, hs, hjobs⟩
  · exact hw j (hjobs ▸ hj)
  · rw [hjobs, List.mem_append, List.mem_singleton] at hj
    rcases hj with hj | rfl
    · exact hw j hj
    · exact ⟨job, .refl⟩
  · rw [hjobs] at hj
    rcases List.mem_or_eq_of_mem_set hj with hj | rfl
    · exact hw j hj
    · obtain ⟨job, hreach⟩ := hw s (List.mem_of_getElem? hi)
      exact ⟨job, hreach.tail hs⟩

/-- A sandbox without a slot belongs to a job that was torn down before its session. -/
theorem lingering_unarmed {as : List NodeAct} (hr : run (Node.step m) (.start m) as = some w)
    (hs : s ∈ w.jobs) (hl : s.Lingers) : s.clocks = .unarmed := by
  obtain ⟨job, hreach⟩ := job_reachable hr s hs
  exact hl.unarmed hreach

/-- A job that is killed while it is parked, up to the first statement of its teardown. -/
def parkAndKill : List Act := toCreate ++ dockerCreate ++ [.call false, .deliver .kill, .receive]

/-- The first job gives its slot back, and the second has its container made before the first
has been cleaned up. -/
def overlapping : List NodeAct :=
  [.acquire, .claim (some script)] ++
    (parkAndKill ++ List.replicate 4 Act.effect).map (.job 0) ++
    [.acquire, .claim (some script)] ++ (toCreate ++ [Act.call true]).map (.job 1)

theorem overlapping_sandboxes :
    (run (Node.step 1) (.start 1) overlapping).map (·.sandboxes) = some 2 := rfl

/-- The same jobs when the first is cleaned up in time. -/
def succeeding : List NodeAct :=
  [.acquire, .claim (some script)] ++
    (parkAndKill ++ List.replicate 8 Act.effect).map (.job 0) ++
    [.acquire, .claim (some script)] ++ (toCreate ++ dockerCreate).map (.job 1)

/-- The job that puts its slot back in a step. -/
def Node.putBack (w : Node) : NodeAct → List ℕ
  | .job i a =>
    match w.jobs[i]? with
    | some s => if s.releases a then [i] else []
    | none => []
  | .acquire | .claim _ | .stop => []

/-- The claimed jobs that do not stand in the record of those that have put their slot back. -/
def unreleased (r : Recorded Node ℕ) : ℕ :=
  (List.range r.state.jobs.length).countP fun i => decide (i ∉ r.record)

/-- A slot is owed by the jobs that are not in the record, and by no other. -/
structure Settled (m : ℕ) (r : Recorded Node ℕ) : Prop where
  conserved : r.state.Conserved m
  owed : ∀ i s, r.state.jobs[i]? = some s → r.record.count i + s.owed = 1
  claimed : ∀ i ∈ r.record, i < r.state.jobs.length

variable {r r' : Recorded Node ℕ}

theorem Settled.of_claims (hr : Settled m r) (hcons : r'.state.Conserved m)
    (hrec : r'.record = r.record) (hjobs : r'.state.jobs = r.state.jobs ∨
      ∃ job, r'.state.jobs = r.state.jobs ++ [Handler.start job]) : Settled m r' where
  conserved := hcons
  owed i s hi := by
    rw [hrec]
    rcases hjobs with hjobs | ⟨job, hjobs⟩
    · exact hr.owed i s (hjobs ▸ hi)
    · rw [hjobs] at hi
      by_cases hlt : i < r.state.jobs.length
      · rw [List.getElem?_append_left hlt] at hi
        exact hr.owed i s hi
      · have hnone : r.record.count i = 0 :=
          List.count_eq_zero.mpr fun hmem => hlt (hr.claimed i hmem)
        have hs := List.mem_of_getElem? hi
        rw [List.getElem?_append_right (Nat.le_of_not_lt hlt)] at hi
        obtain rfl := List.mem_singleton.mp (List.mem_of_getElem? hi)
        rw [hnone]
        rfl
  claimed i hi := by
    have hlt := hr.claimed i (hrec ▸ hi)
    rcases hjobs with hjobs | ⟨job, hjobs⟩
    · rwa [hjobs]
    · rw [hjobs, List.length_append]
      exact Nat.lt_of_lt_of_le hlt (Nat.le_add_right _ _)

theorem putBack_job {i : ℕ} (hi : w.jobs[i]? = some s) :
    w.putBack (.job i a) = if s.releases a then [i] else [] := by
  simp only [Node.putBack, hi]

theorem step_settled (hr : Settled m r)
    (h : recorded (Node.step m) Node.putBack r wa = some r') : Settled m r' := by
  obtain ⟨hstep, hrec⟩ := recorded_eq_some.mp h
  have hcons := step_conserved hr.conserved hstep
  cases wa with
  | acquire | claim job | stop =>
    refine hr.of_claims hcons (by rw [hrec]; exact List.append_nil _) ?_
    rcases jobs_cases hstep with hjobs | hjobs | ⟨i, a, s, s', hact, -⟩
    · exact .inl hjobs
    · exact .inr hjobs
    · cases hact
  | job i a =>
    obtain ⟨s, s', hi, hs, hw'⟩ := job_cases hstep
    have hjobs : r'.state.jobs = r.state.jobs.set i s' := by rw [hw']
    have hlt : i < r.state.jobs.length := (List.getElem?_eq_some_iff.mp hi).1
    rw [putBack_job hi] at hrec
    have hone := hr.owed i s hi
    have howed : s'.owed + (s.releases a).toNat = s.owed := step_owed hs
    refine ⟨hcons, fun k t hk => ?_, fun k hk => ?_⟩
    · rw [hjobs] at hk
      rw [hrec, List.count_append]
      by_cases hki : i = k
      · subst hki
        rw [List.getElem?_set_self hlt] at hk
        obtain rfl := Option.some.inj hk
        cases hrel : s.releases a with
        | true =>
          simp only [hrel, Bool.toNat_true, if_true, List.count_singleton_self] at howed ⊢
          omega
        | false =>
          simp only [hrel, Bool.toNat_false, Bool.false_eq_true, if_false, List.count_nil]
            at howed ⊢
          omega
      · rw [List.getElem?_set_ne hki] at hk
        have hzero : (if s.releases a = true then [i] else []).count k = 0 := by
          apply List.count_eq_zero.mpr
          intro hmem
          split at hmem
          · exact hki (List.mem_singleton.mp hmem).symm
          · cases hmem
        rw [hzero]
        exact hr.owed k t hk
    · rw [hjobs, List.length_set]
      rw [hrec] at hk
      rcases List.mem_append.mp hk with hk | hk
      · exact hr.claimed k hk
      · split at hk
        · exact List.mem_singleton.mp hk ▸ hlt
        · cases hk

theorem tally_owed_eq {l : List Handler} {record : List ℕ}
    (h : ∀ i s, l[i]? = some s → record.count i + s.owed = 1) :
    tally Handler.owed l = (List.range l.length).countP fun i => decide (i ∉ record) := by
  induction l using List.reverseRecOn with
  | nil => rfl
  | append_singleton l s ih =>
    have hl : ∀ i t, l[i]? = some t → record.count i + t.owed = 1 := fun i t hi =>
      h i t (by rw [List.getElem?_append_left (List.getElem?_eq_some_iff.mp hi).1, hi])
    have hs : record.count l.length + s.owed = 1 := h l.length s (by simp)
    rw [tally_append_singleton, ih hl, List.length_append, List.length_singleton,
      List.range_succ, List.countP_append, List.countP_singleton]
    by_cases hmem : l.length ∈ record
    · have hpos := List.count_pos_iff.mpr hmem
      simp only [hmem, not_true_eq_false, decide_false, Bool.false_eq_true, if_false]
      omega
    · have hzero := List.count_eq_zero.mpr hmem
      simp only [hmem, not_false_eq_true, decide_true, if_true]
      omega

/-- Free slots, the loop's slot and the claimed jobs that have not put theirs back add up to all
slots, no job puts its slot back twice, and one whose handler has returned has done so. -/
theorem slots_conserved {as : List NodeAct}
    (hr : run (recorded (Node.step m) Node.putBack) ⟨.start m, []⟩ as = some r) :
    r.state.free + r.state.loop.held + unreleased r = m ∧ r.record.Nodup ∧
      ∀ i s, r.state.jobs[i]? = some s → s.pc = .ending [] → i ∈ r.record := by
  have hstart : Settled m ⟨.start m, []⟩ :=
    ⟨start_conserved, fun i s hi => (by cases hi), fun i hi => (by cases hi)⟩
  have hinv : Settled m r := Reachable.invariant (fun _ _ _ => step_settled) hstart ⟨as, hr⟩
  refine ⟨?_, List.nodup_iff_count_le_one.mpr fun i => ?_, fun i s hi hpc => ?_⟩
  · rw [unreleased, ← tally_owed_eq hinv.owed]
    exact hinv.conserved
  · by_cases hmem : i ∈ r.record
    · have hlt := hinv.claimed i hmem
      have hone := hinv.owed i _ (List.getElem?_eq_getElem hlt)
      omega
    · rw [List.count_eq_zero.mpr hmem]
      exact Nat.zero_le 1
  · have hone := hinv.owed i s hi
    rw [owed_of_ending hpc, List.count_nil] at hone
    exact List.count_pos_iff.mp (by omega)

/-- Both jobs claimed, the second is still on its way. -/
theorem slots_conserved_succeeding :
    (run (recorded (Node.step 1) Node.putBack) ⟨.start 1, []⟩ succeeding).map
      (fun r => (r.state.free + r.state.loop.held + unreleased r, r.record)) = some (1, [0]) := by
  have hrun : ((run (recorded (Node.step 1) Node.putBack) ⟨.start 1, []⟩ succeeding).map
      Recorded.record) = some [0] := rfl
  obtain ⟨r, hr, hrec⟩ := Option.map_eq_some_iff.mp hrun
  rw [hr, Option.map_some, (slots_conserved hr).1, hrec]

end CodeRunner.Worker
