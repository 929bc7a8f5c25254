import CodeRunner.Blob.Soundness

/-! # Leases against the collector

A sweep condemns a hash once it has read an empty lease set and a candidacy past the grace
window; it then deletes the object and the lease set in separate commands. Leases are safe in
every run in which none is taken on a condemned hash.
-/

namespace CodeRunner.Blob

open Threads Transition

variable {ι : Type*} [DecidableEq ι] {cfg : Config}

def Thread.isSweep : Thread → Bool
  | .sweep _ => true
  | _ => false

/-- The sweep goes on to delete the object of `h` without reading its lease set again. -/
def Condemned (cfg : Config) (s : Store) (h : Hash) : Thread → Prop
  | .sweep t =>
    match t.pc with
    | .zscore v => v.hash = h ∧ ∃ score ∈ s.candidates h, cfg.graceMs < v.nowMs - score
    | .stat v | .remove v _ | .scrubIndex v _ | .scrubCandidate v _ | .scrubLease v _ => v.hash = h
    | _ => False
  | _ => False

/-- An object is deleted, and a lease set scrubbed, only while no job holds a lease in it. -/
def SparesLeases (cfg : Config) (c : System ι) (a : Act ι Env) : Prop :=
  (∀ h, (program cfg).executes c a = some (.removeObject h) → c.shared.holders h = ∅) ∧
    ∀ h, (program cfg).executes c a = some (.delLease h) →
      ∀ job ∈ c.shared.lease h, job ∉ c.shared.holders h

/-- No lease is taken on a hash that a sweep has condemned. -/
def LeasesInTime (cfg : Config) (c : System ι) (a : Act ι Env) : Prop :=
  ∀ h job, (program cfg).executes c a = some (.saddLease h job) →
    ∀ i, ¬ Condemned cfg c.shared h (c.threads i)

instance Condemned.instDecidable (s : Store) (h : Hash) :
    ∀ t, Decidable (Condemned cfg s h t)
  | .check _ | .upload _ | .job _ => inferInstanceAs (Decidable False)
  | .sweep ⟨pc, _, _⟩ =>
    match pc with
    | .zscore v => inferInstanceAs
        (Decidable (v.hash = h ∧ ∃ score ∈ s.candidates h, cfg.graceMs < v.nowMs - score))
    | .stat v | .remove v _ | .scrubIndex v _ | .scrubCandidate v _ | .scrubLease v _ =>
        inferInstanceAs (Decidable (v.hash = h))
    | .lock | .list | .clock _ | .loop _ _ | .scard _ _ | .recovered _ | .zadd _
    | .scrubMeta _ _ | .unlock | .done => inferInstanceAs (Decidable False)

instance LeasesInTime.instDecidable [Fintype ι] (c : System ι) (a : Act ι Env) :
    Decidable (LeasesInTime cfg c a) :=
  match he : (program cfg).executes c a with
  | some (.saddLease h job) =>
    decidable_of_iff (∀ i, ¬ Condemned cfg c.shared h (c.threads i)) (by simp [LeasesInTime, he])
  | none | some .time | some (.touch _ _ _ _) | some (.existsMeta _) | some (.sremLease _ _)
  | some (.scardLease _) | some (.setnxLock _) | some .delLock | some .smembersIndex
  | some (.sremIndex _) | some (.zscore _) | some (.zadd _ _) | some (.zrem _)
  | some (.delLease _) | some (.delMeta _) | some (.putObject _ _) | some (.getObject _)
  | some (.statObject _) | some (.removeObject _) => isTrue (by simp [LeasesInTime, he])

/-- The lease sets hold exactly the jobs that took a lease and did not release it. -/
def Store.LeasesHeld (s : Store) : Prop := ∀ h, s.lease h = s.holders h

def Unheld (cfg : Config) (s : Store) (t : Thread) : Prop :=
  ∀ h, Condemned cfg s h t → s.holders h = ∅

theorem unheld_of_not_sweep {s : Store} {t : Thread} (ht : t.isSweep = false) :
    Unheld cfg s t := by
  intro h hc
  cases t <;> simp_all [Condemned, Thread.isSweep]

theorem not_condemned_of_initial {s : Store} {t : Thread} {h : Hash} (ht : t.Initial) :
    ¬ Condemned cfg s h t := by
  cases ht <;> exact id

theorem resume_isSweep (t : Thread) (r : Reply) : (t.resume cfg r).isSweep = t.isSweep := by
  cases t <;> rfl

theorem next_isSweep {t : Thread} {cmd : Cmd} (hn : t.next cfg = some cmd)
    (hc : cmd.ofCollector) : t.isSweep = true := by
  cases t with
  | sweep t => rfl
  | check t =>
    simp only [Thread.next, Check.next] at hn
    split at hn <;> cases hn <;> cases hc
  | upload t =>
    simp only [Thread.next, Upload.next, Check.next] at hn
    split at hn
    · split at hn <;> cases hn <;> cases hc
    all_goals cases hn <;> cases hc
  | job t =>
    simp only [Thread.next, Job.next] at hn
    split at hn <;> cases hn <;> cases hc

theorem exec_candidates {s : Store} {cmd : Cmd} {h : Hash} (hc : cmd.ofCollector = false) :
    (s.exec cmd).1.candidates h = s.candidates h := by
  cases cmd <;> simp_all [Cmd.ofCollector, Store.exec, Store.touchScript]

theorem exec_holders_empty {s : Store} {cmd : Cmd} {h : Hash} (hs : s.holders h = ∅)
    (hc : ∀ job, cmd ≠ .saddLease h job) : (s.exec cmd).1.holders h = ∅ := by
  cases cmd with
  | saddLease h₀ job =>
    have hne : h ≠ h₀ := fun heq => hc job (heq ▸ rfl)
    simp [Store.exec, Function.update_of_ne hne, hs]
  | sremLease h₀ job =>
    simp only [Store.exec, Function.update_apply]
    split
    · next heq => simp [← heq, hs]
    · exact hs
  | setnxLock ttl =>
    simp only [Store.exec]
    split <;> exact hs
  | _ => exact hs

theorem exec_leasesHeld {s : Store} {cmd : Cmd} (hs : s.LeasesHeld)
    (hc : ∀ h, cmd = .delLease h → s.holders h = ∅) : (s.exec cmd).1.LeasesHeld := by
  intro h
  cases cmd with
  | saddLease h₀ job => simp only [Store.exec, Function.update_apply, hs h, hs h₀]
  | sremLease h₀ job => simp only [Store.exec, Function.update_apply, hs h, hs h₀]
  | delLease h₀ =>
    simp only [Store.exec, Function.update_apply]
    split
    · next heq => exact (heq ▸ hc h₀ rfl).symm
    · exact hs h
  | setnxLock ttl =>
    simp only [Store.exec]
    split <;> exact hs h
  | _ => exact hs h

/-- A sweep condemns a hash only on an empty lease set, and keeps it condemned only between
its own commands. -/
theorem sweep_resume_unheld {s : Store} {t : Sweep} {cmd : Cmd} (hs : s.LeasesHeld)
    (ht : Unheld cfg s (.sweep t)) (hn : t.next cfg = some cmd) :
    Unheld cfg (s.exec cmd).1 (.sweep (t.resume cfg (s.exec cmd).2)) := by
  intro h hc
  obtain ⟨pc, reclaimed, bytesFreed⟩ := t
  cases pc with
  | scard v metaN =>
    cases hn
    simp only [Store.exec, Sweep.resume] at hc
    split at hc
    · next hcol =>
      obtain ⟨rfl, -⟩ := hc
      have hl : s.lease v.hash = ∅ := Finset.card_eq_zero.mp hcol.2
      exact hs v.hash ▸ hl
    · exact hc.elim
  | zscore v =>
    cases hn
    simp only [Store.exec, Sweep.resume] at hc
    cases hcand : s.candidates v.hash with
    | none => simp only [hcand] at hc; exact hc.elim
    | some score =>
      simp only [hcand] at hc
      split at hc
      · next hpast =>
        obtain rfl : v.hash = h := hc
        exact ht v.hash ⟨rfl, score, hcand, hpast⟩
      · exact hc.elim
  | stat v =>
    cases hn
    refine ht h ?_
    simp only [Store.exec, Sweep.resume] at hc
    split at hc <;> simp_all [Condemned]
  | remove v freed =>
    cases hn
    exact ht h hc
  | scrubIndex v freed =>
    cases hn
    exact ht h hc
  | scrubCandidate v freed =>
    cases hn
    exact ht h hc
  | lock =>
    generalize (s.exec cmd).2 = r at hc
    rcases r with _ | _ | (_ | _) | _ | _ | _ <;> exact hc.elim
  | list =>
    generalize (s.exec cmd).2 = r at hc
    cases r <;> exact hc.elim
  | clock hashes =>
    generalize (s.exec cmd).2 = r at hc
    cases r <;> exact hc.elim
  | loop nowMs todo =>
    generalize (s.exec cmd).2 = r at hc
    cases todo <;> cases r <;> exact hc.elim
  | recovered v => exact hc.elim
  | zadd v => exact hc.elim
  | scrubLease v freed => exact hc.elim
  | scrubMeta v freed => exact hc.elim
  | unlock => exact hc.elim
  | done => exact hc.elim

theorem sweep_fault_unheld {s : Store} {t : Sweep} (ht : Unheld cfg s (.sweep t)) :
    Unheld cfg s (.sweep (t.resume cfg .err)) := by
  intro h hc
  obtain ⟨pc, reclaimed, bytesFreed⟩ := t
  cases pc with
  | stat v => exact ht h hc
  | scrubIndex v freed => exact ht h hc
  | scrubCandidate v freed => exact ht h hc
  | loop nowMs todo => cases todo <;> exact hc.elim
  | _ => exact hc.elim

/-- At most one sweep is among the threads. -/
def OneSweep (c : System ι) : Prop :=
  ∀ i j, (c.threads i).isSweep → (c.threads j).isSweep → i = j

theorem step_oneSweep {c c' : System ι} {a : Act ι Env} (hc : OneSweep c)
    (h : (program cfg).step c a = some c') : OneSweep c' := by
  have hsame : ∀ i, (c'.threads i).isSweep = (c.threads i).isSweep := by
    intro i
    cases a with
    | cmd j =>
      obtain ⟨cmd, -, rfl⟩ := Program.step_cmd_eq_some.mp h
      by_cases hij : i = j
      · subst hij; simp only [Function.update_self]; exact resume_isSweep _ _
      · simp only [Function.update_of_ne hij]
    | fault j =>
      obtain ⟨cmd, -, rfl⟩ := Program.step_fault_eq_some.mp h
      by_cases hij : i = j
      · subst hij; simp only [Function.update_self]; exact resume_isSweep _ _
      · simp only [Function.update_of_ne hij]
    | env e =>
      obtain ⟨s, -, rfl⟩ := Program.step_env_eq_some.mp h
      rfl
  intro i j hi hj
  exact hc i j (hsame i ▸ hi) (hsame j ▸ hj)

/-- The lease sets are accurate and nobody holds a lease on a hash that a sweep condemned. -/
abbrev LeaseInv (cfg : Config) : System ι → Prop := Inv Store.LeasesHeld (Unheld cfg)

/-- A sweep deletes an object, and erases its lease set, only of a hash it condemned. -/
theorem condemned_of_next {s : Store} {t : Thread} {h : Hash} {cmd : Cmd}
    (hcmd : cmd = .delLease h ∨ cmd = .removeObject h) (hn : t.next cfg = some cmd) :
    Condemned cfg s h t := by
  have hcol : cmd.ofCollector = true := by rcases hcmd with rfl | rfl <;> rfl
  have hs : t.isSweep = true := next_isSweep hn hcol
  cases t with
  | sweep t =>
    obtain ⟨pc, reclaimed, bytesFreed⟩ := t
    rcases hcmd with rfl | rfl
    all_goals
      simp only [Thread.next, Sweep.next] at hn
      split at hn <;> cases hn
      exact rfl
  | _ => cases hs

theorem condemned_candidates {s s' : Store} {t : Thread} {h : Hash}
    (hs : s'.candidates h = s.candidates h) (hc : Condemned cfg s' h t) :
    Condemned cfg s h t := by
  cases t with
  | sweep t =>
    simp only [Condemned] at hc ⊢
    split at hc <;> simp_all
  | _ => exact hc.elim

theorem step_leaseInv {c c' : System ι} {a : Act ι Env} (hI : LeaseInv cfg c)
    (hone : OneSweep c) (hg : LeasesInTime cfg c a)
    (h : (program cfg).step c a = some c') : LeaseInv cfg c' := by
  refine Inv.step (G := fun c a => OneSweep c ∧ LeasesInTime cfg c a) ?_ ?_ ?_ ?_ hI ⟨hone, hg⟩ h
  · intro c i cmd hI _ hn
    refine ⟨exec_leasesHeld hI.1 fun h heq => hI.2 i h (condemned_of_next (.inl heq) hn), ?_⟩
    cases ht : c.threads i with
    | sweep t =>
      rw [ht] at hn
      exact sweep_resume_unheld hI.1 (ht ▸ hI.2 i) hn
    | _ => exact unheld_of_not_sweep rfl
  · rintro c i j cmd hI ⟨hone, hg⟩ hn hij h hc
    have hcol : cmd.ofCollector = false := by
      by_contra hcol
      have hi : (c.threads i).isSweep := next_isSweep hn (by simpa using hcol)
      have hj : (c.threads j).isSweep = false := by
        by_contra hj
        exact hij (hone j i (by simpa using hj) hi)
      cases ht : c.threads j <;> simp_all [Condemned, Thread.isSweep]
    have hold := condemned_candidates (exec_candidates hcol) hc
    refine exec_holders_empty (hI.2 j h hold) fun job heq => ?_
    exact hg h job (Program.executes_eq_some.mpr ⟨i, rfl, heq ▸ hn⟩) j hold
  · intro c i cmd hI _
    cases ht : c.threads i with
    | sweep t => exact sweep_fault_unheld (ht ▸ hI.2 i)
    | _ => exact unheld_of_not_sweep rfl
  · intro s e s' hs he
    obtain ⟨-, hlease, hholders, hcand⟩ := env_frame he
    refine ⟨fun h => by rw [hlease, hholders]; exact hs h, fun t ht h hc => ?_⟩
    rw [hholders]
    exact ht h (condemned_candidates (congrFun hcand h) hc)

/-- A sweep deletes no object and erases no entry that a job still leases, in every run with
one sweep whose leases all come before the sweep condemns the hash or after it is done. -/
theorem spares_leases {c c' : System ι} {as : List (Act ι Env)} (hone : OneSweep c)
    (hheld : c.shared.LeasesHeld) (hstart : ∀ i, (c.threads i).Initial)
    (hg : EveryStep (program cfg).step (LeasesInTime cfg) c as)
    (hr : run (program cfg).step c as = some c') :
    EveryStep (program cfg).step (SparesLeases cfg) c as := by
  have hI : OneSweep c ∧ LeaseInv cfg c := by
    exact ⟨hone, hheld, fun i h hc => absurd hc (not_condemned_of_initial (hstart i))⟩
  have hall : Always (program cfg).step (fun c => OneSweep c ∧ LeaseInv cfg c) c as :=
    .of_guarded (fun c a c' hI hg h =>
      ⟨step_oneSweep hI.1 h, step_leaseInv hI.2 hI.1 hg h⟩) hI hg
  refine .of_always (fun c a c' hI _ _ => ⟨fun h he => ?_, fun h he job hj => ?_⟩) hall hg hr
  · obtain ⟨i, -, hn⟩ := Program.executes_eq_some.mp he
    exact hI.2.2 i h (condemned_of_next (.inr rfl) hn)
  · obtain ⟨i, -, hn⟩ := Program.executes_eq_some.mp he
    simp [hI.2.2 i h (condemned_of_next (.inl rfl) hn)]

/-- A stored blob, long a candidate and unleased, that a job references during a sweep. -/
def condemnedSystem : System ℕ where
  shared :=
    { Store.empty 3600000 with
      index := [unstored]
      candidates := fun _ => some 0
      objects := fun _ => some 5 }
  threads
    | 0 => .sweep .start
    | n => .job (.start s!"job-{n}" [unstored])

theorem condemnedSystem_oneSweep : OneSweep condemnedSystem := by
  intro i j hi hj
  cases i <;> cases j <;> simp_all [condemnedSystem, Thread.isSweep]

theorem condemnedSystem_initial (i : ℕ) : (condemnedSystem.threads i).Initial := by
  cases i with
  | zero => exact .sweep
  | succ n => exact .job _ _

/-- The sweep reads an empty lease set, a job takes its lease, and the delete comes next. -/
theorem condemnedSystem_leased :
    ((run (program defaults).step condemnedSystem
      [.cmd 0, .cmd 0, .cmd 0, .cmd 0, .cmd 0, .cmd 1, .cmd 0, .cmd 0]).map fun c =>
        (Thread.next defaults (c.threads 0), decide ("job-1" ∈ c.shared.holders unstored))) =
      some (some (.removeObject unstored), true) := rfl

theorem not_always_spares_leases :
    ¬ ∀ (cfg : Config) (c c' : System ℕ) (as : List (Act ℕ Env)), OneSweep c →
      c.shared.LeasesHeld → (∀ i, (c.threads i).Initial) →
      run (program cfg).step c as = some c' →
      EveryStep (program cfg).step (SparesLeases cfg) c as := by
  intro h
  obtain ⟨c₁, hr, hc₁⟩ := Option.map_eq_some_iff.mp condemnedSystem_leased
  simp only [Prod.mk.injEq, decide_eq_true_eq] at hc₁
  obtain ⟨hn, hheld⟩ := hc₁
  have hstep : (program defaults).step c₁ (.cmd 0) = some _ :=
    Program.step_cmd_eq_some.mpr ⟨_, hn, rfl⟩
  have hall := h defaults condemnedSystem _ (_ ++ [.cmd 0]) condemnedSystem_oneSweep
    (fun _ => rfl) condemnedSystem_initial (by rw [run_append, hr]; exact run_cons_of_step hstep)
  have hspare := ((everyStep_append hr).mp hall).2.1.1 unstored hn
  simp [hspare] at hheld

/-- The same store with a single job, which takes its lease after the sweep is done with the
hash. -/
def sparedSystem : System Bool where
  shared := condemnedSystem.shared
  threads
    | false => .sweep .start
    | true => .job (.start "job-1" [unstored])

theorem sparedSystem_spares_leases :
    EveryStep (program defaults).step (SparesLeases defaults) sparedSystem
      (List.replicate 12 (.cmd false) ++ [.cmd true, .cmd false]) :=
  spares_leases (by unfold OneSweep; decide) (fun _ => rfl)
    (by rintro (_ | _); exacts [.sweep, .job _ _]) (by decide +kernel) rfl

end CodeRunner.Blob
