import Mathlib.Logic.Function.Basic
import CodeRunner.Lib.Transition
import CodeRunner.Zygote.Hello

/-! # UIDs of concurrent sessions

A warm parent numbers its jobs and forks one session for each. The HELLO of every job names
the worker's base UID, so every session drops to that UID: two sessions have different UIDs
exactly as long as no two of them have dropped their privileges at the same time.
-/

namespace CodeRunner.Zygote

open Transition

/-- Where `handle_job` is with a job, and what its session runs as. -/
inductive Phase where
  | absent
  | connected
  | read (params : JobParams)
  | hardening (params : JobParams)
  | running (params : JobParams) (uid : ℤ)
  | ended
  deriving DecidableEq, Repr

def Phase.uid : Phase → Option ℤ
  | .running _ uid => some uid
  | _ => none

/-- The job counter of `next_job_n` and the phase of each numbered job. -/
structure Parent where
  jobSeq : ℕ
  jobs : ℕ → Phase

def Parent.start : Parent := ⟨0, fun _ => .absent⟩

def Parent.put (s : Parent) (n : ℕ) (phase : Phase) : Parent :=
  { s with jobs := Function.update s.jobs n phase }

/-- `finish` is the end of a session or of a job without one, by exit, failure or kill. -/
inductive Act where
  | connect
  | hello (n : ℕ) (spec : JobSpec)
  | spawn (n : ℕ)
  | harden (n : ℕ)
  | finish (n : ℕ)

def Parent.step (cfg : Config) (s : Parent) : Act → Option Parent
  | .connect => some { s.put s.jobSeq .connected with jobSeq := s.jobSeq + 1 }
  | .hello n spec =>
    match s.jobs n with
    | .connected => some (s.put n (.read (workerParams cfg spec n)))
    | _ => none
  | .spawn n =>
    match s.jobs n with
    | .read params => some (s.put n (.hardening params))
    | _ => none
  | .harden n =>
    match s.jobs n with
    | .hardening params => some (s.put n (.running params (params.uid cfg.uidBase.toInt)))
    | _ => none
  | .finish n =>
    match s.jobs n with
    | .absent => none
    | _ => some (s.put n .ended)

/-- Any two live sessions run under different UIDs. -/
def Parent.DistinctUids (s : Parent) : Prop :=
  ∀ i j u v, i ≠ j → (s.jobs i).uid = some u → (s.jobs j).uid = some v → u ≠ v

/-- A session drops its privileges only while no other live session has dropped its own. -/
def DropsAlone (s : Parent) : Act → Prop
  | .harden n => ∀ j, j ≠ n → (s.jobs j).uid = none
  | _ => True

/-- Every job read its HELLO from the worker, and every session runs as the base UID. -/
structure Parent.Based (cfg : Config) (s : Parent) : Prop where
  params : ∀ n p, s.jobs n = .read p ∨ s.jobs n = .hardening p →
    p.uid cfg.uidBase.toInt = cfg.uidBase.toInt
  uid : ∀ n u, (s.jobs n).uid = some u → u = cfg.uidBase.toInt

variable {cfg : Config} {s s' : Parent} {a : Act}

theorem Parent.Based.put {n : ℕ} {phase : Phase} (hs : s.Based cfg)
    (hp : ∀ p, phase = .read p ∨ phase = .hardening p →
      p.uid cfg.uidBase.toInt = cfg.uidBase.toInt)
    (hu : ∀ u, phase.uid = some u → u = cfg.uidBase.toInt) : (s.put n phase).Based cfg where
  params m p h := by
    by_cases hm : m = n
    · subst hm
      simp only [Parent.put, Function.update_self] at h
      exact hp p h
    · simp only [Parent.put, Function.update_of_ne hm] at h
      exact hs.params m p h
  uid m u h := by
    by_cases hm : m = n
    · subst hm
      simp only [Parent.put, Function.update_self] at h
      exact hu u h
    · simp only [Parent.put, Function.update_of_ne hm] at h
      exact hs.uid m u h

/-- What a step does: it puts one job into a phase, and only `harden` gives a session a UID. -/
theorem step_cases (h : s.step cfg a = some s') : ∃ n phase, s'.jobs = (s.put n phase).jobs ∧
    ((a = .harden n ∧ ∃ p, s.jobs n = .hardening p ∧
        phase = .running p (p.uid cfg.uidBase.toInt)) ∨
      ((∀ m, a ≠ .harden m) ∧ phase.uid = none ∧
        ∀ p, phase = .read p ∨ phase = .hardening p →
          s.jobs n = .read p ∨ ∃ spec, p = workerParams cfg spec n)) := by
  cases a with
  | connect =>
    obtain rfl := Option.some.inj h
    refine ⟨s.jobSeq, .connected, rfl, .inr ⟨by simp, rfl, ?_⟩⟩
    rintro p (h | h) <;> cases h
  | hello n spec =>
    simp only [Parent.step] at h
    split at h <;> cases h
    refine ⟨n, _, rfl, .inr ⟨by simp, rfl, ?_⟩⟩
    rintro p (h | h) <;> cases h
    exact .inr ⟨spec, rfl⟩
  | spawn n =>
    simp only [Parent.step] at h
    split at h
    · next p hp =>
      obtain rfl := Option.some.inj h
      refine ⟨n, _, rfl, .inr ⟨by simp, rfl, ?_⟩⟩
      rintro q (h | h) <;> cases h
      exact .inl hp
    · cases h
  | harden n =>
    simp only [Parent.step] at h
    split at h
    · next p hp =>
      obtain rfl := Option.some.inj h
      exact ⟨n, _, rfl, .inl ⟨rfl, p, hp, rfl⟩⟩
    · cases h
  | finish n =>
    simp only [Parent.step] at h
    split at h
    · cases h
    · obtain rfl := Option.some.inj h
      refine ⟨n, .ended, rfl, .inr ⟨by simp, rfl, ?_⟩⟩
      rintro p (h | h) <;> cases h

theorem step_based (hs : s.Based cfg) (h : s.step cfg a = some s') : s'.Based cfg := by
  obtain ⟨n, phase, hjobs, hphase⟩ := step_cases h
  have hput : (s.put n phase).Based cfg := by
    rcases hphase with ⟨-, p, hp, rfl⟩ | ⟨-, hu, hread⟩
    · refine hs.put ?_ ?_
      · rintro q (h | h) <;> cases h
      · rintro u hu
        obtain rfl := Option.some.inj hu
        exact hs.params n p (.inr hp)
    · refine hs.put ?_ ?_
      · intro p hp
        rcases hread p hp with h | ⟨spec, rfl⟩
        · exact hs.params n p (.inl h)
        · exact workerParams_uid cfg spec n
      · intro u h
        rw [hu] at h
        cases h
  exact ⟨fun m p h => hput.params m p (hjobs ▸ h), fun m u h => hput.uid m u (hjobs ▸ h)⟩

theorem step_distinct_iff (hs : s.Based cfg) (hd : s.DistinctUids) (h : s.step cfg a = some s') :
    s'.DistinctUids ↔ DropsAlone s a := by
  have hs' := step_based hs h
  obtain ⟨n, phase, hjobs, hphase⟩ := step_cases h
  have hself : s'.jobs n = phase := by rw [hjobs]; simp [Parent.put]
  have hother : ∀ m, m ≠ n → s'.jobs m = s.jobs m := by
    intro m hm
    rw [hjobs]
    simp [Parent.put, Function.update_of_ne hm]
  rcases hphase with ⟨rfl, p, hp, rfl⟩ | ⟨hne, hu, -⟩
  · constructor
    · intro hd' j hj
      rw [Option.eq_none_iff_forall_ne_some]
      intro u hju
      have hju' : (s'.jobs j).uid = some u := by rw [hother j hj]; exact hju
      have hn : (s'.jobs n).uid = some (p.uid cfg.uidBase.toInt) := by rw [hself]; rfl
      exact hd' j n _ _ hj hju' hn ((hs'.uid j u hju').trans (hs'.uid n _ hn).symm)
    · intro halone i j u v hij hi hj
      by_cases hin : i = n
      · subst hin
        rw [hother j (Ne.symm hij), halone j (Ne.symm hij)] at hj
        cases hj
      · rw [hother i hin, halone i hin] at hi
        cases hi
  · have halone : DropsAlone s a := by
      cases a with
      | harden m => exact absurd rfl (hne m)
      | _ => trivial
    refine iff_of_true (fun i j u v hij hi hj => ?_) halone
    have hlive : ∀ m w, (s'.jobs m).uid = some w → (s.jobs m).uid = some w := by
      intro m w hm
      by_cases hmn : m = n
      · rw [hmn, hself, hu] at hm
        cases hm
      · rwa [hother m hmn] at hm
    exact hd i j u v hij (hlive i u hi) (hlive j v hj)

theorem start_based : Parent.start.Based cfg where
  params n p h := by rcases h with h | h <;> cases h
  uid n u h := by cases h

/-- The sessions of a warm parent have pairwise different UIDs in every state of a run exactly
when each drops its privileges while no other live session has dropped its own. -/
theorem distinctUids_iff_dropsAlone {t : Parent} {as : List Act}
    (hr : run (Parent.step cfg) .start as = some t) :
    Always (Parent.step cfg) Parent.DistinctUids .start as ↔
      EveryStep (Parent.step cfg) DropsAlone .start as :=
  always_iff_everyStep_of (fun _ _ _ hs _ h => step_based hs h)
    (fun _ _ _ hs _ hd _ h => step_distinct_iff hs hd h) start_based
    (fun _ _ _ _ _ hi => by cases hi) EveryStep.trivial hr

def defaults : Config where
  uidBase := 100000
  uidBase_pos := by decide

/-- A job with no files and the limits of a small script. -/
def script : JobSpec where
  channel := "job-1"
  collectOutput := some false
  compile := none
  entrypoint := "main.py"
  files := []
  image := ""
  interactive := false
  jobId := "1"
  language := "python"
  limits := ⟨10000, 10000, 0, 0, 128, 1024, 64, 30000⟩
  run := ["python", "main.py"]
  version := "3.12"

def overlap : List Act :=
  [.connect, .connect, .hello 0 script, .hello 1 script, .spawn 0, .spawn 1, .harden 0, .harden 1]

theorem overlap_uids :
    (run (Parent.step defaults) .start overlap).map
      (fun s => ((s.jobs 0).uid, (s.jobs 1).uid)) = some (some 100000, some 100000) := by
  decide +kernel

theorem not_always_distinctUids :
    ¬ ∀ (cfg : Config) (t : Parent) (as : List Act),
      run (Parent.step cfg) .start as = some t →
      Always (Parent.step cfg) Parent.DistinctUids .start as := by
  intro h
  obtain ⟨t, hr, ht⟩ := Option.map_eq_some_iff.mp overlap_uids
  obtain ⟨h₀, h₁⟩ := Prod.mk.inj ht
  exact (h defaults t overlap hr).last hr 0 1 _ _ (by decide) h₀ h₁ rfl

/-- One job after the other. -/
def oneByOne : List Act :=
  [.connect, .hello 0 script, .spawn 0, .harden 0, .finish 0,
    .connect, .hello 1 script, .spawn 1, .harden 1]

theorem oneByOne_dropsAlone : EveryStep (Parent.step defaults) DropsAlone .start oneByOne := by
  simp only [EveryStep, oneByOne, DropsAlone, Parent.step, Parent.start, Parent.put,
    Function.update, eq_rec_constant, dite_eq_ite, if_true, Option.some.injEq, forall_eq',
    true_and, and_true, Nat.one_ne_zero, if_false, Nat.zero_add]
  constructor
  · intro j hj
    simp [hj, Phase.uid]
  · intro j hj
    by_cases hzero : j = 0 <;> simp [hj, hzero, Phase.uid]

theorem oneByOne_distinctUids :
    Always (Parent.step defaults) Parent.DistinctUids .start oneByOne :=
  (distinctUids_iff_dropsAlone rfl).mpr oneByOne_dropsAlone

end CodeRunner.Zygote
