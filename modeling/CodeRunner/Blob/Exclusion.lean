import CodeRunner.Blob.Leases
import CodeRunner.Lib.Lock

/-! # One sweep at a time

Each replica's loop runs one sweep a tick, guarded by `blobs:gc:lock`. The lock has a time to
live and no owner, and a sweep's deferred delete is unconditional: the sweeps exclude each other
along a run exactly when each of them deletes the lock within its own time to live, or finds none.
-/

namespace CodeRunner.Blob

open Threads Transition

variable {ι : Type*} [DecidableEq ι] {cfg : Config}

/-- `NewGC`: without a positive lock TTL it takes five minutes. -/
def newGC (cfg : Config) : Config :=
  if cfg.lockTtlMs = 0 then { cfg with lockTtlMs := 300000 } else cfg

theorem newGC_lockTtl_pos (cfg : Config) : 0 < (newGC cfg).lockTtlMs := by
  rw [newGC]
  split
  · exact Nat.succ_pos _
  · next hne => exact Nat.pos_of_ne_zero hne

/-- Between the `SETNX` that took the lock and the deferred `DEL`. -/
def Thread.sweeping : Thread → Bool
  | .sweep t => t.pc ≠ .lock ∧ t.pc ≠ .done
  | _ => false

/-- A command, a fault or an environment step, or the tick on which a replica's `Run` starts its
next sweep. -/
inductive Move (ι : Type*) where
  | act (a : Act ι Env)
  | ticker (i : ι)
  deriving DecidableEq

/-- The system, with the history of its sweep lock. -/
structure Guarded (ι : Type*) where
  system : System ι
  lock : Lock.State ι

def lockAct (cfg : Config) (c : System ι) : Act ι Env → Option (Lock.Act ι)
  | .cmd i =>
      match (c.threads i).next cfg with
      | some (.setnxLock _) => some (.acquire i)
      | some .delLock => some (.release i)
      | _ => none
  | .fault i =>
      match (c.threads i).next cfg with
      | some .delLock => some (.leave i)
      | _ => none
  | .env (.tick ms) => some (.tick ms)
  | .env (.shuffle _) => none

/-- `Run` calls `Sweep` again once the last call has returned. -/
def nextSweep (c : System ι) (i : ι) : Option (System ι) :=
  match c.threads i with
  | .sweep t =>
      if t.pc = .done then
        some { c with threads := Function.update c.threads i (.sweep .start) }
      else none
  | _ => none

def Guarded.step (cfg : Config) (g : Guarded ι) : Move ι → Option (Guarded ι)
  | .act a => ((program cfg).step g.system a).map fun c =>
      ⟨c, (lockAct cfg g.system a).elim g.lock (g.lock.apply cfg.lockTtlMs)⟩
  | .ticker i => (nextSweep g.system i).map fun c => ⟨c, g.lock⟩

theorem Guarded.step_act_eq_some {g g' : Guarded ι} {a : Act ι Env} :
    g.step cfg (.act a) = some g' ↔ ∃ c, (program cfg).step g.system a = some c ∧
      g' = ⟨c, (lockAct cfg g.system a).elim g.lock (g.lock.apply cfg.lockTtlMs)⟩ := by
  simp only [Guarded.step, Option.map_eq_some_iff, @eq_comm _ g']

theorem nextSweep_eq_some {c c' : System ι} {i : ι} :
    nextSweep c i = some c' ↔ ∃ t, c.threads i = .sweep t ∧ t.pc = .done ∧
      c' = { c with threads := Function.update c.threads i (.sweep .start) } := by
  rw [nextSweep]
  split
  · next t ht =>
    rw [Option.ite_none_right_eq_some]
    constructor
    · rintro ⟨hd, hc⟩
      exact ⟨t, ht, hd, (Option.some.inj hc).symm⟩
    · rintro ⟨u, hu, hd, rfl⟩
      obtain rfl : t = u := Thread.sweep.inj (ht.symm.trans hu)
      exact ⟨hd, rfl⟩
  · next hne =>
    constructor
    · rintro ⟨⟩
    · rintro ⟨t, ht, -⟩
      exact absurd ht (hne t)

structure Guarded.Fresh (g : Guarded ι) : Prop where
  system : g.system.Fresh
  lock : g.lock = .start g.system.shared.now

/-- A sweep that deletes the lock deletes its own, or none. -/
def ReleasesOwn (cfg : Config) (g : Guarded ι) : Move ι → Prop
  | .act (.cmd i) => (program cfg).executes g.system (.cmd i) = some .delLock → g.lock.Owns i
  | _ => True

/-- Of two sweeps under way at once, one has outlived its lock TTL. -/
def Guarded.Exclusive (cfg : Config) (g : Guarded ι) : Prop :=
  ∀ i j, i ≠ j → (g.system.threads i).sweeping → (g.system.threads j).sweeping →
    g.lock.Outlived cfg.lockTtlMs i ∨ g.lock.Outlived cfg.lockTtlMs j

/-- A sweep that deletes the lock does so within its own lock TTL, or finds none to delete. -/
def UnlocksInTime (cfg : Config) (g : Guarded ι) : Move ι → Prop
  | .act (.cmd i) =>
      (program cfg).executes g.system (.cmd i) = some .delLock → g.lock.InTime cfg.lockTtlMs i
  | _ => True

instance ReleasesOwn.instDecidable (g : Guarded ι) : ∀ m, Decidable (ReleasesOwn cfg g m)
  | .act (.cmd i) => inferInstanceAs
      (Decidable ((program cfg).executes g.system (.cmd i) = some .delLock → g.lock.Owns i))
  | .act (.fault _) | .act (.env _) | .ticker _ => inferInstanceAs (Decidable True)

instance UnlocksInTime.instDecidable (g : Guarded ι) : ∀ m, Decidable (UnlocksInTime cfg g m)
  | .act (.cmd i) => inferInstanceAs
      (Decidable ((program cfg).executes g.system (.cmd i) = some .delLock →
        g.lock.InTime cfg.lockTtlMs i))
  | .act (.fault _) | .act (.env _) | .ticker _ => inferInstanceAs (Decidable True)

def Cmd.onLock : Cmd → Bool
  | .setnxLock _ | .delLock => true
  | _ => false

theorem exec_lock_frame {s : Store} {cmd : Cmd} (hc : cmd.onLock = false) :
    (s.exec cmd).1.gcLock = s.gcLock := by
  cases cmd <;> first | rfl | cases hc

theorem exec_now (s : Store) (cmd : Cmd) : (s.exec cmd).1.now = s.now := by
  cases cmd with
  | setnxLock ttl =>
    simp only [Store.exec]
    split <;> rfl
  | _ => rfl

theorem next_setnxLock {t : Thread} {ttl : ℕ} (hn : t.next cfg = some (.setnxLock ttl)) :
    ttl = cfg.lockTtlMs ∧ ∃ u, t = .sweep u ∧ u.pc = .lock := by
  have hs : t.isSweep = true := next_isSweep hn rfl
  cases t with
  | sweep u =>
    obtain ⟨pc, reclaimed, bytesFreed⟩ := u
    cases pc with
    | lock => exact ⟨(Cmd.setnxLock.inj (Option.some.inj hn)).symm, _, rfl, rfl⟩
    | loop nowMs todo => cases todo <;> cases hn
    | _ => cases hn
  | _ => cases hs

theorem next_delLock {t : Thread} (hn : t.next cfg = some .delLock) (r : Reply) :
    t.sweeping = true ∧ (t.resume cfg r).sweeping = false := by
  have hs : t.isSweep = true := next_isSweep hn rfl
  cases t with
  | sweep u =>
    obtain ⟨pc, reclaimed, bytesFreed⟩ := u
    cases pc with
    | unlock => exact ⟨rfl, rfl⟩
    | loop nowMs todo =>
      cases todo with
      | nil => exact ⟨rfl, rfl⟩
      | cons h todo => cases hn
    | _ => cases hn
  | _ => cases hs

theorem resume_sweeping {t : Thread} {cmd : Cmd} (hn : t.next cfg = some cmd)
    (hc : cmd.onLock = false) (r : Reply) : (t.resume cfg r).sweeping = t.sweeping := by
  cases t with
  | sweep u =>
    obtain ⟨pc, reclaimed, bytesFreed⟩ := u
    cases pc with
    | lock => cases hn; cases hc
    | unlock => cases hn; cases hc
    | done => cases hn
    | loop nowMs todo =>
      cases todo with
      | nil => cases hn; cases hc
      | cons h todo => cases r <;> rfl
    | scard v metaN =>
      cases r with
      | int n =>
        simp only [Thread.resume, Sweep.resume]
        split <;> rfl
      | _ => rfl
    | zscore v =>
      cases r with
      | opt score =>
        cases score with
        | none => rfl
        | some score =>
          simp only [Thread.resume, Sweep.resume]
          split <;> rfl
      | _ => rfl
    | stat v =>
      cases r with
      | opt size => cases size <;> rfl
      | _ => rfl
    | _ => cases r <;> rfl
  | _ => rfl

/-- The history has the store's clock and lock key, and an entry time for each sweep under way. -/
structure Guarded.Tied (g : Guarded ι) : Prop where
  now : g.lock.now = g.system.shared.now
  key : g.lock.key.map Prod.snd = g.system.shared.gcLock
  since : ∀ i, (g.lock.since i).isSome = (g.system.threads i).sweeping

omit [DecidableEq ι] in
theorem tied_of_fresh {g : Guarded ι} (hf : g.Fresh) : g.Tied := by
  obtain ⟨⟨⟨now, hnow⟩, hthreads⟩, hlock⟩ := hf
  constructor
  · rw [hlock, Lock.State.start]
  · rw [hlock, hnow]
    rfl
  · intro i
    have hi := hthreads i
    rw [hlock]
    cases h : g.system.threads i <;> rw [h] at hi <;> cases hi <;> rfl

theorem tied_update {f : ι → Thread} {since : ι → Option ℕ} {i : ι} {t : Thread} {o : Option ℕ}
    (h : ∀ j, (since j).isSome = (f j).sweeping) (ho : o.isSome = t.sweeping) (j : ι) :
    (Function.update since i o j).isSome = (Function.update f i t j).sweeping := by
  by_cases hj : j = i
  · subst hj
    simpa using ho
  · simpa [Function.update_of_ne hj] using h j

theorem tied_update_self {f : ι → Thread} {since : ι → Option ℕ} {i : ι} {t : Thread}
    (h : ∀ j, (since j).isSome = (f j).sweeping) (ht : t.sweeping = (f i).sweeping) (j : ι) :
    (since j).isSome = (Function.update f i t j).sweeping := by
  by_cases hj : j = i
  · subst hj
    simp [ht, h]
  · simpa [Function.update_of_ne hj] using h j

theorem cmd_tied {g g' : Guarded ι} {i : ι} (hg : g.Tied)
    (h : g.step cfg (.act (.cmd i)) = some g') : g'.Tied := by
  obtain ⟨c, hc, rfl⟩ := Guarded.step_act_eq_some.mp h
  obtain ⟨cmd, hn, rfl⟩ := Program.step_cmd_eq_some.mp hc
  have hn : (g.system.threads i).next cfg = some cmd := hn
  by_cases hcmd : cmd.onLock
  · cases cmd with
    | setnxLock ttl =>
      obtain ⟨rfl, u, hu, hpc⟩ := next_setnxLock hn
      obtain ⟨pc, reclaimed, bytesFreed⟩ := u
      obtain rfl : pc = .lock := hpc
      have hact : lockAct cfg g.system (.cmd i) = some (.acquire i) := by
        simp only [lockAct, hn]
      rw [hact, Option.elim_some, Lock.State.apply]
      rcases hkey : g.lock.key with _ | k
      · -- The lock is free: the sweep gets it and starts.
        have hfree : g.system.shared.gcLock = none := by rw [← hg.key, hkey]; rfl
        rw [if_neg (by simp)]
        constructor
        · exact hg.now.trans (exec_now _ _).symm
        · simp [program, Store.exec, hfree, hg.now]
        · intro j
          refine tied_update hg.since ?_ j
          simp [program, Store.exec, hfree, hu, Thread.resume, Sweep.resume, Thread.sweeping]
      · have hheld : g.system.shared.gcLock = some k.2 := by rw [← hg.key, hkey]; rfl
        rw [if_pos (by simp)]
        constructor
        · exact hg.now.trans (exec_now _ _).symm
        · simp [program, Store.exec, hheld, hkey]
        · intro j
          refine tied_update_self hg.since ?_ j
          simp [program, Store.exec, hheld, hu, Thread.resume, Sweep.resume, Thread.sweeping]
    | delLock =>
      have hact : lockAct cfg g.system (.cmd i) = some (.release i) := by
        simp only [lockAct, hn]
      rw [hact, Option.elim_some, Lock.State.apply]
      constructor
      · exact hg.now
      · rfl
      · intro j
        exact tied_update (o := none) hg.since (next_delLock hn _).2.symm j
    | _ => cases hcmd
  · have hcmd : cmd.onLock = false := Bool.eq_false_iff.mpr hcmd
    have hact : lockAct cfg g.system (.cmd i) = none := by
      simp only [lockAct, hn]
      cases cmd <;> first | rfl | cases hcmd
    rw [hact, Option.elim_none]
    constructor
    · exact hg.now.trans (exec_now _ _).symm
    · exact hg.key.trans (exec_lock_frame hcmd).symm
    · intro j
      exact tied_update_self hg.since (resume_sweeping hn hcmd _) j

theorem fault_tied {g g' : Guarded ι} {i : ι} (hg : g.Tied)
    (h : g.step cfg (.act (.fault i)) = some g') : g'.Tied := by
  obtain ⟨c, hc, rfl⟩ := Guarded.step_act_eq_some.mp h
  obtain ⟨cmd, hn, rfl⟩ := Program.step_fault_eq_some.mp hc
  have hn : (g.system.threads i).next cfg = some cmd := hn
  by_cases hdel : cmd = .delLock
  · subst hdel
    have hact : lockAct cfg g.system (.fault i) = some (.leave i) := by simp only [lockAct, hn]
    rw [hact, Option.elim_some, Lock.State.apply]
    refine ⟨hg.now, hg.key, fun j => ?_⟩
    exact tied_update (o := none) hg.since (next_delLock hn _).2.symm j
  · have hact : lockAct cfg g.system (.fault i) = none := by
      simp only [lockAct, hn]
      split
      · next heq => exact absurd (Option.some.inj heq) hdel
      · rfl
    have hsame : ((g.system.threads i).resume cfg .err).sweeping =
        (g.system.threads i).sweeping := by
      by_cases hcmd : cmd.onLock
      · cases cmd with
        | setnxLock ttl =>
          obtain ⟨-, u, hu, hpc⟩ := next_setnxLock hn
          obtain ⟨pc, reclaimed, bytesFreed⟩ := u
          obtain rfl : pc = .lock := hpc
          rw [hu]
          rfl
        | delLock => exact absurd rfl hdel
        | _ => cases hcmd
      · exact resume_sweeping hn (Bool.eq_false_iff.mpr hcmd) _
    rw [hact, Option.elim_none]
    exact ⟨hg.now, hg.key, tied_update_self hg.since hsame⟩

theorem env_tied {g g' : Guarded ι} {e : Env} (hg : g.Tied)
    (h : g.step cfg (.act (.env e)) = some g') : g'.Tied := by
  obtain ⟨c, hc, rfl⟩ := Guarded.step_act_eq_some.mp h
  obtain ⟨s, hs, rfl⟩ := Program.step_env_eq_some.mp hc
  cases e with
  | tick ms =>
    obtain rfl := Option.some.inj hs
    refine ⟨congrArg (· + ms) hg.now, ?_, hg.since⟩
    simp only [lockAct, Option.elim_some, Lock.State.apply, ← hg.key, hg.now]
    rcases g.lock.key with _ | k
    · rfl
    · by_cases hk : g.system.shared.now + ms < k.2 <;> simp [Option.filter_some, hk]
  | shuffle hs' =>
    simp only [program, Store.env, Option.ite_none_right_eq_some, Option.some.injEq] at hs
    obtain ⟨-, rfl⟩ := hs
    exact ⟨hg.now, hg.key, hg.since⟩

theorem ticker_tied {g g' : Guarded ι} {i : ι} (hg : g.Tied)
    (h : g.step cfg (.ticker i) = some g') : g'.Tied := by
  obtain ⟨c, hc, rfl⟩ := Option.map_eq_some_iff.mp h
  obtain ⟨t, ht, hd, rfl⟩ := nextSweep_eq_some.mp hc
  refine ⟨hg.now, hg.key, tied_update_self hg.since ?_⟩
  simp [ht, Thread.sweeping, hd, Sweep.start]

theorem step_tied {g g' : Guarded ι} {m : Move ι} (hg : g.Tied) (h : g.step cfg m = some g') :
    g'.Tied := by
  cases m with
  | act a =>
    cases a with
    | cmd i => exact cmd_tied hg h
    | fault i => exact fault_tied hg h
    | env e => exact env_tied hg h
  | ticker i => exact ticker_tied hg h

omit [DecidableEq ι] in
theorem lockAct_eq_release {c : System ι} {a : Act ι Env} {i : ι}
    (h : lockAct cfg c a = some (.release i)) :
    a = .cmd i ∧ (program cfg).executes c a = some .delLock := by
  cases a with
  | cmd j =>
    simp only [lockAct] at h
    split at h
    · cases h
    · next hn =>
      obtain rfl : j = i := Lock.Act.release.inj (Option.some.inj h)
      exact ⟨rfl, hn⟩
    · cases h
  | fault j =>
    simp only [lockAct] at h
    split at h <;> cases h
  | env e => cases e <;> cases h

/-- The lock of the system and of its history agree, and the history is sound. -/
def Guarded.Sound (cfg : Config) (g : Guarded ι) : Prop := g.Tied ∧ g.lock.Sound cfg.lockTtlMs

theorem step_sound_of_unlocksInTime {g g' : Guarded ι} {m : Move ι} (hpos : 0 < cfg.lockTtlMs)
    (hg : g.Sound cfg) (hm : UnlocksInTime cfg g m) (h : g.step cfg m = some g') :
    g'.Sound cfg := by
  refine ⟨step_tied hg.1 h, ?_⟩
  cases m with
  | act a =>
    obtain ⟨c, hc, rfl⟩ := Guarded.step_act_eq_some.mp h
    rcases hact : lockAct cfg g.system a with _ | l
    · exact hg.2
    · refine Lock.apply_sound hpos hg.2 fun i hl => ?_
      subst hl
      obtain ⟨rfl, hdel⟩ := lockAct_eq_release hact
      exact hm hdel
  | ticker i =>
    obtain ⟨c, hc, rfl⟩ := Option.map_eq_some_iff.mp h
    exact hg.2

omit [DecidableEq ι] in
theorem releasesOwn_iff_unlocksInTime {g : Guarded ι} {m : Move ι} (hg : g.Sound cfg) :
    ReleasesOwn cfg g m ↔ UnlocksInTime cfg g m := by
  cases m with
  | act a =>
    cases a with
    | cmd i =>
      refine forall_congr' fun hdel => hg.2.owns_iff ?_
      rw [hg.1.since i]
      exact (next_delLock hdel .err).1
    | fault i => exact Iff.rfl
    | env e => exact Iff.rfl
  | ticker i => exact Iff.rfl

omit [DecidableEq ι] in
theorem exclusive_of_sound {g : Guarded ι} (hg : g.Sound cfg) : g.Exclusive cfg := by
  intro i j hij hi hj
  exact hg.2.outlived hij ((hg.1.since i).trans hi) ((hg.1.since j).trans hj)

/-- Along every run of any number of replicas, each sweep deletes only its own lock and two
sweeps overlap only past a TTL, exactly when each sweep unlocks in time. -/
theorem exclusive_iff_unlocksInTime (cfg : Config) {g g' : Guarded ι} {ms : List (Move ι)}
    (hf : g.Fresh) (hr : run (Guarded.step (newGC cfg)) g ms = some g') :
    EveryStep (Guarded.step (newGC cfg)) (ReleasesOwn (newGC cfg)) g ms ∧
        Always (Guarded.step (newGC cfg)) (Guarded.Exclusive (newGC cfg)) g ms ↔
      EveryStep (Guarded.step (newGC cfg)) (UnlocksInTime (newGC cfg)) g ms := by
  have hpos := newGC_lockTtl_pos cfg
  have hstart : g.Sound (newGC cfg) := by
    refine ⟨tied_of_fresh hf, ?_⟩
    rw [hf.lock]
    exact Lock.start_sound _
  have hown := everyStep_iff_of_guarded
    (fun u m u' hu hm hs => step_sound_of_unlocksInTime hpos hu hm hs)
    (fun u m u' hu _ => (releasesOwn_iff_unlocksInTime hu).symm) hstart hr
  constructor
  · rintro ⟨h, -⟩
    exact hown.mpr h
  · intro h
    have hsound : Always (Guarded.step (newGC cfg)) (Guarded.Sound (newGC cfg)) g ms :=
      .of_guarded (fun u m u' hu hm hs => step_sound_of_unlocksInTime hpos hu hm hs) hstart h
    exact ⟨hown.mp h, hsound.mono fun u hu => exclusive_of_sound hu⟩

/-- Three replicas whose first tick has come. -/
def threeReplicas : Guarded (Fin 3) where
  system := ⟨.empty 0, fun _ => .sweep .start⟩
  lock := .start 0

theorem threeReplicas_fresh : threeReplicas.Fresh where
  system := ⟨⟨0, rfl⟩, fun _ => .sweep⟩
  lock := rfl

/-- Two replicas sweep one after the other. -/
theorem turns_exclusive :
    EveryStep (Guarded.step (newGC defaults)) (ReleasesOwn (newGC defaults)) threeReplicas
        [.act (.cmd 0), .act (.cmd 0), .act (.cmd 0), .act (.cmd 0), .act (.cmd 1)] ∧
      Always (Guarded.step (newGC defaults)) (Guarded.Exclusive (newGC defaults)) threeReplicas
        [.act (.cmd 0), .act (.cmd 0), .act (.cmd 0), .act (.cmd 0), .act (.cmd 1)] :=
  (exclusive_iff_unlocksInTime defaults threeReplicas_fresh rfl).mpr (by decide)

/-- Replica 0 sweeps past its lock TTL; replica 1 takes the expired lock, replica 0's deferred
`DEL` removes it, and replica 2 starts a sweep beside replica 1's. -/
def overrun : List (Move (Fin 3)) :=
  [.act (.cmd 0), .act (.env (.tick 660000)), .act (.cmd 1), .act (.cmd 0), .act (.cmd 0),
    .act (.cmd 0), .act (.cmd 2)]

theorem overrun_last :
    (run (Guarded.step (newGC defaults)) threeReplicas overrun).map (fun g =>
      ((g.system.threads 1).sweeping, (g.system.threads 2).sweeping,
        g.lock.since 1, g.lock.since 2, g.lock.now)) =
      some (true, true, some 660000, some 660000, 660000) := rfl

theorem not_always_exclusive :
    ¬ ∀ (cfg : Config) (n : ℕ) (g g' : Guarded (Fin n)) (ms : List (Move (Fin n))), g.Fresh →
      run (Guarded.step (newGC cfg)) g ms = some g' →
      EveryStep (Guarded.step (newGC cfg)) (ReleasesOwn (newGC cfg)) g ms ∧
        Always (Guarded.step (newGC cfg)) (Guarded.Exclusive (newGC cfg)) g ms := by
  intro h
  obtain ⟨g', hr, hg'⟩ := Option.map_eq_some_iff.mp overrun_last
  simp only [Prod.mk.injEq] at hg'
  obtain ⟨h₁, h₂, hs₁, hs₂, hnow⟩ := hg'
  have hex := (h defaults 3 threeReplicas g' overrun threeReplicas_fresh hr).2.last hr
  rcases hex 1 2 (by decide) h₁ h₂ with ⟨t, ht, hle⟩ | ⟨t, ht, hle⟩
  · obtain rfl : 660000 = t := Option.some.inj (hs₁.symm.trans ht)
    rw [hnow] at hle
    exact absurd hle (by decide)
  · obtain rfl : 660000 = t := Option.some.inj (hs₂.symm.trans ht)
    rw [hnow] at hle
    exact absurd hle (by decide)

end CodeRunner.Blob
