import Mathlib.Data.Int.Notation
import Mathlib.Data.List.Basic
import Mathlib.Logic.Function.Basic
import CodeRunner.Lib.Transition

/-! # Placing a session in its cgroup leaf

The agent learns the session's pid from `spawn_session`, writes the leaf with
`make_cgroup_leaf` and sends STARTED, while the session hardens itself, runs the job and
forks. A forked process starts in the cgroups of its parent, so the leaf covers the whole job
when every fork comes after the placement.
-/

namespace CodeRunner.Zygote

open Transition

inductive Ctrl where
  | unified
  | memory
  | pids
  | cpuacct
  deriving DecidableEq, Repr

/-- `CG_LAYOUT`; a v1 layout lists its controllers in the order of `bases`. -/
inductive Layout where
  | v2
  | v1 (bases : List Ctrl)
  deriving DecidableEq, Repr

def Layout.ctrls : Layout → List Ctrl
  | .v2 => [.unified]
  | .v1 bases => bases

/-- A file operation of `make_cgroup_leaf` in the leaf of one hierarchy. -/
inductive LeafWrite where
  | makedirs (c : Ctrl)
  | limit (c : Ctrl) (file : String) (value : ℤ)
  | swapLimit (value : ℤ)
  | procs (c : Ctrl)
  deriving DecidableEq, Repr

def leafWrites (memMax pidsMax : ℤ) : Layout → List LeafWrite
  | .v2 =>
    [.makedirs .unified, .limit .unified "memory.max" memMax, .limit .unified "pids.max" pidsMax,
      .procs .unified]
  | .v1 bases =>
    bases.map .makedirs ++
      [.limit .memory "memory.limit_in_bytes" memMax, .swapLimit memMax,
        .limit .pids "pids.max" pidsMax] ++
      bases.map .procs

inductive Outcome where
  | ok
  | tolerated
  | error
  deriving DecidableEq, Repr

/-- Where `handle_job` is between the fork of the session and STARTED. -/
inductive AgentPc where
  | spawning
  | leaf (todo : List LeafWrite)
  | leafDone (made : Bool)
  | started (cgroupEnforced : Bool)
  deriving DecidableEq, Repr

/-- The agent with one job: the hierarchies in whose leaf each live process of the job is. The
session is process 0. -/
structure Spawn where
  agent : AgentPc
  hardened : Bool
  procs : ℕ → Option (Ctrl → Bool)
  nextPid : ℕ

/-- The session right after its fork, in the cgroups of the agent. -/
def Spawn.start : Spawn where
  agent := .spawning
  hardened := false
  procs p := if p = 0 then some fun _ => false else none
  nextPid := 1

/-- The limits of a job and the layout that the agent resolved at boot. -/
structure Host where
  layout : Option Layout
  memMax : ℤ
  pidsMax : ℤ

def Host.ctrls (h : Host) : List Ctrl := (h.layout.map Layout.ctrls).getD []

/-- A write of the session's pid to `cgroup.procs` moves the session, and the session alone. -/
def Spawn.apply (s : Spawn) : LeafWrite → Spawn
  | .procs c =>
    { s with
      procs := Function.update s.procs 0 ((s.procs 0).map fun m => Function.update m c true) }
  | _ => s

def Spawn.agentStep (h : Host) (s : Spawn) (o : Outcome) : Option Spawn :=
  match s.agent with
  | .spawning =>
    match h.layout with
    | none => some { s with agent := .leafDone false }
    | some layout => some { s with agent := .leaf (leafWrites h.memMax h.pidsMax layout) }
  | .leaf (w :: todo) =>
    match o, w with
    | .ok, w => some { s.apply w with agent := .leaf todo }
    | .tolerated, .swapLimit _ => some { s with agent := .leaf todo }
    | .tolerated, _ => none
    | .error, _ => some { s with agent := .leafDone false }
  | .leaf [] => some { s with agent := .leafDone true }
  | .leafDone made => some { s with agent := .started made }
  | .started _ => none

inductive SpawnAct where
  | agent (o : Outcome)
  | harden
  | fork (p : ℕ)
  | exit (p : ℕ)
  deriving DecidableEq, Repr

def Spawn.step (h : Host) (s : Spawn) : SpawnAct → Option Spawn
  | .agent o => s.agentStep h o
  | .harden => if s.hardened then none else some { s with hardened := true }
  | .fork p =>
    match s.procs p with
    | some m =>
      if s.hardened then
        some { s with
          procs := Function.update s.procs s.nextPid (some m)
          nextPid := s.nextPid + 1 }
      else none
    | none => none
  -- The session is the init of its pid namespace: the others die with it.
  | .exit p =>
    if p = 0 then some { s with procs := fun _ => none }
    else some { s with procs := Function.update s.procs p none }

/-- Once STARTED has announced the leaf, every live process of the job is in all of it. -/
def Spawn.Covered (h : Host) (s : Spawn) : Prop :=
  s.agent = .started true → ∀ p m, s.procs p = some m → ∀ c ∈ h.ctrls, m c = true

def AgentPc.gaveUp : AgentPc → Bool
  | .leafDone false | .started false => true
  | _ => false

/-- A process forks only once it is in every leaf, as long as the agent may still announce
them. -/
def ForksPlaced (h : Host) (s : Spawn) : SpawnAct → Prop
  | .fork p => s.agent.gaveUp = true ∨ ∀ m ∈ s.procs p, ∀ c ∈ h.ctrls, m c = true
  | _ => True

instance ForksPlaced.instDecidable (h : Host) (s : Spawn) : ∀ a, Decidable (ForksPlaced h s a)
  | .fork p => inferInstanceAs
      (Decidable (s.agent.gaveUp = true ∨ ∀ m ∈ s.procs p, ∀ c ∈ h.ctrls, m c = true))
  | .agent _ | .harden | .exit _ => isTrue trivial

def AgentPc.Awaits (h : Host) (c : Ctrl) : AgentPc → Prop
  | .spawning => h.layout.isSome
  | .leaf todo => .procs c ∈ todo
  | _ => False

/-- The descendants are in every leaf, and the session in every leaf but those still to be
written. -/
structure Spawn.Placed (h : Host) (s : Spawn) : Prop where
  nextPid : 0 < s.nextPid
  session : ∀ m, s.procs 0 = some m → ∀ c ∈ h.ctrls, m c = true ∨ s.agent.Awaits h c
  others : ∀ p m, p ≠ 0 → s.procs p = some m → ∀ c ∈ h.ctrls, m c = true

variable {h : Host} {s s' : Spawn} {a : SpawnAct}

theorem procs_mem_leafWrites {layout : Layout} {c : Ctrl} {memMax pidsMax : ℤ}
    (hc : c ∈ layout.ctrls) : .procs c ∈ leafWrites memMax pidsMax layout := by
  cases layout with
  | v2 =>
    obtain rfl := List.mem_singleton.mp hc
    simp [leafWrites]
  | v1 bases =>
    have hmem : LeafWrite.procs c ∈ bases.map LeafWrite.procs := List.mem_map_of_mem hc
    simp only [leafWrites, List.mem_append]
    exact .inr hmem

theorem apply_others {w : LeafWrite} {p : ℕ} (hp : p ≠ 0) : (s.apply w).procs p = s.procs p := by
  cases w <;> simp [Spawn.apply, Function.update_of_ne hp]

/-- Membership is never lost, and a write of `cgroup.procs` gives it. -/
theorem apply_session {w : LeafWrite} {m : Ctrl → Bool} (hm : (s.apply w).procs 0 = some m) :
    ∃ m₀, s.procs 0 = some m₀ ∧ ∀ c, (m₀ c = true → m c = true) ∧ (w = .procs c → m c = true) := by
  cases w with
  | procs c₀ =>
    simp only [Spawn.apply, Function.update_self, Option.map_eq_some_iff] at hm
    obtain ⟨m₀, hm₀, rfl⟩ := hm
    refine ⟨m₀, hm₀, fun c => ⟨fun h => ?_, ?_⟩⟩
    · simp only [Function.update_apply]
      split
      · rfl
      · exact h
    · rintro ⟨⟩
      exact Function.update_self ..
  | _ => exact ⟨m, hm, fun c => ⟨id, by simp⟩⟩

theorem agent_placed {o : Outcome} (hs : s.Placed h) (hstep : s.agentStep h o = some s') :
    s'.agent.gaveUp = true ∨ s'.Placed h := by
  unfold Spawn.agentStep at hstep
  split at hstep
  · next hpc =>
    split at hstep
    · exact .inl (by rw [← Option.some.inj hstep]; rfl)
    · next layout hlayout =>
      obtain rfl := Option.some.inj hstep
      refine .inr ⟨hs.nextPid, fun m _ c hc => .inr ?_, hs.others⟩
      have hc' : c ∈ layout.ctrls := by simpa [Host.ctrls, hlayout] using hc
      exact procs_mem_leafWrites hc'
  · next w todo hpc =>
    have hawait : ∀ c, s.agent.Awaits h c ↔ w = .procs c ∨ .procs c ∈ todo := by
      intro c
      rw [hpc]
      simp [AgentPc.Awaits, eq_comm]
    split at hstep
    · obtain rfl := Option.some.inj hstep
      refine .inr ⟨?_, fun m hm c hc => ?_, fun p m hp hm => ?_⟩
      · cases w <;> exact hs.nextPid
      · obtain ⟨m₀, hm₀, hkeep⟩ := apply_session hm
        rcases hs.session m₀ hm₀ c hc with h₁ | h₁
        · exact .inl ((hkeep c).1 h₁)
        · rcases (hawait c).mp h₁ with h₂ | h₂
          · exact .inl ((hkeep c).2 h₂)
          · exact .inr h₂
      · have hm' : s.procs p = some m := by rw [← apply_others hp]; exact hm
        exact hs.others p m hp hm'
    · obtain rfl := Option.some.inj hstep
      refine .inr ⟨hs.nextPid, fun m hm c hc => ?_, hs.others⟩
      rcases hs.session m hm c hc with h₁ | h₁
      · exact .inl h₁
      · rcases (hawait c).mp h₁ with h₂ | h₂
        · cases h₂
        · exact .inr h₂
    · cases hstep
    · exact .inl (by rw [← Option.some.inj hstep]; rfl)
  · next hpc =>
    obtain rfl := Option.some.inj hstep
    refine .inr ⟨hs.nextPid, fun m hm c hc => ?_, hs.others⟩
    rcases hs.session m hm c hc with h₁ | h₁
    · exact .inl h₁
    · rw [hpc] at h₁
      cases h₁
  · next made hpc =>
    obtain rfl := Option.some.inj hstep
    cases made with
    | false => exact .inl rfl
    | true =>
      refine .inr ⟨hs.nextPid, fun m hm c hc => ?_, hs.others⟩
      rcases hs.session m hm c hc with h₁ | h₁
      · exact .inl h₁
      · rw [hpc] at h₁
        exact h₁.elim
  · cases hstep

theorem agent_gaveUp {o : Outcome} (hs : s.agent.gaveUp = true)
    (hstep : s.agentStep h o = some s') : s'.agent.gaveUp = true := by
  unfold Spawn.agentStep at hstep
  split at hstep
  · next hpc => rw [hpc] at hs; cases hs
  · next hpc => rw [hpc] at hs; cases hs
  · next hpc => rw [hpc] at hs; cases hs
  · next made hpc =>
    obtain rfl := Option.some.inj hstep
    rw [hpc] at hs
    cases made with
    | false => rfl
    | true => cases hs
  · cases hstep

theorem fork_placed {p : ℕ} (hs : s.Placed h) (hg : ForksPlaced h s (.fork p))
    (hup : s.agent.gaveUp = false) (hstep : s.step h (.fork p) = some s') : s'.Placed h := by
  simp only [Spawn.step] at hstep
  split at hstep
  · next m hm =>
    split at hstep
    · obtain rfl := Option.some.inj hstep
      have hparent : ∀ c ∈ h.ctrls, m c = true := by
        rcases hg with hg | hg
        · rw [hup] at hg
          cases hg
        · exact hg m hm
      refine ⟨Nat.succ_pos _, fun m₀ hm₀ => ?_, fun q m₁ hq hm₁ => ?_⟩
      · have hne : 0 ≠ s.nextPid := Nat.ne_of_lt hs.nextPid
        simp only [Function.update_of_ne hne] at hm₀
        exact hs.session m₀ hm₀
      · by_cases hqn : q = s.nextPid
        · simp only [hqn, Function.update_self, Option.some.injEq] at hm₁
          exact hm₁ ▸ hparent
        · simp only [Function.update_of_ne hqn] at hm₁
          exact hs.others q m₁ hq hm₁
    · cases hstep
  · cases hstep

theorem exit_placed {p : ℕ} (hs : s.Placed h) (hstep : s.step h (.exit p) = some s') :
    s'.Placed h := by
  simp only [Spawn.step] at hstep
  split at hstep <;> obtain rfl := Option.some.inj hstep
  · refine ⟨hs.nextPid, fun m hm => ?_, fun q m _ hm => ?_⟩ <;> cases hm
  · next hp =>
    refine ⟨hs.nextPid, fun m hm => ?_, fun q m hq hm => ?_⟩
    · simp only [Function.update_of_ne (Ne.symm hp)] at hm
      exact hs.session m hm
    · by_cases hqp : q = p
      · simp [hqp] at hm
      · simp only [Function.update_of_ne hqp] at hm
        exact hs.others q m hq hm

/-- The agent has given up, or every process is placed as far as the agent has got. -/
def Spawn.Tracked (h : Host) (s : Spawn) : Prop := s.agent.gaveUp = true ∨ s.Placed h

theorem step_tracked (hs : s.Tracked h) (hg : ForksPlaced h s a)
    (hstep : s.step h a = some s') : s'.Tracked h := by
  cases hup : s.agent.gaveUp with
  | true =>
    left
    cases a with
    | agent o => exact agent_gaveUp hup hstep
    | harden =>
      simp only [Spawn.step, Option.ite_none_left_eq_some, Option.some.injEq] at hstep
      exact hstep.2 ▸ hup
    | fork p =>
      simp only [Spawn.step] at hstep
      split at hstep
      · split at hstep <;> cases hstep
        exact hup
      · cases hstep
    | exit p =>
      simp only [Spawn.step] at hstep
      split at hstep <;> cases hstep <;> exact hup
  | false =>
    have hp : s.Placed h := by
      rcases hs with hs | hs
      · rw [hup] at hs
        cases hs
      · exact hs
    cases a with
    | agent o => exact agent_placed hp hstep
    | harden =>
      simp only [Spawn.step, Option.ite_none_left_eq_some, Option.some.injEq] at hstep
      exact .inr (hstep.2 ▸ ⟨hp.nextPid, hp.session, hp.others⟩)
    | fork p => exact .inr (fork_placed hp hg hup hstep)
    | exit p => exact .inr (exit_placed hp hstep)

theorem Spawn.Tracked.covered (hs : s.Tracked h) : s.Covered h := by
  intro hpc p m hm c hc
  rcases hs with hs | hs
  · rw [hpc] at hs
    cases hs
  · by_cases hp : p = 0
    · subst hp
      rcases hs.session m hm c hc with h₁ | h₁
      · exact h₁
      · rw [hpc] at h₁
        exact h₁.elim
    · exact hs.others p m hp hm c hc

theorem start_tracked : Spawn.start.Tracked h := by
  refine .inr ⟨Nat.one_pos, fun m _ c hc => .inr ?_, fun p m hp hm => ?_⟩
  · cases hl : h.layout with
    | none => simp [Host.ctrls, hl] at hc
    | some layout => simp [Spawn.start, AgentPc.Awaits, hl]
  · simp [Spawn.start, hp] at hm

/-- The announced leaf covers every live process of the job in every state of a run in which
no process forks before it is in the whole leaf, on either cgroup version. -/
theorem covered_of_forksPlaced {as : List SpawnAct}
    (hg : EveryStep (Spawn.step h) (ForksPlaced h) .start as) :
    Always (Spawn.step h) (Spawn.Covered h) .start as := by
  have hall : Always (Spawn.step h) (Spawn.Tracked h) .start as :=
    .of_guarded (fun s a s' hs hg hstep => step_tracked hs hg hstep) start_tracked hg
  exact hall.mono fun s hs => hs.covered

def unifiedHost : Host := ⟨some .v2, 128 * 1024 * 1024, 64⟩

/-- The seven steps of the agent from the pid of the session to STARTED. -/
def placement : List SpawnAct := List.replicate 7 (.agent .ok)

theorem early_fork_escapes :
    (run (Spawn.step unifiedHost) .start (.harden :: .fork 0 :: placement)).map
      (fun s => (s.agent, (s.procs 1).map (· .unified))) =
      some (.started true, some false) := rfl

theorem not_always_covered :
    ¬ ∀ (h : Host) (t : Spawn) (as : List SpawnAct), run (Spawn.step h) .start as = some t →
      Always (Spawn.step h) (Spawn.Covered h) .start as := by
  intro hall
  obtain ⟨t, hr, ht⟩ := Option.map_eq_some_iff.mp early_fork_escapes
  obtain ⟨hpc, hmem⟩ := Prod.mk.inj ht
  obtain ⟨m, hm, hout⟩ := Option.map_eq_some_iff.mp hmem
  have hlast := (hall unifiedHost t _ hr).last hr hpc 1 m hm .unified (by decide)
  rw [hout] at hlast
  cases hlast

/-- The same fork after STARTED. -/
theorem late_fork_covered :
    Always (Spawn.step unifiedHost) (Spawn.Covered unifiedHost) .start
      (.harden :: placement ++ [.fork 0]) :=
  covered_of_forksPlaced (by decide)

end CodeRunner.Zygote
