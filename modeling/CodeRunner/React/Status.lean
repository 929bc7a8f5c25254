import CodeRunner.React.Reassemble
import CodeRunner.Worker.Collect
import CodeRunner.Worker.Outcome

/-! # The status that the hook shows

Each event of a job sets the status, and only the reply of a status pull is compared with what
the hook already shows. The status never falls exactly if no event that stands for a lower
status is delivered after one that stands for a higher.
-/

namespace CodeRunner.React

open Transition

open Worker (StagePhase Artifact)

inductive JobStatusState | idle | queued | running | done
  deriving DecidableEq, Repr

/-- `STATUS_RANK`. -/
def statusRank : JobStatusState → ℕ
  | .idle => 0
  | .queued => 1
  | .running => 2
  | .done => 3

inductive JobState | queued | starting | running | done | killed | error
  deriving DecidableEq, Repr

def wireStateToStatus : JobState → JobStatusState
  | .running => .running
  | .done | .killed | .error => .done
  | .queued | .starting => .queued

structure ResultEvent where
  exitCode : Option ℤ
  signal : Option String
  timedOut : Bool
  idleTimedOut : Bool
  truncated : Bool
  durationMs : ℤ
  deriving DecidableEq, Repr

structure Hook where
  stage : Option StagePhase
  stdoutBuf : List (ℕ × List Char)
  stderrBuf : List (ℕ × List Char)
  compileBuf : List (ℕ × List Char)
  stdout : List Char
  stderr : List Char
  compileOutput : List Char
  result : Option ResultEvent
  artifacts : List Artifact
  status : JobStatusState

/-- The reset for a new channel. -/
def Hook.subscribed : Hook := ⟨none, [], [], [], [], [], [], none, [], .queued⟩

/-- What reaches the hook: the events of the channel, and the reply of a status pull. -/
inductive Delivery where
  | stage (phase : StagePhase)
  | stdout (data : ℕ × List Char)
  | stderr (data : ℕ × List Char)
  | compileOutput (data : ℕ × List Char)
  | result (data : ResultEvent)
  | artifact (data : Artifact)
  | resolved (wireState : Option JobState)

def Hook.deliver (h : Hook) : Delivery → Hook
  | .stage phase =>
    { h with stage := some phase, status := if phase = .queued then .queued else .running }
  | .stdout data =>
    let buf := Buffer.set h.stdoutBuf data.1 data.2
    { h with stdoutBuf := buf, stdout := reassemble buf, status := .running }
  | .stderr data =>
    let buf := Buffer.set h.stderrBuf data.1 data.2
    { h with stderrBuf := buf, stderr := reassemble buf, status := .running }
  | .compileOutput data =>
    let buf := Buffer.set h.compileBuf data.1 data.2
    { h with compileBuf := buf, compileOutput := reassemble buf, status := .running }
  | .result data => { h with result := some data, status := .done }
  | .artifact data => { h with artifacts := h.artifacts ++ [data] }
  | .resolved none => h
  | .resolved (some wireState) =>
    let pulled := wireStateToStatus wireState
    { h with status := if statusRank h.status < statusRank pulled then pulled else h.status }

def Hook.step (h : Hook) (d : Delivery) : Option Hook := some (h.deliver d)

/-- The status does not move to a lower rank. -/
def KeepsRank (h : Hook) (d : Delivery) : Prop :=
  statusRank h.status ≤ statusRank (h.deliver d).status

instance (h : Hook) (d : Delivery) : Decidable (KeepsRank h d) :=
  inferInstanceAs (Decidable (_ ≤ _))

def Delivery.sets : Delivery → Option JobStatusState
  | .stage phase => some (if phase = .queued then .queued else .running)
  | .stdout _ | .stderr _ | .compileOutput _ => some .running
  | .result _ => some .done
  | .artifact _ | .resolved _ => none

def Delivery.tells : Delivery → Option JobStatusState
  | .resolved wireState => wireState.map wireStateToStatus
  | d => d.sets

/-- No event that sets a lower status comes after a delivery that stands for a higher. -/
def InOrder (ds : List Delivery) : Prop :=
  ds.Pairwise fun d e => ∀ t ∈ d.tells, ∀ u ∈ e.sets, statusRank t ≤ statusRank u

instance (ds : List Delivery) : Decidable (InOrder ds) :=
  inferInstanceAs (Decidable (List.Pairwise _ ds))

variable {h : Hook} {d : Delivery} {ds : List Delivery}

theorem keepsRank_iff : KeepsRank h d ↔ ∀ t ∈ d.sets, statusRank h.status ≤ statusRank t := by
  cases d with
  | artifact data => exact iff_of_true (Nat.le_refl _) nofun
  | resolved wireState =>
    refine iff_of_true ?_ nofun
    cases wireState with
    | none => exact Nat.le_refl _
    | some wireState =>
      simp only [KeepsRank, Hook.deliver]
      split
      · next hlt => exact Nat.le_of_lt hlt
      · exact Nat.le_refl _
  | _ => simp [KeepsRank, Hook.deliver, Delivery.sets]

theorem rank_deliver_le_iff (hk : KeepsRank h d) (n : ℕ) :
    statusRank (h.deliver d).status ≤ n ↔
      statusRank h.status ≤ n ∧ ∀ t ∈ d.tells, statusRank t ≤ n := by
  cases d with
  | artifact data => simp [Hook.deliver, Delivery.tells, Delivery.sets]
  | resolved wireState =>
    cases wireState with
    | none => simp [Hook.deliver, Delivery.tells]
    | some wireState =>
      simp only [Hook.deliver, Delivery.tells, Option.map_some, Option.mem_some_iff, forall_eq']
      split <;> omega
  | _ =>
    rw [keepsRank_iff] at hk
    simp only [Delivery.sets, Option.mem_some_iff, forall_eq'] at hk
    simp only [Hook.deliver, Delivery.tells, Delivery.sets, Option.mem_some_iff, forall_eq']
    omega

theorem inOrder_cons :
    InOrder (d :: ds) ↔
      (∀ e ∈ ds, ∀ t ∈ d.tells, ∀ u ∈ e.sets, statusRank t ≤ statusRank u) ∧ InOrder ds :=
  List.pairwise_cons

theorem everyStep_keepsRank_iff :
    EveryStep Hook.step KeepsRank h ds ↔
      (∀ e ∈ ds, ∀ u ∈ e.sets, statusRank h.status ≤ statusRank u) ∧ InOrder ds := by
  induction ds generalizing h with
  | nil => exact iff_of_true trivial ⟨nofun, List.Pairwise.nil⟩
  | cons d ds ih =>
    have hstep : h.step d = some (h.deliver d) := rfl
    rw [everyStep_cons hstep, ih, inOrder_cons, List.forall_mem_cons,
      ← keepsRank_iff]
    constructor
    · rintro ⟨hk, hall, horder⟩
      refine ⟨⟨hk, fun e he u hu => ?_⟩, fun e he t ht u hu => ?_, horder⟩
      · exact ((rank_deliver_le_iff hk _).mp (hall e he u hu)).1
      · exact ((rank_deliver_le_iff hk _).mp (hall e he u hu)).2 t ht
    · rintro ⟨⟨hk, hall⟩, hd, horder⟩
      refine ⟨hk, fun e he u hu => ?_, horder⟩
      apply (rank_deliver_le_iff hk _).mpr
      exact ⟨hall e he u hu, fun t ht => hd e he t ht u hu⟩

/-- No event goes back to `idle`. -/
theorem queued_le_sets : ∀ u ∈ d.sets, statusRank .queued ≤ statusRank u := by
  cases d with
  | stage phase => cases phase <;> simp [Delivery.sets, statusRank]
  | artifact data | resolved wireState => nofun
  | _ => simp [Delivery.sets, statusRank]

/-- The status never falls exactly if the deliveries come in order. -/
theorem status_monotone_iff (ds : List Delivery) :
    EveryStep Hook.step KeepsRank .subscribed ds ↔ InOrder ds := by
  rw [everyStep_keepsRank_iff]
  exact and_iff_right fun e _ => queued_le_sets

/-- A chunk of output that arrives after the result puts the job back to running. -/
def lateOutput : List Delivery :=
  [.stage .running, .result ⟨some 0, none, false, false, false, 12⟩, .stdout (1, ['h', 'i'])]

theorem status_falls :
    ((lateOutput.take 2).foldl Hook.deliver .subscribed).status = .done ∧
      (lateOutput.foldl Hook.deliver .subscribed).status = .running ∧
      ¬ EveryStep Hook.step KeepsRank .subscribed lateOutput := by
  refine ⟨rfl, rfl, fun hall => ?_⟩
  exact absurd hall.2 (by simp [EveryStep, Hook.step, KeepsRank, Hook.deliver, statusRank])

end CodeRunner.React
