import CodeRunner.Scaling
import CodeRunner.Session.Pump

/-! # The idle clock

`runIdleClock` beside all that signals activity to it: the two output pumps, the stdin pump of the
worker, and the goroutine that forwards the signals of the latter. A chunk and its signal are two
steps, every send is non-blocking, and the clock takes any ready case of its `select`.
-/

namespace CodeRunner.Session.IdleClock

open Transition

/-- The capacity of `activityCh` and of `stdinActivity`. -/
def activityCap : ℕ := 64

/-- Inside `runIdleClock`: before the timer is made, at the `select`, in the case of an activity
before and after the `Stop`, in the case of the timer before and after the call of `terminate`, and
after the return on `done`. -/
inductive ClockPc where
  | created
  | selecting
  | active
  | stopped
  | expired
  | terminated
  | returned
  deriving DecidableEq, Repr

/-- The goroutine that forwards the activity on stdin: at its `select`, and with a signal that it
has received and not sent. -/
inductive FanInPc where
  | selecting
  | holding
  | returned
  deriving DecidableEq, Repr

/-- The two channels hold as many signals as their fields say. `pump` and `stdinPump` are the pumps
between a chunk and its signal. `chunks` are the times of all chunks so far, and `resetAt` is when
the timer was made or last reset. Times are in nanoseconds. -/
structure Clock where
  now : ℤ
  pc : ClockPc
  timer : Option ℤ
  activityCh : ℕ
  stdinActivity : ℕ
  fanIn : FanInPc
  pump : Stream → Bool
  stdinPump : Bool
  done : Bool
  chunks : List ℤ
  resetAt : ℤ

/-- `forward` is the call of a sink and `write` the return of `writeAll`. `receive`, `send` and
`fanInDone` are the steps of the forwarding goroutine. -/
inductive ClockAct where
  | tick (d : ℕ)
  | forward (i : Stream)
  | signalActivity (i : Stream)
  | write
  | signalStdin
  | receive
  | send
  | fanInDone
  | newTimer
  | takeTimer
  | terminate
  | takeActivity
  | stop
  | reset
  | takeDone
  | close
  deriving DecidableEq, Repr

namespace Clock

def start : Clock where
  now := 0
  pc := .created
  timer := none
  activityCh := 0
  stdinActivity := 0
  fanIn := .selecting
  pump := fun _ => false
  stdinPump := false
  done := false
  chunks := []
  resetAt := 0

/-- A send with a `default`. -/
def offer (n : ℕ) : ℕ := if n < activityCap then n + 1 else n

/-- `NewTimer` and `Reset`, with what follows up to the `select`. -/
def arm (limits : Limits) (s : Clock) : Clock :=
  { s with
    pc := .selecting
    timer := some (s.now + (Scaling.idleTimer limits).toInt)
    resetAt := s.now }

def step (limits : Limits) (s : Clock) : ClockAct → Option Clock
  | .tick d => some { s with now := s.now + d }
  | .forward i =>
    if s.pump i = false then
      some { s with pump := Function.update s.pump i true, chunks := s.now :: s.chunks }
    else none
  | .signalActivity i =>
    if s.pump i = true then
      some { s with pump := Function.update s.pump i false, activityCh := offer s.activityCh }
    else none
  | .write =>
    if s.stdinPump = false then
      some { s with stdinPump := true, chunks := s.now :: s.chunks }
    else none
  | .signalStdin =>
    if s.stdinPump = true then
      some { s with stdinPump := false, stdinActivity := offer s.stdinActivity }
    else none
  | .receive =>
    if s.fanIn = .selecting ∧ 0 < s.stdinActivity then
      some { s with fanIn := .holding, stdinActivity := s.stdinActivity - 1 }
    else none
  | .send =>
    if s.fanIn = .holding then
      some { s with fanIn := .selecting, activityCh := offer s.activityCh }
    else none
  | .fanInDone =>
    if s.fanIn = .selecting ∧ s.done = true then some { s with fanIn := .returned } else none
  | .newTimer => if s.pc = .created then some (s.arm limits) else none
  | .takeTimer =>
    match s.pc, s.timer with
    | .selecting, some deadline =>
      if deadline ≤ s.now then some { s with pc := .expired, timer := none } else none
    | _, _ => none
  | .terminate => if s.pc = .expired then some { s with pc := .terminated } else none
  | .takeActivity =>
    if s.pc = .selecting ∧ 0 < s.activityCh then
      some { s with pc := .active, activityCh := s.activityCh - 1 }
    else none
  | .stop =>
    -- a timer that has been stopped delivers no earlier expiry, so there is nothing to drain
    if s.pc = .active then some { s with pc := .stopped, timer := none } else none
  | .reset => if s.pc = .stopped then some (s.arm limits) else none
  | .takeDone =>
    if s.pc = .selecting ∧ s.done = true then some { s with pc := .returned } else none
  | .close => some { s with done := true }

/-- A signal is under way to the timer: still to be sent, in a channel, held between the two, or
received by the clock. -/
def Pending (s : Clock) : Prop :=
  (∃ i, s.pump i = true) ∨ s.stdinPump = true ∨ 0 < s.stdinActivity ∨ s.fanIn = .holding ∨
    0 < s.activityCh ∨ s.pc = .active ∨ s.pc = .stopped

instance (s : Clock) : Decidable s.Pending := inferInstanceAs (Decidable (_ ∨ _))

/-- A chunk of the time `τ` is no younger than `IdleMs`. -/
def Old (limits : Limits) (s : Clock) (τ : ℤ) : Prop :=
  τ + limits.idleMs.toInt * 1000000 ≤ s.now

instance (limits : Limits) (s : Clock) (τ : ℤ) : Decidable (s.Old limits τ) :=
  inferInstanceAs (Decidable (_ ≤ _))

end Clock

/-- `terminate` is called with `reasonIdle` only when no chunk is younger than `IdleMs`. -/
def Respects (limits : Limits) (s : Clock) : ClockAct → Prop
  | .terminate => s.pc = .expired → ∀ τ ∈ s.chunks, s.Old limits τ
  | _ => True

/-- The clock takes its timer only while no signal is under way, and from there to the call of
`terminate` no chunk goes out. -/
def Yields (s : Clock) : ClockAct → Prop
  | .takeTimer => ¬ s.Pending
  | .forward _ | .write => s.pc ≠ .expired
  | _ => True

instance (limits : Limits) (s : Clock) : ∀ a, Decidable (Respects limits s a)
  | .terminate => inferInstanceAs (Decidable (_ → _))
  | .tick _ | .forward _ | .signalActivity _ | .write | .signalStdin | .receive | .send
  | .fanInDone | .newTimer | .takeTimer | .takeActivity | .stop | .reset | .takeDone | .close =>
    isTrue trivial

instance (s : Clock) : ∀ a, Decidable (Yields s a)
  | .takeTimer => inferInstanceAs (Decidable (¬ _))
  | .forward _ | .write => inferInstanceAs (Decidable (_ ≠ _))
  | .tick _ | .signalActivity _ | .signalStdin | .receive | .send | .fanInDone | .newTimer
  | .terminate | .takeActivity | .stop | .reset | .takeDone | .close => isTrue trivial

variable {limits : Limits} {s s' : Clock} {a : ClockAct} {as : List ClockAct}

theorem offer_pos : 0 < Clock.offer n := by
  unfold Clock.offer activityCap
  split <;> omega

/-- What a step does to a timer: time passes, a chunk goes out, a signal moves on, the timer is set
anew, or the clock leaves its `select`. -/
inductive Clock.Moves (limits : Limits) (s : Clock) (a : ClockAct) : Clock → Prop
  | tick (d : ℕ) : Moves limits s a { s with now := s.now + d }
  | chunk {s' : Clock} (hyields : Yields s a → s.pc ≠ .expired) (hnow : s'.now = s.now)
      (hpc : s'.pc = s.pc) (htimer : s'.timer = s.timer) (hreset : s'.resetAt = s.resetAt)
      (hchunks : s'.chunks = s.now :: s.chunks) (hpending : s'.Pending) : Moves limits s a s'
  | signal {s' : Clock} (hnow : s'.now = s.now) (hpc : s'.pc = .expired ↔ s.pc = .expired)
      (htimer : ∀ D, s'.timer = some D → s.timer = some D) (hreset : s'.resetAt = s.resetAt)
      (hchunks : s'.chunks = s.chunks) (hpending : s'.Pending ↔ s.Pending) : Moves limits s a s'
  | arm : Moves limits s a (s.arm limits)
  | expire {D : ℤ} (hyields : Yields s a → ¬ s.Pending) (htimer : s.timer = some D)
      (hle : D ≤ s.now) (hpc : s.pc = .selecting) :
      Moves limits s a { s with pc := .expired, timer := none }
  | leave {pc : ClockPc} (hpc : s.pc = .expired ∨ s.pc = .selecting) (hne : pc ≠ .expired) :
      Moves limits s a { s with pc := pc }

theorem moves (h : s.step limits a = some s') : s.Moves limits a s' := by
  cases a with
  | tick d =>
    cases h
    exact .tick d
  | forward i =>
    obtain ⟨-, h⟩ := Option.ite_none_right_eq_some.mp h
    cases h
    exact .chunk id rfl rfl rfl rfl rfl (.inl ⟨i, Function.update_self ..⟩)
  | signalActivity i =>
    obtain ⟨hpump, h⟩ := Option.ite_none_right_eq_some.mp h
    cases h
    exact .signal rfl Iff.rfl (fun _ => id) rfl rfl
      (iff_of_true (.inr (.inr (.inr (.inr (.inl offer_pos))))) (.inl ⟨i, hpump⟩))
  | write =>
    obtain ⟨-, h⟩ := Option.ite_none_right_eq_some.mp h
    cases h
    exact .chunk id rfl rfl rfl rfl rfl (.inr (.inl rfl))
  | signalStdin =>
    obtain ⟨hpump, h⟩ := Option.ite_none_right_eq_some.mp h
    cases h
    exact .signal rfl Iff.rfl (fun _ => id) rfl rfl
      (iff_of_true (.inr (.inr (.inl offer_pos))) (.inr (.inl hpump)))
  | receive =>
    obtain ⟨⟨-, hch⟩, h⟩ := Option.ite_none_right_eq_some.mp h
    cases h
    exact .signal rfl Iff.rfl (fun _ => id) rfl rfl
      (iff_of_true (.inr (.inr (.inr (.inl rfl)))) (.inr (.inr (.inl hch))))
  | send =>
    obtain ⟨hfan, h⟩ := Option.ite_none_right_eq_some.mp h
    cases h
    exact .signal rfl Iff.rfl (fun _ => id) rfl rfl
      (iff_of_true (.inr (.inr (.inr (.inr (.inl offer_pos)))))
        (.inr (.inr (.inr (.inl hfan)))))
  | fanInDone =>
    obtain ⟨⟨hfan, -⟩, h⟩ := Option.ite_none_right_eq_some.mp h
    cases h
    exact .signal rfl Iff.rfl (fun _ => id) rfl rfl (by simp [Clock.Pending, hfan])
  | newTimer | reset =>
    obtain ⟨-, h⟩ := Option.ite_none_right_eq_some.mp h
    cases h
    exact .arm
  | takeTimer =>
    simp only [Clock.step] at h
    split at h
    · next hpc htimer =>
      obtain ⟨hle, h⟩ := Option.ite_none_right_eq_some.mp h
      cases h
      exact .expire id htimer hle hpc
    · cases h
  | terminate =>
    obtain ⟨hpc, h⟩ := Option.ite_none_right_eq_some.mp h
    cases h
    exact .leave (.inl hpc) nofun
  | takeActivity =>
    obtain ⟨⟨hpc, hch⟩, h⟩ := Option.ite_none_right_eq_some.mp h
    cases h
    exact .signal rfl (by simp [hpc]) (fun _ => id) rfl rfl
      (iff_of_true (.inr (.inr (.inr (.inr (.inr (.inl rfl))))))
        (.inr (.inr (.inr (.inr (.inl hch))))))
  | stop =>
    obtain ⟨hpc, h⟩ := Option.ite_none_right_eq_some.mp h
    cases h
    exact .signal rfl (by simp [hpc]) nofun rfl rfl
      (iff_of_true (.inr (.inr (.inr (.inr (.inr (.inr rfl))))))
        (.inr (.inr (.inr (.inr (.inr (.inl hpc)))))))
  | takeDone =>
    obtain ⟨⟨hpc, -⟩, h⟩ := Option.ite_none_right_eq_some.mp h
    cases h
    exact .leave (.inr hpc) nofun
  | close =>
    cases h
    exact .signal rfl Iff.rfl (fun _ => id) rfl rfl Iff.rfl

/-- The timer runs from `resetAt`, and with no signal under way it knows of every chunk. -/
structure Timed (limits : Limits) (s : Clock) : Prop where
  reset : s.resetAt ≤ s.now
  chunks : ∀ τ ∈ s.chunks, τ ≤ s.now
  timer : ∀ D, s.timer = some D → D = s.resetAt + (Scaling.idleTimer limits).toInt
  expired : s.pc = .expired → s.resetAt + (Scaling.idleTimer limits).toInt ≤ s.now
  heard : ¬ s.Pending → ∀ τ ∈ s.chunks, τ ≤ s.resetAt

theorem timed_start : Timed limits .start where
  reset := Int.le_refl 0
  chunks := nofun
  timer := nofun
  expired := nofun
  heard := nofun

theorem timed_step (hs : Timed limits s) (h : s.step limits a = some s') : Timed limits s' := by
  cases moves h with
  | tick d =>
    constructor
    · have hle := hs.reset
      simp only
      omega
    · intro τ hτ
      have hle := hs.chunks τ hτ
      simp only
      omega
    · exact hs.timer
    · intro hpc
      have hle := hs.expired hpc
      simp only
      omega
    · exact hs.heard
  | chunk _ hnow hpc htimer hreset hchunks hpending =>
    constructor
    · rw [hnow, hreset]
      exact hs.reset
    · rw [hnow, hchunks, List.forall_mem_cons]
      exact ⟨Int.le_refl _, hs.chunks⟩
    · rw [htimer, hreset]
      exact hs.timer
    · rw [hpc, hnow, hreset]
      exact hs.expired
    · exact fun hnot => absurd hpending hnot
  | signal hnow hpc htimer hreset hchunks hpending =>
    constructor
    · rw [hnow, hreset]
      exact hs.reset
    · rw [hnow, hchunks]
      exact hs.chunks
    · intro D hD
      rw [hreset]
      exact hs.timer D (htimer D hD)
    · rw [hpc, hnow, hreset]
      exact hs.expired
    · rw [hchunks, hreset]
      exact fun hnot => hs.heard fun hp => hnot (hpending.mpr hp)
  | arm =>
    constructor
    · exact Int.le_refl _
    · exact hs.chunks
    · exact fun D hD => (Option.some.inj hD).symm
    · nofun
    · exact fun _ => hs.chunks
  | expire _ htimer hle hpc =>
    constructor
    · exact hs.reset
    · exact hs.chunks
    · nofun
    · exact fun _ => hs.timer _ htimer ▸ hle
    · exact fun hnot => hs.heard fun hp => hnot (by simpa [Clock.Pending, hpc] using hp)
  | leave hpc hne =>
    constructor
    · exact hs.reset
    · exact hs.chunks
    · exact hs.timer
    · exact fun heq => absurd heq hne
    · refine fun hnot => hs.heard fun hp => hnot ?_
      rcases hpc with hpc | hpc
      all_goals
        simp only [Clock.Pending, hpc, reduceCtorEq, or_false] at hp ⊢
        tauto

theorem old_of_expired (hs : Timed limits s) (hpos : 0 < limits.idleMs.toInt)
    (hfits : limits.idleMs.toInt ≤ 9223372036854) (hpc : s.pc = .expired) {τ : ℤ}
    (hτ : τ ≤ s.resetAt) : s.Old limits τ := by
  have hexact := (Scaling.idleTimer_iff hpos).mpr hfits
  have hle := hs.expired hpc
  rw [hexact] at hle
  unfold Clock.Old
  omega

/-- An expired timer has been taken with no signal under way, and there is none since. -/
theorem quiet_step (hq : s.pc = .expired → ¬ s.Pending) (hy : Yields s a)
    (h : s.step limits a = some s') : s'.pc = .expired → ¬ s'.Pending := by
  cases moves h with
  | tick => exact hq
  | chunk hyields _ hpc => exact fun hpc' => absurd (hpc ▸ hpc') (hyields hy)
  | signal _ hpc _ _ _ hpending => exact fun hpc' hp => hq (hpc.mp hpc') (hpending.mp hp)
  | arm => nofun
  | expire hyields _ _ hpc =>
    intro _ hp
    refine hyields hy ?_
    simp only [Clock.Pending, hpc, reduceCtorEq, or_false] at hp ⊢
    tauto
  | leave _ hne => exact fun hpc' => absurd hpc' hne

/-- On any schedule, the idle clock kills no session with a younger chunk if it never takes its
timer while a signal is under way. -/
theorem respects_of_yields (hpos : 0 < limits.idleMs.toInt)
    (hfits : limits.idleMs.toInt ≤ 9223372036854)
    (hy : EveryStep (Clock.step limits) Yields .start as) :
    EveryStep (Clock.step limits) (Respects limits) .start as := by
  have hall : Always (Clock.step limits)
      (fun s => Timed limits s ∧ (s.pc = .expired → ¬ s.Pending)) .start as :=
    .of_guarded (fun s a s' hI hy h => ⟨timed_step hI.1 h, quiet_step hI.2 hy h⟩)
      ⟨timed_start, nofun⟩ hy
  refine EveryStep.of_always_guard (fun s a hI _ => ?_) hall hy
  obtain ⟨htimed, hquiet⟩ := hI
  cases a with
  | terminate =>
    intro hpc τ hτ
    exact old_of_expired htimed hpos hfits hpc (htimed.heard (hquiet hpc) τ hτ)
  | tick | forward | signalActivity | write | signalStdin | receive | send | fanInDone | newTimer
  | takeTimer | takeActivity | stop | reset | takeDone | close => exact True.intro

/-- A session that types once and prints once, and is then left alone. -/
def silentEnd : List ClockAct :=
  [.newTimer, .tick 4000000000, .write, .signalStdin, .receive, .send, .tick 5, .takeActivity,
    .stop, .reset, .tick 6000000000, .forward .stdout, .signalActivity .stdout, .takeActivity,
    .stop, .reset, .tick 10000000000, .takeTimer, .terminate]

theorem respects_silentEnd :
    EveryStep (Clock.step Scaling.defaultLimits) (Respects Scaling.defaultLimits) .start
      silentEnd :=
  respects_of_yields (by decide) (by decide) (by decide)

/-- The timer has expired and output has been signalled by the time the clock is scheduled: it may
take the expired timer all the same. -/
theorem terminates_despite_activity :
    ¬ EveryStep (Clock.step Scaling.defaultLimits) (Respects Scaling.defaultLimits) .start
      [.newTimer, .tick 10000000000, .forward .stdout, .signalActivity .stdout, .takeTimer,
        .terminate] := by
  decide

end CodeRunner.Session.IdleClock
