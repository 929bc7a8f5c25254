import CodeRunner.Worker.StdinPump

/-! # A kill at the stdin pump

One goroutine writes the chunks and applies the kills. Whether it comes to a kill that waits
without a step of the program is told by what it still owes the stdin on its way there.
-/

namespace CodeRunner.Worker

open Transition

def PumpAct.isPump : PumpAct → Bool
  | .chunk _ | .control _ | .finish | .hear | .read _ | .hangUp => false
  | .seeDone | .takeChunk | .takeControl | .passed | .drained | .write _ | .fail | .written
  | .close | .kill => true

def closeAhead (ctrlCh : List Control) : Bool := .stdinClose ∈ ctrlCh.takeWhile (· ≠ .kill)

namespace StdinPump

/-- The queued chunks are written before the first kill is dequeued. -/
def drains (s : StdinPump) : Bool :=
  !s.eof && decide (s.pc ≠ .closing) && (s.pc.inDrain || closeAhead s.ctrlCh)

/-- What is written before the first kill is dequeued: the rest of the current chunk, and what is
queued if a drain is under way or a close is ahead of the kill. -/
def owed (s : StdinPump) : List UInt8 :=
  s.pc.rest ++ if s.drains then s.stdinCh.flatten else []

/-- No write has failed, and what is owed has room, and is nothing when the program has closed its
stdin. -/
structure Clear (s : StdinPump) : Prop where
  failed : s.failed = false
  room : s.owed.length ≤ s.room
  gone : s.gone = true → s.owed = []

/-- The pump has not returned, and can apply a kill that has not been dequeued by steps of its
own. -/
structure Handles (s : StdinPump) : Prop where
  alive : s.pc ≠ .returned
  kills : ∃ as t, (∀ a ∈ as, a.isPump = true) ∧ run step s as = some t ∧
    s.killsTaken < t.log.count .kill

inductive Stuck (s : StdinPump) : Prop where
  | returned (h : s.pc = .returned)
  | full (h : s.room < s.owed.length)
  | gone (h : s.gone = true) (howed : s.owed ≠ [])

end StdinPump

variable {s s' t : StdinPump} {a : PumpAct} {as : List PumpAct} {room : ℕ}

inductive Owes (s s' : StdinPump) : Prop where
  | same (howed : s'.owed = s.owed) (hroom : s'.room = s.room)
      (hkills : s'.killsTaken = s.killsTaken) (hpc : s'.pc ≠ .returned)
  | wrote (n : ℕ) (hn : n ≤ s.room) (hle : n ≤ s.owed.length) (hgone : s.gone = false)
      (howed : s'.owed = s.owed.drop n) (hroom : s'.room = s.room - n)
      (hkills : s'.killsTaken = s.killsTaken) (hpc : s'.pc ≠ .returned)
  | failed (hpc : s'.pc = .returned) (hkills : s'.killsTaken = s.killsTaken)
  | begins (hpc : s.pc ≠ .returned) (howed : s.owed = [])

theorem owed_congr (hrest : s'.pc.rest = s.pc.rest)
    (hdrains : s.stdinCh ≠ [] → s'.drains = s.drains) (hqueue : s'.stdinCh = s.stdinCh) :
    s'.owed = s.owed := by
  unfold StdinPump.owed
  rw [hrest, hqueue]
  by_cases hempty : s.stdinCh = []
  · simp [hempty]
  · rw [hdrains hempty]

theorem owed_of_drains (h : s.drains = true) : s.owed = s.pc.rest ++ s.stdinCh.flatten := by
  rw [StdinPump.owed, if_pos h]

theorem owed_of_not_drains (h : s.drains = false) : s.owed = s.pc.rest := by
  rw [StdinPump.owed, h, if_neg Bool.false_ne_true, List.append_nil]

@[simp] theorem closeAhead_close (ctrlCh : List Control) :
    closeAhead (.stdinClose :: ctrlCh) = true := by
  simp [closeAhead]

@[simp] theorem closeAhead_kill (ctrlCh : List Control) : closeAhead (.kill :: ctrlCh) = false := by
  simp [closeAhead]

@[simp] theorem closeAhead_start (ctrlCh : List Control) :
    closeAhead (.start :: ctrlCh) = closeAhead ctrlCh := by
  simp [closeAhead]

theorem takeChunk_owes {c : List UInt8} {stdinCh : List (List UInt8)} {pc : PumpPc}
    (hfrom : s.pc = .selecting ∨ s.pc = .draining) (hqueue : s.stdinCh = c :: stdinCh)
    (hpc : pc = if s.eof then if s.pc.inDrain then .checking else .selecting
      else .writing c s.pc.inDrain) :
    Owes s { s with stdinCh := stdinCh, pc := pc } := by
  have hne : s.pc ≠ .returned := by rcases hfrom with h | h <;> rw [h] <;> nofun
  have hrest : s.pc.rest = [] := by rcases hfrom with h | h <;> rw [h] <;> rfl
  cases hdrains : s.drains with
  | false => exact .begins hne (by rw [owed_of_not_drains hdrains, hrest])
  | true =>
    obtain ⟨⟨heof, -⟩, hahead⟩ : (s.eof = false ∧ s.pc ≠ .closing) ∧
        (s.pc.inDrain = true ∨ closeAhead s.ctrlCh = true) := by
      simpa [StdinPump.drains] using hdrains
    rw [heof, if_neg Bool.false_ne_true] at hpc
    subst hpc
    refine .same ?_ rfl rfl nofun
    rw [owed_of_drains hdrains, hrest, hqueue, owed_of_drains]
    · rfl
    · simpa [StdinPump.drains, heof, PumpPc.inDrain] using hahead

theorem step_owes (ha : a.isPump = true) (hdone : s.done = false) (h : s.step a = some s') :
    Owes s s' := by
  cases pump_branch h with
  | chunk | control | finish | hear | read | hangUp => cases ha
  | seeDone hd =>
    rw [hdone] at hd
    cases hd
  | takeChunk hpc hqueue => exact takeChunk_owes hpc hqueue rfl
  | takeClose hpc hctrl =>
    refine .same (owed_congr (by rw [hpc]; rfl) (fun _ => ?_) rfl) rfl rfl (by rintro ⟨⟩)
    simp [StdinPump.drains, hpc, hctrl, PumpPc.inDrain]
  | takeKill hpc hctrl =>
    refine .begins (by rw [hpc]; rintro ⟨⟩) ?_
    simp [StdinPump.owed, StdinPump.drains, hpc, hctrl, PumpPc.rest, PumpPc.inDrain]
  | takeStart hpc hctrl =>
    refine .same (owed_congr rfl (fun _ => ?_) rfl) rfl rfl (by simp [hpc])
    simp [StdinPump.drains, hctrl]
  | passed hpc =>
    refine .same (owed_congr (by rw [hpc]; rfl) (fun _ => ?_) rfl) rfl rfl (by rintro ⟨⟩)
    simp [StdinPump.drains, hpc, PumpPc.inDrain]
  | drained hpc hempty =>
    exact .same (owed_congr (by rw [hpc]; rfl) (fun hne => absurd hempty hne) rfl) rfl rfl
      (by rintro ⟨⟩)
  | @write rest inDrain n hpc hne hle hroom hgone =>
    have howed : s.owed = rest ++ if s.drains then s.stdinCh.flatten else [] := by
      rw [StdinPump.owed, hpc, PumpPc.rest]
    refine .wrote n hroom ?_ hgone ?_ rfl rfl (by rintro ⟨⟩)
    · rw [howed, List.length_append]
      exact Nat.le_add_right_of_le hle
    · rw [howed, List.drop_append_of_le_length hle]
      simp [StdinPump.owed, StdinPump.drains, hpc, PumpPc.rest, PumpPc.inDrain]
  | fail => exact .failed rfl rfl
  | @written inDrain hpc =>
    refine .same (owed_congr ?_ (fun _ => ?_) rfl) rfl rfl ?_
    · rw [hpc]
      cases inDrain <;> rfl
    · cases inDrain <;> simp [StdinPump.drains, hpc, PumpPc.inDrain]
    · cases inDrain <;> rintro ⟨⟩
  | close hpc =>
    refine .begins (by rw [hpc]; rintro ⟨⟩) ?_
    simp [StdinPump.owed, StdinPump.drains, hpc, PumpPc.rest]
  | kill hpc =>
    refine .same (owed_congr (by rw [hpc]; rfl) (fun _ => ?_) rfl) rfl rfl (by rintro ⟨⟩)
    simp [StdinPump.drains, hpc, PumpPc.inDrain]

theorem step_pump_frame (ha : a.isPump = true) (h : s.step a = some s') :
    s'.done = s.done ∧ s'.gone = s.gone := by
  cases pump_branch h with
  | chunk | control | finish | hear | read | hangUp => cases ha
  | seeDone | takeChunk | takeClose | takeKill | takeStart | passed | drained | write | fail
  | written | close | kill => exact ⟨rfl, rfl⟩

theorem step_stuck (hs : s.Stuck) (ha : a.isPump = true) (hdone : s.done = false)
    (h : s.step a = some s') : s'.Stuck ∧ s'.killsTaken = s.killsTaken := by
  obtain ⟨-, hgone⟩ := step_pump_frame ha h
  by_cases hret : s.pc = .returned
  · cases a <;> simp [PumpAct.isPump] at ha <;> simp [StdinPump.step, hret] at h
  · have howes : s.room < s.owed.length ∨ s.gone = true ∧ s.owed ≠ [] := by
      cases hs with
      | returned h => exact absurd h hret
      | full h => exact .inl h
      | gone h howed => exact .inr ⟨h, howed⟩
    cases step_owes ha hdone h with
    | same howed hroom hkills =>
      refine ⟨?_, hkills⟩
      rcases howes with hfull | ⟨hg, hne⟩
      · exact .full (by rw [hroom, howed]; exact hfull)
      · exact .gone (hgone.trans hg) (by rw [howed]; exact hne)
    | wrote n hn hle hopen howed hroom hkills =>
      refine ⟨?_, hkills⟩
      rcases howes with hfull | ⟨hg, -⟩
      · refine .full ?_
        rw [hroom, howed, List.length_drop]
        omega
      · rw [hopen] at hg
        cases hg
    | failed hpc hkills => exact ⟨.returned hpc, hkills⟩
    | begins hpc hnone =>
      rw [hnone] at howes
      rcases howes with hfull | ⟨-, hne⟩
      · exact absurd hfull (Nat.not_lt_zero _)
      · exact absurd rfl hne

theorem run_stuck (hs : s.Stuck) (has : ∀ a ∈ as, a.isPump = true) (hdone : s.done = false)
    (hr : run StdinPump.step s as = some t) : t.killsTaken = s.killsTaken := by
  induction as generalizing s with
  | nil => rw [Option.some.inj hr]
  | cons a as ih =>
    obtain ⟨ha, has⟩ := List.forall_mem_cons.mp has
    obtain ⟨s', h, hr⟩ := run_cons_eq_some.mp hr
    obtain ⟨hs', hkills⟩ := step_stuck hs ha hdone h
    rw [ih hs' has ((step_pump_frame ha h).1.trans hdone) hr, hkills]

/-- The kills that have been dequeued are applied but for the one at hand, and the pump returns
when `done` is closed or a write fails. -/
structure Counted (s : StdinPump) : Prop where
  kills : s.log.count .kill + (if s.pc = .killing then 1 else 0) = s.killsTaken
  failed : s.failed = true → s.pc = .returned
  returned : s.pc = .returned → s.done = true ∨ s.failed = true

theorem counted_start (room : ℕ) : Counted (.start room) := ⟨rfl, nofun, nofun⟩

theorem step_counted (hs : Counted s) (h : s.step a = some s') : Counted s' := by
  have hkills := hs.kills
  have hfailed : s.pc ≠ .returned → ¬s.failed = true := fun hne hf => hne (hs.failed hf)
  cases pump_branch h with
  | chunk | control | hear | read | hangUp | takeStart => exact ⟨hkills, hs.failed, hs.returned⟩
  | finish => exact ⟨hkills, hs.failed, fun _ => .inl rfl⟩
  | seeDone hdone hpc =>
    refine ⟨?_, fun _ => rfl, fun _ => .inl hdone⟩
    rcases hpc with hpc | hpc <;> rw [hpc] at hkills <;> exact hkills
  | takeChunk hpc =>
    refine ⟨?_, fun hf => ?_, fun hret => ?_⟩
    · rcases hpc with hpc | hpc <;> rw [hpc] at hkills <;>
        cases s.eof <;> simpa [hpc, PumpPc.inDrain] using hkills
    · rcases hpc with hpc | hpc <;> exact absurd hf (hfailed (by rw [hpc]; rintro ⟨⟩))
    · rcases hpc with hpc | hpc <;> cases heof : s.eof <;>
        simp [hpc, heof, PumpPc.inDrain] at hret
  | takeClose hpc | passed hpc | drained hpc =>
    rw [hpc] at hkills
    exact ⟨hkills, fun hf => absurd hf (hfailed (by rw [hpc]; rintro ⟨⟩)), by rintro ⟨⟩⟩
  | takeKill hpc =>
    rw [hpc] at hkills
    exact ⟨congrArg (· + 1) hkills, fun hf => absurd hf (hfailed (by rw [hpc]; rintro ⟨⟩)),
      by rintro ⟨⟩⟩
  | write hpc =>
    rw [hpc] at hkills
    refine ⟨?_, fun hf => absurd hf (hfailed (by rw [hpc]; rintro ⟨⟩)), by rintro ⟨⟩⟩
    simpa [List.count_append] using hkills
  | fail hpc =>
    rw [hpc] at hkills
    exact ⟨hkills, fun _ => rfl, fun _ => .inr rfl⟩
  | @written inDrain hpc =>
    rw [hpc] at hkills
    refine ⟨?_, fun hf => absurd hf (hfailed (by rw [hpc]; rintro ⟨⟩)), ?_⟩
    · cases inDrain <;> exact hkills
    · cases inDrain <;> rintro ⟨⟩
  | close hpc =>
    rw [hpc] at hkills
    refine ⟨?_, fun hf => absurd hf (hfailed (by rw [hpc]; rintro ⟨⟩)), by rintro ⟨⟩⟩
    cases heof : s.eof <;> simpa [heof, List.count_append] using hkills
  | kill hpc =>
    rw [hpc] at hkills
    refine ⟨?_, fun hf => absurd hf (hfailed (by rw [hpc]; rintro ⟨⟩)), by rintro ⟨⟩⟩
    simpa [List.count_append] using hkills

/-- The steps of the pump up to the kill, at most. -/
def StdinPump.stepsLeft (s : StdinPump) : ℕ :=
  s.ctrlCh.length * (4 * s.stdinCh.length + 8) +
    match s.pc with
    | .selecting | .returned => 0
    | .killing | .closing => 1
    | .writing rest false => if rest = [] then 1 else 2
    | .draining => 4 * s.stdinCh.length + 2
    | .checking => 4 * s.stdinCh.length + 3
    | .writing rest true => 4 * s.stdinCh.length + if rest = [] then 4 else 5

theorem not_stuck_iff :
    ¬ s.Stuck ↔ s.pc ≠ .returned ∧ s.owed.length ≤ s.room ∧ (s.gone = true → s.owed = []) := by
  constructor
  · intro h
    refine ⟨fun hpc => h (.returned hpc), Nat.le_of_not_lt fun hfull => h (.full hfull),
      fun hgone => ?_⟩
    by_contra hne
    exact h (.gone hgone hne)
  · rintro ⟨hpc, hroom, hgone⟩ (h | h | ⟨h, hne⟩)
    · exact hpc h
    · exact Nat.not_lt_of_le hroom h
    · exact hne (hgone h)

/-- A step that leaves the rest of what is owed, or after which nothing is, does not get stuck. -/
theorem not_stuck_of_step (hs : ¬ s.Stuck) (ha : a.isPump = true) (h : s.step a = some s')
    (howes : (s'.owed = s.owed ∧ s'.room = s.room) ∨ s'.owed = [] ) (hpc : s'.pc ≠ .returned) :
    ¬ s'.Stuck := by
  obtain ⟨-, hroom, hgone⟩ := not_stuck_iff.mp hs
  refine not_stuck_iff.mpr ⟨hpc, ?_, fun hg => ?_⟩
  · rcases howes with ⟨howed, hroom'⟩ | howed
    · rw [howed, hroom']
      exact hroom
    · rw [howed]
      exact Nat.zero_le _
  · rcases howes with ⟨howed, -⟩ | howed
    · rw [howed]
      exact hgone ((step_pump_frame ha h).2 ▸ hg)
    · exact howed

def StdinPump.Nears (s : StdinPump) : Prop :=
  ∃ a s', a.isPump = true ∧ s.step a = some s' ∧
    (s'.pc = .killing ∧ s'.killsTaken = s.killsTaken + 1 ∨
      ¬ s'.Stuck ∧ .kill ∈ s'.ctrlCh ∧ s'.killsTaken = s.killsTaken ∧
        s'.stepsLeft < s.stepsLeft)

theorem nears_of_step (hs : ¬ s.Stuck) (ha : a.isPump = true) (h : s.step a = some s')
    (howes : (s'.owed = s.owed ∧ s'.room = s.room) ∨ s'.owed = []) (hpc : s'.pc ≠ .returned)
    (hkill : .kill ∈ s'.ctrlCh) (hkills : s'.killsTaken = s.killsTaken)
    (hless : s'.stepsLeft < s.stepsLeft) : s.Nears :=
  ⟨a, s', ha, h, .inr ⟨not_stuck_of_step hs ha h howes hpc, hkill, hkills, hless⟩⟩

theorem nears_selecting (hs : ¬ s.Stuck) (hpc : s.pc = .selecting) (hkill : .kill ∈ s.ctrlCh) :
    s.Nears := by
  obtain ⟨msg, ctrlCh, hctrl⟩ := List.exists_cons_of_ne_nil (List.ne_nil_of_mem hkill)
  cases msg with
  | kill =>
    refine ⟨.takeControl,
      { s with ctrlCh := ctrlCh, pc := .killing, killsTaken := s.killsTaken + 1 }, rfl, ?_,
      .inl ⟨rfl, rfl⟩⟩
    simp [StdinPump.step, hpc, hctrl]
  | start =>
    have hstep : s.step .takeControl = some { s with ctrlCh := ctrlCh } := by
      simp [StdinPump.step, hpc, hctrl]
    refine nears_of_step hs rfl hstep (.inl ⟨owed_congr rfl (fun _ => ?_) rfl, rfl⟩) ?_ ?_ rfl ?_
    · simp [StdinPump.drains, hctrl]
    · exact (not_stuck_iff.mp hs).1
    · simpa [hctrl] using hkill
    · simp [StdinPump.stepsLeft, hpc, hctrl, Nat.add_mul]
  | stdinClose =>
    have hstep : s.step .takeControl = some { s with
        ctrlCh := ctrlCh
        pc := .checking
        closeAt := if s.eof then s.closeAt else some s.arrived.length } := by
      simp [StdinPump.step, hpc, hctrl]
    refine nears_of_step hs rfl hstep
      (.inl ⟨owed_congr (by rw [hpc]; rfl) (fun _ => ?_) rfl, rfl⟩) (by rintro ⟨⟩) ?_ rfl ?_
    · simp [StdinPump.drains, hpc, hctrl, PumpPc.inDrain]
    · simpa [hctrl] using hkill
    · simp [StdinPump.stepsLeft, hpc, hctrl, Nat.add_mul]

theorem nears_killing (hs : ¬ s.Stuck) (hpc : s.pc = .killing) (hkill : .kill ∈ s.ctrlCh) :
    s.Nears := by
  have hstep : s.step .kill = some { s with pc := .selecting, log := s.log ++ [.kill] } :=
    if_pos hpc
  refine nears_of_step hs rfl hstep
    (.inl ⟨owed_congr (by rw [hpc]; rfl) (fun _ => ?_) rfl, rfl⟩) (by rintro ⟨⟩) hkill rfl ?_
  · simp [StdinPump.drains, hpc, PumpPc.inDrain]
  · simp [StdinPump.stepsLeft, hpc]

theorem nears_closing (hs : ¬ s.Stuck) (hpc : s.pc = .closing) (hkill : .kill ∈ s.ctrlCh) :
    s.Nears := by
  have hstep : s.step .close = some { s with
      pc := .selecting, eof := true, log := if s.eof then s.log else s.log ++ [.eof] } :=
    if_pos hpc
  refine nears_of_step hs rfl hstep (.inr ?_) (by rintro ⟨⟩) hkill rfl ?_
  · simp [StdinPump.owed, StdinPump.drains, PumpPc.rest]
  · simp [StdinPump.stepsLeft, hpc]

theorem nears_checking (hs : ¬ s.Stuck) (hdone : s.done = false) (hpc : s.pc = .checking)
    (hkill : .kill ∈ s.ctrlCh) : s.Nears := by
  have hstep : s.step .passed = some { s with pc := .draining } := if_pos ⟨hpc, hdone⟩
  refine nears_of_step hs rfl hstep
    (.inl ⟨owed_congr (by rw [hpc]; rfl) (fun _ => ?_) rfl, rfl⟩) (by rintro ⟨⟩) hkill rfl ?_
  · simp [StdinPump.drains, hpc, PumpPc.inDrain]
  · simp [StdinPump.stepsLeft, hpc]

theorem nears_takeChunk {c : List UInt8} {stdinCh : List (List UInt8)} (hs : ¬ s.Stuck)
    (hpc : s.pc = .draining) (hqueue : s.stdinCh = c :: stdinCh) (hkill : .kill ∈ s.ctrlCh) :
    s.Nears := by
  have hmul : s.ctrlCh.length * (4 * stdinCh.length + 8) ≤
      s.ctrlCh.length * (4 * s.stdinCh.length + 8) := by
    rw [hqueue, List.length_cons]
    exact Nat.mul_le_mul_left _ (by omega)
  have hlength : s.stdinCh.length = stdinCh.length + 1 := by rw [hqueue, List.length_cons]
  cases heof : s.eof with
  | true =>
    have hstep : s.step .takeChunk = some { s with stdinCh := stdinCh, pc := .checking } := by
      simp [StdinPump.step, hpc, hqueue, heof]
    refine nears_of_step hs rfl hstep (.inr ?_) (by rintro ⟨⟩) hkill rfl ?_
    · simp [StdinPump.owed, StdinPump.drains, heof, PumpPc.rest]
    · simp only [StdinPump.stepsLeft, hpc]
      omega
  | false =>
    have hstep : s.step .takeChunk = some { s with stdinCh := stdinCh, pc := .writing c true } := by
      simp [StdinPump.step, hpc, hqueue, heof]
    refine nears_of_step hs rfl hstep (.inl ⟨?_, rfl⟩) (by rintro ⟨⟩) hkill rfl ?_
    · simp [StdinPump.owed, StdinPump.drains, heof, hpc, hqueue, PumpPc.rest, PumpPc.inDrain]
    · simp only [StdinPump.stepsLeft, hpc]
      split <;> omega

theorem nears_draining (hs : ¬ s.Stuck) (hpc : s.pc = .draining) (hkill : .kill ∈ s.ctrlCh) :
    s.Nears := by
  cases hqueue : s.stdinCh with
  | nil =>
    have hstep : s.step .drained = some { s with pc := .closing } := if_pos ⟨hpc, hqueue⟩
    refine nears_of_step hs rfl hstep (.inr ?_) (by rintro ⟨⟩) hkill rfl ?_
    · simp [StdinPump.owed, StdinPump.drains, PumpPc.rest]
    · simp [StdinPump.stepsLeft, hpc, hqueue]
  | cons c stdinCh => exact nears_takeChunk hs hpc hqueue hkill

theorem nears_written {inDrain : Bool} (hs : ¬ s.Stuck) (hpc : s.pc = .writing [] inDrain)
    (hkill : .kill ∈ s.ctrlCh) : s.Nears := by
  have hstep : s.step .written = some { s with
      pc := if inDrain then .checking else .selecting
      activity := if s.activity < activityCap then s.activity + 1 else s.activity } := by
    simp only [StdinPump.step, hpc]
  refine nears_of_step hs rfl hstep (.inl ⟨owed_congr ?_ (fun _ => ?_) rfl, rfl⟩) ?_ hkill rfl ?_
  · rw [hpc]
    cases inDrain <;> rfl
  · cases inDrain <;> simp [StdinPump.drains, hpc, PumpPc.inDrain]
  · cases inDrain <;> rintro ⟨⟩
  · cases inDrain <;> simp [StdinPump.stepsLeft, hpc]

theorem nears_write {rest : List UInt8} {inDrain : Bool} (hs : ¬ s.Stuck)
    (hpc : s.pc = .writing rest inDrain) (hrest : rest ≠ []) (hkill : .kill ∈ s.ctrlCh) :
    s.Nears := by
  obtain ⟨-, hroom, hgone⟩ := not_stuck_iff.mp hs
  have howed : s.owed = rest ++ if s.drains then s.stdinCh.flatten else [] := by
    rw [StdinPump.owed, hpc, PumpPc.rest]
  have hopen : s.gone = false := by
    refine eq_false_of_ne_true fun hg => hrest ?_
    exact (List.append_eq_nil_iff.mp (howed.symm.trans (hgone hg))).1
  have hfits : rest.length ≤ s.room := by
    rw [howed, List.length_append] at hroom
    omega
  have hstep : s.step (.write rest.length) = some { s with
      pc := .writing (rest.drop rest.length) inDrain
      room := s.room - rest.length
      log := s.log ++ [.write (rest.take rest.length)] } := by
    simp only [StdinPump.step, hpc]
    exact if_pos ⟨hrest, Nat.le_refl _, hfits, hopen⟩
  refine ⟨.write rest.length, _, rfl, hstep, .inr ⟨?_, hkill, rfl, ?_⟩⟩
  · refine not_stuck_iff.mpr ⟨by rintro ⟨⟩, ?_, fun hg => ?_⟩
    · rw [howed, List.length_append] at hroom
      simp only [StdinPump.owed, StdinPump.drains, hpc, PumpPc.inDrain] at hroom ⊢
      simp [PumpPc.rest] at hroom ⊢
      omega
    · rw [show s.gone = true from hg] at hopen
      cases hopen
  · cases inDrain <;> simp [StdinPump.stepsLeft, hpc, hrest]

theorem nears (hs : ¬ s.Stuck) (hdone : s.done = false) (hkill : .kill ∈ s.ctrlCh) : s.Nears := by
  cases hpc : s.pc with
  | returned => exact absurd hpc (not_stuck_iff.mp hs).1
  | selecting => exact nears_selecting hs hpc hkill
  | killing => exact nears_killing hs hpc hkill
  | closing => exact nears_closing hs hpc hkill
  | checking => exact nears_checking hs hdone hpc hkill
  | draining => exact nears_draining hs hpc hkill
  | writing rest inDrain =>
    by_cases hrest : rest = []
    · subst hrest
      exact nears_written hs hpc hkill
    · exact nears_write hs hpc hrest hkill

theorem exists_kill (n : ℕ) (hs : ¬ s.Stuck) (hdone : s.done = false) (hkill : .kill ∈ s.ctrlCh)
    (hcounted : Counted s) (hn : s.stepsLeft < n) :
    ∃ as t, (∀ a ∈ as, a.isPump = true) ∧ run StdinPump.step s as = some t ∧
      s.killsTaken < t.log.count .kill := by
  induction n generalizing s with
  | zero => exact absurd hn (Nat.not_lt_zero _)
  | succ n ih =>
    obtain ⟨a, s', ha, h, hnext⟩ := nears hs hdone hkill
    have hcounted' := step_counted hcounted h
    rcases hnext with ⟨hpc, hkills⟩ | ⟨hs', hkill', hkills, hless⟩
    · obtain ⟨t, hstep, hlog⟩ : ∃ t, s'.step .kill = some t ∧ t.log = s'.log ++ [.kill] :=
        ⟨_, if_pos hpc, rfl⟩
      refine ⟨[a, .kill], t, ?_, ?_, ?_⟩
      · exact List.forall_mem_cons.mpr ⟨ha, by simp [PumpAct.isPump]⟩
      · rw [run_cons_of_step h, run_cons_of_step hstep]
        rfl
      · have hcount := hcounted'.kills
        rw [if_pos hpc] at hcount
        rw [hlog, List.count_append, List.count_singleton_self]
        omega
    · obtain ⟨as, t, has, hr, hlt⟩ := ih hs' ((step_pump_frame ha h).1.trans hdone) hkill'
        hcounted' (by omega)
      refine ⟨a :: as, t, List.forall_mem_cons.mpr ⟨ha, has⟩, ?_, hkills ▸ hlt⟩
      rw [run_cons_of_step h]
      exact hr

theorem handles_iff_clear (hs : Counted s) (hdone : s.done = false) (hkill : .kill ∈ s.ctrlCh) :
    s.Handles ↔ s.Clear := by
  constructor
  · rintro ⟨halive, as, t, has, hr, hlt⟩
    have hstuck : ¬ s.Stuck := by
      intro hstuck
      have hcounted : Counted t :=
        Reachable.invariant (fun _ _ _ hs h => step_counted hs h) hs ⟨as, hr⟩
      have hkills := run_stuck hstuck has hdone hr
      have hcount := hcounted.kills
      omega
    obtain ⟨-, hroom, hgone⟩ := not_stuck_iff.mp hstuck
    exact ⟨eq_false_of_ne_true fun hf => halive (hs.failed hf), hroom, hgone⟩
  · intro h
    have halive : s.pc ≠ .returned := by
      intro hpc
      rcases hs.returned hpc with hd | hf
      · rw [hdone] at hd
        cases hd
      · rw [h.failed] at hf
        cases hf
    have hstuck : ¬ s.Stuck := not_stuck_iff.mpr ⟨halive, h.room, h.gone⟩
    exact ⟨halive, exists_kill _ hstuck hdone hkill hs (Nat.lt_succ_self _)⟩

/-- In each state of a run a waiting kill is in reach exactly when no write has failed and what
is owed before it can be written without the program. -/
theorem kill_reached_iff (room : ℕ) (as : List PumpAct) :
    Always StdinPump.step
      (fun s => s.done = false → .kill ∈ s.ctrlCh → (s.Handles ↔ s.Clear)) (.start room) as := by
  have hall : Always StdinPump.step Counted (.start room) as :=
    .of_invariant (fun _ _ _ hs h => step_counted hs h) (counted_start room)
  exact hall.mono fun s hs hdone hkill => handles_iff_clear hs hdone hkill

/-- The program has closed its stdin before a chunk is written, and a kill arrives. -/
def closedStdin : List PumpAct := [.hangUp, .chunk [1], .takeChunk, .fail, .control .kill]

/-- A stdin without room takes none of a chunk, and a kill arrives. -/
def unread : List PumpAct := [.chunk [1], .takeChunk, .control .kill]

theorem not_always_handled :
    (¬ ∀ room as, Always StdinPump.step
      (fun s => s.done = false → .kill ∈ s.ctrlCh → s.pc ≠ .returned) (.start room) as) ∧
    ¬ ∀ room as, Always StdinPump.step
      (fun s => s.done = false → .kill ∈ s.ctrlCh → s.Handles) (.start room) as := by
  constructor
  · intro hall
    exact (hall 8 closedStdin).last rfl rfl (by decide) rfl
  · intro hall
    have hhandles := (hall 0 unread).last rfl rfl (by decide)
    have hcounted : Always StdinPump.step Counted (.start 0) unread :=
      .of_invariant (fun _ _ _ hs h => step_counted hs h) (counted_start 0)
    have hclear := (handles_iff_clear (hcounted.last rfl) rfl (by decide)).mp hhandles
    exact absurd hclear.room (by decide)

end CodeRunner.Worker
