import CodeRunner.Keys
import CodeRunner.Lib.Ephemeral
import CodeRunner.Lib.Transition
import Mathlib.Tactic.Common

/-! # The heartbeat of a worker

`startHeartbeat` writes a key that expires: once before its goroutine starts, then at each tick of
a ticker. The reaper takes the key for the life of the worker, so the key must outlast every pause
between two writes, and must not outlast the worker for long.
-/

namespace CodeRunner.Worker.Heartbeat

open Transition Ephemeral Keys

/-- The configuration, in milliseconds. -/
structure Config where
  workerID : String
  heartbeatInterval : ℕ
  heartbeatTTL : ℕ

/-- `HeartbeatIntervalMs` and `HeartbeatTTLMs` of the defaults. -/
def Config.default (workerID : String) : Config := ⟨workerID, 5000, 20000⟩

/-- In the first call of `Heartbeat`, with the goroutine launched but its ticker not made, at the
`select`, in the call for a tick, and after the return. A call has set the key or has not. -/
inductive Pc where
  | initial (set : Bool)
  | launched
  | selecting
  | beating (set : Bool)
  | returned (since : ℕ)
  deriving DecidableEq, Repr

/-- `fires` is when the ticker fires next, `tick` whether its channel holds a tick, `due` when the
last tick was, and `missed` how many calls in a row have failed. -/
structure State where
  now : ℕ
  store : Store String ℕ
  pc : Pc
  cancelled : Bool
  fires : ℕ
  tick : Bool
  due : ℕ
  missed : ℕ

/-- `set` is the `SET` of a call at the store, `ret` the return of the call, with an error if there
was none. -/
inductive Act where
  | pass (d : ℕ)
  | fire
  | take
  | set
  | ret
  | newTicker
  | cancel
  | done
  deriving DecidableEq, Repr

namespace State

def start (now : ℕ) : State where
  now := now
  store := Store.empty
  pc := .initial false
  cancelled := false
  fires := 0
  tick := false
  due := now
  missed := 0

def looping (s : State) : Bool :=
  match s.pc with
  | .selecting | .beating _ => true
  | .initial _ | .launched | .returned _ => false

def step (cfg : Config) (s : State) : Act → Option State
  | .pass d =>
    if s.looping = true → s.now + d ≤ s.fires then some { s with now := s.now + d } else none
  | .fire =>
    if s.looping = true ∧ s.now = s.fires then
      some { s with
        fires := s.fires + cfg.heartbeatInterval
        tick := true
        due := if s.tick then s.due else s.now }
    else none
  | .take =>
    if s.pc = .selecting ∧ s.tick = true then
      some { s with pc := .beating false, tick := false }
    else none
  | .set =>
    let store := s.store.setEx s.now cfg.heartbeatTTL (workerHeartbeatKey cfg.workerID) s.now
    match s.pc with
    | .initial false => some { s with store := store, pc := .initial true }
    | .beating false => some { s with store := store, pc := .beating true }
    | _ => none
  | .ret =>
    match s.pc with
    | .initial set =>
      some { s with pc := .launched, missed := if set then 0 else s.missed + 1 }
    | .beating set =>
      some { s with pc := .selecting, missed := if set then 0 else s.missed + 1 }
    | _ => none
  | .newTicker =>
    if s.pc = .launched then
      some { s with pc := .selecting, fires := s.now + cfg.heartbeatInterval }
    else none
  | .cancel => some { s with cancelled := true }
  | .done =>
    if s.pc = .selecting ∧ s.cancelled = true then
      some { s with pc := .returned s.now, tick := false }
    else none

/-- `HeartbeatAlive`. -/
def heartbeatAlive (cfg : Config) (s : State) : Bool :=
  (s.store.get s.now (workerHeartbeatKey cfg.workerID)).isSome

/-- A call is to come or has not returned, or the goroutine is to make its ticker. -/
def outstanding (s : State) : Bool :=
  s.tick ||
    match s.pc with
    | .initial _ | .launched | .beating _ => true
    | .selecting | .returned _ => false

/-- Every call returns within `lag` of its tick, the ticker is there within `lag` of the start of
the first, and at most `spare` calls in a row fail. -/
def Prompt (lag spare : ℕ) (s : State) : Act → Prop
  | .pass d => s.outstanding = true → s.now + d ≤ s.due + lag
  | .ret => s.pc = .initial false ∨ s.pc = .beating false → s.missed < spare
  | _ => True

instance (lag spare : ℕ) (s : State) : ∀ a, Decidable (s.Prompt lag spare a)
  | .pass _ => inferInstanceAs (Decidable (_ → _))
  | .ret => inferInstanceAs (Decidable (_ → _))
  | .fire | .take | .set | .newTicker | .cancel | .done => isTrue trivial

def current (s : State) : ℕ := if s.outstanding then s.due else s.fires

/-- How `last`, the time of the latest write, lies to the ticker. -/
def Since (cfg : Config) (lag : ℕ) (s : State) (last : ℕ) : Prop :=
  match s.pc with
  | .initial set => set = true ∧ s.due ≤ last
  | .launched => s.due ≤ last
  | .beating true => s.due ≤ last
  | .selecting | .beating false =>
    s.current ≤ last + lag + (s.missed + 1) * cfg.heartbeatInterval
  | .returned since => last ≤ since

/-- Ticks are answered one by one, and the key, once it is there, is from a write so many ticks ago
as calls have failed since. -/
structure Inv (cfg : Config) (lag spare : ℕ) (s : State) : Prop where
  prompt : s.outstanding = true → s.now ≤ s.due + lag
  period : s.looping = true → s.outstanding = true → s.due + cfg.heartbeatInterval = s.fires
  ahead : s.looping = true → s.now ≤ s.fires
  due : s.due ≤ s.now
  spare : s.missed ≤ spare
  tick : s.tick = true → s.pc = .selecting
  fresh : ∀ c, s.store (workerHeartbeatKey cfg.workerID) = some c →
    ∃ v last, c = ⟨v, some (last + cfg.heartbeatTTL)⟩ ∧ last ≤ s.now ∧ s.Since cfg lag last

variable {cfg : Config} {lag spare now : ℕ} {s s' t : State} {a : Act} {as : List Act}

theorem start_inv : (start now).Inv cfg lag spare where
  prompt _ := Nat.le_add_right now lag
  period h := nomatch h
  ahead h := nomatch h
  due := Nat.le_refl now
  spare := Nat.zero_le spare
  tick h := nomatch h
  fresh _ h := nomatch h

theorem Inv.pass (hI : s.Inv cfg lag spare) {d : ℕ} (hd : s.looping = true → s.now + d ≤ s.fires)
    (hp : s.outstanding = true → s.now + d ≤ s.due + lag) :
    Inv cfg lag spare { s with now := s.now + d } where
  prompt := hp
  period := hI.period
  ahead := hd
  due := Nat.le_add_right_of_le hI.due
  spare := hI.spare
  tick := hI.tick
  fresh c hc := by
    obtain ⟨v, last, rfl, hlast, hsince⟩ := hI.fresh c hc
    exact ⟨v, last, rfl, Nat.le_add_right_of_le hlast, hsince⟩

theorem Inv.idle_of_fires (hI : s.Inv cfg lag spare) (hlag : lag < cfg.heartbeatInterval)
    (hloop : s.looping = true) (hnow : s.now = s.fires) : s.tick = false ∧ s.pc = .selecting := by
  have hnot : s.outstanding = false := by
    by_contra h
    have hout : s.outstanding = true := by simpa using h
    have hle := hI.prompt hout
    have heq := hI.period hloop hout
    omega
  obtain ⟨now, store, pc, cancelled, fires, tick, due, missed⟩ := s
  cases tick with
  | true => cases hnot
  | false =>
    refine ⟨rfl, ?_⟩
    cases pc with
    | selecting => rfl
    | _ => simp_all [outstanding, looping]

theorem Inv.fire (hI : s.Inv cfg lag spare) (hlag : lag < cfg.heartbeatInterval)
    (hloop : s.looping = true) (hnow : s.now = s.fires) :
    Inv cfg lag spare { s with
      fires := s.fires + cfg.heartbeatInterval
      tick := true
      due := if s.tick then s.due else s.now } := by
  obtain ⟨htick, hpc⟩ := hI.idle_of_fires hlag hloop hnow
  rw [htick]
  constructor
  · exact fun _ => Nat.le_add_right s.now lag
  · exact fun _ _ => congrArg (· + cfg.heartbeatInterval) hnow
  · exact fun _ => Nat.le_add_right_of_le (hI.ahead hloop)
  · exact Nat.le_refl s.now
  · exact hI.spare
  · exact fun _ => hpc
  · intro c hc
    obtain ⟨v, last, rfl, hlast, hsince⟩ := hI.fresh c hc
    refine ⟨v, last, rfl, hlast, ?_⟩
    simp only [Since, hpc, current, outstanding, htick, Bool.false_or, Bool.true_or, if_true,
      Bool.false_eq_true, if_false] at hsince ⊢
    omega

theorem Inv.take (hI : s.Inv cfg lag spare) (hpc : s.pc = .selecting) (htick : s.tick = true) :
    Inv cfg lag spare { s with pc := .beating false, tick := false } := by
  have hout : s.outstanding = true := by rw [outstanding, htick, Bool.true_or]
  have hloop : s.looping = true := by rw [looping, hpc]
  constructor
  · exact fun _ => hI.prompt hout
  · exact fun _ _ => hI.period hloop hout
  · exact fun _ => hI.ahead hloop
  · exact hI.due
  · exact hI.spare
  · exact nofun
  · intro c hc
    obtain ⟨v, last, rfl, hlast, hsince⟩ := hI.fresh c hc
    refine ⟨v, last, rfl, hlast, ?_⟩
    simpa only [Since, hpc, current, outstanding, htick, Bool.true_or, Bool.or_true] using hsince

theorem Inv.set (hI : s.Inv cfg lag spare) {pc : Pc}
    (hpc : s.pc = .initial false ∧ pc = .initial true ∨
      s.pc = .beating false ∧ pc = .beating true) :
    Inv cfg lag spare { s with
      store := s.store.setEx s.now cfg.heartbeatTTL (workerHeartbeatKey cfg.workerID) s.now
      pc := pc } := by
  have hout : s.outstanding = true := by
    rcases hpc with ⟨hpc, -⟩ | ⟨hpc, -⟩ <;> rw [outstanding, hpc, Bool.or_true]
  have htick : s.tick = false := by
    by_contra h
    have hsel := hI.tick (by simpa using h)
    rcases hpc with ⟨hpc, -⟩ | ⟨hpc, -⟩ <;> cases hpc.symm.trans hsel
  constructor
  · exact fun _ => hI.prompt hout
  · intro hloop _
    rcases hpc with ⟨-, rfl⟩ | ⟨hpc, -⟩
    · cases hloop
    · exact hI.period (by rw [looping, hpc]) hout
  · intro hloop
    rcases hpc with ⟨-, rfl⟩ | ⟨hpc, -⟩
    · cases hloop
    · exact hI.ahead (by rw [looping, hpc])
  · exact hI.due
  · exact hI.spare
  · intro h
    cases htick.symm.trans h
  · intro c hc
    obtain rfl := Option.some.inj (Store.setEx_self.symm.trans hc)
    refine ⟨s.now, s.now, rfl, Nat.le_refl _, ?_⟩
    rcases hpc with ⟨-, rfl⟩ | ⟨-, rfl⟩
    · exact ⟨rfl, hI.due⟩
    · exact hI.due

theorem Inv.retInitial (hI : s.Inv cfg lag spare) {set : Bool} (hpc : s.pc = .initial set)
    (hspare : set = false → s.missed < spare) :
    Inv cfg lag spare { s with
      pc := .launched
      missed := if set then 0 else s.missed + 1 } := by
  have htick : s.tick = false := by
    by_contra h
    cases hpc.symm.trans (hI.tick (by simpa using h))
  constructor
  · exact fun _ => hI.prompt (by rw [outstanding, hpc, Bool.or_true])
  · exact nofun
  · exact nofun
  · exact hI.due
  · cases set with
    | true => exact Nat.zero_le spare
    | false => exact hspare rfl
  · intro h
    cases htick.symm.trans h
  · intro c hc
    obtain ⟨v, last, rfl, hlast, hsince⟩ := hI.fresh c hc
    rw [Since, hpc] at hsince
    exact ⟨v, last, rfl, hlast, hsince.2⟩

theorem Inv.newTicker (hI : s.Inv cfg lag spare) (hpc : s.pc = .launched) :
    Inv cfg lag spare { s with pc := .selecting, fires := s.now + cfg.heartbeatInterval } := by
  have htick : s.tick = false := by
    by_contra h
    cases hpc.symm.trans (hI.tick (by simpa using h))
  have hprompt : s.now ≤ s.due + lag := hI.prompt (by rw [outstanding, hpc, Bool.or_true])
  constructor
  · intro hout
    simp [outstanding, htick] at hout
  · intro _ hout
    simp [outstanding, htick] at hout
  · exact fun _ => Nat.le_add_right s.now _
  · exact hI.due
  · exact hI.spare
  · exact fun _ => rfl
  · intro c hc
    obtain ⟨v, last, rfl, hlast, hsince⟩ := hI.fresh c hc
    rw [Since, hpc] at hsince
    refine ⟨v, last, rfl, hlast, ?_⟩
    have hmissed : cfg.heartbeatInterval ≤ (s.missed + 1) * cfg.heartbeatInterval :=
      Nat.le_mul_of_pos_left _ s.missed.succ_pos
    simp only [Since, current, outstanding, htick, Bool.false_or, Bool.false_eq_true, if_false]
    simp only at hsince
    omega

theorem Inv.retBeating (hI : s.Inv cfg lag spare) {set : Bool} (hpc : s.pc = .beating set)
    (hspare : set = false → s.missed < spare) :
    Inv cfg lag spare { s with
      pc := .selecting
      missed := if set then 0 else s.missed + 1 } := by
  have htick : s.tick = false := by
    by_contra h
    cases hpc.symm.trans (hI.tick (by simpa using h))
  have hout : s.outstanding = true := by rw [outstanding, hpc, Bool.or_true]
  have hloop : s.looping = true := by rw [looping, hpc]
  have hperiod := hI.period hloop hout
  constructor
  · intro hout
    simp [outstanding, htick] at hout
  · intro _ hout
    simp [outstanding, htick] at hout
  · exact fun _ => hI.ahead hloop
  · exact hI.due
  · cases set with
    | true => exact Nat.zero_le spare
    | false => exact hspare rfl
  · exact fun _ => rfl
  · intro c hc
    obtain ⟨v, last, rfl, hlast, hsince⟩ := hI.fresh c hc
    refine ⟨v, last, rfl, hlast, ?_⟩
    simp only [Since, current, outstanding, htick, Bool.false_or, Bool.false_eq_true, if_false]
    cases set with
    | true =>
      rw [Since, hpc] at hsince
      simp only at hsince
      simp only [if_true]
      omega
    | false =>
      rw [Since, hpc, current, hout] at hsince
      simp only [if_true] at hsince
      simp only [Bool.false_eq_true, if_false, Nat.succ_mul] at hsince ⊢
      omega

theorem Inv.done (hI : s.Inv cfg lag spare) :
    Inv cfg lag spare { s with pc := .returned s.now, tick := false } where
  prompt h := nomatch h
  period h := nomatch h
  ahead h := nomatch h
  due := hI.due
  spare := hI.spare
  tick h := nomatch h
  fresh c hc := by
    obtain ⟨v, last, rfl, hlast, -⟩ := hI.fresh c hc
    exact ⟨v, last, rfl, hlast, hlast⟩

theorem Inv.cancel (hI : s.Inv cfg lag spare) : Inv cfg lag spare { s with cancelled := true } where
  prompt := hI.prompt
  period := hI.period
  ahead := hI.ahead
  due := hI.due
  spare := hI.spare
  tick := hI.tick
  fresh := hI.fresh

theorem step_inv (hlag : lag < cfg.heartbeatInterval) (hI : s.Inv cfg lag spare)
    (hp : s.Prompt lag spare a) (hs : s.step cfg a = some s') : s'.Inv cfg lag spare := by
  cases a with
  | pass d =>
    obtain ⟨hd, hs⟩ := Option.ite_none_right_eq_some.mp hs
    cases hs
    exact hI.pass hd hp
  | fire =>
    obtain ⟨⟨hloop, hnow⟩, hs⟩ := Option.ite_none_right_eq_some.mp hs
    cases hs
    exact hI.fire hlag hloop hnow
  | take =>
    obtain ⟨⟨hpc, htick⟩, hs⟩ := Option.ite_none_right_eq_some.mp hs
    cases hs
    exact hI.take hpc htick
  | set =>
    simp only [step] at hs
    split at hs
    · next hpc =>
      cases hs
      exact hI.set (.inl ⟨hpc, rfl⟩)
    · next hpc =>
      cases hs
      exact hI.set (.inr ⟨hpc, rfl⟩)
    · cases hs
  | ret =>
    simp only [step] at hs
    split at hs
    · next set hpc =>
      cases hs
      exact hI.retInitial hpc fun hset => hp (.inl (hset ▸ hpc))
    · next set hpc =>
      cases hs
      exact hI.retBeating hpc fun hset => hp (.inr (hset ▸ hpc))
    · cases hs
  | newTicker =>
    obtain ⟨hpc, hs⟩ := Option.ite_none_right_eq_some.mp hs
    cases hs
    exact hI.newTicker hpc
  | cancel =>
    cases hs
    exact hI.cancel
  | done =>
    obtain ⟨-, hs⟩ := Option.ite_none_right_eq_some.mp hs
    cases hs
    exact hI.done

theorem heartbeatAlive_of_eq {v last : ℕ} (h : s.store (workerHeartbeatKey cfg.workerID) =
    some ⟨v, some (last + cfg.heartbeatTTL)⟩) :
    s.heartbeatAlive cfg = decide (s.now < last + cfg.heartbeatTTL) := by
  rw [heartbeatAlive, Store.get_eq h]
  by_cases hnow : s.now < last + cfg.heartbeatTTL <;> simp [hnow]

/-- While the worker runs, the latest write is at most so many ticks old as calls have failed
since, and one more. -/
theorem Inv.now_lt (hI : s.Inv cfg lag spare)
    (httl : (spare + 1) * cfg.heartbeatInterval + 2 * lag < cfg.heartbeatTTL)
    (hrun : ∀ since, s.pc ≠ .returned since) {last : ℕ} (hsince : s.Since cfg lag last) :
    s.now < last + cfg.heartbeatTTL := by
  have hmissed : (s.missed + 1) * cfg.heartbeatInterval ≤ (spare + 1) * cfg.heartbeatInterval :=
    Nat.mul_le_mul_right _ (Nat.succ_le_succ hI.spare)
  have hcurrent : s.looping = true → s.now ≤ s.current + lag := by
    intro hloop
    rw [current]
    cases hout : s.outstanding with
    | true => exact hI.prompt hout
    | false => exact Nat.le_add_right_of_le (hI.ahead hloop)
  cases hpc : s.pc with
  | initial set =>
    have hprompt := hI.prompt (by rw [outstanding, hpc, Bool.or_true])
    rw [Since, hpc] at hsince
    omega
  | launched =>
    have hprompt := hI.prompt (by rw [outstanding, hpc, Bool.or_true])
    rw [Since, hpc] at hsince
    simp only at hsince
    omega
  | selecting =>
    have hle := hcurrent (by rw [looping, hpc])
    rw [Since, hpc] at hsince
    simp only at hsince
    omega
  | beating set =>
    have hle := hcurrent (by rw [looping, hpc])
    have hprompt := hI.prompt (by rw [outstanding, hpc, Bool.or_true])
    rw [Since, hpc] at hsince
    cases set with
    | true =>
      simp only at hsince
      omega
    | false =>
      simp only at hsince
      omega
  | returned since => exact absurd hpc (hrun since)

/-- Once a call has set it, the key of a worker is there at every moment until the worker stops, as
long as at most `spare` calls in a row fail and the time to live covers one tick more than that;
and a time to live after the worker has stopped it is gone. -/
theorem heartbeat (hlag : lag < cfg.heartbeatInterval)
    (httl : (spare + 1) * cfg.heartbeatInterval + 2 * lag < cfg.heartbeatTTL)
    (hr : run (step cfg) (start now) as = some t)
    (hprompt : EveryStep (step cfg) (Prompt lag spare) (start now) as) :
    (t.store (workerHeartbeatKey cfg.workerID) ≠ none → (∀ since, t.pc ≠ .returned since) →
      t.heartbeatAlive cfg = true) ∧
    ∀ since, t.pc = .returned since → since + cfg.heartbeatTTL ≤ t.now →
      t.heartbeatAlive cfg = false := by
  have hinv : Always (step cfg) (fun s => s.Inv cfg lag spare) (start now) as :=
    .of_guarded (fun _ _ _ hI hp hs => step_inv hlag hI hp hs) start_inv hprompt
  have hI : t.Inv cfg lag spare := hinv.last hr
  constructor
  · intro hset hrun
    obtain ⟨c, hc⟩ := Option.ne_none_iff_exists'.mp hset
    obtain ⟨v, last, rfl, -, hsince⟩ := hI.fresh c hc
    rw [heartbeatAlive_of_eq hc, decide_eq_true_eq]
    exact hI.now_lt httl hrun hsince
  · intro since hpc hnow
    cases hc : t.store (workerHeartbeatKey cfg.workerID) with
    | none =>
      rw [heartbeatAlive, Store.get, hc]
      rfl
    | some c =>
      obtain ⟨v, last, rfl, -, hsince⟩ := hI.fresh c hc
      rw [Since, hpc] at hsince
      simp only at hsince
      rw [heartbeatAlive_of_eq hc, decide_eq_false_iff_not]
      omega

/-- The first call and one more set the key, the two after it fail. -/
def twoMissed : List Act :=
  [.set, .pass 3, .ret, .pass 2, .newTicker, .pass 5000, .fire, .take, .set, .ret, .pass 5000,
    .fire, .take, .pass 2000, .ret, .pass 3000, .fire, .take, .ret, .pass 5000, .fire, .pass 1,
    .take, .pass 2000]

set_option maxRecDepth 20000 in
/-- At the defaults two calls in a row may fail. -/
theorem heartbeat_default :
    ∃ t, run (step (.default "w")) (start 0) twoMissed = some t ∧ t.missed = 2 ∧
      t.heartbeatAlive (.default "w") = true := by
  have hlag : 2400 < (Config.default "w").heartbeatInterval := by decide
  have httl : (2 + 1) * (Config.default "w").heartbeatInterval + 2 * 2400 <
      (Config.default "w").heartbeatTTL := by decide
  have hprompt : EveryStep (step (.default "w")) (Prompt 2400 2) (start 0) twoMissed := by
    decide +kernel
  refine ⟨_, rfl, by decide +kernel, ?_⟩
  exact (heartbeat hlag httl rfl hprompt).1 (by decide +kernel) nofun

end State

end CodeRunner.Worker.Heartbeat
