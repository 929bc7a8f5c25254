import CodeRunner.Lib.Transition
import CodeRunner.Wire
import Mathlib.Logic.Function.Basic

/-! # The teardown of a session

The goroutine that waits and the three clocks race into `terminate`, whose body is guarded by a
`sync.Once`. A clock may fire at any time, also together with another and after `done` has been
closed. What the body does is recorded, and read through a view: who runs it, and how far.
-/

namespace CodeRunner.Session

open Transition

inductive TerminateReason | normal | wall | idle | cpu | canceled
  deriving DecidableEq, Repr

/-- `runner.Result`. -/
structure Result where
  exitCode : Option ℤ
  signal : Option String
  timedOut : Bool
  idleTimedOut : Bool
  truncated : Bool
  durationMs : ℤ
  deriving DecidableEq, Repr

/-- `runner.Result{}`. -/
def Result.zero : Result := ⟨none, none, false, false, false, 0⟩

/-- The arguments of a call of `terminate`. -/
structure Call where
  waitResult : Result
  reason : TerminateReason
  deriving DecidableEq, Repr

def Call.result (call : Call) (truncated : Bool) (durationMs : ℤ) : Result where
  exitCode := call.waitResult.exitCode
  signal := call.waitResult.signal
  timedOut := call.reason = .wall ∨ call.reason = .cpu
  idleTimedOut := call.reason = .idle
  truncated := truncated
  durationMs := durationMs

/-- The goroutines that come to call `terminate`. -/
inductive Caller | wait | wallClock | idleClock | cpuClock
  deriving DecidableEq, Repr

/-- Inside the body of `terminate`, before each of its statements. -/
inductive Stage where
  | hook
  | kill
  | cleanup
  | assemble
  | send (result : Result)
  | close (result : Result)
  | leave (result : Result)
  deriving DecidableEq, Repr

/-- `waiting` is the call of `Wait` or the `select` of a clock, `polling` the read of the CPU
usage, and `calling` the call of `once.Do`. -/
inductive CallerPc where
  | waiting
  | polling
  | calling (call : Call)
  | inside (call : Call) (durationMs : ℤ) (stage : Stage)
  | exited
  deriving DecidableEq, Repr

def CallerPc.isInside : CallerPc → Bool
  | .inside .. => true
  | _ => false

/-- `sync.Once`: while the body runs the other calls of `Do` wait, afterwards they return. -/
inductive Once | fresh | running | finished
  deriving DecidableEq, Repr

inductive Effect where
  | enter (c : Caller) (call : Call)
  | hook
  | kill
  | cleanup
  | result (result : Result)
  | done
  deriving DecidableEq, Repr

/-- `log` is what the body has done, and `waited` what `Wait` has returned. -/
structure Teardown where
  limits : Limits
  hasHook : Bool
  pc : Caller → CallerPc
  once : Once
  truncated : Bool
  resultCh : Option Result
  done : Bool
  returned : Option Result
  log : List Effect
  waited : Option Result

def Teardown.start (limits : Limits) (hasHook : Bool) : Teardown where
  limits := limits
  hasHook := hasHook
  pc := fun _ => .waiting
  once := .fresh
  truncated := false
  resultCh := none
  done := false
  returned := none
  log := []
  waited := none

/-- `waitReturns`: `Wait` returns, its error is dropped. `activity`, `tick`, `expire` and `seeDone`
are the cases of the clocks' `select`s, and `usage` is what the CPU reader returns. `truncate` is
a store of the pumps, and `receive` the end of `RunInteractive`. -/
inductive TeardownAct where
  | waitReturns (result : Result)
  | expire (c : Caller)
  | activity
  | tick
  | usage (cpuMs : Option Int64)
  | seeDone (c : Caller)
  | callOnce (c : Caller) (durationMs : ℤ)
  | body (c : Caller)
  | truncate
  | receive
  deriving DecidableEq, Repr

def Caller.timer : Caller → Option TerminateReason
  | .wallClock => some .wall
  | .idleClock => some .idle
  | .wait | .cpuClock => none

namespace Teardown

def set (s : Teardown) (c : Caller) (pc : CallerPc) : Teardown :=
  { s with pc := Function.update s.pc c pc }

def emit (s : Teardown) (e : Effect) : Teardown := { s with log := s.log ++ [e] }

/-- The next statement of the body; `send` waits for room, and a second `close` panics. -/
def bodyStep (s : Teardown) (c : Caller) (call : Call) (durationMs : ℤ) :
    Stage → Option Teardown
  | .hook => some ((s.emit .hook).set c (.inside call durationMs .kill))
  | .kill => some ((s.emit .kill).set c (.inside call durationMs .cleanup))
  | .cleanup => some ((s.emit .cleanup).set c (.inside call durationMs .assemble))
  | .assemble =>
    some (s.set c (.inside call durationMs (.send (call.result s.truncated durationMs))))
  | .send result =>
    if s.resultCh = none then
      some (({ s with resultCh := some result }.emit (.result result)).set c
        (.inside call durationMs (.close result)))
    else none
  | .close result =>
    if s.done then none
    else
      some (({ s with done := true }.emit .done).set c
        (.inside call durationMs (.leave result)))
  | .leave _ => some ({ s with once := .finished }.set c .exited)

def step (s : Teardown) : TeardownAct → Option Teardown
  | .waitReturns result =>
    if s.pc .wait = .waiting then
      some ({ s with waited := some result }.set .wait (.calling ⟨result, .normal⟩))
    else none
  | .expire c =>
    match c.timer with
    | some reason =>
      if s.pc c = .waiting then some (s.set c (.calling ⟨.zero, reason⟩)) else none
    | none => none
  -- the timer is reset, and may expire at any later time
  | .activity => if s.pc .idleClock = .waiting then some s else none
  | .tick => if s.pc .cpuClock = .waiting then some (s.set .cpuClock .polling) else none
  | .usage cpuMs =>
    if s.pc .cpuClock = .polling then
      match cpuMs with
      | none => some (s.set .cpuClock .waiting)
      | some cpuMs =>
        if s.limits.cpuMs < cpuMs then some (s.set .cpuClock (.calling ⟨.zero, .cpu⟩))
        else some (s.set .cpuClock .waiting)
    else none
  | .seeDone c =>
    if c ≠ .wait ∧ s.pc c = .waiting ∧ s.done = true then some (s.set c .exited) else none
  | .callOnce c durationMs =>
    match s.pc c, s.once with
    | .calling call, .fresh =>
      some (({ s with once := .running }.emit (.enter c call)).set c
        (.inside call durationMs (if s.hasHook then .hook else .kill)))
    | .calling _, .finished => some (s.set c .exited)
    | _, _ => none
  | .body c =>
    match s.pc c with
    | .inside call durationMs stage => s.bodyStep c call durationMs stage
    | _ => none
  | .truncate => some { s with truncated := true }
  | .receive =>
    match s.returned, s.resultCh with
    | none, some result => some { s with returned := some result, resultCh := none }
    | _, _ => none

end Teardown

inductive View where
  | fresh
  | running (c : Caller) (call : Call) (durationMs : ℤ) (stage : Stage)
  | finished (c : Caller) (call : Call) (result : Result)
  deriving DecidableEq

def torn (hasHook : Bool) (c : Caller) (call : Call) : List Effect :=
  .enter c call :: (if hasHook then [.hook] else []) ++ [.kill, .cleanup]

/-- All the effects of the body, in order. -/
def script (hasHook : Bool) (c : Caller) (call : Call) (result : Result) : List Effect :=
  torn hasHook c call ++ [.result result, .done]

def Stage.log (hasHook : Bool) (c : Caller) (call : Call) : Stage → List Effect
  | .hook => [.enter c call]
  | .kill => .enter c call :: (if hasHook then [.hook] else [])
  | .cleanup => .enter c call :: (if hasHook then [.hook] else []) ++ [.kill]
  | .assemble | .send _ => torn hasHook c call
  | .close result => torn hasHook c call ++ [.result result]
  | .leave result => script hasHook c call result

namespace View

def once : View → Once
  | fresh => .fresh
  | running .. => .running
  | finished .. => .finished

def log (hasHook : Bool) : View → List Effect
  | fresh => []
  | running c call _ stage => stage.log hasHook c call
  | finished c call result => script hasHook c call result

def done : View → Bool
  | running _ _ _ (.leave _) | finished .. => true
  | _ => false

/-- The result that has been sent. -/
def sent : View → List Result
  | running _ _ _ (.close result) | running _ _ _ (.leave result) | finished _ _ result => [result]
  | _ => []

def entered : View → Option (Caller × Call)
  | fresh => none
  | running c call .. | finished c call _ => some (c, call)

def assembled : View → Option Result
  | running _ _ _ (.send result) | running _ _ _ (.close result) | running _ _ _ (.leave result)
  | finished _ _ result => some result
  | _ => none

end View

def Caller.reason : Caller → TerminateReason
  | .wait => .normal
  | .wallClock => .wall
  | .idleClock => .idle
  | .cpuClock => .cpu

/-- A call of `terminate` as its goroutine makes it. -/
structure Proper (waited : Option Result) (c : Caller) (call : Call) : Prop where
  reason : call.reason = c.reason
  waited : c = .wait → waited = some call.waitResult
  zero : c ≠ .wait → call.waitResult = .zero

/-- The results that have been sent, received or not. -/
def Teardown.results (s : Teardown) : List Result := s.returned.toList ++ s.resultCh.toList

structure Places (pc : Caller → CallerPc) (waited : Option Result) (v : View) : Prop where
  inside : ∀ c call durationMs stage,
    pc c = .inside call durationMs stage ↔ v = .running c call durationMs stage
  calling : ∀ c call, pc c = .calling call → Proper waited c call
  waiting : pc .wait = .waiting → waited = none
  polling : ∀ c, pc c = .polling → c = .cpuClock
  exited : ∀ c, pc c = .exited → v.done = true

/-- The call that runs the body is its goroutine's, and the result is assembled from it. -/
structure View.Honest (v : View) (waited : Option Result) : Prop where
  proper : ∀ c call, v.entered = some (c, call) → Proper waited c call
  assembled : ∀ result, v.assembled = some result →
    ∃ c call truncated durationMs, v.entered = some (c, call) ∧
      result = call.result truncated durationMs

structure Shows (s : Teardown) (v : View) : Prop where
  places : Places s.pc s.waited v
  honest : v.Honest s.waited
  once : s.once = v.once
  log : s.log = v.log s.hasHook
  done : s.done = v.done
  results : s.results = v.sent
  hooked : ∀ c call durationMs, v = .running c call durationMs .hook → s.hasHook = true

variable {s s' : Teardown} {v v' : View} {c c' : Caller} {call : Call} {pc : CallerPc}
  {pcs : Caller → CallerPc} {waited waited' : Option Result} {durationMs : ℤ} {stage : Stage}
  {a : TeardownAct}

theorem shows_start (limits : Limits) (hasHook : Bool) : Shows (.start limits hasHook) .fresh where
  places := ⟨by simp [Teardown.start], fun _ _ => nofun, fun _ => rfl, fun _ => nofun,
    fun _ => nofun⟩
  honest := ⟨fun _ _ => nofun, fun _ => nofun⟩
  once := rfl
  log := rfl
  done := rfl
  results := rfl
  hooked := fun _ _ _ => nofun

@[simp] theorem set_pc_self : (s.set c pc).pc c = pc := Function.update_self _ _ _

/-- The move of one goroutine. The first two hypotheses say who is in the body afterwards. -/
theorem Places.update (hp : Places pcs waited v)
    (hself : ∀ call durationMs stage,
      pc = .inside call durationMs stage ↔ v' = .running c call durationMs stage)
    (hothers : ∀ c' call durationMs stage, c' ≠ c →
      (v = .running c' call durationMs stage ↔ v' = .running c' call durationMs stage))
    (hproper : ∀ c call, Proper waited c call → Proper waited' c call)
    (hcalling : ∀ call, pc = .calling call → Proper waited' c call)
    (hwaiting : if c = .wait then pc ≠ .waiting else waited' = waited)
    (hpolling : pc = .polling → c = .cpuClock) (hexited : pc = .exited → v'.done = true)
    (hdone : v.done = true → v'.done = true) :
    Places (Function.update pcs c pc) waited' v' := by
  have hset : ∀ {P : Caller → CallerPc → Prop}, P c pc → (∀ c', c' ≠ c → P c' (pcs c')) →
      ∀ c', P c' (Function.update pcs c pc c') := by
    intro P hc hne c'
    by_cases h : c' = c
    · subst h
      rwa [Function.update_self]
    · rw [Function.update_of_ne h]
      exact hne c' h
  refine ⟨?_, ?_, ?_, ?_, ?_⟩
  · refine hset (P := fun c' p => ∀ call durationMs stage, p = .inside call durationMs stage ↔
      v' = .running c' call durationMs stage) hself fun c' hne call durationMs stage => ?_
    rw [hp.inside, hothers c' call durationMs stage hne]
  · exact hset (P := fun c' p => ∀ call, p = .calling call → Proper waited' c' call) hcalling
      fun c' _ call h => hproper c' call (hp.calling c' call h)
  · by_cases hc : c = .wait
    · subst hc
      rw [if_pos rfl] at hwaiting
      rw [Function.update_self]
      exact fun h => absurd h hwaiting
    · rw [if_neg hc] at hwaiting
      rw [Function.update_of_ne (Ne.symm hc), hwaiting]
      exact hp.waiting
  · exact hset (P := fun c' p => p = .polling → c' = .cpuClock) hpolling fun c' _ => hp.polling c'
  · exact hset (P := fun _ p => p = .exited → v'.done = true) hexited
      fun c' _ h => hdone (hp.exited c' h)

theorem Shows.move (hs : Shows s v) (hout : (s.pc c).isInside = false)
    (hpc : pc.isInside = false)
    (hcalling : ∀ call, pc = .calling call → Proper s.waited c call)
    (hwaiting : c = .wait → pc ≠ .waiting)
    (hpolling : pc = .polling → c = .cpuClock) (hexited : pc = .exited → v.done = true) :
    Shows (s.set c pc) v := by
  refine ⟨hs.places.update ?_ (fun _ _ _ _ _ => Iff.rfl) (fun _ _ => id) hcalling ?_ hpolling
    hexited id, hs.honest, hs.once, hs.log, hs.done, hs.results, hs.hooked⟩
  · intro call durationMs stage
    rw [← hs.places.inside]
    constructor
    · rintro rfl
      cases hpc
    · intro h
      rw [h] at hout
      cases hout
  · split
    · next h => exact hwaiting h
    · rfl

def Stage.left : Stage → ℕ
  | .hook => 7
  | .kill => 6
  | .cleanup => 5
  | .assemble => 4
  | .send _ => 3
  | .close _ => 2
  | .leave _ => 1

def View.left : View → ℕ
  | .fresh => 8
  | .running _ _ _ stage => stage.left
  | .finished .. => 0

theorem Places.advance {stage' : Stage} (hp : Places pcs waited (.running c call durationMs stage))
    (hdone : (View.running c call durationMs stage).done = true →
      (View.running c call durationMs stage').done = true) :
    Places (Function.update pcs c (.inside call durationMs stage')) waited
      (.running c call durationMs stage') := by
  refine hp.update ?_ ?_ (fun _ _ => id) (fun _ => nofun) ?_ nofun nofun hdone
  · simp
  · intro c' _ _ _ hne
    simp [Ne.symm hne]
  · split
    · nofun
    · rfl

structure BodyStep (s : Teardown) (v : View) (s' : Teardown) (v' : View) : Prop where
  shows : Shows s' v'
  left : v'.left < v.left
  hasHook : s'.hasHook = s.hasHook
  final : v.done = true → v'.log s.hasHook = v.log s.hasHook ∧ v'.sent = v.sent

theorem Shows.advance {stage' : Stage} (hs : Shows s (.running c call durationMs stage))
    (hpc : s'.pc = Function.update s.pc c (.inside call durationMs stage'))
    (hsame : s'.waited = s.waited ∧ s'.once = s.once ∧ s'.hasHook = s.hasHook)
    (hassembled : ∀ result, (View.running c call durationMs stage').assembled = some result →
      ∃ truncated ms, result = call.result truncated ms)
    (hlog : s'.log = stage'.log s.hasHook c call)
    (hdone : s'.done = (View.running c call durationMs stage').done)
    (hmono : (View.running c call durationMs stage).done = true →
      (View.running c call durationMs stage').done = true)
    (hresults : s'.results = (View.running c call durationMs stage').sent)
    (hhook : stage' ≠ .hook) : Shows s' (.running c call durationMs stage') := by
  obtain ⟨hwaited, honce, hhasHook⟩ := hsame
  refine ⟨?_, ⟨?_, fun result h => ?_⟩, ?_, ?_, hdone, hresults, ?_⟩
  · rw [hpc, hwaited]
    exact hs.places.advance hmono
  · rw [hwaited]
    exact hs.honest.proper
  · obtain ⟨truncated, ms, rfl⟩ := hassembled result h
    exact ⟨c, call, truncated, ms, rfl, rfl⟩
  · rw [honce, hs.once]
    rfl
  · rw [hlog, hhasHook]
    rfl
  · rintro _ _ _ ⟨⟩
    exact absurd rfl hhook

theorem Shows.assembled_eq {result : Result} (hs : Shows s (.running c call durationMs stage))
    (h : (View.running c call durationMs stage).assembled = some result) :
    ∃ truncated ms, result = call.result truncated ms := by
  obtain ⟨c', call', truncated, ms, hentered, heq⟩ := hs.honest.assembled result h
  cases hentered
  exact ⟨truncated, ms, heq⟩

/-- The body goes on, and neither waits for room in the channel nor closes `done` twice. -/
theorem bodyStep_shows (hs : Shows s (.running c call durationMs stage)) :
    ∃ s' v', s.bodyStep c call durationMs stage = some s' ∧
      BodyStep s (.running c call durationMs stage) s' v' := by
  have hlog : s.log = stage.log s.hasHook c call := hs.log
  have hdone := hs.done
  have hresults := hs.results
  cases stage with
  | hook =>
    have hhook := hs.hooked _ _ _ rfl
    refine ⟨(s.emit .hook).set c (.inside call durationMs .kill),
      .running c call durationMs .kill, rfl, ?_, by simp [View.left, Stage.left], rfl, nofun⟩
    refine hs.advance rfl ⟨rfl, rfl, rfl⟩ (fun _ => nofun) ?_ hdone nofun hresults nofun
    simp [Teardown.emit, Teardown.set, hlog, Stage.log, hhook]
  | kill =>
    refine ⟨(s.emit .kill).set c (.inside call durationMs .cleanup),
      .running c call durationMs .cleanup, rfl, ?_, by simp [View.left, Stage.left], rfl, nofun⟩
    refine hs.advance rfl ⟨rfl, rfl, rfl⟩ (fun _ => nofun) ?_ hdone nofun hresults nofun
    simp [Teardown.emit, Teardown.set, hlog, Stage.log]
  | cleanup =>
    refine ⟨(s.emit .cleanup).set c (.inside call durationMs .assemble),
      .running c call durationMs .assemble, rfl, ?_, by simp [View.left, Stage.left], rfl, nofun⟩
    refine hs.advance rfl ⟨rfl, rfl, rfl⟩ (fun _ => nofun) ?_ hdone nofun hresults nofun
    simp [Teardown.emit, Teardown.set, hlog, Stage.log, torn]
  | assemble =>
    refine ⟨s.set c (.inside call durationMs (.send (call.result s.truncated durationMs))),
      .running c call durationMs (.send (call.result s.truncated durationMs)), rfl, ?_,
      by simp [View.left, Stage.left], rfl, nofun⟩
    refine hs.advance rfl ⟨rfl, rfl, rfl⟩ ?_ hlog hdone nofun hresults nofun
    rintro result ⟨⟩
    exact ⟨s.truncated, durationMs, rfl⟩
  | send result =>
    obtain ⟨hreturned, hroom⟩ := List.append_eq_nil_iff.mp hresults
    have hroom := Option.toList_eq_nil_iff.mp hroom
    refine ⟨(({ s with resultCh := some result }.emit (.result result)).set c
        (.inside call durationMs (.close result))),
      .running c call durationMs (.close result), by simp [Teardown.bodyStep, hroom], ?_,
      by simp [View.left, Stage.left], rfl, nofun⟩
    refine hs.advance rfl ⟨rfl, rfl, rfl⟩ (fun _ => hs.assembled_eq) ?_ hdone nofun ?_ nofun
    · simp [Teardown.emit, Teardown.set, hlog, Stage.log]
    · exact congrArg (· ++ [result]) hreturned
  | close result =>
    have hopen : s.done = false := hdone
    refine ⟨(({ s with done := true }.emit .done).set c
        (.inside call durationMs (.leave result))),
      .running c call durationMs (.leave result), by simp [Teardown.bodyStep, hopen], ?_,
      by simp [View.left, Stage.left], rfl, nofun⟩
    refine hs.advance rfl ⟨rfl, rfl, rfl⟩ (fun _ => hs.assembled_eq) ?_ rfl nofun hresults nofun
    simp [Teardown.emit, Teardown.set, hlog, Stage.log, script]
  | leave result =>
    refine ⟨{ s with once := .finished }.set c .exited, .finished c call result, rfl,
      ⟨?_, ⟨?_, ?_⟩, rfl, hlog, hdone, hresults, fun _ _ _ => nofun⟩,
      by simp [View.left, Stage.left], rfl, fun _ => ⟨rfl, rfl⟩⟩
    · refine hs.places.update (by simp) ?_ (fun _ _ => id) (fun _ => nofun) ?_ nofun
        (fun _ => rfl) fun _ => rfl
      · intro c' _ _ _ hne
        simp [Ne.symm hne]
      · split
        · nofun
        · rfl
    · exact hs.honest.proper
    · exact hs.honest.assembled

theorem proper_of_timer {reason : TerminateReason} (h : c.timer = some reason) :
    Proper waited c ⟨.zero, reason⟩ := by
  cases c with
  | wallClock | idleClock =>
    cases h
    exact ⟨rfl, nofun, fun _ => rfl⟩
  | wait | cpuClock => cases h

/-- `Wait` has returned, which it does once. -/
theorem Shows.waitReturns (hs : Shows s v) (hpc : s.pc .wait = .waiting) (result : Result) :
    Shows ({ s with waited := some result }.set .wait (.calling ⟨result, .normal⟩)) v := by
  have hnone := hs.places.waiting hpc
  have hproper : ∀ c call, Proper s.waited c call → Proper (some result) c call := by
    intro c call h
    refine ⟨h.reason, fun hc => ?_, h.zero⟩
    have hwaited := h.waited hc
    rw [hnone] at hwaited
    cases hwaited
  refine ⟨hs.places.update ?_ (fun _ _ _ _ _ => Iff.rfl) hproper ?_ nofun nofun nofun id, ⟨?_, ?_⟩,
    hs.once, hs.log, hs.done, hs.results, hs.hooked⟩
  · intro call durationMs stage
    rw [← hs.places.inside, hpc]
    exact ⟨nofun, nofun⟩
  · rintro _ ⟨⟩
    exact ⟨rfl, fun _ => rfl, fun h => absurd rfl h⟩
  · exact fun c call h => hproper c call (hs.honest.proper c call h)
  · exact hs.honest.assembled

theorem Shows.fresh_of_once (hs : Shows s v) (h : s.once = .fresh) : v = .fresh := by
  have honce := hs.once
  rw [h] at honce
  cases v with
  | fresh => rfl
  | running | finished => cases honce

theorem Shows.done_of_finished (hs : Shows s v) (h : s.once = .finished) : v.done = true := by
  have honce := hs.once
  rw [h] at honce
  cases v with
  | finished => rfl
  | fresh | running => cases honce

/-- The first call of `Do` enters the body. -/
theorem Shows.enter (hs : Shows s .fresh) (hpc : s.pc c = .calling call) :
    Shows ((({ s with once := .running }.emit (.enter c call)).set c
        (.inside call durationMs (if s.hasHook then .hook else .kill))))
      (.running c call durationMs (if s.hasHook then .hook else .kill)) := by
  have hlog : s.log = [] := hs.log
  refine ⟨?_, ⟨?_, ?_⟩, rfl, ?_, ?_, ?_, ?_⟩
  · refine hs.places.update (by simp) ?_ (fun _ _ => id) (fun _ => nofun) ?_ nofun nofun nofun
    · intro c' _ _ _ hne
      simp [Ne.symm hne]
    · split
      · nofun
      · rfl
  · rintro _ _ ⟨⟩
    exact hs.places.calling c call hpc
  · split <;> nofun
  · cases s.hasHook <;> simp [Teardown.emit, Teardown.set, View.log, Stage.log, hlog]
  · have hdone := hs.done
    cases s.hasHook <;> exact hdone
  · have hresults := hs.results
    cases s.hasHook <;> exact hresults
  · intro _ _ _ h
    by_contra hhook
    simp [Teardown.set, Teardown.emit] at hhook
    simp [hhook] at h

theorem step_shows (hs : Shows s v) (h : s.step a = some s') :
    ∃ v', Shows s' v' ∧ s'.hasHook = s.hasHook ∧
      (v.done = true → v'.log s.hasHook = v.log s.hasHook ∧ v'.sent = v.sent) := by
  cases a with
  | waitReturns result =>
    obtain ⟨hpc, h⟩ := Option.ite_none_right_eq_some.mp h
    obtain rfl := Option.some.inj h
    exact ⟨v, hs.waitReturns hpc result, rfl, fun _ => ⟨rfl, rfl⟩⟩
  | expire c =>
    simp only [Teardown.step] at h
    split at h
    · next reason htimer =>
      obtain ⟨hpc, h⟩ := Option.ite_none_right_eq_some.mp h
      obtain rfl := Option.some.inj h
      refine ⟨v, hs.move (by rw [hpc]; rfl) rfl ?_ (fun _ => nofun) nofun nofun, rfl,
        fun _ => ⟨rfl, rfl⟩⟩
      rintro _ ⟨⟩
      exact proper_of_timer htimer
    · cases h
  | activity =>
    obtain ⟨-, h⟩ := Option.ite_none_right_eq_some.mp h
    obtain rfl := Option.some.inj h
    exact ⟨v, hs, rfl, fun _ => ⟨rfl, rfl⟩⟩
  | tick =>
    obtain ⟨hpc, h⟩ := Option.ite_none_right_eq_some.mp h
    obtain rfl := Option.some.inj h
    refine ⟨v, hs.move (by rw [hpc]; rfl) rfl (fun _ => nofun) nofun (fun _ => rfl) nofun, rfl,
      fun _ => ⟨rfl, rfl⟩⟩
  | usage cpuMs =>
    obtain ⟨hpc, h⟩ := Option.ite_none_right_eq_some.mp h
    have hagain : Shows (s.set .cpuClock .waiting) v :=
      hs.move (by rw [hpc]; rfl) rfl (fun _ => nofun) nofun nofun nofun
    cases cpuMs with
    | none =>
      obtain rfl := Option.some.inj h
      exact ⟨v, hagain, rfl, fun _ => ⟨rfl, rfl⟩⟩
    | some cpuMs =>
      dsimp only at h
      split at h
      · obtain rfl := Option.some.inj h
        refine ⟨v, hs.move (by rw [hpc]; rfl) rfl ?_ (fun _ => nofun) nofun nofun, rfl,
          fun _ => ⟨rfl, rfl⟩⟩
        rintro _ ⟨⟩
        exact ⟨rfl, nofun, fun _ => rfl⟩
      · obtain rfl := Option.some.inj h
        exact ⟨v, hagain, rfl, fun _ => ⟨rfl, rfl⟩⟩
  | seeDone c =>
    obtain ⟨⟨hne, hpc, hdone⟩, h⟩ := Option.ite_none_right_eq_some.mp h
    obtain rfl := Option.some.inj h
    rw [hs.done] at hdone
    exact ⟨v, hs.move (by rw [hpc]; rfl) rfl (fun _ => nofun) (fun h => absurd h hne) nofun
      fun _ => hdone, rfl, fun _ => ⟨rfl, rfl⟩⟩
  | callOnce c durationMs =>
    simp only [Teardown.step] at h
    split at h
    · next call hpc honce =>
      obtain rfl := Option.some.inj h
      obtain rfl := hs.fresh_of_once honce
      exact ⟨_, hs.enter hpc, rfl, nofun⟩
    · next call hpc honce =>
      obtain rfl := Option.some.inj h
      have hdone := hs.done_of_finished honce
      exact ⟨v, hs.move (by rw [hpc]; rfl) rfl (fun _ => nofun) (fun _ => nofun) nofun
        fun _ => hdone, rfl, fun _ => ⟨rfl, rfl⟩⟩
    · cases h
  | body c =>
    simp only [Teardown.step] at h
    split at h
    · next call durationMs stage hpc =>
      obtain rfl := (hs.places.inside c call durationMs stage).mp hpc
      obtain ⟨t, v', ht, hbody⟩ := bodyStep_shows hs
      obtain rfl := Option.some.inj (ht.symm.trans h)
      exact ⟨v', hbody.shows, hbody.hasHook, hbody.final⟩
    · cases h
  | truncate =>
    obtain rfl := Option.some.inj h
    exact ⟨v, ⟨hs.places, hs.honest, hs.once, hs.log, hs.done, hs.results, hs.hooked⟩, rfl,
      fun _ => ⟨rfl, rfl⟩⟩
  | receive =>
    simp only [Teardown.step] at h
    split at h
    · next result hreturned hresult =>
      obtain rfl := Option.some.inj h
      refine ⟨v, ⟨hs.places, hs.honest, hs.once, hs.log, hs.done, ?_, hs.hooked⟩, rfl,
        fun _ => ⟨rfl, rfl⟩⟩
      rw [← hs.results]
      simp [Teardown.results, hreturned, hresult]
    · cases h

/-- The body has been entered by a goroutine with its call, and is on its way to a result. -/
structure RanBy (s : Teardown) (c : Caller) (call : Call) (result : Result) : Prop where
  log : s.log ≠ [] ∧ s.log <+: script s.hasHook c call result
  reason : call.reason = c.reason
  results : s.results = if .result result ∈ s.log then [result] else []
  timedOut : result.timedOut = true ↔ c = .wallClock ∨ c = .cpuClock
  idleTimedOut : result.idleTimedOut = true ↔ c = .idleClock
  exit : c = .wait →
    ∃ w, s.waited = some w ∧ result.exitCode = w.exitCode ∧ result.signal = w.signal
  noExit : c ≠ .wait → result.exitCode = none ∧ result.signal = none
  done : s.done = true → s.log = script s.hasHook c call result

/-- The body of `terminate` has not been entered, or one goroutine has entered it. -/
inductive Unique (s : Teardown) : Prop where
  | fresh (hlog : s.log = []) (hresults : s.results = []) (hdone : s.done = false)
  | ran (c : Caller) (call : Call) (result : Result) (h : RanBy s c call result)

theorem log_prefix_script (hasHook : Bool) (c : Caller) (call : Call) (stage : Stage)
    (result : Result)
    (h : ∀ r, (View.running c call durationMs stage).assembled = some r → r = result) :
    stage.log hasHook c call <+: script hasHook c call result := by
  have htorn : torn hasHook c call <+: script hasHook c call result := List.prefix_append _ _
  cases stage with
  | hook => exact (List.prefix_append [_] _).trans htorn
  | kill => exact (List.prefix_append _ _).trans htorn
  | cleanup =>
    refine List.IsPrefix.trans ⟨[.cleanup], ?_⟩ htorn
    simp [Stage.log, torn]
  | assemble | send => exact htorn
  | close r =>
    obtain rfl := h r rfl
    exact ⟨[.done], by simp [Stage.log, script]⟩
  | leave r =>
    obtain rfl := h r rfl
    exact List.prefix_rfl

theorem RanBy.of_call {truncated : Bool} (hproper : Proper s.waited c call)
    (hlog : s.log ≠ [] ∧ s.log <+: script s.hasHook c call (call.result truncated durationMs))
    (hresults : s.results =
      if .result (call.result truncated durationMs) ∈ s.log then
        [call.result truncated durationMs] else [])
    (hdone : s.done = true →
      s.log = script s.hasHook c call (call.result truncated durationMs)) :
    RanBy s c call (call.result truncated durationMs) where
  log := hlog
  reason := hproper.reason
  results := hresults
  timedOut := by
    rw [Call.result, hproper.reason, decide_eq_true_eq]
    cases c <;> decide
  idleTimedOut := by
    rw [Call.result, hproper.reason, decide_eq_true_eq]
    cases c <;> decide
  exit := fun hc => ⟨call.waitResult, hproper.waited hc, rfl, rfl⟩
  noExit := fun hc => by
    rw [Call.result, hproper.zero hc]
    exact ⟨rfl, rfl⟩
  done := hdone

theorem result_not_mem_torn (hasHook : Bool) (c : Caller) (call : Call) (result : Result) :
    .result result ∉ torn hasHook c call := by
  cases hasHook <;> simp [torn]

theorem Shows.ranBy {truncated : Bool} {ms : ℤ} (hs : Shows s (.running c call durationMs stage))
    (hassembled : ∀ r, (View.running c call durationMs stage).assembled = some r →
      r = call.result truncated ms)
    (hsent : (View.running c call durationMs stage).sent =
      if .result (call.result truncated ms) ∈ stage.log s.hasHook c call then
        [call.result truncated ms] else []) :
    RanBy s c call (call.result truncated ms) := by
  have hlog : s.log = stage.log s.hasHook c call := hs.log
  apply RanBy.of_call (hs.honest.proper c call rfl)
  · rw [hlog]
    refine ⟨?_, log_prefix_script s.hasHook c call stage _ hassembled⟩
    cases stage <;> simp [Stage.log, torn, script]
  · rw [hlog, hs.results, hsent]
  · intro hdone
    rw [hs.done] at hdone
    rw [hlog]
    cases stage with
    | leave r =>
      obtain rfl := hassembled r rfl
      rfl
    | hook | kill | cleanup | assemble | send | close => cases hdone

theorem Shows.unique (hs : Shows s v) : Unique s := by
  cases v with
  | fresh => exact .fresh hs.log hs.results hs.done
  | running c call durationMs stage =>
    have htorn := result_not_mem_torn s.hasHook c call
    cases stage with
    | hook | kill | cleanup =>
      refine .ran c call (call.result false 0) (hs.ranBy (fun _ => nofun) ?_)
      rw [if_neg (by cases s.hasHook <;> simp [Stage.log])]
      rfl
    | assemble =>
      refine .ran c call (call.result false 0) (hs.ranBy (fun _ => nofun) ?_)
      rw [Stage.log, if_neg (htorn _)]
      rfl
    | send r =>
      obtain ⟨truncated, ms, rfl⟩ := hs.assembled_eq rfl
      refine .ran c call _ (hs.ranBy (fun _ h => (Option.some.inj h).symm) ?_)
      rw [Stage.log, if_neg (htorn _)]
      rfl
    | close r | leave r =>
      obtain ⟨truncated, ms, rfl⟩ := hs.assembled_eq rfl
      refine .ran c call _ (hs.ranBy (fun _ h => (Option.some.inj h).symm) ?_)
      rw [if_pos (by simp [Stage.log, script])]
      rfl
  | finished c call r =>
    obtain ⟨c', call', truncated, ms, hentered, rfl⟩ := hs.honest.assembled r rfl
    cases hentered
    refine .ran c call _ (.of_call (hs.honest.proper c call rfl) ?_ ?_ fun _ => hs.log)
    · rw [hs.log]
      exact ⟨by simp [View.log, script], List.prefix_rfl⟩
    · rw [hs.log, hs.results, if_pos (by simp [View.log, script])]
      rfl

theorem Unique.results (h : Unique s) :
    s.results.length ≤ 1 ∧
      ∀ result ∈ s.results, ¬(result.timedOut = true ∧ result.idleTimedOut = true) := by
  cases h with
  | fresh _ hresults => simp [hresults]
  | ran c call result h =>
    rw [h.results]
    split
    · refine ⟨Nat.le_refl 1, fun r hr => ?_⟩
      obtain rfl := List.mem_singleton.mp hr
      rw [h.timedOut, h.idleTimedOut]
      rintro ⟨rfl | rfl, hidle⟩ <;> cases hidle
    · simp

theorem Shows.can_receive {result : Result} (hs : Shows s v) (hsent : v.sent = [result]) :
    ∃ t result, Reachable Teardown.step s t ∧ t.returned = some result := by
  have hresults := hs.results.trans hsent
  cases hreturned : s.returned with
  | some r => exact ⟨s, r, .refl, hreturned⟩
  | none =>
    rw [Teardown.results, hreturned] at hresults
    have hch : s.resultCh = some result := by
      cases hch : s.resultCh with
      | none => simp [hch] at hresults
      | some r => simpa [hch] using hresults
    refine ⟨{ s with returned := some result, resultCh := none }, result,
      .of_step (a := .receive) ?_, rfl⟩
    simp [Teardown.step, hreturned, hch]

theorem can_return_of_running (n : ℕ) (s : Teardown) (v : View) (hs : Shows s v)
    (hv : v ≠ .fresh) (hn : v.left ≤ n) :
    ∃ t result, Reachable Teardown.step s t ∧ t.returned = some result := by
  induction n generalizing s v with
  | zero =>
    cases v with
    | fresh => exact absurd rfl hv
    | running c call durationMs stage =>
      cases stage <;> exact absurd hn (by simp [View.left, Stage.left])
    | finished c call result => exact hs.can_receive rfl
  | succ n ih =>
    cases v with
    | fresh => exact absurd rfl hv
    | finished c call result => exact hs.can_receive rfl
    | running c call durationMs stage =>
      obtain ⟨s', v', hstep, hbody⟩ := bodyStep_shows hs
      have hpc := (hs.places.inside c call durationMs stage).mpr rfl
      have hbodyAct : s.step (.body c) = some s' := by
        simp only [Teardown.step, hpc]
        exact hstep
      have hfresh : v' ≠ .fresh := by
        rintro rfl
        have hleft := hbody.left
        cases stage <;> simp [View.left, Stage.left] at hleft
      obtain ⟨t, result, ht, hreturned⟩ := ih s' v' hbody.shows hfresh
        (Nat.le_of_lt_succ (Nat.lt_of_lt_of_le hbody.left hn))
      exact ⟨t, result, .trans (.of_step hbodyAct) ht, hreturned⟩

/-- From each state the session can come to the return of `RunInteractive`. -/
theorem Shows.can_return (hs : Shows s v) :
    ∃ t result, Reachable Teardown.step s t ∧ t.returned = some result := by
  by_cases hv : v = .fresh
  · subst hv
    have hcall : ∀ {s : Teardown} {call}, Shows s .fresh → s.pc .wallClock = .calling call →
        ∃ t result, Reachable Teardown.step s t ∧ t.returned = some result := by
      intro s call hs hpc
      have henter : Shows _ (.running .wallClock call 0 _) := hs.enter hpc
      obtain ⟨t, result, ht, hreturned⟩ :=
        can_return_of_running _ _ _ henter nofun (Nat.le_refl _)
      refine ⟨t, result, .trans (.of_step (a := .callOnce .wallClock 0) ?_) ht, hreturned⟩
      have honce : s.once = .fresh := hs.once
      simp only [Teardown.step, hpc, honce]
    cases hpc : s.pc .wallClock with
    | waiting =>
      have hmove : Shows (s.set .wallClock (.calling ⟨.zero, .wall⟩)) .fresh := by
        refine hs.move (by rw [hpc]; rfl) rfl ?_ (fun _ => nofun) nofun nofun
        rintro _ ⟨⟩
        exact proper_of_timer rfl
      obtain ⟨t, result, ht, hreturned⟩ := hcall hmove set_pc_self
      exact ⟨t, result, .trans (.of_step (a := .expire .wallClock) (if_pos hpc)) ht, hreturned⟩
    | polling => cases hs.places.polling _ hpc
    | calling call => exact hcall hs hpc
    | inside call durationMs stage => cases (hs.places.inside _ _ _ _).mp hpc
    | exited => cases hs.places.exited _ hpc
  · exact can_return_of_running _ s v hs hv (Nat.le_refl _)

/-- The teardown runs once whatever the order of the goroutines, and nothing changes its result or
runs a part of it again when `done` is closed. -/
theorem terminate_unique (limits : Limits) (hasHook : Bool) (as : List TeardownAct) :
    Always Teardown.step
      (fun s => Unique s ∧ s.results.length ≤ 1 ∧
        (∀ result ∈ s.results, ¬(result.timedOut = true ∧ result.idleTimedOut = true)) ∧
        (∀ a s', s.done = true → s.step a = some s' → s'.log = s.log ∧ s'.results = s.results) ∧
        ∃ t result, Reachable Teardown.step s t ∧ t.returned = some result)
      (.start limits hasHook) as := by
  have hall : Always Teardown.step (fun s => ∃ v, Shows s v) (.start limits hasHook) as := by
    refine .of_invariant ?_ ⟨_, shows_start limits hasHook⟩
    rintro s a s' ⟨v, hs⟩ h
    obtain ⟨v', hs', -⟩ := step_shows hs h
    exact ⟨v', hs'⟩
  refine hall.mono ?_
  rintro s ⟨v, hs⟩
  refine ⟨hs.unique, hs.unique.results.1, hs.unique.results.2, fun a s' hdone h => ?_,
    hs.can_return⟩
  obtain ⟨v', hs', hhook, hfinal⟩ := step_shows hs h
  obtain ⟨hlog, hsent⟩ := hfinal (hs.done ▸ hdone)
  rw [hs'.log, hs'.results, hhook, hlog, hsent, ← hs.log, ← hs.results]
  exact ⟨rfl, rfl⟩

end CodeRunner.Session
