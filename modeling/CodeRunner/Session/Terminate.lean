import CodeRunner.Session.Pump

/-! # The end of a session

A session whose process exits by itself: the goroutine that waits for it terminates the session
beside the two pumps. What `RunInteractive` returns is compared with what the sinks get.
-/

namespace CodeRunner.Session

open Transition Quota

/-- Inside `terminate`, before each of its statements. -/
inductive TerminatePc where
  | running
  | beforeCleanup
  | kill
  | cleanup
  | load
  | returned
  deriving DecidableEq, Repr

/-- `Cleanup` has closed the readers of the pipes. -/
def TerminatePc.closed : TerminatePc → Bool
  | .load | .returned => true
  | _ => false

/-- What `RunInteractive` has returned, with what the sinks had got by then. -/
structure Returned where
  truncated : Bool
  sunk : Stream → List UInt8

/-- The pumps of a session beside its end. `persisted` is the output in the `RunResult` of the
worker, which is assembled after the return. -/
structure Supervised where
  output : Output
  pc : TerminatePc
  result : Option Returned
  persisted : Option (Stream → List UInt8)

def Supervised.start (outputKb : Int64) (src : Stream → List UInt8) : Supervised :=
  ⟨.start outputKb src, .running, none, none⟩

/-- `wait` is the return of `Wait`. The next three are the statements of `terminate` up to
`Cleanup`, and `load` is that of the flag, with the return. -/
inductive SessionAct where
  | output (act : OutputAct)
  | wait
  | beforeCleanup
  | kill
  | cleanup
  | load
  | persist
  deriving DecidableEq, Repr

/-- A read of a pipe that fails only when its reader is closed, and then at once. -/
def OutputAct.pipe (closed : Bool) : OutputAct → Bool
  | .read _ n fin => if closed then decide (n = 0 ∧ fin = .failed) else decide (fin ≠ .failed)
  | .go _ => true

namespace Supervised

def step (s : Supervised) : SessionAct → Option Supervised
  | .output act =>
    if act.pipe s.pc.closed then
      (s.output.step act).map fun output => { s with output := output }
    else none
  | .wait => if s.pc = .running then some { s with pc := .beforeCleanup } else none
  | .beforeCleanup => if s.pc = .beforeCleanup then some { s with pc := .kill } else none
  | .kill => if s.pc = .kill then some { s with pc := .cleanup } else none
  | .cleanup => if s.pc = .cleanup then some { s with pc := .load } else none
  | .load =>
    if s.pc = .load then
      some { s with
        pc := .returned
        result := some ⟨s.output.truncated, fun i => (s.output.pump i).sunk⟩ }
    else none
  | .persist =>
    if s.pc = .returned ∧ s.persisted = none then
      some { s with persisted := some fun i => (s.output.pump i).sunk }
    else none

/-- Once the session has returned the sinks have got all of the output that the cap allows, the
flag it has returned is the final one, and the sinks get nothing more; what is persisted is what
was streamed. -/
structure Complete (src : Stream → List UInt8) (cap : ℕ) (s : Supervised) (r : Returned) :
    Prop where
  forwarded : Forwarded src cap s.output
  truncated : r.truncated = s.output.truncated
  final : ∀ i, (s.output.pump i).sunk = r.sunk i
  persisted : ∀ sunk, s.persisted = some sunk → ∀ i, sunk i = (s.output.pump i).sunk

end Supervised

def PumpPc.idle : PumpPc → Bool
  | .reading | .returned _ => true
  | _ => false

/-- `Cleanup` closes the readers when all has been read or the output is known to be truncated,
and the flag is loaded when all that has been read has been handed on. -/
def Drained (s : Supervised) : SessionAct → Prop
  | .cleanup => (∀ i, (s.output.pump i).rest = []) ∨ s.output.truncated = true
  | .load => ∀ i, (s.output.pump i).pc.idle = true
  | _ => True

instance (s : Supervised) : ∀ a, Decidable (Drained s a)
  | .cleanup => inferInstanceAs (Decidable ((∀ _, _ = _) ∨ _))
  | .load => inferInstanceAs (Decidable (∀ _, _ = _))
  | .output _ | .wait | .beforeCleanup | .kill | .persist => isTrue trivial

variable {src : Stream → List UInt8} {cap : ℕ} {o o' : Output} {i : Stream} {act : OutputAct}
  {s s' : Supervised} {a : SessionAct}

theorem idle_held {pc : PumpPc} (h : pc.idle = true) :
    pc.held = [] ∧ pc.granted = [] ∧ pc.exceeds = false := by
  cases pc with
  | reading | returned => exact ⟨rfl, rfl, rfl⟩
  | drawing | crossing | sinking | marking => cases h

theorem truncated_mono (h : o.step act = some o') (ht : o.truncated = true) :
    o'.truncated = true := by
  cases output_branch h with
  | read | draw | sink => exact ht
  | cross | mark => rfl

theorem closed_rest (hp : act.pipe true = true) (h : o.step act = some o') :
    ∀ i, (o'.pump i).rest = (o.pump i).rest := by
  cases output_branch h with
  | read =>
    obtain ⟨rfl, -⟩ := of_decide_eq_true hp
    exact forall_set (P := fun j p => p.rest = (o.pump j).rest) rfl fun _ => rfl
  | draw | cross | sink | mark =>
    exact forall_set (P := fun j p => p.rest = (o.pump j).rest) rfl fun _ => rfl

theorem idle_step (hidle : ∀ i, (o.pump i).pc.idle = true) (hp : act.pipe true = true)
    (h : o.step act = some o') :
    (∀ i, (o'.pump i).pc.idle = true) ∧ o'.truncated = o.truncated ∧
      ∀ i, (o'.pump i).sunk = (o.pump i).sunk := by
  cases output_branch h with
  | read =>
    obtain ⟨rfl, rfl⟩ := of_decide_eq_true hp
    refine ⟨forall_set (P := fun _ p => p.pc.idle = true) rfl hidle, rfl, ?_⟩
    exact forall_set (P := fun j p => p.sunk = (o.pump j).sunk) rfl fun _ => rfl
  | @draw i chunk fin hpc | @cross i chunk forward fin hpc | @sink i chunk forward fin hpc
  | @mark i fin hpc =>
    have hi := hidle i
    rw [hpc] at hi
    cases hi

/-- The quota is served, all has been read when the readers are closed, and nothing is held back
at the return. -/
structure Settles (src : Stream → List UInt8) (cap : ℕ) (s : Supervised) : Prop where
  refines : ∃ log, Refines src cap log s.output
  rest : s.pc.closed = true → (∀ i, (s.output.pump i).rest = []) ∨ s.output.truncated = true
  unreturned : s.pc ≠ .returned → s.result = none ∧ s.persisted = none
  idle : s.pc = .returned → ∀ i, (s.output.pump i).pc.idle = true
  result : ∀ r, s.result = some r → r.truncated = s.output.truncated ∧
    ∀ i, (s.output.pump i).sunk = r.sunk i
  persisted : ∀ sunk, s.persisted = some sunk → ∀ i, sunk i = (s.output.pump i).sunk

theorem Settles.returned (hs : Settles src cap s) (h : s.result ≠ none ∨ s.persisted ≠ none) :
    s.pc = .returned := by
  by_contra hne
  obtain ⟨hres, hper⟩ := hs.unreturned hne
  exact h.elim (absurd hres) (absurd hper)

theorem step_settles (hfit : ∑ j, (src j).length ≤ cap + 9223372036854775808)
    (hs : Settles src cap s) (hg : Drained s a) (h : s.step a = some s') : Settles src cap s' := by
  cases a with
  | output act =>
    obtain ⟨hp, h⟩ := Option.ite_none_right_eq_some.mp h
    obtain ⟨o', ho, rfl⟩ := Option.map_eq_some_iff.mp h
    obtain ⟨log, hlog⟩ := hs.refines
    have hsame : s.pc = .returned → (∀ i, (o'.pump i).pc.idle = true) ∧
        o'.truncated = s.output.truncated ∧ ∀ i, (o'.pump i).sunk = (s.output.pump i).sunk := by
      intro hret
      rw [hret] at hp
      exact idle_step (hs.idle hret) hp ho
    constructor
    · exact step_refines hfit hlog ho
    · intro hclosed
      rw [hclosed] at hp
      rcases hs.rest hclosed with hrest | ht
      · exact .inl fun i => (closed_rest hp ho i).trans (hrest i)
      · exact .inr (truncated_mono ho ht)
    · exact hs.unreturned
    · exact fun hret => (hsame hret).1
    · intro r hr
      have hret : s.pc = .returned := hs.returned (.inl (by rw [hr]; nofun))
      obtain ⟨-, htr, hsunk⟩ := hsame hret
      obtain ⟨hrt, hrs⟩ := hs.result r hr
      exact ⟨hrt.trans htr.symm, fun i => (hsunk i).trans (hrs i)⟩
    · intro sunk hper i
      have hret : s.pc = .returned := hs.returned (.inr (by rw [hper]; nofun))
      rw [hs.persisted sunk hper i]
      exact ((hsame hret).2.2 i).symm
  | wait =>
    obtain ⟨hpc, ⟨⟩⟩ := Option.ite_none_right_eq_some.mp h
    exact ⟨hs.refines, nofun, fun _ => hs.unreturned (by rw [hpc]; nofun), nofun, hs.result,
      hs.persisted⟩
  | beforeCleanup =>
    obtain ⟨hpc, ⟨⟩⟩ := Option.ite_none_right_eq_some.mp h
    exact ⟨hs.refines, nofun, fun _ => hs.unreturned (by rw [hpc]; nofun), nofun, hs.result,
      hs.persisted⟩
  | kill =>
    obtain ⟨hpc, ⟨⟩⟩ := Option.ite_none_right_eq_some.mp h
    exact ⟨hs.refines, nofun, fun _ => hs.unreturned (by rw [hpc]; nofun), nofun, hs.result,
      hs.persisted⟩
  | cleanup =>
    obtain ⟨hpc, ⟨⟩⟩ := Option.ite_none_right_eq_some.mp h
    exact ⟨hs.refines, fun _ => hg, fun _ => hs.unreturned (by rw [hpc]; nofun), nofun, hs.result,
      hs.persisted⟩
  | load =>
    obtain ⟨hpc, ⟨⟩⟩ := Option.ite_none_right_eq_some.mp h
    obtain ⟨-, hper⟩ := hs.unreturned (by rw [hpc]; nofun)
    refine ⟨hs.refines, fun _ => hs.rest (by rw [hpc]; rfl), fun hne => absurd rfl hne, fun _ => hg,
      fun r hr => ?_, hs.persisted⟩
    obtain rfl := Option.some.inj hr
    exact ⟨rfl, fun _ => rfl⟩
  | persist =>
    obtain ⟨⟨hpc, -⟩, ⟨⟩⟩ := Option.ite_none_right_eq_some.mp h
    refine ⟨hs.refines, hs.rest, fun hne => absurd hpc hne, hs.idle, hs.result, fun sunk hper => ?_⟩
    obtain rfl := Option.some.inj hper
    exact fun _ => rfl

theorem Settles.complete (hs : Settles src cap s) {r : Returned} (hr : s.result = some r) :
    s.Complete src cap r := by
  have hret : s.pc = .returned := hs.returned (.inl (by rw [hr]; nofun))
  obtain ⟨log, hlog⟩ := hs.refines
  have hheld := fun i => idle_held (hs.idle hret i)
  obtain ⟨htr, hsunk⟩ := hs.result r hr
  constructor
  · apply hlog.forwarded
    · exact fun i => (hheld i).1
    · exact fun i => (hheld i).2.1
    · exact fun i => (hheld i).2.2
    · exact hs.rest (by rw [hret]; rfl)
  · exact htr
  · exact hsunk
  · exact hs.persisted

/-- In a run in which the pumps are done before the readers are closed and the flag is loaded,
the output of the session is complete and final when it returns. -/
theorem complete_of_drained {outputKb : Int64} {K : ℕ} {as : List SessionAct}
    (hK : outputKb.toInt = K) (hcap : K * 1024 < 9223372036854775808)
    (hfit : ∑ j, (src j).length ≤ K * 1024 + 9223372036854775808)
    (hg : EveryStep Supervised.step Drained (.start outputKb src) as) :
    Always Supervised.step (fun s => ∀ r, s.result = some r → s.Complete src (K * 1024) r)
      (.start outputKb src) as := by
  have hall : Always Supervised.step (Settles src (K * 1024)) (.start outputKb src) as := by
    refine .of_guarded (fun _ _ _ => step_settles hfit) ?_ hg
    exact ⟨⟨[], .start hK hcap⟩, nofun, fun _ => ⟨rfl, rfl⟩, nofun, nofun, nofun⟩
  exact hall.mono fun s hs r hr => hs.complete hr

/-- The process has written a byte and exited, and is waited for before the pumps come to read. -/
def waitFirst : List SessionAct := [.wait, .beforeCleanup, .kill, .cleanup, .load]

theorem not_always_complete :
    ¬ ∀ (outputKb : Int64) (K : ℕ) (src : Stream → List UInt8) (as : List SessionAct),
      outputKb.toInt = K →
        Always Supervised.step (fun s => ∀ r, s.result = some r → s.Complete src (K * 1024) r)
          (.start outputKb src) as := by
  intro hall
  obtain ⟨s, r, hr, hres, hsunk⟩ :
      ∃ s r, run Supervised.step (.start 1 oneByte) waitFirst = some s ∧ s.result = some r ∧
        ∑ i, (s.output.pump i).sunk.length = 0 := ⟨_, _, rfl, rfl, rfl⟩
  have hcomplete := (hall 1 1 oneByte waitFirst rfl).last hr r hres
  have hamount := hcomplete.forwarded.amount
  rw [hsunk] at hamount
  exact absurd hamount (by decide)

/-- The same process, whose output is pumped before the session ends. -/
def pumpFirst : List SessionAct := pumpOneByte.map .output ++ waitFirst ++ [.persist]

theorem pumpFirst_complete :
    ∃ s r, run Supervised.step (.start 1 oneByte) pumpFirst = some s ∧ s.result = some r ∧
      s.Complete oneByte 1024 r := by
  obtain ⟨s, r, hr, hres⟩ : ∃ s r, run Supervised.step (.start 1 oneByte) pumpFirst = some s ∧
      s.result = some r := ⟨_, _, rfl, rfl⟩
  have hall : Always Supervised.step (fun s => ∀ r, s.result = some r → s.Complete oneByte 1024 r)
      (.start 1 oneByte) pumpFirst :=
    complete_of_drained (K := 1) rfl (by decide) (by decide) (by decide)
  exact ⟨s, r, hr, hres, hall.last hr r hres⟩

end CodeRunner.Session
