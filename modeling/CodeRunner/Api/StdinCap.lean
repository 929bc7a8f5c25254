import CodeRunner.Lib.Tally
import CodeRunner.Lib.Transition
import Mathlib.Data.Int.Notation

/-! # The cap on pending stdin bytes

`POST /v1/jobs/:id/stdin` counts the bytes of a chunk before it is published and refuses the chunk
over the cap. Nothing else takes bytes off the counter: the worker consumes the chunks without
touching it.
-/

namespace CodeRunner.Api

open Tally Transition

/-- `STDIN_PENDING_BYTE_CAP`. -/
def stdinPendingByteCap : ℕ := 65536

/-- A request whose chunk has been counted: before the `DECRBY` that undoes it, before its
publish, and answered. -/
inductive StdinPc where
  | undo (chunk : String)
  | publish (chunk : String)
  | rejected
  | accepted
  deriving DecidableEq, Repr

/-- The bytes a request has counted and neither published nor taken back. -/
def StdinPc.charge : StdinPc → ℕ
  | .undo chunk | .publish chunk => chunk.utf8ByteSize
  | _ => 0

def StdinPc.done : StdinPc → Bool
  | .rejected | .accepted => true
  | _ => false

/-- The counter of a job with its requests, on all replicas, and the chunks that have been
published and not consumed, oldest first. `consumed` is the number of bytes consumed so far. -/
structure StdinCap where
  counter : ℤ
  requests : List StdinPc
  published : List String
  consumed : ℕ

inductive StdinAct where
  | incr (chunk : String)
  | decr (i : ℕ)
  | publish (i : ℕ)
  | consume
  deriving DecidableEq

namespace StdinCap

def start : StdinCap := ⟨0, [], [], 0⟩

def unconsumed (c : StdinCap) : ℕ := tally String.utf8ByteSize c.published

/-- The bytes of the requests that have counted them and are not done. -/
def inFlight (c : StdinCap) : ℕ := tally StdinPc.charge c.requests

def step (c : StdinCap) : StdinAct → Option StdinCap
  | .incr chunk =>
    let total := c.counter + chunk.utf8ByteSize
    some { c with
      counter := total
      requests := c.requests ++
        [if (stdinPendingByteCap : ℤ) < total then .undo chunk else .publish chunk] }
  | .decr i =>
    match c.requests[i]? with
    | some (.undo chunk) =>
      some { c with
        counter := c.counter - chunk.utf8ByteSize
        requests := c.requests.set i .rejected }
    | _ => none
  | .publish i =>
    match c.requests[i]? with
    | some (.publish chunk) =>
      some { c with
        requests := c.requests.set i .accepted
        published := c.published ++ [chunk] }
    | _ => none
  | .consume =>
    match c.published with
    | chunk :: rest =>
      some { c with published := rest, consumed := c.consumed + chunk.utf8ByteSize }
    | [] => none

def Idle (c : StdinCap) : Prop := ∀ pc ∈ c.requests, pc.done = true

/-- Between requests the counter is the number of unconsumed bytes. -/
def Level (c : StdinCap) : Prop := c.Idle → c.counter = c.unconsumed

/-- Nothing has been consumed between requests. -/
def Unread (c : StdinCap) : Prop := c.Idle → c.consumed = 0

instance (c : StdinCap) : Decidable c.Idle := inferInstanceAs (Decidable (∀ _ ∈ _, _))

instance (c : StdinCap) : Decidable c.Level := inferInstanceAs (Decidable (_ → _))

end StdinCap

/-- A chunk is refused only when it does not fit beside the unconsumed bytes. -/
def RefusesRightly (c : StdinCap) : StdinAct → Prop
  | .incr chunk =>
    (stdinPendingByteCap : ℤ) < c.counter + chunk.utf8ByteSize →
      stdinPendingByteCap < c.unconsumed + chunk.utf8ByteSize
  | _ => True

/-- A chunk that fits beside the unconsumed bytes also fits beside all that has ever been
published, with the requests in flight. -/
def FitsThroughout (c : StdinCap) : StdinAct → Prop
  | .incr chunk =>
    c.unconsumed + chunk.utf8ByteSize ≤ stdinPendingByteCap →
      c.consumed + c.unconsumed + c.inFlight + chunk.utf8ByteSize ≤ stdinPendingByteCap
  | _ => True

variable {c c' : StdinCap} {sa : StdinAct}

/-- The counter holds all bytes ever published, with those of the requests in flight. -/
def StdinCap.Counted (c : StdinCap) : Prop :=
  c.counter = c.consumed + c.unconsumed + c.inFlight

theorem inFlight_of_idle (h : c.Idle) : c.inFlight = 0 := by
  apply tally_eq_zero
  intro pc hpc
  have hdone := h pc hpc
  cases pc with
  | undo | publish => cases hdone
  | rejected | accepted => rfl

theorem step_counted (hc : c.Counted) (h : c.step sa = some c') : c'.Counted := by
  unfold StdinCap.Counted at hc ⊢
  cases sa with
  | incr chunk =>
    obtain rfl := Option.some.inj h
    have hcharge : ∀ (p : Prop) [Decidable p],
        (if p then StdinPc.undo chunk else .publish chunk).charge = chunk.utf8ByteSize := by
      intro p _
      split <;> rfl
    simp only [StdinCap.unconsumed, StdinCap.inFlight, tally_append_singleton, hcharge] at hc ⊢
    push_cast
    omega
  | decr i =>
    simp only [StdinCap.step] at h
    split at h
    · next chunk hi =>
      obtain rfl := Option.some.inj h
      have hset := tally_set (f := StdinPc.charge) (b := .rejected) hi
      simp only [StdinPc.charge] at hset
      simp only [StdinCap.unconsumed, StdinCap.inFlight] at hc ⊢
      omega
    · cases h
  | publish i =>
    simp only [StdinCap.step] at h
    split at h
    · next chunk hi =>
      obtain rfl := Option.some.inj h
      have hset := tally_set (f := StdinPc.charge) (b := .accepted) hi
      simp only [StdinPc.charge] at hset
      simp only [StdinCap.unconsumed, StdinCap.inFlight, tally_append_singleton] at hc ⊢
      push_cast
      omega
    · cases h
  | consume =>
    simp only [StdinCap.step] at h
    split at h
    · next chunk rest hp =>
      obtain rfl := Option.some.inj h
      simp only [StdinCap.unconsumed, StdinCap.inFlight, hp, tally_cons] at hc ⊢
      push_cast at hc ⊢
      omega
    · cases h

theorem StdinCap.Counted.start : StdinCap.start.Counted := rfl

theorem StdinCap.Counted.refuses_iff (hc : c.Counted) :
    RefusesRightly c sa ↔ FitsThroughout c sa := by
  unfold StdinCap.Counted at hc
  cases sa with
  | incr chunk =>
    simp only [RefusesRightly, FitsThroughout]
    omega
  | decr | publish | consume => exact Iff.rfl

theorem StdinCap.Counted.level_iff (hc : c.Counted) : c.Level ↔ c.Unread := by
  unfold StdinCap.Counted at hc
  refine forall_congr' fun hidle => ?_
  have hzero := inFlight_of_idle hidle
  omega

/-- The cap is as stated exactly if nothing has been consumed between requests, and no chunk
comes that fits beside the unconsumed bytes but not beside all that was ever counted. -/
theorem refusesRightly_and_level_iff (sas : List StdinAct) :
    EveryStep StdinCap.step RefusesRightly .start sas ∧
        Always StdinCap.step StdinCap.Level .start sas ↔
      EveryStep StdinCap.step FitsThroughout .start sas ∧
        Always StdinCap.step StdinCap.Unread .start sas := by
  have hcounted : Always StdinCap.step StdinCap.Counted .start sas :=
    .of_invariant (fun _ _ _ => step_counted) .start
  apply and_congr
  · exact EveryStep.congr (fun _ _ hc => hc.refuses_iff) hcounted
  · exact Always.congr (fun _ hc => hc.level_iff) hcounted

def readChunk (chunk : String) : List StdinAct := [.incr chunk, .publish 0, .consume]

theorem not_always_level :
    ¬ ∀ sas : List StdinAct, EveryStep StdinCap.step RefusesRightly .start sas ∧
      Always StdinCap.step StdinCap.Level .start sas := by
  intro hall
  obtain ⟨t, hr, hlevel⟩ : ∃ t, run StdinCap.step .start (readChunk "42\n") = some t ∧
      ¬ t.Level := ⟨_, rfl, by decide⟩
  exact hlevel ((hall _).2.last hr)

end CodeRunner.Api
