import CodeRunner.Worker.Job
import Mathlib.Data.List.Infix

/-! # The stdin pump

`stdinPump.run` with `drain`, `write` and `writeAll` between its two channels and the sandbox's
stdin. A `select` takes any ready case. The stdin takes bytes as long as it has room, which the
program makes by reading, and fails once the program has closed its side.
-/

namespace CodeRunner.Worker

open Transition

inductive PumpEffect where
  | write (bytes : List UInt8)
  | eof
  | kill
  deriving DecidableEq, Repr

/-- Inside `run`: its `select`, a write with what is left of its chunk, the two `select`s of
`drain`, and the calls of `closeStdin` and `kill`. -/
inductive PumpPc where
  | selecting
  | writing (rest : List UInt8) (inDrain : Bool)
  | checking
  | draining
  | closing
  | killing
  | returned
  deriving DecidableEq, Repr

/-- `room` is what the stdin takes without a read of the program, `gone` that the program has
closed it. The last four fields record the run: the chunks that `stdinCh` has taken, how many
these were when the close that delivers EOF was dequeued, the kills dequeued, and whether a write
has failed. -/
structure StdinPump where
  stdinCh : List (List UInt8)
  ctrlCh : List Control
  done : Bool
  pc : PumpPc
  eof : Bool
  activity : ℕ
  room : ℕ
  gone : Bool
  log : List PumpEffect
  arrived : List (List UInt8)
  closeAt : Option ℕ
  killsTaken : ℕ
  failed : Bool
  deriving DecidableEq, Repr

def StdinPump.start (room : ℕ) : StdinPump where
  stdinCh := []
  ctrlCh := []
  done := false
  pc := .selecting
  eof := false
  activity := 0
  room := room
  gone := false
  log := []
  arrived := []
  closeAt := none
  killsTaken := 0
  failed := false

/-- The buffers of `stdinCh` and `stdinActivity`. -/
def chunkCap : ℕ := 256

def activityCap : ℕ := 64

/-- The first six are steps of the subscriber, the session and the program, the others are the
pump's: `passed` and `drained` are the defaults of the two `select`s of `drain`, and `written` is
the end of `write`. -/
inductive PumpAct where
  | chunk (c : List UInt8)
  | control (msg : Control)
  | finish
  | hear
  | read (n : ℕ)
  | hangUp
  | seeDone
  | takeChunk
  | takeControl
  | passed
  | drained
  | write (n : ℕ)
  | fail
  | written
  | close
  | kill
  deriving DecidableEq, Repr

namespace StdinPump

def step (s : StdinPump) : PumpAct → Option StdinPump
  | .chunk c =>
    if s.stdinCh.length < chunkCap then
      some { s with stdinCh := s.stdinCh ++ [c], arrived := s.arrived ++ [c] }
    else none
  | .control msg =>
    if s.ctrlCh.length < ctrlCap then some { s with ctrlCh := s.ctrlCh ++ [msg] } else none
  | .finish => if s.done then none else some { s with done := true }
  | .hear => if 0 < s.activity then some { s with activity := s.activity - 1 } else none
  | .read n => if s.gone then none else some { s with room := s.room + n }
  | .hangUp => if s.gone then none else some { s with gone := true }
  | .seeDone =>
    if s.done = true ∧ (s.pc = .selecting ∨ s.pc = .checking) then
      some { s with pc := .returned }
    else none
  | .takeChunk =>
    match s.pc, s.stdinCh with
    -- after EOF the chunk is dropped
    | .selecting, c :: stdinCh =>
      some { s with stdinCh := stdinCh, pc := if s.eof then .selecting else .writing c false }
    | .draining, c :: stdinCh =>
      some { s with stdinCh := stdinCh, pc := if s.eof then .checking else .writing c true }
    | _, _ => none
  | .takeControl =>
    match s.pc, s.ctrlCh with
    | .selecting, .stdinClose :: ctrlCh =>
      some { s with
        ctrlCh := ctrlCh
        pc := .checking
        closeAt := if s.eof then s.closeAt else some s.arrived.length }
    | .selecting, .kill :: ctrlCh =>
      some { s with ctrlCh := ctrlCh, pc := .killing, killsTaken := s.killsTaken + 1 }
    | .selecting, .start :: ctrlCh => some { s with ctrlCh := ctrlCh }
    | _, _ => none
  | .passed =>
    if s.pc = .checking ∧ s.done = false then some { s with pc := .draining } else none
  | .drained =>
    if s.pc = .draining ∧ s.stdinCh = [] then some { s with pc := .closing } else none
  | .write n =>
    match s.pc with
    | .writing rest inDrain =>
      if rest ≠ [] ∧ n ≤ rest.length ∧ n ≤ s.room ∧ s.gone = false then
        some { s with
          pc := .writing (rest.drop n) inDrain
          room := s.room - n
          log := s.log ++ [.write (rest.take n)] }
      else none
    | _ => none
  | .fail =>
    match s.pc with
    | .writing rest _ =>
      if rest ≠ [] ∧ s.gone = true then some { s with pc := .returned, failed := true } else none
    | _ => none
  | .written =>
    match s.pc with
    | .writing [] inDrain =>
      some { s with
        pc := if inDrain then .checking else .selecting
        activity := if s.activity < activityCap then s.activity + 1 else s.activity }
    | _ => none
  | .close =>
    if s.pc = .closing then
      some { s with
        pc := .selecting
        eof := true
        -- the guard of `closeStdin` lets one call through
        log := if s.eof then s.log else s.log ++ [.eof] }
    else none
  | .kill =>
    if s.pc = .killing then some { s with pc := .selecting, log := s.log ++ [.kill] } else none

end StdinPump

def PumpPc.rest : PumpPc → List UInt8
  | .writing rest _ => rest
  | .selecting | .checking | .draining | .closing | .killing | .returned => []

def PumpPc.inDrain : PumpPc → Bool
  | .writing _ inDrain => inDrain
  | .checking | .draining | .closing => true
  | .selecting | .killing | .returned => false

def PumpEffect.bytes : PumpEffect → List UInt8
  | .write bytes => bytes
  | .eof | .kill => []

/-- What the sandbox's stdin has received. -/
def StdinPump.received (s : StdinPump) : List UInt8 := s.log.flatMap PumpEffect.bytes

/-- The chunks are received whole and in order, but for the one that is being written, EOF once
and after those that were queued when its close was dequeued, and nothing after it; each kill
that is dequeued is applied, and the pump returns when `done` is closed. -/
structure StdinPump.Orderly (s : StdinPump) : Prop where
  chunks : ∃ n part, s.received = (s.arrived.take n).flatten ++ part ∧
    (part = [] ∨ ∃ c rest inDrain, s.arrived[n]? = some c ∧ s.pc = .writing rest inDrain ∧
      c = part ++ rest)
  closed : .eof ∈ s.log → ∃ k n, s.closeAt = some k ∧ k ≤ n ∧ n ≤ s.arrived.length ∧
    s.received = (s.arrived.take n).flatten
  once : s.log.count .eof ≤ 1
  silent : ∀ pre post, s.log = pre ++ .eof :: post → ∀ e ∈ post, e = .kill
  kills : s.log.count .kill + (if s.pc = .killing then 1 else 0) = s.killsTaken
  returned : s.pc = .returned → s.done = true

variable {s s' t : StdinPump} {a : PumpAct} {as : List PumpAct} {n : ℕ} {c : List UInt8}
  {room : ℕ}

inductive StdinPump.Branch (s : StdinPump) : PumpAct → StdinPump → Prop
  | chunk {c : List UInt8} (hroom : s.stdinCh.length < chunkCap) :
      Branch s (.chunk c) { s with stdinCh := s.stdinCh ++ [c], arrived := s.arrived ++ [c] }
  | control {msg : Control} (hroom : s.ctrlCh.length < ctrlCap) :
      Branch s (.control msg) { s with ctrlCh := s.ctrlCh ++ [msg] }
  | finish (hdone : ¬s.done = true) : Branch s .finish { s with done := true }
  | hear (hactivity : 0 < s.activity) : Branch s .hear { s with activity := s.activity - 1 }
  | read {n : ℕ} (hgone : ¬s.gone = true) : Branch s (.read n) { s with room := s.room + n }
  | hangUp (hgone : ¬s.gone = true) : Branch s .hangUp { s with gone := true }
  | seeDone (hdone : s.done = true) (hpc : s.pc = .selecting ∨ s.pc = .checking) :
      Branch s .seeDone { s with pc := .returned }
  | takeChunk {c : List UInt8} {stdinCh : List (List UInt8)}
      (hpc : s.pc = .selecting ∨ s.pc = .draining) (hqueue : s.stdinCh = c :: stdinCh) :
      Branch s .takeChunk { s with
        stdinCh := stdinCh
        pc := if s.eof then if s.pc.inDrain then .checking else .selecting
          else .writing c s.pc.inDrain }
  | takeClose {ctrlCh : List Control} (hpc : s.pc = .selecting)
      (hctrl : s.ctrlCh = .stdinClose :: ctrlCh) :
      Branch s .takeControl { s with
        ctrlCh := ctrlCh
        pc := .checking
        closeAt := if s.eof then s.closeAt else some s.arrived.length }
  | takeKill {ctrlCh : List Control} (hpc : s.pc = .selecting)
      (hctrl : s.ctrlCh = .kill :: ctrlCh) :
      Branch s .takeControl { s with
        ctrlCh := ctrlCh, pc := .killing, killsTaken := s.killsTaken + 1 }
  | takeStart {ctrlCh : List Control} (hpc : s.pc = .selecting)
      (hctrl : s.ctrlCh = .start :: ctrlCh) : Branch s .takeControl { s with ctrlCh := ctrlCh }
  | passed (hpc : s.pc = .checking) (hdone : s.done = false) :
      Branch s .passed { s with pc := .draining }
  | drained (hpc : s.pc = .draining) (hempty : s.stdinCh = []) :
      Branch s .drained { s with pc := .closing }
  | write {rest : List UInt8} {inDrain : Bool} {n : ℕ} (hpc : s.pc = .writing rest inDrain)
      (hne : rest ≠ []) (hle : n ≤ rest.length) (hroom : n ≤ s.room) (hgone : s.gone = false) :
      Branch s (.write n) { s with
        pc := .writing (rest.drop n) inDrain
        room := s.room - n
        log := s.log ++ [.write (rest.take n)] }
  | fail {rest : List UInt8} {inDrain : Bool} (hpc : s.pc = .writing rest inDrain)
      (hne : rest ≠ []) (hgone : s.gone = true) :
      Branch s .fail { s with pc := .returned, failed := true }
  | written {inDrain : Bool} (hpc : s.pc = .writing [] inDrain) :
      Branch s .written { s with
        pc := if inDrain then .checking else .selecting
        activity := if s.activity < activityCap then s.activity + 1 else s.activity }
  | close (hpc : s.pc = .closing) :
      Branch s .close { s with
        pc := .selecting
        eof := true
        log := if s.eof then s.log else s.log ++ [.eof] }
  | kill (hpc : s.pc = .killing) :
      Branch s .kill { s with pc := .selecting, log := s.log ++ [.kill] }

theorem pump_branch (h : s.step a = some s') : s.Branch a s' := by
  cases a with
  | chunk c =>
    obtain ⟨hroom, ⟨⟩⟩ := Option.ite_none_right_eq_some.mp h
    exact .chunk hroom
  | control msg =>
    obtain ⟨hroom, ⟨⟩⟩ := Option.ite_none_right_eq_some.mp h
    exact .control hroom
  | finish =>
    obtain ⟨hdone, ⟨⟩⟩ := Option.ite_none_left_eq_some.mp h
    exact .finish hdone
  | hear =>
    obtain ⟨hactivity, ⟨⟩⟩ := Option.ite_none_right_eq_some.mp h
    exact .hear hactivity
  | read n =>
    obtain ⟨hgone, ⟨⟩⟩ := Option.ite_none_left_eq_some.mp h
    exact .read hgone
  | hangUp =>
    obtain ⟨hgone, ⟨⟩⟩ := Option.ite_none_left_eq_some.mp h
    exact .hangUp hgone
  | seeDone =>
    obtain ⟨⟨hdone, hpc⟩, ⟨⟩⟩ := Option.ite_none_right_eq_some.mp h
    exact .seeDone hdone hpc
  | takeChunk =>
    simp only [StdinPump.step] at h
    split at h
    · next c stdinCh hpc hqueue =>
      obtain rfl := Option.some.inj h
      simpa [hpc, PumpPc.inDrain] using StdinPump.Branch.takeChunk (.inl hpc) hqueue
    · next c stdinCh hpc hqueue =>
      obtain rfl := Option.some.inj h
      simpa [hpc, PumpPc.inDrain] using StdinPump.Branch.takeChunk (.inr hpc) hqueue
    · cases h
  | takeControl =>
    simp only [StdinPump.step] at h
    split at h
    · next hpc hctrl =>
      obtain rfl := Option.some.inj h
      exact .takeClose hpc hctrl
    · next hpc hctrl =>
      obtain rfl := Option.some.inj h
      exact .takeKill hpc hctrl
    · next hpc hctrl =>
      obtain rfl := Option.some.inj h
      exact .takeStart hpc hctrl
    · cases h
  | passed =>
    obtain ⟨⟨hpc, hdone⟩, ⟨⟩⟩ := Option.ite_none_right_eq_some.mp h
    exact .passed hpc hdone
  | drained =>
    obtain ⟨⟨hpc, hempty⟩, ⟨⟩⟩ := Option.ite_none_right_eq_some.mp h
    exact .drained hpc hempty
  | write n =>
    simp only [StdinPump.step] at h
    split at h
    · next hpc =>
      obtain ⟨⟨hne, hle, hroom, hgone⟩, ⟨⟩⟩ := Option.ite_none_right_eq_some.mp h
      exact .write hpc hne hle hroom hgone
    · cases h
  | fail =>
    simp only [StdinPump.step] at h
    split at h
    · next hpc =>
      obtain ⟨⟨hne, hgone⟩, ⟨⟩⟩ := Option.ite_none_right_eq_some.mp h
      exact .fail hpc hne hgone
    · cases h
  | written =>
    simp only [StdinPump.step] at h
    split at h
    · next hpc =>
      obtain rfl := Option.some.inj h
      exact .written hpc
    · cases h
  | close =>
    obtain ⟨hpc, ⟨⟩⟩ := Option.ite_none_right_eq_some.mp h
    exact .close hpc
  | kill =>
    obtain ⟨hpc, ⟨⟩⟩ := Option.ite_none_right_eq_some.mp h
    exact .kill hpc

/-- What the log and the place of the pump say of the chunks, of which `n` have been taken. -/
structure Pumped (n : ℕ) (s : StdinPump) : Prop where
  le : n ≤ s.arrived.length
  queue : s.stdinCh = s.arrived.drop n
  opened : s.eof = false →
    .eof ∉ s.log ∧ s.received ++ s.pc.rest = (s.arrived.take n).flatten
  shut : s.eof = true → ∃ k m pre post, s.closeAt = some k ∧ k ≤ m ∧ m ≤ n ∧
    s.log = pre ++ .eof :: post ∧ .eof ∉ pre ∧
    pre.flatMap PumpEffect.bytes = (s.arrived.take m).flatten ∧ ∀ e ∈ post, e = .kill
  current : ∀ rest inDrain, s.pc = .writing rest inDrain →
    s.eof = false ∧ ∃ m c part, n = m + 1 ∧ s.arrived[m]? = some c ∧ c = part ++ rest
  closing : s.pc.inDrain = true → s.eof = false →
    ∃ k, s.closeAt = some k ∧ k ≤ s.arrived.length ∧ (s.pc = .closing → k ≤ n)
  kills : s.log.count .kill + (if s.pc = .killing then 1 else 0) = s.killsTaken
  returned : s.pc = .returned → s.done = true

theorem pumped_start (room : ℕ) : Pumped 0 (.start room) where
  le := Nat.le_refl 0
  queue := rfl
  opened := fun _ => ⟨List.not_mem_nil, rfl⟩
  shut := nofun
  current := fun _ _ => nofun
  closing := nofun
  kills := rfl
  returned := nofun

theorem Pumped.goto (hs : Pumped n s)
    (hsame : s'.stdinCh = s.stdinCh ∧ s'.arrived = s.arrived ∧ s'.eof = s.eof ∧ s'.log = s.log)
    (hrest : s'.pc.rest = s.pc.rest)
    (hcurrent : ∀ rest inDrain, s'.pc = .writing rest inDrain → s.pc = .writing rest inDrain)
    (hcloseAt : s.eof = true → s'.closeAt = s.closeAt)
    (hclosing : s'.pc.inDrain = true → s.eof = false →
      ∃ k, s'.closeAt = some k ∧ k ≤ s.arrived.length ∧ (s'.pc = .closing → k ≤ n))
    (hkills : s.log.count .kill + (if s'.pc = .killing then 1 else 0) = s'.killsTaken)
    (hreturned : s'.pc = .returned → s'.done = true) : Pumped n s' := by
  obtain ⟨hqueue, harrived, heof, hlog⟩ := hsame
  constructor
  · rw [harrived]
    exact hs.le
  · rw [hqueue, harrived]
    exact hs.queue
  · rw [heof, StdinPump.received, hlog, hrest, harrived]
    exact hs.opened
  · intro h
    rw [heof] at h
    rw [hcloseAt h, hlog, harrived]
    exact hs.shut h
  · intro rest inDrain h
    rw [heof, harrived]
    exact hs.current rest inDrain (hcurrent rest inDrain h)
  · rw [heof, harrived]
    exact hclosing
  · rw [hlog]
    exact hkills
  · exact hreturned

theorem Pumped.arrive (hs : Pumped n s) (c : List UInt8) :
    Pumped n { s with stdinCh := s.stdinCh ++ [c], arrived := s.arrived ++ [c] } := by
  have htake : ∀ m, m ≤ n → (s.arrived ++ [c]).take m = s.arrived.take m := fun m hm =>
    List.take_append_of_le_length (hm.trans hs.le)
  refine ⟨?_, ?_, fun h => ?_, fun h => ?_, fun rest inDrain h => ?_, fun hin h => ?_, hs.kills,
    hs.returned⟩
  · rw [List.length_append]
    exact Nat.le_add_right_of_le hs.le
  · rw [List.drop_append_of_le_length hs.le, hs.queue]
  · rw [htake n (Nat.le_refl n)]
    exact hs.opened h
  · obtain ⟨k, m, pre, post, hk, hkm, hmn, hlog, hpre, hbytes, hpost⟩ := hs.shut h
    refine ⟨k, m, pre, post, hk, hkm, hmn, hlog, hpre, ?_, hpost⟩
    rw [htake m hmn]
    exact hbytes
  · obtain ⟨heof, m, c', part, hn, hc', hpart⟩ := hs.current rest inDrain h
    refine ⟨heof, m, c', part, hn, ?_, hpart⟩
    rw [List.getElem?_append_left (by have := hs.le; omega)]
    exact hc'
  · obtain ⟨k, hk, hle, hclosing⟩ := hs.closing hin h
    refine ⟨k, hk, ?_, hclosing⟩
    rw [List.length_append]
    exact Nat.le_add_right_of_le hle

theorem Pumped.take (hs : Pumped n s) {stdinCh : List (List UInt8)} {pc : PumpPc}
    (hqueue : s.stdinCh = c :: stdinCh) (hrest : s.pc.rest = []) (hkilling : s.pc ≠ .killing)
    (hpc : pc = if s.eof then if s.pc.inDrain then .checking else .selecting
      else .writing c s.pc.inDrain) :
    Pumped (n + 1) { s with stdinCh := stdinCh, pc := pc } := by
  have hdrop : s.arrived.drop n = c :: stdinCh := hs.queue.symm.trans hqueue
  have hget : s.arrived[n]? = some c := by
    rw [← List.head?_drop, hdrop, List.head?_cons]
  have hlt : n < s.arrived.length := (List.getElem?_eq_some_iff.mp hget).1
  have htake : s.arrived.take (n + 1) = s.arrived.take n ++ [c] := by
    rw [List.take_add_one, hget, Option.toList_some]
  have hclosing : pc.inDrain = s.pc.inDrain := by
    rw [hpc]
    cases s.eof <;> cases s.pc.inDrain <;> rfl
  refine ⟨hlt, ?_, fun h => ?_, fun h => ?_, fun rest inDrain h => ?_, fun hin h => ?_, ?_, ?_⟩
  · rw [← List.drop_drop, hdrop, List.drop_one, List.tail_cons]
  · obtain ⟨heof, hreceived⟩ := hs.opened h
    refine ⟨heof, ?_⟩
    rw [hrest, List.append_nil] at hreceived
    change s.received ++ pc.rest = _
    rw [hreceived, htake, hpc, if_neg (by rw [show s.eof = false from h]; nofun)]
    simp [PumpPc.rest]
  · obtain ⟨k, m, pre, post, hk, hkm, hmn, hlog, hpre, hbytes, hpost⟩ := hs.shut h
    exact ⟨k, m, pre, post, hk, hkm, Nat.le_succ_of_le hmn, hlog, hpre, hbytes, hpost⟩
  · cases heof : s.eof with
    | true =>
      rw [heof, if_pos rfl] at hpc
      rw [show pc = _ from h] at hpc
      cases hin : s.pc.inDrain <;> simp [hin] at hpc
    | false =>
      rw [heof, if_neg Bool.false_ne_true] at hpc
      obtain ⟨rfl, -⟩ := PumpPc.writing.inj (h.symm.trans hpc)
      exact ⟨rfl, n, rest, [], rfl, hget, rfl⟩
  · obtain ⟨k, hk, hle, hclose⟩ := hs.closing (hclosing ▸ hin) h
    refine ⟨k, hk, hle, fun hc => ?_⟩
    rw [show pc = _ from hc, if_neg (by rw [show s.eof = false from h]; nofun)] at hpc
    cases hpc
  · have hkills := hs.kills
    rw [if_neg hkilling] at hkills
    rw [← hkills, if_neg ?_]
    rw [hpc]
    cases s.eof <;> cases s.pc.inDrain <;> nofun
  · intro h
    rw [show pc = _ from h] at hpc
    cases heof : s.eof <;> cases hin : s.pc.inDrain <;> simp [heof, hin] at hpc

theorem Pumped.write (hs : Pumped n s) {rest : List UInt8} {inDrain : Bool} {k : ℕ}
    (hpc : s.pc = .writing rest inDrain) :
    Pumped n { s with
      pc := .writing (rest.drop k) inDrain
      room := s.room - k
      log := s.log ++ [.write (rest.take k)] } := by
  obtain ⟨heof, m, c, part, hn, hget, hpart⟩ := hs.current rest inDrain hpc
  refine ⟨hs.le, hs.queue, fun h => ?_, fun h => ?_, ?_, fun hin h => ?_, ?_, nofun⟩
  · obtain ⟨hlog, hreceived⟩ := hs.opened h
    refine ⟨by simp [hlog], ?_⟩
    rw [← hreceived, hpc]
    simp [StdinPump.received, PumpPc.rest, PumpEffect.bytes, List.flatMap_append]
  · rw [heof] at h
    cases h
  · rintro _ _ ⟨⟩
    refine ⟨heof, m, c, part ++ rest.take k, hn, hget, ?_⟩
    rw [List.append_assoc, List.take_append_drop]
    exact hpart
  · obtain ⟨j, hj, hle, -⟩ := hs.closing (by rw [hpc]; exact hin) h
    exact ⟨j, hj, hle, nofun⟩
  · have hkills := hs.kills
    rw [hpc] at hkills
    simpa [List.count_append] using hkills

theorem Pumped.close (hs : Pumped n s) (hpc : s.pc = .closing) :
    Pumped n { s with
      pc := .selecting
      eof := true
      log := if s.eof then s.log else s.log ++ [.eof] } := by
  have hkills := hs.kills
  rw [hpc] at hkills
  refine ⟨hs.le, hs.queue, nofun, fun _ => ?_, fun _ _ => nofun, nofun, ?_, nofun⟩
  · cases heof : s.eof with
    | true => exact hs.shut heof
    | false =>
      obtain ⟨k, hk, -, hclosing⟩ := hs.closing (by rw [hpc]; rfl) heof
      obtain ⟨hlog, hreceived⟩ := hs.opened heof
      rw [hpc, PumpPc.rest, List.append_nil] at hreceived
      exact ⟨k, n, s.log, [], hk, hclosing hpc, Nat.le_refl n, rfl, hlog, hreceived, nofun⟩
  · cases s.eof with
    | true => exact hkills
    | false => simpa [List.count_append] using hkills

theorem Pumped.kill (hs : Pumped n s) (hpc : s.pc = .killing) :
    Pumped n { s with pc := .selecting, log := s.log ++ [.kill] } := by
  refine ⟨hs.le, hs.queue, fun h => ?_, fun h => ?_, fun _ _ => nofun, nofun, ?_, nofun⟩
  · obtain ⟨hlog, hreceived⟩ := hs.opened h
    refine ⟨by simp [hlog], ?_⟩
    rw [← hreceived, hpc]
    simp [StdinPump.received, PumpPc.rest, PumpEffect.bytes, List.flatMap_append]
  · obtain ⟨k, m, pre, post, hk, hkm, hmn, hlog, hpre, hbytes, hpost⟩ := hs.shut h
    refine ⟨k, m, pre, post ++ [.kill], hk, hkm, hmn, by simp [hlog], hpre, hbytes, ?_⟩
    exact List.forall_mem_append.mpr ⟨hpost, by simp⟩
  · have hkills := hs.kills
    rw [hpc] at hkills
    simpa [List.count_append] using hkills

theorem step_pumped (hs : Pumped n s) (hfail : a ≠ .fail) (h : s.step a = some s') :
    ∃ n, Pumped n s' := by
  have hkills := hs.kills
  cases pump_branch h with
  | chunk => exact ⟨n, hs.arrive _⟩
  | control | hear | read | hangUp =>
    exact ⟨n, hs.goto ⟨rfl, rfl, rfl, rfl⟩ rfl (fun _ _ h => h) (fun _ => rfl) hs.closing hkills
      hs.returned⟩
  | finish =>
    exact ⟨n, hs.goto ⟨rfl, rfl, rfl, rfl⟩ rfl (fun _ _ h => h) (fun _ => rfl) hs.closing hkills
      fun _ => rfl⟩
  | seeDone hdone hpc =>
    refine ⟨n, hs.goto ⟨rfl, rfl, rfl, rfl⟩ ?_ (fun _ _ => nofun) (fun _ => rfl) nofun ?_
      fun _ => hdone⟩
    · rcases hpc with hpc | hpc <;> rw [hpc] <;> rfl
    · rcases hpc with hpc | hpc <;> rw [hpc] at hkills <;> exact hkills
  | takeChunk hpc hqueue =>
    refine ⟨n + 1, hs.take hqueue ?_ ?_ rfl⟩
    · rcases hpc with hpc | hpc <;> rw [hpc] <;> rfl
    · rcases hpc with hpc | hpc <;> rw [hpc] <;> nofun
  | takeClose hpc =>
    rw [hpc] at hkills
    refine ⟨n, hs.goto ⟨rfl, rfl, rfl, rfl⟩ (by rw [hpc]; rfl) (fun _ _ => nofun)
      (fun heof => if_pos heof) (fun _ heof => ?_) hkills nofun⟩
    exact ⟨s.arrived.length, if_neg (by rw [heof]; nofun), Nat.le_refl _, nofun⟩
  | takeKill hpc =>
    rw [hpc] at hkills
    exact ⟨n, hs.goto ⟨rfl, rfl, rfl, rfl⟩ (by rw [hpc]; rfl) (fun _ _ => nofun) (fun _ => rfl)
      nofun (congrArg (· + 1) hkills) nofun⟩
  | takeStart =>
    exact ⟨n, hs.goto ⟨rfl, rfl, rfl, rfl⟩ rfl (fun _ _ h => h) (fun _ => rfl) hs.closing hkills
      hs.returned⟩
  | passed hpc =>
    rw [hpc] at hkills
    refine ⟨n, hs.goto ⟨rfl, rfl, rfl, rfl⟩ (by rw [hpc]; rfl) (fun _ _ => nofun) (fun _ => rfl)
      (fun _ heof => ?_) hkills nofun⟩
    obtain ⟨k, hk, hle, -⟩ := hs.closing (by rw [hpc]; rfl) heof
    exact ⟨k, hk, hle, nofun⟩
  | drained hpc hempty =>
    rw [hpc] at hkills
    refine ⟨n, hs.goto ⟨rfl, rfl, rfl, rfl⟩ (by rw [hpc]; rfl) (fun _ _ => nofun) (fun _ => rfl)
      (fun _ heof => ?_) hkills nofun⟩
    obtain ⟨k, hk, hle, -⟩ := hs.closing (by rw [hpc]; rfl) heof
    -- all that has arrived has been taken
    have hall : s.arrived.length ≤ n := List.drop_eq_nil_iff.mp (hs.queue.symm.trans hempty)
    exact ⟨k, hk, hle, fun _ => hle.trans hall⟩
  | write hpc => exact ⟨n, hs.write hpc⟩
  | fail => exact absurd rfl hfail
  | @written inDrain hpc =>
    rw [hpc] at hkills
    refine ⟨n, hs.goto ⟨rfl, rfl, rfl, rfl⟩ ?_ ?_ (fun _ => rfl) (fun hin heof => ?_) ?_ ?_⟩
    · rw [hpc]
      cases inDrain <;> rfl
    · cases inDrain <;> exact fun _ _ => nofun
    · cases inDrain with
      | false => cases hin
      | true =>
        obtain ⟨k, hk, hle, -⟩ := hs.closing (by rw [hpc]; rfl) heof
        exact ⟨k, hk, hle, nofun⟩
    · cases inDrain <;> exact hkills
    · cases inDrain <;> nofun
  | close hpc => exact ⟨n, hs.close hpc⟩
  | kill hpc => exact ⟨n, hs.kill hpc⟩

theorem Pumped.orderly (hs : Pumped n s) : s.Orderly := by
  have hkillBytes : ∀ post : List PumpEffect, (∀ e ∈ post, e = .kill) →
      post.flatMap PumpEffect.bytes = [] ∧ post.count .eof = 0 := by
    intro post hpost
    refine ⟨List.flatMap_eq_nil_iff.mpr fun e he => ?_, List.count_eq_zero.mpr fun he => ?_⟩
    · rw [hpost e he]
      rfl
    · cases hpost _ he
  cases heof : s.eof with
  | false =>
    obtain ⟨hlog, hreceived⟩ := hs.opened heof
    refine ⟨?_, fun h => absurd h hlog, ?_, fun pre post h => ?_, hs.kills, hs.returned⟩
    · by_cases hwriting : ∃ rest inDrain, s.pc = .writing rest inDrain
      · obtain ⟨rest, inDrain, hpc⟩ := hwriting
        obtain ⟨-, m, c, part, rfl, hget, hpart⟩ := hs.current rest inDrain hpc
        refine ⟨m, part, ?_, .inr ⟨c, rest, inDrain, hget, hpc, hpart⟩⟩
        rw [hpc, PumpPc.rest, List.take_add_one, hget, hpart] at hreceived
        simpa [← List.append_assoc] using hreceived
      · have hrest : s.pc.rest = [] := by
          cases hpc : s.pc with
          | writing rest inDrain => exact absurd ⟨rest, inDrain, hpc⟩ hwriting
          | selecting | checking | draining | closing | killing | returned => rfl
        rw [hrest, List.append_nil] at hreceived
        exact ⟨n, [], by rw [hreceived, List.append_nil], .inl rfl⟩
    · rw [List.count_eq_zero.mpr hlog]
      exact Nat.zero_le 1
    · exact absurd (h ▸ by simp) hlog
  | true =>
    obtain ⟨k, m, pre, post, hk, hkm, hmn, hlog, hpre, hbytes, hpost⟩ := hs.shut heof
    obtain ⟨hnone, hcount⟩ := hkillBytes post hpost
    have hreceived : s.received = (s.arrived.take m).flatten := by
      rw [StdinPump.received, hlog]
      simp [hbytes, hnone, PumpEffect.bytes]
    refine ⟨⟨m, [], by rw [hreceived, List.append_nil], .inl rfl⟩,
      fun _ => ⟨k, m, hk, hkm, hmn.trans hs.le, hreceived⟩, ?_, ?_, hs.kills, hs.returned⟩
    · rw [hlog, List.count_append, List.count_eq_zero.mpr hpre, List.count_cons_self, hcount]
    · intro pre' post' h
      have hpost' : .eof ∉ post := fun he => nomatch hpost _ he
      obtain ⟨-, -, rfl⟩ := (List.append_cons_inj_of_notMem hpre hpost').mp (hlog.symm.trans h)
      exact hpost

/-- With a stdin whose writes do not fail the pump keeps the order of its chunks and control
messages, whatever the arrivals and the choices of its `select`s. -/
theorem stdin_orderly (h : .fail ∉ as) :
    Always StdinPump.step StdinPump.Orderly (.start room) as := by
  have hall : Always StdinPump.step (fun s => ∃ n, Pumped n s) (.start room) as := by
    have hguard : EveryStep StdinPump.step (fun _ a => a ≠ .fail) (.start room) as := by
      refine everyStep_of_mem ?_
      rintro _ ha rfl
      exact h ha
    refine .of_guarded ?_ ⟨0, pumped_start room⟩ hguard
    rintro s a s' ⟨n, hs⟩ hfail h
    exact step_pumped hs hfail h
  exact hall.mono fun s ⟨_, hs⟩ => hs.orderly

/-- Two chunks and a close are queued, and the close is taken first. -/
def closeFirst : List PumpAct :=
  [.chunk [1], .chunk [2, 3], .control .stdinClose, .control .kill, .takeControl, .passed,
    .takeChunk, .write 1, .written, .passed, .takeChunk, .write 1, .write 1, .written, .passed,
    .drained, .close, .takeControl, .kill]

theorem closeFirst_orderly :
    ∃ s, run StdinPump.step (.start 8) closeFirst = some s ∧ s.Orderly ∧
      s.log = [.write [1], .write [2], .write [3], .eof, .kill] := by
  obtain ⟨s, hr, hlog⟩ : ∃ s, run StdinPump.step (.start 8) closeFirst = some s ∧
      s.log = [.write [1], .write [2], .write [3], .eof, .kill] := ⟨_, rfl, rfl⟩
  have hall : Always StdinPump.step StdinPump.Orderly (.start 8) closeFirst :=
    stdin_orderly (by decide)
  exact ⟨s, hr, hall.last hr, hlog⟩

end CodeRunner.Worker
