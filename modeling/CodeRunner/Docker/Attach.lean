import Mathlib.Data.Nat.Notation
import CodeRunner.Lib.Transition

/-! # The attach connection of a container

Three goroutines share one hijacked connection: the worker's stdin copy, the demux of the
output and whoever cleans up. Closing the connection ends both of its directions, so what
the process writes after the end of its stdin survives exactly as long as the connection
outlives it.
-/

namespace CodeRunner.Docker

open Transition

inductive Stream | stdout | stderr
  deriving DecidableEq, Repr

structure Chunk where
  stream : Stream
  bytes : List UInt8
  afterEof : Bool
  nonempty : bytes ≠ []
  deriving DecidableEq

/-- Milliseconds between the end of the worker's stdin and `Conn.Close`. -/
def stdinEOFFlushDelay : ℕ := 500

/-- The goroutine that copies stdin: `io.Copy`, the sleep, and after `Conn.Close`. -/
inductive Copier where
  | copying
  | flushing (deadline : ℕ)
  | closed
  deriving DecidableEq, Repr

/-- Whether the daemon ends the stdin of the container, from whether the worker has stopped
copying and whether the connection is still open. -/
abbrev Engine := (copying connOpen : Bool) → Bool

/-- Stdin ends when the single attached client disconnects. -/
def stdinOnce : Engine := fun _ connOpen => !connOpen

/-- Stdin ends as soon as the worker has no more of it. -/
def halfClose : Engine := fun copying connOpen => !copying || !connOpen

/-- `held` are the bytes the copy has taken from the worker's stdin pipe, `stdin` those the
process has not read, `inflight` the frames on the connection and `hand` the one that the
demux goroutine is writing to a pipe. -/
structure Attach where
  clock : ℕ
  stdinOpen : Bool
  held : Option (List UInt8)
  copier : Copier
  connOpen : Bool
  stdin : List UInt8
  sawEof : Bool
  exited : Bool
  inflight : List Chunk
  hand : Option Chunk
  delivered : List Chunk
  written : List Chunk

/-- The state in which `Create` returns the sandbox. -/
def Attach.start : Attach where
  clock := 0
  stdinOpen := true
  held := none
  copier := .copying
  connOpen := true
  stdin := []
  sawEof := false
  exited := false
  inflight := []
  hand := none
  delivered := []
  written := []

/-- Steps of the worker (`writeStdin`, `closeStdin`, `read`, `cleanup`), of the two
goroutines (`copy`, `connClose`, `demux`) and of the process. -/
inductive Act where
  | writeStdin (bytes : List UInt8)
  | closeStdin
  | copy
  | connClose
  | demux
  | read
  | cleanup
  | readStdin (n : ℕ)
  | observeEof
  | write (stream : Stream) (bytes : List UInt8)
  | exit
  | tick (ms : ℕ)
  deriving DecidableEq

def Attach.write (s : Attach) (c : Chunk) : Attach :=
  { s with
    written := s.written ++ [c]
    inflight := if s.connOpen then s.inflight ++ [c] else s.inflight }

/-- `Conn.Close`: both directions end, and no frame on the connection can be read. -/
def Attach.connClose (s : Attach) : Attach :=
  { s with connOpen := false, inflight := [] }

def Attach.step (engine : Engine) (s : Attach) : Act → Option Attach
  | .writeStdin bytes =>
    if s.stdinOpen = true ∧ s.copier = .copying ∧ s.held = none then
      some { s with held := some bytes }
    else none
  | .closeStdin => some { s with stdinOpen := false }
  | .copy =>
    if s.copier = .copying then
      match s.held with
      | some bytes =>
        if s.connOpen then some { s with stdin := s.stdin ++ bytes, held := none }
        -- the write fails, which ends `io.Copy`
        else some { s with held := none, copier := .flushing (s.clock + stdinEOFFlushDelay) }
      | none =>
        if s.stdinOpen then none
        else some { s with copier := .flushing (s.clock + stdinEOFFlushDelay) }
    else none
  | .connClose =>
    match s.copier with
    | .flushing deadline =>
      if deadline ≤ s.clock then some { s.connClose with copier := .closed } else none
    | _ => none
  | .demux =>
    match s.hand, s.inflight with
    | none, c :: rest => some { s with hand := some c, inflight := rest }
    | _, _ => none
  | .read =>
    match s.hand with
    | some c => some { s with hand := none, delivered := s.delivered ++ [c] }
    | none => none
  -- the closed pipes refuse the frame in hand, and the container is removed
  | .cleanup =>
    some { s.connClose with stdinOpen := false, hand := none, exited := true }
  | .readStdin n => if s.exited then none else some { s with stdin := s.stdin.drop n }
  | .observeEof =>
    if s.exited = false ∧ s.stdin = [] ∧ engine (s.copier = .copying) s.connOpen = true then
      some { s with sawEof := true }
    else none
  | .write stream bytes =>
    if h : s.exited = false ∧ bytes ≠ [] then some (s.write ⟨stream, bytes, s.sawEof, h.2⟩)
    else none
  | .exit => if s.exited then none else some { s with exited := true }
  | .tick ms => some { s with clock := s.clock + ms }

def tail (chunks : List Chunk) : List Chunk := chunks.filter (·.afterEof)

@[simp] theorem tail_nil : tail [] = [] := rfl

@[simp] theorem tail_append (cs ds : List Chunk) : tail (cs ++ ds) = tail cs ++ tail ds :=
  List.filter_append ..

/-- The frames the readers have, and those still on their way to them. -/
def Attach.kept (s : Attach) : List Chunk := s.delivered ++ s.hand.toList ++ s.inflight

/-- Everything written after the end of stdin is read, in order, or still on its way. -/
def Attach.TailKept (s : Attach) : Prop := tail s.kept = tail s.written

instance (s : Attach) : Decidable s.TailKept := inferInstanceAs (Decidable (_ = _))

/-- The connection is closed, by the copy or the cleanup, only when nothing written after
the end of stdin is on its way, and nothing is written after both. -/
def Outlives (s : Attach) : Act → Prop
  | .connClose => tail s.inflight = []
  | .cleanup => tail (s.hand.toList ++ s.inflight) = []
  | .write _ _ => s.sawEof = true → s.connOpen = true
  | _ => True

instance (s : Attach) : ∀ a, Decidable (Outlives s a)
  | .connClose => inferInstanceAs (Decidable (_ = _))
  | .cleanup => inferInstanceAs (Decidable (_ = _))
  | .write _ _ => inferInstanceAs (Decidable (_ → _))
  | .writeStdin _ | .closeStdin | .copy | .demux | .read | .readStdin _ | .observeEof
  | .exit | .tick _ => isTrue trivial

variable {engine : Engine} {s s' t : Attach} {a : Act} {as : List Act}

structure Quiet (engine : Engine) (s s' : Attach) : Prop where
  kept : s'.kept = s.kept
  written : s'.written = s.written
  connOpen : s'.connOpen = s.connOpen
  inflight : s.inflight = [] → s'.inflight = []
  sawEof : s'.sawEof = true → s.sawEof = true ∨ ∃ copying, engine copying s.connOpen = true

theorem Quiet.of_eq (hd : s'.delivered = s.delivered) (hh : s'.hand = s.hand)
    (hi : s'.inflight = s.inflight) (hw : s'.written = s.written)
    (hc : s'.connOpen = s.connOpen) (he : s'.sawEof = s.sawEof) : Quiet engine s s' where
  kept := by rw [Attach.kept, hd, hh, hi, Attach.kept]
  written := hw
  connOpen := hc
  inflight h := hi.trans h
  sawEof h := .inl (he ▸ h)

/-- What a step does to the frames: it leaves them alone, closes the connection, drops the
frame in hand as well, or writes one more. -/
theorem step_cases (h : s.step engine a = some s') :
    (Quiet engine s s' ∧ Outlives s a) ∨
    (a = .connClose ∧ s' = { s.connClose with copier := .closed }) ∨
    (a = .cleanup ∧
      s' = { s.connClose with stdinOpen := false, hand := none, exited := true }) ∨
    (∃ stream bytes c, a = .write stream bytes ∧ c.afterEof = s.sawEof ∧ s' = s.write c) := by
  cases a with
  | writeStdin bytes =>
    simp only [Attach.step, Option.ite_none_right_eq_some, Option.some.injEq] at h
    obtain ⟨-, rfl⟩ := h
    exact .inl ⟨.of_eq rfl rfl rfl rfl rfl rfl, trivial⟩
  | closeStdin =>
    obtain rfl := Option.some.inj h
    exact .inl ⟨.of_eq rfl rfl rfl rfl rfl rfl, trivial⟩
  | copy =>
    simp only [Attach.step] at h
    split at h
    · split at h <;> split at h <;> cases h <;>
        exact .inl ⟨.of_eq rfl rfl rfl rfl rfl rfl, trivial⟩
    · cases h
  | connClose =>
    simp only [Attach.step] at h
    split at h
    · split at h
      · exact .inr (.inl ⟨rfl, (Option.some.inj h).symm⟩)
      · cases h
    · cases h
  | demux =>
    simp only [Attach.step] at h
    split at h
    · next c rest hhand hrest =>
      obtain rfl := Option.some.inj h
      refine .inl ⟨⟨?_, rfl, rfl, fun hnil => ?_, .inl⟩, trivial⟩
      · simp [Attach.kept, hhand, hrest]
      · rw [hrest] at hnil
        cases hnil
    · cases h
  | read =>
    simp only [Attach.step] at h
    split at h
    · next c hhand =>
      obtain rfl := Option.some.inj h
      refine .inl ⟨⟨?_, rfl, rfl, id, .inl⟩, trivial⟩
      simp [Attach.kept, hhand]
    · cases h
  | cleanup => exact .inr (.inr (.inl ⟨rfl, (Option.some.inj h).symm⟩))
  | write stream bytes =>
    simp only [Attach.step, Option.dite_none_right_eq_some, Option.some.injEq] at h
    obtain ⟨_, rfl⟩ := h
    exact .inr (.inr (.inr ⟨stream, bytes, _, rfl, rfl, rfl⟩))
  | readStdin n =>
    simp only [Attach.step, Option.ite_none_left_eq_some, Option.some.injEq] at h
    obtain ⟨-, rfl⟩ := h
    exact .inl ⟨.of_eq rfl rfl rfl rfl rfl rfl, trivial⟩
  | observeEof =>
    simp only [Attach.step, Option.ite_none_right_eq_some, Option.some.injEq] at h
    obtain ⟨⟨-, -, heof⟩, rfl⟩ := h
    exact .inl ⟨⟨rfl, rfl, rfl, id, fun _ => .inr ⟨_, heof⟩⟩, trivial⟩
  | exit =>
    simp only [Attach.step, Option.ite_none_left_eq_some, Option.some.injEq] at h
    obtain ⟨-, rfl⟩ := h
    exact .inl ⟨.of_eq rfl rfl rfl rfl rfl rfl, trivial⟩
  | tick ms =>
    obtain rfl := Option.some.inj h
    exact .inl ⟨.of_eq rfl rfl rfl rfl rfl rfl, trivial⟩

theorem write_kept (c : Chunk) :
    (s.write c).kept = s.kept ++ if s.connOpen then [c] else [] := by
  cases hc : s.connOpen <;> simp [Attach.kept, Attach.write, hc]

theorem write_tailKept_iff {c : Chunk} (hs : s.TailKept) :
    (s.write c).TailKept ↔ (c.afterEof = true → s.connOpen = true) := by
  have hw : tail (s.write c).written = tail s.kept ++ tail [c] := by
    rw [show tail s.kept = tail s.written from hs, ← tail_append]
    rfl
  unfold Attach.TailKept
  rw [hw, write_kept, tail_append]
  cases s.connOpen with
  | true => exact iff_of_true rfl fun _ => rfl
  | false => simp [tail]

theorem step_tailKept_iff (hs : s.TailKept) (h : s.step engine a = some s') :
    s'.TailKept ↔ Outlives s a := by
  have hs' : tail s.kept = tail s.written := hs
  rcases step_cases h with ⟨hq, ho⟩ | ⟨rfl, rfl⟩ | ⟨rfl, rfl⟩ | ⟨stream, bytes, c, rfl, hc, rfl⟩
  · refine iff_of_true ?_ ho
    unfold Attach.TailKept
    rw [hq.kept, hq.written, hs']
  · change tail (s.delivered ++ s.hand.toList ++ []) = tail s.written ↔ tail s.inflight = []
    rw [← hs', List.append_nil, Attach.kept, tail_append _ s.inflight,
      List.self_eq_append_right]
  · change tail (s.delivered ++ [] ++ []) = tail s.written ↔
      tail (s.hand.toList ++ s.inflight) = []
    rw [← hs', List.append_nil, List.append_nil, Attach.kept, List.append_assoc,
      tail_append s.delivered, List.self_eq_append_right]
  · rw [write_tailKept_iff hs, hc]
    rfl

/-- What the process writes after the end of its stdin is kept for the readers throughout a
run exactly when the connection outlives it, whatever makes the daemon end that stdin. -/
theorem tailKept_iff_outlives (hr : run (Attach.step engine) .start as = some t) :
    Always (Attach.step engine) Attach.TailKept .start as ↔
      EveryStep (Attach.step engine) Outlives .start as :=
  always_iff_everyStep (fun _ _ _ => step_tailKept_iff) rfl hr

/-- As long as nothing else happens, the demux goroutine and the readers get all that is
kept. -/
theorem exists_run_delivered (s : Attach) :
    ∃ as t, run (Attach.step engine) s as = some t ∧ t.delivered = s.kept ∧
      t.hand = none ∧ t.inflight = [] := by
  have hread : ∀ (c : Chunk) (s : Attach), s.hand = some c →
      s.step engine .read = some { s with hand := none, delivered := s.delivered ++ [c] } := by
    intro c s hs
    simp only [Attach.step, hs]
  obtain ⟨cs, hcs⟩ : ∃ cs, s.inflight = cs := ⟨_, rfl⟩
  induction cs generalizing s with
  | nil =>
    cases hh : s.hand with
    | none => exact ⟨[], s, rfl, by simp [Attach.kept, hh, hcs], hh, hcs⟩
    | some c =>
      exact ⟨[.read], _, run_cons_of_step (hread c s hh), by simp [Attach.kept, hh, hcs],
        rfl, hcs⟩
  | cons d ds ih =>
    have hnext : ∀ s : Attach, s.hand = none → s.inflight = d :: ds →
        ∃ as t, run (Attach.step engine) s as = some t ∧ t.delivered = s.kept ∧
          t.hand = none ∧ t.inflight = [] := by
      intro s hh hd
      have hstep : s.step engine .demux = some { s with hand := some d, inflight := ds } := by
        simp only [Attach.step, hh, hd]
      obtain ⟨as, t, hr, hdel, hrest⟩ := ih { s with hand := some d, inflight := ds } rfl
      refine ⟨.demux :: as, t, (run_cons_of_step hstep).trans hr, ?_, hrest⟩
      rw [hdel]
      simp [Attach.kept, hh, hd]
    cases hh : s.hand with
    | none => exact hnext s hh hcs
    | some c =>
      obtain ⟨as, t, hr, hdel, hrest⟩ :=
        hnext { s with hand := none, delivered := s.delivered ++ [c] } rfl hcs
      refine ⟨.read :: as, t, (run_cons_of_step (hread c s hh)).trans hr, ?_, hrest⟩
      rw [hdel]
      simp [Attach.kept, hh]

/-- The process has not seen the end of its stdin while the connection is open, and nothing
it wrote after that is on its way. -/
structure Attach.Severed (s : Attach) : Prop where
  eof : s.sawEof = true → s.connOpen = false
  inflight : s.connOpen = false → s.inflight = []
  kept : tail s.kept = []

theorem step_severed (hs : s.Severed) (h : s.step stdinOnce a = some s') : s'.Severed := by
  have hkept := hs.kept
  simp only [Attach.kept, tail_append, List.append_eq_nil_iff] at hkept
  rcases step_cases h with ⟨hq, -⟩ | ⟨-, rfl⟩ | ⟨-, rfl⟩ | ⟨stream, bytes, c, -, hc, rfl⟩
  · refine ⟨fun h => ?_, fun h => hq.inflight (hs.inflight (hq.connOpen ▸ h)), ?_⟩
    · rw [hq.connOpen]
      rcases hq.sawEof h with h | ⟨_, h⟩
      · exact hs.eof h
      · simpa [stdinOnce] using h
    · rw [hq.kept]
      exact hs.kept
  · refine ⟨fun _ => rfl, fun _ => rfl, ?_⟩
    simpa [Attach.kept, Attach.connClose] using hkept.1
  · refine ⟨fun _ => rfl, fun _ => rfl, ?_⟩
    simpa [Attach.kept, Attach.connClose] using hkept.1.1
  · refine ⟨hs.eof, fun hconn => ?_, ?_⟩
    · have hconn' : s.connOpen = false := hconn
      simp [Attach.write, hconn', hs.inflight hconn']
    · rw [write_kept, tail_append, hs.kept]
      cases hconn : s.connOpen with
      | false => rfl
      | true =>
        have hc' : c.afterEof = false := by
          rw [hc, ← Bool.not_eq_true]
          intro heof
          rw [hs.eof heof] at hconn
          cases hconn
        simp [tail, hc']

/-- With such an engine no reader ever gets anything that was written after the end of
stdin. -/
theorem stdinOnce_tail_lost (hr : Reachable (Attach.step stdinOnce) .start t) :
    tail t.delivered = [] := by
  have ht : t.Severed := hr.invariant (fun _ _ _ => step_severed) ⟨by decide, by decide, rfl⟩
  have hkept := ht.kept
  simp only [Attach.kept, tail_append, List.append_eq_nil_iff] at hkept
  exact hkept.1.1

/-- The process answers the end of its stdin with a line, which the reader waits for. -/
def answer : List Act :=
  [.closeStdin, .copy, .tick stdinEOFFlushDelay, .connClose, .observeEof,
    .write .stdout [0x64, 0x6f, 0x6e, 0x65, 0x0a], .exit]

/-- The same process when the daemon ends stdin early and the process is slow. -/
def slowAnswer : List Act :=
  [.closeStdin, .copy, .observeEof, .tick stdinEOFFlushDelay, .connClose,
    .write .stdout [0x64, 0x6f, 0x6e, 0x65, 0x0a], .exit]

theorem answer_lost :
    (run (Attach.step stdinOnce) .start answer).map (fun s => decide s.TailKept) = some false ∧
      (run (Attach.step halfClose) .start slowAnswer).map (fun s => decide s.TailKept) =
        some false :=
  ⟨rfl, rfl⟩

theorem not_always_tailKept :
    ¬ ∃ engine, (engine = stdinOnce ∨ engine = halfClose) ∧
      ∀ t as, run (Attach.step engine) .start as = some t →
        Always (Attach.step engine) Attach.TailKept .start as := by
  have hlost : ∀ (engine : Engine) (as : List Act),
      (run (Attach.step engine) .start as).map (fun s => decide s.TailKept) = some false →
      ¬ ∀ t as, run (Attach.step engine) .start as = some t →
        Always (Attach.step engine) Attach.TailKept .start as := by
    intro engine as h hall
    obtain ⟨t, hr, ht⟩ := Option.map_eq_some_iff.mp h
    exact of_decide_eq_false ht ((hall t as hr).last hr)
  rintro ⟨engine, rfl | rfl, hall⟩
  · exact hlost _ answer answer_lost.1 hall
  · exact hlost _ slowAnswer answer_lost.2 hall

/-- A process that answers in time, on a connection that is closed after the reader has it. -/
def promptAnswer : List Act :=
  [.closeStdin, .copy, .observeEof, .write .stdout [0x64, 0x6f, 0x6e, 0x65, 0x0a], .exit,
    .demux, .read, .tick stdinEOFFlushDelay, .connClose, .cleanup]

theorem promptAnswer_tailKept :
    Always (Attach.step halfClose) Attach.TailKept .start promptAnswer :=
  (tailKept_iff_outlives rfl).mpr (by decide)

end CodeRunner.Docker
