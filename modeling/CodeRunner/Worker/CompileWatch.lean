import CodeRunner.Worker.Job
import Mathlib.Data.List.Basic

/-! # The control messages of a compile step

`watchCompileCtrl` and `Stop` beside the deliveries to the control channel. The watcher takes any
ready case of its `select`. A message is kept with its place in the order of arrival, so that the
order in the channel can be compared with it.
-/

namespace CodeRunner.Worker

open Transition

structure Message where
  arrival : ℕ
  type : Control
  deriving DecidableEq, Repr

def Message.isKill (m : Message) : Bool := decide (m.type = .kill)

def nonKill (msgs : List Message) : List Message := msgs.filter fun m => !m.isKill

/-- Before the call of `Stop`, and inside it: at the receive from `done`, and in the loop with the
messages that are left to put back. -/
inductive StopPc where
  | compiling
  | waiting
  | putting (todo : List Message)
  | returned
  deriving DecidableEq, Repr

/-- `delivered` are the messages that the channel has ever taken, `calledAt` is their number at
the call of `Stop`, and `done` that the watcher has returned. -/
structure CompileWatch where
  ctrlCh : List Message
  delivered : List Message
  killed : Bool
  pending : List Message
  done : Bool
  pc : StopPc
  calledAt : ℕ
  dropped : ℕ
  deriving DecidableEq, Repr

def CompileWatch.start : CompileWatch := ⟨[], [], false, [], false, .compiling, 0, 0⟩

/-- `receive` and `seeStop` are the cases of the watcher's `select`, and `putBack` is a round of
the loop in `Stop`, its end included. -/
inductive WatchAct where
  | deliver (type : Control)
  | receive
  | seeStop
  | callStop
  | seeDone
  | putBack
  deriving DecidableEq, Repr

namespace CompileWatch

def step (s : CompileWatch) : WatchAct → Option CompileWatch
  | .deliver type =>
    if s.ctrlCh.length < ctrlCap then
      some { s with
        ctrlCh := s.ctrlCh ++ [⟨s.delivered.length, type⟩]
        delivered := s.delivered ++ [⟨s.delivered.length, type⟩] }
    else none
  | .receive =>
    match s.done, s.ctrlCh with
    | false, msg :: ctrlCh =>
      if msg.isKill then some { s with ctrlCh := ctrlCh, killed := true }
      else some { s with ctrlCh := ctrlCh, pending := s.pending ++ [msg] }
    | _, _ => none
  | .seeStop =>
    if s.done = false ∧ s.pc = .waiting then some { s with done := true } else none
  | .callStop =>
    if s.pc = .compiling then
      some { s with pc := .waiting, calledAt := s.delivered.length }
    else none
  | .seeDone =>
    if s.done = true ∧ s.pc = .waiting then some { s with pc := .putting s.pending } else none
  | .putBack =>
    match s.pc with
    | .putting (msg :: todo) =>
      if s.ctrlCh.length < ctrlCap then
        some { s with ctrlCh := s.ctrlCh ++ [msg], pc := .putting todo }
      else some { s with dropped := s.dropped + 1, pc := .putting todo }
    | .putting [] => some { s with pc := .returned }
    | _ => none

/-- A kill was in the channel before the call of `Stop`. -/
def KillBefore (s : CompileWatch) : Prop :=
  ∃ m ∈ s.delivered, m.isKill = true ∧ m.arrival < s.calledAt

/-- What `Stop` hands over: its report, and the other messages in the channel. -/
structure Lossless (s : CompileWatch) : Prop where
  reported : s.KillBefore → s.killed = true
  ordered : s.dropped = 0 → nonKill s.ctrlCh = nonKill s.delivered

/-- The held messages that are left to put back after the watcher's return. -/
def held (s : CompileWatch) : List Message :=
  if s.done then
    match s.pc with
    | .waiting => s.pending
    | .putting todo => todo
    | _ => []
  else []

end CompileWatch

/-- The watcher stops with no kill left in the channel from before `Stop`, or has seen one. -/
def ReportsKill (s : CompileWatch) : WatchAct → Prop
  | .seeStop => s.killed = true ∨ ∀ m ∈ s.ctrlCh, m.isKill = true → s.calledAt ≤ m.arrival
  | .deliver _ | .receive | .callStop | .seeDone | .putBack => True

/-- The watcher stops with nothing held or nothing else left in the channel, and afterwards only a
kill arrives as long as there is something to put back. -/
def KeepsOrder (s : CompileWatch) : WatchAct → Prop
  | .seeStop => s.pending = [] ∨ nonKill s.ctrlCh = []
  | .deliver type => type = .kill ∨ s.held = []
  | .receive | .callStop | .seeDone | .putBack => True

/-- What is put back has room. -/
def Fits (s : CompileWatch) : WatchAct → Prop
  | .putBack => s.held = [] ∨ s.ctrlCh.length < ctrlCap
  | .deliver _ | .receive | .seeStop | .callStop | .seeDone => True

/-- What holds in every run. -/
structure Watched (s : CompileWatch) : Prop where
  arrival : ∀ m ∈ s.delivered, m.arrival < s.delivered.length
  nodup : s.delivered.Nodup
  calledAt : s.calledAt ≤ s.delivered.length
  pending : ∀ m ∈ s.pending, m ∈ s.delivered ∧ m.isKill = false
  watching : s.done = false → (s.pc = .compiling ∨ s.pc = .waiting) ∧
    ∃ received, s.delivered = received ++ s.ctrlCh ∧ s.pending = nonKill received ∧
      (s.killed = true ↔ ∃ m ∈ received, m.isKill = true)
  done : s.done = true → s.pc ≠ .compiling
  putting : ∀ todo, s.pc = .putting todo → ∀ m ∈ todo, m ∈ s.pending

variable {s s' t : CompileWatch} {a : WatchAct} {as : List WatchAct} {m : Message}
  {type : Control} {msgs : List Message}

theorem watched_start : Watched .start where
  arrival := nofun
  nodup := .nil
  calledAt := Nat.le_refl 0
  pending := nofun
  watching := fun _ => ⟨.inl rfl, [], rfl, rfl, by simp [CompileWatch.start]⟩
  done := nofun
  putting := nofun

@[simp] theorem nonKill_append (l l' : List Message) :
    nonKill (l ++ l') = nonKill l ++ nonKill l' := List.filter_append ..

theorem Watched.done_of_putting (hs : Watched s) {todo : List Message}
    (h : s.pc = .putting todo) : s.done = true := by
  cases hdone : s.done with
  | true => rfl
  | false => rcases (hs.watching hdone).1 with hpc | hpc <;> rw [h] at hpc <;> cases hpc

theorem Watched.deliver (hs : Watched s) (type : Control) :
    Watched { s with
      ctrlCh := s.ctrlCh ++ [⟨s.delivered.length, type⟩]
      delivered := s.delivered ++ [⟨s.delivered.length, type⟩] } := by
  have hnew : ⟨s.delivered.length, type⟩ ∉ s.delivered := fun hm =>
    absurd (hs.arrival _ hm) (Nat.lt_irrefl _)
  refine ⟨?_, ?_, ?_, ?_, ?_, hs.done, hs.putting⟩
  · simp only [List.length_append, List.length_singleton]
    intro m hm
    rcases List.mem_append.mp hm with hm | hm
    · exact Nat.lt_succ_of_lt (hs.arrival m hm)
    · obtain rfl := List.mem_singleton.mp hm
      exact Nat.lt_succ_self _
  · rw [List.nodup_append]
    refine ⟨hs.nodup, by simp, ?_⟩
    rintro m hm _ hm' rfl
    exact hnew (List.mem_singleton.mp hm' ▸ hm)
  · simp only [List.length_append]
    exact Nat.le_add_right_of_le hs.calledAt
  · exact fun m hm => ⟨List.mem_append_left _ (hs.pending m hm).1, (hs.pending m hm).2⟩
  · intro hdone
    obtain ⟨hpc, received, hdelivered, hpending, hkilled⟩ := hs.watching hdone
    exact ⟨hpc, received, by simp only [hdelivered, List.append_assoc], hpending, hkilled⟩

theorem Watched.receiveKill (hs : Watched s) {msg : Message} {ctrlCh : List Message}
    (hdone : s.done = false) (hctrl : s.ctrlCh = msg :: ctrlCh) (hkill : msg.isKill = true) :
    Watched { s with ctrlCh := ctrlCh, killed := true } := by
  obtain ⟨hpc, received, hdelivered, hpending, -⟩ := hs.watching hdone
  rw [hctrl, List.append_cons] at hdelivered
  refine ⟨hs.arrival, hs.nodup, hs.calledAt, hs.pending, fun _ => ⟨hpc, received ++ [msg],
    hdelivered, ?_, ?_⟩, hs.done, hs.putting⟩
  · simp [hpending, nonKill, hkill]
  · exact iff_of_true rfl ⟨msg, by simp, hkill⟩

theorem Watched.hold (hs : Watched s) {msg : Message} {ctrlCh : List Message}
    (hdone : s.done = false) (hctrl : s.ctrlCh = msg :: ctrlCh) (hkill : msg.isKill = false) :
    Watched { s with ctrlCh := ctrlCh, pending := s.pending ++ [msg] } := by
  obtain ⟨hpc, received, hdelivered, hpending, hkilled⟩ := hs.watching hdone
  rw [hctrl, List.append_cons] at hdelivered
  refine ⟨hs.arrival, hs.nodup, hs.calledAt, ?_, fun _ => ⟨hpc, received ++ [msg],
    hdelivered, ?_, ?_⟩, hs.done, ?_⟩
  · intro m hm
    rcases List.mem_append.mp hm with hm | hm
    · exact hs.pending m hm
    · obtain rfl := List.mem_singleton.mp hm
      refine ⟨?_, hkill⟩
      rw [hdelivered]
      simp
  · simp [hpending, nonKill, hkill]
  · simp [hkilled, hkill, or_and_right, exists_or]
  · exact fun todo h m hm => List.mem_append_left _ (hs.putting todo h m hm)

/-- The caller of `Stop` goes on with what the watcher has held. -/
theorem Watched.puts (hs : Watched s) (hdone : s.done = true) (pc : StopPc)
    (ctrlCh : List Message) (dropped : ℕ) (hpc : pc ≠ .compiling)
    (hputting : ∀ todo, pc = .putting todo → ∀ m ∈ todo, m ∈ s.pending) :
    Watched { s with ctrlCh := ctrlCh, pc := pc, dropped := dropped } := by
  refine ⟨hs.arrival, hs.nodup, hs.calledAt, hs.pending, fun hf => ?_, fun _ => hpc, hputting⟩
  rw [show s.done = false from hf] at hdone
  cases hdone

theorem step_watched (hs : Watched s) (h : s.step a = some s') : Watched s' := by
  cases a with
  | deliver type =>
    obtain ⟨-, h⟩ := Option.ite_none_right_eq_some.mp h
    obtain rfl := Option.some.inj h
    exact hs.deliver type
  | receive =>
    simp only [CompileWatch.step] at h
    split at h
    · next msg ctrlCh hdone hctrl =>
      split at h
      · next hkill =>
        obtain rfl := Option.some.inj h
        exact hs.receiveKill hdone hctrl hkill
      · next hkill =>
        obtain rfl := Option.some.inj h
        exact hs.hold hdone hctrl (by simpa using hkill)
    · cases h
  | seeStop =>
    obtain ⟨⟨-, hpc⟩, h⟩ := Option.ite_none_right_eq_some.mp h
    obtain rfl := Option.some.inj h
    exact ⟨hs.arrival, hs.nodup, hs.calledAt, hs.pending, nofun, fun _ => by rw [hpc]; nofun,
      hs.putting⟩
  | callStop =>
    obtain ⟨hpc, h⟩ := Option.ite_none_right_eq_some.mp h
    obtain rfl := Option.some.inj h
    refine ⟨hs.arrival, hs.nodup, Nat.le_refl _, hs.pending, fun hdone => ?_, fun _ => nofun,
      fun _ => nofun⟩
    exact ⟨.inr rfl, (hs.watching hdone).2⟩
  | seeDone =>
    obtain ⟨⟨hdone, -⟩, h⟩ := Option.ite_none_right_eq_some.mp h
    obtain rfl := Option.some.inj h
    refine hs.puts hdone (.putting s.pending) s.ctrlCh s.dropped nofun ?_
    rintro _ ⟨⟩
    exact fun m hm => hm
  | putBack =>
    simp only [CompileWatch.step] at h
    split at h
    · next msg todo hpc =>
      have htodo : ∀ todo', StopPc.putting todo = .putting todo' → ∀ m ∈ todo', m ∈ s.pending := by
        rintro _ ⟨⟩ m hm
        exact hs.putting _ hpc m (List.mem_cons_of_mem msg hm)
      split at h
      · obtain rfl := Option.some.inj h
        exact hs.puts (hs.done_of_putting hpc) (.putting todo) _ s.dropped nofun htodo
      · obtain rfl := Option.some.inj h
        exact hs.puts (hs.done_of_putting hpc) (.putting todo) s.ctrlCh _ nofun htodo
    · next hpc =>
      obtain rfl := Option.some.inj h
      exact hs.puts (hs.done_of_putting hpc) .returned s.ctrlCh s.dropped nofun nofun
    · cases h

namespace CompileWatch

def Reports (s : CompileWatch) : Prop := s.done = true → s.KillBefore → s.killed = true

/-- After the watcher's return the messages in the channel and those still held are in order. -/
def InOrder (s : CompileWatch) : Prop :=
  s.done = true → nonKill s.ctrlCh ++ s.held = nonKill s.delivered

end CompileWatch

/-- When the watcher stops, a kill from before `Stop` has been seen or is left in the channel. -/
theorem reports_of_stop (hs : Watched s) (hdone : s.done = false) :
    (s.KillBefore → s.killed = true) ↔
      s.killed = true ∨ ∀ m ∈ s.ctrlCh, m.isKill = true → s.calledAt ≤ m.arrival := by
  obtain ⟨-, received, hdelivered, -, hkilled⟩ := hs.watching hdone
  constructor
  · intro h
    by_cases hseen : s.killed = true
    · exact .inl hseen
    · refine .inr fun m hm hkill => ?_
      by_contra hbefore
      refine hseen (h ⟨m, ?_, hkill, Nat.lt_of_not_le hbefore⟩)
      rw [hdelivered]
      exact List.mem_append_right _ hm
  · rintro (hseen | hleft) ⟨m, hm, hkill, hbefore⟩
    · exact hseen
    · rw [hdelivered] at hm
      rcases List.mem_append.mp hm with hm | hm
      · exact hkilled.mpr ⟨m, hm, hkill⟩
      · exact absurd hbefore (Nat.not_lt_of_le (hleft m hm hkill))

theorem step_reports (hs : Watched s) (h : s.step a = some s') :
    s'.Reports ↔ s.Reports ∧ ReportsKill s a := by
  cases a with
  | deliver type =>
    obtain ⟨-, h⟩ := Option.ite_none_right_eq_some.mp h
    obtain rfl := Option.some.inj h
    rw [ReportsKill, and_true]
    refine imp_congr_right fun _ => imp_congr_left ⟨?_, ?_⟩
    · rintro ⟨m, hm, hkill, hbefore⟩
      rcases List.mem_append.mp hm with hm | hm
      · exact ⟨m, hm, hkill, hbefore⟩
      · -- a message that has just arrived is not from before `Stop`
        obtain rfl := List.mem_singleton.mp hm
        exact absurd hbefore (Nat.not_lt_of_le hs.calledAt)
    · rintro ⟨m, hm, hkill, hbefore⟩
      exact ⟨m, List.mem_append_left _ hm, hkill, hbefore⟩
  | receive =>
    rw [ReportsKill, and_true]
    simp only [CompileWatch.step] at h
    split at h
    · next msg ctrlCh hdone hctrl =>
      have hs' : s'.done = false := by
        split at h <;> obtain rfl := Option.some.inj h <;> exact hdone
      simp [CompileWatch.Reports, hdone, hs']
    · cases h
  | seeStop =>
    obtain ⟨⟨hdone, -⟩, h⟩ := Option.ite_none_right_eq_some.mp h
    obtain rfl := Option.some.inj h
    rw [ReportsKill, ← reports_of_stop hs hdone]
    refine ⟨fun hrep => ⟨fun hd => ?_, hrep rfl⟩, fun hrep _ => hrep.2⟩
    rw [hdone] at hd
    cases hd
  | callStop =>
    obtain ⟨hpc, h⟩ := Option.ite_none_right_eq_some.mp h
    obtain rfl := Option.some.inj h
    have hdone : ¬ s.done = true := fun hdone => hs.done hdone hpc
    rw [ReportsKill, and_true]
    exact iff_of_true (fun h => absurd h hdone) (fun h => absurd h hdone)
  | seeDone =>
    obtain ⟨-, h⟩ := Option.ite_none_right_eq_some.mp h
    obtain rfl := Option.some.inj h
    rw [ReportsKill, and_true]
    exact Iff.rfl
  | putBack =>
    rw [ReportsKill, and_true]
    simp only [CompileWatch.step] at h
    split at h
    · split at h <;> obtain rfl := Option.some.inj h <;> exact Iff.rfl
    · obtain rfl := Option.some.inj h
      exact Iff.rfl
    · cases h

theorem nonKill_singleton_of_kill (h : m.isKill = true) : nonKill [m] = [] := by
  simp [nonKill, h]

theorem nonKill_singleton (h : m.isKill = false) : nonKill [m] = [m] := by
  simp [nonKill, h]

/-- Two parts of a list without repetitions are exchanged only if one of them is empty. -/
theorem append_swap_iff {l l' : List Message} (h : (l ++ l').Nodup) :
    l' ++ l = l ++ l' ↔ l = [] ∨ l' = [] := by
  constructor
  · intro hswap
    cases l with
    | nil => exact .inl rfl
    | cons m l =>
      cases l' with
      | nil => exact .inr rfl
      | cons m' l' =>
        obtain rfl : m' = m := (List.cons.inj hswap).1
        exact absurd rfl ((List.nodup_append.mp h).2.2 m' (by simp) m' (by simp))
  · rintro (rfl | rfl) <;> simp

theorem Watched.held (hs : Watched s) : ∀ m ∈ s.held, m ∈ s.pending := by
  unfold CompileWatch.held
  split
  · cases hpc : s.pc with
    | waiting => exact fun m hm => hm
    | putting todo => exact hs.putting todo hpc
    | compiling | returned => exact nofun
  · exact nofun

theorem inOrder_deliver (hs : Watched s) (hdone : s.done = true) :
    CompileWatch.InOrder
        { s with
          ctrlCh := s.ctrlCh ++ [⟨s.delivered.length, type⟩]
          delivered := s.delivered ++ [⟨s.delivered.length, type⟩] } ↔
      s.InOrder ∧ (type = .kill ∨ s.held = []) := by
  rw [CompileWatch.InOrder, CompileWatch.InOrder, forall_prop_of_true hdone,
    forall_prop_of_true hdone, nonKill_append, nonKill_append]
  change nonKill s.ctrlCh ++ nonKill [⟨s.delivered.length, type⟩] ++ s.held =
    nonKill s.delivered ++ nonKill [⟨s.delivered.length, type⟩] ↔ _
  by_cases htype : type = .kill
  · rw [nonKill_singleton_of_kill (by simp [Message.isKill, htype])]
    simp [htype]
  · rw [nonKill_singleton (by simp [Message.isKill, htype])]
    rcases List.eq_nil_or_concat' s.held with hheld | ⟨init, m, hheld⟩
    · simp [hheld]
    · have hm : m ∈ s.delivered := (hs.pending m (hs.held m (by simp [hheld]))).1
      have hne : m ≠ ⟨s.delivered.length, type⟩ := by
        rintro rfl
        exact absurd (hs.arrival _ hm) (Nat.lt_irrefl _)
      refine iff_of_false (fun heq => hne ?_) (fun h => ?_)
      · rw [hheld, ← List.append_assoc] at heq
        exact (List.append_inj' heq rfl).2 |> List.singleton_inj.mp
      · rcases h.2 with hkill | hnil
        · exact htype hkill
        · simp [hheld] at hnil

theorem step_inOrder (hs : Watched s) (hw : Fits s a) (h : s.step a = some s') :
    s'.InOrder ↔ s.InOrder ∧ KeepsOrder s a := by
  cases a with
  | deliver type =>
    obtain ⟨-, h⟩ := Option.ite_none_right_eq_some.mp h
    obtain rfl := Option.some.inj h
    rw [KeepsOrder]
    by_cases hdone : s.done = true
    · exact inOrder_deliver hs hdone
    · have hheld : s.held = [] := if_neg hdone
      exact iff_of_true (fun h => absurd h hdone) ⟨fun h => absurd h hdone, .inr hheld⟩
  | receive =>
    rw [KeepsOrder, and_true]
    simp only [CompileWatch.step] at h
    split at h
    · next msg ctrlCh hdone hctrl =>
      have hs' : s'.done = false := by
        split at h <;> obtain rfl := Option.some.inj h <;> exact hdone
      simp [CompileWatch.InOrder, hdone, hs']
    · cases h
  | seeStop =>
    obtain ⟨⟨hdone, hpc⟩, h⟩ := Option.ite_none_right_eq_some.mp h
    obtain rfl := Option.some.inj h
    have hvacuous : s.InOrder := fun h => absurd h (by simp [hdone])
    obtain ⟨-, received, hdelivered, hpending, -⟩ := hs.watching hdone
    have hnodup : (s.pending ++ nonKill s.ctrlCh).Nodup := by
      rw [hpending, ← nonKill_append, ← hdelivered]
      exact hs.nodup.filter _
    rw [KeepsOrder, ← append_swap_iff hnodup, and_iff_right hvacuous]
    simp only [CompileWatch.InOrder, CompileWatch.held, hpc, if_true, forall_const]
    rw [hdelivered, nonKill_append, ← hpending]
  | callStop =>
    obtain ⟨hpc, h⟩ := Option.ite_none_right_eq_some.mp h
    obtain rfl := Option.some.inj h
    have hdone : ¬ s.done = true := fun hdone => hs.done hdone hpc
    rw [KeepsOrder, and_true]
    exact iff_of_true (fun h => absurd h hdone) (fun h => absurd h hdone)
  | seeDone =>
    obtain ⟨⟨hdone, hpc⟩, h⟩ := Option.ite_none_right_eq_some.mp h
    obtain rfl := Option.some.inj h
    rw [KeepsOrder, and_true]
    simp [CompileWatch.InOrder, CompileWatch.held, hdone, hpc]
  | putBack =>
    rw [KeepsOrder, and_true]
    simp only [CompileWatch.step] at h
    split at h
    · next msg todo hpc =>
      have hdone := hs.done_of_putting hpc
      have hheld : s.held = msg :: todo := by simp [CompileWatch.held, hdone, hpc]
      have hroom : s.ctrlCh.length < ctrlCap := hw.resolve_left (by simp [hheld])
      rw [if_pos hroom] at h
      obtain rfl := Option.some.inj h
      have hmsg : nonKill [msg] = [msg] :=
        nonKill_singleton (hs.pending msg (hs.held msg (by simp [hheld]))).2
      simp only [CompileWatch.InOrder, hheld]
      simp [CompileWatch.held, hdone, hmsg]
    · next hpc =>
      obtain rfl := Option.some.inj h
      have hdone := hs.done_of_putting hpc
      simp [CompileWatch.InOrder, CompileWatch.held, hdone, hpc]
    · cases h

theorem step_dropped (hs : Watched s) (h : s.step a = some s') :
    s'.dropped = 0 ↔ s.dropped = 0 ∧ Fits s a := by
  cases a with
  | deliver type =>
    obtain ⟨-, h⟩ := Option.ite_none_right_eq_some.mp h
    obtain rfl := Option.some.inj h
    exact (and_iff_left trivial).symm
  | receive =>
    rw [Fits, and_true]
    simp only [CompileWatch.step] at h
    split at h
    · split at h <;> obtain rfl := Option.some.inj h <;> exact Iff.rfl
    · cases h
  | seeStop | callStop | seeDone =>
    obtain ⟨-, h⟩ := Option.ite_none_right_eq_some.mp h
    obtain rfl := Option.some.inj h
    exact (and_iff_left trivial).symm
  | putBack =>
    simp only [CompileWatch.step] at h
    split at h
    · next msg todo hpc =>
      have hheld : s.held = msg :: todo := by
        simp [CompileWatch.held, hs.done_of_putting hpc, hpc]
      split at h
      · next hroom =>
        obtain rfl := Option.some.inj h
        exact (and_iff_left (.inr hroom)).symm
      · next hfull =>
        obtain rfl := Option.some.inj h
        simp [Fits, hheld, hfull]
    · next hpc =>
      obtain rfl := Option.some.inj h
      have hheld : s.held = [] := by simp [CompileWatch.held, hpc]
      exact (and_iff_left (.inl hheld)).symm
    · cases h

/-- `Stop` hands everything over, its report included, exactly when the watcher's stop and the
arrivals after it leave the kills and the order alone. -/
theorem lossless_iff (hr : run CompileWatch.step .start as = some t) (hret : t.pc = .returned) :
    t.Lossless ↔ EveryStep CompileWatch.step ReportsKill .start as ∧
      (EveryStep CompileWatch.step Fits .start as →
        EveryStep CompileWatch.step KeepsOrder .start as) := by
  have hwatched : Watched t :=
    Reachable.invariant (fun _ _ _ hs h => step_watched hs h) watched_start ⟨as, hr⟩
  have hdone : t.done = true := by
    cases hdone : t.done with
    | true => rfl
    | false => rcases (hwatched.watching hdone).1 with hpc | hpc <;> rw [hret] at hpc <;> cases hpc
  have hheld : t.held = [] := by simp [CompileWatch.held, hret]
  have hreports : t.Reports ↔ EveryStep CompileWatch.step ReportsKill .start as := by
    have h := last_iff_everyStep_of (I := CompileWatch.Reports) (J := Watched)
      (fun _ _ _ hs _ h => step_watched hs h) (fun _ _ _ hs _ h => step_reports hs h)
      watched_start .trivial hr
    rwa [and_iff_right nofun] at h
  have hdropped : t.dropped = 0 ↔ EveryStep CompileWatch.step Fits .start as := by
    have h := last_iff_everyStep_of (I := fun s => s.dropped = 0) (J := Watched)
      (fun _ _ _ hs _ h => step_watched hs h) (fun _ _ _ hs _ h => step_dropped hs h)
      watched_start .trivial hr
    rwa [and_iff_right (show CompileWatch.start.dropped = 0 from rfl)] at h
  have horder : EveryStep CompileWatch.step Fits .start as →
      (t.InOrder ↔ EveryStep CompileWatch.step KeepsOrder .start as) := by
    intro hfits
    have h := last_iff_everyStep_of (I := CompileWatch.InOrder) (J := Watched)
      (fun _ _ _ hs _ h => step_watched hs h) (fun _ _ _ hs hw h => step_inOrder hs hw h)
      watched_start hfits hr
    rwa [and_iff_right nofun] at h
  have hinOrder : t.InOrder ↔ nonKill t.ctrlCh = nonKill t.delivered := by
    simp [CompileWatch.InOrder, hdone, hheld]
  rw [← hreports]
  constructor
  · intro h
    refine ⟨fun _ => h.reported, fun hfits => ?_⟩
    exact (horder hfits).mp (hinOrder.mpr (h.ordered (hdropped.mpr hfits)))
  · rintro ⟨hreport, hkeeps⟩
    refine ⟨hreport hdone, fun hnone => ?_⟩
    have hfits := hdropped.mp hnone
    exact hinOrder.mp ((horder hfits).mpr (hkeeps hfits))

/-- A held message is put back into an empty channel. -/
def heldOne : List WatchAct :=
  [.deliver .stdinClose, .receive, .callStop, .seeStop, .seeDone, .putBack, .putBack]

theorem heldOne_lossless :
    ∃ t, run CompileWatch.step .start heldOne = some t ∧ t.Lossless := by
  obtain ⟨t, hr, hret⟩ : ∃ t, run CompileWatch.step .start heldOne = some t ∧ t.pc = .returned :=
    ⟨_, rfl, rfl⟩
  refine ⟨t, hr, (lossless_iff hr hret).mpr ⟨?_, fun _ => ?_⟩⟩
  · simp [heldOne, EveryStep, ReportsKill, CompileWatch.step, CompileWatch.start, ctrlCap,
      Message.isKill]
  · simp [heldOne, EveryStep, KeepsOrder, CompileWatch.step, CompileWatch.start, ctrlCap,
      Message.isKill, CompileWatch.held, nonKill]

def missedKill : List WatchAct := [.deliver .kill, .callStop, .seeStop, .seeDone, .putBack]

/-- A `stdin_close` is left in the channel when the held `start` is put back. -/
def overtaken : List WatchAct :=
  [.deliver .start, .receive, .deliver .stdinClose, .callStop, .seeStop, .seeDone, .putBack,
    .putBack]

theorem watch_not_always_lossless :
    (¬ ∀ as t, run CompileWatch.step .start as = some t → t.pc = .returned →
      t.KillBefore → t.killed = true) ∧
    ¬ ∀ as t, run CompileWatch.step .start as = some t → t.pc = .returned → t.dropped = 0 →
      nonKill t.ctrlCh = nonKill t.delivered := by
  constructor
  · intro hall
    exact absurd (hall missedKill _ rfl rfl ⟨⟨0, .kill⟩, by decide, rfl, by decide⟩) (by decide)
  · intro hall
    exact absurd (hall overtaken _ rfl rfl rfl) (by decide)

end CodeRunner.Worker
