import CodeRunner.Lib.Transition
import CodeRunner.Publisher.Split
import Mathlib.Logic.Function.Basic

/-! # Concurrent output calls

`Stdout`, `Stderr` and `CompileOutput` on any jobs, one call after another on each stream of a
job. The number of a piece is taken under the lock of the publisher, and its event is triggered
outside it.
-/

namespace CodeRunner.Publisher

open Transition

inductive EventName | stdout | stderr | compileOutput
  deriving DecidableEq, Repr

/-- The calls on a stream: the pieces that the call in progress has to trigger, the number of the
first of them once it is taken, the chunks of all calls and the events. -/
structure CallLine where
  pieces : List (List UInt8)
  seq : Option ℕ
  chunks : List (List UInt8)
  events : List OutputChunkEvent

/-- `seq` is the counter of each job. -/
structure Calls where
  seq : String → ℕ
  lines : String × EventName → CallLine

inductive CallAct where
  | call (k : String × EventName) (chunk : List UInt8)
  | nextSeq (k : String × EventName)
  | trigger (k : String × EventName)
  deriving DecidableEq

namespace Calls

def start : Calls := ⟨fun _ => 0, fun _ => ⟨[], none, [], []⟩⟩

def setLine (s : Calls) (k : String × EventName) (l : CallLine) : Calls :=
  { s with lines := Function.update s.lines k l }

def step (s : Calls) : CallAct → Option Calls
  | .call k chunk =>
    let l := s.lines k
    if l.pieces = [] then
      some (s.setLine k { l with pieces := splitChunk chunk, chunks := l.chunks ++ [chunk] })
    else none
  | .nextSeq k =>
    let l := s.lines k
    match l.pieces, l.seq with
    | _ :: _, none =>
      let n := s.seq k.1 + 1
      some { s.setLine k { l with seq := some n } with seq := Function.update s.seq k.1 n }
    | _, _ => none
  | .trigger k =>
    let l := s.lines k
    match l.pieces, l.seq with
    | piece :: rest, some n =>
      some (s.setLine k
        { l with pieces := rest, seq := none, events := l.events ++ [⟨piece, n⟩] })
    | _, _ => none

end Calls

/-- The numbers that the calls on a stream have taken, in order. -/
def CallLine.numbers (l : CallLine) : List ℕ := l.events.map (·.seq) ++ l.seq.toList

def CallLine.sent (l : CallLine) : List UInt8 := (l.events.map (·.chunk)).flatten

/-- The numbers of a job, by its streams. -/
def Calls.numbers (s : Calls) (job : String) : List ℕ :=
  (s.lines (job, .stdout)).numbers ++ (s.lines (job, .stderr)).numbers ++
    (s.lines (job, .compileOutput)).numbers

def CallAct.chunkOn (k : String × EventName) : CallAct → Option (List UInt8)
  | .call k' chunk => if k' = k then some chunk else none
  | .nextSeq _ | .trigger _ => none

/-- The chunks of the calls on a stream, in the order of the calls. -/
def called (k : String × EventName) (acts : List CallAct) : List (List UInt8) :=
  acts.filterMap (CallAct.chunkOn k)

/-- A step of a call that has begun. -/
def CallAct.Continues (k : String × EventName) (a : CallAct) : Prop :=
  a = .nextSeq k ∨ a = .trigger k

/-- Every call has returned. -/
def Calls.Returned (s : Calls) (job : String) : Prop := ∀ name, (s.lines (job, name)).pieces = []

variable {s s' : Calls} {a : CallAct} {l l' : CallLine} {chunk piece : List UInt8} {n : ℕ}
  {k : String × EventName} {job : String}

inductive CallLine.Moves (l : CallLine) (n : ℕ) : CallLine → ℕ → Prop where
  | call (chunk : List UInt8) (hpieces : l.pieces = []) :
      Moves l n { l with pieces := splitChunk chunk, chunks := l.chunks ++ [chunk] } n
  | nextSeq (hseq : l.seq = none) (hpieces : l.pieces ≠ []) :
      Moves l n { l with seq := some (n + 1) } (n + 1)
  | trigger (piece : List UInt8) (rest : List (List UInt8)) (m : ℕ)
      (hpieces : l.pieces = piece :: rest) (hseq : l.seq = some m) :
      Moves l n { l with pieces := rest, seq := none, events := l.events ++ [⟨piece, m⟩] } n

def CallAct.line : CallAct → String × EventName
  | .call k _ | .nextSeq k | .trigger k => k

theorem step_moves_line (h : s.step a = some s') :
    ∃ l', (s.lines a.line).Moves (s.seq a.line.1) l' (s'.seq a.line.1) ∧
      s'.lines = Function.update s.lines a.line l' ∧
      s'.seq = Function.update s.seq a.line.1 (s'.seq a.line.1) := by
  cases a with
  | call k chunk =>
    obtain ⟨hpieces, h⟩ := Option.ite_none_right_eq_some.mp h
    obtain rfl := Option.some.inj h
    exact ⟨_, .call chunk hpieces, rfl, (Function.update_eq_self _ _).symm⟩
  | nextSeq k =>
    simp only [Calls.step] at h
    split at h
    · next hpieces hseq =>
      obtain rfl := Option.some.inj h
      have hseq' : Function.update s.seq k.1 (s.seq k.1 + 1) k.1 = s.seq k.1 + 1 :=
        Function.update_self _ _ _
      refine ⟨_, ?_, rfl, ?_⟩
      · dsimp only [Calls.setLine, CallAct.line]
        rw [hseq']
        exact .nextSeq hseq (by rw [hpieces]; nofun)
      · dsimp only [Calls.setLine, CallAct.line]
        rw [hseq']
    · cases h
  | trigger k =>
    simp only [Calls.step] at h
    split at h
    · next piece rest n hpieces hseq =>
      obtain rfl := Option.some.inj h
      exact ⟨_, .trigger piece rest n hpieces hseq, rfl, (Function.update_eq_self _ _).symm⟩
    · cases h

theorem setLine_same : (s.setLine k l).lines k = l := Function.update_self _ _ _

theorem setLine_of_ne {j : String × EventName} (hj : j ≠ k) :
    (s.setLine k l).lines j = s.lines j := Function.update_of_ne hj _ _

theorem setLine_chunks (hl : l.chunks = (s.lines k).chunks) (j : String × EventName) :
    ((s.setLine k l).lines j).chunks = (s.lines j).chunks := by
  by_cases hj : j = k
  · rw [hj, setLine_same, hl]
  · rw [setLine_of_ne hj]

theorem step_chunks (h : s.step a = some s') (k : String × EventName) :
    (s'.lines k).chunks = (s.lines k).chunks ++ (a.chunkOn k).toList := by
  cases a with
  | call k' chunk =>
    obtain ⟨-, h⟩ := Option.ite_none_right_eq_some.mp h
    obtain rfl := Option.some.inj h
    by_cases hk : k' = k
    · rw [CallAct.chunkOn, if_pos hk, hk, setLine_same]
      rfl
    · rw [CallAct.chunkOn, if_neg hk, setLine_of_ne (Ne.symm hk)]
      exact (List.append_nil _).symm
  | nextSeq k' =>
    simp only [Calls.step] at h
    split at h
    · obtain rfl := Option.some.inj h
      rw [CallAct.chunkOn, Option.toList_none, List.append_nil]
      exact setLine_chunks (l := { s.lines k' with seq := some (s.seq k'.1 + 1) }) rfl k
    · cases h
  | trigger k' =>
    simp only [Calls.step] at h
    split at h
    · obtain rfl := Option.some.inj h
      rw [CallAct.chunkOn, Option.toList_none, List.append_nil]
      apply setLine_chunks
      rfl
    · cases h

theorem run_chunks {acts : List CallAct} (hr : run Calls.step s acts = some s')
    (k : String × EventName) :
    (s'.lines k).chunks = (s.lines k).chunks ++ called k acts := by
  induction acts generalizing s with
  | nil =>
    obtain rfl := Option.some.inj hr
    exact (List.append_nil _).symm
  | cons a acts ih =>
    obtain ⟨s₁, hs, hr⟩ := run_cons_eq_some.mp hr
    rw [ih hr, step_chunks hs, List.append_assoc]
    unfold called
    rw [List.filterMap_cons]
    cases a.chunkOn k <;> rfl

theorem exists_triggered {rest : List (List UInt8)} (hpieces : (s.lines k).pieces = piece :: rest) :
    ∃ more s', run Calls.step s more = some s' ∧ (∀ a ∈ more, a.Continues k) ∧
      (s'.lines k).pieces = rest ∧ ∀ j, j ≠ k → s'.lines j = s.lines j := by
  have htrigger : ∀ (s : Calls) m, (s.lines k).pieces = piece :: rest →
      (s.lines k).seq = some m → ∃ s', s.step (.trigger k) = some s' ∧
        (s'.lines k).pieces = rest ∧ ∀ j, j ≠ k → s'.lines j = s.lines j := by
    intro s m hpieces hseq
    have hs : s.step (.trigger k) = some (s.setLine k { s.lines k with
        pieces := rest, seq := none,
        events := (s.lines k).events ++ [⟨piece, m⟩] }) := by
      simp only [Calls.step, hpieces, hseq]
    refine ⟨_, hs, ?_, fun j hj => setLine_of_ne hj⟩
    rw [setLine_same]
  cases hseq : (s.lines k).seq with
  | some m =>
    obtain ⟨s', hs, hrest, hothers⟩ := htrigger s m hpieces hseq
    exact ⟨[.trigger k], s', run_cons_of_step hs, by simp [CallAct.Continues], hrest, hothers⟩
  | none =>
    -- its number is taken first
    let l : CallLine := { s.lines k with pieces := piece :: rest, seq := some (s.seq k.1 + 1) }
    let s₁ : Calls := { s.setLine k l with
      seq := Function.update s.seq k.1 (s.seq k.1 + 1) }
    have hnext : s.step (.nextSeq k) = some s₁ := by
      simp only [Calls.step, hpieces, hseq]
      rfl
    have hline : s₁.lines k = l := setLine_same
    obtain ⟨s', hs, hrest, hothers⟩ :=
      htrigger s₁ (s.seq k.1 + 1) (by rw [hline]) (by rw [hline])
    refine ⟨[.nextSeq k, .trigger k], s', ?_, by simp [CallAct.Continues], hrest, fun j hj => ?_⟩
    · rw [run_cons_of_step hnext]
      exact run_cons_of_step hs
    · rw [hothers j hj]
      exact setLine_of_ne hj

theorem exists_lineReturned (s : Calls) (k : String × EventName) :
    ∃ more s', run Calls.step s more = some s' ∧ (∀ a ∈ more, a.Continues k) ∧
      (s'.lines k).pieces = [] ∧ ∀ j, j ≠ k → s'.lines j = s.lines j := by
  induction hpieces : (s.lines k).pieces generalizing s with
  | nil => exact ⟨[], s, rfl, nofun, hpieces, fun _ _ => rfl⟩
  | cons piece rest ih =>
    obtain ⟨first, s₁, hr₁, hfirst, hrest, hothers₁⟩ := exists_triggered hpieces
    obtain ⟨more, s₂, hr₂, hmore, hnil, hothers₂⟩ := ih s₁ hrest
    refine ⟨first ++ more, s₂, ?_, ?_, hnil, fun j hj => (hothers₂ j hj).trans (hothers₁ j hj)⟩
    · rw [run_append, hr₁]
      exact hr₂
    · exact List.forall_mem_append.mpr ⟨hfirst, hmore⟩

/-- The calls on a job can be carried on, without another call, until all of them return. -/
theorem exists_returned (s : Calls) (job : String) :
    ∃ more s', run Calls.step s more = some s' ∧
      (∀ a ∈ more, ∃ name, a.Continues (job, name)) ∧ s'.Returned job := by
  obtain ⟨out, s₁, hr₁, hout, hnil₁, -⟩ := exists_lineReturned s (job, .stdout)
  obtain ⟨err, s₂, hr₂, herr, hnil₂, hothers₂⟩ := exists_lineReturned s₁ (job, .stderr)
  obtain ⟨log, s₃, hr₃, hlog, hnil₃, hothers₃⟩ := exists_lineReturned s₂ (job, .compileOutput)
  refine ⟨out ++ (err ++ log), s₃, ?_, ?_, fun name => ?_⟩
  · rw [run_append, hr₁, Option.bind_some, run_append, hr₂]
    exact hr₃
  · simp only [List.forall_mem_append]
    exact ⟨fun a ha => ⟨_, hout a ha⟩, fun a ha => ⟨_, herr a ha⟩, fun a ha => ⟨_, hlog a ha⟩⟩
  · cases name with
    | stdout => rw [hothers₃ _ (by simp), hothers₂ _ (by simp), hnil₁]
    | stderr => rw [hothers₃ _ (by simp), hnil₂]
    | compileOutput => exact hnil₃

/-- What is in the events of a stream and in the call in progress is what was handed over. -/
def CallLine.Whole (l : CallLine) : Prop := l.sent ++ l.pieces.flatten = l.chunks.flatten

theorem CallLine.Moves.whole {m : ℕ} (h : l.Moves n l' m) (hl : l.Whole) : l'.Whole := by
  unfold Whole at hl ⊢
  cases h with
  | call chunk hpieces =>
    rw [hpieces, List.flatten_nil, List.append_nil] at hl
    rw [flatten_splitChunk, List.flatten_append, ← hl, List.flatten_singleton]
    rfl
  | nextSeq => exact hl
  | trigger piece rest m hpieces =>
    rw [hpieces, List.flatten_cons] at hl
    rw [← hl]
    simp [sent]

theorem CallLine.Moves.numbers {m : ℕ} (h : l.Moves n l' m) :
    (l'.numbers = l.numbers ∧ m = n) ∨ (l'.numbers = l.numbers ++ [n + 1] ∧ m = n + 1) := by
  cases h with
  | call => exact .inl ⟨rfl, rfl⟩
  | nextSeq hseq => exact .inr ⟨by simp [CallLine.numbers, hseq], rfl⟩
  | trigger piece rest m hpieces hseq => exact .inl ⟨by simp [CallLine.numbers, hseq], rfl⟩

theorem CallLine.Moves.idle {m : ℕ} (h : l.Moves n l' m) (hl : l.pieces = [] → l.seq = none) :
    l'.pieces = [] → l'.seq = none := by
  cases h with
  | call chunk hpieces => exact fun _ => hl hpieces
  | nextSeq hseq hpieces => exact fun h => absurd h hpieces
  | trigger => exact fun _ => rfl

structure Calls.Inv (s : Calls) : Prop where
  whole : ∀ k, (s.lines k).Whole
  idle : ∀ k, (s.lines k).pieces = [] → (s.lines k).seq = none
  ascending : ∀ k, (s.lines k).numbers.Pairwise (· < ·)
  numbered : ∀ job, (s.numbers job).Perm (List.range' 1 (s.seq job))

theorem Calls.Inv.start : Calls.start.Inv where
  whole _ := rfl
  idle _ _ := rfl
  ascending _ := .nil
  numbered _ := .refl []

theorem mem_numbers (h : n ∈ (s.lines k).numbers) : n ∈ s.numbers k.1 := by
  obtain ⟨job, name⟩ := k
  cases name <;> simp [Calls.numbers, h]

theorem Calls.Inv.le_seq (hi : s.Inv) (h : n ∈ (s.lines k).numbers) : n ≤ s.seq k.1 := by
  have hmem := (hi.numbered k.1).mem_iff.mp (mem_numbers h)
  have hlt := (List.mem_range'_1.mp hmem).2
  omega

theorem numbers_of_ne (hlines : s'.lines = Function.update s.lines k l') (hjob : job ≠ k.1) :
    s'.numbers job = s.numbers job := by
  have hne : ∀ name, (job, name) ≠ k := fun name h => hjob (congrArg Prod.fst h)
  simp only [Calls.numbers, hlines, Function.update_of_ne (hne _)]

theorem numbers_perm_append (hlines : s'.lines = Function.update s.lines k l') {ns : List ℕ}
    (hl : l'.numbers = (s.lines k).numbers ++ ns) :
    (s'.numbers k.1).Perm (s.numbers k.1 ++ ns) := by
  obtain ⟨job, name⟩ := k
  rw [List.perm_iff_count]
  intro m
  cases name <;> simp [Calls.numbers, hlines, hl] <;> omega

theorem Calls.Inv.step (hi : s.Inv) (h : s.step a = some s') : s'.Inv := by
  obtain ⟨l', hm, hlines, hseq⟩ := step_moves_line h
  generalize a.line = k at *
  -- each fact about the streams holds of the one that moves and of the others
  have hall : ∀ P : CallLine → Prop, (∀ j, P (s.lines j)) → P l' → ∀ j, P (s'.lines j) := by
    intro P hold hnew j
    rw [hlines]
    by_cases hj : j = k
    · rw [hj, Function.update_self]
      exact hnew
    · rw [Function.update_of_ne hj]
      exact hold j
  refine ⟨hall _ hi.whole (hm.whole (hi.whole k)), ?_, ?_, fun job => ?_⟩
  · exact hall (fun l => l.pieces = [] → l.seq = none) hi.idle (hm.idle (hi.idle k))
  · apply hall (fun l => l.numbers.Pairwise (· < ·)) hi.ascending
    rcases hm.numbers with ⟨hnum, -⟩ | ⟨hnum, -⟩
    · rw [hnum]
      exact hi.ascending k
    · rw [hnum, List.pairwise_append]
      refine ⟨hi.ascending k, List.pairwise_singleton _ _, fun m hmem m' hmem' => ?_⟩
      obtain rfl := List.mem_singleton.mp hmem'
      exact Nat.lt_succ_of_le (hi.le_seq hmem)
  · by_cases hjob : job = k.1
    · subst hjob
      rcases hm.numbers with ⟨hnum, hn⟩ | ⟨hnum, hn⟩
      · have hperm := numbers_perm_append hlines (hnum.trans (List.append_nil _).symm)
        rw [hn]
        exact hperm.trans (by simpa using hi.numbered k.1)
      · rw [hn, List.range'_1_concat, Nat.add_comm 1]
        exact (numbers_perm_append hlines hnum).trans ((hi.numbered k.1).append_right _)
    · rw [numbers_of_ne hlines hjob, hseq, Function.update_of_ne hjob]
      exact hi.numbered job

theorem run_inv {acts : List CallAct} (hr : run Calls.step .start acts = some s) : s.Inv :=
  Reachable.invariant (fun _ _ _ => Calls.Inv.step) .start ⟨acts, hr⟩

theorem Calls.Inv.sent (hi : s.Inv) (hk : (s.lines k).pieces = []) :
    (s.lines k).sent = (s.lines k).chunks.flatten := by
  have hwhole := hi.whole k
  rwa [CallLine.Whole, hk, List.flatten_nil, List.append_nil] at hwhole

theorem Calls.Inv.events_numbers (hi : s.Inv) (hk : (s.lines k).pieces = []) :
    (s.lines k).numbers = (s.lines k).events.map (·.seq) := by
  rw [CallLine.numbers, hi.idle k hk, Option.toList_none, List.append_nil]

end CodeRunner.Publisher
