import CodeRunner.Publisher.Boundary
import CodeRunner.Session.Pump

/-! # From the output of a program to its events

The sink of a stream hands each chunk to the publisher, which splits it and triggers an event for
each piece before the pump goes on. The two streams of a job share its counter.
-/

namespace CodeRunner.Publisher

open Transition Utf8 Session

/-- The pumps, the counter of the job, and of each stream the pieces of the chunk in its sink that
have not been triggered and the events that have. -/
structure Pipeline where
  output : Output
  seq : ℕ
  pieces : Stream → List (List UInt8)
  events : Stream → List OutputChunkEvent

/-- A step of a pump, or a `Trigger` and whether it succeeds. -/
inductive PipelineAct where
  | pump (act : OutputAct)
  | trigger (i : Stream) (ok : Bool)
  deriving DecidableEq, Repr

def streamOf : OutputAct → Stream
  | .read i _ _ => i
  | .go i => i

def handed : PumpPc → Option (List UInt8)
  | .sinking chunk forward _ => some (chunk.take forward)
  | _ => none

def sinks (pc : PumpPc) : List (List UInt8) := (handed pc).elim [] splitChunk

namespace Pipeline

def start (outputKb : Int64) (src : Stream → List UInt8) (seq : ℕ) : Pipeline where
  output := .start outputKb src
  seq := seq
  pieces := fun _ => []
  events := fun _ => []

def pump (s : Pipeline) (act : OutputAct) : Option Pipeline :=
  let i := streamOf act
  if s.pieces i = [] then
    (s.output.step act).map fun output =>
      { s with output, pieces := Function.update s.pieces i (sinks (s.output.pump i).pc) }
  else none

/-- An error ends the loop over the pieces, and is logged. -/
def trigger (s : Pipeline) (i : Stream) (ok : Bool) : Option Pipeline :=
  match s.pieces i with
  | [] => none
  | piece :: rest =>
    let seq := s.seq + 1
    if ok then
      some { s with
        seq
        pieces := Function.update s.pieces i rest
        events := Function.update s.events i (s.events i ++ [⟨piece, seq⟩]) }
    else some { s with seq, pieces := Function.update s.pieces i [] }

def step (s : Pipeline) : PipelineAct → Option Pipeline
  | .pump act => s.pump act
  | .trigger i ok => s.trigger i ok

/-- The bytes in the events of a stream. -/
def sent (s : Pipeline) (i : Stream) : List UInt8 := ((s.events i).map (·.chunk)).flatten

end Pipeline

/-- A read ends between two characters, and so does each half of a piece that is halved. -/
def CleanCuts (i : Stream) (s : Pipeline) : PipelineAct → Prop
  | .pump (.read j n _) => j = i → Valid ((s.output.pump i).rest.take n)
  | .pump (.go j) => j = i → ∀ chunk ∈ handed (s.output.pump i).pc, CleanHalves chunk
  | .trigger _ _ => True

instance (i : Stream) (s : Pipeline) : ∀ a, Decidable (CleanCuts i s a)
  | .pump (.read _ _ _) => inferInstanceAs (Decidable (_ → _))
  | .pump (.go _) => inferInstanceAs (Decidable (_ → ∀ chunk ∈ _, _))
  | .trigger _ _ => inferInstanceAs (Decidable True)

variable {outputKb : Int64} {src : Stream → List UInt8} {seq : ℕ} {s s' t : Pipeline}
  {i j : Stream} {o o' : Output} {act : OutputAct} {a : PipelineAct} {acts : List PipelineAct}

/-- A stream: its events, the pieces of the chunk in its sink, what its pump has read and not
handed to the sink, and what is still to be read. -/
structure Line where
  events : List OutputChunkEvent
  pieces : List (List UInt8)
  pending : List UInt8
  rest : List UInt8

namespace Line

def sent (l : Line) : List UInt8 := (l.events.map (·.chunk)).flatten

def text (l : Line) : List UInt8 := l.sent ++ l.pieces.flatten ++ l.pending ++ l.rest

/-- What has been read consists of whole characters, wherever it is. -/
structure Whole (l : Line) : Prop where
  events : ∀ ev ∈ l.events, Valid ev.chunk
  pieces : ∀ piece ∈ l.pieces, Valid piece
  pending : Valid l.pending

inductive Moves : Line → Line → Prop → Prop
  | read {evs : List OutputChunkEvent} {rest : List UInt8} (n : ℕ) :
      Moves ⟨evs, [], [], rest⟩ ⟨evs, [], rest.take n, rest.drop n⟩ (Valid (rest.take n))
  | sink {evs : List OutputChunkEvent} {chunk rest : List UInt8} :
      Moves ⟨evs, [], chunk, rest⟩ ⟨evs, splitChunk chunk, [], rest⟩ (CleanHalves chunk)
  | withhold {evs : List OutputChunkEvent} {ps : List (List UInt8)} {chunk chunk' : List UInt8}
      {rest : List UInt8} (h : chunk' <+: chunk) :
      Moves ⟨evs, ps, chunk, rest⟩ ⟨evs, ps, chunk', rest⟩ True
  | trigger {evs : List OutputChunkEvent} {ps : List (List UInt8)} {chunk rest : List UInt8}
      (ev : OutputChunkEvent) :
      Moves ⟨evs, ev.chunk :: ps, chunk, rest⟩ ⟨evs ++ [ev], ps, chunk, rest⟩ True
  | drop {evs : List OutputChunkEvent} {ps : List (List UInt8)} {chunk rest : List UInt8} :
      Moves ⟨evs, ps, chunk, rest⟩ ⟨evs, [], chunk, rest⟩ True

variable {l l' : Line} {C : Prop}

theorem Moves.text_sublist (h : Moves l l' C) : l'.text.Sublist l.text := by
  cases h with
  | read n =>
    simp only [text, sent, List.flatten_nil, List.append_nil, List.append_assoc,
      List.take_append_drop]
    exact List.Sublist.refl _
  | sink =>
    simp only [text, sent, List.flatten_nil, List.append_nil, flatten_splitChunk]
    exact List.Sublist.refl _
  | withhold h => exact ((List.Sublist.refl _).append h.sublist).append (List.Sublist.refl _)
  | trigger ev =>
    simp only [text, sent, List.map_append, List.flatten_append, List.map_cons, List.map_nil,
      List.flatten_cons, List.flatten_nil, List.append_nil, List.append_assoc]
    exact List.Sublist.refl _
  | drop =>
    apply List.Sublist.append _ (List.Sublist.refl _)
    apply List.Sublist.append _ (List.Sublist.refl _)
    exact (List.Sublist.refl _).append (List.nil_sublist _)

/-- As long as no byte is lost, the characters stay whole exactly if the step cuts none. -/
theorem Moves.whole_iff (h : Moves l l' C) (htext : l'.text.length = l.text.length) :
    l'.Whole ↔ l.Whole ∧ C := by
  cases h with
  | read n =>
    constructor
    · rintro ⟨hevs, -, hpending⟩
      exact ⟨⟨hevs, nofun, valid_nil⟩, hpending⟩
    · rintro ⟨⟨hevs, -, -⟩, hclean⟩
      exact ⟨hevs, nofun, hclean⟩
  | sink =>
    constructor
    · rintro ⟨hevs, hpieces, -⟩
      obtain ⟨hchunk, hclean⟩ := valid_splitChunk_iff.mp hpieces
      exact ⟨⟨hevs, nofun, hchunk⟩, hclean⟩
    · rintro ⟨⟨hevs, -, hchunk⟩, hclean⟩
      exact ⟨hevs, valid_splitChunk_iff.mpr ⟨hchunk, hclean⟩, valid_nil⟩
  | withhold h =>
    simp only [text, sent, List.length_append] at htext
    obtain rfl := h.eq_of_length (by omega)
    exact (and_iff_left True.intro).symm
  | trigger ev =>
    rw [and_iff_left True.intro]
    constructor
    · rintro ⟨hevs, hpieces, hpending⟩
      rw [List.forall_mem_append, List.forall_mem_singleton] at hevs
      exact ⟨hevs.1, List.forall_mem_cons.mpr ⟨hevs.2, hpieces⟩, hpending⟩
    · rintro ⟨hevs, hpieces, hpending⟩
      rw [List.forall_mem_cons] at hpieces
      refine ⟨?_, hpieces.2, hpending⟩
      rw [List.forall_mem_append, List.forall_mem_singleton]
      exact ⟨hevs, hpieces.1⟩
  | @drop evs ps chunk rest =>
    rw [and_iff_left True.intro]
    have hempty : ps.flatten = [] := by
      simp only [text, sent, List.length_append, List.flatten_nil, List.length_nil] at htext
      apply List.length_eq_zero_iff.mp
      omega
    constructor
    · rintro ⟨hevs, -, hpending⟩
      refine ⟨hevs, fun piece hp => ?_, hpending⟩
      rw [List.flatten_eq_nil_iff.mp hempty piece hp]
      exact valid_nil
    · rintro ⟨hevs, -, hpending⟩
      exact ⟨hevs, nofun, hpending⟩

end Line

def pending (pc : PumpPc) : List UInt8 := pc.held ++ pc.granted

theorem pending_next (fin : ReadEnd) : pending fin.next = [] := by
  rw [pending, next_held, next_granted]
  rfl

theorem pending_within (remaining : Int64) (chunk : List UInt8) (fin : ReadEnd) :
    pending (.within remaining chunk fin) <+: chunk := by
  unfold PumpPc.within
  split
  · split
    · exact List.take_prefix _ _
    · exact List.take_prefix _ _
  · exact List.nil_prefix

def lineOf (events : List OutputChunkEvent) (pieces : List (List UInt8)) (p : Session.Pump) :
    Line :=
  ⟨events, pieces, pending p.pc, p.rest⟩

variable {evs : List OutputChunkEvent}

theorem read_moves {n : ℕ} {fin : ReadEnd} (h : o.Branch (.read i n fin) o') :
    Line.Moves (lineOf evs [] (o.pump i)) (lineOf evs (sinks (o.pump i).pc) (o'.pump i))
      (Valid ((o.pump i).rest.take n)) := by
  obtain ⟨hpc⟩ := h
  have hpending : pending (if n = 0 then fin.next else .drawing ((o.pump i).rest.take n) fin) =
      (o.pump i).rest.take n := by
    split
    · next hzero =>
      rw [hzero, pending_next]
      rfl
    · exact List.append_nil _
  rw [set_pump_self, lineOf, lineOf, hpc, hpending]
  exact Line.Moves.read n

theorem clean_of_handed {pc : PumpPc} (h : handed pc = none) :
    (∀ chunk ∈ handed pc, CleanHalves chunk) ↔ True := by
  rw [h]
  exact iff_true_intro nofun

theorem go_moves (h : o.Branch (.go i) o') :
    Line.Moves (lineOf evs [] (o.pump i)) (lineOf evs (sinks (o.pump i).pc) (o'.pump i))
      (∀ chunk ∈ handed (o.pump i).pc, CleanHalves chunk) := by
  cases h with
  | @draw _ chunk fin hpc =>
    rw [set_pump_self, lineOf, lineOf, hpc, clean_of_handed rfl]
    apply Line.Moves.withhold
    change _ <+: chunk ++ []
    rw [List.append_nil]
    exact pending_within _ _ _
  | cross hpc =>
    rw [set_pump_self, lineOf, lineOf, hpc, clean_of_handed rfl]
    exact Line.Moves.withhold List.prefix_rfl
  | @sink _ chunk forward fin hpc =>
    have hclean : (∀ c ∈ handed (.sinking chunk forward fin), CleanHalves c) ↔
        CleanHalves (chunk.take forward) := by
      constructor
      · exact fun h => h _ rfl
      · rintro h c ⟨⟩
        exact h
    have hpending : pending (if forward < chunk.length then .marking fin else fin.next) = [] := by
      split
      · rfl
      · exact pending_next fin
    rw [set_pump_self, lineOf, lineOf, hpc, hclean, hpending]
    exact Line.Moves.sink
  | mark hpc =>
    rw [set_pump_self, lineOf, lineOf, hpc, clean_of_handed rfl, pending_next]
    exact Line.Moves.withhold List.nil_prefix

theorem step_pump_of_ne (h : o.step act = some o') (hj : j ≠ streamOf act) :
    o'.pump j = o.pump j := by
  cases output_branch h with
  | read | draw | cross | sink | mark => exact set_pump_of_ne hj

def Pipeline.line (s : Pipeline) (i : Stream) : Line :=
  lineOf (s.events i) (s.pieces i) (s.output.pump i)

theorem pump_eq_some : s.pump act = some s' ↔ s.pieces (streamOf act) = [] ∧
    ∃ o', s.output.step act = some o' ∧
      s' = { s with
        output := o'
        pieces := Function.update s.pieces (streamOf act)
          (sinks (s.output.pump (streamOf act)).pc) } := by
  rw [Pipeline.pump, Option.ite_none_right_eq_some, Option.map_eq_some_iff]
  constructor
  · rintro ⟨hp, o', ho, rfl⟩
    exact ⟨hp, o', ho, rfl⟩
  · rintro ⟨hp, o', ho, rfl⟩
    exact ⟨hp, o', ho, rfl⟩

/-- A `Trigger` takes the first piece of its stream with the next number. -/
theorem trigger_cases {ok : Bool} (h : s.trigger i ok = some s') :
    ∃ piece rest, s.pieces i = piece :: rest ∧
      ((ok = true ∧ s' = { s with
          seq := s.seq + 1
          pieces := Function.update s.pieces i rest
          events := Function.update s.events i (s.events i ++ [⟨piece, s.seq + 1⟩]) }) ∨
        ok = false ∧ s' = { s with
          seq := s.seq + 1
          pieces := Function.update s.pieces i [] }) := by
  unfold Pipeline.trigger at h
  split at h
  · cases h
  · next piece rest hp =>
    refine ⟨piece, rest, hp, ?_⟩
    cases ok with
    | true => exact .inl ⟨rfl, (Option.some.inj h).symm⟩
    | false => exact .inr ⟨rfl, (Option.some.inj h).symm⟩

theorem Line.Moves.refl (l : Line) : l.Moves l True := .withhold List.prefix_rfl

theorem pump_moves (h : s.pump act = some s') :
    (s.line i).Moves (s'.line i) (CleanCuts i s (.pump act)) := by
  obtain ⟨hp, o', ho, rfl⟩ := pump_eq_some.mp h
  by_cases hi : i = streamOf act
  · subst hi
    rw [Pipeline.line, Pipeline.line, hp]
    dsimp only
    rw [Function.update_self]
    cases act with
    | read i n fin =>
      have hclean : CleanCuts i s (.pump (.read i n fin)) ↔
          Valid ((s.output.pump i).rest.take n) := ⟨fun h => h rfl, fun h _ => h⟩
      rw [streamOf, hclean]
      exact read_moves (output_branch ho)
    | go i =>
      have hclean : CleanCuts i s (.pump (.go i)) ↔
          ∀ chunk ∈ handed (s.output.pump i).pc, CleanHalves chunk :=
        ⟨fun h => h rfl, fun h _ => h⟩
      rw [streamOf, hclean]
      exact go_moves (output_branch ho)
  · have hclean : CleanCuts i s (.pump act) ↔ True := by
      apply iff_true_intro
      cases act with
      | read j n fin => exact fun hj => absurd hj.symm hi
      | go j => exact fun hj => absurd hj.symm hi
    rw [Pipeline.line, Pipeline.line, hclean]
    dsimp only
    rw [Function.update_of_ne hi, step_pump_of_ne ho hi]
    exact Line.Moves.refl _

theorem trigger_moves {ok : Bool} (h : s.trigger j ok = some s') :
    (s.line i).Moves (s'.line i) True := by
  obtain ⟨piece, rest, hp, ⟨-, rfl⟩ | ⟨-, rfl⟩⟩ := trigger_cases h
  · by_cases hi : i = j
    · subst hi
      rw [Pipeline.line, Pipeline.line, hp]
      dsimp only
      rw [Function.update_self, Function.update_self]
      exact Line.Moves.trigger ⟨piece, s.seq + 1⟩
    · rw [Pipeline.line, Pipeline.line]
      dsimp only
      rw [Function.update_of_ne hi, Function.update_of_ne hi]
      exact Line.Moves.refl _
  · by_cases hi : i = j
    · subst hi
      rw [Pipeline.line, Pipeline.line]
      dsimp only
      rw [Function.update_self]
      exact Line.Moves.drop
    · rw [Pipeline.line, Pipeline.line]
      dsimp only
      rw [Function.update_of_ne hi]
      exact Line.Moves.refl _

theorem step_moves (h : s.step a = some s') : (s.line i).Moves (s'.line i) (CleanCuts i s a) := by
  cases a with
  | pump act => exact pump_moves h
  | trigger j ok => exact trigger_moves h

theorem run_text_length (hr : run Pipeline.step s acts = some t) :
    (t.line i).text.length ≤ (s.line i).text.length :=
  measure_run_le (μ := fun s => (s.line i).text.length)
    (fun _ _ _ h => (step_moves h).text_sublist.length_le) hr

theorem run_text (hr : run Pipeline.step s acts = some t)
    (hlen : (t.line i).text.length = (s.line i).text.length) :
    (t.line i).text = (s.line i).text := by
  have hiff := last_iff_everyStep (I := fun u => (u.line i).text = (s.line i).text)
    (G := fun _ _ => True) (μ := fun u => (u.line i).text.length)
    (fun _ _ _ h => (step_moves h).text_sublist.length_le)
    (fun u a u' h hlen => by
      rw [(step_moves h).text_sublist.eq_of_length hlen]
      exact (and_iff_left True.intro).symm) hr hlen
  exact hiff.mpr ⟨rfl, EveryStep.trivial⟩

theorem run_whole_iff (hr : run Pipeline.step s acts = some t)
    (hlen : (t.line i).text.length = (s.line i).text.length) :
    (t.line i).Whole ↔ (s.line i).Whole ∧ EveryStep Pipeline.step (CleanCuts i) s acts :=
  last_iff_everyStep (I := fun u => (u.line i).Whole)
    (fun _ _ _ h => (step_moves h).text_sublist.length_le)
    (fun _ _ _ h hlen => (step_moves h).whole_iff hlen) hr hlen

structure Numbered (s : Pipeline) : Prop where
  sorted : ∀ i, ((s.events i).map (·.seq)).Pairwise (· < ·)
  le : ∀ i, ∀ ev ∈ s.events i, ev.seq ≤ s.seq

theorem step_numbered (hn : Numbered s) (h : s.step a = some s') : Numbered s' := by
  cases a with
  | pump act =>
    obtain ⟨-, o', -, rfl⟩ := pump_eq_some.mp h
    exact ⟨hn.sorted, hn.le⟩
  | trigger j ok =>
    obtain ⟨piece, rest, -, ⟨-, rfl⟩ | ⟨-, rfl⟩⟩ := trigger_cases h
    · constructor
      · intro i
        by_cases hi : i = j
        · subst hi
          dsimp only
          rw [Function.update_self, List.map_append, List.pairwise_append]
          refine ⟨hn.sorted i, List.pairwise_singleton _ _, ?_⟩
          intro m hm m' hm'
          obtain ⟨ev, hev, rfl⟩ := List.mem_map.mp hm
          obtain rfl := List.mem_singleton.mp hm'
          exact Nat.lt_succ_of_le (hn.le i ev hev)
        · dsimp only
          rw [Function.update_of_ne hi]
          exact hn.sorted i
      · intro i ev hev
        by_cases hi : i = j
        · subst hi
          dsimp only at hev
          rw [Function.update_self] at hev
          rcases List.mem_append.mp hev with hev | hev
          · exact Nat.le_succ_of_le (hn.le i ev hev)
          · obtain rfl := List.mem_singleton.mp hev
            exact Nat.le_refl _
        · dsimp only at hev
          rw [Function.update_of_ne hi] at hev
          exact Nat.le_succ_of_le (hn.le i ev hev)
    · exact ⟨hn.sorted, fun i ev hev => Nat.le_succ_of_le (hn.le i ev hev)⟩

theorem run_numbered (hr : run Pipeline.step (.start outputKb src seq) acts = some s) :
    Numbered s :=
  Reachable.invariant (I := Numbered) (fun _ _ _ hn h => step_numbered hn h)
    ⟨fun _ => List.Pairwise.nil, fun _ _ hev => absurd hev List.not_mem_nil⟩ ⟨acts, hr⟩

def pumpAct : PipelineAct → Option OutputAct
  | .pump act => some act
  | .trigger _ _ => none

theorem run_output (hr : run Pipeline.step s acts = some t) :
    run Output.step s.output (acts.filterMap pumpAct) = some t.output := by
  induction acts generalizing s with
  | nil => exact congrArg some (congrArg Pipeline.output (Option.some.inj hr))
  | cons a acts ih =>
    obtain ⟨s', hs, hr⟩ := run_cons_eq_some.mp hr
    have hrest := ih hr
    cases a with
    | pump act =>
      obtain ⟨-, o', ho, rfl⟩ := pump_eq_some.mp hs
      rw [List.filterMap_cons, pumpAct]
      exact run_cons_eq_some.mpr ⟨o', ho, hrest⟩
    | trigger j ok =>
      rw [List.filterMap_cons, pumpAct]
      obtain ⟨piece, rest, -, ⟨-, rfl⟩ | ⟨-, rfl⟩⟩ := trigger_cases hs
      · exact hrest
      · exact hrest

theorem step_sunk (h : o.step act = some o') :
    (o'.pump (streamOf act)).sunk =
      (o.pump (streamOf act)).sunk ++ (sinks (o.pump (streamOf act)).pc).flatten := by
  cases output_branch h with
  | read hpc | draw hpc | cross hpc | mark hpc =>
    rw [streamOf, set_pump_self, hpc]
    exact (List.append_nil _).symm
  | sink hpc =>
    rw [streamOf, set_pump_self, hpc, sinks, handed, Option.elim_some, flatten_splitChunk]

def Handed (s : Pipeline) : Prop :=
  ∀ i, (s.output.pump i).sunk = (s.line i).sent ++ (s.pieces i).flatten

theorem step_handed (hh : Handed s) (hok : ∀ i, a ≠ .trigger i false)
    (h : s.step a = some s') : Handed s' := by
  intro i
  cases a with
  | pump act =>
    obtain ⟨hp, o', ho, rfl⟩ := pump_eq_some.mp h
    change (o'.pump i).sunk =
      (s.line i).sent ++ (Function.update s.pieces (streamOf act) _ i).flatten
    by_cases hi : i = streamOf act
    · have hbefore := hh (streamOf act)
      rw [hp, List.flatten_nil, List.append_nil] at hbefore
      rw [hi, Function.update_self, step_sunk ho, hbefore]
    · rw [Function.update_of_ne hi, step_pump_of_ne ho hi]
      exact hh i
  | trigger j ok =>
    obtain ⟨piece, rest, hp, ⟨-, rfl⟩ | ⟨rfl, -⟩⟩ := trigger_cases h
    · change (s.output.pump i).sunk = ((Function.update s.events j _ i).map _).flatten ++
        (Function.update s.pieces j rest i).flatten
      by_cases hi : i = j
      · rw [hi, Function.update_self, Function.update_self, hh, hp, Line.sent]
        simp only [List.flatten_cons, List.map_append, List.flatten_append, List.map_cons,
          List.map_nil, List.flatten_nil, List.append_nil, List.append_assoc]
        rfl
      · rw [Function.update_of_ne hi, Function.update_of_ne hi]
        exact hh i
    · exact absurd rfl (hok j)

/-- When the output is within its budget and no `Trigger` fails, all of it gets into events. -/
theorem sent_of_within_budget {K : ℕ} (hK : outputKb.toInt = K)
    (hcap : K * 1024 < 9223372036854775808) (hsum : ∑ i, (src i).length ≤ K * 1024)
    (hr : run Pipeline.step (.start outputKb src seq) acts = some s)
    (hok : ∀ i, PipelineAct.trigger i false ∉ acts)
    (hdone : ∀ i, (s.output.pump i).pc = .returned .eof ∧ s.pieces i = []) :
    (s.line i).sent = src i := by
  have hfit := Nat.le_trans hsum (Nat.le_add_right _ 9223372036854775808)
  obtain ⟨log, href⟩ := run_refines hK hcap hfit (run_output hr)
  have hforwarded : Forwarded src (K * 1024) s.output := by
    apply href.forwarded
    · intro i
      rw [(hdone i).1]
      rfl
    · intro i
      rw [(hdone i).1]
      rfl
    · intro i
      rw [(hdone i).1]
      rfl
    · left
      intro i
      apply (href.serves i).finished
      rw [(hdone i).1]
      rfl
  have hsunk : (s.output.pump i).sunk = src i := by
    have hle : ∀ i ∈ Finset.univ, (s.output.pump i).sunk.length ≤ (src i).length :=
      fun i _ => (hforwarded.ordered i).length_le
    have hamount := hforwarded.amount
    rw [Nat.min_eq_left hsum] at hamount
    have heq := (Finset.sum_eq_sum_iff_of_le hle).mp hamount i (Finset.mem_univ i)
    exact (hforwarded.ordered i).eq_of_length heq
  have hhanded : Handed s := by
    have hall : Always Pipeline.step Handed (.start outputKb src seq) acts := by
      apply Always.of_guarded (G := fun _ a => ∀ i, a ≠ .trigger i false)
      · exact fun _ _ _ hh hok h => step_handed hh hok h
      · exact fun _ => rfl
      · exact everyStep_of_mem fun a ha i heq => hok i (heq ▸ ha)
    exact hall.last hr
  have hsent := hhanded i
  rw [(hdone i).2, List.flatten_nil, List.append_nil, hsunk] at hsent
  exact hsent.symm

end CodeRunner.Publisher
