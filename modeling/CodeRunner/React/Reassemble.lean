import CodeRunner.Lib.Buffer
import CodeRunner.Publisher.Pipeline

/-! # What the hook shows of a stream

The hook keeps the chunks of a stream by their numbers and joins them in order. The events of a
job may reach it in any order, and more than once.
-/

namespace CodeRunner.React

open Transition Utf8 Session Publisher

/-- The number and the chunk of an event, after `JSON.parse`. -/
def received (ev : OutputChunkEvent) : ℕ × List Char := (ev.seq, decode ev.chunk)

/-- The join of the chunks of a buffer, in ascending order of their numbers. -/
def reassemble (buffer : List (ℕ × List Char)) : List Char :=
  ((Buffer.keys buffer).insertionSort (· ≤ ·)).flatMap fun seq => (Buffer.get buffer seq).getD []

def onStdout (buffer : List (ℕ × List Char)) (data : ℕ × List Char) : List (ℕ × List Char) :=
  Buffer.set buffer data.1 data.2

/-- What the hook shows of a stream after the delivery of some events. -/
def stdoutShown (delivered : List OutputChunkEvent) : List Char :=
  reassemble ((delivered.map received).foldl onStdout [])

variable {outputKb : Int64} {src : Stream → List UInt8} {seq : ℕ} {s : Pipeline} {i : Stream}
  {acts : List PipelineAct} {evs delivered : List OutputChunkEvent} {cs : List Char}

/-- However the events are delivered, their chunks are joined in the order of their numbers. -/
theorem stdoutShown_eq (hseq : (evs.map (·.seq)).Pairwise (· < ·))
    (hdel : ∀ ev, ev ∈ delivered ↔ ev ∈ evs) :
    stdoutShown delivered = (evs.map (·.chunk)).flatMap decode := by
  have hkeys : ((evs.map received).map Prod.fst).Pairwise (· < ·) := by
    rw [List.map_map]
    exact hseq
  have hmem : ∀ e, e ∈ delivered.map received ↔ e ∈ evs.map received := by
    intro e
    simp only [List.mem_map, hdel]
  have hfill := Buffer.flatMap_fill (fun v => v.getD []) hkeys hmem
  rw [List.flatMap_map]
  rw [List.flatMap_map] at hfill
  exact hfill

/-- When every byte of a stream of UTF-8 gets into an event, the hook shows its characters exactly
if no read and no halving of a piece cuts one. -/
theorem lossless_iff_cleanCuts (hsrc : src i = encode cs)
    (hr : run Pipeline.step (.start outputKb src seq) acts = some s)
    (hsent : (s.line i).sent.length = (src i).length)
    (hdel : ∀ ev, ev ∈ delivered ↔ ev ∈ s.events i) :
    stdoutShown delivered = cs ↔
      EveryStep Pipeline.step (CleanCuts i) (.start outputKb src seq) acts := by
  have hstart : (Pipeline.line (.start outputKb src seq) i).text = src i := rfl
  have hwhole : (Pipeline.line (.start outputKb src seq) i).Whole := ⟨nofun, nofun, valid_nil⟩
  have hle := run_text_length (i := i) hr
  have hsplit : (s.line i).text.length = (s.line i).sent.length + (s.pieces i).flatten.length +
      (pending (s.output.pump i).pc).length + (s.output.pump i).rest.length := by
    simp only [Line.text, List.length_append]
    rfl
  rw [hstart] at hle
  have hlen : (s.line i).text.length =
      (Pipeline.line (.start outputKb src seq) i).text.length := by
    rw [hstart]
    omega
  have htext := run_text hr hlen
  rw [hstart] at htext
  have hsent : (s.line i).sent = src i := by
    have hprefix : (s.line i).sent <+: src i := by
      rw [← htext, Line.text, List.append_assoc, List.append_assoc]
      exact List.prefix_append _ _
    exact hprefix.eq_of_length hsent
  have hvalid : (s.line i).Whole ↔ ∀ piece ∈ (s.events i).map (·.chunk), Valid piece := by
    rw [List.forall_mem_map]
    constructor
    · exact fun hw => hw.events
    · intro hevs
      have hpieces : (s.pieces i).flatten = [] := List.length_eq_zero_iff.mp (by omega)
      have hpending : pending (s.output.pump i).pc = [] := List.length_eq_zero_iff.mp (by omega)
      refine ⟨hevs, fun piece hp => ?_, ?_⟩
      · rw [List.flatten_eq_nil_iff.mp hpieces piece hp]
        exact valid_nil
      · change Valid (pending _)
        rw [hpending]
        exact valid_nil
  have hflat : ((s.events i).map (·.chunk)).flatten = encode cs := hsent.trans hsrc
  rw [stdoutShown_eq ((run_numbered hr).sorted i) hdel, flatMap_decode_iff hflat, ← hvalid,
    run_whole_iff hr hlen]
  exact and_iff_right hwhole

/-- The two bytes of an accented letter. -/
def accent : Stream → List UInt8
  | .stdout => [0xC3, 0xA9]
  | .stderr => []

def readTwice : List PipelineAct :=
  [.pump (.read .stdout 1 .more), .pump (.go .stdout), .pump (.go .stdout), .trigger .stdout true,
    .pump (.read .stdout 1 .eof), .pump (.go .stdout), .pump (.go .stdout), .trigger .stdout true,
    .pump (.read .stderr 0 .eof)]

def readOnce : List PipelineAct :=
  [.pump (.read .stdout 2 .eof), .pump (.go .stdout), .pump (.go .stdout), .trigger .stdout true,
    .pump (.read .stderr 0 .eof)]

theorem not_always_lossless :
    ¬ ∀ (outputKb : Int64) (K seq : ℕ) (src : Stream → List UInt8) (s : Pipeline)
      (acts : List PipelineAct) (delivered : List OutputChunkEvent) (cs : List Char),
      outputKb.toInt = K → ∑ i, (src i).length ≤ K * 1024 → src .stdout = encode cs →
        run Pipeline.step (.start outputKb src seq) acts = some s →
        (∀ i, PipelineAct.trigger i false ∉ acts) →
        (∀ i, (s.output.pump i).pc = .returned .eof ∧ s.pieces i = []) →
        (∀ ev, ev ∈ delivered ↔ ev ∈ s.events .stdout) → stdoutShown delivered = cs := by
  intro hall
  obtain ⟨s, hr, hdone, hevents⟩ :
      ∃ s, run Pipeline.step (.start 1 accent 0) readTwice = some s ∧
        (∀ i, (s.output.pump i).pc = .returned .eof ∧ s.pieces i = []) ∧
        s.events .stdout = [⟨[0xC3], 1⟩, ⟨[0xA9], 2⟩] := ⟨_, rfl, by decide, by decide⟩
  have hshown := hall 1 1 0 accent s readTwice _ ['\u00e9'] rfl (by decide) rfl hr (by decide) hdone
    fun ev => Iff.rfl
  rw [hevents] at hshown
  exact absurd hshown (by decide)

theorem readOnce_lossless :
    ∃ s, run Pipeline.step (.start 1 accent 0) readOnce = some s ∧
      stdoutShown (s.events .stdout) = ['\u00e9'] := by
  obtain ⟨s, hr, hsent⟩ : ∃ s, run Pipeline.step (.start 1 accent 0) readOnce = some s ∧
      (s.line .stdout).sent.length = 2 := ⟨_, rfl, by decide⟩
  refine ⟨s, hr, ?_⟩
  have hclean : EveryStep Pipeline.step (CleanCuts .stdout) (.start 1 accent 0) readOnce := by
    decide
  have hsrc : accent .stdout = encode ['\u00e9'] := rfl
  exact (lossless_iff_cleanCuts hsrc hr hsent fun ev => Iff.rfl).mpr hclean

end CodeRunner.React
