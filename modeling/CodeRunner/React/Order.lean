import CodeRunner.Publisher.Calls
import CodeRunner.React.Status

/-! # The order of the bytes

The hook keeps each stream of a job in a buffer of its own, and shows the pieces in the order of
the numbers that the publisher gave them.
-/

namespace CodeRunner.React

open Transition Publisher

def delivery : EventName → ℕ × List Char → Delivery
  | .stdout, data => .stdout data
  | .stderr, data => .stderr data
  | .compileOutput, data => .compileOutput data

/-- What a delivery brings for a stream. -/
def Delivery.data : EventName → Delivery → Option (ℕ × List Char)
  | .stdout, .stdout data | .stderr, .stderr data | .compileOutput, .compileOutput data => some data
  | _, _ => none

def Hook.buf (h : Hook) : EventName → List (ℕ × List Char)
  | .stdout => h.stdoutBuf
  | .stderr => h.stderrBuf
  | .compileOutput => h.compileBuf

def Hook.shown (h : Hook) : EventName → List Char
  | .stdout => h.stdout
  | .stderr => h.stderr
  | .compileOutput => h.compileOutput

variable {h : Hook} {d : Delivery} {ds : List Delivery} {name : EventName}

theorem data_eq_some {data : ℕ × List Char} : d.data name = some data ↔ d = delivery name data := by
  cases name <;> cases d <;> simp [Delivery.data, delivery]

theorem buf_deliver (h : Hook) (d : Delivery) (name : EventName) :
    (h.deliver d).buf name =
      (d.data name).elim (h.buf name) fun data => Buffer.set (h.buf name) data.1 data.2 := by
  cases d with
  | resolved wireState => cases wireState <;> cases name <;> rfl
  | _ => cases name <;> rfl

theorem shown_deliver (hshown : h.shown name = reassemble (h.buf name)) :
    (h.deliver d).shown name = reassemble ((h.deliver d).buf name) := by
  cases d with
  | stdout data | stderr data | compileOutput data =>
    cases name <;> first | rfl | exact hshown
  | resolved wireState => cases wireState <;> cases name <;> exact hshown
  | stage | result | artifact => cases name <;> exact hshown

theorem shown_eq (ds : List Delivery) (name : EventName) :
    (ds.foldl Hook.deliver .subscribed).shown name =
      reassemble (Buffer.fill (ds.filterMap (Delivery.data name))) := by
  have hfold : ∀ (ds : List Delivery) (h : Hook), h.shown name = reassemble (h.buf name) →
      (ds.foldl Hook.deliver h).shown name = reassemble
        ((ds.filterMap (Delivery.data name)).foldl (fun m e => Buffer.set m e.1 e.2)
          (h.buf name)) := by
    intro ds
    induction ds with
    | nil => exact fun _ hshown => hshown
    | cons d ds ih =>
      intro h hshown
      rw [List.foldl_cons, ih _ (shown_deliver hshown), buf_deliver, List.filterMap_cons]
      cases d.data name <;> rfl
  rw [hfold ds .subscribed (by cases name <;> rfl)]
  cases name <;> rfl

variable {s : Calls} {acts : List CallAct} {job : String} {transport : List UInt8 → List Char}

/-- The deliveries bring the output events of the job, each of them at least once. -/
def Delivers (transport : List UInt8 → List Char) (s : Calls) (job : String)
    (ds : List Delivery) : Prop :=
  ∀ name data, delivery name data ∈ ds ↔
    ∃ ev ∈ (s.lines (job, name)).events, data = (ev.seq, transport ev.chunk)

/-- The hook shows the pieces of a stream in the order in which they were triggered. -/
theorem shown_of_delivers (hi : s.Inv) (hds : Delivers transport s job ds) :
    (ds.foldl Hook.deliver .subscribed).shown name =
      (s.lines (job, name)).events.flatMap fun ev => transport ev.chunk := by
  have hasc : ((s.lines (job, name)).events.map (·.seq)).Pairwise (· < ·) :=
    (hi.ascending (job, name)).sublist (List.sublist_append_left _ _)
  let sent := (s.lines (job, name)).events.map fun ev => (ev.seq, transport ev.chunk)
  have hkeys : (sent.map Prod.fst).Pairwise (· < ·) := by
    rw [List.map_map]
    exact hasc
  have hmem : ∀ e, e ∈ ds.filterMap (Delivery.data name) ↔ e ∈ sent := by
    intro e
    simp only [List.mem_filterMap, data_eq_some, exists_eq_right, hds name e, sent, List.mem_map]
    simp only [eq_comm]
  rw [shown_eq, reassemble, Buffer.flatMap_fill (fun v => v.getD []) hkeys hmem, List.flatMap_map]
  rfl

/-- The loop that splits a chunk ends, with pieces that make up the chunk. In every run of
concurrent calls the numbers that a job has taken are the first ones, each once, and the calls can
be carried on until they have returned. Then the events have these numbers, and however they reach
the hook, the text of each stream stands for the bytes that the calls on it have been given, in
the order of the calls, if every piece is transported unchanged. -/
theorem publisher_client_agree (hr : run Calls.step .start acts = some s) :
    (∀ chunk n, chunk.length ≤ n → splitLoop n chunk = splitLoop chunk.length chunk ∧
        (splitLoop n chunk).flatten = chunk ∧ (splitChunk chunk).flatten = chunk) ∧
      ∀ job, (s.numbers job).Perm (List.range' 1 (s.seq job)) ∧
        (∃ more s', run Calls.step s more = some s' ∧
          (∀ a ∈ more, ∃ name, a.Continues (job, name)) ∧ s'.Returned job) ∧
        (s.Returned job →
          (([.stdout, .stderr, .compileOutput] : List EventName).flatMap fun name =>
            (s.lines (job, name)).events.map (·.seq)).Perm (List.range' 1 (s.seq job)) ∧
          ∀ (transport : List UInt8 → List Char) (bytes : Char → List UInt8) (ds : List Delivery),
            Delivers transport s job ds →
            (∀ name, ∀ ev ∈ (s.lines (job, name)).events,
              (transport ev.chunk).flatMap bytes = ev.chunk) →
            ∀ name, ((ds.foldl Hook.deliver .subscribed).shown name).flatMap bytes =
              (called (job, name) acts).flatten) := by
  have hi := run_inv hr
  constructor
  · intro chunk n hn
    exact ⟨splitLoop_of_le hn (Nat.le_refl _), flatten_splitLoop hn, flatten_splitChunk chunk⟩
  · intro job
    refine ⟨hi.numbered job, exists_returned s job, fun hreturned => ⟨?_, ?_⟩⟩
    · have hperm := hi.numbered job
      simp only [Calls.numbers, hi.events_numbers (hreturned _)] at hperm
      simpa [List.append_assoc] using hperm
    · intro transport bytes ds hds hsame name
      have hchunks : (s.lines (job, name)).chunks = called (job, name) acts := run_chunks hr _
      rw [shown_of_delivers hi hds, ← hchunks, ← hi.sent (hreturned name), CallLine.sent,
        List.flatMap_assoc, ← List.flatMap_def]
      exact List.flatMap_congr fun ev hev => hsame name ev hev

/-- Two streams of a job: the second call takes its number before the first has triggered. -/
def twoStreams : List CallAct :=
  [.call ("1", .stdout) [0x68, 0x69], .nextSeq ("1", .stdout), .call ("1", .stderr) [0x21],
    .nextSeq ("1", .stderr), .trigger ("1", .stderr), .trigger ("1", .stdout)]

/-- The events arrive in the order of the triggers, and the first once more. -/
def threeDeliveries : List Delivery :=
  [.stderr (2, ['!']), .stdout (1, ['h', 'i']), .stderr (2, ['!'])]

theorem publisher_client_agree_twoStreams :
    ((threeDeliveries.foldl Hook.deliver .subscribed).shown .stdout).flatMap
        String.utf8EncodeChar = [0x68, 0x69] ∧
      ((threeDeliveries.foldl Hook.deliver .subscribed).shown .stderr).flatMap
        String.utf8EncodeChar = [0x21] := by
  have hlines : (run Calls.step .start twoStreams).map (fun s =>
      ((s.lines ("1", .stdout)).events, (s.lines ("1", .stderr)).events,
        (s.lines ("1", .compileOutput)).events)) =
          some ([⟨[0x68, 0x69], 1⟩], [⟨[0x21], 2⟩], []) := by decide +kernel
  have hpieces : ∀ name, (run Calls.step .start twoStreams).map (fun s =>
      (s.lines ("1", name)).pieces) = some [] := by
    intro name
    cases name <;> decide +kernel
  obtain ⟨s, hr, hevents⟩ := Option.map_eq_some_iff.mp hlines
  simp only [Prod.mk.injEq] at hevents
  obtain ⟨hout, herr, hlog⟩ := hevents
  have hreturned : s.Returned "1" := by
    intro name
    have hname := hpieces name
    rw [hr] at hname
    exact Option.some.inj hname
  have hds : Delivers Utf8.decode s "1" threeDeliveries := by
    have hhi : Utf8.decode [0x68, 0x69] = ['h', 'i'] := by decide
    have hmark : Utf8.decode [0x21] = ['!'] := by decide
    intro name data
    cases name with
    | stdout => simp [hout, hhi, delivery, threeDeliveries]
    | stderr => simp [herr, hmark, delivery, threeDeliveries]
    | compileOutput => simp [hlog, delivery, threeDeliveries]
  have hsame : ∀ name, ∀ ev ∈ (s.lines ("1", name)).events,
      (Utf8.decode ev.chunk).flatMap String.utf8EncodeChar = ev.chunk := by
    intro name
    cases name with
    | stdout => rw [hout, List.forall_mem_singleton]; decide
    | stderr => rw [herr, List.forall_mem_singleton]; decide
    | compileOutput => rw [hlog]; nofun
  have hshown := (((publisher_client_agree hr).2 "1").2.2 hreturned).2 _ _ _ hds hsame
  exact ⟨hshown .stdout, hshown .stderr⟩

end CodeRunner.React
