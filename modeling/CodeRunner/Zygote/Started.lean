import CodeRunner.Zygote.Payloads

/-! # The handshake of a job

The worker writes HELLO and waits for STARTED. It has the PID and the leaf that the agent made for
its HELLO exactly if nothing raised in the agent, and whatever follows STARTED is left for the
reader of the connection.
-/

namespace CodeRunner.Zygote

open Json Relay

inductive StartError where
  | read (err : RelayError)
  | decode
  | failed (text : List UInt8)
  | exited
  deriving DecidableEq, Repr

/-- `readStarted`, with the reads that it leaves to `startReader`. A frame has five bytes at least,
so that the first argument is enough when it is the length of the stream. -/
def readStartedFuel (fin : ConnEnd) : ℕ → List (List UInt8) →
    Except StartError (StartedPayload × List (List UInt8))
  | 0, _ => .error .exited
  | n + 1, reads =>
    match (decoderNext fin reads).1 with
    | .error err => .error (.read err)
    | .ok (f, reads) =>
      if f.ftype = tStarted then
        match unmarshal StartedPayload.member ⟨0, false⟩ f.payload with
        | (s, true) => .ok (s, reads)
        | (_, false) => .error .decode
      else if f.ftype = tExit then
        let e := unmarshalExit f.payload
        .error (if e.error ≠ [] then .failed e.error else .exited)
      else readStartedFuel fin n reads

def readStarted (fin : ConnEnd) (reads : List (List UInt8)) :
    Except StartError (StartedPayload × List (List UInt8)) :=
  readStartedFuel fin (reads.flatten.length + 1) reads

variable {fin : ConnEnd} {reads reads' : List (List UInt8)} {rest : List UInt8} {f : Relay.Frame}
  {fs : List Relay.Frame} {p : HelloPayload} {env : Env} {realpid : ℕ} {leaf : Bool} {n : ℕ}

theorem decoderNext_bytes (hf : f.payload.length ≤ maxFramePayload)
    (h : reads.flatten = f.bytes ++ rest) :
    ∃ reads', (decoderNext fin reads).1 = .ok (f, reads') ∧ reads'.flatten = rest := by
  have hnext : frameDecoder.next reads.flatten = some (f, rest) := by
    rw [h, frameDecoder_bytes hf]
  rcases decoderNext_cases fin reads with ⟨g, reads', hdec, hg⟩ | ⟨e, -, hnone⟩
  · obtain ⟨rfl, hrest⟩ := Prod.mk.inj (Option.some.inj (hg.symm.trans hnext))
    exact ⟨reads', hdec, hrest⟩
  · cases hnone.symm.trans hnext

theorem decoderNext_torn (hf : f.payload.length ≤ maxFramePayload) (hn : n < f.bytes.length)
    (h : reads.flatten = f.bytes.take n) : ∃ e, (decoderNext fin reads).1 = .error e := by
  have hwhole := frameDecoder_bytes hf []
  rw [List.append_nil, ← List.take_append_drop n f.bytes] at hwhole
  have hmore : f.bytes.drop n ≠ [] := by simpa using hn
  have hnone := frameDecoder.next_of_cut hwhole hmore
  rcases decoderNext_cases fin reads with ⟨g, reads', -, hg⟩ | ⟨e, herr, -⟩
  · rw [h, hnone] at hg
    cases hg
  · exact ⟨e, herr⟩

theorem readStartedFuel_eq {m n : ℕ} (hm : reads.flatten.length < m)
    (hn : reads.flatten.length < n) :
    readStartedFuel fin m reads = readStartedFuel fin n reads := by
  induction m generalizing n reads with
  | zero => omega
  | succ m ih =>
    obtain ⟨n, rfl⟩ : ∃ k, n = k + 1 := ⟨n - 1, by omega⟩
    unfold readStartedFuel
    rcases decoderNext_cases fin reads with ⟨g, reads', hdec, hg⟩ | ⟨e, herr, -⟩
    · have hlen := length_of_next hg
      have hrest : readStartedFuel fin m reads' = readStartedFuel fin n reads' :=
        ih (by omega) (by omega)
      rw [hdec]
      dsimp only
      rw [hrest]
    · rw [herr]

theorem readStarted_error {err : RelayError} (h : (decoderNext fin reads).1 = .error err) :
    readStarted fin reads = .error (.read err) := by
  rw [readStarted, readStartedFuel, h]

theorem readStarted_started {s : StartedPayload}
    (h : (decoderNext fin reads).1 = .ok (f, reads')) (ht : f.ftype = tStarted)
    (hs : unmarshal StartedPayload.member ⟨0, false⟩ f.payload = (s, true)) :
    readStarted fin reads = .ok (s, reads') := by
  rw [readStarted, readStartedFuel, h]
  dsimp only
  rw [if_pos ht, hs]

theorem readStarted_stray (h : (decoderNext fin reads).1 = .ok (f, reads'))
    (hstarted : f.ftype ≠ tStarted) (hexit : f.ftype ≠ tExit) :
    readStarted fin reads = readStarted fin reads' := by
  have hlen : reads'.flatten.length < reads.flatten.length := by
    rcases decoderNext_cases fin reads with ⟨g, reads₁, hdec, hg⟩ | ⟨e, herr, -⟩
    · cases hdec.symm.trans h
      have hlen := length_of_next hg
      omega
    · cases herr.symm.trans h
  rw [readStarted, readStartedFuel, h]
  dsimp only
  rw [if_neg hstarted, if_neg hexit]
  exact readStartedFuel_eq hlen (Nat.lt_succ_self _)

theorem startedFrame_length (h : realpid < 2 ^ 63) :
    (startedFrame realpid leaf).payload.length ≤ maxFramePayload := by
  have hrepr : realpid.repr.length ≤ 19 :=
    (Nat.length_repr_le_iff (by decide)).mpr (lt_trans h (by norm_num))
  have hkey : "\x7b\"realpid\": ".length = 12 := by decide
  have hleaf : ", \"cgroupEnforced\": ".length = 20 := by decide
  have hclose : "\x7d".length = 1 := by decide
  have hbool : (jsonBool leaf).length ≤ 5 := by cases leaf <;> decide
  simp only [startedFrame, jsonBytes, List.length_map, String.toList_append, List.length_append,
    String.length_toList, hkey, hleaf, hclose]
  norm_num [maxFramePayload]
  omega

theorem readStarted_bytes (hpid : realpid < 2 ^ 63)
    (hfs : ∀ f ∈ fs, f.ftype ≠ tStarted ∧ f.ftype ≠ tExit ∧ f.payload.length ≤ maxFramePayload)
    (h : reads.flatten = fs.flatMap Frame.bytes ++ ((startedFrame realpid leaf).bytes ++ rest)) :
    ∃ reads', readStarted fin reads = .ok (⟨realpid, leaf⟩, reads') ∧ reads'.flatten = rest := by
  induction fs generalizing reads with
  | nil =>
    obtain ⟨reads', hdec, hrest⟩ :=
      decoderNext_bytes (startedFrame_length hpid) h
    have hs := unmarshal_started realpid leaf
    rw [if_pos hpid] at hs
    exact ⟨reads', readStarted_started hdec rfl hs, hrest⟩
  | cons g fs ih =>
    obtain ⟨⟨hstarted, hexit, hlen⟩, hfs⟩ := List.forall_mem_cons.mp hfs
    rw [List.flatMap_cons, List.append_assoc] at h
    obtain ⟨reads₁, hdec, hrest⟩ := decoderNext_bytes hlen h
    obtain ⟨reads', hread, hrest'⟩ := ih hfs hrest
    exact ⟨reads', (readStarted_stray hdec hstarted hexit).trans hread, hrest'⟩

/-- A session PID fits into 63 bits, and a send that raises has left bytes out. -/
structure Env.Sane (env : Env) : Prop where
  pid : ∀ params realpid, env.spawn params = .returned realpid → realpid < 2 ^ 63
  short : ∀ fault ∈ env.startedFault, ∀ realpid leaf,
    fault.sent < (startedFrame realpid leaf).bytes.length

/-- The agent's HELLO is the payload that the worker wrote. -/
def Env.Hears (env : Env) (p : HelloPayload) : Prop :=
  ∀ hello, env.loads = .ok hello ↔ loadsHello p.marshal = some hello

/-- Nothing raises in the agent before STARTED is sent. -/
def Env.Starts (env : Env) (p : HelloPayload) (realpid : ℕ) : Prop :=
  (∀ pair, env.socketpair pair = none) ∧ env.startedFault = none ∧
    env.spawn (readHello p.toHello env.uidBase env.n) = .returned realpid

theorem opens_iff (hhears : env.Hears p) {hello : Hello} :
    env.Opens realpid hello ↔ hello = p.toHello ∧ env.Starts p realpid := by
  have hloads : env.loads = .ok hello ↔ hello = p.toHello := by
    rw [hhears, loadsHello_marshal, Option.some.injEq, eq_comm]
  rw [Env.Opens, hloads]
  constructor
  · rintro ⟨rfl, hpair, hspawn, hfault⟩
    exact ⟨rfl, hpair, hfault, hspawn⟩
  · rintro ⟨rfl, hpair, hfault, hspawn⟩
    exact ⟨rfl, hpair, hspawn, hfault⟩

theorem sent_of_opens {hello : Hello} (h : env.Opens realpid hello) :
    ∃ rest, env.handleJob.sent = (env.started realpid hello).bytes ++ rest := by
  obtain ⟨early, tail, htrace, -, -, -, hhead, -⟩ := handleJob_trace h
  obtain ⟨early, rfl⟩ := List.head?_eq_some_iff.mp hhead
  refine ⟨(early ++ tail).flatMap Event.bytes, ?_⟩
  rw [Job.sent, htrace]
  simp [Event.bytes]

theorem readStarted_unopened (hsane : env.Sane) (h : ∀ realpid hello, ¬ env.Opens realpid hello)
    (hreads : reads.flatten = env.handleJob.sent) :
    ∃ err, readStarted fin reads = .error (.read err) := by
  obtain ⟨f, n, hf, hn, hsent⟩ : ∃ (f : Relay.Frame) (n : ℕ),
      f.payload.length ≤ maxFramePayload ∧ n < f.bytes.length ∧
        env.handleJob.sent = f.bytes.take n := by
    rcases (handleJob_unopened h).2 with hnil | ⟨realpid, hello, fault, hfault, hspawn, hsent⟩
    · exact ⟨startedFrame 0 false, 0, startedFrame_length (Nat.two_pow_pos 63),
        Nat.succ_pos _, hnil⟩
    · exact ⟨env.started realpid hello, fault.sent, startedFrame_length (hsane.pid _ _ hspawn),
        hsane.short fault hfault _ _, hsent⟩
  obtain ⟨err, herr⟩ := decoderNext_torn hf hn (hreads.trans hsent)
  exact ⟨err, readStarted_error herr⟩

/-- A worker that wrote a HELLO is told of the session that the agent spawned for it, and has what
follows still to read; or the connection breaks off if something raised in the agent. -/
theorem handshake (hhears : env.Hears p) (hsane : env.Sane)
    (hreads : reads.flatten = env.handleJob.sent) :
    (∀ realpid, env.Starts p realpid →
      ∃ leaf reads', leaf = env.leaf realpid (readHello p.toHello env.uidBase env.n) ∧
        readStarted fin reads = .ok (⟨realpid, leaf⟩, reads') ∧
        env.handleJob.sent = (startedFrame realpid leaf).bytes ++ reads'.flatten) ∧
      ((∀ realpid, ¬ env.Starts p realpid) →
        ∃ err, readStarted fin reads = .error (.read err)) := by
  constructor
  · intro realpid hstarts
    obtain ⟨rest, hsent⟩ := sent_of_opens ((opens_iff hhears).mpr ⟨rfl, hstarts⟩)
    obtain ⟨reads', hread, hrest⟩ := readStarted_bytes 
      (hsane.pid _ _ hstarts.2.2) (fun _ hf => absurd hf List.not_mem_nil) (hreads.trans hsent)
    exact ⟨_, reads', rfl, hread, by rw [hrest]; exact hsent⟩
  · intro hnot
    refine readStarted_unopened hsane (fun realpid hello hopens => ?_) hreads
    exact hnot realpid ((opens_iff hhears).mp hopens).2

def printOne : HelloPayload where
  jobId := "1"
  entrypoint := "main.py"
  files := [⟨"main.py", "print(1)", ""⟩]
  uid := 100000
  memMaxBytes := 134217728
  pidsMax := 64
  tmpfsBytes := 67108864

/-- Nothing raises, and the session has PID 42, prints a line and leaves a file. -/
def printsOne : Env where
  uidBase := 100000
  n := 0
  loads := .ok printOne.toHello
  socketpair _ := none
  spawn _ := .returned 42
  leaf _ _ := true
  startedFault := none
  relayed := [⟨⟨tStdout, [0x31, 0x0A]⟩, by decide, none⟩]
  relay := .ok (⟨some 0, none⟩, [⟨"a", [0x41]⟩])
  artifactFault _ := none
  room := 65536
  exitFault := none

theorem printsOne_hears : printsOne.Hears printOne := by
  intro hello
  rw [loadsHello_marshal, Option.some.injEq]
  exact ⟨fun h => by injection h, fun h => by rw [← h]; rfl⟩

theorem printsOne_sane : printsOne.Sane where
  pid params realpid h := by
    obtain rfl : 42 = realpid := Spawned.returned.inj h
    decide
  short := nofun

theorem handshake_printsOne :
    ∃ reads', readStarted .eof [printsOne.handleJob.sent] = .ok (⟨42, true⟩, reads') := by
  obtain ⟨leaf, reads', hleaf, hread, -⟩ := (handshake printsOne_hears printsOne_sane
    (List.flatten_singleton ..)).1 42 ⟨fun _ => rfl, rfl, rfl⟩
  obtain rfl : leaf = true := hleaf
  exact ⟨reads', hread⟩

end CodeRunner.Zygote
