import CodeRunner.Worker.Control

/-! # The start handshake

The API sets the start flag and then publishes the start, the handler subscribes and later reads
the flag. The subscription becomes active when Redis takes it, on a connection of its own, which
can be after the flag has been read.
-/

namespace CodeRunner.Worker

open PubSub Transition

/-- The control channel with what the two sides have done. `published` is set once the API has
published a start, `read` is what the flag read has given, and `arrived` says that a start has
been put on the control channel. -/
structure Handshake where
  line : Line
  published : Bool
  read : Option Bool
  arrived : Bool

namespace Handshake

def start (job : Job) : Handshake := ⟨.start job, false, none, false⟩

/-- What is known of the flag after a step. A failing read, and one of a flag that has expired,
count as no start. -/
def nextRead (h : Handshake) : Act → Option Bool
  | .call ok =>
    match h.line.handler.pc with
    | .startFlag _ => some (ok && h.line.handler.startFlag)
    | _ => h.read
  | _ => h.read

def brings (h : Handshake) : Bool :=
  decide (h.line.sub.inflight.head? = some .start) &&
    decide (h.line.handler.ctrlCh.length < ctrlCap)

def step (h : Handshake) : LineAct → Option Handshake
  | .request msg => (h.line.step (.request msg)).map fun line =>
    { h with line := line, published := h.published || decide (msg = .start) }
  | .activate => (h.line.step .activate).map fun line => { h with line := line }
  | .arrive => (h.line.step .arrive).map fun line =>
    { h with line := line, arrived := h.arrived || h.brings }
  | .act a => (h.line.step (.act a)).map fun line => { h with line := line, read := h.nextRead a }

/-- A start is in flight to the handler, or has been put on its control channel. -/
def Caught (h : Handshake) : Prop := .start ∈ h.line.sub.inflight ∨ h.arrived = true

instance (h : Handshake) : Decidable h.Caught := inferInstanceAs (Decidable (_ ∨ _))

/-- Once both sides are done, a handler that listens has found the flag or is to get the start. -/
def Sees (h : Handshake) : Prop :=
  h.line.handler.listens = true → h.published = true → h.read = some false → h.Caught

instance (h : Handshake) : Decidable h.Sees := inferInstanceAs (Decidable (_ → _ → _ → _))

end Handshake

def Pc.readsFlag : Pc → Bool
  | .startFlag _ => true
  | _ => false

/-- A start for a handler that has found no flag is published to an active subscription and finds
room in the control channel, and a read of the flag that comes after a start neither fails nor
comes after the flag has expired. One start that is caught is enough. -/
def InTime (h : Handshake) : LineAct → Prop
  | .request .start => h.line.handler.listens = true → h.read = some false →
      h.line.sub.active = true ∨ h.Caught
  | .arrive => h.line.handler.listens = true → h.published = true → h.read = some false →
      h.line.sub.inflight.head? = some .start →
        h.line.handler.ctrlCh.length < ctrlCap ∨ .start ∈ h.line.sub.inflight.tail ∨
          h.arrived = true
  | .act (.call ok) => h.line.handler.listens = true →
      h.line.handler.pc.readsFlag = true → h.published = true →
        (ok && h.line.handler.startFlag) = true ∨ h.Caught
  | _ => True

instance (h : Handshake) : (la : LineAct) → Decidable (InTime h la)
  | .request .start => inferInstanceAs (Decidable (_ → _ → _ ∨ _))
  | .arrive => inferInstanceAs (Decidable (_ → _ → _ → _ → _ ∨ _ ∨ _))
  | .act (.call _) => inferInstanceAs (Decidable (_ → _ → _ → _ ∨ _))
  | .request .stdinClose | .request .kill | .activate => inferInstanceAs (Decidable True)
  | .act .lost | .act .contextDone | .act .warmup | .act .receive | .act .watch | .act .expire
  | .act (.compileExit _) | .act .compileFails | .act (.touch _) | .act .resume | .act .pump
  | .act .waitReturns | .act .wall | .act .idle | .act (.cpu _) | .act .effect
  | .act .requestStart | .act (.deliver _) | .act .cancel | .act .poll | .act .spawn | .act .exit
  | .act .activity | .act .writeMarker | .act (.tick _) => inferInstanceAs (Decidable True)

variable {h h' t : Handshake} {l l' : Line} {la : LineAct} {s s' : Handler} {a : Act} {job : Job}

theorem past_begin (s : Handler) : s.begin.pc.past = true := by
  rcases pc_begin s with h | ⟨wallMs, h⟩ <;> rw [h] <;> rfl

theorem past_compiled (s : Handler) (since : ℕ) (ok : Bool) :
    (s.compiled since ok).pc.past = true := by
  rcases pc_compiled s since ok with ⟨wallMs, h⟩ | ⟨state, h⟩ <;> rw [h] <;> rfl

theorem step_past (h : s.step a = some s') (hs : s.pc.past = true) : s'.pc.past = true := by
  cases step_branch h with
  | readSpec hpc | readSpecFails hpc | subscribe hpc | subscribeFails hpc | subscribeControl hpc
  | subscribeControlFails hpc | announceQueued _ hpc | resolveBlobs hpc | resolveBlobsFails hpc
  | addOwned _ hpc | create _ _ hpc | createLost hpc | startLost hpc | parks _ _ hpc =>
    rw [hpc] at hs
    cases hs
  | durableStart | parkedStart => exact past_begin _
  | compileExits | compileFails | touchFails | resumes => exact past_compiled _ _ _
  | announceRunning | contextDone | warmup | parkedKill | compileSucceeds | touches | waitReturns
  | wall | idle | cpu | effect => rfl
  | _ => exact hs

theorem ctrlSub_of_past (hs : s.pc.past = true) (hl : s.listens = true) : s.ctrlSub = true := by
  refine ctrlSub_of_listens hl rfl ?_
  intro hpc
  rw [hpc] at hs
  cases hs

theorem listens_of_step (h : s.step a = some s') (hs : s.pc.past = true)
    (hl : s'.listens = true) : s.listens = true := by
  have hl' : s'.ctrlSub = true := ctrlSub_of_past (step_past h hs) hl
  apply listens_of_ctrlSub
  cases step_branch h with
  | subscribeControl hpc | subscribeControlFails hpc =>
    rw [hpc] at hs
    cases hs
  | create ok pc hpc =>
    rw [hpc] at hs
    cases hs
  | durableStart | parkedStart =>
    rw [begin_eq] at hl'
    exact hl'
  | compileExits | compileFails | touchFails | resumes =>
    rw [compiled_eq] at hl'
    exact hl'
  | effect e todo hpc =>
    cases e with
    | closeCtrlSub => cases hl'
    | _ => exact hl'
  | _ => exact hl'

def Handshake.Ordered (h : Handshake) : Prop :=
  h.read.isSome = true → h.line.handler.pc.past = true

def ReadsFlag (s : Handler) (a : Act) : Prop :=
  ∃ deadline ok, s.pc = .startFlag deadline ∧ a = .call ok

theorem nextRead_of_not (ha : ¬ ReadsFlag h.line.handler a) : h.nextRead a = h.read := by
  unfold Handshake.nextRead
  split
  · split
    · next deadline hpc => exact absurd ⟨deadline, _, hpc, rfl⟩ ha
    · rfl
  · rfl

theorem nextRead_of_startFlag {deadline : ℕ} (hpc : h.line.handler.pc = .startFlag deadline)
    (ok : Bool) : h.nextRead (.call ok) = some (ok && h.line.handler.startFlag) := by
  simp [Handshake.nextRead, hpc]

inductive HandshakeTurn (h : Handshake) : LineAct → Handshake → Prop where
  | request (msg : Control) (accepted : Bool) :
      HandshakeTurn h (.request msg)
        { h with
          line := { h.line with sub := h.line.sub.publish msg, accepted := accepted }
          published := h.published || decide (msg = .start) }
  | activate :
      HandshakeTurn h .activate
        { h with line := { h.line with sub := h.line.sub.activate } }
  | arrive (msg : Control) (sub : Subscription Control) (s' : Handler)
      (hin : h.line.sub.inflight = msg :: sub.inflight)
      (hstep : h.line.handler.step (.deliver msg) = some s') :
      HandshakeTurn h .arrive
        { h with
          line := { h.line with handler := s', sub := sub }
          arrived := h.arrived ||
            decide (msg = .start) && decide (h.line.handler.ctrlCh.length < ctrlCap) }
  | act (a : Act) (s' : Handler) (hstep : h.line.handler.step a = some s') :
      HandshakeTurn h (.act a) { h with line := h.line.after a s', read := h.nextRead a }

theorem handshake_turn (hs : h.step la = some h') : HandshakeTurn h la h' := by
  cases la with
  | request msg =>
    obtain ⟨line, hl, rfl⟩ := Option.map_eq_some_iff.mp hs
    obtain ⟨-, hl⟩ := Option.ite_none_right_eq_some.mp hl
    obtain rfl := Option.some.inj hl
    exact .request msg _
  | activate =>
    obtain ⟨line, hl, rfl⟩ := Option.map_eq_some_iff.mp hs
    obtain ⟨-, hl⟩ := Option.ite_none_right_eq_some.mp hl
    obtain rfl := Option.some.inj hl
    exact .activate
  | arrive =>
    obtain ⟨line, hl, rfl⟩ := Option.map_eq_some_iff.mp hs
    simp only [Line.step] at hl
    split at hl
    · next msg sub htake =>
      obtain ⟨s', hstep, rfl⟩ := Option.map_eq_some_iff.mp hl
      obtain ⟨hin, -⟩ := Subscription.take?_eq_some.mp htake
      have hhead : decide (h.line.sub.inflight.head? = some .start) = decide (msg = .start) :=
        decide_eq_decide.mpr (by rw [hin, List.head?_cons, Option.some.injEq])
      rw [Handshake.brings, hhead]
      exact .arrive msg sub s' hin hstep
    · cases hl
  | act a =>
    obtain ⟨line, hl, rfl⟩ := Option.map_eq_some_iff.mp hs
    obtain ⟨-, hl⟩ := Option.ite_none_left_eq_some.mp hl
    obtain ⟨s', hstep, rfl⟩ := Option.map_eq_some_iff.mp hl
    exact .act a s' hstep

theorem startFlag_past {ok : Bool} {deadline : ℕ} (h : s.step (.call ok) = some s')
    (hpc : s.pc = .startFlag deadline) : s'.pc.past = true := by
  simp only [Handler.step, Handler.call, hpc] at h
  split at h
  · obtain rfl := Option.some.inj h
    exact past_begin _
  · obtain rfl := Option.some.inj h
    rfl

theorem startFlag_listens {ok : Bool} {deadline : ℕ} (h : s.step (.call ok) = some s')
    (hpc : s.pc = .startFlag deadline) : s'.listens = s.listens := by
  have hne : s.pc ≠ .subscribeControl := by
    rw [hpc]
    nofun
  have hne' : s'.pc ≠ .subscribeControl := by
    intro hpc'
    have hpast := startFlag_past h hpc
    rw [hpc'] at hpast
    cases hpast
  have hctrl : s'.ctrlSub = s.ctrlSub := by
    simp only [Handler.step, Handler.call, hpc] at h
    split at h
    · obtain rfl := Option.some.inj h
      rw [begin_eq]
    · obtain rfl := Option.some.inj h
      rfl
  rw [Handler.listens, Handler.listens, decide_eq_false hne, decide_eq_false hne', hctrl]

theorem handshake_ordered (ho : h.Ordered) (hs : h.step la = some h') : h'.Ordered := by
  cases handshake_turn hs with
  | request | activate => exact ho
  | arrive msg sub s' hin hstep => exact fun hr => step_past hstep (ho hr)
  | act a s' hstep =>
    intro hr
    by_cases ha : ReadsFlag h.line.handler a
    · obtain ⟨deadline, ok, hpc, rfl⟩ := ha
      exact startFlag_past hstep hpc
    · exact step_past hstep (ho (nextRead_of_not ha ▸ hr))

theorem request_sees_iff (hsees : h.Sees) (msg : Control) (accepted : Bool) :
    Handshake.Sees
        { h with
          line := { h.line with sub := h.line.sub.publish msg, accepted := accepted }
          published := h.published || decide (msg = .start) } ↔
      InTime h (.request msg) := by
  have hkeeps : h.Caught →
      .start ∈ (h.line.sub.publish msg).inflight ∨ h.arrived = true := fun hc =>
    hc.imp_left Subscription.mem_publish_of_mem
  cases msg with
  | start =>
    constructor
    · intro hsees' hlistens hread
      rcases hsees' hlistens (Bool.or_true _) hread with hmem | harr
      · cases hactive : h.line.sub.active with
        | true => exact .inl rfl
        | false =>
          dsimp only at hmem
          rw [Subscription.publish_of_inactive hactive] at hmem
          exact .inr (.inl hmem)
      · exact .inr (.inr harr)
    · intro hg hlistens _ hread
      rcases hg hlistens hread with hactive | hc
      · left
        dsimp only
        rw [Subscription.inflight_publish hactive]
        exact List.mem_append_right _ List.mem_cons_self
      · exact hkeeps hc
  | stdinClose | kill =>
    refine iff_of_true (fun hlistens hp hread => ?_) True.intro
    exact hkeeps (hsees hlistens ((Bool.or_false _).symm.trans hp) hread)

theorem caught_after (hlistens : s'.listens = true) :
    (.start ∈ (h.line.after a s').sub.inflight ∨ h.arrived = true) ↔ h.Caught := by
  rw [Line.after, if_pos hlistens, Handshake.Caught]

theorem startFlag_sees_iff {deadline : ℕ} {ok : Bool}
    (hpc : h.line.handler.pc = .startFlag deadline)
    (hstep : h.line.handler.step (.call ok) = some s') :
    Handshake.Sees
        { h with line := h.line.after (.call ok) s', read := h.nextRead (.call ok) } ↔
      InTime h (.act (.call ok)) := by
  have hread := nextRead_of_startFlag hpc ok
  have hlistens := startFlag_listens hstep hpc
  constructor
  · intro hsees' hl _ hp
    cases hflag : (ok && h.line.handler.startFlag) with
    | true => exact .inl rfl
    | false =>
      rw [hflag] at hread
      have hl' := hlistens.trans hl
      exact .inr ((caught_after hl').mp (hsees' hl' hp hread))
  · intro hg hl' hp hread'
    change h.nextRead (.call ok) = some false at hread'
    rw [hread, Option.some.injEq] at hread'
    rcases hg (hlistens.symm.trans hl') (hpc ▸ rfl) hp with hflag | hc
    · rw [hread'] at hflag
      cases hflag
    · exact (caught_after hl').mpr hc

theorem sees_of_not_readsFlag (ho : h.Ordered) (hsees : h.Sees)
    (ha : ¬ ReadsFlag h.line.handler a) (hstep : h.line.handler.step a = some s') :
    Handshake.Sees { h with line := h.line.after a s', read := h.nextRead a } := by
  intro hl' hp hread'
  have hread := nextRead_of_not ha
  change h.nextRead a = some false at hread'
  rw [hread] at hread'
  have hpast := ho (by rw [hread']; rfl)
  exact (caught_after hl').mpr (hsees (listens_of_step hstep hpast hl') hp hread')

theorem inTime_of_not_readsFlag (ha : ¬ ReadsFlag h.line.handler a) : InTime h (.act a) := by
  cases a with
  | call ok =>
    intro _ hreads
    cases hpc : h.line.handler.pc with
    | startFlag deadline => exact absurd ⟨deadline, ok, hpc, rfl⟩ ha
    | _ => rw [hpc] at hreads; cases hreads
  | _ => exact True.intro

/-- A start that arrives is lost if the channel is full and no other start is caught. -/
theorem arrive_sees_iff (hsees : h.Sees) {msg : Control} {sub : Subscription Control}
    (hin : h.line.sub.inflight = msg :: sub.inflight)
    (hstep : h.line.handler.step (.deliver msg) = some s') :
    Handshake.Sees
        { h with
          line := { h.line with handler := s', sub := sub }
          arrived := h.arrived ||
            decide (msg = .start) && decide (h.line.handler.ctrlCh.length < ctrlCap) } ↔
      InTime h .arrive := by
  have hlistens : s'.listens = h.line.handler.listens := by
    cases step_branch hstep with
    | deliver => rfl
  have hhead : h.line.sub.inflight.head? = some .start ↔ msg = .start := by
    rw [hin, List.head?_cons, Option.some.injEq]
  have htail : h.line.sub.inflight.tail = sub.inflight := by rw [hin, List.tail_cons]
  constructor
  · intro hsees' hl hp hread hmsg
    rcases hsees' (hlistens.trans hl) hp hread with hmem | harr
    · exact .inr (.inl (htail ▸ hmem))
    · rcases Bool.or_eq_true_iff.mp harr with harr | hbrings
      · exact .inr (.inr harr)
      · exact .inl (of_decide_eq_true (Bool.and_eq_true_iff.mp hbrings).2)
  · intro hg hl hp hread
    have hl' := hlistens.symm.trans hl
    by_cases hmsg : msg = .start
    · rcases hg hl' hp hread (hhead.mpr hmsg) with hroom | hmem | harr
      · exact .inr (by simp [hmsg, hroom])
      · exact .inl (htail ▸ hmem)
      · exact .inr (Bool.or_eq_true_iff.mpr (.inl harr))
    · rcases hsees hl' hp hread with hmem | harr
      · rw [hin] at hmem
        exact .inl ((List.mem_cons.mp hmem).resolve_left (Ne.symm hmsg))
      · exact .inr (Bool.or_eq_true_iff.mpr (.inl harr))

theorem sees_iff_of_step (ho : h.Ordered) (hsees : h.Sees) (hs : h.step la = some h') :
    h'.Sees ↔ InTime h la := by
  cases handshake_turn hs with
  | request msg accepted => exact request_sees_iff hsees msg accepted
  | activate => exact iff_of_true hsees True.intro
  | arrive msg sub s' hin hstep => exact arrive_sees_iff hsees hin hstep
  | act a s' hstep =>
    by_cases ha : ReadsFlag h.line.handler a
    · obtain ⟨deadline, ok, hpc, rfl⟩ := ha
      exact startFlag_sees_iff hpc hstep
    · exact iff_of_true (sees_of_not_readsFlag ho hsees ha hstep) (inTime_of_not_readsFlag ha)

/-- In a run every start is seen exactly if it is in time. -/
theorem sees_iff_inTime {las : List LineAct} (hr : run Handshake.step (.start job) las = some t) :
    Always Handshake.step Handshake.Sees (.start job) las ↔
      EveryStep Handshake.step InTime (.start job) las := by
  have hstart : (Handshake.start job).Ordered := nofun
  exact always_iff_everyStep_of (W := fun _ _ => True) (J := Handshake.Ordered)
    (fun _ _ _ ho _ hs => handshake_ordered ho hs)
    (fun _ _ _ ho _ hsees _ hs => sees_iff_of_step ho hsees hs) hstart
    (fun _ hp => nomatch hp) .trivial hr

/-- The calls of the handler up to the flag, which is not set yet. -/
def readFlag : List LineAct :=
  (toCreate ++ dockerCreate ++ [Act.call true]).map .act

def startJob : List LineAct := [.act .requestStart, .request .start]

theorem not_always_sees :
    ¬ ∀ (job : Job) (las : List LineAct) (t : Handshake),
      run Handshake.step (.start job) las = some t →
        Always Handshake.step Handshake.Sees (.start job) las := by
  intro hall
  obtain ⟨t, hr, hsees⟩ : ∃ t,
      run Handshake.step (.start script) (readFlag ++ startJob ++ [.activate]) = some t ∧
        ¬ t.Sees := ⟨_, rfl, by decide⟩
  exact hsees ((hall script _ t hr).last hr)

/-- The subscription is active before the start is published. -/
def activateFirst : List LineAct :=
  readFlag ++ [.activate] ++ startJob ++ [.arrive, .act .receive]

theorem activateFirst_sees :
    ∃ t, run Handshake.step (.start script) activateFirst = some t ∧ t.published = true ∧
      t.read = some false ∧
        Always Handshake.step Handshake.Sees (.start script) activateFirst := by
  obtain ⟨t, hr, hp, hread⟩ : ∃ t, run Handshake.step (.start script) activateFirst = some t ∧
      t.published = true ∧ t.read = some false := ⟨_, rfl, rfl, rfl⟩
  exact ⟨t, hr, hp, hread, (sees_iff_inTime hr).mpr (by decide)⟩

end CodeRunner.Worker
