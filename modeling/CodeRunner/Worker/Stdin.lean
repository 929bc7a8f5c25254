import CodeRunner.Worker.Control

/-! # Standard input from the client to the program

The chunks and the close of a job travel on two subscriptions. The handler queues the chunks in
a channel of its own, and the pump of the run writes them to the program and applies the close.
-/

namespace CodeRunner.Worker

open PubSub Transition

/-- The buffer of `stdinCh`. -/
def stdinCap : ℕ := 256

/-- The handler has performed a closing statement, or left without it. -/
def Handler.left (s : Handler) (e : Effect) : Bool :=
  match s.pc with
  | .ending todo => decide (e ∉ todo)
  | _ => false

/-- The handler with its stdin pump, between the client of its job and the program. `started`
and `closed` are set by the requests that have been accepted, `sent` holds the chunks of those
that were, and `received` what has been written to the program. -/
structure Feed where
  handler : Handler
  stdin : Subscription (List UInt8)
  ctrl : Subscription Control
  stdinCh : List (List UInt8)
  draining : Bool
  eof : Bool
  received : List UInt8
  started : Bool
  closed : Bool
  sent : List (List UInt8)

def Feed.start (job : Job) : Feed where
  handler := .start job
  stdin := .closed
  ctrl := .closed
  stdinCh := []
  draining := false
  eof := false
  received := []
  started := false
  closed := false
  sent := []

/-- The publishes of the API, the moments at which Redis takes a subscription, a message at its
delivery goroutine, and the pump: a chunk written, and a drain that finds the channel empty. -/
inductive FeedAct where
  | start
  | chunk (c : List UInt8)
  | close
  | activateStdin
  | activateCtrl
  | arriveStdin
  | arriveCtrl
  | write
  | drained
  | act (a : Act)
  deriving DecidableEq

namespace Feed

def interrupted (l : Feed) (s' : Handler) : Bool :=
  !l.eof && (decide (s'.pc.stage = .ending) || decide (s'.program = .ended))

/-- The pump applies a close by draining the channel first. -/
def after (l : Feed) (a : Act) (s' : Handler) : Feed :=
  { l with
    handler := s'
    stdin := if s'.left .closeStdinSub then .closed else l.stdin
    ctrl := if s'.left .closeCtrlSub then .closed else l.ctrl
    draining := l.draining || decide (a = .pump ∧ l.handler.ctrlCh.head? = some .stdinClose) }

/-- The runs of this machine are those in which the program keeps reading: the job is not killed
or timed out, and nothing ends it before EOF. -/
def step (l : Feed) : FeedAct → Option Feed
  | .start =>
    -- the flag is set before the start is published
    if l.handler.startRequested = true ∧ l.started = false then
      some { l with ctrl := l.ctrl.publish .start, started := true }
    else none
  | .chunk c =>
    if l.started = true ∧ l.closed = false then
      some { l with stdin := l.stdin.publish c, sent := l.sent ++ [c] }
    else none
  | .close =>
    if l.started = true ∧ l.closed = false then
      some { l with ctrl := l.ctrl.publish .stdinClose, closed := true }
    else none
  | .activateStdin =>
    if l.handler.pc ≠ .readSpec ∧ l.handler.left .closeStdinSub = false then
      some { l with stdin := l.stdin.activate }
    else none
  | .activateCtrl => if l.handler.listens then some { l with ctrl := l.ctrl.activate } else none
  | .arriveStdin =>
    l.stdin.take?.map fun (c, stdin) =>
      -- an empty chunk is not handed on
      { l with stdin := stdin, stdinCh := if c = [] then l.stdinCh else offer stdinCap l.stdinCh c }
  | .arriveCtrl =>
    match l.ctrl.take? with
    | some (msg, ctrl) =>
      (l.handler.step (.deliver msg)).map fun s' => { l with handler := s', ctrl := ctrl }
    | none => none
  | .write =>
    match l.handler.pc, l.stdinCh with
    | .session, c :: rest =>
      -- after EOF there is nowhere to write to
      some { l with stdinCh := rest, received := if l.eof then l.received else l.received ++ c }
    | _, _ => none
  | .drained =>
    if l.handler.pc = .session ∧ l.draining = true ∧ l.stdinCh = [] then
      some { l with draining := false, eof := true }
    else none
  | .act a =>
    if a.delivers = true ∨ a = .pump ∧ l.draining = true then none
    else (l.handler.step a).bind fun s' => if l.interrupted s' then none else some (l.after a s')

/-- The program has received a prefix of what was sent, and EOF only after the close and with all
of it. -/
structure Delivers (l : Feed) : Prop where
  ordered : l.received <+: l.sent.flatten
  complete : l.eof = true → l.closed = true ∧ l.received = l.sent.flatten

end Feed

/-- The control messages that a step takes out of the channel and the watch. -/
def Handler.takes (s : Handler) (a : Act) : List Control :=
  match s.pc, a with
  | .parked _, .receive | .session, .pump => s.ctrlCh.take 1
  | .compile _ _, .watch => if s.ctrlCh.head? = some .kill then [.kill] else []
  | .compile _ _, a =>
    if a.afterCompile.isSome then s.watch.pending.drop (ctrlCap - s.ctrlCh.length) else []
  | _, _ => []

/-- A chunk and the close are published to active subscriptions, they find room in their
channels, the handler does not drop the close while the job is parked or when it hands back what
the watch has held, and a drain ends when no chunk is on its way. -/
def Careful (l : Feed) : FeedAct → Prop
  | .chunk c => c = [] ∨ l.stdin.active = true
  | .close => l.ctrl.active = true
  | .arriveStdin =>
    ∀ c, l.stdin.inflight.head? = some c → c = [] ∨ l.stdinCh.length < stdinCap
  | .arriveCtrl =>
    l.ctrl.inflight.head? = some .stdinClose → l.handler.ctrlCh.length < ctrlCap
  | .drained => l.stdin.inflight.flatten = []
  | .act a => a ≠ .pump → .stdinClose ∉ l.handler.takes a
  | _ => True

instance (l : Feed) : ∀ fa, Decidable (Careful l fa)
  | .chunk _ => inferInstanceAs (Decidable (_ ∨ _))
  | .close | .drained => inferInstanceAs (Decidable (_ = _))
  | .arriveStdin =>
    match h : l.stdin.inflight.head? with
    | none => isTrue fun c hc => by rw [h] at hc; cases hc
    | some c => decidable_of_iff (c = [] ∨ l.stdinCh.length < stdinCap)
        ⟨fun hc c' hc' => Option.some.inj (h.symm.trans hc') ▸ hc, fun hall => hall c h⟩
  | .arriveCtrl => inferInstanceAs (Decidable (_ → _))
  | .act _ => inferInstanceAs (Decidable (_ → _ ∉ _))
  | .start | .activateStdin | .activateCtrl | .write => isTrue trivial

variable {l l' : Feed} {s s' : Handler} {a : Act} {fa : FeedAct} {job : Job}

/-- What is in the control channel, or held by the watch of a compile step that is running. -/
def Handler.held (s : Handler) : List Control :=
  s.ctrlCh ++ if s.pc.compiling then s.watch.pending else []

theorem held_of_not_compiling (h : s.pc.compiling = false) : s.held = s.ctrlCh := by
  rw [Handler.held, h, if_neg Bool.false_ne_true, List.append_nil]

theorem held_of_compiling (h : s.pc.compiling = true) : s.held = s.ctrlCh ++ s.watch.pending := by
  rw [Handler.held, h, if_pos rfl]

theorem held_congr (hctrl : s'.ctrlCh = s.ctrlCh) (hpc : s'.pc.compiling = s.pc.compiling)
    (hwatch : s'.watch = s.watch) : s'.held = s.held := by
  rw [Handler.held, hctrl, hpc, hwatch, Handler.held]

theorem held_begin (s : Handler) : s.begin.held = s.ctrlCh := by
  unfold Handler.begin
  split
  · exact List.append_nil _
  · exact List.append_nil _

theorem held_compiled (s : Handler) (since : ℕ) (ok : Bool) :
    (s.compiled since ok).held = s.ctrlCh ++ s.watch.pending.take (ctrlCap - s.ctrlCh.length) := by
  rw [held_of_not_compiling (compiled_pc since ok), compiled_eq]

theorem takes_eq_nil (hreceive : a ≠ .receive) (hpump : a ≠ .pump) (hwatch : a ≠ .watch)
    (hafter : a.afterCompile = none) : s.takes a = [] := by
  unfold Handler.takes
  split
  · exact absurd rfl hreceive
  · exact absurd rfl hpump
  · exact absurd rfl hwatch
  · rw [hafter]
    rfl
  · rfl

theorem takes_compiled {since : ℕ} {pc : CompilePc} (hpc : s.pc = .compile since pc)
    (ha : a.afterCompile.isSome = true) :
    s.takes a = s.watch.pending.drop (ctrlCap - s.ctrlCh.length) := by
  unfold Handler.takes
  rw [hpc]
  cases a <;> exact if_pos ha

theorem takes_receive {deadline : ℕ} (hpc : s.pc = .parked deadline) :
    s.takes .receive = s.ctrlCh.take 1 := by
  unfold Handler.takes
  rw [hpc]

theorem takes_pump (hpc : s.pc = .session) : s.takes .pump = s.ctrlCh.take 1 := by
  unfold Handler.takes
  rw [hpc]

theorem takes_watch {since : ℕ} {pc : CompilePc} (hpc : s.pc = .compile since pc) :
    s.takes .watch = if s.ctrlCh.head? = some .kill then [.kill] else [] := by
  unfold Handler.takes
  rw [hpc]

theorem step_held (h : s.step a = some s') (ha : a.delivers = false) :
    (s.takes a ++ s'.held).Perm s.held := by
  have hkeep : s.takes a = [] → s'.held = s.held → (s.takes a ++ s'.held).Perm s.held :=
    fun htakes hheld => by rw [htakes, hheld]; exact .refl _
  have hhead : ∀ {msg : Control} {rest : List Control} {t : Handler}, s.pc.compiling = false →
      s.ctrlCh = msg :: rest → s.takes a = s.ctrlCh.take 1 → t.held = rest →
        (s.takes a ++ t.held).Perm s.held := by
    intro msg rest t hidle hctrl htakes hheld
    rw [htakes, hheld, held_of_not_compiling hidle, hctrl]
    exact .refl _
  have hcompiled : ∀ {since : ℕ} {pc : CompilePc} {ok : Bool}, s.pc = .compile since pc →
      a.afterCompile.isSome = true → (s.takes a ++ (s.compiled since ok).held).Perm s.held := by
    intro since pc ok hpc hafter
    rw [takes_compiled hpc hafter, held_compiled, held_of_compiling (by rw [hpc]; rfl)]
    refine List.perm_append_comm.trans ?_
    rw [List.append_assoc, List.take_append_drop]
  cases step_branch h with
  | readSpec hpc | readSpecFails hpc | subscribe hpc | subscribeFails hpc | subscribeControl hpc
  | subscribeControlFails hpc | announceQueued ok hpc | resolveBlobs hpc | resolveBlobsFails hpc
  | addOwned ok hpc | createLost hpc | startLost hpc | parks ok deadline hpc
  | announceRunning ok wallMs hpc =>
    refine hkeep (takes_eq_nil ?_ ?_ ?_ rfl) (held_congr rfl (hpc ▸ rfl) rfl) <;> rintro ⟨⟩
  | create ok pc hpc =>
    refine hkeep (takes_eq_nil (by rintro ⟨⟩) (by rintro ⟨⟩) (by rintro ⟨⟩) rfl) ?_
    have hstage : (s.create ok pc).pc.compiling = false := by
      cases hc : (s.create ok pc).pc with
      | compile since pc' => exact absurd (congrArg Pc.stage hc) (create_pc ok pc)
      | _ => rfl
    refine held_congr (by rw [create_eq]) ?_ (by rw [create_eq])
    rw [hstage, hpc]
    rfl
  | durableStart deadline hpc =>
    refine hkeep (takes_eq_nil (by rintro ⟨⟩) (by rintro ⟨⟩) (by rintro ⟨⟩) rfl) ?_
    rw [held_begin, held_of_not_compiling (by rw [hpc]; rfl)]
  | contextDone deadline hpc | warmup deadline hpc | wall _ _ hpc | idle _ _ hpc | cpu _ _ _ hpc
  | waitReturns hpc | activity _ _ hpc =>
    refine hkeep (takes_eq_nil ?_ ?_ ?_ rfl) (held_congr rfl (hpc ▸ rfl) rfl) <;> rintro ⟨⟩
  | cpuPolls => refine hkeep (takes_eq_nil ?_ ?_ ?_ rfl) rfl <;> rintro ⟨⟩
  | parkedStart deadline rest hpc hctrl =>
    exact hhead (hpc ▸ rfl) hctrl (takes_receive hpc) (held_begin _)
  | parkedKill deadline rest hpc hctrl =>
    exact hhead (hpc ▸ rfl) hctrl (takes_receive hpc) (held_of_not_compiling rfl)
  | parkedClose deadline rest hpc hctrl =>
    have hidle : s.pc.compiling = false := hpc ▸ rfl
    exact hhead hidle hctrl (takes_receive hpc) (held_of_not_compiling hidle)
  | pumpKill rest hpc hctrl | pumpSkip msg rest hpc hctrl =>
    have hidle : s.pc.compiling = false := hpc ▸ rfl
    exact hhead hidle hctrl (takes_pump hpc) (held_of_not_compiling hidle)
  | watchKill since pc rest hpc hctrl =>
    have hcomp : s.pc.compiling = true := by rw [hpc]; rfl
    rw [takes_watch hpc, held_of_compiling hcomp, hctrl]
    exact .of_eq (congrArg (Control.kill :: ·) (held_of_compiling hcomp))
  | watchHold since pc msg rest hpc hctrl hmsg =>
    have hcomp : s.pc.compiling = true := by rw [hpc]; rfl
    have hmove : ∀ t : Handler, t.held = rest ++ (s.watch.pending ++ [msg]) →
        (s.takes .watch ++ t.held).Perm s.held := by
      intro t ht
      have htakes : s.takes .watch = [] := by
        rw [takes_watch hpc, hctrl]
        exact if_neg fun h => hmsg (Option.some.inj h)
      rw [htakes, ht, held_of_compiling hcomp, hctrl, List.nil_append, ← List.append_assoc]
      exact List.perm_append_comm
    exact hmove _ (held_of_compiling hcomp)
  | expire since pc hpc | touches since hpc | compileSucceeds since hpc =>
    refine hkeep (takes_eq_nil ?_ ?_ ?_ rfl) (held_congr rfl (hpc ▸ rfl) rfl) <;> rintro ⟨⟩
  | compileExits since code hpc _ hcode =>
    exact hcompiled hpc (by simp [Act.afterCompile, hcode])
  | compileFails since hpc | touchFails since hpc | resumes since wake hpc =>
    exact hcompiled hpc rfl
  | effect e todo hpc =>
    refine hkeep (takes_eq_nil (by rintro ⟨⟩) (by rintro ⟨⟩) (by rintro ⟨⟩) rfl)
      (held_congr ?_ (hpc ▸ rfl) ?_)
    · cases e <;> rfl
    · cases e <;> rfl
  | deliver => cases ha
  | requestStart | cancel | poll | spawn | exit | writeMarker | tick =>
    refine hkeep (takes_eq_nil ?_ ?_ ?_ rfl) (held_congr rfl rfl rfl) <;> rintro ⟨⟩

theorem count_takes_pump (h : s.step .pump = some s') :
    (s.takes .pump).count .stdinClose = if s.ctrlCh.head? = some .stdinClose then 1 else 0 := by
  cases step_branch h with
  | pumpKill rest hpc hctrl =>
    rw [takes_pump hpc, hctrl]
    rfl
  | pumpSkip msg rest hpc hctrl =>
    rw [takes_pump hpc, hctrl]
    cases msg <;> rfl

theorem left_of_stage {e : Effect} (h : s.pc.stage ≠ .ending) : s.left e = false := by
  unfold Handler.left
  split
  · next todo hpc => exact absurd (by rw [hpc]; rfl) h
  · rfl

/-- What was sent has been received or is on its way, in order, and so is the close until the
pump applies it. -/
structure Feed.Intact (l : Feed) : Prop where
  bytes : l.received ++ l.stdinCh.flatten ++ l.stdin.inflight.flatten = l.sent.flatten
  closes : l.ctrl.inflight.count .stdinClose + l.handler.held.count .stdinClose =
    if l.closed && !l.draining && !l.eof then 1 else 0
  closing : l.draining = true ∨ l.eof = true → l.closed = true
  whole : l.eof = true → l.received = l.sent.flatten

theorem Feed.Intact.delivers (hi : l.Intact) : l.Delivers where
  ordered := by
    rw [← hi.bytes, List.append_assoc]
    exact List.prefix_append _ _
  complete := fun heof => ⟨hi.closing (.inr heof), hi.whole heof⟩

theorem Feed.Intact.rest (hi : l.Intact) (heof : l.eof = true) :
    l.stdinCh.flatten = [] ∧ l.stdin.inflight.flatten = [] := by
  have hbytes := hi.bytes
  rw [hi.whole heof, List.append_assoc, List.append_right_eq_self] at hbytes
  exact List.append_eq_nil_iff.mp hbytes

theorem Feed.Intact.opened (hi : l.Intact) (h : l.closed = false) :
    l.draining = false ∧ l.eof = false := by
  constructor
  · cases hd : l.draining with
    | false => rfl
    | true => rw [hi.closing (.inl hd)] at h; cases h
  · cases he : l.eof with
    | false => rfl
    | true => rw [hi.closing (.inr he)] at h; cases h

theorem feed_act (h : l.step (.act a) = some l') :
    a.delivers = false ∧ (a = .pump → l.draining = false) ∧
      ∃ s', l.handler.step a = some s' ∧ l.interrupted s' = false ∧ l' = l.after a s' := by
  simp only [Feed.step] at h
  split at h
  · cases h
  · next hguard =>
    obtain ⟨hdel, hpump⟩ := not_or.mp hguard
    obtain ⟨s', hs, h⟩ := Option.bind_eq_some_iff.mp h
    split at h
    · cases h
    · next hint =>
      obtain rfl := Option.some.inj h
      refine ⟨Bool.not_eq_true _ ▸ hdel, fun ha => ?_, s', hs, Bool.not_eq_true _ ▸ hint, rfl⟩
      exact Bool.not_eq_true _ ▸ fun hd => hpump ⟨ha, hd⟩

theorem feed_arriveCtrl (h : l.step .arriveCtrl = some l') :
    ∃ msg ctrl s', l.ctrl.inflight = msg :: ctrl.inflight ∧ ctrl.active = l.ctrl.active ∧
      l.handler.step (.deliver msg) = some s' ∧ l' = { l with handler := s', ctrl := ctrl } := by
  simp only [Feed.step] at h
  split at h
  · next msg ctrl htake =>
    obtain ⟨s', hs, rfl⟩ := Option.map_eq_some_iff.mp h
    obtain ⟨hin, hactive⟩ := Subscription.take?_eq_some.mp htake
    exact ⟨msg, ctrl, s', hin, hactive, hs, rfl⟩
  · cases h

theorem feed_arriveStdin (h : l.step .arriveStdin = some l') :
    ∃ c stdin, l.stdin.inflight = c :: stdin.inflight ∧
      l' = { l with
        stdin := stdin
        stdinCh := if c = [] then l.stdinCh else offer stdinCap l.stdinCh c } := by
  obtain ⟨⟨c, stdin⟩, htake, rfl⟩ := Option.map_eq_some_iff.mp h
  exact ⟨c, stdin, (Subscription.take?_eq_some.mp htake).1, rfl⟩

theorem feed_write (h : l.step .write = some l') :
    l.handler.pc = .session ∧ ∃ c rest, l.stdinCh = c :: rest ∧
      l' = { l with
        stdinCh := rest
        received := if l.eof then l.received else l.received ++ c } := by
  simp only [Feed.step] at h
  split at h
  · next c rest hpc hch =>
    obtain rfl := Option.some.inj h
    exact ⟨hpc, c, rest, hch, rfl⟩
  · cases h

theorem after_subscribed (hint : l.interrupted s' = false) (heof : l.eof = false) :
    (l.after a s').stdin = l.stdin ∧ (l.after a s').ctrl = l.ctrl := by
  have hstage : s'.pc.stage ≠ .ending := by
    intro hend
    rw [Feed.interrupted, heof, decide_eq_true hend] at hint
    cases hint
  constructor
  · exact if_neg (by rw [left_of_stage hstage]; exact Bool.false_ne_true)
  · exact if_neg (by rw [left_of_stage hstage]; exact Bool.false_ne_true)

theorem arrive_length {msg : Control} (h : s.step (.deliver msg) = some s') :
    s'.held.length ≤ s.held.length + 1 := by
  cases step_branch h with
  | deliver =>
    have hle : (offer ctrlCap s.ctrlCh msg).length ≤ _ := length_offer_le
    unfold offer at hle
    unfold Handler.held
    dsimp only
    rw [List.length_append, List.length_append]
    omega

theorem arrive_count {msg : Control} (h : s.step (.deliver msg) = some s')
    (hroom : msg = .stdinClose → s.ctrlCh.length < ctrlCap) :
    s'.held.count .stdinClose = [msg].count .stdinClose + s.held.count .stdinClose := by
  cases step_branch h with
  | deliver =>
    unfold Handler.held
    dsimp only
    by_cases hlt : s.ctrlCh.length < ctrlCap
    · rw [if_pos hlt]
      simp only [List.count_append]
      omega
    · have hcount : [msg].count .stdinClose = 0 :=
        List.count_eq_zero.mpr fun hmem => hlt (hroom (List.mem_singleton.mp hmem).symm)
      rw [if_neg hlt, hcount, Nat.zero_add]

theorem after_intact (hi : l.Intact) (hg : Careful l (.act a)) (ha : a.delivers = false)
    (hpump : a = .pump → l.draining = false) (h : l.handler.step a = some s')
    (hint : l.interrupted s' = false) : (l.after a s').Intact := by
  have htakes : (l.handler.takes a).count .stdinClose =
      if a = .pump ∧ l.handler.ctrlCh.head? = some .stdinClose then 1 else 0 := by
    by_cases hap : a = .pump
    · subst hap
      rw [count_takes_pump h]
      simp only [true_and]
    · rw [List.count_eq_zero.mpr (hg hap), if_neg fun hap' => hap hap'.1]
  have hheld := (step_held h ha).count_eq .stdinClose
  rw [List.count_append, htakes] at hheld
  have hcloses := hi.closes
  refine ⟨?_, ?_, ?_, hi.whole⟩
  · cases heof : l.eof with
    | false =>
      rw [(after_subscribed hint heof).1]
      exact hi.bytes
    | true =>
      have hrest : (l.after a s').stdin.inflight.flatten = [] := by
        change (if s'.left .closeStdinSub then Subscription.closed
          else l.stdin).inflight.flatten = []
        split
        · rfl
        · exact (hi.rest heof).2
      rw [hrest]
      change l.received ++ l.stdinCh.flatten ++ [] = l.sent.flatten
      rw [← hi.bytes, (hi.rest heof).2]
  · have hctrl : (l.after a s').ctrl.inflight.count .stdinClose ≤
        l.ctrl.inflight.count .stdinClose ∧
          (l.eof = false → (l.after a s').ctrl = l.ctrl) := by
      refine ⟨?_, fun heof => (after_subscribed hint heof).2⟩
      change (if s'.left .closeCtrlSub then Subscription.closed else l.ctrl).inflight.count _ ≤ _
      split
      · exact Nat.zero_le _
      · exact Nat.le_refl _
    change _ + s'.held.count .stdinClose =
      if l.closed && !(l.draining || decide (a = .pump ∧ _)) && !l.eof then 1 else 0
    cases heof : l.eof with
    | true =>
      rw [heof, Bool.not_true, Bool.and_false, if_neg Bool.false_ne_true] at hcloses
      rw [Bool.not_true, Bool.and_false, if_neg Bool.false_ne_true]
      omega
    | false =>
      rw [hctrl.2 heof]
      rw [heof] at hcloses
      by_cases hp : a = .pump ∧ l.handler.ctrlCh.head? = some .stdinClose
      · rw [decide_eq_true hp, Bool.or_true, Bool.not_true, Bool.and_false, Bool.false_and,
          if_neg Bool.false_ne_true]
        rw [if_pos hp] at hheld
        have hle : (if (l.closed && !l.draining && !false) = true then 1 else 0) ≤ 1 := by
          split <;> decide
        omega
      · rw [decide_eq_false hp, Bool.or_false]
        rw [if_neg hp] at hheld
        omega
  · rintro (hd | heof)
    · rcases (Bool.or_eq_true _ _).mp hd with hd | hp
      · exact hi.closing (.inl hd)
      · rw [if_pos (of_decide_eq_true hp)] at hheld
        cases hclosed : l.closed with
        | true => exact hclosed
        | false =>
          rw [hclosed, Bool.false_and, Bool.false_and, if_neg Bool.false_ne_true] at hcloses
          omega
    · exact hi.closing (.inr heof)

theorem flatten_publish {c : List UInt8} (hc : c = [] ∨ l.stdin.active = true) :
    (l.stdin.publish c).inflight.flatten = l.stdin.inflight.flatten ++ c := by
  cases hactive : l.stdin.active with
  | true => rw [Subscription.inflight_publish hactive, List.flatten_concat]
  | false =>
    have hnil : c = [] := hc.resolve_right (by rw [hactive]; nofun)
    rw [Subscription.publish_of_inactive hactive, hnil, List.append_nil]

theorem flatten_queue {c : List UInt8} {ch : List (List UInt8)}
    (hc : c = [] ∨ ch.length < stdinCap) :
    (if c = [] then ch else offer stdinCap ch c).flatten = ch.flatten ++ c := by
  split
  · next hnil => rw [hnil, List.append_nil]
  · next hne => rw [offer_of_lt (hc.resolve_left hne), List.flatten_concat]

theorem step_intact (hi : l.Intact) (hg : Careful l fa) (h : l.step fa = some l') :
    l'.Intact := by
  cases fa with
  | start =>
    obtain ⟨-, ⟨⟩⟩ := Option.ite_none_right_eq_some.mp h
    refine ⟨hi.bytes, ?_, hi.closing, hi.whole⟩
    change (l.ctrl.publish .start).inflight.count .stdinClose + _ = _
    rw [Subscription.count_publish_of_ne (show Control.start ≠ .stdinClose by decide)]
    exact hi.closes
  | chunk c =>
    obtain ⟨⟨-, hopen⟩, ⟨⟩⟩ := Option.ite_none_right_eq_some.mp h
    refine ⟨?_, hi.closes, hi.closing, fun heof => ?_⟩
    · change _ ++ (l.stdin.publish c).inflight.flatten = (l.sent ++ [c]).flatten
      rw [flatten_publish hg, List.flatten_concat, ← hi.bytes, List.append_assoc _ _ c]
    · rw [(hi.opened hopen).2] at heof
      cases heof
  | close =>
    obtain ⟨⟨-, hopen⟩, ⟨⟩⟩ := Option.ite_none_right_eq_some.mp h
    obtain ⟨hd, heof⟩ := hi.opened hopen
    have hcloses := hi.closes
    rw [hopen, hd, heof] at hcloses
    refine ⟨hi.bytes, ?_, fun _ => rfl, hi.whole⟩
    change (l.ctrl.publish .stdinClose).inflight.count .stdinClose + _ =
      if true && !l.draining && !l.eof then 1 else 0
    rw [Subscription.inflight_publish hg, List.count_append, hd, heof]
    change l.ctrl.inflight.count .stdinClose + 1 + l.handler.held.count .stdinClose = 1
    simp only [Bool.false_and, Bool.false_eq_true, if_false] at hcloses
    omega
  | activateStdin =>
    obtain ⟨-, ⟨⟩⟩ := Option.ite_none_right_eq_some.mp h
    exact ⟨hi.bytes, hi.closes, hi.closing, hi.whole⟩
  | activateCtrl =>
    obtain ⟨-, ⟨⟩⟩ := Option.ite_none_right_eq_some.mp h
    exact ⟨hi.bytes, hi.closes, hi.closing, hi.whole⟩
  | arriveStdin =>
    obtain ⟨c, stdin, hin, rfl⟩ := feed_arriveStdin h
    refine ⟨?_, hi.closes, hi.closing, hi.whole⟩
    have hbytes := hi.bytes
    rw [hin, List.flatten_cons] at hbytes
    have hroom : c = [] ∨ l.stdinCh.length < stdinCap := hg c (by rw [hin]; rfl)
    change l.received ++ (if c = [] then l.stdinCh else offer stdinCap l.stdinCh c).flatten ++ _ = _
    rw [flatten_queue hroom, ← hbytes]
    simp only [List.append_assoc]
  | arriveCtrl =>
    obtain ⟨msg, ctrl, s', hin, -, hs, rfl⟩ := feed_arriveCtrl h
    refine ⟨hi.bytes, ?_, hi.closing, hi.whole⟩
    have hroom : msg = .stdinClose → l.handler.ctrlCh.length < ctrlCap := fun hmsg =>
      hg (by rw [hin, hmsg]; rfl)
    have hcloses := hi.closes
    have hheld := arrive_count hs hroom
    rw [hin, ← List.singleton_append, List.count_append] at hcloses
    change ctrl.inflight.count .stdinClose + s'.held.count .stdinClose = _
    rw [hheld, ← hcloses]
    omega
  | write =>
    obtain ⟨-, c, rest, hch, rfl⟩ := feed_write h
    refine ⟨?_, hi.closes, hi.closing, fun heof => ?_⟩
    · have hbytes := hi.bytes
      rw [hch, List.flatten_cons] at hbytes
      change (if l.eof then l.received else l.received ++ c) ++ rest.flatten ++ _ = _
      split
      · next heof =>
        have hrest := (hi.rest heof).1
        rw [hch, List.flatten_cons, List.append_eq_nil_iff] at hrest
        rw [hrest.1] at hbytes
        exact hbytes
      · rw [← hbytes]
        simp only [List.append_assoc]
    · exact (if_pos heof).trans (hi.whole heof)
  | drained =>
    obtain ⟨⟨-, hd, hch⟩, ⟨⟩⟩ := Option.ite_none_right_eq_some.mp h
    have hcloses := hi.closes
    have hbytes := hi.bytes
    have hrest : l.stdin.inflight.flatten = [] := hg
    rw [hch, hrest, List.flatten_nil, List.append_nil, List.append_nil] at hbytes
    refine ⟨hi.bytes, ?_, fun _ => hi.closing (.inl hd), fun _ => hbytes⟩
    rw [hd, Bool.not_true, Bool.and_false, Bool.false_and] at hcloses
    rw [Bool.not_true, Bool.and_false]
    exact hcloses
  | act a =>
    obtain ⟨ha, hpump, s', hs, hint, rfl⟩ := feed_act h
    exact after_intact hi hg ha hpump hs hint

/-- From the control subscription to the end of the job the handler has it. -/
def Handler.Tuned (s : Handler) : Prop :=
  s.pc.opening = true ∨ s.pc.stage = .ending ∨ s.ctrlSub = true

theorem step_tuned (ht : s.Tuned) (h : s.step a = some s') : s'.Tuned := by
  have hsub : ∀ {pc : Pc}, s.pc = pc → pc.opening = false → pc.stage ≠ .ending →
      s.ctrlSub = true := by
    rintro pc rfl hopening hstage
    rcases ht with ht | ht | ht
    · rw [hopening] at ht
      cases ht
    · exact absurd ht hstage
    · exact ht
  cases step_branch h with
  | readSpec hpc | subscribe hpc => exact .inl rfl
  | subscribeControl hpc => exact .inr (.inr rfl)
  | readSpecFails hpc | subscribeFails hpc | subscribeControlFails hpc | resolveBlobsFails hpc
  | createLost hpc | contextDone deadline hpc | warmup deadline hpc | parkedKill deadline rest hpc
  | waitReturns hpc | wall _ _ hpc | idle _ _ hpc | cpu _ _ _ hpc | effect e todo hpc =>
    exact .inr (.inl rfl)
  | announceQueued ok hpc | resolveBlobs hpc | addOwned ok hpc | startLost hpc
  | parks ok deadline hpc
  | announceRunning ok wallMs hpc | compileSucceeds since hpc | touches since hpc
  | pumpKill rest hpc | pumpSkip msg rest hpc | activity _ _ hpc | cpuPolls _ _ _ hpc
  | parkedClose deadline rest hpc | watchKill since pc rest hpc | watchHold since pc msg rest hpc
  | expire since pc hpc =>
    exact .inr (.inr (hsub hpc rfl nofun))
  | create ok pc hpc => exact .inr (.inr ((create_eq s ok pc) ▸ hsub hpc rfl nofun))
  | durableStart deadline hpc | parkedStart deadline rest hpc =>
    refine .inr (.inr ?_)
    rw [begin_eq]
    exact hsub hpc rfl nofun
  | compileExits since code hpc | compileFails since hpc | touchFails since hpc
  | resumes since wake hpc =>
    refine .inr (.inr ?_)
    rw [compiled_eq]
    exact hsub hpc rfl nofun
  | requestStart | deliver | cancel | poll | spawn | exit | writeMarker | tick => exact ht

theorem arrive_mem {msg msg' : Control} (h : s.step (.deliver msg) = some s')
    (hmem : msg' ∈ s'.held) : msg' = msg ∨ msg' ∈ s.held := by
  cases step_branch h with
  | deliver =>
    unfold Handler.held at hmem ⊢
    dsimp only at hmem
    split at hmem
    · rw [List.append_assoc, List.mem_append, List.mem_append, List.mem_singleton] at hmem
      rw [List.mem_append]
      rcases hmem with hmem | hmem | hmem
      · exact .inr (.inl hmem)
      · exact .inl hmem
      · exact .inr (.inr hmem)
    · exact .inr hmem

/-- A start that is on its way has been recorded before, and there is no kill. -/
structure Feed.Sound (l : Feed) : Prop where
  tuned : l.handler.Tuned
  started : l.started = true → l.handler.startRequested = true
  announced : .start ∈ l.ctrl.inflight → l.started = true
  spared : .kill ∉ l.ctrl.inflight ∧ .kill ∉ l.handler.held
  reading : l.eof = false → l.handler.program ≠ .ended

theorem step_sound (hs : l.Sound) (h : l.step fa = some l') : l'.Sound := by
  cases fa with
  | start =>
    obtain ⟨⟨hstart, -⟩, ⟨⟩⟩ := Option.ite_none_right_eq_some.mp h
    refine ⟨hs.tuned, fun _ => hstart, fun _ => rfl, ⟨fun hmem => ?_, hs.spared.2⟩, hs.reading⟩
    exact (Subscription.mem_publish hmem).elim hs.spared.1 nofun
  | chunk c =>
    obtain ⟨-, ⟨⟩⟩ := Option.ite_none_right_eq_some.mp h
    exact ⟨hs.tuned, hs.started, hs.announced, hs.spared, hs.reading⟩
  | close =>
    obtain ⟨⟨hstart, -⟩, ⟨⟩⟩ := Option.ite_none_right_eq_some.mp h
    refine ⟨hs.tuned, hs.started, fun _ => hstart, ⟨fun hmem => ?_, hs.spared.2⟩, hs.reading⟩
    exact (Subscription.mem_publish hmem).elim hs.spared.1 nofun
  | activateStdin =>
    obtain ⟨-, ⟨⟩⟩ := Option.ite_none_right_eq_some.mp h
    exact ⟨hs.tuned, hs.started, hs.announced, hs.spared, hs.reading⟩
  | activateCtrl =>
    obtain ⟨-, ⟨⟩⟩ := Option.ite_none_right_eq_some.mp h
    exact ⟨hs.tuned, hs.started, hs.announced, hs.spared, hs.reading⟩
  | arriveStdin =>
    obtain ⟨c, stdin, hin, rfl⟩ := feed_arriveStdin h
    exact ⟨hs.tuned, hs.started, hs.announced, hs.spared, hs.reading⟩
  | arriveCtrl =>
    obtain ⟨msg, ctrl, s', hin, -, hstep, rfl⟩ := feed_arriveCtrl h
    have hannounced := hs.announced
    obtain ⟨hflight, hheld⟩ := hs.spared
    rw [hin] at hannounced hflight
    refine ⟨step_tuned hs.tuned hstep,
      fun hst => (step_move hstep).1.startRequested (hs.started hst),
      fun hmem => hannounced (List.mem_cons_of_mem _ hmem),
      ⟨fun hmem => hflight (List.mem_cons_of_mem _ hmem), fun hmem => ?_⟩, fun heof => ?_⟩
    · rcases arrive_mem hstep hmem with rfl | hmem
      · exact hflight List.mem_cons_self
      · exact hheld hmem
    · cases step_branch hstep with
      | deliver => exact hs.reading heof
  | write =>
    obtain ⟨-, c, rest, hch, rfl⟩ := feed_write h
    exact ⟨hs.tuned, hs.started, hs.announced, hs.spared, hs.reading⟩
  | drained =>
    obtain ⟨-, ⟨⟩⟩ := Option.ite_none_right_eq_some.mp h
    exact ⟨hs.tuned, hs.started, hs.announced, hs.spared, nofun⟩
  | act a =>
    obtain ⟨ha, -, s', hstep, hint, rfl⟩ := feed_act h
    have hctrl : ∀ msg ∈ (l.after a s').ctrl.inflight, msg ∈ l.ctrl.inflight := by
      intro msg hmem
      change msg ∈ (if s'.left .closeCtrlSub then Subscription.closed else l.ctrl).inflight at hmem
      split at hmem
      · cases hmem
      · exact hmem
    refine ⟨step_tuned hs.tuned hstep,
      fun hst => (step_move hstep).1.startRequested (hs.started hst),
      fun hmem => hs.announced (hctrl _ hmem),
      ⟨fun hmem => hs.spared.1 (hctrl _ hmem), fun hmem => hs.spared.2 ?_⟩, fun heof hend => ?_⟩
    · exact (step_held hstep ha).subset (List.mem_append_right _ hmem)
    · change l.eof = false at heof
      change s'.program = .ended at hend
      rw [Feed.interrupted, heof, hend] at hint
      simp at hint

/-- The steps that bring a chunk or a control message further. -/
def FeedAct.feeds : FeedAct → Bool
  | .arriveStdin | .arriveCtrl | .write | .drained | .act .pump => true
  | _ => false

def FeedAct.publishes : FeedAct → Bool
  | .start | .chunk _ | .close => true
  | _ => false

/-- A bound on the steps it takes to bring everything to the program. -/
def Feed.work (l : Feed) : ℕ :=
  2 * l.stdin.inflight.length + l.stdinCh.length + 3 * l.ctrl.inflight.length +
    2 * l.handler.held.length + l.draining.toNat

/-- A turn of the handler takes up what it has, and the pump comes to the close but once. -/
theorem act_work (ha : a.delivers = false) (hpump : a = .pump → l.draining = false)
    (hstep : l.handler.step a = some s') :
    (a = .pump → (l.after a s').work < l.work) ∧ (a ≠ .pump → (l.after a s').work ≤ l.work) := by
  have hheld := (step_held hstep ha).length_eq
  rw [List.length_append] at hheld
  have hstdin : (l.after a s').stdin.inflight.length ≤ l.stdin.inflight.length := by
    change (if s'.left .closeStdinSub then Subscription.closed else l.stdin).inflight.length ≤ _
    split
    · exact Nat.zero_le _
    · exact Nat.le_refl _
  have hctrl : (l.after a s').ctrl.inflight.length ≤ l.ctrl.inflight.length := by
    change (if s'.left .closeCtrlSub then Subscription.closed else l.ctrl).inflight.length ≤ _
    split
    · exact Nat.zero_le _
    · exact Nat.le_refl _
  constructor
  · rintro rfl
    have hd := hpump rfl
    have htakes : (l.handler.takes .pump).length = 1 := by
      cases step_branch hstep with
      | pumpKill rest hpc hch | pumpSkip msg rest hpc hch =>
        rw [takes_pump hpc, hch]
        rfl
    have hle : (l.after .pump s').draining.toNat ≤ 1 := Bool.toNat_le _
    change _ + l.stdinCh.length + _ + 2 * s'.held.length + _ < _
    rw [Feed.work, hd, Bool.toNat_false]
    omega
  · intro hap
    have hd : (l.after a s').draining = l.draining := by
      change (l.draining || decide (a = .pump ∧ _)) = _
      rw [decide_eq_false fun hp => hap hp.1, Bool.or_false]
    change _ + l.stdinCh.length + _ + 2 * s'.held.length + _ ≤ _
    rw [hd, Feed.work]
    omega

theorem step_work (h : l.step fa = some l') :
    (fa.feeds = true → l'.work < l.work) ∧ l'.work ≤ l.work + if fa.publishes then 3 else 0 := by
  have hlower : l'.work < l.work →
      (fa.feeds = true → l'.work < l.work) ∧ l'.work ≤ l.work + if fa.publishes then 3 else 0 :=
    fun hlt => ⟨fun _ => hlt, Nat.le_trans (Nat.le_of_lt hlt) (Nat.le_add_right _ _)⟩
  cases fa with
  | start =>
    obtain ⟨-, ⟨⟩⟩ := Option.ite_none_right_eq_some.mp h
    have hle : (l.ctrl.publish .start).inflight.length ≤ _ := Subscription.length_publish_le
    refine ⟨nofun, ?_⟩
    simp only [Feed.work, FeedAct.publishes, if_true]
    omega
  | chunk c =>
    obtain ⟨-, ⟨⟩⟩ := Option.ite_none_right_eq_some.mp h
    have hle : (l.stdin.publish c).inflight.length ≤ _ := Subscription.length_publish_le
    refine ⟨nofun, ?_⟩
    simp only [Feed.work, FeedAct.publishes, if_true]
    omega
  | close =>
    obtain ⟨-, ⟨⟩⟩ := Option.ite_none_right_eq_some.mp h
    have hle : (l.ctrl.publish .stdinClose).inflight.length ≤ _ := Subscription.length_publish_le
    refine ⟨nofun, ?_⟩
    simp only [Feed.work, FeedAct.publishes, if_true]
    omega
  | activateStdin =>
    obtain ⟨-, ⟨⟩⟩ := Option.ite_none_right_eq_some.mp h
    exact ⟨nofun, Nat.le_refl _⟩
  | activateCtrl =>
    obtain ⟨-, ⟨⟩⟩ := Option.ite_none_right_eq_some.mp h
    exact ⟨nofun, Nat.le_refl _⟩
  | arriveStdin =>
    obtain ⟨c, stdin, hin, rfl⟩ := feed_arriveStdin h
    have hqueue : (if c = [] then l.stdinCh else offer stdinCap l.stdinCh c).length ≤
        l.stdinCh.length + 1 := by
      split
      · exact Nat.le_succ _
      · exact length_offer_le
    apply hlower
    simp only [Feed.work, hin, List.length_cons]
    omega
  | arriveCtrl =>
    obtain ⟨msg, ctrl, s', hin, -, hstep, rfl⟩ := feed_arriveCtrl h
    have hheld := arrive_length hstep
    apply hlower
    simp only [Feed.work, hin, List.length_cons]
    omega
  | write =>
    obtain ⟨-, c, rest, hch, rfl⟩ := feed_write h
    apply hlower
    simp only [Feed.work, hch, List.length_cons]
    omega
  | drained =>
    obtain ⟨⟨-, hd, -⟩, ⟨⟩⟩ := Option.ite_none_right_eq_some.mp h
    apply hlower
    simp only [Feed.work, hd, Bool.toNat_true, Bool.toNat_false]
    omega
  | act a =>
    obtain ⟨ha, hpump, s', hstep, -, rfl⟩ := feed_act h
    obtain ⟨htakes, hkeeps⟩ := act_work ha hpump hstep
    by_cases hap : a = .pump
    · exact hlower (htakes hap)
    · have hfeeds : (FeedAct.act a).feeds = false := by
        unfold FeedAct.feeds
        split <;> simp_all
      refine ⟨fun hf => ?_, Nat.le_trans (hkeeps hap) (Nat.le_add_right _ _)⟩
      rw [hfeeds] at hf
      cases hf

theorem feeds_le {as : List FeedAct} (hr : run Feed.step (.start job) as = some l) :
    as.countP FeedAct.feeds ≤ 3 * as.countP FeedAct.publishes := by
  have hle := countP_le_of_measure (P := FeedAct.feeds) (Q := FeedAct.publishes) (k := 3)
    (μ := Feed.work) (fun l fa l' hf h => (step_work h).1 hf)
    (fun l fa l' _ h => (step_work h).2) hr
  have hstart : (Feed.start job).work = 0 := rfl
  omega

/-- Until EOF there is something to bring to the program of a closed input, and it can be done
carefully. -/
theorem feeds_next (hi : l.Intact) (hs : l.Sound) (hpc : l.handler.pc = .session)
    (hclosed : l.closed = true) (heof : l.eof = false) :
    ∃ fa, fa.feeds = true ∧ Careful l fa ∧ (l.step fa).isSome = true := by
  cases hd : l.draining with
  | true =>
    cases hch : l.stdinCh with
    | cons c rest =>
      refine ⟨.write, rfl, trivial, ?_⟩
      simp only [Feed.step, hpc, hch]
      rfl
    | nil =>
      cases hin : l.stdin.inflight with
      | cons c rest =>
        refine ⟨.arriveStdin, rfl, fun _ _ => .inr ?_, ?_⟩
        · rw [hch]
          decide
        · simp only [Feed.step, Subscription.take?, hin]
          rfl
      | nil =>
        refine ⟨.drained, rfl, ?_, ?_⟩
        · change l.stdin.inflight.flatten = []
          rw [hin, List.flatten_nil]
        · simp only [Feed.step]
          rw [if_pos ⟨hpc, hd, hch⟩]
          rfl
  | false =>
    have hheld : l.handler.held = l.handler.ctrlCh := held_of_not_compiling (by rw [hpc]; rfl)
    have hcloses := hi.closes
    rw [hclosed, hd, heof, hheld] at hcloses
    cases hch : l.handler.ctrlCh with
    | cons msg rest =>
      have hmsg : msg ≠ .kill := by
        rintro rfl
        apply hs.spared.2
        rw [hheld, hch]
        exact List.mem_cons_self
      obtain ⟨t, hstep, hint⟩ :
          ∃ t, l.handler.step .pump = some t ∧ l.interrupted t = false := by
        refine ⟨{ l.handler with ctrlCh := rest }, ?_, ?_⟩
        · simp only [Handler.step, Handler.session, hpc, hch]
        · simp [Feed.interrupted, hpc, hs.reading heof, Pc.stage]
      refine ⟨.act .pump, rfl, fun hne => absurd rfl hne, ?_⟩
      simp [Feed.step, hstep, hd, hint, Act.delivers]
    | nil =>
      cases hin : l.ctrl.inflight with
      | nil =>
        rw [hin, hch] at hcloses
        cases hcloses
      | cons msg rest =>
        have hsub : l.handler.ctrlSub = true := by
          rcases hs.tuned with ht | ht | ht
          · rw [hpc] at ht
            cases ht
          · rw [hpc] at ht
            cases ht
          · exact ht
        have hstart : msg = .start → l.handler.startRequested = true := by
          rintro rfl
          apply hs.started
          apply hs.announced
          rw [hin]
          exact List.mem_cons_self
        refine ⟨.arriveCtrl, rfl, fun _ => ?_, ?_⟩
        · rw [hch]
          decide
        · simp only [Feed.step, Subscription.take?, hin, Handler.step, Handler.environment]
          rw [if_pos ⟨hsub, hstart⟩]
          rfl

/-- In a run in which nothing is lost on the way, the program receives in order and once each
what was sent, EOF comes after all of it, and the pump of a closed input comes to EOF. -/
theorem delivers_of_careful {as : List FeedAct} (hr : run Feed.step (.start job) as = some l)
    (hg : EveryStep Feed.step Careful (.start job) as) :
    Always Feed.step Feed.Delivers (.start job) as ∧
      as.countP FeedAct.feeds ≤ 3 * as.countP FeedAct.publishes ∧
      (l.handler.pc = .session → l.closed = true → l.eof = false →
        ∃ fa, fa.feeds = true ∧ Careful l fa ∧ (l.step fa).isSome = true) := by
  have hintact : Always Feed.step Feed.Intact (.start job) as :=
    by
    refine .of_guarded (fun _ _ _ => step_intact) ⟨rfl, rfl, fun h => ?_, fun h => ?_⟩ hg
    · rcases h with h | h <;> cases h
    · cases h
  have hsound : l.Sound := Reachable.invariant (fun _ _ _ => step_sound)
    ⟨.inl rfl, fun h => (by cases h), fun h => (by cases h),
      ⟨List.not_mem_nil, List.not_mem_nil⟩, fun _ h => by cases h⟩ ⟨as, hr⟩
  exact ⟨hintact.mono fun _ hi => hi.delivers, feeds_le hr, feeds_next (hintact.last hr) hsound⟩

/-- The calls of a started job, whose input comes while it is queued and is closed while it
runs. -/
def inputWhileQueued : List FeedAct :=
  [.act .requestStart, .start, .chunk [104, 105]] ++
    (toCreate ++ dockerCreate ++ [Act.call true, .call true]).map .act ++
    [.activateCtrl, .close, .arriveCtrl, .act .pump, .drained]

theorem not_always_delivers :
    ¬ ∀ (job : Job) (l : Feed) (as : List FeedAct), run Feed.step (.start job) as = some l →
      Always Feed.step Feed.Delivers (.start job) as := by
  intro hall
  obtain ⟨l, hr, heof, hne⟩ : ∃ l, run Feed.step (.start script) inputWhileQueued = some l ∧
      l.eof = true ∧ l.received ≠ l.sent.flatten := ⟨_, rfl, rfl, by decide⟩
  exact hne (((hall script l _ hr).last hr).complete heof).2

/-- Two chunks that are published before the run, to a subscription that is active. -/
def inputBeforeRun : List FeedAct :=
  [.act (.call true), .act (.call true), .activateStdin, .activateCtrl] ++
    (List.replicate 4 (Act.call true) ++ dockerCreate ++ [Act.requestStart]).map .act ++
    [.start, .chunk [104, 105], .chunk [10], .close, .arriveStdin, .arriveCtrl, .arriveCtrl,
      .act (.call true), .act (.call true), .arriveStdin, .act .pump, .act .pump, .write, .write,
      .drained]

theorem inputBeforeRun_delivers :
    ∃ l, run Feed.step (.start script) inputBeforeRun = some l ∧ l.eof = true ∧
      l.received = [104, 105, 10] ∧
        Always Feed.step Feed.Delivers (.start script) inputBeforeRun := by
  obtain ⟨l, hr, heof, hrec⟩ : ∃ l, run Feed.step (.start script) inputBeforeRun = some l ∧
      l.eof = true ∧ l.received = [104, 105, 10] := ⟨_, rfl, rfl, rfl⟩
  exact ⟨l, hr, heof, hrec, (delivers_of_careful hr (by decide)).1⟩

end CodeRunner.Worker
