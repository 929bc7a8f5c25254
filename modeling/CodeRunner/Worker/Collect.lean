import CodeRunner.Worker.Marker
import CodeRunner.Worker.Outcome

/-! # The collected output

The teardown of a job with `collectOutput` publishes the result and writes the terminal status,
uploads the captured artifacts, and stores the `RunResult`. A client of the job reads its
channel, its status and its output in between.
-/

namespace CodeRunner.Worker

open Transition

/-- `wire.Artifact`. -/
structure Artifact where
  bytes : ℕ
  mimeType : String
  name : String
  url : String
  deriving DecidableEq, Repr

structure CapturedArtifact where
  name : String
  mimeType : String
  data : List UInt8
  deriving DecidableEq, Repr

/-- What the upload fills in of `wire.RunResult`. -/
structure RunResult where
  artifacts : List Artifact
  artifactsTruncated : Bool
  deriving DecidableEq, Repr

/-- The loop over the captured artifacts, at the `Put` of the first of `files`. -/
structure Upload where
  result : RunResult
  byteBudget : ℕ
  files : List CapturedArtifact
  deriving DecidableEq, Repr

def Upload.next (limits : Limits) (result : RunResult) (byteBudget : ℕ) :
    List CapturedArtifact → Upload
  | [] => ⟨result, byteBudget, []⟩
  | a :: files =>
    if 0 < limits.maxArtifacts.toInt ∧ limits.maxArtifacts.toInt ≤ result.artifacts.length then
      ⟨{ result with artifactsTruncated := true }, byteBudget, []⟩
    else if 0 < limits.maxArtifactBytes.toInt ∧
        limits.maxArtifactBytes.toInt < byteBudget + a.data.length then
      next limits { result with artifactsTruncated := true } byteBudget files
    else ⟨result, byteBudget, a :: files⟩

/-- `Put` has returned; it fails without a URL. -/
def Upload.put (limits : Limits) (upload : Upload) (url : Option String) : Upload :=
  match upload.files, url with
  | [], _ => upload
  | _ :: files, none => next limits upload.result upload.byteBudget files
  | a :: files, some url =>
    next limits
      { upload.result with
        artifacts := upload.result.artifacts ++ [⟨a.data.length, a.mimeType, a.name, url⟩] }
      (upload.byteBudget + a.data.length) files

/-- The job as its client sees it. `result` says that the result event is on the channel, `ended`
that the client has read it or a terminal status, and `answers` what it has got from
`GET /v1/jobs/:id/output`, `none` for a 404. -/
structure Collected where
  handler : Handler
  upload : Upload
  result : Bool
  status : Status
  output : Option RunResult
  ended : Bool
  answers : List (Option RunResult)

inductive CollectAct where
  | act (a : Act)
  | capture (captured : List CapturedArtifact)
  | put (url : Option String)
  | effect
  | event
  | getStatus
  | getOutput
  deriving DecidableEq

def Status.terminal : Status → Bool
  | .ended _ => true
  | _ => false

namespace Collected

def start (job : Job) : Collected where
  handler := .start job
  upload := ⟨⟨[], false⟩, 0, []⟩
  result := false
  status := .queued
  output := none
  ended := false
  answers := []

def write (c : Collected) (a : Act) : Collected :=
  match c.handler.pc, a with
  | .announceQueued, .call _ => { c with status := .queued }
  | .announceRunning _, .call _ => { c with status := .running }
  | _, _ => c

/-- What a statement of the ending writes. `flagged` is the flag of the sandbox. -/
def perform (uploads flagged : Bool) (c : Collected) : Effect → Collected
  | .publishResult => { c with result := true }
  | .writeStatus state => { c with status := .ended state }
  | .writeRunResult =>
    let result := c.upload.result
    { c with
      output := some
        { result with
          artifactsTruncated := result.artifactsTruncated || (uploads && flagged) } }
  | _ => c

/-- `uploads` says that the sandbox is read for artifacts and that there is a store for them. -/
def step (uploads flagged : Bool) (c : Collected) : CollectAct → Option Collected
  | .act a =>
    if a = .effect then none
    else (c.handler.step a).map fun handler => { c.write a with handler := handler }
  | .capture captured =>
    match c.handler.pc with
    | .ending (.captureArtifacts :: _) =>
      let spec := c.handler.job.spec
      let files := if uploads ∧ spec.collectOutput = some true then captured else []
      c.handler.effect.map fun handler =>
        { c with handler := handler, upload := .next spec.limits ⟨[], false⟩ 0 files }
    | _ => none
  | .put url =>
    match c.handler.pc, c.upload.files with
    | .ending (.putArtifacts :: _), _ :: _ =>
      some { c with upload := c.upload.put c.handler.job.spec.limits url }
    | _, _ => none
  | .effect =>
    match c.handler.pc with
    | .ending (e :: _) =>
      if e = .captureArtifacts ∨ e = .putArtifacts ∧ c.upload.files ≠ [] then none
      else
        c.handler.effect.map fun handler => { c.perform uploads flagged e with handler := handler }
    | _ => none
  | .event => if c.result then some { c with ended := true } else none
  | .getStatus => some { c with ended := c.ended || c.status.terminal }
  | .getOutput => some { c with answers := c.answers ++ [c.output] }

/-- Once the client has seen the end, the output is there. -/
def OutputReady (c : Collected) : Prop := c.ended = true → c.output.isSome = true

instance (c : Collected) : Decidable c.OutputReady := inferInstanceAs (Decidable (_ → _))

end Collected

/-- The client reads neither the event nor the terminal status while the teardown is between
them and the `RunResult`. -/
def ReadsLate (c : Collected) : CollectAct → Prop
  | .event => .writeRunResult ∉ c.handler.pc.todo
  | .getStatus =>
    .writeRunResult ∈ c.handler.pc.todo → ∃ state, .writeStatus state ∈ c.handler.pc.todo
  | _ => True

instance (todo : List Effect) : Decidable (∃ state, Effect.writeStatus state ∈ todo) :=
  decidable_of_iff (.writeStatus .done ∈ todo ∨ .writeStatus .error ∈ todo ∨
    .writeStatus .killed ∈ todo) ⟨by grind, by rintro ⟨_ | _ | _, h⟩ <;> grind⟩

instance (c : Collected) : (ca : CollectAct) → Decidable (ReadsLate c ca)
  | .event => inferInstanceAs (Decidable (_ ∉ _))
  | .getStatus =>
    inferInstanceAs (Decidable (_ → ∃ state, Effect.writeStatus state ∈ c.handler.pc.todo))
  | .act _ | .capture _ | .put _ | .effect | .getOutput => isTrue trivial

variable {uploads flagged : Bool} {job : Job} {s s' : Handler} {a : Act} {c c' t : Collected}
  {ca : CollectAct} {cas : List CollectAct}

inductive CollectTurn (uploads flagged : Bool) (c : Collected) : CollectAct → Collected → Prop where
  | act (a : Act) (handler : Handler) (ha : a ≠ .effect) (hs : c.handler.step a = some handler) :
      CollectTurn uploads flagged c (.act a) { c.write a with handler := handler }
  | capture (captured : List CapturedArtifact) (todo : List Effect) (upload : Upload)
      (hpc : c.handler.pc = .ending (.captureArtifacts :: todo)) :
      CollectTurn uploads flagged c (.capture captured)
        { c with handler := { c.handler with pc := .ending todo }, upload := upload }
  | put (url : Option String) (upload : Upload) :
      CollectTurn uploads flagged c (.put url) { c with upload := upload }
  | effect (e : Effect) (todo : List Effect) (hpc : c.handler.pc = .ending (e :: todo)) :
      CollectTurn uploads flagged c .effect
        { c.perform uploads flagged e with
          handler := { c.handler.perform e with pc := .ending todo } }
  | event (hr : c.result = true) : CollectTurn uploads flagged c .event { c with ended := true }
  | getStatus :
      CollectTurn uploads flagged c .getStatus { c with ended := c.ended || c.status.terminal }
  | getOutput :
      CollectTurn uploads flagged c .getOutput { c with answers := c.answers ++ [c.output] }

theorem collect_turn (h : c.step uploads flagged ca = some c') :
    CollectTurn uploads flagged c ca c' := by
  cases ca with
  | act a =>
    obtain ⟨ha, h⟩ := Option.ite_none_left_eq_some.mp h
    obtain ⟨handler, hs, rfl⟩ := Option.map_eq_some_iff.mp h
    exact .act a handler ha hs
  | capture captured =>
    simp only [Collected.step] at h
    split at h
    · next todo hpc =>
      obtain ⟨handler, hs, rfl⟩ := Option.map_eq_some_iff.mp h
      simp only [Handler.effect, hpc, Option.some.injEq] at hs
      subst hs
      exact .capture captured todo _ hpc
    · cases h
  | put url =>
    simp only [Collected.step] at h
    split at h
    · obtain rfl := Option.some.inj h
      exact .put url _
    · cases h
  | effect =>
    simp only [Collected.step] at h
    split at h
    · next e todo hpc =>
      obtain ⟨-, h⟩ := Option.ite_none_left_eq_some.mp h
      obtain ⟨handler, hs, rfl⟩ := Option.map_eq_some_iff.mp h
      simp only [Handler.effect, hpc, Option.some.injEq] at hs
      subst hs
      exact .effect e todo hpc
    · cases h
  | event =>
    obtain ⟨hr, h⟩ := Option.ite_none_right_eq_some.mp h
    obtain rfl := Option.some.inj h
    exact .event hr
  | getStatus =>
    obtain rfl := Option.some.inj h
    exact .getStatus
  | getOutput =>
    obtain rfl := Option.some.inj h
    exact .getOutput

theorem compiled_finishes {since : ℕ} {ok : Bool} {todo : List Effect}
    (h : (s.compiled since ok).pc = .ending todo) : ∃ state, todo = teardown s.job state := by
  rcases pc_compiled s since ok with ⟨wallMs, hpc⟩ | ⟨state, hpc⟩
  · cases hpc.symm.trans h
  · exact ⟨state, Pc.ending.inj (h.symm.trans hpc)⟩

theorem not_started_of_ending {todo : List Effect} (hpc : s.pc = .ending todo) :
    ¬ (s.pc.stage = .started ∨ s.pc.stage = .session) := by
  rw [hpc]
  nofun

theorem finishes_of_started {todo : List Effect} (h : s.step a = some s')
    (hs : s.pc.stage = .started ∨ s.pc.stage = .session) (hpc : s'.pc = .ending todo) :
    ∃ pre state, (pre = [] ∨ pre = terminate) ∧ todo = pre ++ teardown s.job state := by
  have hsetup : s.pc.stage ≠ .setup := by
    rcases hs with hs | hs <;> rw [hs] <;> nofun
  have hending : s.pc ≠ .ending todo := fun hpc' => not_started_of_ending hpc' hs
  cases step_branch h with
  | compileExits | compileFails | touchFails | resumes =>
    obtain ⟨state, hstate⟩ := compiled_finishes hpc
    exact ⟨[], state, .inl rfl, hstate⟩
  | waitReturns | wall | idle | cpu =>
    exact ⟨terminate, _, .inr rfl, (Pc.ending.inj hpc).symm⟩
  | readSpecFails hpc' | subscribeFails hpc' | subscribeControlFails hpc' | resolveBlobsFails hpc'
  | create _ _ hpc' | createLost hpc' | startLost hpc' | durableStart _ hpc'
  | contextDone _ hpc' | warmup _ hpc' | parkedStart _ _ hpc' | parkedKill _ _ hpc' =>
    exact absurd (by rw [hpc']; rfl) hsetup
  | effect e todo' hpc' => exact absurd hs (not_started_of_ending hpc')
  | readSpec | subscribe | subscribeControl | announceQueued | resolveBlobs | addOwned | parks
  | announceRunning | compileSucceeds | touches => cases hpc
  | _ => exact absurd hpc hending

structure Quiet (c : Collected) : Prop where
  result : c.result = false
  status : c.status.terminal = false
  output : c.output = none
  ended : c.ended = false

theorem Quiet.write (hq : Quiet c) (a : Act) (handler : Handler) :
    Quiet { c.write a with handler := handler } := by
  unfold Collected.write
  split
  · exact ⟨hq.result, rfl, hq.output, hq.ended⟩
  · exact ⟨hq.result, rfl, hq.output, hq.ended⟩
  · exact ⟨hq.result, hq.status, hq.output, hq.ended⟩

/-- A statement that neither publishes nor stores anything of the end. -/
def Effect.quiet : Effect → Bool
  | .publishResult | .writeStatus _ | .writeRunResult => false
  | _ => true

def publishing (state : JobState) : List Effect :=
  [.publishResult, .writeStatus state, .putArtifacts, .writeRunResult, .cleanup]

inductive Phase (c : Collected) : Prop where
  | running (hstage : c.handler.pc.stage = .started ∨ c.handler.pc.stage = .session)
      (hq : Quiet c) : Phase c
  | closing (pre : List Effect) (state : JobState)
      (hpc : c.handler.pc = .ending (pre ++ publishing state))
      (hpre : ∀ e ∈ pre, e.quiet = true) (hq : Quiet c) : Phase c
  | published (state : JobState) (hpc : c.handler.pc = .ending (publishing state).tail)
      (hr : c.result = true) (hs : c.status.terminal = false) (ho : c.output = none) : Phase c
  | decided (pre : List Effect) (hpc : c.handler.pc = .ending (pre ++ [.writeRunResult, .cleanup]))
      (hpre : pre = [.putArtifacts] ∨ pre = []) (hs : c.status.terminal = true)
      (ho : c.output = none) : Phase c
  | stored (todo : List Effect) (hpc : c.handler.pc = .ending todo)
      (htodo : ∀ e ∈ todo, e.quiet = true) (hs : c.status.terminal = true)
      (ho : c.output.isSome = true) : Phase c

theorem quiet_teardown (job : Job) (state : JobState) (hjob : job.spec.collectOutput = some true)
    {pre : List Effect} (hpre : pre = [] ∨ pre = terminate) :
    ∃ pre', pre ++ teardown job state = pre' ++ publishing state ∧
      ∀ e ∈ pre', e.quiet = true := by
  refine ⟨pre ++ [.closeStdinSub, .closeCtrlSub, .removeOwned, .releaseSlot, .releaseLeases],
    ?_, ?_⟩
  · simp [teardown, hjob, publishing]
  · rcases hpre with rfl | rfl <;> decide

theorem quiet_of_step (hq : c.handler.pc.stage ≠ .ending → Quiet c)
    (h : c.step uploads flagged ca = some c') (hpc : c'.handler.pc.stage ≠ .ending) : Quiet c' := by
  cases collect_turn h with
  | act a handler ha hs =>
    have hstage : c.handler.pc.stage ≠ .ending := fun hstage => by
      rcases step_of_ending hs hstage with ⟨hpc', -⟩ | ⟨e, todo, rfl, -⟩
      · exact hpc (by rw [hpc']; exact hstage)
      · exact ha rfl
    exact (hq hstage).write a handler
  | capture | effect => exact absurd rfl hpc
  | put url upload =>
    have hquiet := hq hpc
    exact ⟨hquiet.result, hquiet.status, hquiet.output, hquiet.ended⟩
  | event hr =>
    rw [(hq hpc).result] at hr
    cases hr
  | getStatus =>
    have hquiet := hq hpc
    refine ⟨hquiet.result, hquiet.status, hquiet.output, ?_⟩
    rw [hquiet.ended, hquiet.status]
    rfl
  | getOutput =>
    have hquiet := hq hpc
    exact ⟨hquiet.result, hquiet.status, hquiet.output, hquiet.ended⟩

theorem perform_eq_of_quiet {e : Effect} (he : e.quiet = true) :
    c.perform uploads flagged e = c := by
  cases e with
  | publishResult | writeStatus | writeRunResult => cases he
  | _ => rfl

theorem Phase.effect {e : Effect} {todo : List Effect} (uploads flagged : Bool) (hp : Phase c)
    (hpc : c.handler.pc = .ending (e :: todo)) :
    Phase
      { c.perform uploads flagged e with
        handler := { c.handler.perform e with pc := .ending todo } } := by
  cases hp with
  | running hstage => exact absurd hstage (not_started_of_ending hpc)
  | closing pre state hpc' hpre hq =>
    rw [hpc] at hpc'
    cases pre with
    | nil =>
      cases hpc'
      exact .published state rfl rfl hq.status hq.output
    | cons e' pre =>
      cases hpc'
      rw [perform_eq_of_quiet (hpre e List.mem_cons_self)]
      exact .closing pre state rfl (fun e' he' => hpre e' (List.mem_cons_of_mem e he'))
        ⟨hq.result, hq.status, hq.output, hq.ended⟩
  | published state hpc' hr hs ho =>
    rw [hpc] at hpc'
    cases hpc'
    exact .decided [.putArtifacts] rfl (.inl rfl) rfl ho
  | decided pre hpc' hpre hs ho =>
    rw [hpc] at hpc'
    rcases hpre with rfl | rfl
    · cases hpc'
      exact .decided [] rfl (.inr rfl) hs ho
    · cases hpc'
      exact .stored [.cleanup] rfl (by decide) hs rfl
  | stored todo' hpc' htodo hs ho =>
    rw [hpc] at hpc'
    cases hpc'
    rw [perform_eq_of_quiet (htodo e List.mem_cons_self)]
    exact .stored todo rfl (fun e' he' => htodo e' (List.mem_cons_of_mem e he')) hs ho

theorem Phase.of_eq (hp : Phase c) (hpc : c'.handler.pc = c.handler.pc)
    (hr : c'.result = c.result) (hs : c'.status = c.status) (ho : c'.output = c.output)
    (he : c.result = false → c.status.terminal = false → c'.ended = c.ended) : Phase c' := by
  have hquiet : Quiet c → Quiet c' := fun hq => by
    constructor
    · exact hr.trans hq.result
    · rw [hs, hq.status]
    · exact ho.trans hq.output
    · exact (he hq.result hq.status).trans hq.ended
  cases hp with
  | running hstage hq => exact .running (hpc ▸ hstage) (hquiet hq)
  | closing pre state hpc' hpre hq => exact .closing pre state (hpc.trans hpc') hpre (hquiet hq)
  | published state hpc' hr' hs' ho' =>
    exact .published state (hpc.trans hpc') (hr.trans hr') (hs ▸ hs') (ho.trans ho')
  | decided pre hpc' hpre hs' ho' =>
    exact .decided pre (hpc.trans hpc') hpre (hs ▸ hs') (ho.trans ho')
  | stored todo hpc' htodo hs' ho' =>
    exact .stored todo (hpc.trans hpc') htodo (hs ▸ hs') (ho ▸ ho')

theorem write_eq {todo : List Effect} (hpc : c.handler.pc = .ending todo) (a : Act) :
    c.write a = c := by
  unfold Collected.write
  rw [hpc]

theorem started_of_step (h : s.step a = some s')
    (hs : s.pc.stage = .started ∨ s.pc.stage = .session) (hpc : s'.pc.stage ≠ .ending) :
    s'.pc.stage = .started ∨ s'.pc.stage = .session := by
  obtain ⟨-, hmove⟩ := step_move h
  cases hmove with
  | stays hpc' =>
    rcases hpc' with hpc' | ⟨hstage, -⟩
    · exact hpc' ▸ hs
    · exact hstage ▸ hs
  | begins _ hpc' => exact .inl hpc'
  | arms _ hpc' => exact .inr hpc'
  | ends todo _ hpc' | terminates _ _ hpc' | effect _ _ _ _ hpc' =>
    exact absurd (by rw [hpc']; rfl) hpc

theorem Phase.act {handler : Handler} (hp : Phase c) (ha : a ≠ .effect)
    (hjob : c.handler.job.spec.collectOutput = some true) (hs : c.handler.step a = some handler) :
    Phase { c.write a with handler := handler } := by
  by_cases hstage : c.handler.pc.stage = .ending
  · obtain ⟨todo, hpc⟩ := Pc.exists_eq_ending hstage
    have hpc' : handler.pc = c.handler.pc := by
      rcases step_of_ending hs hstage with ⟨hpc', -⟩ | ⟨e, todo, rfl, -⟩
      · exact hpc'
      · exact absurd rfl ha
    rw [write_eq hpc]
    exact hp.of_eq hpc' rfl rfl rfl fun _ _ => rfl
  · cases hp with
    | running hstarted hq =>
      have hq' := hq.write a handler
      by_cases hstage' : handler.pc.stage = .ending
      · obtain ⟨todo, hpc⟩ := Pc.exists_eq_ending hstage'
        obtain ⟨pre, state, hpre, rfl⟩ := finishes_of_started hs hstarted hpc
        obtain ⟨pre', heq, hpre'⟩ := quiet_teardown c.handler.job state hjob hpre
        exact .closing pre' state (hpc.trans (congrArg Pc.ending heq)) hpre' hq'
      · exact .running (started_of_step hs hstarted hstage') hq'
    | closing pre state hpc | published state hpc | decided pre hpc | stored todo hpc =>
      exact absurd (by rw [hpc]; rfl) hstage

theorem Phase.step (hp : Phase c) (hjob : c.handler.job.spec.collectOutput = some true)
    (h : c.step uploads flagged ca = some c') : Phase c' := by
  cases collect_turn h with
  | act a handler ha hs => exact hp.act ha hjob hs
  | capture captured todo upload hpc =>
    exact (hp.effect uploads flagged hpc).of_eq rfl rfl rfl rfl
      fun _ _ => rfl
  | put | getOutput => exact hp.of_eq rfl rfl rfl rfl fun _ _ => rfl
  | effect e todo hpc => exact hp.effect uploads flagged hpc
  | event hr =>
    exact hp.of_eq rfl rfl rfl rfl fun hr' => by
      rw [hr] at hr'
      cases hr'
  | getStatus =>
    exact hp.of_eq rfl rfl rfl rfl fun _ hs => by
      rw [hs]
      exact Bool.or_false _

theorem collect_job (h : c.step uploads flagged ca = some c') :
    c'.handler.job = c.handler.job := by
  cases collect_turn h with
  | act a handler ha hs => exact step_job hs
  | effect e todo hpc => cases e <;> rfl
  | _ => rfl

/-- Once the result is on the channel, the output is stored exactly if its statement is done. -/
theorem Phase.stored_iff_of_result (hp : Phase c) (hr : c.result = true) :
    c.output.isSome = true ↔ .writeRunResult ∉ c.handler.pc.todo := by
  cases hp with
  | running _ hq | closing _ _ _ _ hq =>
    rw [hq.result] at hr
    cases hr
  | published state hpc _ _ ho => simp [ho, hpc, Pc.todo, publishing]
  | decided pre hpc _ _ ho => simp [ho, hpc, Pc.todo]
  | stored todo hpc htodo _ ho =>
    refine iff_of_true ho fun hmem => ?_
    rw [hpc] at hmem
    exact absurd (htodo _ hmem) nofun

theorem Phase.stored_iff_of_status (hp : Phase c) (hs : c.status.terminal = true) :
    c.output.isSome = true ↔ (.writeRunResult ∈ c.handler.pc.todo →
      ∃ state, .writeStatus state ∈ c.handler.pc.todo) := by
  cases hp with
  | running _ hq | closing _ _ _ _ hq =>
    rw [hq.status] at hs
    cases hs
  | published _ _ _ hs' =>
    rw [hs'] at hs
    cases hs
  | decided pre hpc hpre _ ho =>
    rcases hpre with rfl | rfl <;> simp [ho, hpc, Pc.todo]
  | stored todo hpc htodo _ ho =>
    refine iff_of_true ho fun hmem => ?_
    rw [hpc] at hmem
    exact absurd (htodo _ hmem) nofun

theorem Phase.readsLate_of_status (hp : Phase c) (hs : c.status.terminal = false) :
    .writeRunResult ∈ c.handler.pc.todo → ∃ state, .writeStatus state ∈ c.handler.pc.todo := by
  intro hmem
  cases hp with
  | running hstage =>
    rw [Pc.todo_eq_nil (by rcases hstage with h | h <;> rw [h] <;> nofun)] at hmem
    cases hmem
  | closing pre state hpc => exact ⟨state, by simp [hpc, Pc.todo, publishing]⟩
  | published state hpc => exact ⟨state, by simp [hpc, Pc.todo, publishing]⟩
  | decided _ _ _ hs' | stored _ _ _ hs' =>
    rw [hs] at hs'
    cases hs'

theorem perform_ended (uploads flagged : Bool) (c : Collected) (e : Effect) :
    (c.perform uploads flagged e).ended = c.ended ∧
      (c.output.isSome = true → (c.perform uploads flagged e).output.isSome = true) := by
  cases e with
  | writeRunResult => exact ⟨rfl, fun _ => rfl⟩
  | _ => exact ⟨rfl, id⟩

theorem write_output (c : Collected) (a : Act) :
    (c.write a).ended = c.ended ∧ (c.write a).output = c.output := by
  unfold Collected.write
  split <;> exact ⟨rfl, rfl⟩

theorem ready_iff_of_step (hp : Phase c) (hready : c.OutputReady)
    (h : c.step uploads flagged ca = some c') : c'.OutputReady ↔ ReadsLate c ca := by
  cases collect_turn h with
  | act a handler ha hs =>
    obtain ⟨he, ho⟩ := write_output c a
    exact iff_of_true (fun hended => ho ▸ hready (he ▸ hended)) True.intro
  | capture | put | getOutput => exact iff_of_true hready True.intro
  | effect e todo hpc =>
    obtain ⟨he, ho⟩ := perform_ended uploads flagged c e
    exact iff_of_true (fun hended => ho (hready (he ▸ hended))) True.intro
  | event hr =>
    rw [ReadsLate, ← hp.stored_iff_of_result hr]
    exact ⟨fun h => h rfl, fun h _ => h⟩
  | getStatus =>
    cases hs : c.status.terminal with
    | true =>
      rw [ReadsLate, ← hp.stored_iff_of_status hs]
      exact ⟨fun h => h (Bool.or_true _), fun h _ => h⟩
    | false =>
      refine iff_of_true (fun hended => hready ?_) (hp.readsLate_of_status hs)
      exact (Bool.or_false _).symm.trans hended

theorem terminal_of_stores (hp : Phase c) (h : c.step uploads flagged ca = some c')
    (ho : ¬ c.output.isSome = true) (ho' : c'.output.isSome = true) :
    c.status.terminal = true := by
  cases collect_turn h with
  | act a handler ha hs => exact absurd ((write_output c a).2 ▸ ho') ho
  | effect e todo hpc =>
    cases e with
    | writeRunResult =>
      cases hp with
      | running hstage => exact absurd hstage (not_started_of_ending hpc)
      | closing pre state hpc' hpre =>
        rw [hpc] at hpc'
        cases pre with
        | nil => cases hpc'
        | cons e pre =>
          cases hpc'
          exact absurd (hpre _ List.mem_cons_self) nofun
      | published state hpc' =>
        rw [hpc] at hpc'
        cases hpc'
      | decided _ _ _ hs | stored _ _ _ hs => exact hs
    | _ => exact absurd ho' ho
  | _ => exact absurd ho' ho

def Collected.withClient (c : Collected) (ended : Bool) (answers : List (Option RunResult)) :
    Collected :=
  { c with ended := ended, answers := answers }

theorem step_withClient (h : c.step uploads flagged ca = some c') (ended : Bool)
    (answers : List (Option RunResult)) : ∃ ended' answers',
      (c.withClient ended answers).step uploads flagged ca =
        some (c'.withClient ended' answers') := by
  cases ca with
  | act a =>
    obtain ⟨ha, h⟩ := Option.ite_none_left_eq_some.mp h
    obtain ⟨handler, hs, rfl⟩ := Option.map_eq_some_iff.mp h
    refine ⟨ended, answers, ?_⟩
    simp only [Collected.step, if_neg ha, Collected.withClient, hs, Option.map_some,
      Option.some.injEq]
    unfold Collected.write
    dsimp only
    split <;> rfl
  | capture captured =>
    simp only [Collected.step] at h
    split at h
    · next todo hpc =>
      obtain ⟨handler, hs, rfl⟩ := Option.map_eq_some_iff.mp h
      refine ⟨ended, answers, ?_⟩
      simp only [Collected.step, Collected.withClient, hpc, hs, Option.map_some]
      rfl
    · cases h
  | put url =>
    simp only [Collected.step] at h
    split at h
    · next todo a files hpc hfiles =>
      obtain rfl := Option.some.inj h
      refine ⟨ended, answers, ?_⟩
      simp only [Collected.step, Collected.withClient, hpc, hfiles]
    · cases h
  | effect =>
    simp only [Collected.step] at h
    split at h
    · next e todo hpc =>
      obtain ⟨hne, h⟩ := Option.ite_none_left_eq_some.mp h
      obtain ⟨handler, hs, rfl⟩ := Option.map_eq_some_iff.mp h
      refine ⟨ended, answers, ?_⟩
      simp only [Collected.step, Collected.withClient, hpc, hs, Option.map_some]
      rw [if_neg hne]
      cases e <;> rfl
    · cases h
  | event =>
    obtain ⟨hr, h⟩ := Option.ite_none_right_eq_some.mp h
    obtain rfl := Option.some.inj h
    exact ⟨true, answers, if_pos hr⟩
  | getStatus =>
    obtain rfl := Option.some.inj h
    exact ⟨ended || c.status.terminal, answers, rfl⟩
  | getOutput =>
    obtain rfl := Option.some.inj h
    exact ⟨ended, answers ++ [c.output], rfl⟩

theorem run_withClient (hr : run (Collected.step uploads flagged) c cas = some t) (ended : Bool)
    (answers : List (Option RunResult)) : ∃ ended' answers',
      run (Collected.step uploads flagged) (c.withClient ended answers) cas =
        some (t.withClient ended' answers') := by
  induction cas generalizing c ended answers with
  | nil =>
    obtain rfl : c = t := Option.some.inj hr
    exact ⟨ended, answers, rfl⟩
  | cons ca cas ih =>
    obtain ⟨c', hs, hr⟩ := run_cons_eq_some.mp hr
    obtain ⟨ended', answers', hs'⟩ := step_withClient hs ended answers
    rw [run_cons_of_step hs']
    exact ih hr ended' answers'

theorem ending_of_step (hc : c.handler.pc.stage = .ending)
    (h : c.step uploads flagged ca = some c') : c'.handler.pc.stage = .ending := by
  cases collect_turn h with
  | act a handler ha hs =>
    rcases step_of_ending hs hc with ⟨hpc, -⟩ | ⟨e, todo, rfl, -⟩
    · exact (congrArg Pc.stage hpc).trans hc
    · exact absurd rfl ha
  | capture | effect => rfl
  | _ => exact hc

theorem quiet_of_run (hr : run (Collected.step uploads flagged) (.start job) cas = some t) :
    t.handler.pc.stage ≠ .ending → Quiet t :=
  Reachable.invariant (I := fun c => c.handler.pc.stage ≠ .ending → Quiet c)
    (fun _ _ _ hq h => quiet_of_step hq h) (fun _ => ⟨rfl, rfl, rfl, rfl⟩) ⟨cas, hr⟩

theorem ready_of_quiet (hr : run (Collected.step uploads flagged) (.start job) cas = some t)
    (hstage : t.handler.pc.stage ≠ .ending) :
    Always (Collected.step uploads flagged) Collected.OutputReady (.start job) cas ∧
      EveryStep (Collected.step uploads flagged) ReadsLate (.start job) cas := by
  have hopen : Always (Collected.step uploads flagged) (fun c => ¬ c.handler.pc.stage = .ending)
      (.start job) cas := always_not_of_last (fun _ _ _ => ending_of_step) hstage hr
  have hquiet : Always (Collected.step uploads flagged)
      (fun c => c.handler.pc.stage ≠ .ending → Quiet c) (.start job) cas :=
    .of_invariant (fun _ _ _ hq h => quiet_of_step hq h) fun _ => ⟨rfl, rfl, rfl, rfl⟩
  constructor
  · refine (hquiet.and hopen).mono ?_
    rintro c ⟨hq, hc⟩ hended
    rw [(hq hc).ended] at hended
    cases hended
  · refine EveryStep.of_always (G := fun _ _ => True) (fun c ca _ hc _ _ => ?_) hopen .trivial hr
    have htodo := Pc.todo_eq_nil hc
    cases ca with
    | event =>
      rw [ReadsLate, htodo]
      exact List.not_mem_nil
    | getStatus =>
      rw [ReadsLate, htodo]
      nofun
    | _ => exact True.intro

theorem ready_iff_of_started (hp : Phase c)
    (hjob : c.handler.job.spec.collectOutput = some true) (hready : c.OutputReady)
    (hr : run (Collected.step uploads flagged) c cas = some t) :
    Always (Collected.step uploads flagged) Collected.OutputReady c cas ↔
      EveryStep (Collected.step uploads flagged) ReadsLate c cas := by
  refine always_iff_everyStep_of (W := fun _ _ => True)
    (J := fun c => Phase c ∧ c.handler.job.spec.collectOutput = some true)
    (fun c ca c' hJ _ h => ⟨hJ.1.step hJ.2 h, ?_⟩)
    (fun c ca c' hJ _ hI _ h => ready_iff_of_step hJ.1 hI h) ⟨hp, hjob⟩ hready .trivial hr
  rw [collect_job h]
  exact hJ.2

theorem phase_of_run (hp : Phase c) (hjob : c.handler.job.spec.collectOutput = some true)
    (hr : run (Collected.step uploads flagged) c cas = some t) : Phase t := by
  have hinv := Reachable.invariant
    (I := fun c => Phase c ∧ c.handler.job.spec.collectOutput = some true)
    (fun c ca c' hJ h => ⟨hJ.1.step hJ.2 h, by rw [collect_job h]; exact hJ.2⟩)
    ⟨hp, hjob⟩ ⟨cas, hr⟩
  exact hinv.1

theorem Phase.stored_of_ended (hp : Phase c) (hend : c.handler.Ended) :
    c.output.isSome = true := by
  have hpc : c.handler.pc = .ending [] := hend
  cases hp with
  | running hstage => exact absurd hstage (not_started_of_ending hpc)
  | closing pre state hpc' =>
    rw [hpc] at hpc'
    cases pre <;> cases hpc'
  | published state hpc' =>
    rw [hpc] at hpc'
    cases hpc'
  | decided pre hpc' hpre =>
    rw [hpc] at hpc'
    rcases hpre with rfl | rfl <;> cases hpc'
  | stored _ _ _ _ ho => exact ho

/-- The job reaches the compile step or the run. -/
def Starts (uploads flagged : Bool) (job : Job) (cas : List CollectAct) : Prop :=
  ∃ pre post u, cas = pre ++ post ∧
    run (Collected.step uploads flagged) (.start job) pre = some u ∧ u.handler.pc.stage = .started

/-- A client that reads the status and then the output gets a 404, for an output that the worker
goes on to store. -/
def Missable (uploads flagged : Bool) (job : Job) (cas : List CollectAct) : Prop :=
  ∃ pre post u t, cas = pre ++ post ∧
    run (Collected.step uploads flagged) (.start job) (pre ++ [.getStatus, .getOutput]) = some u ∧
    u.ended = true ∧ u.answers.getLast? = some none ∧
    run (Collected.step uploads flagged) u post = some t ∧ t.output.isSome = true

/-- A run of a collected job that starts and returns shows its client the end without the output
exactly if the client reads it in between. There is room for such a read in every run. -/
theorem ready_iff_readsLate (hjob : job.spec.collectOutput = some true)
    (hr : run (Collected.step uploads flagged) (.start job) cas = some t)
    (hstart : Starts uploads flagged job cas) (hend : t.handler.Ended) :
    (Always (Collected.step uploads flagged) Collected.OutputReady (.start job) cas ↔
      EveryStep (Collected.step uploads flagged) ReadsLate (.start job) cas) ∧
    Missable uploads flagged job cas := by
  obtain ⟨pre, post, u, rfl, hu, hstage⟩ := hstart
  have hne : u.handler.pc.stage ≠ .ending := by rw [hstage]; nofun
  have hq := quiet_of_run hu hne
  have hp : Phase u := .running (.inl hstage) hq
  have hujob : u.handler.job.spec.collectOutput = some true := by
    have hinv := Reachable.invariant (I := fun c : Collected => c.handler.job = job)
      (fun c ca c' hJ h => (collect_job h).trans hJ) rfl ⟨pre, hu⟩
    rw [hinv]
    exact hjob
  rw [run_append, hu] at hr
  constructor
  · obtain ⟨hready, hlate⟩ := ready_of_quiet hu hne
    rw [always_append hu, everyStep_append hu,
      ready_iff_of_started hp hujob (hready.last hu) hr]
    exact and_congr_left' (iff_of_true hready hlate)
  · have hpt := phase_of_run hp hujob hr
    obtain ⟨bs, ca, cs, v, v', rfl, hv, ho, hstep, ho', hcs⟩ :=
      exists_crossing (I := fun c => c.output.isSome = true) (by rw [hq.output]; nofun)
        (hpt.stored_of_ended hend) hr
    have hs := terminal_of_stores (phase_of_run hp hujob hv) hstep ho ho'
    have hnone : v.output = none := Option.not_isSome_iff_eq_none.mp ho
    obtain ⟨ended, answers, hcs'⟩ := run_withClient
      (show run (Collected.step uploads flagged) v (ca :: cs) = some t by
        rw [run_cons_of_step hstep]
        exact hcs) true (v.answers ++ [none])
    refine ⟨pre ++ bs, ca :: cs, v.withClient true (v.answers ++ [none]),
      t.withClient ended answers, (List.append_assoc _ _ _).symm, ?_, rfl, ?_, hcs', ?_⟩
    · have hvrun : run (Collected.step uploads flagged) (.start job) (pre ++ bs) = some v := by
        rw [run_append, hu]
        exact hv
      rw [run_append, hvrun]
      simp [run, Collected.step, Collected.withClient, hs, hnone]
    · exact List.getLast?_concat
    · exact hpt.stored_of_ended hend

def collectScript : Job where
  spec := { script.spec with collectOutput := some true }
  eligible := false
  marked := false
  warmupMs := 30000

/-- The script is claimed, started and run. -/
def runScript : List CollectAct :=
  .act .requestStart :: List.replicate 12 (.act (.call true))

/-- The session has ended, one file is captured, and the result is published. -/
def endScript : List CollectAct :=
  [.act .waitReturns, .capture [⟨"plot.png", "image/png", [137, 80, 78, 71]⟩]] ++
    List.replicate 10 .effect

/-- The file is uploaded, and the output is stored. -/
def uploadScript : List CollectAct :=
  [.put (some "https://artifacts/plot.png"), .effect, .effect, .effect]

theorem not_always_ready :
    ¬ ∀ (uploads flagged : Bool) (job : Job) (cas : List CollectAct) (t : Collected),
      job.spec.collectOutput = some true →
        run (Collected.step uploads flagged) (.start job) cas = some t →
          Starts uploads flagged job cas →
            Always (Collected.step uploads flagged) Collected.OutputReady (.start job) cas := by
  intro hall
  obtain ⟨t, hr, hready⟩ : ∃ t,
      run (Collected.step true false) (.start collectScript)
        (runScript ++ endScript ++ [.event]) = some t ∧ ¬ t.OutputReady :=
    ⟨_, rfl, by decide⟩
  have hstart : Starts true false collectScript (runScript ++ endScript ++ [.event]) :=
    ⟨runScript.take 12, runScript.drop 12 ++ endScript ++ [.event], _, rfl, rfl, rfl⟩
  exact hready ((hall _ _ _ _ t rfl hr hstart).last hr)

/-- The client reads the event once the output is stored. -/
theorem eventLast_ready :
    Always (Collected.step true false) Collected.OutputReady (.start collectScript)
      (runScript ++ endScript ++ uploadScript ++ [.event]) ∧
    Missable true false collectScript (runScript ++ endScript ++ uploadScript ++ [.event]) := by
  obtain ⟨t, hr, hpc⟩ : ∃ t,
      run (Collected.step true false) (.start collectScript)
        (runScript ++ endScript ++ uploadScript ++ [.event]) = some t ∧
          t.handler.pc = .ending [] := ⟨_, rfl, rfl⟩
  have hstart : Starts true false collectScript
      (runScript ++ endScript ++ uploadScript ++ [.event]) :=
    ⟨runScript.take 12, runScript.drop 12 ++ endScript ++ uploadScript ++ [.event], _, rfl, rfl,
      rfl⟩
  obtain ⟨hready, hmissable⟩ := ready_iff_readsLate rfl hr hstart hpc
  exact ⟨hready.mpr (by decide), hmissable⟩

end CodeRunner.Worker
