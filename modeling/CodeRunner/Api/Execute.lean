import CodeRunner.Jobstore
import Mathlib.Logic.Function.Basic

/-! # The execute route

`POST /v1/execute` from the capacity check to its answer: the job specification is built and
handed over by a pipeline of three commands, which any other command may come between. Requests
come to any number of API replicas, and workers claim from the other end of the queue.
-/

namespace CodeRunner.Api

open Transition

/-- A manifest as far as the route reads it. -/
structure Manifest where
  compile : Option (List String)
  defaultLimits : Limits
  entrypoint : String
  image : String
  interactive : Bool
  language : String
  run : List String
  version : String
  deriving DecidableEq, Repr

structure LimitsOverride where
  cpuMs : Option Int64
  idleMs : Option Int64
  maxArtifactBytes : Option Int64
  maxArtifacts : Option Int64
  memoryMb : Option Int64
  outputKb : Option Int64
  pids : Option Int64
  wallTimeMs : Option Int64
  deriving DecidableEq, Repr

/-- A valid request, its language and version resolved to a manifest. -/
structure ExecuteRequest where
  collectOutput : Option Bool
  files : List FileInput
  limits : Option LimitsOverride
  manifest : Manifest
  deriving DecidableEq, Repr

def mergeLimits (defaults : Limits) (overrides : Option LimitsOverride) : Limits :=
  match overrides with
  | none => defaults
  | some overrides =>
    { cpuMs := overrides.cpuMs.getD defaults.cpuMs
      idleMs := overrides.idleMs.getD defaults.idleMs
      maxArtifactBytes := overrides.maxArtifactBytes.getD defaults.maxArtifactBytes
      maxArtifacts := overrides.maxArtifacts.getD defaults.maxArtifacts
      memoryMb := overrides.memoryMb.getD defaults.memoryMb
      outputKb := overrides.outputKb.getD defaults.outputKb
      pids := overrides.pids.getD defaults.pids
      wallTimeMs := overrides.wallTimeMs.getD defaults.wallTimeMs }

def channelForJob (jobId : String) : String := "private-run-" ++ jobId

def ExecuteRequest.spec (req : ExecuteRequest) (jobId : String) : JobSpec where
  channel := channelForJob jobId
  collectOutput := some (req.collectOutput.getD false)
  compile := req.manifest.compile
  entrypoint := req.manifest.entrypoint
  files := req.files
  image := req.manifest.image
  interactive := req.manifest.interactive
  jobId := jobId
  language := req.manifest.language
  limits := mergeLimits req.manifest.defaultLimits req.limits
  run := req.manifest.run
  version := req.manifest.version

inductive Response where
  | accepted (jobId channel : String)
  | atCapacity (error : String) (retryAfterMs : ℕ)
  deriving DecidableEq, Repr

def admissionError (depth cap : ℕ) : Response :=
  .atCapacity
    ("Executor at capacity (queue depth " ++ toString depth ++ " ≥ " ++ toString cap ++
      "). Retry shortly.")
    1000

/-- The command a request is at: the two `LLEN`, and those of the pipeline. -/
inductive PostPc where
  | idle
  | llen (req : ExecuteRequest)
  | depth
  | setSpec (spec : JobSpec)
  | setStatus (spec : JobSpec)
  | lpush (spec : JobSpec)
  | answered (response : Response)
  deriving DecidableEq, Repr

/-- `results` is what `exec` resolves with, whether each command has succeeded. -/
structure Post where
  pc : PostPc
  results : List Bool
  deriving DecidableEq, Repr

/-- The keys of the route in Redis, with its requests. `jobs` is `jobs:queue` from its head, and
`stored` holds the jobs whose specification has been stored. -/
structure Queue (ι : Type*) where
  specs : String → Option JobSpec
  status : String → Option JobStatus
  jobs : List String
  posts : ι → Post
  stored : List String

/-- `llen` brings the id that `randomUUID` gives if the request is admitted, `command` is the next
one of the pipeline. -/
inductive QueueAct (ι : Type*) where
  | post (i : ι) (req : ExecuteRequest)
  | llen (i : ι) (jobId : String)
  | depth (i : ι)
  | command (i : ι) (ok : Bool)
  | claim
  | expire (jobId : String)
  deriving DecidableEq

variable {ι : Type*}

def Queue.start : Queue ι where
  specs _ := none
  status _ := none
  jobs := []
  posts _ := ⟨.idle, []⟩
  stored := []

def PostPc.next : PostPc → PostPc
  | .setSpec spec => .setStatus spec
  | .setStatus spec => .lpush spec
  -- the results of `exec` are not looked at
  | .lpush spec => .answered (.accepted spec.jobId spec.channel)
  | pc => pc

/-- The effect of a command on the keys. -/
def Queue.exec (q : Queue ι) : PostPc → Queue ι
  | .setSpec spec =>
    { q with
      specs := Function.update q.specs spec.jobId (some spec)
      stored := spec.jobId :: q.stored }
  | .setStatus spec =>
    { q with status := Function.update q.status spec.jobId (some (spec.status .queued)) }
  | .lpush spec => { q with jobs := spec.jobId :: q.jobs }
  | _ => q

def PostPc.piped : PostPc → Bool
  | .setSpec _ | .setStatus _ | .lpush _ => true
  | _ => false

def PostPc.begun : PostPc → Bool
  | .setStatus _ | .lpush _ | .answered (.accepted _ _) => true
  | _ => false

variable [DecidableEq ι]

def Queue.setPost (q : Queue ι) (i : ι) (post : Post) : Queue ι :=
  { q with posts := Function.update q.posts i post }

def Queue.step (maxQueueDepth : ℕ) (q : Queue ι) : QueueAct ι → Option (Queue ι)
  | .post i req =>
    match (q.posts i).pc with
    | .idle => some (q.setPost i ⟨.llen req, []⟩)
    | _ => none
  | .llen i jobId =>
    match (q.posts i).pc with
    | .llen req =>
      if maxQueueDepth ≤ q.jobs.length then some (q.setPost i ⟨.depth, []⟩)
      else some (q.setPost i ⟨.setSpec (req.spec jobId), []⟩)
    | _ => none
  | .depth i =>
    match (q.posts i).pc with
    | .depth => some (q.setPost i ⟨.answered (admissionError q.jobs.length maxQueueDepth), []⟩)
    | _ => none
  | .command i ok =>
    let post := q.posts i
    if post.pc.piped then
      some ((if ok then q.exec post.pc else q).setPost i ⟨post.pc.next, post.results ++ [ok]⟩)
    else none
  | .claim =>
    match q.jobs with
    | [] => none
    | _ :: _ => some { q with jobs := q.jobs.dropLast }
  | .expire jobId =>
    some { q with
      specs := Function.update q.specs jobId none
      status := Function.update q.status jobId none }

/-- A 202 has all three commands behind it, and a queued job its specification. -/
structure Queue.Durable (q : Queue ι) : Prop where
  accepted : ∀ i jobId channel, (q.posts i).pc = .answered (.accepted jobId channel) →
    (q.posts i).results = [true, true, true]
  queued : ∀ jobId ∈ q.jobs, jobId ∈ q.stored

/-- No command of a pipeline fails. -/
def QueueAct.Succeeds : QueueAct ι → Prop
  | .command _ ok => ok = true
  | _ => True

/-- Every request has been answered. -/
def Queue.Settled (q : Queue ι) : Prop :=
  ∀ i, (q.posts i).pc = .idle ∨ ∃ response, (q.posts i).pc = .answered response

variable {maxQueueDepth : ℕ} {q q' t : Queue ι} {qa : QueueAct ι} {qas : List (QueueAct ι)}

@[simp] theorem setPost_self (i : ι) (post : Post) : (q.setPost i post).posts i = post :=
  Function.update_self _ _ _

theorem setPost_of_ne {i j : ι} (hj : j ≠ i) (post : Post) :
    (q.setPost i post).posts j = q.posts j :=
  Function.update_of_ne hj _ _

theorem forall_setPost {P : Post → Prop} {i : ι} {post : Post} (hpost : P post)
    (h : ∀ j, P (q.posts j)) (j : ι) : P ((q.setPost i post).posts j) := by
  by_cases hj : j = i
  · subst hj
    rw [setPost_self]
    exact hpost
  · rw [setPost_of_ne hj]
    exact h j

inductive QueueTurn (q : Queue ι) : QueueAct ι → Queue ι → Prop where
  | waits (qa : QueueAct ι) (i : ι) (pc : PostPc) (hs : qa.Succeeds)
      (hold : (q.posts i).pc.piped = false ∧ (q.posts i).pc.begun = false)
      (hpc : pc.begun = false) : QueueTurn q qa (q.setPost i ⟨pc, []⟩)
  | command (i : ι) (ok : Bool) (hpc : (q.posts i).pc.piped = true) :
      QueueTurn q (.command i ok)
        ((if ok then q.exec (q.posts i).pc else q).setPost i
          ⟨(q.posts i).pc.next, (q.posts i).results ++ [ok]⟩)
  | keys (qa : QueueAct ι) (hs : qa.Succeeds) (q' : Queue ι) (hposts : q'.posts = q.posts)
      (hstored : q'.stored = q.stored) (hjobs : ∀ jobId ∈ q'.jobs, jobId ∈ q.jobs) :
      QueueTurn q qa q'

theorem queue_turn (h : q.step maxQueueDepth qa = some q') : QueueTurn q qa q' := by
  cases qa with
  | post i req =>
    simp only [Queue.step] at h
    split at h
    · next hpc =>
      obtain rfl := Option.some.inj h
      exact .waits _ i _ True.intro (by rw [hpc]; exact ⟨rfl, rfl⟩) rfl
    · cases h
  | llen i jobId =>
    simp only [Queue.step] at h
    split at h
    · next req hpc =>
      split at h
      · obtain rfl := Option.some.inj h
        exact .waits _ i _ True.intro (by rw [hpc]; exact ⟨rfl, rfl⟩) rfl
      · obtain rfl := Option.some.inj h
        exact .waits _ i _ True.intro (by rw [hpc]; exact ⟨rfl, rfl⟩) rfl
    · cases h
  | depth i =>
    simp only [Queue.step] at h
    split at h
    · next hpc =>
      obtain rfl := Option.some.inj h
      exact .waits _ i _ True.intro (by rw [hpc]; exact ⟨rfl, rfl⟩) rfl
    · cases h
  | command i ok =>
    obtain ⟨hpc, h⟩ := Option.ite_none_right_eq_some.mp h
    obtain rfl := Option.some.inj h
    exact .command i ok hpc
  | claim =>
    simp only [Queue.step] at h
    split at h
    · cases h
    · obtain rfl := Option.some.inj h
      exact .keys .claim True.intro _ rfl rfl fun _ hmem => (List.dropLast_sublist _).subset hmem
  | expire jobId =>
    obtain rfl := Option.some.inj h
    exact .keys (.expire jobId) True.intro _ rfl rfl fun _ hmem => hmem

/-- All commands of the request so far have taken effect. -/
def Post.Sound (stored : List String) (post : Post) : Prop :=
  match post.pc with
  | .setSpec _ => post.results = []
  | .setStatus spec => post.results = [true] ∧ spec.jobId ∈ stored
  | .lpush spec => post.results = [true, true] ∧ spec.jobId ∈ stored
  | .answered (.accepted _ _) => post.results = [true, true, true]
  | _ => True

structure Queue.Sound (q : Queue ι) : Prop where
  posts : ∀ i, (q.posts i).Sound q.stored
  queued : ∀ jobId ∈ q.jobs, jobId ∈ q.stored

omit [DecidableEq ι] in
theorem Queue.Sound.start : (Queue.start : Queue ι).Sound where
  posts _ := True.intro
  queued _ h := nomatch h

omit [DecidableEq ι] in
theorem Queue.Sound.durable (hq : q.Sound) : q.Durable where
  accepted i jobId channel hpc := by
    have hpost := hq.posts i
    rw [Post.Sound, hpc] at hpost
    exact hpost
  queued := hq.queued

theorem sound_of_not_begun {pc : PostPc} (h : pc.begun = false) (stored : List String) :
    Post.Sound stored ⟨pc, []⟩ := by
  cases pc with
  | idle | llen | depth => exact True.intro
  | setSpec => rfl
  | setStatus | lpush => cases h
  | answered response =>
    cases response with
    | accepted => cases h
    | atCapacity => exact True.intro

theorem Post.Sound.mono {stored stored' : List String} {post : Post} (h : post.Sound stored)
    (hsub : ∀ jobId ∈ stored, jobId ∈ stored') : post.Sound stored' := by
  obtain ⟨pc, results⟩ := post
  cases pc with
  | setStatus | lpush => exact ⟨h.1, hsub _ h.2⟩
  | answered response => cases response <;> exact h
  | _ => exact h

theorem Queue.Sound.exec {i : ι} (hq : q.Sound) (hpc : (q.posts i).pc.piped = true) :
    ((q.exec (q.posts i).pc).setPost i
      ⟨(q.posts i).pc.next, (q.posts i).results ++ [true]⟩).Sound := by
  have hpost := hq.posts i
  unfold Post.Sound at hpost
  cases hi : (q.posts i).pc with
  | setSpec spec =>
    rw [hi] at hpost
    constructor
    · refine forall_setPost ?_ fun j => (hq.posts j).mono fun _ => List.mem_cons_of_mem _
      rw [hpost]
      exact ⟨rfl, List.mem_cons_self⟩
    · exact fun jobId hmem => List.mem_cons_of_mem _ (hq.queued jobId hmem)
  | setStatus spec =>
    rw [hi] at hpost
    constructor
    · refine forall_setPost ?_ hq.posts
      rw [hpost.1]
      exact ⟨rfl, hpost.2⟩
    · exact hq.queued
  | lpush spec =>
    rw [hi] at hpost
    constructor
    · refine forall_setPost ?_ hq.posts
      rw [hpost.1]
      rfl
    · intro jobId hmem
      rcases List.mem_cons.mp hmem with rfl | hmem
      · exact hpost.2
      · exact hq.queued jobId hmem
  | _ =>
    rw [hi] at hpc
    cases hpc

theorem step_sound (hq : q.Sound) (hs : qa.Succeeds) (h : q.step maxQueueDepth qa = some q') :
    q'.Sound := by
  cases queue_turn h with
  | waits _ i pc hs' hold hpc =>
    constructor
    · exact forall_setPost (sound_of_not_begun hpc _) hq.posts
    · exact hq.queued
  | command i ok hpc =>
    obtain rfl : ok = true := hs
    exact hq.exec hpc
  | keys _ hs' _ hposts hstored hjobs =>
    constructor
    · rw [hposts, hstored]
      exact hq.posts
    · rw [hstored]
      exact fun jobId hmem => hq.queued jobId (hjobs jobId hmem)

/-- A command of the request has failed, and the request goes on to its 202. -/
def Queue.Doomed (q : Queue ι) : Prop :=
  ∃ i, (q.posts i).pc.begun = true ∧ false ∈ (q.posts i).results

theorem begun_next {pc : PostPc} (h : pc.piped = true) : pc.next.begun = true := by
  cases pc with
  | setSpec | setStatus | lpush => rfl
  | _ => cases h

theorem doomed_of_step (hs : ¬ qa.Succeeds) (h : q.step maxQueueDepth qa = some q') :
    q'.Doomed := by
  cases queue_turn h with
  | waits _ i pc hs' => exact absurd hs' hs
  | command i ok hpc =>
    obtain rfl : ok = false := Bool.not_eq_true _ ▸ hs
    refine ⟨i, ?_, ?_⟩
    · rw [setPost_self]
      exact begun_next hpc
    · rw [setPost_self]
      exact List.mem_append_right _ List.mem_cons_self
  | keys _ hs' => exact absurd hs' hs

omit [DecidableEq ι] in
theorem exec_posts (q : Queue ι) (pc : PostPc) : (q.exec pc).posts = q.posts := by
  cases pc <;> rfl

theorem Queue.Doomed.step (hd : q.Doomed) (h : q.step maxQueueDepth qa = some q') :
    q'.Doomed := by
  obtain ⟨i, hbegun, hmem⟩ := hd
  cases queue_turn h with
  | waits _ j pc hs hold hpc =>
    have hij : i ≠ j := by
      rintro rfl
      rw [hold.2] at hbegun
      cases hbegun
    refine ⟨i, ?_, ?_⟩ <;> rw [setPost_of_ne hij] <;> assumption
  | command j ok hpc =>
    by_cases hij : i = j
    · subst hij
      refine ⟨i, ?_, ?_⟩
      · rw [setPost_self]
        exact begun_next hpc
      · rw [setPost_self]
        exact List.mem_append_left _ hmem
    · have hposts : (if ok then q.exec (q.posts j).pc else q).posts = q.posts := by
        cases ok with
        | false => rfl
        | true => exact exec_posts _ _
      refine ⟨i, ?_, ?_⟩ <;> rw [setPost_of_ne hij, hposts] <;> assumption
  | keys _ hs _ hposts =>
    refine ⟨i, ?_, ?_⟩ <;> rw [hposts] <;> assumption

omit [DecidableEq ι] in
theorem Queue.Doomed.not_durable (hd : q.Doomed) (hsettled : q.Settled) : ¬ q.Durable := by
  intro hq
  obtain ⟨i, hbegun, hmem⟩ := hd
  rcases hsettled i with hpc | ⟨response, hpc⟩
  · rw [hpc] at hbegun
    cases hbegun
  · cases response with
    | atCapacity =>
      rw [hpc] at hbegun
      cases hbegun
    | accepted jobId channel =>
      rw [hq.accepted i jobId channel hpc] at hmem
      revert hmem
      decide

/-- Without a failing command every 202 stands for a job that is queued with its specification.
In a run that leaves no request unanswered it does so only then. -/
theorem durable_iff_succeeds (hr : run (Queue.step maxQueueDepth) (.start : Queue ι) qas = some t) :
    (EveryStep (Queue.step maxQueueDepth) (fun _ qa => qa.Succeeds) (.start : Queue ι) qas →
      Always (Queue.step maxQueueDepth) Queue.Durable .start qas) ∧
    (t.Settled →
      (Always (Queue.step maxQueueDepth) Queue.Durable (.start : Queue ι) qas ↔
        EveryStep (Queue.step maxQueueDepth) (fun _ qa => qa.Succeeds) .start qas)) := by
  have hdurable : EveryStep (Queue.step maxQueueDepth) (fun _ qa => qa.Succeeds)
      (.start : Queue ι) qas → Always (Queue.step maxQueueDepth) Queue.Durable .start qas := by
    intro hs
    have hsound : Always (Queue.step maxQueueDepth) Queue.Sound (.start : Queue ι) qas :=
      .of_guarded (fun _ _ _ => step_sound) .start hs
    exact hsound.mono fun _ => Queue.Sound.durable
  refine ⟨hdurable, fun hsettled => ⟨fun hall => ?_, hdurable⟩⟩
  rcases everyStep_or_of_latch (G := fun _ qa => QueueAct.Succeeds qa) (I := Queue.Sound)
      (fun _ _ _ => step_sound) (fun _ _ _ _ => doomed_of_step)
      (fun _ _ _ hd => hd.step) .start hr with ⟨hs, -⟩ | ⟨-, hd⟩
  · exact hs
  · exact absurd (hall.last hr) (hd.not_durable hsettled)

def scriptRequest : ExecuteRequest where
  collectOutput := none
  files := []
  limits := none
  manifest :=
    { compile := none
      defaultLimits := Worker.script.spec.limits
      entrypoint := "main.py"
      image := ""
      interactive := false
      language := "python"
      run := ["python", "main.py"]
      version := "3.12" }

/-- The request is admitted, and the commands of its pipeline have the given outcomes. -/
def postScript (spec status push : Bool) : List (QueueAct Unit) :=
  [.post () scriptRequest, .llen () "job", .command () spec, .command () status,
    .command () push]

theorem not_always_durable :
    ¬ ∀ (qas : List (QueueAct Unit)) (t : Queue Unit),
      run (Queue.step 100) .start qas = some t →
        Always (Queue.step 100) Queue.Durable .start qas := by
  intro hall
  obtain ⟨t, hr, hjobs, hstored⟩ : ∃ t,
      run (Queue.step 100) .start (postScript false true true) = some t ∧ t.jobs = ["job"] ∧
        t.stored = [] := ⟨_, rfl, rfl, rfl⟩
  have hmem := ((hall _ t hr).last hr).queued "job" (by rw [hjobs]; exact List.mem_cons_self)
  rw [hstored] at hmem
  cases hmem

theorem postScript_durable :
    ∃ t, run (Queue.step 100) .start (postScript true true true ++ [.claim]) = some t ∧
      (∃ response, (t.posts ()).pc = .answered response) ∧
      Always (Queue.step 100) Queue.Durable .start (postScript true true true ++ [.claim]) := by
  obtain ⟨t, hr, hanswered⟩ : ∃ t, run (Queue.step 100) .start
      (postScript true true true ++ [.claim]) = some t ∧
        ∃ response, (t.posts ()).pc = .answered response := ⟨_, rfl, _, rfl⟩
  refine ⟨t, hr, hanswered, (durable_iff_succeeds hr).1 ?_⟩
  exact everyStep_of_mem (P := QueueAct.Succeeds) (by simp [postScript, QueueAct.Succeeds])

end CodeRunner.Api
