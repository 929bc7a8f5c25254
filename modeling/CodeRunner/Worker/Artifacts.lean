import CodeRunner.Worker.Collect
import Mathlib.Algebra.GroupWithZero.Nat
import Mathlib.Algebra.Order.BigOperators.Group.List
import Mathlib.Algebra.Order.Group.Nat

/-! # The artifacts of a RunResult

The loop of the teardown over the captured files, with its uploads and the artifacts it publishes
on record. What it keeps is within both caps, and it says so when it has left a file out.
-/

namespace CodeRunner.Worker

open Transition

inductive ArtifactEvent where
  | captured (files : List CapturedArtifact)
  | put (file : CapturedArtifact) (url : Option String)
  | publish (artifact : Artifact)
  deriving DecidableEq, Repr

def CapturedArtifact.artifact (file : CapturedArtifact) (url : String) : Artifact :=
  ⟨file.data.length, file.mimeType, file.name, url⟩

namespace ArtifactEvent

def files : ArtifactEvent → List CapturedArtifact
  | .captured files => files
  | .put _ _ | .publish _ => []

def offered : ArtifactEvent → Option CapturedArtifact
  | .put file _ => some file
  | .captured _ | .publish _ => none

def uploaded : ArtifactEvent → Option (CapturedArtifact × String)
  | .put file url => url.map fun url => (file, url)
  | .captured _ | .publish _ => none

def published : ArtifactEvent → Option Artifact
  | .publish artifact => some artifact
  | .captured _ | .put _ _ => none

end ArtifactEvent

/-- What the loop does for the first of its files, when `Put` returns. -/
def Upload.events (upload : Upload) (url : Option String) : List ArtifactEvent :=
  match upload.files, url with
  | [], _ => []
  | file :: _, none => [.put file none]
  | file :: _, some url => [.put file (some url), .publish (file.artifact url)]

def Collected.events (c : Collected) : CollectAct → List ArtifactEvent
  | .capture captured => [.captured captured]
  | .put url => c.upload.events url
  | .act _ | .effect | .event | .getStatus | .getOutput => []

def totalBytes (files : List CapturedArtifact) : ℕ := (files.map fun file => file.data.length).sum

def Exceeds (limits : Limits) (files : List CapturedArtifact) : Prop :=
  0 < limits.maxArtifacts.toInt ∧ limits.maxArtifacts.toInt < files.length ∨
    0 < limits.maxArtifactBytes.toInt ∧ limits.maxArtifactBytes.toInt < totalBytes files

/-- The result keeps the files that have been uploaded, within both caps, and has published each
of them. A file that has not been offered to the store is one that a cap has left out, and the
result is truncated when there is such a file or the sandbox says so. -/
structure RunResult.Capped (limits : Limits) (flagged : Bool) (record : List ArtifactEvent)
    (result : RunResult) : Prop where
  artifacts : result.artifacts =
    (record.filterMap ArtifactEvent.uploaded).map fun file => file.1.artifact file.2
  kept : List.Sublist ((record.filterMap ArtifactEvent.uploaded).map Prod.fst)
    (record.flatMap ArtifactEvent.files)
  count : 0 < limits.maxArtifacts.toInt →
    (result.artifacts.length : ℤ) ≤ limits.maxArtifacts.toInt
  bytes : 0 < limits.maxArtifactBytes.toInt →
    ((result.artifacts.map Artifact.bytes).sum : ℤ) ≤ limits.maxArtifactBytes.toInt
  published : record.filterMap ArtifactEvent.published = result.artifacts
  offered : List.Sublist (record.filterMap ArtifactEvent.offered)
    (record.flatMap ArtifactEvent.files)
  truncated : result.artifactsTruncated = true ↔
    record.filterMap ArtifactEvent.offered ≠ record.flatMap ArtifactEvent.files ∨ flagged = true
  exceeds : record.filterMap ArtifactEvent.offered ≠ record.flatMap ArtifactEvent.files →
    Exceeds limits (record.flatMap ArtifactEvent.files)

variable {limits : Limits} {result : RunResult} {byteBudget : ℕ}
  {files captured : List CapturedArtifact} {upload : Upload} {record : List ArtifactEvent}

@[simp] theorem next_artifacts : (Upload.next limits result byteBudget files).result.artifacts =
    result.artifacts := by
  induction files generalizing result with
  | nil => rfl
  | cons file files ih =>
    unfold Upload.next
    split
    · rfl
    · split
      · exact ih
      · rfl

@[simp] theorem next_byteBudget :
    (Upload.next limits result byteBudget files).byteBudget = byteBudget := by
  induction files generalizing result with
  | nil => rfl
  | cons file files ih =>
    unfold Upload.next
    split
    · rfl
    · split
      · exact ih
      · rfl

theorem next_files : List.Sublist (Upload.next limits result byteBudget files).files files := by
  induction files generalizing result with
  | nil => exact .slnil
  | cons file files ih =>
    unfold Upload.next
    split
    · exact List.nil_sublist _
    · split
      · exact .cons _ ih
      · exact .refl _

theorem next_truncated :
    (Upload.next limits result byteBudget files).result.artifactsTruncated = true ↔
      result.artifactsTruncated = true ∨
        (Upload.next limits result byteBudget files).files.length < files.length := by
  induction files generalizing result with
  | nil => simp [Upload.next]
  | cons file files ih =>
    unfold Upload.next
    split
    · simp
    · split
      · refine iff_of_true (ih.mpr (.inl rfl)) (.inr ?_)
        exact Nat.lt_succ_of_le next_files.length_le
      · simp

def Upload.Room (limits : Limits) (upload : Upload) : Prop :=
  ∀ file files, upload.files = file :: files →
    (0 < limits.maxArtifacts.toInt →
      upload.result.artifacts.length < limits.maxArtifacts.toInt) ∧
    (0 < limits.maxArtifactBytes.toInt →
      upload.byteBudget + file.data.length ≤ limits.maxArtifactBytes.toInt)

theorem next_room : (Upload.next limits result byteBudget files).Room limits := by
  induction files generalizing result with
  | nil => nofun
  | cons file files ih =>
    unfold Upload.next
    split
    · nofun
    · next hcount =>
      split
      · exact ih
      · next hbytes =>
        rintro _ _ ⟨⟩
        exact ⟨fun hpos => Int.not_le.mp fun hle => hcount ⟨hpos, hle⟩,
          fun hpos => Int.not_lt.mp fun hlt => hbytes ⟨hpos, hlt⟩⟩

theorem next_exceeds
    (h : (Upload.next limits result byteBudget files).files.length < files.length) :
    (0 < limits.maxArtifacts.toInt ∧
        limits.maxArtifacts.toInt < result.artifacts.length + files.length) ∨
      0 < limits.maxArtifactBytes.toInt ∧
        limits.maxArtifactBytes.toInt < byteBudget + totalBytes files := by
  induction files generalizing result with
  | nil => exact absurd h (Nat.not_lt_zero _)
  | cons file files ih =>
    unfold Upload.next at h
    split at h
    · next hcount =>
      refine .inl ⟨hcount.1, ?_⟩
      rw [List.length_cons]
      omega
    · split at h
      · next hbytes =>
        refine .inr ⟨hbytes.1, ?_⟩
        rw [totalBytes, List.map_cons, List.sum_cons]
        omega
      · exact absurd h (Nat.lt_irrefl _)

/-- The loop with the events so far: `captured` are the files that it goes over. -/
structure Uploading (limits : Limits) (captured : List CapturedArtifact)
    (record : List ArtifactEvent) (upload : Upload) : Prop where
  artifacts : upload.result.artifacts =
    (record.filterMap ArtifactEvent.uploaded).map fun file => file.1.artifact file.2
  kept : List.Sublist ((record.filterMap ArtifactEvent.uploaded).map Prod.fst)
    (record.filterMap ArtifactEvent.offered)
  budget : upload.byteBudget = (upload.result.artifacts.map Artifact.bytes).sum
  count : 0 < limits.maxArtifacts.toInt →
    (upload.result.artifacts.length : ℤ) ≤ limits.maxArtifacts.toInt
  bytes : 0 < limits.maxArtifactBytes.toInt →
    (upload.byteBudget : ℤ) ≤ limits.maxArtifactBytes.toInt
  published : record.filterMap ArtifactEvent.published = upload.result.artifacts
  offered : List.Sublist (record.filterMap ArtifactEvent.offered ++ upload.files) captured
  truncated : upload.result.artifactsTruncated = true ↔
    (record.filterMap ArtifactEvent.offered ++ upload.files).length < captured.length
  exceeds : (record.filterMap ArtifactEvent.offered ++ upload.files).length < captured.length →
    Exceeds limits captured

theorem totalBytes_artifacts (files : List (CapturedArtifact × String)) :
    ((files.map fun file => file.1.artifact file.2).map Artifact.bytes).sum =
      totalBytes (files.map Prod.fst) := by
  rw [totalBytes, List.map_map, List.map_map]
  rfl

theorem totalBytes_mono {files files' : List CapturedArtifact} (h : List.Sublist files files') :
    totalBytes files ≤ totalBytes files' :=
  (h.map _).sum_le_sum fun _ _ => Nat.zero_le _

theorem totalBytes_append (files files' : List CapturedArtifact) :
    totalBytes (files ++ files') = totalBytes files + totalBytes files' := by
  rw [totalBytes, List.map_append, List.sum_append]
  rfl

theorem Uploading.next (h : Uploading limits captured record ⟨result, byteBudget, files⟩) :
    Uploading limits captured record (.next limits result byteBudget files) := by
  have hsub : List.Sublist (Upload.next limits result byteBudget files).files files := next_files
  have hle := h.offered.length_le
  have htruncated := h.truncated
  have hexceeds := h.exceeds
  rw [List.length_append] at hle htruncated hexceeds
  dsimp only at hle htruncated hexceeds
  refine ⟨by simpa using h.artifacts, h.kept, by simpa using h.budget, by simpa using h.count,
    by simpa using h.bytes, by simpa using h.published, (hsub.append_left _).trans h.offered,
    ?_, ?_⟩
  · have hfiles := hsub.length_le
    rw [next_truncated, htruncated, List.length_append]
    omega
  · intro hlt
    rw [List.length_append] at hlt
    by_cases hskip : (Upload.next limits result byteBudget files).files.length < files.length
    · have hkept := h.kept
      have hartifacts := h.artifacts
      have hbudget : byteBudget = _ := h.budget
      rw [hartifacts, totalBytes_artifacts] at hbudget
      have hbytes : totalBytes _ ≤ totalBytes _ := totalBytes_mono hkept
      have hall : totalBytes _ ≤ totalBytes _ := totalBytes_mono h.offered
      rw [totalBytes_append] at hall
      have hlength := congrArg List.length hartifacts
      have hkept' := hkept.length_le
      rw [List.length_map] at hlength hkept'
      dsimp only at hlength hall
      rcases next_exceeds hskip with ⟨hpos, hover⟩ | ⟨hpos, hover⟩
      · exact .inl ⟨hpos, by omega⟩
      · exact .inr ⟨hpos, by omega⟩
    · exact hexceeds (by omega)

theorem Uploading.start (limits : Limits) (captured : List CapturedArtifact) :
    Uploading limits captured [.captured captured] (.next limits ⟨[], false⟩ 0 captured) := by
  refine Uploading.next ⟨rfl, .slnil, rfl, fun h => h.le, fun h => h.le, rfl, .refl _, ?_, ?_⟩
  · simp [ArtifactEvent.offered]
  · intro h
    exact absurd h (Nat.lt_irrefl _)

theorem Uploading.put (h : Uploading limits captured record upload) (hroom : upload.Room limits)
    (hne : upload.files ≠ []) (url : Option String) :
    Uploading limits captured (record ++ upload.events url) (upload.put limits url) := by
  obtain ⟨⟨artifacts, artifactsTruncated⟩, byteBudget, files⟩ := upload
  cases files with
  | nil => exact absurd rfl hne
  | cons file files =>
    obtain ⟨hcount, hbytes⟩ := hroom file files rfl
    cases url with
    | none =>
      refine Uploading.next ⟨?_, ?_, h.budget, h.count, h.bytes, ?_, ?_, ?_, ?_⟩
      · simpa [Upload.events, List.filterMap_cons, ArtifactEvent.uploaded] using h.artifacts
      · simpa [Upload.events, List.filterMap_cons, ArtifactEvent.uploaded,
          ArtifactEvent.offered] using h.kept.trans (List.sublist_append_left _ [file])
      · simpa [Upload.events, List.filterMap_cons, ArtifactEvent.published] using h.published
      · simpa [Upload.events, List.filterMap_cons, ArtifactEvent.offered] using h.offered
      · simpa [Upload.events, List.filterMap_cons, ArtifactEvent.offered] using h.truncated
      · simpa [Upload.events, List.filterMap_cons, ArtifactEvent.offered] using h.exceeds
    | some url =>
      refine Uploading.next ⟨?_, ?_, ?_, ?_, ?_, ?_, ?_, ?_, ?_⟩
      · simpa [Upload.events, List.filterMap_cons, ArtifactEvent.uploaded,
          CapturedArtifact.artifact] using h.artifacts
      · simpa [Upload.events, List.filterMap_cons, ArtifactEvent.uploaded,
          ArtifactEvent.offered] using h.kept.append (.refl [file])
      · simpa [CapturedArtifact.artifact] using h.budget
      · intro hpos
        have hlt : (artifacts.length : ℤ) < _ := hcount hpos
        simp only [List.length_append, List.length_singleton]
        push_cast
        omega
      · simpa using hbytes
      · simpa [Upload.events, List.filterMap_cons, ArtifactEvent.published,
          CapturedArtifact.artifact] using h.published
      · simpa [Upload.events, List.filterMap_cons, ArtifactEvent.offered] using h.offered
      · simpa [Upload.events, List.filterMap_cons, ArtifactEvent.offered] using h.truncated
      · simpa [Upload.events, List.filterMap_cons, ArtifactEvent.offered] using h.exceeds

theorem Uploading.capped {flagged : Bool} (h : Uploading limits captured record upload)
    (hfiles : upload.files = []) (hcaptured : record.flatMap ArtifactEvent.files = captured) :
    RunResult.Capped limits flagged record { upload.result with
      artifactsTruncated := upload.result.artifactsTruncated || (true && flagged) } := by
  subst hcaptured
  have hoffered := h.offered
  have hkept := h.kept
  have htruncated := h.truncated
  have hexceeds := h.exceeds
  rw [hfiles, List.append_nil] at hoffered htruncated hexceeds
  have hiff : record.filterMap ArtifactEvent.offered ≠ record.flatMap ArtifactEvent.files ↔
      (record.filterMap ArtifactEvent.offered).length <
        (record.flatMap ArtifactEvent.files).length := by
    rw [ne_eq, ← hoffered.length_eq]
    exact ⟨fun hne => Nat.lt_of_le_of_ne hoffered.length_le hne, Nat.ne_of_lt⟩
  refine ⟨h.artifacts, hkept.trans hoffered, h.count, ?_, h.published, hoffered, ?_, ?_⟩
  · rw [← h.budget]
    exact h.bytes
  · rw [hiff, ← htruncated]
    simp
  · rw [hiff]
    exact hexceeds

variable {s s' : Handler} {a : Act} {flagged : Bool} {job : Job} {c c' : Collected}
  {ca : CollectAct} {cas : List CollectAct} {u u' t : Recorded Collected ArtifactEvent}

theorem captures_of_step {todo : List Effect} (h : s.step a = some s')
    (hpc : s.pc.stage ≠ .ending) (hpc' : s'.pc = .ending todo)
    (htodo : .captureArtifacts ∈ todo) : ∃ state, todo = terminate ++ teardown s.job state := by
  cases step_arrives h hpc with
  | stays hg hne => exact absurd (by rw [hpc']; rfl) hne
  | concludes todo' hg hpc'' hc =>
    obtain rfl : todo' = todo := Pc.ending.inj (hpc''.symm.trans hpc')
    cases hc with
    | blobsFailed | createFailed => exact absurd htodo (by decide)
    | teardown state =>
      refine absurd htodo ?_
      unfold teardown
      split <;> simp
    | terminate state => exact ⟨state, rfl⟩
  | silent todo' hg =>
    cases step_branch h with
    | readSpecFails | subscribeFails | subscribeControlFails =>
      cases hpc'
      exact absurd htodo (by decide)
    | announceQueued _ hcall | addOwned _ hcall | create _ _ hcall | parks _ _ hcall
    | announceRunning _ _ hcall =>
      exact absurd (openingSucceeds_of_pc (by rw [hcall]; rfl)) hg
    | resolveBlobsFails hcall =>
      exact absurd (openingSucceeds_of_pc (by rw [hcall]; rfl)) hg
    | readSpec | subscribe | subscribeControl | resolveBlobs | durableStart =>
      exact absurd (fun _ => rfl) hg
    | _ => exact absurd True.intro hg

/-- The files are read once, the loop is through before the result is stored, and what is stored
is capped. -/
structure Gathered (flagged : Bool) (job : Job) (u : Recorded Collected ArtifactEvent) : Prop where
  jobEq : u.state.handler.job = job
  loop : Uploading job.spec.limits (u.record.flatMap ArtifactEvent.files) u.record u.state.upload
  room : u.state.upload.Room job.spec.limits
  capturing : ∀ todo, u.state.handler.pc = .ending todo → .captureArtifacts ∈ todo →
    ∃ state, todo = terminate ++ teardown job state
  read : u.record ≠ [] →
    ∃ todo, u.state.handler.pc = .ending todo ∧ .captureArtifacts ∉ todo
  putting : u.state.upload.files ≠ [] → ∃ pre post,
    u.state.handler.pc = .ending (pre ++ .putArtifacts :: post) ∧ .writeRunResult ∉ pre ∧
      .captureArtifacts ∉ pre ++ .putArtifacts :: post
  stored : ∀ result, u.state.output = some result →
    result.Capped job.spec.limits flagged u.record ∧ u.state.upload.files = [] ∧
      ∃ todo, u.state.handler.pc = .ending todo ∧ .captureArtifacts ∉ todo

theorem gathered_start (flagged : Bool) (job : Job) : Gathered flagged job ⟨.start job, []⟩ where
  jobEq := rfl
  loop := by
    refine ⟨rfl, .slnil, rfl, fun h => h.le, fun h => h.le, rfl, .refl _, ?_, ?_⟩
    · simp [Collected.start]
    · exact fun h => absurd h (Nat.lt_irrefl _)
  room := nofun
  capturing := nofun
  read h := absurd rfl h
  putting h := absurd rfl h
  stored := nofun

theorem Gathered.move (hg : Gathered flagged job u) (hrecord : u'.record = u.record)
    (hupload : u'.state.upload = u.state.upload) (houtput : u'.state.output = u.state.output)
    (hjob : u'.state.handler.job = u.state.handler.job)
    (hpc : u.state.handler.pc.stage = .ending → u'.state.handler.pc = u.state.handler.pc)
    (hcapturing : u.state.handler.pc.stage ≠ .ending → ∀ todo,
      u'.state.handler.pc = .ending todo → .captureArtifacts ∈ todo →
        ∃ state, todo = terminate ++ teardown job state) : Gathered flagged job u' := by
  have hending : ∀ todo, u.state.handler.pc = .ending todo → u'.state.handler.pc = .ending todo :=
    fun todo h => (hpc (by rw [h]; rfl)).trans h
  constructor
  · exact hjob.trans hg.jobEq
  · rw [hrecord, hupload]
    exact hg.loop
  · rw [hupload]
    exact hg.room
  · intro todo htodo
    by_cases hstage : u.state.handler.pc.stage = .ending
    · exact hg.capturing todo ((hpc hstage).symm.trans htodo)
    · exact hcapturing hstage todo htodo
  · rw [hrecord]
    intro hne
    obtain ⟨todo, htodo, hnot⟩ := hg.read hne
    exact ⟨todo, hending todo htodo, hnot⟩
  · rw [hupload]
    intro hne
    obtain ⟨pre, post, htodo, hnot⟩ := hg.putting hne
    exact ⟨pre, post, hending _ htodo, hnot⟩
  · rw [hrecord, hupload, houtput]
    intro result hresult
    obtain ⟨hcapped, hfiles, todo, htodo, hnot⟩ := hg.stored result hresult
    exact ⟨hcapped, hfiles, todo, hending todo htodo, hnot⟩

theorem write_upload (c : Collected) (a : Act) :
    (c.write a).upload = c.upload ∧ (c.write a).output = c.output := by
  unfold Collected.write
  split <;> exact ⟨rfl, rfl⟩

theorem captureArtifacts_notMem_teardown (job : Job) (state : JobState) :
    .captureArtifacts ∉ teardown job state := by
  unfold teardown
  split <;> simp

theorem exists_putArtifacts (hcollect : job.spec.collectOutput = some true) (state : JobState) :
    ∃ pre, terminate.tail ++ teardown job state =
      pre ++ [.putArtifacts, .writeRunResult, .cleanup] ∧ .writeRunResult ∉ pre := by
  refine ⟨terminate.tail ++ [.closeStdinSub, .closeCtrlSub, .removeOwned, .releaseSlot,
    .releaseLeases, .publishResult, .writeStatus state], ?_, by simp [terminate]⟩
  simp [teardown, hcollect]

theorem Gathered.capture {todo : List Effect} (hg : Gathered flagged job u)
    (hcollect : job.spec.collectOutput = some true)
    (hpc : u.state.handler.pc = .ending (.captureArtifacts :: todo))
    (captured : List CapturedArtifact) :
    Gathered flagged job
      ⟨{ u.state with
          handler := { u.state.handler with pc := .ending todo }
          upload := .next job.spec.limits ⟨[], false⟩ 0 captured },
        u.record ++ [.captured captured]⟩ := by
  obtain ⟨state, htodo⟩ := hg.capturing _ hpc List.mem_cons_self
  have hrest : todo = terminate.tail ++ teardown job state := (List.cons.inj htodo).2
  have hnot : .captureArtifacts ∉ todo := by
    rw [hrest, List.mem_append, not_or]
    exact ⟨by decide, captureArtifacts_notMem_teardown job state⟩
  have hrecord : u.record = [] := by
    by_contra hne
    obtain ⟨todo', hpc', hnot'⟩ := hg.read hne
    obtain rfl := Pc.ending.inj (hpc.symm.trans hpc')
    exact hnot' List.mem_cons_self
  refine ⟨hg.jobEq, ?_, next_room, ?_, fun _ => ⟨todo, rfl, hnot⟩, fun _ => ?_, ?_⟩
  · rw [hrecord]
    simpa [ArtifactEvent.files] using Uploading.start job.spec.limits captured
  · rintro _ ⟨⟩ hmem
    exact absurd hmem hnot
  · obtain ⟨pre, hpre, hbefore⟩ := exists_putArtifacts hcollect state
    rw [← hrest] at hpre
    exact ⟨pre, _, congrArg Pc.ending hpre, hbefore, hpre ▸ hnot⟩
  · intro result hresult
    obtain ⟨-, -, todo', hpc', hnot'⟩ := hg.stored result hresult
    obtain rfl := Pc.ending.inj (hpc.symm.trans hpc')
    exact absurd List.mem_cons_self hnot'

theorem Gathered.put (hg : Gathered flagged job u) (hne : u.state.upload.files ≠ [])
    (url : Option String) :
    Gathered flagged job
      ⟨{ u.state with upload := u.state.upload.put job.spec.limits url },
        u.record ++ u.state.upload.events url⟩ := by
  obtain ⟨pre, post, hpc, hpre, hnot⟩ := hg.putting hne
  have hfiles : (u.record ++ u.state.upload.events url).flatMap ArtifactEvent.files =
      u.record.flatMap ArtifactEvent.files := by
    rw [List.flatMap_append]
    unfold Upload.events
    split <;> simp [ArtifactEvent.files]
  refine ⟨hg.jobEq, ?_, ?_, hg.capturing, fun _ => ⟨_, hpc, hnot⟩, fun _ => ⟨pre, post, hpc, hpre,
    hnot⟩, ?_⟩
  · rw [hfiles]
    exact hg.loop.put hg.room hne url
  · unfold Upload.put
    split
    · exact hg.room
    · exact next_room
    · exact next_room
  · intro result hresult
    exact absurd (hg.stored result hresult).2.1 hne

theorem Gathered.effect {e : Effect} {todo : List Effect} (hg : Gathered flagged job u)
    (hpc : u.state.handler.pc = .ending (e :: todo)) (he : e ≠ .captureArtifacts)
    (hput : e = .putArtifacts → u.state.upload.files = []) :
    Gathered flagged job
      ⟨{ u.state.perform true flagged e with
          handler := { u.state.handler.perform e with pc := .ending todo } }, u.record⟩ := by
  have hframe : (u.state.perform true flagged e).upload = u.state.upload := by
    cases e <;> rfl
  have hjob : (u.state.handler.perform e).job = u.state.handler.job := by
    cases e <;> rfl
  have hnone : .captureArtifacts ∉ e :: todo → .captureArtifacts ∉ todo := fun hnot hmem =>
    hnot (List.mem_cons_of_mem e hmem)
  constructor
  · exact hjob.trans hg.jobEq
  · rw [hframe]
    exact hg.loop
  · rw [hframe]
    exact hg.room
  · rintro _ ⟨⟩ hmem
    obtain ⟨state, htodo⟩ := hg.capturing _ hpc (List.mem_cons_of_mem e hmem)
    exact absurd (List.cons.inj htodo).1 he
  · intro hne
    obtain ⟨todo', hpc', hnot⟩ := hg.read hne
    obtain rfl := Pc.ending.inj (hpc.symm.trans hpc')
    exact ⟨todo, rfl, hnone hnot⟩
  · rw [hframe]
    intro hne
    obtain ⟨pre, post, hpc', hpre, hnot⟩ := hg.putting hne
    have htodo := Pc.ending.inj (hpc.symm.trans hpc')
    cases pre with
    | nil => exact absurd (hput (List.cons.inj htodo).1) hne
    | cons e' pre =>
      obtain ⟨rfl, rfl⟩ := List.cons.inj htodo
      exact ⟨pre, post, rfl, fun h => hpre (List.mem_cons_of_mem e h), hnone hnot⟩
  · rw [hframe]
    have hkept : ∀ result, u.state.output = some result →
        result.Capped job.spec.limits flagged u.record ∧ u.state.upload.files = [] ∧
          ∃ todo', Pc.ending todo = .ending todo' ∧ .captureArtifacts ∉ todo' := by
      intro result hresult
      obtain ⟨hcapped, hfiles, todo', hpc', hnot⟩ := hg.stored result hresult
      obtain rfl := Pc.ending.inj (hpc.symm.trans hpc')
      exact ⟨hcapped, hfiles, todo, rfl, hnone hnot⟩
    cases e with
    | writeRunResult =>
      rintro _ ⟨⟩
      have hfiles : u.state.upload.files = [] := by
        by_contra hne
        obtain ⟨pre, post, hpc', hpre, -⟩ := hg.putting hne
        have htodo := Pc.ending.inj (hpc.symm.trans hpc')
        cases pre with
        | nil => cases (List.cons.inj htodo).1
        | cons e' pre => exact hpre ((List.cons.inj htodo).1 ▸ List.mem_cons_self)
      refine ⟨hg.loop.capped hfiles rfl, hfiles, todo, rfl, fun hmem => ?_⟩
      obtain ⟨state, htodo⟩ := hg.capturing _ hpc (List.mem_cons_of_mem _ hmem)
      cases (List.cons.inj htodo).1
    | _ => exact hkept

theorem step_gathered (hcollect : job.spec.collectOutput = some true)
    (hg : Gathered flagged job u)
    (h : recorded (Collected.step true flagged) Collected.events u ca = some u') :
    Gathered flagged job u' := by
  obtain ⟨c', record'⟩ := u'
  obtain ⟨hs, hrecord⟩ := recorded_eq_some.mp h
  dsimp only at hs hrecord
  subst hrecord
  have hjob := hg.jobEq
  cases ca with
  | act a =>
    obtain ⟨ha, hs⟩ := Option.ite_none_left_eq_some.mp hs
    obtain ⟨handler, hstep, rfl⟩ := Option.map_eq_some_iff.mp hs
    obtain ⟨hupload, houtput⟩ := write_upload u.state a
    refine hg.move (List.append_nil _) hupload houtput (step_job hstep) ?_ ?_
    · intro hstage
      rcases step_of_ending hstep hstage with ⟨hpc, -⟩ | ⟨e, todo, rfl, -⟩
      · exact hpc
      · exact absurd rfl ha
    · intro hstage todo hpc hmem
      rw [← hjob]
      exact captures_of_step hstep hstage hpc hmem
  | capture captured =>
    simp only [Collected.step] at hs
    split at hs
    · next todo hpc =>
      simp only [Handler.effect, hpc, Option.map_some, Option.some.injEq, hjob, hcollect] at hs
      subst hs
      exact hg.capture hcollect hpc captured
    · cases hs
  | put url =>
    simp only [Collected.step] at hs
    split at hs
    · next hfiles =>
      obtain rfl := Option.some.inj hs
      rw [hjob]
      exact hg.put (by rw [hfiles]; rintro ⟨⟩) url
    · cases hs
  | effect =>
    simp only [Collected.step] at hs
    split at hs
    · next e todo hpc =>
      obtain ⟨hne, hs⟩ := Option.ite_none_left_eq_some.mp hs
      rw [not_or] at hne
      simp only [Handler.effect, hpc, Option.map_some, Option.some.injEq] at hs
      subst hs
      rw [show u.state.events .effect = [] from rfl, List.append_nil]
      exact hg.effect hpc hne.1 fun he => by_contra fun hfiles => hne.2 ⟨he, hfiles⟩
    · cases hs
  | event =>
    obtain ⟨-, hs⟩ := Option.ite_none_right_eq_some.mp hs
    obtain rfl := Option.some.inj hs
    exact hg.move (List.append_nil _) rfl rfl rfl (fun _ => rfl)
      fun hstage todo hpc => absurd (by rw [hpc]; rfl) hstage
  | getStatus | getOutput =>
    obtain rfl := Option.some.inj hs
    exact hg.move (List.append_nil _) rfl rfl rfl (fun _ => rfl)
      fun hstage todo hpc => absurd (by rw [hpc]; rfl) hstage

/-- What a collected job stores keeps uploaded files of those captured, within the caps and each
published, and is truncated exactly when a cap or the sandbox has left a file out. -/
theorem artifacts_capped {result : RunResult} (hcollect : job.spec.collectOutput = some true)
    (hr : run (recorded (Collected.step true flagged) Collected.events) ⟨.start job, []⟩ cas =
      some t) (hresult : t.state.output = some result) :
    result.Capped job.spec.limits flagged t.record := by
  have hg : Gathered flagged job t :=
    Reachable.invariant (fun _ _ _ hg h => step_gathered hcollect hg h)
      (gathered_start flagged job) ⟨cas, hr⟩
  exact (hg.stored result hresult).1

/-- One file is kept. -/
def oneFile : Job :=
  { collectScript with
    spec := { collectScript.spec with
      limits := { collectScript.spec.limits with maxArtifacts := 1 } } }

/-- The first upload fails, the second file is kept, and the third is not offered. -/
def threeFiles : List CollectAct :=
  runScript ++ [.act .waitReturns, .capture [⟨"a.txt", "text/plain", [97]⟩,
      ⟨"b.txt", "text/plain", [98, 98]⟩, ⟨"c.txt", "text/plain", [99]⟩]] ++
    List.replicate 10 .effect ++ [.put none, .put (some "https://artifacts/b.txt")] ++
    List.replicate 2 .effect

theorem artifacts_capped_threeFiles :
    ∃ t result, run (recorded (Collected.step true false) Collected.events)
        ⟨.start oneFile, []⟩ threeFiles = some t ∧ t.state.output = some result ∧
      result = ⟨[⟨2, "text/plain", "b.txt", "https://artifacts/b.txt"⟩], true⟩ ∧
      result.Capped oneFile.spec.limits false t.record := by
  obtain ⟨t, hr, hresult⟩ : ∃ t, run (recorded (Collected.step true false) Collected.events)
        ⟨.start oneFile, []⟩ threeFiles = some t ∧ t.state.output =
          some ⟨[⟨2, "text/plain", "b.txt", "https://artifacts/b.txt"⟩], true⟩ := ⟨_, rfl, rfl⟩
  exact ⟨t, _, hr, hresult, rfl, artifacts_capped rfl hr hresult⟩

end CodeRunner.Worker
