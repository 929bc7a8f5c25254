import CodeRunner.Docker.Workspace
import CodeRunner.Worker.Outcome
import Mathlib.Algebra.GroupWithZero.Nat
import Mathlib.Data.Finset.Erase
import Mathlib.Data.Finset.Insert

/-! # The blob leases of a job

`resolveBlobRefs` turns the references of a job into inline files and leases each of their
blobs, `releaseLeases` gives the leases back in the ending. Next to the handler stands what
Redis holds for the job: its leases, its membership among the owned jobs, and its status.
-/

namespace CodeRunner.Worker

open Transition

/-- What `resolveBlobRefs` fails with, each with what its text names. -/
inductive BlobError where
  | notConfigured
  | contentAndRef (name : String)
  | missingPrefix (ref : String)
  | digestLength (ref : String)
  | digestHex (ref : String)
  | unsafePath (name : String) (err : Docker.PathError)
  | lease (ref : String)
  | pull (name ref : String)
  deriving DecidableEq

/-- A digit that `hex.DecodeString` takes. -/
def isHexDigit (c : Char) : Bool :=
  ('0' ≤ c && c ≤ '9') || ('a' ≤ c && c ≤ 'f') || ('A' ≤ c && c ≤ 'F')

def refToHexHash (ref : String) : Except BlobError (List Char) :=
  let hexPart := ref.toList.drop 7
  if ref.toList.take 7 ≠ ['s', 'h', 'a', '2', '5', '6', ':'] then .error (.missingPrefix ref)
  else if (hexPart.map Char.utf8Size).sum ≠ 64 then .error (.digestLength ref)
  else if hexPart.all isHexDigit then .ok hexPart
  else .error (.digestHex ref)

def blobRef (file : FileInput) : Option String := file.ref.filter fun ref => ref ≠ ""

def checkBlobFile (file : FileInput) (ref : String) : Option BlobError :=
  if file.content.isSome then some (.contentAndRef file.name)
  else
    match refToHexHash ref, Docker.sanitizeWorkspacePath file.name with
    | .error err, _ => some err
    | _, .error err => some (.unsafePath file.name err)
    | .ok _, .ok _ => none

/-- The call `resolveBlobRefs` is in: the two of `Lease`, the pull, and the later `Touch`. -/
inductive ResolvePc where
  | sadd (ref : String)
  | leaseTouch (ref : String)
  | pull (ref : String)
  | touch (content : String)
  | returned (err : Option BlobError)
  deriving DecidableEq

/-- The files the loop is done with, the one it is at with those after it, and `leased`. -/
structure Resolve where
  pc : ResolvePc
  resolved : List FileInput
  files : List FileInput
  leased : List String

namespace Resolve

def fail (r : Resolve) (err : BlobError) : Resolve := { r with pc := .returned (some err) }

def next (leased : List String) (resolved : List FileInput) : List FileInput → Resolve
  | [] => ⟨.returned none, resolved, [], leased⟩
  | file :: files =>
    match blobRef file with
    | none => next leased (resolved ++ [file]) files
    | some ref =>
      match checkBlobFile file ref with
      | some err => ⟨.returned (some err), resolved, file :: files, leased⟩
      | none => ⟨.sadd ref, resolved, file :: files, leased⟩

/-- `configured` says that the worker has a blob store and an index. -/
def start (configured : Bool) (files : List FileInput) : Resolve :=
  if files.all fun file => (blobRef file).isNone then ⟨.returned none, files, [], []⟩
  else if configured then next [] [] files
  else ⟨.returned (some .notConfigured), [], files, []⟩

def materialize (r : Resolve) (content : String) : Resolve :=
  match r.files with
  | [] => r
  | file :: files =>
    next r.leased
      (r.resolved ++ [{ file with content := some content, encoding := "base64", ref := none }])
      files

end Resolve

/-- The calls of the resolution and of `releaseLeases`. `pull` gives the base64 text of the
verified bytes. -/
inductive LeaseAct where
  | sadd (ok : Bool)
  | leaseTouch (ok : Bool)
  | pull (content : Option String)
  | touch (ok : Bool)
  | srem (ok : Bool)
  deriving DecidableEq

/-- The handler with what Redis holds for its job. `leases` are the references whose lease set
has the job. -/
structure Custody where
  handler : Handler
  resolve : Resolve
  leases : Finset String
  owned : Bool
  status : Status

/-- `effect` is the next statement of the ending, with the outcome of its call. -/
inductive CustodyAct where
  | act (a : Act)
  | lease (a : LeaseAct)
  | effect (ok : Bool)
  deriving DecidableEq

namespace Custody

def start (configured : Bool) (job : Job) : Custody where
  handler := .start job
  resolve := .start configured job.spec.files
  leases := ∅
  owned := false
  status := .queued

def lease (c : Custody) : LeaseAct → Option Custody
  | .sadd ok =>
    match c.handler.pc, c.resolve.pc with
    | .resolveBlobs, .sadd ref =>
      if ok then
        some { c with
          resolve := { c.resolve with pc := .leaseTouch ref }
          leases := insert ref c.leases }
      else some { c with resolve := c.resolve.fail (.lease ref) }
    | _, _ => none
  | .leaseTouch ok =>
    match c.handler.pc, c.resolve.pc with
    | .resolveBlobs, .leaseTouch ref =>
      if ok then
        some { c with
          resolve := { c.resolve with pc := .pull ref, leased := c.resolve.leased ++ [ref] } }
      else some { c with resolve := c.resolve.fail (.lease ref) }
    | _, _ => none
  | .pull content =>
    match c.handler.pc, c.resolve.pc, content with
    | .resolveBlobs, .pull _, some content =>
      some { c with resolve := { c.resolve with pc := .touch content } }
    | .resolveBlobs, .pull ref, none =>
      let name := (c.resolve.files.head?.map FileInput.name).getD ""
      some { c with resolve := c.resolve.fail (.pull name ref) }
    | _, _, _ => none
  -- a failed touch is not fatal
  | .touch _ =>
    match c.handler.pc, c.resolve.pc with
    | .resolveBlobs, .touch content =>
      some { c with resolve := c.resolve.materialize content }
    | _, _ => none
  | .srem ok =>
    match c.handler.pc, c.resolve.leased with
    | .ending (.releaseLeases :: _), ref :: leased =>
      some { c with
        resolve := { c.resolve with leased := leased }
        leases := if ok then c.leases.erase ref else c.leases }
    | _, _ => none

def write (c : Custody) (a : Act) : Custody :=
  match c.handler.pc, a with
  | .announceQueued, .call true => { c with status := .queued }
  | .addOwned, .call true => { c with owned := true }
  | .announceRunning _, .call true => { c with status := .running }
  | _, _ => c

def perform (c : Custody) : Effect → Custody
  | .removeOwned => { c with owned := false }
  | .writeStatus state => { c with status := .ended state }
  | _ => c

/-- `resolveBlobRefs` returns with the outcome it has come to, and `releaseLeases` when every
lease has been given back. -/
def Allows (c : Custody) : Act → Prop
  | .call ok =>
    c.handler.pc = .resolveBlobs → ∃ err, c.resolve.pc = .returned err ∧ ok = err.isNone
  | .effect => False
  | _ => True

instance (c : Custody) : ∀ a, Decidable (c.Allows a)
  | .call ok =>
    if h : c.handler.pc = .resolveBlobs then
      match hpc : c.resolve.pc with
      | .returned err => decidable_of_iff (ok = err.isNone) (by simp [Allows, h, hpc])
      | .sadd _ | .leaseTouch _ | .pull _ | .touch _ => isFalse (by simp [Allows, h, hpc])
    else isTrue fun hpc => absurd hpc h
  | .effect => isFalse id
  | .lost | .contextDone | .warmup | .receive | .watch | .expire | .compileExit _ | .compileFails
  | .touch _ | .resume | .pump | .waitReturns | .wall | .idle | .cpu _ | .requestStart
  | .deliver _ | .cancel | .poll | .spawn | .exit | .activity | .writeMarker | .tick _ =>
    isTrue True.intro

def step (c : Custody) : CustodyAct → Option Custody
  | .act a =>
    if c.Allows a then
      (c.handler.step a).map fun handler => { c.write a with handler := handler }
    else none
  | .lease a => c.lease a
  | .effect ok =>
    match c.handler.pc with
    | .ending (e :: _) =>
      if e = .releaseLeases ∧ c.resolve.leased ≠ [] then none
      else
        c.handler.effect.map fun handler =>
          { (if ok then c.perform e else c) with handler := handler }
    | _ => none

end Custody

variable {s s' : Handler} {a : Act} {c c' : Custody} {ca : CustodyAct}

inductive Turn (c : Custody) : CustodyAct → Custody → Prop where
  | act (a : Act) (handler : Handler) (hallows : c.Allows a)
      (hstep : c.handler.step a = some handler) :
      Turn c (.act a) { c.write a with handler := handler }
  | pins (ref : String) (hpc : c.handler.pc = .resolveBlobs) (hr : c.resolve.pc = .sadd ref) :
      Turn c (.lease (.sadd true))
        { c with
          resolve := { c.resolve with pc := .leaseTouch ref }
          leases := insert ref c.leases }
  | pinFails (ref : String) (hpc : c.handler.pc = .resolveBlobs)
      (hr : c.resolve.pc = .sadd ref) :
      Turn c (.lease (.sadd false)) { c with resolve := c.resolve.fail (.lease ref) }
  | leases (ref : String) (hpc : c.handler.pc = .resolveBlobs)
      (hr : c.resolve.pc = .leaseTouch ref) :
      Turn c (.lease (.leaseTouch true))
        { c with
          resolve := { c.resolve with pc := .pull ref, leased := c.resolve.leased ++ [ref] } }
  | leaseFails (ref : String) (hpc : c.handler.pc = .resolveBlobs)
      (hr : c.resolve.pc = .leaseTouch ref) :
      Turn c (.lease (.leaseTouch false)) { c with resolve := c.resolve.fail (.lease ref) }
  | pulls (ref content : String) (hpc : c.handler.pc = .resolveBlobs)
      (hr : c.resolve.pc = .pull ref) :
      Turn c (.lease (.pull (some content)))
        { c with resolve := { c.resolve with pc := .touch content } }
  | pullFails (ref name : String) (hpc : c.handler.pc = .resolveBlobs)
      (hr : c.resolve.pc = .pull ref) :
      Turn c (.lease (.pull none)) { c with resolve := c.resolve.fail (.pull name ref) }
  | touches (ok : Bool) (content : String) (hpc : c.handler.pc = .resolveBlobs)
      (hr : c.resolve.pc = .touch content) :
      Turn c (.lease (.touch ok)) { c with resolve := c.resolve.materialize content }
  | releases (ok : Bool) (ref : String) (leased : List String) (todo : List Effect)
      (hpc : c.handler.pc = .ending (.releaseLeases :: todo))
      (hr : c.resolve.leased = ref :: leased) :
      Turn c (.lease (.srem ok))
        { c with
          resolve := { c.resolve with leased := leased }
          leases := if ok then c.leases.erase ref else c.leases }
  | effect (ok : Bool) (e : Effect) (todo : List Effect)
      (hpc : c.handler.pc = .ending (e :: todo))
      (hr : e = .releaseLeases → c.resolve.leased = []) :
      Turn c (.effect ok)
        { (if ok then c.perform e else c) with
          handler := { c.handler.perform e with pc := .ending todo } }

theorem step_turn (h : c.step ca = some c') : Turn c ca c' := by
  cases ca with
  | act a =>
    obtain ⟨hallows, h⟩ := Option.ite_none_right_eq_some.mp h
    obtain ⟨handler, hs, rfl⟩ := Option.map_eq_some_iff.mp h
    exact .act a handler hallows hs
  | lease la =>
    cases la with
    | sadd ok =>
      simp only [Custody.step, Custody.lease] at h
      split at h
      · next ref hpc hr =>
        cases ok with
        | true => obtain rfl := Option.some.inj h; exact .pins ref hpc hr
        | false => obtain rfl := Option.some.inj h; exact .pinFails ref hpc hr
      · cases h
    | leaseTouch ok =>
      simp only [Custody.step, Custody.lease] at h
      split at h
      · next ref hpc hr =>
        cases ok with
        | true => obtain rfl := Option.some.inj h; exact .leases ref hpc hr
        | false => obtain rfl := Option.some.inj h; exact .leaseFails ref hpc hr
      · cases h
    | pull content =>
      simp only [Custody.step, Custody.lease] at h
      split at h
      · next ref content hpc hr => obtain rfl := Option.some.inj h; exact .pulls ref content hpc hr
      · next ref hpc hr => obtain rfl := Option.some.inj h; exact .pullFails ref _ hpc hr
      · cases h
    | touch ok =>
      simp only [Custody.step, Custody.lease] at h
      split at h
      · next content hpc hr =>
        obtain rfl := Option.some.inj h
        exact .touches ok content hpc hr
      · cases h
    | srem ok =>
      simp only [Custody.step, Custody.lease] at h
      split at h
      · next todo ref leased hpc hr =>
        obtain rfl := Option.some.inj h
        exact .releases ok ref leased todo hpc hr
      · cases h
  | effect ok =>
    simp only [Custody.step] at h
    split at h
    · next e todo hpc =>
      obtain ⟨hne, h⟩ := Option.ite_none_left_eq_some.mp h
      obtain ⟨handler, hs, rfl⟩ := Option.map_eq_some_iff.mp h
      simp only [Handler.effect, hpc, Option.some.injEq] at hs
      subst hs
      exact .effect ok e todo hpc fun he => by_contra fun hl => hne ⟨he, hl⟩
    · cases h

@[simp] theorem next_leased (leased : List String) (resolved files : List FileInput) :
    (Resolve.next leased resolved files).leased = leased := by
  induction files generalizing resolved with
  | nil => rfl
  | cons file files ih =>
    unfold Resolve.next
    split
    · exact ih _
    · split <;> rfl

theorem next_pc (leased : List String) (resolved files : List FileInput) (ref : String) :
    (Resolve.next leased resolved files).pc ≠ .leaseTouch ref := by
  induction files generalizing resolved with
  | nil => nofun
  | cons file files ih =>
    unfold Resolve.next
    split
    · exact ih _
    · split <;> nofun

theorem start_pc (configured : Bool) (files : List FileInput) (ref : String) :
    (Resolve.start configured files).pc ≠ .leaseTouch ref := by
  unfold Resolve.start
  split
  · nofun
  · split
    · exact next_pc _ _ _ _
    · nofun

theorem materialize_leased (r : Resolve) (content : String) :
    (r.materialize content).leased = r.leased := by
  unfold Resolve.materialize
  split
  · rfl
  · exact next_leased _ _ _

theorem materialize_pc {r : Resolve} {content : String} (hr : r.pc = .touch content)
    (ref : String) : (r.materialize content).pc ≠ .leaseTouch ref := by
  unfold Resolve.materialize
  split
  · rw [hr]
    nofun
  · exact next_pc _ _ _ _

theorem write_frame (c : Custody) (a : Act) :
    (c.write a).leases = c.leases ∧ (c.write a).resolve = c.resolve := by
  unfold Custody.write
  split <;> exact ⟨rfl, rfl⟩

theorem performed_frame (c : Custody) (ok : Bool) (e : Effect) :
    (if ok then c.perform e else c).leases = c.leases ∧
      (if ok then c.perform e else c).resolve = c.resolve := by
  cases ok with
  | false => exact ⟨rfl, rfl⟩
  | true => cases e <;> exact ⟨rfl, rfl⟩

theorem Concludes.releases {job : Job} {todo : List Effect} (h : Concludes job todo) :
    .releaseLeases ∈ todo := by
  cases h with
  | blobsFailed | createFailed => decide
  | teardown state | terminate state => simp [CodeRunner.Worker.teardown]

/-- An ending that does not release the leases is one of the calls before the resolution. -/
theorem opening_of_ending {todo : List Effect} (h : s.step a = some s')
    (hpc : s.pc.stage ≠ .ending) (hpc' : s'.pc = .ending todo) (htodo : .releaseLeases ∉ todo) :
    s.pc.opening = true := by
  cases step_arrives h hpc with
  | stays hg hne => exact absurd (by rw [hpc']; rfl) hne
  | concludes todo' hg hpc'' hc =>
    obtain rfl : todo' = todo := Pc.ending.inj (hpc''.symm.trans hpc')
    exact absurd hc.releases htodo
  | silent todo' hg =>
    by_contra ho
    exact hg (openingSucceeds_of_pc (Bool.not_eq_true _ ▸ ho))

theorem begin_opening (s : Handler) : s.begin.pc.opening = false := by
  rcases pc_begin s with h | ⟨wallMs, h⟩ <;> rw [h] <;> rfl

theorem create_opening (s : Handler) (ok : Bool) (pc : CreatePc) :
    (s.create ok pc).pc.opening = false := by
  rcases pc_create s ok pc with ⟨pc', h⟩ | ⟨deadline, h⟩ | h <;> rw [h] <;> rfl

theorem compiled_opening (s : Handler) (since : ℕ) (ok : Bool) :
    (s.compiled since ok).pc.opening = false := by
  rcases pc_compiled s since ok with ⟨wallMs, h⟩ | ⟨state, h⟩ <;> rw [h] <;> rfl

theorem step_opening (h : s.step a = some s') (ho : s'.pc.opening = true) :
    s.pc.opening = true := by
  cases step_branch h with
  | readSpec hpc | subscribe hpc => rw [hpc]; rfl
  | create ok pc hpc => rw [create_opening] at ho; cases ho
  | durableStart deadline hpc | parkedStart deadline rest hpc =>
    rw [begin_opening] at ho
    cases ho
  | compileExits since code hpc | compileFails since hpc | touchFails since hpc
  | resumes since wake hpc =>
    rw [compiled_opening] at ho
    cases ho
  | parkedClose | watchKill | watchHold | expire | pumpKill | pumpSkip | cpuPolls | activity
  | requestStart | deliver | cancel | poll | spawn | exit | writeMarker | tick => exact ho
  | _ => cases ho

theorem step_resolveBlobs (h : s.step a = some s') (hpc : s.pc = .resolveBlobs)
    (ha : ∀ ok, a ≠ .call ok) : s'.pc = .resolveBlobs := by
  cases a with
  | call ok => exact absurd rfl (ha ok)
  | lost => simp [Handler.step, Handler.lost, hpc] at h
  | contextDone | warmup | receive => simp [Handler.step, Handler.park, hpc] at h
  | watch | expire | compileExit | compileFails | touch | resume =>
    simp [Handler.step, Handler.compile, hpc] at h
  | pump | waitReturns | wall | idle | cpu | activity =>
    simp [Handler.step, Handler.session, hpc] at h
  | effect => simp [Handler.step, Handler.effect, hpc] at h
  | requestStart | deliver | cancel | poll | spawn | exit | writeMarker | tick =>
    cases step_branch h with
    | _ => exact hpc

/-- Every lease of the job is in `leased`, or about to be, until it has been given back. -/
structure Custody.Covered (c : Custody) : Prop where
  leases : ∀ ref ∈ c.leases, ref ∈ c.resolve.leased ∨ c.resolve.pc = .leaseTouch ref
  resolving : ∀ ref, c.resolve.pc = .leaseTouch ref → c.handler.pc = .resolveBlobs
  pinned : ∀ ref, c.resolve.pc = .leaseTouch ref → ref ∈ c.leases
  opening : c.handler.pc.opening = true → c.leases = ∅
  released : ∀ todo, c.handler.pc = .ending todo → .releaseLeases ∉ todo → c.leases = ∅

def Custody.Leaks (c : Custody) : Prop :=
  ∃ ref ∈ c.leases, ref ∉ c.resolve.leased ∧ ∃ err, c.resolve.pc = .returned err

/-- `Release` succeeds. -/
def CustodyAct.Releases : CustodyAct → Prop
  | .lease (.srem ok) => ok = true
  | _ => True

/-- The touch in `Lease` does not fail for a reference that is not in `leased`. -/
def Pins (c : Custody) : CustodyAct → Prop
  | .lease (.leaseTouch false) => ∀ ref, c.resolve.pc = .leaseTouch ref → ref ∈ c.resolve.leased
  | _ => True

theorem Custody.Covered.start (configured : Bool) (job : Job) :
    (Custody.start configured job).Covered where
  leases _ h := nomatch h
  resolving _ h := absurd h (start_pc _ _ _)
  pinned _ h := absurd h (start_pc _ _ _)
  opening _ := rfl
  released _ _ _ := rfl

variable {configured : Bool} {job : Job} {cas : List CustodyAct} {t : Custody}

theorem Custody.Covered.act {handler : Handler} (hc : c.Covered) (hallows : c.Allows a)
    (hs : c.handler.step a = some handler) (hleases : c'.leases = c.leases)
    (hresolve : c'.resolve = c.resolve) (hhandler : c'.handler = handler) : c'.Covered := by
  subst hhandler
  constructor
  · rw [hleases, hresolve]
    exact hc.leases
  · intro ref hr
    rw [hresolve] at hr
    refine step_resolveBlobs hs (hc.resolving ref hr) ?_
    rintro ok rfl
    obtain ⟨err, hreturned, -⟩ := hallows (hc.resolving ref hr)
    rw [hr] at hreturned
    cases hreturned
  · intro ref hr
    rw [hresolve] at hr
    exact hleases ▸ hc.pinned ref hr
  · intro ho
    rw [hleases]
    exact hc.opening (step_opening hs ho)
  · intro todo hpc htodo
    rw [hleases]
    by_cases hstage : c.handler.pc.stage = .ending
    · rcases step_of_ending hs hstage with ⟨hpc', -⟩ | ⟨e, todo', rfl, -⟩
      · exact hc.released todo (hpc'.symm.trans hpc) htodo
      · exact hallows.elim
    · exact hc.opening (opening_of_ending hs hstage hpc htodo)

/-- A step of the resolution that leaves `leased` and the leases alone. -/
theorem Custody.Covered.resolves {r : Resolve} (hc : c.Covered)
    (hpc : c.handler.pc = .resolveBlobs)
    (hleases : ∀ ref ∈ c.leases, ref ∈ r.leased ∨ r.pc = .leaseTouch ref)
    (hr : ∀ ref, r.pc ≠ .leaseTouch ref) : Custody.Covered { c with resolve := r } where
  leases := hleases
  resolving _ _ := hpc
  pinned ref h := absurd h (hr ref)
  opening := hc.opening
  released := hc.released

theorem Custody.Covered.idle {todo : List Effect} (hc : c.Covered)
    (hpc : c.handler.pc = .ending todo) (ref : String) : c.resolve.pc ≠ .leaseTouch ref := by
  intro hr
  have hpc' := hc.resolving ref hr
  rw [hpc] at hpc'
  cases hpc'

/-- `Lease` adds the job to the lease set of a reference, and goes on to touch it. -/
theorem Custody.Covered.pins {ref : String} (hc : c.Covered)
    (hpc : c.handler.pc = .resolveBlobs) (hr : c.resolve.pc = .sadd ref) :
    Custody.Covered
      { c with
        resolve := { c.resolve with pc := .leaseTouch ref }
        leases := insert ref c.leases } := by
  constructor
  · intro ref' href'
    rcases Finset.mem_insert.mp href' with rfl | href'
    · exact .inr rfl
    · exact .inl ((hc.leases ref' href').resolve_right (by rw [hr]; nofun))
  · exact fun _ _ => hpc
  · intro ref' hr'
    cases hr'
    exact Finset.mem_insert_self _ _
  · intro ho
    rw [hpc] at ho
    cases ho
  · intro todo hpc'
    rw [hpc] at hpc'
    cases hpc'

theorem Custody.Covered.releases {ref : String} {leased : List String} {todo : List Effect}
    (hc : c.Covered) (hpc : c.handler.pc = .ending (.releaseLeases :: todo))
    (hr : c.resolve.leased = ref :: leased) :
    Custody.Covered
      { c with
        resolve := { c.resolve with leased := leased }
        leases := c.leases.erase ref } := by
  have hidle := hc.idle hpc
  constructor
  · intro ref' href'
    obtain ⟨hne, href'⟩ := Finset.mem_erase.mp href'
    have hleased := (hc.leases ref' href').resolve_right (hidle ref')
    rw [hr] at hleased
    exact .inl ((List.mem_cons.mp hleased).resolve_left hne)
  · exact fun ref' hr' => absurd hr' (hidle ref')
  · exact fun ref' hr' => absurd hr' (hidle ref')
  · intro ho
    rw [hpc] at ho
    cases ho
  · intro todo' hpc' htodo'
    rw [hpc] at hpc'
    cases hpc'
    exact absurd List.mem_cons_self htodo'

theorem Custody.Covered.effect {ok : Bool} {e : Effect} {todo : List Effect} (hc : c.Covered)
    (hpc : c.handler.pc = .ending (e :: todo))
    (hr : e = .releaseLeases → c.resolve.leased = []) :
    Custody.Covered
      { (if ok then c.perform e else c) with
        handler := { c.handler.perform e with pc := .ending todo } } := by
  have hidle := hc.idle hpc
  have hframe := performed_frame c ok e
  constructor
  · rw [hframe.1, hframe.2]
    exact hc.leases
  · intro ref' hr'
    rw [hframe.2] at hr'
    exact absurd hr' (hidle ref')
  · intro ref' hr'
    rw [hframe.2] at hr'
    exact absurd hr' (hidle ref')
  · intro ho
    cases ho
  · intro todo' hpc' htodo'
    cases hpc'
    rw [hframe.1]
    by_cases he : e = .releaseLeases
    · refine Finset.eq_empty_of_forall_notMem fun ref' href' => ?_
      have hleased := (hc.leases ref' href').resolve_right (hidle ref')
      rw [hr he] at hleased
      cases hleased
    · exact hc.released _ hpc fun hmem =>
        (List.mem_cons.mp hmem).elim (fun he' => he he'.symm) htodo'

theorem step_covered (hc : c.Covered) (hrel : ca.Releases) (hpins : Pins c ca)
    (h : c.step ca = some c') : c'.Covered := by
  have hkept : ∀ pc, (∀ ref, c.resolve.pc ≠ .leaseTouch ref) →
      ∀ ref ∈ c.leases, ref ∈ c.resolve.leased ∨ pc = ResolvePc.leaseTouch ref :=
    fun pc hpc ref href => .inl ((hc.leases ref href).resolve_right (hpc ref))
  cases step_turn h with
  | act a handler hallows hs =>
    obtain ⟨hleases, hresolve⟩ := write_frame c a
    exact hc.act hallows hs hleases hresolve rfl
  | pins ref hpc hr => exact hc.pins hpc hr
  | pinFails ref hpc hr => exact hc.resolves hpc (hkept _ (by rw [hr]; nofun)) nofun
  | leases ref hpc hr =>
    refine hc.resolves hpc (fun ref' href' => .inl (List.mem_append.mpr ?_)) nofun
    rcases hc.leases ref' href' with hl | hl
    · exact .inl hl
    · rw [hr] at hl
      cases hl
      exact .inr List.mem_cons_self
  | leaseFails ref hpc hr =>
    refine hc.resolves hpc (fun ref' href' => .inl ?_) nofun
    rcases hc.leases ref' href' with hl | hl
    · exact hl
    · exact hpins ref' hl
  | pulls ref content hpc hr | pullFails ref name hpc hr =>
    exact hc.resolves hpc (hkept _ (by rw [hr]; nofun)) nofun
  | touches ok content hpc hr =>
    refine hc.resolves hpc (fun ref' href' => .inl ?_) (materialize_pc hr)
    rw [materialize_leased]
    exact (hc.leases ref' href').resolve_right (by rw [hr]; nofun)
  | releases ok ref leased todo hpc hr =>
    obtain rfl : ok = true := hrel
    exact hc.releases hpc hr
  | effect ok e todo hpc hr => exact hc.effect hpc hr

theorem leaks_of_step (hc : c.Covered) (hpins : ¬ Pins c ca) (h : c.step ca = some c') :
    c'.Leaks := by
  cases step_turn h with
  | leaseFails ref hpc hr =>
    refine ⟨ref, hc.pinned ref hr, fun hmem => hpins fun ref' hr' => ?_, _, rfl⟩
    rw [hr] at hr'
    cases hr'
    exact hmem
  | _ => exact absurd True.intro hpins

theorem Custody.Leaks.step (hc : c.Leaks) (h : c.step ca = some c') : c'.Leaks := by
  obtain ⟨ref, href, hnew, err, hr⟩ := hc
  cases step_turn h with
  | act a handler hallows hs =>
    have hframe := write_frame c a
    exact ⟨ref, hframe.1 ▸ href, hframe.2 ▸ hnew, err, hframe.2 ▸ hr⟩
  | releases ok ref' leased todo hpc hl =>
    rw [hl, List.mem_cons, not_or] at hnew
    refine ⟨ref, ?_, hnew.2, err, hr⟩
    cases ok with
    | true => exact Finset.mem_erase.mpr ⟨hnew.1, href⟩
    | false => exact href
  | effect ok e todo hpc hl =>
    have hframe := performed_frame c ok e
    exact ⟨ref, hframe.1 ▸ href, hframe.2 ▸ hnew, err, hframe.2 ▸ hr⟩
  | pins _ _ hr' | pinFails _ _ hr' | leases _ _ hr' | leaseFails _ _ hr' | pulls _ _ _ hr'
  | pullFails _ _ _ hr' | touches _ _ _ hr' =>
    rw [hr] at hr'
    cases hr'

def CustodyAct.call (ok : Bool) : CustodyAct := .act (.call ok)

/-- A script with an input that is in the blob store. -/
def blobScript : Job where
  spec :=
    { script.spec with
      files := [⟨none, "", "data.csv", some
        "sha256:e3b0c44298fc1c149afbf4c8996fb92427ae41e4649b934ca495991b7852b855"⟩] }
  eligible := false
  marked := false
  warmupMs := 30000

/-- The blob is pinned, and the touch that follows has the given outcome. -/
def leaseBlob (ok : Bool) : List CustodyAct :=
  [.call true, .call true, .call true, .call true, .lease (.sadd true), .lease (.leaseTouch ok)]

/-- The resolution has failed, with so many leases to give back. -/
def abandon (leased : ℕ) : List CustodyAct :=
  .call false :: List.replicate leased (.lease (.srem true)) ++ List.replicate 6 (.effect true)

end CodeRunner.Worker
