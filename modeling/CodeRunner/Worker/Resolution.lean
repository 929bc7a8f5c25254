import CodeRunner.Worker.Inline

/-! # The slices of a resolution

`resolveBlobRefs` works on a copy of the caller's slice. The arrays behind the slices are cells of
a heap, a slice is the address of its array, and the calls are answered from outside.
-/

namespace CodeRunner.Worker

open Sdk Transition

variable (sha256 : List UInt8 → Vector UInt8 32)

abbrev FileHeap := List (List FileInput)

def FileHeap.array (heap : FileHeap) (files : ℕ) : List FileInput := (heap[files]?).getD []

def FileHeap.write (heap : FileHeap) (files i : ℕ) (file : FileInput) : FileHeap :=
  heap.set files ((heap.array files).set i file)

/-- The answers to the calls of a pull. `stream` is what the reader of the blob has given when the
copy ends, with an error or not. -/
structure PullAnswers where
  get : Bool
  createTemp : Bool
  stream : List UInt8
  copied : Bool
  closed : Bool
  readFile : Bool

def PullAnswers.stored (pull : PullAnswers) : Option (List UInt8) :=
  if pull.get && pull.createTemp && pull.copied && pull.closed && pull.readFile then
    some pull.stream
  else none

structure BlobAnswers where
  lease : Bool
  pull : PullAnswers
  touch : Bool

inductive BlobCall where
  | lease (ref : String) (ok : Bool)
  | get (ref : String)
  | touch (ref : String) (size : ℕ) (ok : Bool)
  deriving DecidableEq, Repr

def BlobCall.leased : BlobCall → Option String
  | .lease ref ok => if ok then some ref else none
  | .get _ | .touch _ _ _ => none

structure Resolving where
  heap : FileHeap
  leased : List String
  calls : List BlobCall

namespace Resolving

/-- The body of the loop for `files[i]`. -/
def body (answers : BlobAnswers) (files i : ℕ) (r : Resolving) (file : FileInput) :
    Resolving × Option BlobError :=
  match blobRef file with
  | none => (r, none)
  | some ref =>
    match checkBlobFile file ref with
    | some err => (r, some err)
    | none =>
      if answers.lease then
        let calls := r.calls ++ [.lease ref true, .get ref]
        let leased := r.leased ++ [ref]
        match pullAndVerify sha256 ref answers.pull.stored with
        | none => ({ r with leased := leased, calls := calls }, some (.pull file.name ref))
        | some data =>
          -- a failed touch is not fatal
          ({ heap := r.heap.write files i
              { file with content := some (base64Text data), encoding := "base64", ref := none }
             leased := leased
             calls := calls ++ [.touch ref data.length answers.touch] }, none)
      else ({ r with calls := r.calls ++ [.lease ref false] }, some (.lease ref))

/-- The loop over the `n` elements from `i` on. -/
def loop (answers : ℕ → BlobAnswers) (files : ℕ) :
    ℕ → ℕ → Resolving → Resolving × Option BlobError
  | 0, _, r => (r, none)
  | n + 1, i, r =>
    match (r.heap.array files)[i]? with
    | none => (r, none)
    | some file =>
      match r.body sha256 (answers i) files i file with
      | (r, some err) => (r, some err)
      | (r, none) => loop answers files n (i + 1) r

end Resolving

/-- What `resolveBlobRefs` returns, with the heap that it leaves and the calls it has made. `files`
is the slice of the returned spec. -/
structure Resolved where
  heap : FileHeap
  files : ℕ
  leased : List String
  err : Option BlobError
  calls : List BlobCall

/-- The returned spec: the other fields are those of the caller's. -/
def Resolved.spec (r : Resolved) (spec : JobSpec) : JobSpec :=
  { spec with files := r.heap.array r.files }

/-- `configured` says that the worker has a blob store and an index. -/
def resolveBlobRefs (configured : Bool) (answers : ℕ → BlobAnswers) (heap : FileHeap)
    (files : ℕ) : Resolved :=
  let array := heap.array files
  if array.all fun file => (blobRef file).isNone then ⟨heap, files, [], none, []⟩
  else if configured then
    let copied := heap.length
    match Resolving.loop sha256 answers copied array.length 0 ⟨heap ++ [array], [], []⟩ with
    | (r, none) => ⟨r.heap, copied, r.leased, none, r.calls⟩
    | (r, some err) => ⟨r.heap, files, r.leased, some err, r.calls⟩
  else ⟨heap, files, [], some .notConfigured, []⟩

variable {sha256} {heap : FileHeap} {array resolved before todo : List FileInput}
  {file file' : FileInput} {r r' : Resolving} {answers : BlobAnswers} {err : BlobError}

@[simp] theorem FileHeap.array_concat (heap : FileHeap) (array : List FileInput) :
    FileHeap.array (heap ++ [array]) heap.length = array := by
  simp [FileHeap.array]

theorem FileHeap.write_concat (heap : FileHeap) (resolved todo : List FileInput)
    (file file' : FileInput) :
    FileHeap.write (heap ++ [resolved ++ file :: todo]) heap.length resolved.length file' =
      heap ++ [resolved ++ file' :: todo] := by
  rw [FileHeap.write, FileHeap.array_concat]
  simp

/-- The leases recorded are those of the calls that have succeeded. -/
def Resolving.Booked (r : Resolving) : Prop := r.leased = r.calls.filterMap BlobCall.leased

theorem body_booked (answers : BlobAnswers) (files i : ℕ) (file : FileInput) (hr : r.Booked) :
    (r.body sha256 answers files i file).1.Booked := by
  unfold Resolving.Booked at hr ⊢
  unfold Resolving.body
  split
  · exact hr
  · split
    · exact hr
    · split
      · split <;> simp [hr, BlobCall.leased]
      · simp [hr, BlobCall.leased]

theorem body_inlined {i : ℕ} (hheap : r.heap = heap ++ [resolved ++ file :: todo])
    (hi : i = resolved.length) (h : r.body sha256 answers heap.length i file = (r', none)) :
    ∃ file', r'.heap = heap ++ [resolved ++ file' :: todo] ∧
      Inlined sha256 Set.univ file file' := by
  unfold Resolving.body at h
  split at h
  · next hnone =>
    obtain ⟨rfl, -⟩ := Prod.mk.inj h
    exact ⟨file, hheap, .inline hnone⟩
  · next ref href =>
    split at h
    · cases h
    · next hcheck =>
      split at h
      · split at h
        · cases h
        · next data hpull =>
          obtain ⟨rfl, -⟩ := Prod.mk.inj h
          obtain ⟨-, rfl⟩ := pullAndVerify_some hpull
          refine ⟨_, ?_, .pulled data (Set.mem_univ data) (content_of_checkBlobFile hcheck)
            (blobRef_eq_some href)⟩
          rw [hheap, hi, FileHeap.write_concat]
      · cases h

theorem body_error {files i : ℕ} (h : r.body sha256 answers files i file = (r', some err)) :
    r'.heap = r.heap := by
  unfold Resolving.body at h
  split at h
  · cases h
  · split at h
    · obtain ⟨rfl, -⟩ := Prod.mk.inj h
      rfl
    · split at h
      · split at h
        · obtain ⟨rfl, -⟩ := Prod.mk.inj h
          rfl
        · cases h
      · obtain ⟨rfl, -⟩ := Prod.mk.inj h
        rfl

theorem loop_booked (answers : ℕ → BlobAnswers) (files n i : ℕ) (hr : r.Booked) :
    (Resolving.loop sha256 answers files n i r).1.Booked := by
  induction n generalizing i r with
  | zero => exact hr
  | succ n ih =>
    unfold Resolving.loop
    split
    · exact hr
    · next file _ =>
      have hbody : (r.body sha256 (answers i) files i file).1.Booked :=
        body_booked (answers i) files i file hr
      split
      · next h =>
        rw [h] at hbody
        exact hbody
      · next h =>
        rw [h] at hbody
        exact ih _ hbody

variable (sha256) in
/-- The loop writes into the array allocated last alone, and one that ends without an error has
made each of its files an inline one. -/
theorem loop_inlined (answers : ℕ → BlobAnswers) {n i : ℕ}
    (hheap : r.heap = heap ++ [resolved ++ todo])
    (hbefore : List.Forall₂ (Inlined sha256 Set.univ) before resolved) (hn : n = todo.length)
    (hi : i = resolved.length) :
    ∃ array, (Resolving.loop sha256 answers heap.length n i r).1.heap = heap ++ [array] ∧
      ((Resolving.loop sha256 answers heap.length n i r).2 = none →
        List.Forall₂ (Inlined sha256 Set.univ) (before ++ todo) array) := by
  induction todo generalizing n i r before resolved with
  | nil =>
    subst hn
    rw [List.append_nil] at hheap ⊢
    exact ⟨resolved, hheap, fun _ => hbefore⟩
  | cons file todo ih =>
    subst hn hi
    have hget : (r.heap.array heap.length)[resolved.length]? = some file := by
      rw [hheap, FileHeap.array_concat, List.getElem?_append_right (Nat.le_refl _), Nat.sub_self]
      rfl
    rw [List.length_cons, Resolving.loop, hget]
    dsimp only
    split
    · next hbody =>
      exact ⟨_, (body_error hbody).trans hheap, nofun⟩
    · next r' hbody =>
      obtain ⟨file', hheap', hin⟩ := body_inlined hheap rfl hbody
      rw [List.append_cons resolved] at hheap'
      have hlength : resolved.length + 1 = (resolved ++ [file']).length := by simp
      rw [List.append_cons before]
      exact ih hheap' (List.rel_append hbefore (.cons hin .nil)) rfl hlength

theorem Inlined.name_eq {S : Set (List UInt8)} (h : Inlined sha256 S file file') :
    file'.name = file.name := by
  cases h <;> rfl

theorem names_of_inlined {S : Set (List UInt8)} {files files' : List FileInput}
    (h : List.Forall₂ (Inlined sha256 S) files files') :
    files'.map FileInput.name = files.map FileInput.name := by
  induction h with
  | nil => rfl
  | cons hin _ ih => rw [List.map_cons, List.map_cons, hin.name_eq, ih]

variable (sha256) (configured : Bool) (answers : ℕ → BlobAnswers) (heap : FileHeap) (files : ℕ)

theorem resolve_booked :
    (resolveBlobRefs sha256 configured answers heap files).leased =
      (resolveBlobRefs sha256 configured answers heap files).calls.filterMap BlobCall.leased := by
  have hloop : Resolving.Booked (Resolving.loop sha256 answers heap.length
      (heap.array files).length 0 ⟨heap ++ [heap.array files], [], []⟩).1 :=
    loop_booked answers _ _ _ rfl
  unfold resolveBlobRefs
  dsimp only
  split
  · rfl
  · split
    · split <;>
      · next hr =>
        rw [hr] at hloop
        exact hloop
    · rfl

theorem resolve_inlined :
    heap <+: (resolveBlobRefs sha256 configured answers heap files).heap ∧
      ((resolveBlobRefs sha256 configured answers heap files).err = none →
        List.Forall₂ (Inlined sha256 Set.univ) (heap.array files)
          ((resolveBlobRefs sha256 configured answers heap files).heap.array
            (resolveBlobRefs sha256 configured answers heap files).files)) := by
  have hstart : (⟨heap ++ [heap.array files], [], []⟩ : Resolving).heap =
      heap ++ [[] ++ heap.array files] := rfl
  obtain ⟨array, hheap, hin⟩ := loop_inlined sha256 (i := 0) answers hstart .nil rfl rfl
  unfold resolveBlobRefs
  dsimp only
  split
  · next hall =>
    refine ⟨List.prefix_rfl, fun _ => ?_⟩
    rw [List.forall₂_same]
    intro file hfile
    exact .inline (Option.isNone_iff_eq_none.mp (List.all_eq_true.mp hall file hfile))
  · split
    · split
      · next hr =>
        rw [hr] at hheap hin
        dsimp only at hheap hin ⊢
        refine ⟨⟨[array], hheap.symm⟩, fun _ => ?_⟩
        rw [hheap, FileHeap.array_concat]
        exact hin rfl
      · next hr =>
        rw [hr] at hheap
        exact ⟨⟨[array], hheap.symm⟩, nofun⟩
    · exact ⟨List.prefix_rfl, nofun⟩

theorem resolve_failed
    (h : (resolveBlobRefs sha256 configured answers heap files).err ≠ none) :
    (resolveBlobRefs sha256 configured answers heap files).files = files := by
  unfold resolveBlobRefs at h ⊢
  dsimp only at h ⊢
  split
  · rfl
  · next hall =>
    rw [if_neg hall] at h
    split
    · next hconfigured =>
      rw [if_pos hconfigured] at h
      split
      · next hr =>
        rw [hr] at h
        exact absurd rfl h
      · rfl
    · rfl

variable {heap files}

/-- The resolution succeeds with every reference inlined or returns the caller's spec. It writes
into none of the arrays there are, and its leases are those that have been granted. -/
theorem resolution_atomic {spec : JobSpec} (hspec : heap[files]? = some spec.files) :
    let r := resolveBlobRefs sha256 configured answers heap files
    (r.err = none → (r.spec spec).files.map FileInput.name = spec.files.map FileInput.name ∧
        List.Forall₂ (Inlined sha256 Set.univ) spec.files (r.spec spec).files ∧
        { r.spec spec with files := spec.files } = spec) ∧
      (r.err ≠ none → r.spec spec = spec) ∧ heap <+: r.heap ∧
      r.leased = r.calls.filterMap BlobCall.leased := by
  intro r
  have hlt : files < heap.length := (List.getElem?_eq_some_iff.mp hspec).1
  have harray : heap.array files = spec.files := by rw [FileHeap.array, hspec, Option.getD_some]
  obtain ⟨hle, hin⟩ := resolve_inlined sha256 configured answers heap files
  rw [harray] at hin
  refine ⟨fun hok => ?_, fun herr => ?_, hle, resolve_booked sha256 configured answers heap files⟩
  · exact ⟨names_of_inlined (hin hok), hin hok, rfl⟩
  · have hsame : r.heap.array files = spec.files := by
      obtain ⟨rest, hrest⟩ := hle
      rw [← harray, FileHeap.array, FileHeap.array, ← hrest, List.getElem?_append_left hlt]
    rw [Resolved.spec, resolve_failed sha256 configured answers heap files herr, hsame]

/-- The blob holds `hi`, and no call fails. -/
def hiAnswers : BlobAnswers where
  lease := true
  pull := ⟨true, true, [0x68, 0x69], true, true, true⟩
  touch := true

def hiSpec : JobSpec := (hiJob ⟨none, "utf8", "data.bin", some hiRef⟩).spec

theorem resolution_atomic_hi :
    let r := resolveBlobRefs hiSha256 true (fun _ => hiAnswers) [[], hiSpec.files] 1
    r.err = none ∧ List.Forall₂ (Inlined hiSha256 Set.univ) hiSpec.files (r.spec hiSpec).files ∧
      r.leased = [hiRef] := by
  intro r
  obtain ⟨hok, -⟩ := resolution_atomic hiSha256 true (fun _ => hiAnswers)
    (show [[], hiSpec.files][1]? = some hiSpec.files from rfl)
  have herr : r.err = none := by decide +kernel
  exact ⟨herr, (hok herr).2.1, by decide +kernel⟩

variable {c c' c₁ : Custody} {ca : CustodyAct}

/-- The machine comes from one state to the other, with pulls that are verified. -/
def Follows (c c' : Custody) : Prop :=
  ∃ cas, run Custody.step c cas = some c' ∧
    EveryStep Custody.step (PullsVerified sha256 Set.univ) c cas

variable {sha256 configured answers}

theorem Follows.refl (c : Custody) : Follows sha256 c c := ⟨[], rfl, True.intro⟩

theorem Follows.head (h : c.step ca = some c₁) (hv : PullsVerified sha256 Set.univ c ca)
    (hf : Follows sha256 c₁ c') : Follows sha256 c c' := by
  obtain ⟨cas, hr, hall⟩ := hf
  exact ⟨ca :: cas, (run_cons_of_step h).trans hr, (everyStep_cons h).mpr ⟨hv, hall⟩⟩

theorem Follows.call {la : LeaseAct} (h : c.step (.lease la) = some c₁)
    (hla : ∀ content, la ≠ .pull content) (hf : Follows sha256 c₁ c') : Follows sha256 c c' :=
  hf.head h fun _ content _ heq => absurd (CustodyAct.lease.inj heq) (hla content)

theorem follows_lease (sha256 : List UInt8 → Vector UInt8 32) {ref : String}
    (hpc : c.handler.pc = .resolveBlobs) (hr : c.resolve.pc = .sadd ref) :
    ∃ c₁, (∀ c', Follows sha256 c₁ c' → Follows sha256 c c') ∧ c₁.handler = c.handler ∧
      c₁.resolve = { c.resolve with pc := .pull ref, leased := c.resolve.leased ++ [ref] } := by
  obtain ⟨c₁, hadd, hh₁, hr₁⟩ : ∃ c₁, c.step (.lease (.sadd true)) = some c₁ ∧
      c₁.handler = c.handler ∧ c₁.resolve = { c.resolve with pc := .leaseTouch ref } := by
    simp [Custody.step, Custody.lease, hpc, hr]
  obtain ⟨c₂, htouch, hh₂, hr₂⟩ : ∃ c₂, c₁.step (.lease (.leaseTouch true)) = some c₂ ∧
      c₂.handler = c₁.handler ∧
      c₂.resolve = { c₁.resolve with pc := .pull ref, leased := c₁.resolve.leased ++ [ref] } := by
    simp [Custody.step, Custody.lease, hh₁, hpc, hr₁]
  refine ⟨c₂, fun c' hf => ?_, hh₂.trans hh₁, by rw [hr₂, hr₁]⟩
  exact Follows.call hadd (by rintro _ ⟨⟩) (Follows.call htouch (by rintro _ ⟨⟩) hf)

theorem follows_pull {ref : String} {stored : Option (List UInt8)} {data : List UInt8}
    (hpc : c.handler.pc = .resolveBlobs) (hr : c.resolve.pc = .pull ref)
    (hpull : pullAndVerify sha256 ref stored = some data) (ok : Bool) :
    ∃ c₁, (∀ c', Follows sha256 c₁ c' → Follows sha256 c c') ∧ c₁.handler = c.handler ∧
      c₁.resolve = Resolve.materialize { c.resolve with pc := .touch (base64Text data) }
        (base64Text data) := by
  obtain ⟨c₁, hdata, hh₁, hr₁⟩ : ∃ c₁,
      c.step (.lease (.pull (some (base64Text data)))) = some c₁ ∧ c₁.handler = c.handler ∧
        c₁.resolve = { c.resolve with pc := .touch (base64Text data) } := by
    simp [Custody.step, Custody.lease, hpc, hr]
  obtain ⟨c₂, htouch, hh₂, hr₂⟩ : ∃ c₂, c₁.step (.lease (.touch ok)) = some c₂ ∧
      c₂.handler = c₁.handler ∧ c₂.resolve = c₁.resolve.materialize (base64Text data) := by
    simp [Custody.step, Custody.lease, hh₁, hpc, hr₁]
  have hv : PullsVerified sha256 Set.univ c (.lease (.pull (some (base64Text data)))) := by
    rintro ref' content hr' ⟨⟩
    obtain rfl := ResolvePc.pull.inj (hr.symm.trans hr')
    exact ⟨stored, fun data _ => Set.mem_univ data, by rw [hpull, Option.map_some]⟩
  refine ⟨c₂, fun c' hf => ?_, hh₂.trans hh₁, by rw [hr₂, hr₁]⟩
  exact Follows.head hdata hv (Follows.call htouch (by rintro _ ⟨⟩) hf)

theorem follows_fail (sha256 : List UInt8 → Vector UInt8 32) {ref : String}
    (hpc : c.handler.pc = .resolveBlobs) (hr : c.resolve.pc = .sadd ref) :
    ∃ c', Follows sha256 c c' ∧ c'.resolve = c.resolve.fail (.lease ref) := by
  obtain ⟨c₁, hadd, hr₁⟩ : ∃ c₁, c.step (.lease (.sadd false)) = some c₁ ∧
      c₁.resolve = c.resolve.fail (.lease ref) := by
    simp [Custody.step, Custody.lease, hpc, hr]
  exact ⟨c₁, Follows.call hadd (by rintro _ ⟨⟩) (Follows.refl c₁), hr₁⟩

theorem follows_miss {ref : String} {stored : Option (List UInt8)}
    (hpc : c.handler.pc = .resolveBlobs) (hr : c.resolve.pc = .pull ref)
    (hfiles : c.resolve.files = file :: todo)
    (hpull : pullAndVerify sha256 ref stored = none) :
    ∃ c', Follows sha256 c c' ∧ c'.resolve = c.resolve.fail (.pull file.name ref) := by
  obtain ⟨c₁, hmiss, hr₁⟩ : ∃ c₁, c.step (.lease (.pull none)) = some c₁ ∧
      c₁.resolve = c.resolve.fail (.pull file.name ref) := by
    simp [Custody.step, Custody.lease, hpc, hr, hfiles]
  have hv : PullsVerified sha256 Set.univ c (.lease (.pull none)) := by
    rintro ref' content hr' ⟨⟩
    obtain rfl := ResolvePc.pull.inj (hr.symm.trans hr')
    exact ⟨stored, fun data _ => Set.mem_univ data, by rw [hpull, Option.map_none]⟩
  exact ⟨c₁, Follows.head hmiss hv (Follows.refl c₁), hr₁⟩

def Matches (c : Custody) (heap : FileHeap) (out : Resolving × Option BlobError) : Prop :=
  c.resolve.pc = .returned out.2 ∧ c.resolve.leased = out.1.leased ∧
    (out.2 = none → out.1.heap = heap ++ [c.resolve.resolved])

theorem loop_follows {n i : ℕ} (hpc : c.handler.pc = .resolveBlobs)
    (hresolve : c.resolve = .next r.leased resolved todo)
    (hheap : r.heap = heap ++ [resolved ++ todo]) (hn : n = todo.length)
    (hi : i = resolved.length) :
    ∃ c', Follows sha256 c c' ∧
      Matches c' heap (Resolving.loop sha256 answers heap.length n i r) := by
  induction todo generalizing c n i r resolved with
  | nil =>
    subst hn
    rw [List.append_nil] at hheap
    refine ⟨c, .refl c, ?_⟩
    rw [Matches, hresolve]
    exact ⟨rfl, rfl, fun _ => hheap⟩
  | cons file todo ih =>
    subst hn hi
    have hget : (r.heap.array heap.length)[resolved.length]? = some file := by
      rw [hheap, FileHeap.array_concat, List.getElem?_append_right (Nat.le_refl _), Nat.sub_self]
      rfl
    rw [List.length_cons, Resolving.loop, hget]
    dsimp only
    rw [Resolve.next] at hresolve
    cases href : blobRef file with
    | none =>
      rw [href] at hresolve
      have hlength : resolved.length + 1 = (resolved ++ [file]).length := by simp
      rw [List.append_cons resolved] at hheap
      simpa only [Resolving.body, href] using ih hpc hresolve hheap rfl hlength
    | some ref =>
      cases hcheck : checkBlobFile file ref with
      | some err =>
        simp only [href, hcheck] at hresolve
        refine ⟨c, .refl c, ?_⟩
        simp only [Resolving.body, href, hcheck]
        rw [Matches, hresolve]
        exact ⟨rfl, rfl, nofun⟩
      | none =>
        simp only [href, hcheck] at hresolve
        have hsadd : c.resolve.pc = .sadd ref := by rw [hresolve]
        cases hlease : (answers resolved.length).lease with
        | false =>
          obtain ⟨c', hf, hr'⟩ := follows_fail sha256 hpc hsadd
          refine ⟨c', hf, ?_⟩
          simp only [Resolving.body, href, hcheck, hlease, Bool.false_eq_true, if_false]
          rw [Matches, hr', hresolve]
          exact ⟨rfl, rfl, nofun⟩
        | true =>
          obtain ⟨c₁, hf₁, hh₁, hr₁⟩ := follows_lease sha256 hpc hsadd
          rw [hresolve] at hr₁
          have hpc₁ : c₁.handler.pc = .resolveBlobs := by rw [hh₁, hpc]
          have hpull₁ : c₁.resolve.pc = .pull ref := by rw [hr₁]
          cases hpull : pullAndVerify sha256 ref (answers resolved.length).pull.stored with
          | none =>
            have hfiles : c₁.resolve.files = file :: todo := by rw [hr₁]
            obtain ⟨c', hf, hr'⟩ := follows_miss hpc₁ hpull₁ hfiles hpull
            refine ⟨c', hf₁ c' hf, ?_⟩
            simp only [Resolving.body, href, hcheck, hlease, if_true, hpull]
            rw [Matches, hr', hr₁]
            exact ⟨rfl, rfl, nofun⟩
          | some data =>
            obtain ⟨c₂, hf₂, hh₂, hr₂⟩ :=
              follows_pull hpc₁ hpull₁ hpull (answers resolved.length).touch
            have hpc₂ : c₂.handler.pc = .resolveBlobs := by rw [hh₂, hpc₁]
            have hnext : c₂.resolve = .next (r.leased ++ [ref]) (resolved ++ [{ file with
                content := some (base64Text data), encoding := "base64", ref := none }]) todo := by
              rw [hr₂, hr₁]
              rfl
            have hlift : ∀ out, (∃ c', Follows sha256 c₂ c' ∧ Matches c' heap out) →
                ∃ c', Follows sha256 c c' ∧ Matches c' heap out := by
              rintro out ⟨c', hf, hmatches⟩
              exact ⟨c', hf₁ c' (hf₂ c' hf), hmatches⟩
            simp only [Resolving.body, href, hcheck, hlease, if_true, hpull]
            refine hlift _ (ih hpc₂ hnext ?_ rfl (by simp))
            rw [hheap, FileHeap.write_concat, List.append_cons resolved]

variable (sha256) in
/-- When its calls are answered alike, the machine ends the resolution with the same error, the
same leases and the same files. -/
theorem resolveBlobRefs_follows (answers : ℕ → BlobAnswers) (heap : FileHeap) (files : ℕ)
    (hpc : c.handler.pc = .resolveBlobs)
    (hresolve : c.resolve = .start configured (heap.array files)) :
    let r := resolveBlobRefs sha256 configured answers heap files
    ∃ c', Follows sha256 c c' ∧ c'.resolve.pc = .returned r.err ∧ c'.resolve.leased = r.leased ∧
      (r.err = none → c'.resolve.resolved = r.heap.array r.files) := by
  unfold resolveBlobRefs
  dsimp only
  rw [Resolve.start] at hresolve
  split
  · next hall =>
    rw [if_pos hall] at hresolve
    exact ⟨c, .refl c, by rw [hresolve], by rw [hresolve], fun _ => by rw [hresolve]⟩
  · next hall =>
    rw [if_neg hall] at hresolve
    split
    · next hconfigured =>
      rw [if_pos hconfigured] at hresolve
      obtain ⟨c', hf, hpc', hleased, hfiles⟩ : ∃ c', Follows sha256 c c' ∧
          Matches c' heap (Resolving.loop sha256 answers heap.length (heap.array files).length 0
            ⟨heap ++ [heap.array files], [], []⟩) :=
        loop_follows hpc hresolve rfl rfl rfl
      split
      · next hr =>
        rw [hr] at hpc' hleased hfiles
        refine ⟨c', hf, hpc', hleased, fun _ => ?_⟩
        rw [show _ = heap ++ [_] from hfiles rfl, FileHeap.array_concat]
      · next hr =>
        rw [hr] at hpc' hleased
        exact ⟨c', hf, hpc', hleased, nofun⟩
    · next hconfigured =>
      rw [if_neg hconfigured] at hresolve
      exact ⟨c, .refl c, by rw [hresolve], by rw [hresolve], nofun⟩

end CodeRunner.Worker
