import CodeRunner.Api.Files
import CodeRunner.Docker.Contents
import CodeRunner.Worker.Blobs
import CodeRunner.Zygote.Hello
import Mathlib.Data.Set.Function

/-! # References become inline files

`pullAndVerify` lets through the bytes of a reference only, so what the resolution leaves of a
request is what its caller gave, whichever binaries the SDK has uploaded. `S` holds the byte
strings that meet the hash.
-/

namespace CodeRunner.Worker

open Sdk Transition

variable (sha256 : List UInt8 → Vector UInt8 32) (S : Set (List UInt8))

/-- `stored` is what the stream of the blob gives, if it ends without an error. -/
def pullAndVerify (ref : String) (stored : Option (List UInt8)) : Option (List UInt8) :=
  match refToHexHash ref, stored with
  | .ok wantHex, some data => if Hex.encode (sha256 data).toList = wantHex then some data else none
  | _, _ => none

/-- The pull answers with what `pullAndVerify` returns. -/
def PullsVerified (c : Custody) (ca : CustodyAct) : Prop :=
  ∀ ref content, c.resolve.pc = .pull ref → ca = .lease (.pull content) →
    ∃ stored, (∀ data, stored = some data → data ∈ S) ∧
      content = (pullAndVerify sha256 ref stored).map base64Text

inductive Inlined (file : FileInput) : FileInput → Prop where
  | inline (href : blobRef file = none) : Inlined file file
  | pulled (data : List UInt8) (hdata : data ∈ S) (hcontent : file.content = none)
      (href : file.ref = some (sha256Ref sha256 data)) :
      Inlined file
        { file with content := some (base64Text data), encoding := "base64", ref := none }

def ResolvePc.Knows : ResolvePc → List FileInput → Prop
  | .sadd ref, files | .leaseTouch ref, files | .pull ref, files =>
    ∃ file rest, files = file :: rest ∧ file.content = none ∧ file.ref = some ref
  | .touch content, files =>
    ∃ file rest data, files = file :: rest ∧ file.content = none ∧
      file.ref = some (sha256Ref sha256 data) ∧ data ∈ S ∧ content = base64Text data
  | .returned none, files => files = []
  | .returned (some _), _ => True

def Resolve.Progress (files : List FileInput) (r : Resolve) : Prop :=
  ∃ before, files = before ++ r.files ∧ List.Forall₂ (Inlined sha256 S) before r.resolved ∧
    r.pc.Knows sha256 S r.files

variable {sha256 S} {c c' : Custody} {ca : CustodyAct} {files resolved before : List FileInput}
  {r : Resolve} {ref content : String} {file : FileInput}

theorem refToHexHash_ok {hexPart : List Char} (h : refToHexHash ref = .ok hexPart) :
    ref.toList = "sha256:".toList ++ hexPart := by
  have hscheme : "sha256:".toList = ['s', 'h', 'a', '2', '5', '6', ':'] := by decide
  unfold refToHexHash at h
  dsimp only at h
  split at h
  · cases h
  · next htake =>
    split at h
    · cases h
    · split at h
      · rw [hscheme, ← not_not.mp htake, ← Except.ok.inj h, List.take_append_drop]
      · cases h

theorem pullAndVerify_some {stored : Option (List UInt8)} {data : List UInt8}
    (h : pullAndVerify sha256 ref stored = some data) :
    stored = some data ∧ ref = sha256Ref sha256 data := by
  unfold pullAndVerify at h
  cases hhex : refToHexHash ref with
  | error err =>
    rw [hhex] at h
    cases h
  | ok wantHex =>
    cases stored with
    | none =>
      rw [hhex] at h
      cases h
    | some data' =>
      rw [hhex] at h
      dsimp only at h
      obtain ⟨hwant, hdata⟩ := Option.ite_none_right_eq_some.mp h
      have hlist : ref.toList = (sha256Ref sha256 data').toList :=
        (refToHexHash_ok hhex).trans (hwant ▸ (sha256Ref_toList data').symm)
      exact ⟨hdata, Option.some.inj hdata ▸ String.toList_injective hlist⟩

theorem blobRef_eq_some (h : blobRef file = some ref) : file.ref = some ref :=
  (Option.filter_eq_some_iff.mp h).1

theorem content_of_checkBlobFile (h : checkBlobFile file ref = none) : file.content = none := by
  unfold checkBlobFile at h
  split at h
  · cases h
  · next hcontent => exact Option.not_isSome_iff_eq_none.mp hcontent

theorem Resolve.Progress.next (leased : List String)
    (hbefore : List.Forall₂ (Inlined sha256 S) before resolved) (todo : List FileInput) :
    (Resolve.next leased resolved todo).Progress sha256 S (before ++ todo) := by
  induction todo generalizing before resolved with
  | nil => exact ⟨before, rfl, hbefore, rfl⟩
  | cons file todo ih =>
    unfold Resolve.next
    split
    · next hnone =>
      have hsnoc := List.rel_append hbefore (.cons (Inlined.inline hnone) .nil)
      have htail := ih hsnoc
      rwa [List.append_assoc] at htail
    · next ref hsome =>
      split
      · exact ⟨before, rfl, hbefore, True.intro⟩
      · next hcheck =>
        exact ⟨before, rfl, hbefore, file, todo, rfl, content_of_checkBlobFile hcheck,
          blobRef_eq_some hsome⟩

theorem Resolve.Progress.start (configured : Bool) (files : List FileInput) :
    (Resolve.start configured files).Progress sha256 S files := by
  unfold Resolve.start
  split
  · next hall =>
    refine ⟨files, (List.append_nil files).symm, ?_, rfl⟩
    rw [List.forall₂_same]
    intro file hfile
    exact .inline (Option.isNone_iff_eq_none.mp (List.all_eq_true.mp hall file hfile))
  · split
    · exact Resolve.Progress.next [] .nil files
    · exact ⟨[], rfl, .nil, True.intro⟩

theorem Resolve.Progress.fail (h : r.Progress sha256 S files) (err : BlobError) :
    (r.fail err).Progress sha256 S files := by
  obtain ⟨before, heq, hbefore, -⟩ := h
  exact ⟨before, heq, hbefore, True.intro⟩

theorem Resolve.Progress.materialize (h : r.Progress sha256 S files)
    (hr : r.pc = .touch content) : (r.materialize content).Progress sha256 S files := by
  obtain ⟨before, rfl, hbefore, hknows⟩ := h
  rw [hr] at hknows
  obtain ⟨file, rest, data, hfiles, hcontent, href, hdata, rfl⟩ := hknows
  have hsnoc := List.rel_append hbefore (.cons (Inlined.pulled data hdata hcontent href) .nil)
  have hnext := Resolve.Progress.next r.leased hsnoc rest
  rw [List.append_assoc] at hnext
  rw [Resolve.materialize, hfiles]
  exact hnext

theorem step_progress (hp : c.resolve.Progress sha256 S files)
    (hv : PullsVerified sha256 S c ca) (h : c.step ca = some c') :
    c'.resolve.Progress sha256 S files := by
  cases step_turn h with
  | act a handler =>
    rw [(write_frame c a).2]
    exact hp
  | pins ref hpc hr | leases ref hpc hr =>
    obtain ⟨before, heq, hbefore, hknows⟩ := hp
    rw [hr] at hknows
    exact ⟨before, heq, hbefore, hknows⟩
  | pinFails ref | leaseFails ref | pullFails ref => exact hp.fail _
  | pulls ref content hpc hr =>
    obtain ⟨before, heq, hbefore, hknows⟩ := hp
    rw [hr] at hknows
    obtain ⟨file, rest, hfiles, hcontent, href⟩ := hknows
    obtain ⟨stored, hstored, hsome⟩ := hv ref _ hr rfl
    obtain ⟨data, hdata, rfl⟩ := Option.map_eq_some_iff.mp hsome.symm
    obtain ⟨hread, rfl⟩ := pullAndVerify_some hdata
    exact ⟨before, heq, hbefore, file, rest, data, hfiles, hcontent, href, hstored data hread, rfl⟩
  | touches ok content hpc hr => exact hp.materialize hr
  | releases ok ref leased todo hpc hr => exact hp
  | effect ok e =>
    rw [(performed_frame c ok e).2]
    exact hp

variable (sha256 S) in
/-- The file that comes to a sandbox for what a caller gave. -/
inductive Delivered (input : SdkFileInput) : FileInput → Prop where
  | binary (data : List UInt8) (hinput : input.data = some data) :
      Delivered input ⟨some (base64Text data), "base64", input.name, none⟩
  | blob (data : List UInt8) (hdata : data ∈ S) (hinput : input.data = none)
      (href : input.ref = some (sha256Ref sha256 data)) :
      Delivered input ⟨some (base64Text data), "base64", input.name, none⟩
  | text (content : String) (hinput : input.data = none) (href : input.ref = none)
      (hcontent : input.content = some content) :
      Delivered input
        ⟨some content, (input.encoding.filter (· ≠ "")).getD "utf8", input.name, none⟩

variable {input : SdkFileInput} {inputs : List SdkFileInput} {b : BodyFile} {body : List BodyFile}
  {f f' : FileInput} {fs fs' : List FileInput}

theorem Inlined.of_ref (h : Inlined sha256 S f f') (href : f.ref = some ref) (hne : ref ≠ "") :
    ∃ data ∈ S, ref = sha256Ref sha256 data ∧
      f' = { f with content := some (base64Text data), encoding := "base64", ref := none } := by
  cases h with
  | inline hnone =>
    rw [blobRef, href, Option.filter_some_pos (by simpa using hne)] at hnone
    cases hnone
  | pulled data hdata hcontent href' =>
    exact ⟨data, hdata, Option.some.inj (href.symm.trans href'), rfl⟩

theorem Inlined.of_content (h : Inlined sha256 S f f') (hcontent : f.content = some content) :
    f' = f := by
  cases h with
  | inline => rfl
  | pulled data hdata hnone =>
    rw [hcontent] at hnone
    cases hnone

theorem Delivered.intro (hfree : S.InjOn sha256) (hS : ∀ data, input.data = some data → data ∈ S)
    (hsent : Sent sha256 input b) (hacc : Api.Accepted b f) (hin : Inlined sha256 S f f') :
    Delivered sha256 S input f' := by
  obtain rfl := hacc.eq
  cases hsent with
  | byRef data hdata =>
    obtain ⟨data', hdata', href, rfl⟩ := hin.of_ref rfl fun h => hacc.ref_ne (congrArg some h)
    obtain rfl := hfree (hS data hdata) hdata' (sha256Ref_inj href)
    exact .binary data hdata
  | inline =>
    have hxor := hacc.xor
    have hne := hacc.ref_ne
    unfold toFileInput at hin hxor hne
    cases hdata : input.data with
    | some data =>
      rw [hdata] at hin
      obtain rfl := hin.of_content rfl
      exact .binary data hdata
    | none =>
      cases href : input.ref with
      | some ref =>
        rw [hdata, href] at hin hne
        obtain ⟨data, hmem, rfl, rfl⟩ := hin.of_ref rfl fun h => hne (congrArg some h)
        exact .blob data hmem hdata href
      | none =>
        rw [hdata, href] at hin hxor
        obtain ⟨content, hcontent⟩ := Option.isSome_iff_exists.mp (hxor.mpr rfl)
        obtain rfl := hin.of_content hcontent
        dsimp only at hcontent ⊢
        rw [hcontent]
        exact .text content hdata href hcontent

/-- A caller's file comes as one file, as long as no two byte strings share a digest. -/
theorem Delivered.unique (hfree : S.InjOn sha256) (h : Delivered sha256 S input f)
    (h' : Delivered sha256 S input f') : f = f' := by
  cases h with
  | binary data hinput =>
    cases h' with
    | binary data' hinput' => rw [Option.some.inj (hinput.symm.trans hinput')]
    | blob _ _ hinput' | text _ hinput' => cases hinput.symm.trans hinput'
  | blob data hdata hinput href =>
    cases h' with
    | binary _ hinput' => cases hinput.symm.trans hinput'
    | blob data' hdata' _ href' =>
      rw [hfree hdata hdata' (sha256Ref_inj (Option.some.inj (href.symm.trans href')))]
    | text _ _ href' => cases href.symm.trans href'
  | text content hinput href hcontent =>
    cases h' with
    | binary _ hinput' => cases hinput.symm.trans hinput'
    | blob _ _ _ href' => cases href.symm.trans href'
    | text _ _ _ hcontent' => rw [Option.some.inj (hcontent.symm.trans hcontent')]

theorem delivered_of (hfree : S.InjOn sha256)
    (hS : ∀ input ∈ inputs, ∀ data, input.data = some data → data ∈ S)
    (hsent : List.Forall₂ (Sent sha256) inputs body) (hacc : List.Forall₂ Api.Accepted body fs)
    (hin : List.Forall₂ (Inlined sha256 S) fs fs') :
    List.Forall₂ (Delivered sha256 S) inputs fs' := by
  induction hsent generalizing fs fs' with
  | nil =>
    cases hacc
    cases hin
    exact .nil
  | cons hs hsent ih =>
    cases hacc with
    | cons ha hacc =>
      cases hin with
      | cons hi hin =>
        obtain ⟨hhead, htail⟩ := List.forall_mem_cons.mp hS
        exact .cons (.intro hfree hhead hs ha hi) (ih htail hacc hin)

variable (sha256 S) in
/-- A request for the caller's files, made with a threshold: it is accepted, and its job goes on
until every reference has resolved. -/
structure Request (threshold : Threshold) (inputs : List SdkFileInput) where
  uploads : ℕ → UploadAnswers
  body : List BodyFile
  sent : normalizeFilesWithCas sha256 threshold uploads inputs = .ok body
  maxFilesBytes : ℕ
  job : Job
  accepted : Api.acceptFiles maxFilesBytes body = some job.spec.files
  configured : Bool
  acts : List CustodyAct
  custody : Custody
  runs : run Custody.step (.start configured job) acts = some custody
  verified : EveryStep Custody.step (PullsVerified sha256 S) (.start configured job) acts
  resolved : custody.resolve.pc = .returned none

/-- The files of the job as the sandbox gets them. -/
def Request.arrived {threshold : Threshold} (r : Request sha256 S threshold inputs) :
    List FileInput := r.custody.resolve.resolved

theorem Request.inlined {threshold : Threshold} (r : Request sha256 S threshold inputs) :
    List.Forall₂ (Inlined sha256 S) r.job.spec.files r.arrived := by
  have hall : Always Custody.step (fun c => c.resolve.Progress sha256 S r.job.spec.files)
      (.start r.configured r.job) r.acts :=
    .of_guarded (fun _ _ _ => step_progress) (Resolve.Progress.start _ _) r.verified
  obtain ⟨before, heq, hin, hknows⟩ := hall.last r.runs
  rw [r.resolved] at hknows
  rw [show r.custody.resolve.files = [] from hknows, List.append_nil] at heq
  rw [heq]
  exact hin

theorem Request.delivered {threshold : Threshold} (r : Request sha256 S threshold inputs)
    (hfree : S.InjOn sha256) (hS : ∀ input ∈ inputs, ∀ data, input.data = some data → data ∈ S) :
    List.Forall₂ (Delivered sha256 S) inputs r.arrived :=
  delivered_of hfree hS (sent_of_normalize r.sent) (Api.accepted_of_acceptFiles r.accepted)
    r.inlined

theorem Delivered.name (h : Delivered sha256 S input f) : f.name = input.name := by
  cases h <;> rfl

theorem Delivered.of_data (h : Delivered sha256 S input f) {data : List UInt8}
    (hdata : input.data = some data) :
    f.content = some (base64Text data) ∧ f.encoding = "base64" := by
  cases h with
  | binary data' hinput =>
    obtain rfl := Option.some.inj (hdata.symm.trans hinput)
    exact ⟨rfl, rfl⟩
  | blob _ _ hinput | text _ hinput => cases hdata.symm.trans hinput

theorem decode_base64Text (data : List UInt8) :
    Base64.decode (base64Text data).toList = some data := by
  rw [base64Text, String.toList_ofList, Base64.decode_encode]

theorem decodeFileContent_binary {data : List UInt8} (hcontent : f.content = some (base64Text data))
    (hencoding : f.encoding = "base64") : Docker.decodeFileContent f = .ok data := by
  simp only [Docker.decodeFileContent, hcontent, hencoding, decode_base64Text]
  rfl

theorem Inlined.exists_copyFile (h : Inlined sha256 S f f') (hacc : Api.Accepted b f) :
    ∃ file, Docker.copyFile f' = .ok file := by
  obtain ⟨path, hpath⟩ := hacc.path
  cases h with
  | inline hnone =>
    have href : b.ref = none := by
      cases href : b.ref with
      | none => rfl
      | some ref =>
        have hsome : f.ref = some ref := by rw [hacc.eq, href]
        have hempty : ref = "" := by simpa [blobRef, hsome, Option.filter_some] using hnone
        rw [hempty] at href
        exact absurd href hacc.ref_ne
    obtain ⟨content, hcontent⟩ := hacc.decodes href
    exact ⟨_, Docker.copyFile_of hpath hcontent⟩
  | pulled data => exact ⟨_, Docker.copyFile_of hpath (decodeFileContent_binary rfl rfl)⟩

theorem exists_copyFiles (hacc : List.Forall₂ Api.Accepted body fs)
    (hin : List.Forall₂ (Inlined sha256 S) fs fs') :
    ∃ written, Docker.copyFiles fs' = .ok written := by
  induction hacc generalizing fs' with
  | nil =>
    cases hin
    exact ⟨[], rfl⟩
  | cons ha hacc ih =>
    cases hin with
    | cons hi hin =>
      obtain ⟨file, hfile⟩ := hi.exists_copyFile ha
      obtain ⟨rest, hrest⟩ := ih hin
      refine ⟨file :: rest, ?_⟩
      rw [Docker.copyFiles, hfile, hrest]
      rfl

/-- The archive of the Docker tier has each file under its path, a binary with its bytes. -/
theorem copyFiles_delivered (h : List.Forall₂ (Delivered sha256 S) inputs fs)
    {written : List (Docker.Path × List UInt8)} (hw : Docker.copyFiles fs = .ok written) :
    List.Forall₂ (fun input file => Docker.sanitizeWorkspacePath input.name = .ok file.1 ∧
      ∀ data, input.data = some data → file.2 = data) inputs written := by
  induction h generalizing written with
  | nil =>
    obtain rfl := Except.ok.inj hw
    exact .nil
  | @cons input f inputs fs hd h ih =>
    obtain ⟨file, rest, hfile, hrest, rfl⟩ := Docker.copyFiles_cons hw
    obtain ⟨hpath, hcontent⟩ := Docker.copyFile_ok hfile
    refine .cons ⟨hd.name ▸ hpath, fun data hdata => ?_⟩ (ih hrest)
    obtain ⟨htext, hencoding⟩ := hd.of_data hdata
    rw [decodeFileContent_binary htext hencoding] at hcontent
    exact (Except.ok.inj hcontent).symm

/-- The HELLO of the zygote tier has each file under its name, a binary as its base64 text. -/
theorem buildHello_delivered (h : List.Forall₂ (Delivered sha256 S) inputs fs) (spec : JobSpec)
    (cfg : Zygote.Config) :
    List.Forall₂ (fun input file => file.name = input.name ∧ ∀ data, input.data = some data →
        file.encoding = "base64" ∧ Base64.decode file.content.toList = some data)
      inputs (Zygote.buildHello { spec with files := fs } cfg).files := by
  rw [Zygote.buildHello, List.forall₂_map_right_iff]
  refine h.imp fun input f hd => ⟨hd.name, fun data hdata => ?_⟩
  obtain ⟨htext, hencoding⟩ := hd.of_data hdata
  refine ⟨hencoding, ?_⟩
  rw [htext]
  exact decode_base64Text data

/-- Two requests for the same files leave the same files in the workspace, at any two thresholds,
and every binary has the bytes that the caller gave. -/
theorem cas_refines_inline {threshold₁ threshold₂ : Threshold} (hfree : S.InjOn sha256)
    (hS : ∀ input ∈ inputs, ∀ data, input.data = some data → data ∈ S)
    (r₁ : Request sha256 S threshold₁ inputs) (r₂ : Request sha256 S threshold₂ inputs) :
    (∃ written, Docker.copyFiles r₁.arrived = .ok written ∧
        Docker.copyFiles r₂.arrived = .ok written ∧
        List.Forall₂ (fun input file => Docker.sanitizeWorkspacePath input.name = .ok file.1 ∧
          ∀ data, input.data = some data → file.2 = data) inputs written) ∧
      ∀ (spec : JobSpec) (cfg : Zygote.Config),
        (Zygote.buildHello { spec with files := r₁.arrived } cfg).files =
          (Zygote.buildHello { spec with files := r₂.arrived } cfg).files ∧
        List.Forall₂ (fun input file => file.name = input.name ∧ ∀ data, input.data = some data →
            file.encoding = "base64" ∧ Base64.decode file.content.toList = some data)
          inputs (Zygote.buildHello { spec with files := r₁.arrived } cfg).files := by
  have h₁ := r₁.delivered hfree hS
  have h₂ := r₂.delivered hfree hS
  have hunique : Relator.RightUnique (Delivered sha256 S) :=
    fun _ _ _ h h' => h.unique hfree h'
  have heq : r₁.arrived = r₂.arrived := hunique.forall₂ h₁ h₂
  obtain ⟨written, hwritten⟩ :=
    exists_copyFiles (Api.accepted_of_acceptFiles r₁.accepted) r₁.inlined
  constructor
  · exact ⟨written, hwritten, heq ▸ hwritten, copyFiles_delivered h₁ hwritten⟩
  · intro spec cfg
    exact ⟨by rw [heq], buildHello_delivered h₁ spec cfg⟩

/-- The digest of `hi`, every other digest is left out. -/
def hiSha256 (data : List UInt8) : Vector UInt8 32 :=
  if data = [0x68, 0x69] then
    #v[0x8f, 0x43, 0x43, 0x46, 0x64, 0x8f, 0x6b, 0x96, 0xdf, 0x89, 0xdd, 0xa9, 0x01, 0xc5, 0x17,
      0x6b, 0x10, 0xa6, 0xd8, 0x39, 0x61, 0xdd, 0x3c, 0x1a, 0xc8, 0x8b, 0x59, 0xb2, 0xdc, 0x32,
      0x7a, 0xa4]
  else Vector.replicate 32 0

def hiInputs : List SdkFileInput :=
  [⟨"main.py", some "print(1)", none, none, none⟩,
    ⟨"data.bin", none, none, none, some [0x68, 0x69]⟩]

def hiRef : String := "sha256:8f434346648f6b96df89dda901c5176b10a6d83961dd3c1ac88b59b2dc327aa4"

def hiJob (file : FileInput) : Job :=
  { script with
    spec := { script.spec with files := [⟨some "print(1)", "utf8", "main.py", none⟩, file] } }

/-- The job begins and pins the blob, and the pull gives its bytes. -/
def hiPull : List CustodyAct :=
  leaseBlob true ++ [.lease (.pull (some "aGk=")), .lease (.touch true)]

def inlineRequest : Request hiSha256 {[0x68, 0x69]} .infinity hiInputs where
  uploads _ := ⟨none, none, false⟩
  body := [⟨"main.py", some "print(1)", none, none⟩,
    ⟨"data.bin", some "aGk=", some "base64", none⟩]
  sent := by decide +kernel
  maxFilesBytes := 100
  job := hiJob ⟨some "aGk=", "base64", "data.bin", none⟩
  accepted := by decide +kernel
  configured := false
  acts := []
  custody := .start false (hiJob ⟨some "aGk=", "base64", "data.bin", none⟩)
  runs := rfl
  verified := True.intro
  resolved := by decide +kernel

theorem hiPull_verified : EveryStep Custody.step (PullsVerified hiSha256 {[0x68, 0x69]})
    (.start true (hiJob ⟨none, "utf8", "data.bin", some hiRef⟩)) hiPull := by
  have hpull : ∃ c, run Custody.step (.start true (hiJob ⟨none, "utf8", "data.bin", some hiRef⟩))
      (leaseBlob true) = some c ∧ c.resolve.pc = .pull hiRef :=
    ⟨(run Custody.step (.start true (hiJob ⟨none, "utf8", "data.bin", some hiRef⟩))
      (leaseBlob true)).get (by decide +kernel), (Option.some_get _).symm, by decide +kernel⟩
  obtain ⟨c, hr, hpc⟩ := hpull
  have hbegin : ∀ ca ∈ leaseBlob true, ∀ content, ca ≠ .lease (.pull content) := by
    simp [leaseBlob, CustodyAct.call]
  refine (everyStep_append hr).mpr ⟨(everyStep_of_mem hbegin).mono ?_, ?_, fun c' _ => ⟨?_, ?_⟩⟩
  · exact fun c ca hne ref content _ heq => absurd heq (hne content)
  · intro ref content hc heq
    obtain rfl : hiRef = ref := ResolvePc.pull.inj (hpc.symm.trans hc)
    obtain rfl : some "aGk=" = content := LeaseAct.pull.inj (CustodyAct.lease.inj heq)
    exact ⟨some [0x68, 0x69], fun data h => (Option.some.inj h).symm, by decide +kernel⟩
  · intro ref content _ heq
    cases heq
  · exact fun _ _ => True.intro

def refRequest : Request hiSha256 {[0x68, 0x69]} .negInfinity hiInputs where
  uploads _ := ⟨some [hiRef], some 200, true⟩
  body := [⟨"main.py", some "print(1)", none, none⟩, ⟨"data.bin", none, none, some hiRef⟩]
  sent := by decide +kernel
  maxFilesBytes := 100
  job := hiJob ⟨none, "utf8", "data.bin", some hiRef⟩
  accepted := by decide +kernel
  configured := true
  acts := hiPull
  custody := (run Custody.step (.start true (hiJob ⟨none, "utf8", "data.bin", some hiRef⟩))
    hiPull).get (by decide +kernel)
  runs := (Option.some_get _).symm
  verified := hiPull_verified
  resolved := by decide +kernel

theorem cas_refines_inline_hi :
    Docker.copyFiles inlineRequest.arrived = Docker.copyFiles refRequest.arrived := by
  obtain ⟨⟨written, h₁, h₂, -⟩, -⟩ := cas_refines_inline (Set.injOn_singleton hiSha256 _)
    (by simp [hiInputs]) inlineRequest refRequest
  exact h₁.trans h₂.symm

end CodeRunner.Worker
