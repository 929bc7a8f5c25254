import CodeRunner.Lib.Encoding
import CodeRunner.Lib.Fallible
import Mathlib.Data.Rat.Init

/-! # The files of a request in the SDK

`toFileInput` sends a file inline, `normalizeFilesWithCas` uploads a binary above the threshold
and sends its reference.
-/

namespace CodeRunner.Sdk

open Fallible

/-- What a caller gives: a wire file, a text or a binary. `data` is a `Buffer` or a
`Uint8Array`. -/
structure SdkFileInput where
  name : String
  content : Option String
  encoding : Option String
  ref : Option String
  data : Option (List UInt8)
  deriving DecidableEq, Repr

structure BodyFile where
  name : String
  content : Option String
  encoding : Option String
  ref : Option String
  deriving DecidableEq, Repr

def base64Text (data : List UInt8) : String := String.ofList (Base64.encode data)

def toFileInput (f : SdkFileInput) : BodyFile :=
  match f.data, f.ref with
  | some data, _ =>
    { name := f.name, content := some (base64Text data), encoding := some "base64", ref := none }
  | none, some ref => { name := f.name, content := none, encoding := none, ref := some ref }
  | none, none =>
    { name := f.name, content := f.content, encoding := f.encoding.filter (· ≠ ""), ref := none }

/-- `inlineThresholdBytes`, a JavaScript number. -/
inductive Threshold where
  | nan
  | negInfinity
  | finite (x : ℚ)
  | infinity

def Threshold.exceededBy (byteLength : ℕ) : Threshold → Bool
  | .nan | .infinity => false
  | .negInfinity => true
  | .finite x => x < byteLength

def isLargeBinary (f : SdkFileInput) (threshold : Threshold) : Bool :=
  match f.data with
  | some data => threshold.exceededBy data.length
  | none => false

variable (sha256 : List UInt8 → Vector UInt8 32)

def sha256Ref (data : List UInt8) : String :=
  String.ofList ("sha256:".toList ++ Hex.encode (sha256 data).toList)

/-- The calls of one upload: the hashes `/v1/blobs/check` calls missing, the status of the PUT,
and whether `/v1/blobs/finalize` succeeds. A call that throws has no answer. -/
structure UploadAnswers where
  missing : Option (List String)
  put : Option ℕ
  finalized : Bool

inductive UploadError where
  | request
  | put (ref : String) (status : ℕ)
  deriving DecidableEq

def uploadBlob (answers : UploadAnswers) (data : List UInt8) : Except UploadError String :=
  let ref := sha256Ref sha256 data
  match answers.missing with
  | none => .error .request
  | some missing =>
    if ref ∈ missing then
      match answers.put with
      | none => .error .request
      | some status =>
        if status < 200 ∨ 299 < status then .error (.put ref status)
        else if answers.finalized then .ok ref
        else .error .request
    else .ok ref

def normalizeFile (threshold : Threshold) (answers : UploadAnswers) (f : SdkFileInput) :
    Except UploadError BodyFile :=
  match f.data with
  | some data =>
    if isLargeBinary f threshold then
      (uploadBlob sha256 answers data).map fun ref =>
        { name := f.name, content := none, encoding := none, ref := some ref }
    else .ok (toFileInput f)
  | none => .ok (toFileInput f)

/-- `uploads` are the answers to the calls for each file. -/
def normalizeFilesWithCas (threshold : Threshold) :
    (uploads : ℕ → UploadAnswers) → List SdkFileInput → Except UploadError (List BodyFile)
  | _, [] => .ok []
  | uploads, f :: files => do
    let out ← normalizeFile sha256 threshold (uploads 0) f
    let rest ← normalizeFilesWithCas threshold (fun n => uploads (n + 1)) files
    return out :: rest

variable {sha256} {f : SdkFileInput} {files : List SdkFileInput} {out : BodyFile}
  {body : List BodyFile} {threshold : Threshold} {answers : UploadAnswers}
  {uploads : ℕ → UploadAnswers}

theorem uploadBlob_ok {data : List UInt8} {ref : String}
    (h : uploadBlob sha256 answers data = .ok ref) : ref = sha256Ref sha256 data := by
  unfold uploadBlob at h
  dsimp only at h
  split at h
  · cases h
  · split at h
    · split at h
      · cases h
      · split at h
        · cases h
        · split at h
          · exact (Except.ok.inj h).symm
          · cases h
    · exact (Except.ok.inj h).symm

inductive Sent (sha256 : List UInt8 → Vector UInt8 32) (f : SdkFileInput) : BodyFile → Prop where
  | inline : Sent sha256 f (toFileInput f)
  | byRef (data : List UInt8) (hdata : f.data = some data) :
      Sent sha256 f ⟨f.name, none, none, some (sha256Ref sha256 data)⟩

theorem sent_of_normalizeFile (h : normalizeFile sha256 threshold answers f = .ok out) :
    Sent sha256 f out := by
  unfold normalizeFile at h
  split at h
  · next data hdata =>
    split at h
    · obtain ⟨ref, hup, rfl⟩ := map_ok_iff.mp h
      rw [uploadBlob_ok hup]
      exact .byRef data hdata
    · obtain rfl := Except.ok.inj h
      exact .inline
  · obtain rfl := Except.ok.inj h
    exact .inline

theorem sent_of_normalize (h : normalizeFilesWithCas sha256 threshold uploads files = .ok body) :
    List.Forall₂ (Sent sha256) files body := by
  induction files generalizing uploads body with
  | nil =>
    obtain rfl := Except.ok.inj h
    exact .nil
  | cons f files ih =>
    rw [normalizeFilesWithCas] at h
    obtain ⟨out, hout, h⟩ := bind_ok_iff.mp h
    obtain ⟨rest, hrest, h⟩ := bind_ok_iff.mp h
    obtain rfl := Except.ok.inj h
    exact .cons (sent_of_normalizeFile hout) (ih hrest)

theorem sha256Ref_toList (data : List UInt8) :
    (sha256Ref sha256 data).toList = "sha256:".toList ++ Hex.encode (sha256 data).toList :=
  String.toList_ofList

theorem sha256Ref_inj {data data' : List UInt8}
    (h : sha256Ref sha256 data = sha256Ref sha256 data') : sha256 data = sha256 data' := by
  have hlist := List.append_cancel_left (String.ofList_injective h)
  exact Vector.toList_inj.mp (Hex.encode_injective hlist)

end CodeRunner.Sdk
