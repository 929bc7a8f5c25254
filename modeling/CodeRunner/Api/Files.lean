import CodeRunner.Docker.Contents
import CodeRunner.Lib.Posix
import CodeRunner.Sdk.Files
import Mathlib.Data.List.Forall2

/-! # The files of a request in the API

`FileInputSchema` with its default, and `validateFiles`, which turns bad paths and contents away
and adds up the decoded bytes.
-/

namespace CodeRunner.Api

open Fallible Sdk

def utf16Length (s : String) : ℕ := (s.toList.map fun c => if c.toNat < 0x10000 then 1 else 2).sum

/-- `sha256:` and 64 lowercase hexadecimal digits. -/
def refMatches (ref : String) : Bool :=
  let digits := ref.toList.drop 7
  ref.toList.take 7 = "sha256:".toList && digits.length = 64 &&
    digits.all fun c => ('a' ≤ c && c ≤ 'f') || ('0' ≤ c && c ≤ '9')

/-- `FileInputSchema`: an absent encoding is `utf8`. -/
def parseFileInput (f : BodyFile) : Option FileInput :=
  let encoding := f.encoding.getD "utf8"
  if 1 ≤ utf16Length f.name ∧ utf16Length f.name ≤ 255 ∧ encoding ∈ ["utf8", "base64"] ∧
      f.ref.all refMatches then
    some { content := f.content, encoding := encoding, name := f.name, ref := f.ref }
  else none

def sanitizeWorkspacePath (name : String) : Except Docker.PathError Docker.Path :=
  let segments := name.toList.splitOn '/'
  if name.toList = [] then .error .empty
  else if name.toList.head? = some '/' then .error .absolute
  else if ['.', '.'] ∈ segments then .error .traversal
  else
    let cleaned := segments.filter fun s => s ≠ [] ∧ s ≠ ['.']
    if cleaned = [] then .error .outside else .ok cleaned

inductive FileValidationError where
  | path (name : String) (err : Docker.PathError)
  | contentAndRef (name : String)
  | noContentNorRef (name : String)
  | badRef (name ref : String)
  | base64 (name : String)
  deriving DecidableEq

/-- `BASE64_RE` with the test of the length. -/
def isBase64 (content : String) : Bool :=
  let digits := content.toList.reverse.dropWhile (· = '=')
  digits.all (· ∈ Base64.alphabet) && content.toList.length - digits.length ≤ 2 &&
    content.toList.length % 4 = 0

/-- The bytes that the file adds to `totalBytes`. A text that is strict base64 has three bytes
to four digits, less one for each `=`. -/
def validateFile (f : FileInput) : Except FileValidationError ℕ :=
  match sanitizeWorkspacePath f.name with
  | .error err => .error (.path f.name err)
  | .ok _ =>
    match f.content, f.ref with
    | some _, some _ => .error (.contentAndRef f.name)
    | none, none => .error (.noContentNorRef f.name)
    | none, some ref => if refMatches ref then .ok 0 else .error (.badRef f.name ref)
    | some content, none =>
      if f.encoding = "base64" then
        if isBase64 content then
          .ok (content.toList.length / 4 * 3 - content.toList.count '=')
        else .error (.base64 f.name)
      else .ok content.utf8ByteSize

def validateFiles : List FileInput → Except FileValidationError ℕ
  | [] => .ok 0
  | f :: files => do
    let bytes ← validateFile f
    let totalBytes ← validateFiles files
    return bytes + totalBytes

/-- The files of the job, when the request is not turned away for them. -/
def acceptFiles (maxFilesBytes : ℕ) (body : List BodyFile) : Option (List FileInput) := do
  let files ← body.mapM parseFileInput
  if files = [] then none
  else
    match validateFiles files with
    | .error _ => none
    | .ok totalBytes => if maxFilesBytes < totalBytes then none else some files

variable {f : FileInput} {files : List FileInput} {b : BodyFile} {body : List BodyFile}
  {name : String} {maxFilesBytes : ℕ}

theorem sanitizeWorkspacePath_eq (name : String) :
    sanitizeWorkspacePath name = Docker.sanitizeWorkspacePath name := by
  unfold sanitizeWorkspacePath Docker.sanitizeWorkspacePath
  dsimp only
  split
  · rfl
  · split
    · rfl
    · split
      · rfl
      · next htraversal => rw [Docker.clean_eq_filter htraversal]

structure Accepted (b : BodyFile) (f : FileInput) : Prop where
  eq : f = ⟨b.content, b.encoding.getD "utf8", b.name, b.ref⟩
  xor : b.content.isSome ↔ b.ref = none
  ref_ne : b.ref ≠ some ""
  path : ∃ path, Docker.sanitizeWorkspacePath f.name = .ok path
  decodes : b.ref = none → ∃ content, Docker.decodeFileContent f = .ok content

theorem parseFileInput_some (h : parseFileInput b = some f) :
    f = { content := b.content, encoding := b.encoding.getD "utf8", name := b.name, ref := b.ref } ∧
      f.encoding ∈ ["utf8", "base64"] ∧ b.ref.all refMatches := by
  obtain ⟨hcond, h⟩ := Option.ite_none_right_eq_some.mp h
  obtain rfl := Option.some.inj h
  exact ⟨rfl, hcond.2.2⟩

/-- The worker can decode what the API takes for base64, to as many bytes as the API counts. -/
theorem exists_decode_of_isBase64 {content : String} (h : isBase64 content) :
    ∃ bs, Base64.decode content.toList = some bs ∧
      bs.length = content.toList.length / 4 * 3 - content.toList.count '=' := by
  simp only [isBase64, Bool.and_eq_true, List.all_eq_true, decide_eq_true_eq] at h
  obtain ⟨⟨hdigits, hpad⟩, hlen⟩ := h
  have hsplit := List.takeWhile_append_dropWhile (p := (· = '=')) (l := content.toList.reverse)
  generalize content.toList.reverse.dropWhile (· = '=') = digits at *
  have hpads : content.toList.reverse.takeWhile (· = '=') = List.replicate _ '=' :=
    List.eq_replicate_of_mem fun c hc =>
      of_decide_eq_true (List.all_eq_true.mp List.all_takeWhile c hc)
  generalize (content.toList.reverse.takeWhile (· = '=')).length = k at hpads
  rw [hpads] at hsplit
  have htext : content.toList = digits.reverse ++ List.replicate k '=' := by
    rw [← List.reverse_reverse content.toList, ← hsplit, List.reverse_append,
      List.reverse_replicate]
  rw [htext] at hpad hlen ⊢
  have hcount : (digits.reverse ++ List.replicate k '=').count '=' = k := by
    have hnone : '=' ∉ digits.reverse := by
      intro hmem
      exact absurd (hdigits '=' (List.mem_reverse.mp hmem)) (by decide)
    rw [List.count_append, List.count_eq_zero_of_not_mem hnone, List.count_replicate_self,
      Nat.zero_add]
  rw [List.length_append, List.length_reverse, List.length_replicate] at hpad hlen
  have hlen' : (digits.reverse.length + k) % 4 = 0 := by rwa [List.length_reverse]
  obtain ⟨bs, hbs, hbytes⟩ := Base64.exists_decode
    (fun c hc => hdigits c (List.mem_reverse.mp hc)) (by omega) hlen'
  refine ⟨bs, hbs, ?_⟩
  rw [hbytes, hcount, List.length_append, List.length_reverse, List.length_replicate]
  omega

theorem xor_of_validateFile {n : ℕ} (h : validateFile f = .ok n) :
    f.content.isSome ↔ f.ref = none := by
  unfold validateFile at h
  split at h
  · cases h
  · cases hc : f.content with
    | none =>
      cases hr : f.ref with
      | none => simp [hc, hr] at h
      | some ref => simp
    | some content =>
      cases hr : f.ref with
      | none => simp
      | some ref => simp [hc, hr] at h

/-- The worker takes the path of a valid file, and an inline file has the size that is counted. -/
theorem validateFile_spec {n : ℕ} (h : validateFile f = .ok n)
    (hencoding : f.encoding ∈ ["utf8", "base64"]) :
    (∃ path, Docker.sanitizeWorkspacePath f.name = .ok path) ∧
      (f.ref = none → ∃ content, Docker.decodeFileContent f = .ok content ∧
        content.length = n) := by
  unfold validateFile at h
  rw [sanitizeWorkspacePath_eq] at h
  cases hpath : Docker.sanitizeWorkspacePath f.name with
  | error err =>
    rw [hpath] at h
    cases h
  | ok path =>
    refine ⟨⟨path, rfl⟩, fun href => ?_⟩
    rw [hpath, href] at h
    unfold Docker.decodeFileContent
    cases hcontent : f.content with
    | none =>
      rw [hcontent] at h
      cases h
    | some content =>
      rw [hcontent] at h
      dsimp only at h ⊢
      rcases List.mem_pair.mp hencoding with hutf8 | hbase64
      · rw [hutf8, if_neg (by decide)] at h
        obtain rfl := Except.ok.inj h
        exact ⟨_, if_pos (.inr hutf8), Utf8.length_encode_toList content⟩
      · rw [if_pos hbase64] at h
        split at h
        · next hstrict =>
          obtain ⟨bs, hbs, hbytes⟩ := exists_decode_of_isBase64 hstrict
          obtain rfl := Except.ok.inj h
          rw [hbase64, hbs]
          exact ⟨bs, rfl, hbytes⟩
        · cases h

theorem validateFile_of_validateFiles {n : ℕ} (h : validateFiles files = .ok n) :
    ∀ f ∈ files, ∃ m, validateFile f = .ok m := by
  induction files generalizing n with
  | nil => nofun
  | cons f files ih =>
    rw [validateFiles] at h
    obtain ⟨bytes, hf, h⟩ := bind_ok_iff.mp h
    obtain ⟨total, hrest, -⟩ := bind_ok_iff.mp h
    exact List.forall_mem_cons.mpr ⟨⟨bytes, hf⟩, ih hrest⟩

theorem Accepted.intro (hparse : parseFileInput b = some f) {n : ℕ}
    (hvalid : validateFile f = .ok n) : Accepted b f := by
  obtain ⟨heq, hencoding, hall⟩ := parseFileInput_some hparse
  obtain ⟨hpath, hsize⟩ := validateFile_spec hvalid hencoding
  have hxor := xor_of_validateFile hvalid
  subst heq
  refine ⟨rfl, hxor, fun hempty => ?_, hpath, fun href => ?_⟩
  · rw [hempty] at hall
    exact absurd hall (by decide)
  · obtain ⟨content, hcontent, -⟩ := hsize href
    exact ⟨content, hcontent⟩

theorem accepted_of_acceptFiles (h : acceptFiles maxFilesBytes body = some files) :
    List.Forall₂ Accepted body files := by
  obtain ⟨fs, hparse, h⟩ := Option.bind_eq_some_iff.mp h
  obtain ⟨-, h⟩ := Option.ite_none_left_eq_some.mp h
  cases htotal : validateFiles fs with
  | error err =>
    rw [htotal] at h
    cases h
  | ok total =>
    rw [htotal] at h
    obtain ⟨-, h⟩ := Option.ite_none_left_eq_some.mp h
    obtain rfl := Option.some.inj h
    have hboth := (List.forall₂_and_left _ _).mpr
      ⟨validateFile_of_validateFiles htotal, (forall₂_of_mapM hparse).flip⟩
    exact (hboth.imp fun f b ⟨⟨_, hvalid⟩, hparse⟩ => Accepted.intro hparse hvalid).flip

end CodeRunner.Api
