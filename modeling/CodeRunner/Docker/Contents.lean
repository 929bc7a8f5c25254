import CodeRunner.Docker.Workspace
import CodeRunner.Lib.Encoding
import CodeRunner.Lib.Fallible
import CodeRunner.Lib.Utf8

/-! # The contents of the workspace

`decodeFileContent`, and the regular files that `buildFilesTar` writes with their bytes.
-/

namespace CodeRunner.Docker

open Fallible

inductive CopyError where
  | path (err : PathError)
  | unresolved (name : String)
  | base64 (name : String)
  | encoding (name : String) (encoding : Encoding)
  deriving DecidableEq, Repr

def decodeFileContent (f : FileInput) : Except CopyError (List UInt8) :=
  match f.content with
  | none => .error (.unresolved f.name)
  | some content =>
    if f.encoding = "" ∨ f.encoding = "utf8" then .ok (Utf8.encode content.toList)
    else if f.encoding = "base64" then
      match Base64.decode content.toList with
      | some raw => .ok raw
      | none => .error (.base64 f.name)
    else .error (.encoding f.name f.encoding)

def copyFile (f : FileInput) : Except CopyError (Path × List UInt8) := do
  let path ← (sanitizeWorkspacePath f.name).mapError .path
  let content ← decodeFileContent f
  return (path, content)

/-- The regular files of the archive, in its order. -/
def copyFiles : List FileInput → Except CopyError (List (Path × List UInt8))
  | [] => .ok []
  | f :: files => do
    let file ← copyFile f
    let rest ← copyFiles files
    return file :: rest

def Entry.file? : Entry → Option Path
  | .dir _ => none
  | .file path => some path

variable {files : List FileInput} {f : FileInput} {written : List (Path × List UInt8)}
  {entries : List Entry}

theorem file?_emitDirs (entries : List Entry) (path : Path) :
    (emitDirs entries path).filterMap Entry.file? = entries.filterMap Entry.file? := by
  have hfold : ∀ (dirs : List Path) (entries : List Entry),
      (dirs.foldl emitDir entries).filterMap Entry.file? = entries.filterMap Entry.file? := by
    intro dirs
    induction dirs with
    | nil => exact fun _ => rfl
    | cons dir dirs ih =>
      intro entries
      rw [List.foldl_cons, ih, emitDir]
      split
      · rfl
      · simp [Entry.file?]
  exact hfold (parents path) entries

theorem copyFile_ok {path : Path} {content : List UInt8} (h : copyFile f = .ok (path, content)) :
    sanitizeWorkspacePath f.name = .ok path ∧ decodeFileContent f = .ok content := by
  obtain ⟨p, hpath, h⟩ := bind_ok_iff.mp h
  obtain ⟨c, hcontent, h⟩ := bind_ok_iff.mp h
  cases h
  exact ⟨mapError_ok_iff.mp hpath, hcontent⟩

theorem copyFile_of {path : Path} {content : List UInt8}
    (hpath : sanitizeWorkspacePath f.name = .ok path)
    (hcontent : decodeFileContent f = .ok content) :
    copyFile f = .ok (path, content) := by
  unfold copyFile
  rw [hpath, hcontent]
  rfl

theorem copyFiles_cons (h : copyFiles (f :: files) = .ok written) :
    ∃ file rest, copyFile f = .ok file ∧ copyFiles files = .ok rest ∧ written = file :: rest := by
  rw [copyFiles] at h
  obtain ⟨file, hfile, h⟩ := bind_ok_iff.mp h
  obtain ⟨rest, hrest, h⟩ := bind_ok_iff.mp h
  exact ⟨file, rest, hfile, hrest, (Except.ok.inj h).symm⟩

theorem buildFilesTar_of_copyFiles (h : copyFiles files = .ok written) :
    ∃ entries, buildFilesTar files = .ok entries ∧
      entries.filterMap Entry.file? = written.map Prod.fst := by
  have hfold : ∀ (files : List FileInput) (written : List (Path × List UInt8)) (es : List Entry),
      copyFiles files = .ok written → ∃ entries, files.foldlM addFile es = .ok entries ∧
        entries.filterMap Entry.file? = es.filterMap Entry.file? ++ written.map Prod.fst := by
    intro files
    induction files with
    | nil =>
      intro written es h
      obtain rfl := Except.ok.inj h
      exact ⟨es, rfl, by simp⟩
    | cons f files ih =>
      intro written es h
      obtain ⟨file, rest, hfile, hrest, rfl⟩ := copyFiles_cons h
      obtain ⟨hpath, -⟩ := copyFile_ok hfile
      obtain ⟨entries, hentries, hfiles⟩ := ih rest (emitDirs es file.1 ++ [.file file.1]) hrest
      refine ⟨entries, ?_, ?_⟩
      · rw [List.foldlM_cons, addFile, hpath]
        exact hentries
      · rw [hfiles, List.filterMap_append, file?_emitDirs]
        simp [Entry.file?]
  obtain ⟨entries, hentries, hfiles⟩ := hfold files written [] h
  exact ⟨entries, hentries, hfiles⟩

end CodeRunner.Docker
