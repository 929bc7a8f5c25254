import CodeRunner.Lib.Posix
import CodeRunner.Wire
import Mathlib.Data.List.Basic

/-! # The files of the workspace

`SanitizeWorkspacePath` and `buildFilesTar`: the names of the input files become paths below
the workspace, and the archive brings each parent directory once, before the files under it.
The contents are left out, no path depends on them.
-/

namespace CodeRunner.Docker

/-- A relative path by its segments. -/
abbrev Path := List (List Char)

/-- An empty name, an absolute one, a segment `..`, and a name that resolves to the workspace
itself. -/
inductive PathError | empty | absolute | traversal | outside
  deriving DecidableEq, Repr

/-- One segment of `path.Clean` below the root. -/
def cleanSegment (path : Path) (segment : List Char) : Path :=
  if segment = [] ∨ segment = ['.'] then path
  else if segment = ['.', '.'] then path.dropLast
  else path ++ [segment]

def clean (segments : Path) : Path := segments.foldl cleanSegment []

def sanitizeWorkspacePath (name : String) : Except PathError Path :=
  let segments := name.toList.splitOn '/'
  if name.toList = [] then .error .empty
  else if name.toList.head? = some '/' then .error .absolute
  else if ['.', '.'] ∈ segments then .error .traversal
  else if clean segments = [] then .error .outside
  else .ok (clean segments)

inductive Entry where
  | dir (path : Path)
  | file (path : Path)
  deriving DecidableEq

def Entry.path : Entry → Path
  | .dir path | .file path => path

def parents (path : Path) : List Path :=
  (List.range (path.length - 1)).map fun n => path.take (n + 1)

def emitDir (entries : List Entry) (dir : Path) : List Entry :=
  if .dir dir ∈ entries then entries else entries ++ [.dir dir]

def emitDirs (entries : List Entry) (path : Path) : List Entry :=
  (parents path).foldl emitDir entries

def addFile (entries : List Entry) (file : FileInput) : Except PathError (List Entry) :=
  (sanitizeWorkspacePath file.name).map fun path => emitDirs entries path ++ [.file path]

def buildFilesTar (files : List FileInput) : Except PathError (List Entry) :=
  files.foldlM addFile []

/-- What the extraction leaves at a path: an entry replaces what is there before. -/
def Entry.last (entries : List Entry) (path : Path) : Option Entry :=
  entries.findRev? (·.path = path)

def leavesFile (files : List FileInput) (path : Path) : Bool :=
  match buildFilesTar files with
  | .ok entries => decide (Entry.last entries path = some (.file path))
  | .error _ => false

def Plain (path : Path) : Prop := ∀ segment ∈ path, segment ∉ [[], ['.'], ['.', '.']]

variable {path : Path} {segment : List Char} {name : String} {files : List FileInput}

theorem Plain.cleanSegment (h : Plain path) : Plain (cleanSegment path segment) := by
  unfold Docker.cleanSegment
  split
  · exact h
  · next hskip =>
    split
    · exact fun s hs => h s (List.dropLast_subset path hs)
    · next hup =>
      intro s hs
      rcases List.mem_append.mp hs with hs | hs
      · exact h s hs
      · obtain rfl := List.mem_singleton.mp hs
        simp only [List.mem_cons, List.not_mem_nil, or_false, not_or] at hskip ⊢
        exact ⟨hskip.1, hskip.2, hup⟩

theorem plain_clean (segments : Path) : Plain (clean segments) := by
  have hfold : ∀ path : Path, Plain path → Plain (segments.foldl cleanSegment path) := by
    induction segments with
    | nil => exact fun _ h => h
    | cons segment segments ih => exact fun _ h => ih _ h.cleanSegment
  exact hfold [] nofun

theorem sanitize_ok (h : sanitizeWorkspacePath name = .ok path) :
    path = clean (name.toList.splitOn '/') ∧ path ≠ [] := by
  unfold sanitizeWorkspacePath at h
  dsimp only at h
  split at h
  · cases h
  · split at h
    · cases h
    · split at h
      · cases h
      · split at h
        · cases h
        · next hne =>
          cases h
          exact ⟨rfl, hne⟩

/-- Without `..` a segment is kept or left out. -/
theorem clean_eq_filter {segments : Path} (h : ['.', '.'] ∉ segments) :
    clean segments = segments.filter fun s => s ≠ [] ∧ s ≠ ['.'] := by
  have hfold : ∀ path : Path, segments.foldl cleanSegment path =
      path ++ segments.filter fun s => s ≠ [] ∧ s ≠ ['.'] := by
    induction segments with
    | nil => simp
    | cons s segments ih =>
      intro path
      obtain ⟨hs, hrest⟩ := not_or.mp (mt List.mem_cons.mpr h)
      rw [List.foldl_cons, ih hrest, cleanSegment, List.filter_cons]
      by_cases hskip : s = [] ∨ s = ['.']
      · simp [hskip]
        tauto
      · obtain ⟨hempty, hdot⟩ := not_or.mp hskip
        simp [hempty, hdot, Ne.symm hs]
  exact hfold []

theorem plain_of_sanitize (h : sanitizeWorkspacePath name = .ok path) :
    Plain path ∧ path ≠ [] := by
  obtain ⟨rfl, hne⟩ := sanitize_ok h
  exact ⟨plain_clean _, hne⟩

example : sanitizeWorkspacePath "./data//in.csv" = .ok ["data".toList, "in.csv".toList] := by
  decide

end CodeRunner.Docker
