import CodeRunner.Lib.Posix
import CodeRunner.Worker.Collect
import CodeRunner.Zygote.Materialize
import Mathlib.Data.List.Nodup

/-! # Which files of the workspace are artifacts

The two `ReadArtifacts`, one over the archive of the workspace and one over the frames of the
agent, with the set of paths that `buildArtifactExcludeSet` leaves out. Both compare the path of a
file with this set, and its name too.
-/

namespace CodeRunner

open Posix

def sandboxWorkDir : List Char := "/workspace".toList

namespace Worker

/-- The operand of the first `-o`. -/
def outputFlag : List String → Option String
  | "-o" :: target :: _ => some target
  | _ :: argv => outputFlag argv
  | [] => none

def compileTarget (spec : JobSpec) : Option String :=
  spec.compile.bind fun argv => (outputFlag argv).or spec.run.head?

def compileOutputBasename (spec : JobSpec) : List Char :=
  ((compileTarget spec).map fun target => base target.toList).getD []

/-- The keys of the set. -/
def buildArtifactExcludeSet (spec : JobSpec) : List (List Char) :=
  let out := compileOutputBasename spec
  spec.files.filterMap (fun f => (Docker.sanitizeWorkspacePath f.name).toOption.map render) ++
    ".compile_ready".toList :: if out = [] then [] else [out]

end Worker

/-- The check of both tiers: a path is left out for itself or for its last segment. -/
def skips (exclude : List (List Char)) (rel : List Char) : Bool :=
  rel = [] || rel = ['.'] || base rel = base (render Worker.compileRunMarker) ||
    exclude.contains rel || exclude.contains (base rel)

/-- `path.Ext`. -/
def ext (path : List Char) : List Char :=
  let name := path.rtakeWhile (· ≠ '/')
  if '.' ∈ name then '.' :: name.rtakeWhile (· ≠ '.') else []

variable (typeByExtension : List Char → String)

/-- `typeByExtension` is the table of the platform. -/
def capturedArtifact (rel : List Char) (data : List UInt8) : Worker.CapturedArtifact :=
  let mimeType := typeByExtension (ext rel)
  ⟨String.ofList rel, if mimeType = "" then "application/octet-stream" else mimeType, data⟩

namespace Docker

/-- An entry as `tar.Reader` gives it; reading its content may fail. -/
structure TarEntry where
  name : List Char
  typeflag : Char
  data : Option (List UInt8)

/-- `strings.TrimPrefix`. -/
def trimPrefix (s start : List Char) : List Char :=
  if start.isPrefixOf s then s.drop start.length else s

def stripWorkspacePrefix (name : List Char) : List Char :=
  let wsBase := base sandboxWorkDir
  let name := trimPrefix name "./".toList
  if name = wsBase ∨ name = wsBase ++ ['/'] then []
  else
    let rest := trimPrefix name (wsBase ++ ['/'])
    if rest ≠ name then Posix.clean rest else Posix.clean name

inductive ReadError where
  | next
  | read (rel : List Char)
  deriving DecidableEq, Repr

/-- `eof` says that the archive ends, and not with an error. -/
def readArtifacts (exclude : List (List Char)) (eof : Bool) :
    List TarEntry → List Worker.CapturedArtifact × Option ReadError
  | [] => ([], if eof then none else some .next)
  | hdr :: tar =>
    if hdr.typeflag ≠ '0' then readArtifacts exclude eof tar
    else
      let rel := stripWorkspacePrefix hdr.name
      if skips exclude rel then readArtifacts exclude eof tar
      else
        match hdr.data with
        | none => ([], some (.read rel))
        | some data =>
          let (artifacts, err) := readArtifacts exclude eof tar
          (capturedArtifact typeByExtension rel data :: artifacts, err)

end Docker

/-- `raw` are the frames that have arrived, by name and content. -/
def Zygote.readArtifacts (exclude : List (List Char)) (raw : List (List Char × List UInt8)) :
    List Worker.CapturedArtifact :=
  raw.filterMap fun a =>
    let rel := Posix.clean a.1
    if skips exclude rel then none else some (capturedArtifact typeByExtension rel a.2)

/-- A regular file is one inode under any number of names. -/
inductive Node where
  | regular (inode : ℕ) (data : List UInt8)
  | dir
  | symlink
  | special
  deriving DecidableEq, Repr

/-- What the job has left in the workspace, in the order of a walk. -/
structure Workspace where
  entries : List (Docker.Path × Node)
  named : ∀ e ∈ entries, e.1 ≠ [] ∧ Posix.Normal e.1
  nodup : (entries.map Prod.fst).Nodup

def Node.data : Node → Option (List UInt8)
  | .regular _ data => some data
  | .dir | .symlink | .special => none

namespace Workspace

/-- The regular files. -/
def files (ws : Workspace) : List (Docker.Path × List UInt8) :=
  ws.entries.filterMap fun e => e.2.data.map fun data => (e.1, data)

def Single (ws : Workspace) (path : Docker.Path) : Prop :=
  ∀ e ∈ ws.entries, ∀ e' ∈ ws.entries, e.1 = path → e'.2 = e.2 → e'.1 = path

end Workspace

/-- The name of a path in the archive, below that of the workspace. -/
def entryName (path : Docker.Path) : List Char := base sandboxWorkDir ++ '/' :: render path

/-- The archive has the content of a file under this path. -/
def HasContent (tar : List Docker.TarEntry) (path : Docker.Path) : Prop :=
  ∃ hdr ∈ tar, hdr.typeflag = '0' ∧ hdr.name = entryName path

instance (tar : List Docker.TarEntry) (path : Docker.Path) : Decidable (HasContent tar path) :=
  inferInstanceAs (Decidable (∃ hdr ∈ tar, _ ∧ _))

/-- What Docker says of the archive of a directory: an entry of a regular file has its path below
the directory and its content, no path comes twice, and the content of each file comes under one
of its names. The other names of a file are entries of a link, as are other nodes of their own
kinds. -/
structure IsArchive (ws : Workspace) (tar : List Docker.TarEntry) : Prop where
  regular : ∀ hdr ∈ tar, hdr.typeflag = '0' →
    ∃ file ∈ ws.files, hdr.name = entryName file.1 ∧ hdr.data = some file.2
  once : ((tar.filter fun hdr => hdr.typeflag = '0').map Docker.TarEntry.name).Nodup
  complete : ∀ e ∈ ws.entries, e.2.data.isSome →
    ∃ e' ∈ ws.entries, e'.2 = e.2 ∧ HasContent tar e'.1

namespace Worker

def IsInput (spec : JobSpec) (path : Docker.Path) : Prop :=
  ∃ f ∈ spec.files, Docker.sanitizeWorkspacePath f.name = .ok path

instance (spec : JobSpec) (path : Docker.Path) : Decidable (IsInput spec path) :=
  inferInstanceAs (Decidable (∃ f ∈ spec.files, _))

/-- What the compile step is taken to produce, if it is in the workspace. -/
def compileOutput (spec : JobSpec) : Option Docker.Path :=
  (compileTarget spec).bind fun target =>
    match resolve true ((join sandboxWorkDir target.toList).splitOn '/') with
    | [] => none
    | dir :: path => if dir = base sandboxWorkDir ∧ path ≠ [] then some path else none

def IsArtifact (spec : JobSpec) (path : Docker.Path) : Prop :=
  ¬IsInput spec path ∧ path ≠ compileRunMarker ∧ compileOutput spec ≠ some path

instance (spec : JobSpec) (path : Docker.Path) : Decidable (IsArtifact spec path) :=
  inferInstanceAs (Decidable (_ ∧ _))

/-- Each of the regular files that are artifacts, once. -/
structure Exact (spec : JobSpec) (ws : Workspace) (artifacts : List CapturedArtifact) : Prop where
  once : (artifacts.map CapturedArtifact.name).Nodup
  mem : ∀ a, a ∈ artifacts ↔ ∃ file ∈ ws.files, IsArtifact spec file.1 ∧
    a = capturedArtifact typeByExtension (render file.1) file.2

/-- The name of the marker, of the compile output, or of an input in the root. -/
def Reserved (spec : JobSpec) (name : List Char) : Prop :=
  name = ".compile_ready".toList ∨ name = compileOutputBasename spec ∨ IsInput spec [name]

instance (spec : JobSpec) (name : List Char) : Decidable (Reserved spec name) :=
  inferInstanceAs (Decidable (_ ∨ _))

/-- No artifact has a reserved name or is missing from what comes, and a compile output that comes
has a reserved name, or is an input. -/
def Distinct (spec : JobSpec) (ws : Workspace) (comes : Docker.Path → Prop) : Prop :=
  ∀ file ∈ ws.files,
    (IsArtifact spec file.1 → comes file.1 ∧ ¬Reserved spec (file.1.getLastD [])) ∧
    (compileOutput spec = some file.1 → comes file.1 →
      IsInput spec file.1 ∨ Reserved spec (file.1.getLastD []))

instance (spec : JobSpec) (ws : Workspace) (comes : Docker.Path → Prop) [DecidablePred comes] :
    Decidable (Distinct spec ws comes) :=
  inferInstanceAs (Decidable (∀ file ∈ ws.files, (_ → _) ∧ (_ → _ → _)))

/-- The frames for a workspace: the agent leaves some of the inputs out. -/
def frames (spec : JobSpec) (ws : Workspace) (excluded : List Docker.Path) :
    List (List Char × List UInt8) :=
  (ws.files.filter fun file => ¬(file.1 ∈ excluded ∧ IsInput spec file.1)).map fun file =>
    (render file.1, file.2)

end Worker

variable {spec : JobSpec} {ws : Workspace} {path : Docker.Path} {s : List Char}
  {typeByExtension : List Char → String}

theorem base_noSlash (path : List Char) : '/' ∉ base path ∨ base path = ['/'] := by
  unfold base
  split
  · exact .inl (by decide)
  · dsimp only
    split
    · exact .inr rfl
    · refine .inl fun hmem => ?_
      simpa using List.mem_rtakeWhile_imp hmem

theorem mem_excludeSet {key : List Char} : key ∈ Worker.buildArtifactExcludeSet spec ↔
    (∃ path, Worker.IsInput spec path ∧ render path = key) ∨ key = ".compile_ready".toList ∨
      key = Worker.compileOutputBasename spec ∧ key ≠ [] := by
  have hinput : key ∈ spec.files.filterMap (fun f =>
      (Docker.sanitizeWorkspacePath f.name).toOption.map render) ↔
        ∃ path, Worker.IsInput spec path ∧ render path = key := by
    rw [List.mem_filterMap]
    constructor
    · rintro ⟨f, hf, hkey⟩
      obtain ⟨path, hpath, hrender⟩ := Option.map_eq_some_iff.mp hkey
      cases hs : Docker.sanitizeWorkspacePath f.name with
      | error err =>
        rw [hs] at hpath
        cases hpath
      | ok path' =>
        rw [hs] at hpath
        obtain rfl := Option.some.inj hpath
        exact ⟨path', ⟨f, hf, hs⟩, hrender⟩
    · rintro ⟨path, ⟨f, hf, hs⟩, hrender⟩
      exact ⟨f, hf, by rw [hs, ← hrender]; rfl⟩
  have hout : key ∈ (if Worker.compileOutputBasename spec = [] then []
      else [Worker.compileOutputBasename spec]) ↔
        key = Worker.compileOutputBasename spec ∧ key ≠ [] := by
    split
    · next hnil => simp [hnil]
    · next hne =>
      rw [List.mem_singleton]
      exact ⟨fun hkey => ⟨hkey, hkey ▸ hne⟩, And.left⟩
  rw [Worker.buildArtifactExcludeSet, List.mem_append, List.mem_cons, hinput, hout]

theorem compileOutputBasename_noSlash (spec : JobSpec) :
    '/' ∉ Worker.compileOutputBasename spec ∨ Worker.compileOutputBasename spec = ['/'] := by
  unfold Worker.compileOutputBasename
  cases Worker.compileTarget spec with
  | none => exact .inl List.not_mem_nil
  | some target => exact base_noSlash target.toList

theorem eq_of_render (h : '/' ∉ render (path ++ [s])) : path = [] := by
  by_contra hne
  rw [render_append hne (by simp)] at h
  exact h (List.mem_append_right _ List.mem_cons_self)

theorem Worker.IsInput.normal (h : Worker.IsInput spec path) : Posix.Normal path ∧ path ≠ [] := by
  obtain ⟨f, -, hs⟩ := h
  exact ⟨Zygote.normal_of_sanitize hs, (Docker.plain_of_sanitize hs).2⟩

theorem skips_iff (h : Posix.Normal (path ++ [s])) :
    skips (Worker.buildArtifactExcludeSet spec) (render (path ++ [s])) = true ↔
      Worker.IsInput spec (path ++ [s]) ∨ Worker.Reserved spec s := by
  have hne : path ++ [s] ≠ [] := by simp
  have hs : IsName s := h s (by simp)
  have hbase : base (render (path ++ [s])) = s :=
    base_render (fun t ht => h t (List.mem_append_left _ ht)) hs
  have hmarker : base (render Worker.compileRunMarker) = ".compile_ready".toList := by decide
  have hsingle : ∀ key, '/' ∉ key → render (path ++ [s]) = key → s = key := by
    rintro key hkey rfl
    rw [eq_of_render hkey, List.nil_append, render_singleton]
  have hkeys : ∀ key, (key = render (path ++ [s]) ∨ key = s) → ∀ path', Worker.IsInput spec path' →
      render path' = key → path' = path ++ [s] ∨ path' = [s] := by
    intro key hkey path' hinput hrender
    obtain ⟨hnormal, hne'⟩ := hinput.normal
    rcases hkey with rfl | rfl
    · exact .inl (render_inj hnormal h hne' hne hrender)
    · refine .inr (render_inj hnormal (List.forall_mem_singleton.mpr hs) hne' (by simp) ?_)
      rw [hrender, render_singleton]
  have hkey : ∀ key, (key = render (path ++ [s]) ∨ key = s) →
      key ∈ Worker.buildArtifactExcludeSet spec →
        Worker.IsInput spec (path ++ [s]) ∨ Worker.Reserved spec s := by
    intro key hkey hmem
    have hown : '/' ∉ key → key = s := fun hslash => by
      rcases hkey with rfl | rfl
      · exact (hsingle _ hslash rfl).symm
      · rfl
    rcases mem_excludeSet.mp hmem with ⟨path', hinput, hrender⟩ | hmark | ⟨hout, hnil⟩
    · rcases hkeys key hkey path' hinput hrender with rfl | rfl
      · exact .inl hinput
      · exact .inr (.inr (.inr hinput))
    · exact .inr (.inl (hown (by rw [hmark]; decide) ▸ hmark))
    · rcases compileOutputBasename_noSlash spec with hslash | hroot
      · exact .inr (.inr (.inl (hown (hout ▸ hslash) ▸ hout)))
      · rw [hroot] at hout
        rcases hkey with rfl | rfl
        · exact absurd (by rw [hout]; rfl) (head?_render h)
        · exact absurd (by rw [hout]; decide) hs.2
  simp only [skips, hbase, hmarker, Bool.or_eq_true, decide_eq_true_eq, List.contains_iff_mem]
  constructor
  · rintro ((((hnil | hdot) | hmark) | hrel) | hbase)
    · exact absurd hnil (render_ne_nil h hne)
    · exact absurd (hsingle ['.'] (by decide) hdot) hs.ne_dot
    · exact .inr (.inl hmark)
    · exact hkey _ (.inl rfl) hrel
    · exact hkey _ (.inr rfl) hbase
  · rintro (hinput | hmark | hout | hinput)
    · exact .inl (.inr (mem_excludeSet.mpr (.inl ⟨_, hinput, rfl⟩)))
    · exact .inl (.inl (.inr hmark))
    · exact .inr (mem_excludeSet.mpr (.inr (.inr ⟨hout, hs.ne_nil⟩)))
    · exact .inr (mem_excludeSet.mpr (.inl ⟨_, hinput, render_singleton⟩))

theorem strip_entryName (h : Posix.Normal path) (hne : path ≠ []) :
    Docker.stripWorkspacePrefix (entryName path) = render path := by
  have hbase : base sandboxWorkDir = "workspace".toList := by decide
  have hnil := render_ne_nil h hne
  have hdot : Docker.trimPrefix ("workspace".toList ++ '/' :: render path) "./".toList =
      "workspace".toList ++ '/' :: render path := rfl
  have htrim : Docker.trimPrefix ("workspace".toList ++ '/' :: render path)
      ("workspace".toList ++ ['/']) = render path := by
    simp [Docker.trimPrefix, List.isPrefixOf]
  have hroot : ¬("workspace".toList ++ '/' :: render path = "workspace".toList ∨
      "workspace".toList ++ '/' :: render path = "workspace".toList ++ ['/']) := by
    simp [hnil]
  have hlonger : render path ≠ "workspace".toList ++ '/' :: render path := by
    intro heq
    have hlength := congrArg List.length heq
    simp only [List.length_append, List.length_cons] at hlength
    omega
  simp only [Docker.stripWorkspacePrefix, entryName, hbase, hdot, if_neg hroot, htrim]
  rw [if_pos hlonger, clean_render h hne]

variable (typeByExtension) in
def kept (exclude : List (List Char)) (files : List (Docker.Path × List UInt8)) :
    List Worker.CapturedArtifact :=
  (files.filter fun file => !skips exclude (render file.1)).map fun file =>
    capturedArtifact typeByExtension (render file.1) file.2

theorem mem_files {ws : Workspace} {file : Docker.Path × List UInt8} (h : file ∈ ws.files) :
    file.1 ≠ [] ∧ Posix.Normal file.1 := by
  obtain ⟨e, he, hfile⟩ := List.mem_filterMap.mp h
  obtain ⟨data, -, rfl⟩ := Option.map_eq_some_iff.mp hfile
  exact ws.named e he

theorem skips_path (h : Posix.Normal path) (hne : path ≠ []) :
    skips (Worker.buildArtifactExcludeSet spec) (render path) = true ↔
      Worker.IsInput spec path ∨ Worker.Reserved spec (path.getLastD []) := by
  obtain ⟨init, s, rfl⟩ := (List.eq_nil_or_concat' path).resolve_left hne
  rw [skips_iff h, List.getLastD_concat]

theorem files_paths (ws : Workspace) :
    List.Sublist (ws.files.map Prod.fst) (ws.entries.map Prod.fst) := by
  rw [Workspace.files]
  induction ws.entries with
  | nil => exact .slnil
  | cons e entries ih =>
    cases hdata : e.2.data with
    | none =>
      rw [List.filterMap_cons, hdata]
      exact .cons _ ih
    | some data =>
      rw [List.filterMap_cons, hdata]
      exact .cons_cons _ ih

theorem files_inj {ws : Workspace} {file file' : Docker.Path × List UInt8} (h : file ∈ ws.files)
    (h' : file' ∈ ws.files) (hpath : file.1 = file'.1) : file = file' := by
  have hnodup : (ws.files.map Prod.fst).Nodup := (files_paths ws).nodup ws.nodup
  exact List.inj_on_of_nodup_map hnodup h h' hpath

theorem readArtifacts_frames (spec : JobSpec) (ws : Workspace) (excluded : List Docker.Path) :
    Zygote.readArtifacts typeByExtension (Worker.buildArtifactExcludeSet spec)
        (Worker.frames spec ws excluded) =
      kept typeByExtension (Worker.buildArtifactExcludeSet spec) ws.files := by
  have hall : ∀ file ∈ ws.files, file.1 ≠ [] ∧ Posix.Normal file.1 := fun file => mem_files
  unfold Worker.frames
  generalize ws.files = files at hall ⊢
  induction files with
  | nil => rfl
  | cons file files ih =>
    obtain ⟨⟨hne, hnormal⟩, hrest⟩ := List.forall_mem_cons.mp hall
    have hih := ih hrest
    rw [List.filter_cons, kept, List.filter_cons]
    by_cases hskip : skips (Worker.buildArtifactExcludeSet spec) (render file.1) = true
    · rw [hskip]
      split
      · rw [List.map_cons, Zygote.readArtifacts, List.filterMap_cons]
        simp only [clean_render hnormal hne, hskip, if_true]
        exact hih
      · exact hih
    · have hinput : ¬Worker.IsInput spec file.1 := fun hinput =>
        hskip ((skips_path hnormal hne).mpr (.inl hinput))
      rw [if_pos (by simp [hinput]), List.map_cons, Zygote.readArtifacts, List.filterMap_cons]
      simp only [clean_render hnormal hne, hskip, Bool.false_eq_true, if_false, Bool.not_false,
        if_true, List.map_cons]
      exact congrArg _ hih

theorem entryName_inj {path' : Docker.Path} (h : Posix.Normal path) (h' : Posix.Normal path')
    (hne : path ≠ []) (hne' : path' ≠ []) (heq : entryName path = entryName path') :
    path = path' := by
  have hrender : '/' :: render path = '/' :: render path' := List.append_cancel_left heq
  exact render_inj h h' hne hne' (List.cons.inj hrender).2

theorem readArtifacts_archive {tar : List Docker.TarEntry} (exclude : List (List Char))
    (h : ∀ hdr ∈ tar, hdr.typeflag = '0' →
      ∃ file ∈ ws.files, hdr.name = entryName file.1 ∧ hdr.data = some file.2) :
    ∃ files, (∀ file ∈ files, file ∈ ws.files) ∧
      files.map (fun file => entryName file.1) =
        (tar.filter fun hdr => hdr.typeflag = '0').map Docker.TarEntry.name ∧
      Docker.readArtifacts typeByExtension exclude true tar =
        (kept typeByExtension exclude files, none) := by
  induction tar with
  | nil => exact ⟨[], nofun, rfl, rfl⟩
  | cons hdr tar ih =>
    obtain ⟨hhead, hrest⟩ := List.forall_mem_cons.mp h
    obtain ⟨files, hmem, hnames, hread⟩ := ih hrest
    by_cases hreg : hdr.typeflag = '0'
    · obtain ⟨file, hfile, hname, hdata⟩ := hhead hreg
      obtain ⟨hne, hnormal⟩ := mem_files hfile
      refine ⟨file :: files, List.forall_mem_cons.mpr ⟨hfile, hmem⟩, ?_, ?_⟩
      · rw [List.map_cons, hnames, List.filter_cons, if_pos (decide_eq_true hreg), List.map_cons,
          hname]
      · rw [Docker.readArtifacts, if_neg (not_not_intro hreg), hname, strip_entryName hnormal hne]
        simp only [hdata, hread, kept, List.filter_cons]
        cases skips exclude (render file.1) <;> rfl
    · refine ⟨files, hmem, ?_, ?_⟩
      · rw [hnames, List.filter_cons, if_neg (by simpa using hreg)]
      · rw [Docker.readArtifacts, if_pos hreg, hread]

/-- A tier that comes by some of the files is exact when it keeps what are artifacts. -/
theorem exact_kept_iff (exclude : List (List Char)) {files : List (Docker.Path × List UInt8)}
    (hfiles : ∀ file ∈ files, file ∈ ws.files) (hnodup : (files.map Prod.fst).Nodup) :
    Worker.Exact typeByExtension spec ws (kept typeByExtension exclude files) ↔
      ∀ file ∈ ws.files, Worker.IsArtifact spec file.1 ↔
        file ∈ files ∧ ¬skips exclude (render file.1) = true := by
  have hname : ∀ file ∈ ws.files, ∀ file' ∈ ws.files,
      capturedArtifact typeByExtension (render file.1) file.2 =
        capturedArtifact typeByExtension (render file'.1) file'.2 → file = file' := by
    intro file hfile file' hfile' heq
    obtain ⟨hne, hnormal⟩ := mem_files hfile
    obtain ⟨hne', hnormal'⟩ := mem_files hfile'
    have hrel := congrArg Worker.CapturedArtifact.name heq
    have hpath := render_inj hnormal hnormal' hne hne' (String.ofList_injective hrel)
    exact Prod.ext hpath (congrArg Worker.CapturedArtifact.data heq)
  have hmem : ∀ a, a ∈ kept typeByExtension exclude files ↔ ∃ file ∈ files,
      ¬skips exclude (render file.1) = true ∧
        a = capturedArtifact typeByExtension (render file.1) file.2 := by
    intro a
    rw [kept, List.mem_map]
    constructor
    · rintro ⟨file, hfile, rfl⟩
      obtain ⟨hfile, hkeep⟩ := List.mem_filter.mp hfile
      exact ⟨file, hfile, by simpa using hkeep, rfl⟩
    · rintro ⟨file, hfile, hkeep, rfl⟩
      exact ⟨file, List.mem_filter.mpr ⟨hfile, by simpa using hkeep⟩, rfl⟩
  constructor
  · rintro ⟨-, hexact⟩ file hfile
    have hiff := (hexact (capturedArtifact typeByExtension (render file.1) file.2)).symm.trans
      (hmem _)
    constructor
    · intro hartifact
      obtain ⟨file', hfile', hkeep, heq⟩ := hiff.mp ⟨file, hfile, hartifact, rfl⟩
      obtain rfl := hname file hfile file' (hfiles file' hfile') heq
      exact ⟨hfile', hkeep⟩
    · rintro ⟨hin, hkeep⟩
      obtain ⟨file', hfile', hartifact, heq⟩ := hiff.mpr ⟨file, hin, hkeep, rfl⟩
      rw [hname file hfile file' hfile' heq]
      exact hartifact
  · intro hall
    constructor
    · have hnames : (kept typeByExtension exclude files).map Worker.CapturedArtifact.name =
          ((files.filter fun file => !skips exclude (render file.1)).map Prod.fst).map
            fun path => String.ofList (render path) := by
        simp [kept, capturedArtifact]
      rw [hnames]
      refine List.Nodup.map_on ?_ ((List.filter_sublist.map _).nodup hnodup)
      intro path hpath path' hpath' heq
      obtain ⟨file, hfile, rfl⟩ := List.mem_map.mp hpath
      obtain ⟨file', hfile', rfl⟩ := List.mem_map.mp hpath'
      obtain ⟨hne, hnormal⟩ := mem_files (hfiles file (List.mem_filter.mp hfile).1)
      obtain ⟨hne', hnormal'⟩ := mem_files (hfiles file' (List.mem_filter.mp hfile').1)
      exact render_inj hnormal hnormal' hne hne' (String.ofList_injective heq)
    · intro a
      rw [hmem]
      constructor
      · rintro ⟨file, hfile, hkeep, rfl⟩
        exact ⟨file, hfiles file hfile, (hall file (hfiles file hfile)).mpr ⟨hfile, hkeep⟩, rfl⟩
      · rintro ⟨file, hfile, hartifact, rfl⟩
        obtain ⟨hin, hkeep⟩ := (hall file hfile).mp hartifact
        exact ⟨file, hin, hkeep, rfl⟩

/-- A tier is exact when no artifact is missing or has a reserved name, and no compile output is
kept. -/
theorem exact_kept_iff_distinct {files : List (Docker.Path × List UInt8)}
    {comes : Docker.Path → Prop} (hfiles : ∀ file ∈ files, file ∈ ws.files)
    (hnodup : (files.map Prod.fst).Nodup)
    (hcomes : ∀ file ∈ ws.files, file ∈ files ↔ comes file.1) :
    Worker.Exact typeByExtension spec ws
        (kept typeByExtension (Worker.buildArtifactExcludeSet spec) files) ↔
      Worker.Distinct spec ws comes := by
  rw [exact_kept_iff _ hfiles hnodup]
  refine forall_congr' fun file => forall_congr' fun hfile => ?_
  obtain ⟨hne, hnormal⟩ := mem_files hfile
  have hmarker : file.1 = Worker.compileRunMarker →
      Worker.Reserved spec (file.1.getLastD []) := fun hpath => .inl (by rw [hpath]; rfl)
  rw [skips_path hnormal hne, not_or, hcomes file hfile]
  constructor
  · intro hiff
    refine ⟨fun hartifact => ?_, fun houtput hcome => ?_⟩
    · obtain ⟨hcome, -, hreserved⟩ := hiff.mp hartifact
      exact ⟨hcome, hreserved⟩
    · by_contra hkeep
      exact (hiff.mpr ⟨hcome, not_or.mp hkeep⟩).2.2 houtput
  · rintro ⟨hname, houtput⟩
    constructor
    · exact fun hartifact => ⟨(hname hartifact).1, hartifact.1, (hname hartifact).2⟩
    · rintro ⟨hcome, hinput, hreserved⟩
      refine ⟨hinput, fun hpath => hreserved (hmarker hpath), fun hpath => ?_⟩
      exact (houtput hpath hcome).elim hinput hreserved

theorem hasContent_of_single {tar : List Docker.TarEntry} (h : IsArchive ws tar)
    {file : Docker.Path × List UInt8} (hfile : file ∈ ws.files) (hs : ws.Single file.1) :
    HasContent tar file.1 := by
  obtain ⟨e, he, hentry⟩ := List.mem_filterMap.mp hfile
  obtain ⟨data, hdata, rfl⟩ := Option.map_eq_some_iff.mp hentry
  have hsome : e.2.data.isSome := Option.isSome_of_mem hdata
  obtain ⟨e', he', hsame, hcontent⟩ := h.complete e he hsome
  have hpath : e'.1 = e.1 := hs e he e' he' rfl hsame
  exact hpath ▸ hcontent

theorem docker_exact_iff {tar : List Docker.TarEntry} (htar : IsArchive ws tar) :
    (∃ artifacts, Docker.readArtifacts typeByExtension (Worker.buildArtifactExcludeSet spec) true
        tar = (artifacts, none) ∧ Worker.Exact typeByExtension spec ws artifacts) ↔
      Worker.Distinct spec ws (HasContent tar) := by
  obtain ⟨files, hfiles, hnames, hread⟩ :=
    readArtifacts_archive (Worker.buildArtifactExcludeSet spec) htar.regular
  have hnodup : (files.map Prod.fst).Nodup := by
    have honce := htar.once
    rw [← hnames] at honce
    apply List.Nodup.of_map entryName
    rwa [List.map_map]
  have hcomes : ∀ file ∈ ws.files, file ∈ files ↔ HasContent tar file.1 := by
    intro file hfile
    have hname : HasContent tar file.1 ↔ entryName file.1 ∈
        files.map fun file => entryName file.1 := by
      rw [hnames]
      simp only [HasContent, List.mem_map, List.mem_filter, decide_eq_true_eq, and_assoc]
    rw [hname, List.mem_map]
    constructor
    · exact fun hin => ⟨file, hin, rfl⟩
    · rintro ⟨file', hin, heq⟩
      obtain ⟨hne, hnormal⟩ := mem_files hfile
      obtain ⟨hne', hnormal'⟩ := mem_files (hfiles file' hin)
      have hpath := entryName_inj hnormal' hnormal hne' hne heq
      exact files_inj (hfiles file' hin) hfile hpath ▸ hin
  have hkept : Worker.Exact typeByExtension spec ws
      (kept typeByExtension (Worker.buildArtifactExcludeSet spec) files) ↔
        Worker.Distinct spec ws (HasContent tar) := exact_kept_iff_distinct hfiles hnodup hcomes
  rw [hread, ← hkept]
  constructor
  · rintro ⟨artifacts, heq, hexact⟩
    obtain ⟨rfl, -⟩ := Prod.mk.inj heq
    exact hexact
  · exact fun hexact => ⟨_, rfl, hexact⟩

theorem zygote_exact_iff (excluded : List Docker.Path) :
    Worker.Exact typeByExtension spec ws
        (Zygote.readArtifacts typeByExtension (Worker.buildArtifactExcludeSet spec)
          (Worker.frames spec ws excluded)) ↔
      Worker.Distinct spec ws fun _ => True := by
  rw [readArtifacts_frames]
  exact exact_kept_iff_distinct (fun _ hfile => hfile) ((files_paths ws).nodup ws.nodup)
    fun _ hfile => iff_of_true hfile trivial

theorem resolve_target {target : List Char} (h : IsName (base target)) :
    ∃ comps, resolve true ((join sandboxWorkDir target).splitOn '/') = comps ++ [base target] := by
  obtain ⟨u, k, hsplit⟩ := exists_splitOn_base h
  have hjoin : ∃ u', (join sandboxWorkDir target).splitOn '/' =
      u' ++ base target :: List.replicate k [] := by
    unfold join
    split
    · exact ⟨u, hsplit⟩
    · refine ⟨sandboxWorkDir.splitOn '/' ++ u, ?_⟩
      rw [if_neg (by decide), List.splitOn_append_cons_self, hsplit, List.append_assoc]
  obtain ⟨u', hsegments⟩ := hjoin
  have hslashes : ∀ comps, (List.replicate k []).foldl (push true) comps = comps := by
    intro comps
    rw [foldl_push (by simp)]
    simp
  refine ⟨u'.foldl (push true) [], ?_⟩
  rw [hsegments, resolve, List.foldl_append, List.foldl_cons, push_name h, hslashes]

theorem reserved_of_compileOutput {target : String}
    (htarget : Worker.compileTarget spec = some target) (h : IsName (base target.toList))
    (hpath : Worker.compileOutput spec = some path) :
    Worker.Reserved spec (path.getLastD []) := by
  obtain ⟨comps, hcomps⟩ := resolve_target h
  rw [Worker.compileOutput, htarget, Option.bind_some, hcomps] at hpath
  refine .inr (.inl ?_)
  rw [Worker.compileOutputBasename, htarget, Option.map_some, Option.getD_some]
  cases comps with
  | nil => simp at hpath
  | cons dir comps =>
    dsimp only [List.cons_append] at hpath
    split at hpath
    · obtain rfl := Option.some.inj hpath
      exact List.getLastD_concat
    · cases hpath

/-- A script with one input. -/
def mainSpec : JobSpec :=
  { Worker.script.spec with files := [⟨some "print(1)", "utf8", "main.py", none⟩] }

/-- The script has written a copy of itself into `out`. -/
def copied : Workspace where
  entries :=
    [(["main.py".toList], .regular 1 [112]), (["out".toList], .dir),
      (["out".toList, "main.py".toList], .regular 2 [112])]
  named := by decide
  nodup := by decide

def copiedTar : List Docker.TarEntry :=
  [⟨"workspace/".toList, '5', some []⟩, ⟨"workspace/main.py".toList, '0', some [112]⟩,
    ⟨"workspace/out/".toList, '5', some []⟩, ⟨"workspace/out/main.py".toList, '0', some [112]⟩]

theorem copiedTar_isArchive : IsArchive copied copiedTar where
  regular := by decide
  once := by decide
  complete := by decide

/-- The script has written a plot, and a link to it. -/
def plotted : Workspace where
  entries :=
    [(["latest".toList], .symlink), (["main.py".toList], .regular 1 [112]), (["out".toList], .dir),
      (["out".toList, "plot.png".toList], .regular 2 [137])]
  named := by decide
  nodup := by decide

def plottedTar : List Docker.TarEntry :=
  [⟨"workspace/".toList, '5', some []⟩, ⟨"workspace/latest".toList, '2', some []⟩,
    ⟨"workspace/main.py".toList, '0', some [112]⟩, ⟨"workspace/out/".toList, '5', some []⟩,
    ⟨"workspace/out/plot.png".toList, '0', some [137]⟩]

/-- The script has given its plot a second name, under which the archive has no content. -/
def relinked : Workspace where
  entries :=
    [(["copy.png".toList], .regular 2 [137]), (["main.py".toList], .regular 1 [112]),
      (["plot.png".toList], .regular 2 [137])]
  named := by decide
  nodup := by decide

def relinkedTar : List Docker.TarEntry :=
  [⟨"workspace/".toList, '5', some []⟩, ⟨"workspace/copy.png".toList, '0', some [137]⟩,
    ⟨"workspace/main.py".toList, '0', some [112]⟩, ⟨"workspace/plot.png".toList, '1', some []⟩]

theorem relinked_lost : IsArchive relinked relinkedTar ∧
    ¬ ∃ artifacts, Docker.readArtifacts (fun _ => "") (Worker.buildArtifactExcludeSet mainSpec) true
      relinkedTar = (artifacts, none) ∧
        Worker.Exact (fun _ => "") mainSpec relinked artifacts := by
  have htar : IsArchive relinked relinkedTar := ⟨by decide, by decide, by decide⟩
  refine ⟨htar, ?_⟩
  rw [docker_exact_iff htar]
  decide

end CodeRunner
