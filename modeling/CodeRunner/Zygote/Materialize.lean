import CodeRunner.Api.Files
import CodeRunner.Lib.Posix
import CodeRunner.Zygote.Hello
import Mathlib.Data.List.ReduceOption

/-! # The files of a zygote session

`_materialize_files` in the session: the names of the HELLO are joined to the working directory and
normalized, and what leaves the directory is passed over. Accepted names give the same paths here
as in the API and in the worker.
-/

namespace CodeRunner.Zygote

open Posix

/-- `binascii.a2b_base64`: other characters are passed over, and enough padding ends the text. -/
def a2bBase64 (quadPos leftchar pads : ℕ) : List Char → Option (List UInt8)
  | [] => if quadPos = 0 then some [] else none
  | c :: text =>
    if c = '=' then
      if 2 ≤ quadPos ∧ 4 ≤ quadPos + (pads + 1) then some []
      else a2bBase64 quadPos leftchar (if 2 ≤ quadPos then pads + 1 else pads) text
    else
      match Base64.value c with
      | none => a2bBase64 quadPos leftchar pads text
      | some v =>
        match quadPos with
        | 0 => a2bBase64 1 v 0 text
        | 1 => (a2bBase64 2 (v % 16) 0 text).map (.ofNat (leftchar * 4 + v / 16) :: ·)
        | 2 => (a2bBase64 3 (v % 4) 0 text).map (.ofNat (leftchar * 16 + v / 4) :: ·)
        | _ => (a2bBase64 0 0 0 text).map (.ofNat (leftchar * 64 + v) :: ·)

/-- `base64.b64decode` of a string, which has to be ASCII. -/
def b64decode (text : String) : Option (List UInt8) :=
  if text.toList.all (·.toNat < 128) then a2bBase64 0 0 0 text.toList else none

inductive FileData where
  | text (content : String)
  | raw (content : List UInt8)
  deriving DecidableEq

inductive FsCall where
  | makedirs (dir : List Char)
  | write (dest : List Char) (data : FileData)
  deriving DecidableEq

/-- The file system of the session: whether a call raises, after the calls made before it. -/
abbrev Fs := List FsCall → FsCall → Bool

/-- `_materialize_files` so far: the calls it made, and whether the last of them or a decoding
raised. -/
structure Materialized where
  calls : List FsCall
  inputRel : List (List Char)
  raised : Bool
  deriving DecidableEq

def childWorkdir : List Char := "/tmp/work".toList

def Materialized.call (fs : Fs) (m : Materialized) (c : FsCall) : Materialized :=
  { m with calls := m.calls ++ [c], raised := fs m.calls c }

def writeContent (fs : Fs) (m : Materialized) (dest : List Char) (f : HelloFile) :
    Materialized :=
  let encoding := if f.encoding = "" then "utf8" else f.encoding
  if encoding = "base64" then
    match b64decode f.content with
    | none => { m with raised := true }
    | some raw => m.call fs (.write dest (.raw raw))
  else m.call fs (.write dest (.text f.content))

def materializeFile (fs : Fs) (cwd : List Char) (m : Materialized) (f : HelloFile) :
    Materialized :=
  if m.raised then m
  else if f.name = "" then m
  else
    let root := normpath childWorkdir
    let dest := normpath (join childWorkdir f.name.toList)
    if dest = root ∨ root ++ ['/'] <+: dest then
      let m := m.call fs (.makedirs (dirname dest))
      if m.raised then m
      else writeContent fs { m with inputRel := m.inputRel.insert (relpath cwd dest root) } dest f
    else m

def materializeFiles (fs : Fs) (cwd : List Char) (files : List HelloFile) : Materialized :=
  files.foldl (materializeFile fs cwd)
    (Materialized.call fs ⟨[], [], false⟩ (.makedirs childWorkdir))

def workdir : List (List Char) := ["tmp".toList, "work".toList]

def workPath (path : Docker.Path) : List Char := '/' :: render (workdir ++ path)

theorem normal_workdir : Posix.Normal workdir := by
  unfold Posix.Normal IsName
  decide

theorem childWorkdir_eq : childWorkdir = '/' :: render workdir := by decide

theorem normpath_childWorkdir : normpath childWorkdir = childWorkdir := by
  rw [childWorkdir_eq, normpath_render normal_workdir]

/-- The working directory or something below it, by names only. -/
def Inside (dest : List Char) : Prop := ∃ q, Posix.Normal q ∧ dest = workPath q

/-- Where the loop writes a file of this name, unless the name leaves the directory. -/
def target (name : String) : Option (List Char) :=
  let dest := normpath (join childWorkdir name.toList)
  if name ≠ "" ∧ (dest = childWorkdir ∨ childWorkdir ++ ['/'] <+: dest) then some dest else none

/-- What the loop writes for a file, unless its content cannot be decoded. -/
def fileData (f : HelloFile) : Option FileData :=
  if f.encoding = "base64" then (b64decode f.content).map .raw else some (.text f.content)

variable {fs : Fs} {cwd dest : List Char} {m : Materialized} {f : HelloFile}
  {name : String} {path : Docker.Path}

theorem inside_of_target (h : target name = some dest) : Inside dest := by
  obtain ⟨⟨-, hdest⟩, h⟩ := Option.ite_none_right_eq_some.mp h
  obtain rfl := Option.some.inj h
  rcases hdest with hroot | hbelow
  · exact ⟨[], nofun, by rw [hroot, childWorkdir_eq, workPath, List.append_nil]⟩
  · have habsolute : (join childWorkdir name.toList).head? = some '/' := by
      unfold join
      split
      · assumption
      · split <;> rfl
    rw [childWorkdir_eq] at hbelow habsolute
    obtain ⟨q, hq, hpath⟩ := normal_of_prefix habsolute normal_workdir (by decide) hbelow
    exact ⟨q, hq, by rw [childWorkdir_eq]; exact hpath⟩

/-- What the loop does for a file: nothing, or a directory is made and then the file is written.
No call stands for a content that cannot be decoded. -/
def fileSteps (f : HelloFile) : List (Option FsCall) :=
  match target f.name with
  | none => []
  | some dest => [some (.makedirs (dirname dest)), (fileData f).map (.write dest)]

/-- What `_materialize_files` does, one step after another until one raises. -/
def plan (files : List HelloFile) : List (Option FsCall) :=
  some (.makedirs childWorkdir) :: files.flatMap fileSteps

def goes (fs : Fs) : List FsCall → List (Option FsCall) → Bool
  | _, [] => true
  | _, none :: _ => false
  | calls, some c :: steps => !fs calls c && goes fs (calls ++ [c]) steps

/-- The calls that the steps add, and whether one of the steps raises. -/
def attempt (fs : Fs) : List FsCall → List (Option FsCall) → List FsCall × Bool
  | calls, [] => (calls, false)
  | calls, none :: _ => (calls, true)
  | calls, some c :: steps =>
    if fs calls c then (calls ++ [c], true) else attempt fs (calls ++ [c]) steps

theorem attempt_append (fs : Fs) (calls : List FsCall) (steps rest : List (Option FsCall)) :
    attempt fs calls (steps ++ rest) =
      if (attempt fs calls steps).2 then attempt fs calls steps
      else attempt fs (attempt fs calls steps).1 rest := by
  induction steps generalizing calls with
  | nil => rfl
  | cons s steps ih =>
    cases s with
    | none => rfl
    | some c =>
      rw [List.cons_append, attempt, attempt]
      by_cases hc : fs calls c = true
      · rw [if_pos hc, if_pos hc, if_pos rfl]
      · rw [if_neg hc, if_neg hc]
        exact ih _

theorem attempt_calls (fs : Fs) (calls : List FsCall) (steps : List (Option FsCall)) :
    ∃ done, (attempt fs calls steps).1 = calls ++ done ∧ done.map some <+: steps := by
  induction steps generalizing calls with
  | nil => exact ⟨[], (List.append_nil _).symm, List.nil_prefix⟩
  | cons s steps ih =>
    cases s with
    | none => exact ⟨[], (List.append_nil _).symm, List.nil_prefix⟩
    | some c =>
      rw [attempt]
      split
      · exact ⟨[c], rfl, List.cons_prefix_cons.mpr ⟨rfl, List.nil_prefix⟩⟩
      · obtain ⟨done, hcalls, hdone⟩ := ih (calls ++ [c])
        refine ⟨c :: done, ?_, List.cons_prefix_cons.mpr ⟨rfl, hdone⟩⟩
        rw [hcalls, List.append_assoc, List.singleton_append]

theorem attempt_of_goes {calls : List FsCall} {steps rest : List (Option FsCall)}
    (h : goes fs calls steps = true) :
    attempt fs calls (steps ++ rest) = attempt fs (calls ++ steps.reduceOption) rest := by
  induction steps generalizing calls with
  | nil => rw [List.reduceOption_nil, List.append_nil, List.nil_append]
  | cons s steps ih =>
    cases s with
    | none => cases h
    | some c =>
      rw [goes, Bool.and_eq_true, Bool.not_eq_true'] at h
      rw [List.cons_append, attempt, if_neg (Bool.eq_false_iff.mp h.1), ih h.2,
        List.reduceOption_cons_of_some, List.append_assoc, List.singleton_append]

theorem attempt_raised (fs : Fs) (calls : List FsCall) (steps : List (Option FsCall)) :
    (attempt fs calls steps).2 = false ↔ goes fs calls steps = true := by
  induction steps generalizing calls with
  | nil => exact iff_of_true rfl rfl
  | cons s steps ih =>
    cases s with
    | none => exact iff_of_false nofun nofun
    | some c =>
      rw [attempt, goes, Bool.and_eq_true, Bool.not_eq_true']
      by_cases hc : fs calls c = true
      · rw [if_pos hc, hc]
        exact iff_of_false nofun fun h => absurd h.1 nofun
      · rw [if_neg hc, ih]
        exact (and_iff_right (Bool.eq_false_of_not_eq_true hc)).symm

theorem materializeFile_raised (h : m.raised = true) : materializeFile fs cwd m f = m :=
  if_pos h

theorem materializeFile_skip (h : target f.name = none) : materializeFile fs cwd m f = m := by
  simp only [target, ite_eq_right_iff, reduceCtorEq, imp_false, not_and] at h
  simp only [materializeFile, normpath_childWorkdir]
  split
  · rfl
  · split
    · rfl
    · next hname => rw [if_neg (h hname)]

theorem writeContent_eq (m : Materialized) (dest : List Char) (f : HelloFile) :
    writeContent fs m dest f =
      match fileData f with
      | none => { m with raised := true }
      | some data => m.call fs (.write dest data) := by
  unfold writeContent fileData
  by_cases hbase64 : f.encoding = "base64"
  · have hencoding : (if f.encoding = "" then "utf8" else f.encoding) = "base64" := by
      rw [hbase64]
      rfl
    simp only [hbase64, if_true]
    cases b64decode f.content <;> rfl
  · have hencoding : (if f.encoding = "" then "utf8" else f.encoding) ≠ "base64" := by
      split
      · decide
      · exact hbase64
    simp only [hencoding, hbase64, if_false]

theorem materializeFile_target (hm : m.raised = false) (h : target f.name = some dest) :
    materializeFile fs cwd m f =
      let m := m.call fs (.makedirs (dirname dest))
      if m.raised then m
      else writeContent fs { m with inputRel := m.inputRel.insert (relpath cwd dest childWorkdir) }
        dest f := by
  obtain ⟨⟨hname, hdest⟩, h⟩ := Option.ite_none_right_eq_some.mp h
  obtain rfl := Option.some.inj h
  simp only [materializeFile, normpath_childWorkdir, hm, hname, Bool.false_eq_true, if_false]
  rw [if_pos hdest]

theorem materializeFile_steps (fs : Fs) (cwd : List Char) (hm : m.raised = false)
    (f : HelloFile) :
    ((materializeFile fs cwd m f).calls, (materializeFile fs cwd m f).raised) =
      attempt fs m.calls (fileSteps f) := by
  unfold fileSteps
  cases htarget : target f.name with
  | none =>
    rw [materializeFile_skip htarget, hm]
    rfl
  | some dest =>
    rw [materializeFile_target hm htarget]
    simp only [Materialized.call, writeContent_eq, attempt]
    by_cases hdir : fs m.calls (.makedirs (dirname dest)) = true
    · rw [if_pos hdir, if_pos hdir, hdir]
    · rw [if_neg hdir, if_neg hdir]
      cases fileData f with
      | none => rfl
      | some data =>
        simp only [Option.map_some, attempt]
        split
        · next hwrite => rw [hwrite]
        · next hwrite => rw [Bool.eq_false_of_not_eq_true hwrite]

theorem foldl_steps (fs : Fs) (cwd : List Char) (files : List HelloFile) (m : Materialized)
    (hm : m.raised = false) :
    ((files.foldl (materializeFile fs cwd) m).calls,
        (files.foldl (materializeFile fs cwd) m).raised) =
      attempt fs m.calls (files.flatMap fileSteps) := by
  induction files generalizing m with
  | nil => exact Prod.ext rfl hm
  | cons f files ih =>
    have hfile := materializeFile_steps fs cwd hm f
    rw [List.foldl_cons, List.flatMap_cons, attempt_append, ← hfile]
    split
    · next hraised =>
      -- an exception leaves the loop
      have hstuck : files.foldl (materializeFile fs cwd) (materializeFile fs cwd m f) =
          materializeFile fs cwd m f := by
        refine List.foldlRecOn files _ (motive := fun m' => m' = materializeFile fs cwd m f) rfl ?_
        rintro _ rfl f' -
        exact materializeFile_raised hraised
      rw [hstuck]
    · next hraised => exact ih _ (Bool.eq_false_of_not_eq_true hraised)

theorem materializeFiles_eq (fs : Fs) (cwd : List Char) (files : List HelloFile) :
    ((materializeFiles fs cwd files).calls, (materializeFiles fs cwd files).raised) =
      attempt fs [] (plan files) := by
  rw [plan, attempt, materializeFiles]
  by_cases hroot : fs [] (.makedirs childWorkdir) = true
  · have hstuck : files.foldl (materializeFile fs cwd)
        (Materialized.call fs ⟨[], [], false⟩ (.makedirs childWorkdir)) =
          Materialized.call fs ⟨[], [], false⟩ (.makedirs childWorkdir) := by
      refine List.foldlRecOn files _ (motive := fun m' => m' = _) rfl ?_
      rintro _ rfl f -
      exact materializeFile_raised hroot
    rw [hstuck, if_pos hroot, Materialized.call, hroot]
  · rw [if_neg hroot]
    exact foldl_steps fs cwd files _ (Bool.eq_false_of_not_eq_true hroot)

/-- Directories are made for what the loop writes. -/
def FsCall.Inside : FsCall → Prop
  | .makedirs dir => dir = "/tmp".toList ∨ Zygote.Inside dir
  | .write dest _ => Zygote.Inside dest

theorem inside_dirname (h : Inside dest) : (FsCall.makedirs (dirname dest)).Inside := by
  obtain ⟨q, hq, rfl⟩ := h
  rcases List.eq_nil_or_concat' q with rfl | ⟨init, s, rfl⟩
  · exact .inl (by decide)
  · have hinit : Posix.Normal init := fun t ht => hq t (List.mem_append_left _ ht)
    refine .inr ⟨init, hinit, ?_⟩
    rw [workPath, ← List.append_assoc,
      dirname_render (normal_workdir.append hinit) (hq s (by simp)), workPath]

theorem fileSteps_inside {c : FsCall} (h : some c ∈ fileSteps f) : c.Inside := by
  unfold fileSteps at h
  cases htarget : target f.name with
  | none =>
    rw [htarget] at h
    cases h
  | some dest =>
    have hdest := inside_of_target htarget
    rw [htarget] at h
    simp only [List.mem_cons, List.not_mem_nil, or_false, Option.some.injEq] at h
    rcases h with rfl | hwrite
    · exact inside_dirname hdest
    · obtain ⟨data, -, rfl⟩ := Option.map_eq_some_iff.mp hwrite.symm
      exact hdest

theorem plan_inside {files : List HelloFile} {c : FsCall} (h : some c ∈ plan files) :
    c.Inside := by
  rw [plan, List.mem_cons, List.mem_flatMap] at h
  rcases h with hroot | ⟨f, -, hf⟩
  · cases hroot
    exact .inr ⟨[], nofun, childWorkdir_eq⟩
  · exact fileSteps_inside hf

/-- The calls are a part of the plan, each step up to the first that raises is made, and the loop
ends without an exception exactly if none raises. -/
structure Follows (fs : Fs) (files : List HelloFile) (m : Materialized) : Prop where
  calls : m.calls.map some <+: plan files
  made : ∀ steps, steps <+: plan files → goes fs [] steps = true →
    steps.reduceOption <+: m.calls
  raised : m.raised = false ↔ goes fs [] (plan files) = true

theorem materializeFiles_follows (fs : Fs) (cwd : List Char) (files : List HelloFile) :
    Follows fs files (materializeFiles fs cwd files) := by
  have heq := materializeFiles_eq fs cwd files
  have hcalls : (materializeFiles fs cwd files).calls = (attempt fs [] (plan files)).1 :=
    congrArg Prod.fst heq
  have hraised : (materializeFiles fs cwd files).raised = (attempt fs [] (plan files)).2 :=
    congrArg Prod.snd heq
  constructor
  · obtain ⟨done, hdone, hprefix⟩ := attempt_calls fs [] (plan files)
    rw [hcalls, hdone, List.nil_append]
    exact hprefix
  · rintro steps ⟨rest, hrest⟩ hgoes
    obtain ⟨done, hdone, -⟩ := attempt_calls fs ([] ++ steps.reduceOption) rest
    rw [hcalls, ← hrest, attempt_of_goes hgoes, hdone, List.nil_append]
    exact List.prefix_append _ _
  · rw [hraised]
    exact attempt_raised fs [] (plan files)

theorem materializeFiles_inside (fs : Fs) (cwd : List Char) (files : List HelloFile) :
    ∀ c ∈ (materializeFiles fs cwd files).calls, c.Inside := fun _ hc =>
  plan_inside ((materializeFiles_follows fs cwd files).calls.mem (List.mem_map_of_mem hc))

theorem sanitize_spec (h : Docker.sanitizeWorkspacePath name = .ok path) :
    name.toList ≠ [] ∧ name.toList.head? ≠ some '/' ∧ ['.', '.'] ∉ name.toList.splitOn '/' ∧
      path = ((name.toList.splitOn '/').filter fun s => s ≠ [] ∧ s ≠ ['.']) ∧ path ≠ [] := by
  rw [← Api.sanitizeWorkspacePath_eq] at h
  unfold Api.sanitizeWorkspacePath at h
  dsimp only at h
  split at h
  · cases h
  · next hempty =>
    split at h
    · cases h
    · next habsolute =>
      split at h
      · cases h
      · next hup =>
        split at h
        · cases h
        · next hne =>
          cases h
          exact ⟨hempty, habsolute, hup, rfl, hne⟩

theorem normal_of_sanitize (h : Docker.sanitizeWorkspacePath name = .ok path) :
    Posix.Normal path := by
  obtain ⟨-, -, -, hpath, -⟩ := sanitize_spec h
  intro s hs
  refine ⟨(Docker.plain_of_sanitize h).1 s hs, ?_⟩
  rw [hpath] at hs
  exact not_mem_of_mem_splitOn (List.mem_filter.mp hs).1

theorem sanitize_render (h : Posix.Normal path) (hne : path ≠ []) :
    Docker.sanitizeWorkspacePath (String.ofList (render path)) = .ok path := by
  rw [← Api.sanitizeWorkspacePath_eq]
  unfold Api.sanitizeWorkspacePath
  simp only [String.toList_ofList, splitOn_render h hne, if_neg (render_ne_nil h hne),
    if_neg (head?_render h), if_neg h.no_up, h.filter, if_neg hne]

theorem workPath_eq (hne : path ≠ []) : workPath path = childWorkdir ++ '/' :: render path := by
  rw [workPath, render_append (by decide) hne, childWorkdir_eq, List.cons_append]

theorem target_of_sanitize (h : Docker.sanitizeWorkspacePath name = .ok path) :
    target name = some (workPath path) := by
  obtain ⟨hempty, hrel, hup, hpath, hne⟩ := sanitize_spec h
  have hdest : normpath (join childWorkdir name.toList) = workPath path := by
    rw [childWorkdir_eq, normpath_join normal_workdir (by decide) hrel hup, workPath, hpath]
  have hname : name ≠ "" := by
    rintro rfl
    exact hempty rfl
  have hbelow : childWorkdir ++ ['/'] <+: workPath path := by
    rw [workPath_eq hne, List.append_cons]
    exact List.prefix_append _ _
  rw [target, hdest, if_pos ⟨hname, .inr hbelow⟩]

theorem relpath_workPath (h : Posix.Normal path) (hne : path ≠ []) :
    relpath cwd (workPath path) childWorkdir = render path := by
  rw [childWorkdir_eq, workPath, relpath_render normal_workdir h hne]

theorem writeContent_inputRel (m : Materialized) (dest : List Char) (f : HelloFile) :
    (writeContent fs m dest f).inputRel = m.inputRel := by
  rw [writeContent_eq]
  cases fileData f <;> rfl

theorem materializeFile_inputRel (h : (materializeFile fs cwd m f).raised = false)
    (hpath : Docker.sanitizeWorkspacePath f.name = .ok path) :
    m.raised = false ∧
      (materializeFile fs cwd m f).inputRel = m.inputRel.insert (render path) := by
  by_cases hm : m.raised = true
  · rw [materializeFile_raised hm, hm] at h
    cases h
  · have hm := Bool.eq_false_of_not_eq_true hm
    refine ⟨hm, ?_⟩
    rw [materializeFile_target hm (target_of_sanitize hpath),
      relpath_workPath (normal_of_sanitize hpath) (Docker.plain_of_sanitize hpath).2] at h ⊢
    dsimp only at h ⊢
    split
    · next hraised =>
      rw [if_pos hraised, hraised] at h
      cases h
    · rw [writeContent_inputRel]
      rfl

theorem mem_inputRel (fs : Fs) (cwd : List Char) (files : List HelloFile)
    (paths : List Docker.Path)
    (hpaths : List.Forall₂ (fun f path => Docker.sanitizeWorkspacePath f.name = .ok path)
      files paths)
    (h : (materializeFiles fs cwd files).raised = false) (rel : List Char) :
    rel ∈ (materializeFiles fs cwd files).inputRel ↔ rel ∈ paths.map render := by
  have hrun : ∀ m : Materialized, (files.foldl (materializeFile fs cwd) m).raised = false →
      (rel ∈ (files.foldl (materializeFile fs cwd) m).inputRel ↔
        rel ∈ m.inputRel ∨ rel ∈ paths.map render) ∧ m.raised = false := by
    clear h
    induction hpaths with
    | nil => simp
    | cons hpath _ ih =>
      intro m h
      obtain ⟨hmem, hraised⟩ := ih _ h
      obtain ⟨hm, hinsert⟩ := materializeFile_inputRel hraised hpath
      refine ⟨?_, hm⟩
      rw [List.foldl_cons, hmem, hinsert, List.map_cons, List.mem_cons]
      simp only [List.mem_insert_iff]
      tauto
  rw [materializeFiles, (hrun _ h).1]
  simp [Materialized.call]

/-- The API, the worker and the agent agree on every name, the agent makes its calls as far as
none raises, and it stays in the working directory whatever the names are. -/
theorem sanitizers_agree :
    (∀ name, Api.sanitizeWorkspacePath name = Docker.sanitizeWorkspacePath name) ∧
      (∀ name path, Docker.sanitizeWorkspacePath name = .ok path →
        path ≠ [] ∧ Posix.Normal path ∧ (render path).head? ≠ some '/' ∧
          Docker.sanitizeWorkspacePath (String.ofList (render path)) = .ok path) ∧
      (∀ fs cwd files, (∀ c ∈ (materializeFiles fs cwd files).calls, c.Inside) ∧
        Follows fs files (materializeFiles fs cwd files)) ∧
      ∀ (f : HelloFile) path, Docker.sanitizeWorkspacePath f.name = .ok path →
        fileSteps f = [some (.makedirs (dirname (childWorkdir ++ '/' :: render path))),
          (fileData f).map (.write (childWorkdir ++ '/' :: render path))] := by
  refine ⟨Api.sanitizeWorkspacePath_eq, fun name path h => ?_, fun fs cwd files => ?_,
    fun f path h => ?_⟩
  · have hne := (Docker.plain_of_sanitize h).2
    have hnormal := normal_of_sanitize h
    exact ⟨hne, hnormal, head?_render hnormal, sanitize_render hnormal hne⟩
  · exact ⟨materializeFiles_inside fs cwd files, materializeFiles_follows fs cwd files⟩
  · rw [← workPath_eq (Docker.plain_of_sanitize h).2, fileSteps, target_of_sanitize h]

/-- An accepted name, and one that leaves the directory. -/
def twoNames : List HelloFile := [⟨"data//./in.csv", "1", "utf8"⟩, ⟨"../escape", "2", "utf8"⟩]

theorem sanitizers_agree_twoNames :
    Docker.sanitizeWorkspacePath "data//./in.csv" = .ok ["data".toList, "in.csv".toList] ∧
      (materializeFiles (fun _ _ => false) childWorkdir twoNames).raised = false ∧
      [.makedirs childWorkdir, .makedirs "/tmp/work/data".toList,
        .write "/tmp/work/data/in.csv".toList (.text "1")] <+:
          (materializeFiles (fun _ _ => false) childWorkdir twoNames).calls := by
  have h : Docker.sanitizeWorkspacePath "data//./in.csv" =
      .ok ["data".toList, "in.csv".toList] := by decide
  have hsteps := sanitizers_agree.2.2.2 ⟨"data//./in.csv", "1", "utf8"⟩ _ h
  have hskip : fileSteps ⟨"../escape", "2", "utf8"⟩ = [] := by decide
  have hplan : plan twoNames = [some (.makedirs childWorkdir),
      some (.makedirs "/tmp/work/data".toList),
      some (.write "/tmp/work/data/in.csv".toList (.text "1"))] := by
    rw [plan, twoNames, List.flatMap_cons, List.flatMap_cons, hsteps, hskip]
    decide
  obtain ⟨-, hfollows⟩ := sanitizers_agree.2.2.1 (fun _ _ => false) childWorkdir twoNames
  have hgoes : goes (fun _ _ => false) [] (plan twoNames) = true := by
    rw [hplan]
    rfl
  refine ⟨h, hfollows.raised.mpr hgoes, ?_⟩
  have hmade := hfollows.made _ (List.prefix_refl _) hgoes
  rwa [hplan] at hmade

end CodeRunner.Zygote
