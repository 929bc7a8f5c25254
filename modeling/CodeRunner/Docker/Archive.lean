import CodeRunner.Docker.Contents
import CodeRunner.Lib.Posix
import Mathlib.Data.List.Nodup

/-! # The archive of the workspace

`buildFilesTar` on the names as they are written: `SanitizeWorkspacePath` cleans a name, and a
directory is emitted the first time a file lies below it. The archive describes a tree below the
root of the workspace, each directory once and before what it contains.
-/

namespace CodeRunner.Docker.Tar

open Fallible Posix

inductive Typeflag | dir | reg
  deriving DecidableEq, Repr

structure Entry where
  typeflag : Typeflag
  name : List Char
  mode : ℕ
  size : ℕ
  body : List UInt8
  deriving DecidableEq, Repr

def dirEntry (cur : List Char) : Entry := ⟨.dir, cur ++ ['/'], 0o755, 0, []⟩

def fileEntry (rel : List Char) (content : List UInt8) : Entry :=
  ⟨.reg, rel, 0o644, content.length, content⟩

inductive Error where
  | file (err : CopyError)
  /-- `archive/tar` cannot encode the name. -/
  | header (name : List Char)
  deriving DecidableEq, Repr

structure Writer where
  entries : List Entry
  seenDirs : List (List Char)

def Writer.put (tw : Writer) (e : Entry) : Except Error Writer :=
  if '\x00' ∈ e.name then .error (.header e.name)
  else .ok { tw with entries := tw.entries ++ [e] }

def sanitizeWorkspacePath (name : List Char) : Except PathError (List Char) :=
  if name = [] then .error .empty
  else if name.head? = some '/' then .error .absolute
  else if ['.', '.'] ∈ name.splitOn '/' then .error .traversal
  else
    let clean := Posix.clean ('/' :: name)
    let rel := if clean.head? = some '/' then clean.tail else clean
    if rel = [] ∨ rel = ['.'] then .error .outside else .ok rel

def emitDir (tw : Writer) (cur : List Char) : Except Error Writer :=
  if cur ∈ tw.seenDirs then .ok tw
  else { tw with seenDirs := tw.seenDirs ++ [cur] }.put (dirEntry cur)

/-- The loop over the segments, with the directory that the ones before make. -/
def emitSegs (tw : Writer) (cur : List Char) : List (List Char) → Except Error Writer
  | [] => .ok tw
  | s :: segs => do
    let cur := if cur = [] then s else cur ++ '/' :: s
    let tw ← emitDir tw cur
    emitSegs tw cur segs

def emitDirs (tw : Writer) (rel : List Char) : Except Error Writer :=
  let dir := Posix.dir rel
  if dir = ['.'] ∨ dir = ['/'] ∨ dir = [] then .ok tw else emitSegs tw [] (dir.splitOn '/')

def addFile (tw : Writer) (f : FileInput) : Except Error Writer := do
  let rel ← (sanitizeWorkspacePath f.name.toList).mapError fun err => .file (.path err)
  let content ← (decodeFileContent f).mapError .file
  let tw ← emitDirs tw rel
  tw.put (fileEntry rel content)

def addFiles (tw : Writer) : List FileInput → Except Error Writer
  | [] => .ok tw
  | f :: files => do
    let tw ← addFile tw f
    addFiles tw files

def buildFilesTar (files : List FileInput) : Except Error (List Entry) :=
  (addFiles ⟨[], []⟩ files).map Writer.entries

variable {name rel d cur : List Char} {path q : Docker.Path} {segs : List (List Char)}
  {f : FileInput} {files : List FileInput} {tw tw' : Writer} {e : Entry} {entries : List Entry}
  {content : List UInt8}

def names (name : List Char) : List (List Char) :=
  (name.splitOn '/').filter fun s => s ≠ [] ∧ s ≠ ['.']

def Unsafe (name : List Char) : Prop :=
  name.head? = some '/' ∨ ['.', '.'] ∈ name.splitOn '/' ∨ names name = []

theorem normal_names (h : ['.', '.'] ∉ name.splitOn '/') : Normal (names name) := by
  intro s hs
  obtain ⟨hmem, hkeep⟩ := List.mem_filter.mp hs
  obtain ⟨hempty, hdot⟩ := of_decide_eq_true hkeep
  refine ⟨?_, not_mem_of_mem_splitOn hmem⟩
  simp only [List.mem_cons, List.not_mem_nil, or_false, not_or]
  exact ⟨hempty, hdot, fun hup => h (hup ▸ hmem)⟩

theorem names_nil : names [] = [] := by
  rw [names, List.splitOn_nil]
  rfl

theorem sanitize_refuses (h : Unsafe name) : ∃ err, sanitizeWorkspacePath name = .error err := by
  unfold sanitizeWorkspacePath
  split
  · exact ⟨_, rfl⟩
  · split
    · exact ⟨_, rfl⟩
    · next habs =>
      split
      · exact ⟨_, rfl⟩
      · next hup =>
        have hnil : names name = [] := (h.resolve_left habs).resolve_left hup
        have hresolve : resolve true (name.splitOn '/') = names name := by
          rw [resolve, foldl_push hup, List.nil_append, names]
        simp only [clean_cons, hresolve, hnil]
        exact ⟨_, rfl⟩

theorem sanitize_safe (h : ¬ Unsafe name) :
    sanitizeWorkspacePath name = .ok (render (names name)) := by
  obtain ⟨habs, h⟩ := not_or.mp h
  obtain ⟨hup, hne⟩ := not_or.mp h
  have hname : name ≠ [] := by
    rintro rfl
    exact hne names_nil
  have hresolve : resolve true (name.splitOn '/') = names name := by
    rw [resolve, foldl_push hup, List.nil_append, names]
  have hnormal := normal_names hup
  have hdot : render (names name) ≠ ['.'] := by
    intro hdot
    have hsplit := splitOn_render hnormal hne
    rw [hdot] at hsplit
    exact (hnormal ['.'] (by rw [← hsplit]; decide)).ne_dot rfl
  rw [sanitizeWorkspacePath, if_neg hname, if_neg habs, if_neg hup]
  simp only [clean_cons, hresolve, List.head?_cons, if_true, List.tail_cons,
    render_ne_nil hnormal hne, hdot, or_self, if_false]

theorem sanitize_eq_map (name : String) :
    sanitizeWorkspacePath name.toList = (Docker.sanitizeWorkspacePath name).map render := by
  by_cases hbad : Unsafe name.toList
  · unfold sanitizeWorkspacePath Docker.sanitizeWorkspacePath
    split
    · rfl
    · split
      · rfl
      · next habs =>
        dsimp only
        split
        · rfl
        · next hup =>
          have hnil : names name.toList = [] := (hbad.resolve_left habs).resolve_left hup
          have hresolve : resolve true (name.toList.splitOn '/') = names name.toList := by
            rw [resolve, foldl_push hup, List.nil_append, names]
          rw [Docker.clean_eq_filter hup, ← names]
          simp only [clean_cons, hresolve, hnil]
          rfl
  · obtain ⟨habs, hup, hne⟩ : name.toList.head? ≠ some '/' ∧
        ['.', '.'] ∉ name.toList.splitOn '/' ∧ names name.toList ≠ [] := by
      simpa only [Unsafe, not_or] using hbad
    have hname : name.toList ≠ [] := fun hname => hne (by rw [hname, names_nil])
    rw [sanitize_safe hbad, Docker.sanitizeWorkspacePath, if_neg hname, if_neg habs,
      if_neg hup, Docker.clean_eq_filter hup, ← names, if_neg hne]
    rfl

theorem normal_of_sanitize {name : String} (h : Docker.sanitizeWorkspacePath name = .ok path) :
    Normal path ∧ path ≠ [] := by
  obtain ⟨hpath, hne⟩ := Docker.sanitize_ok h
  unfold Docker.sanitizeWorkspacePath at h
  dsimp only at h
  split at h
  · cases h
  · split at h
    · cases h
    · split at h
      · cases h
      · next hup =>
        rw [Docker.clean_eq_filter hup] at hpath
        exact ⟨hpath ▸ normal_names hup, hne⟩

def Rooted (rel : List Char) : Prop := ∃ path, Normal path ∧ path ≠ [] ∧ rel = render path

theorem sanitize_rooted (h : sanitizeWorkspacePath name = .ok rel) : Rooted rel := by
  by_cases hbad : Unsafe name
  · obtain ⟨err, herr⟩ := sanitize_refuses hbad
    rw [herr] at h
    cases h
  · rw [sanitize_safe hbad] at h
    obtain rfl := Except.ok.inj h
    obtain ⟨hup, hne⟩ := not_or.mp (not_or.mp hbad).2
    exact ⟨_, normal_names hup, hne, rfl⟩

def Above (d rel : List Char) : Prop := ∃ rest, rel = d ++ '/' :: rest

instance (d rel : List Char) : Decidable (Above d rel) :=
  decidable_of_iff ((d ++ ['/']).isPrefixOf rel) (by
    rw [List.isPrefixOf_iff_prefix]
    constructor
    · rintro ⟨rest, h⟩
      exact ⟨rest, by rw [← h, List.append_assoc, List.singleton_append]⟩
    · rintro ⟨rest, rfl⟩
      exact ⟨rest, by rw [List.append_assoc, List.singleton_append]⟩)

theorem above_render (h : Normal path) (hne : path ≠ []) :
    Above d (render path) ↔ ∃ q t, q ≠ [] ∧ t ≠ [] ∧ path = q ++ t ∧ d = render q := by
  constructor
  · rintro ⟨rest, hrest⟩
    refine ⟨d.splitOn '/', rest.splitOn '/', List.splitOn_ne_nil _ _, List.splitOn_ne_nil _ _, ?_,
      (List.intercalate_splitOn '/').symm⟩
    rw [← List.splitOn_append_cons_self, ← hrest, splitOn_render h hne]
  · rintro ⟨q, t, hq, ht, rfl, rfl⟩
    exact ⟨render t, render_append hq ht⟩

/-- The directories of `P` that have not been seen are written. -/
structure Emits (P : List Char → Prop) (tw tw' : Writer) : Prop where
  wrote : ∃ new, tw'.entries = tw.entries ++ new.map dirEntry ∧ tw'.seenDirs = tw.seenDirs ++ new ∧
    new.Nodup ∧ ∀ d ∈ new, d ∉ tw.seenDirs ∧ P d
  all : ∀ d, P d → d ∈ tw'.seenDirs

theorem put_ok (h : tw.put e = .ok tw') : tw' = { tw with entries := tw.entries ++ [e] } := by
  unfold Writer.put at h
  split at h <;> cases h
  rfl

theorem put_some (h : '\x00' ∉ e.name) : ∃ tw', tw.put e = .ok tw' := ⟨_, if_neg h⟩

theorem no_nul_of_put (h : tw.put e = .ok tw') : '\x00' ∉ e.name := by
  unfold Writer.put at h
  split at h
  · cases h
  · assumption

theorem Emits.refl : Emits (fun _ => False) tw tw :=
  ⟨⟨[], by simp, by simp, List.nodup_nil, nofun⟩, nofun⟩

theorem Emits.trans {P Q : List Char → Prop} {tw'' : Writer} (h : Emits P tw tw')
    (h' : Emits Q tw' tw'') : Emits (fun d => P d ∨ Q d) tw tw'' := by
  obtain ⟨⟨new, hentries, hseen, hnodup, hnew⟩, hall⟩ := h
  obtain ⟨⟨new', hentries', hseen', hnodup', hnew'⟩, hall'⟩ := h'
  rw [hseen] at hnew'
  constructor
  · refine ⟨new ++ new', ?_, ?_, ?_, fun d hd => ?_⟩
    · rw [hentries', hentries, List.map_append, List.append_assoc]
    · rw [hseen', hseen, List.append_assoc]
    · apply List.Nodup.append hnodup hnodup'
      intro d hd hd'
      exact (hnew' d hd').1 (List.mem_append_right _ hd)
    · rcases List.mem_append.mp hd with hd | hd
      · exact ⟨(hnew d hd).1, .inl (hnew d hd).2⟩
      · exact ⟨fun hmem => (hnew' d hd).1 (List.mem_append_left _ hmem), .inr (hnew' d hd).2⟩
  · rintro d (hd | hd)
    · rw [hseen']
      exact List.mem_append_left _ (hall d hd)
    · exact hall' d hd

theorem Emits.congr {P Q : List Char → Prop} (h : Emits P tw tw') (hPQ : ∀ d, P d ↔ Q d) :
    Emits Q tw tw' := by
  obtain rfl : P = Q := funext fun d => propext (hPQ d)
  exact h

theorem emitDir_emits (h : emitDir tw cur = .ok tw') : Emits (· = cur) tw tw' := by
  unfold emitDir at h
  split at h
  · next hseen =>
    cases h
    exact ⟨⟨[], by simp, by simp, List.nodup_nil, nofun⟩, fun d hd => hd ▸ hseen⟩
  · next hnew =>
    obtain rfl := put_ok h
    refine ⟨⟨[cur], rfl, rfl, List.nodup_singleton cur, ?_⟩, ?_⟩
    · exact List.forall_mem_singleton.mpr ⟨hnew, rfl⟩
    · rintro d rfl
      exact List.mem_append_right _ (List.mem_singleton_self d)

theorem render_push (hq : Normal q) (s : List Char) :
    (if render q = [] then s else render q ++ '/' :: s) = render (q ++ [s]) := by
  by_cases hnil : q = []
  · rw [hnil, List.nil_append, render_singleton]
    exact if_pos rfl
  · rw [if_neg (render_ne_nil hq hnil), render_append hnil (by simp), render_singleton]

theorem emitSegs_emits (hn : Normal (q ++ segs)) (h : emitSegs tw (render q) segs = .ok tw') :
    Emits (fun d => ∃ u t, u ≠ [] ∧ segs = u ++ t ∧ d = render (q ++ u)) tw tw' := by
  induction segs generalizing tw q with
  | nil =>
    obtain rfl := Except.ok.inj h
    apply Emits.refl.congr
    intro d
    refine iff_of_false id ?_
    rintro ⟨u, t, hu, heq, -⟩
    exact hu (List.append_eq_nil_iff.mp heq.symm).1
  | cons s segs ih =>
    have hq : Normal q := fun x hx => hn x (List.mem_append_left _ hx)
    rw [emitSegs, render_push hq] at h
    obtain ⟨tw₁, hdir, h⟩ := bind_ok_iff.mp h
    have hrest := ih (q := q ++ [s]) (by simpa using hn) h
    apply ((emitDir_emits hdir).trans hrest).congr
    intro d
    constructor
    · rintro (rfl | ⟨u, t, hu, rfl, rfl⟩)
      · exact ⟨[s], segs, by simp, rfl, rfl⟩
      · exact ⟨s :: u, t, by simp, rfl, by simp⟩
    · rintro ⟨u, t, hu, heq, rfl⟩
      obtain ⟨v, rfl⟩ : ∃ v, u = s :: v := by
        cases u with
        | nil => exact absurd rfl hu
        | cons x v => exact ⟨v, by rw [List.cons_append, List.cons.injEq] at heq; rw [heq.1]⟩
      by_cases hv : v = []
      · exact .inl (by rw [hv])
      · refine .inr ⟨v, t, hv, ?_, by simp⟩
        rw [List.cons_append, List.cons.injEq] at heq
        exact heq.2

theorem emitDirs_eq {s : List Char} (h : Normal q) (hs : IsName s) :
    emitDirs tw (render (q ++ [s])) = if q = [] then .ok tw else emitSegs tw [] q := by
  rw [emitDirs, dir_render h hs]
  by_cases hnil : q = []
  · rw [if_pos hnil, if_pos (.inl rfl), if_pos hnil]
  · have hsplit := splitOn_render h hnil
    have hdot : ¬(render q = ['.'] ∨ render q = ['/'] ∨ render q = []) := by
      rintro (hdot | hslash | hempty)
      · rw [hdot] at hsplit
        exact (h ['.'] (by rw [← hsplit]; decide)).ne_dot rfl
      · have hhead := head?_render h
        rw [hslash] at hhead
        exact hhead rfl
      · exact render_ne_nil h hnil hempty
    rw [if_neg hnil, if_neg hdot, hsplit, if_neg hnil]

theorem emitDirs_emits (hrel : Rooted rel) (h : emitDirs tw rel = .ok tw') :
    Emits (fun d => Above d rel) tw tw' := by
  obtain ⟨path, hn, hne, rfl⟩ := hrel
  obtain ⟨init, s, rfl⟩ := (List.eq_nil_or_concat' path).resolve_left hne
  have hinit : Normal init := fun x hx => hn x (List.mem_append_left _ hx)
  have hs : IsName s := hn s (List.mem_append_right _ (List.mem_singleton_self s))
  rw [emitDirs_eq hinit hs] at h
  split at h
  · next hnil =>
    obtain rfl := Except.ok.inj h
    apply Emits.refl.congr
    intro d
    refine iff_of_false id fun hd => ?_
    obtain ⟨u, t, hu, ht, heq, -⟩ := (above_render hn hne).mp hd
    have hlen := congrArg List.length heq
    have hu := List.length_pos_of_ne_nil hu
    have ht := List.length_pos_of_ne_nil ht
    rw [hnil, List.length_append, List.length_append] at hlen
    simp only [List.length_nil, List.length_singleton] at hlen
    omega
  · apply (emitSegs_emits (q := []) (by simpa using hinit) h).congr
    intro d
    rw [above_render hn hne]
    constructor
    · rintro ⟨u, t, hu, rfl, rfl⟩
      exact ⟨u, t ++ [s], hu, by simp, by simp, rfl⟩
    · rintro ⟨u, t, hu, ht, heq, rfl⟩
      obtain ⟨t', s', rfl⟩ := (List.eq_nil_or_concat' t).resolve_left ht
      rw [← List.append_assoc] at heq
      exact ⟨u, t', hu, (List.append_inj_left' heq rfl), rfl⟩

def Entry.dir? (e : Entry) : Option (List Char) :=
  match e.typeflag with
  | .dir => some e.name.dropLast
  | .reg => none

/-- What is written describes a tree: each directory once, for a file below it, and before every
file below it. -/
structure Laid (tw : Writer) : Prop where
  seen : tw.entries.filterMap Entry.dir? = tw.seenDirs
  nodup : tw.seenDirs.Nodup
  above : ∀ n rel content, tw.entries[n]? = some (fileEntry rel content) →
    ∀ d, Above d rel → dirEntry d ∈ tw.entries.take n
  kinds : ∀ e ∈ tw.entries, (∃ rel content, e = fileEntry rel content ∧ Rooted rel) ∨
    ∃ d rel content, e = dirEntry d ∧ fileEntry rel content ∈ tw.entries ∧ Rooted rel ∧ Above d rel

@[simp] theorem dir?_dirEntry (d : List Char) : (dirEntry d).dir? = some d := by
  simp [Entry.dir?, dirEntry]

@[simp] theorem dir?_fileEntry (rel : List Char) (content : List UInt8) :
    (fileEntry rel content).dir? = none := rfl

theorem dirEntry_ne_fileEntry (d rel : List Char) (content : List UInt8) :
    dirEntry d ≠ fileEntry rel content := by
  intro h
  cases congrArg Entry.typeflag h

theorem filterMap_dirEntry (new : List (List Char)) :
    (new.map dirEntry).filterMap Entry.dir? = new := by
  rw [List.filterMap_map]
  have hcomp : Entry.dir? ∘ dirEntry = some := funext dir?_dirEntry
  rw [hcomp, List.filterMap_some]

theorem Laid.start : Laid ⟨[], []⟩ where
  seen := rfl
  nodup := List.nodup_nil
  above n rel content h := by cases h
  kinds e h := by cases h

theorem Laid.mem_iff (h : Laid tw) : dirEntry d ∈ tw.entries ↔ d ∈ tw.seenDirs := by
  rw [← h.seen, List.mem_filterMap]
  constructor
  · exact fun hd => ⟨_, hd, dir?_dirEntry d⟩
  · rintro ⟨e, he, hdir⟩
    rcases h.kinds e he with ⟨rel, content, rfl, -⟩ | ⟨d', rel, content, rfl, -⟩
    · cases hdir
    · rw [dir?_dirEntry, Option.some.injEq] at hdir
      exact hdir ▸ he

theorem Laid.addFile (h : Laid tw) (hrel : Rooted rel) {tw₁ : Writer}
    (hdirs : Emits (fun d => Above d rel) tw tw₁)
    (hput : tw₁.put (fileEntry rel content) = .ok tw') : Laid tw' ∧
      ∃ new : List (List Char),
        tw'.entries = tw.entries ++ new.map dirEntry ++ [fileEntry rel content] := by
  obtain ⟨⟨new, hentries, hseen, hnodup, hnew⟩, hall⟩ := hdirs
  obtain rfl := put_ok hput
  rw [hentries]
  refine ⟨⟨?_, ?_, ?_, ?_⟩, new, rfl⟩
  · simp only [List.filterMap_append, h.seen, filterMap_dirEntry, hseen]
    simp
  · dsimp only
    rw [hseen]
    exact h.nodup.append hnodup fun d hd hd' => (hnew d hd').1 hd
  · intro n rel' content' hn d hd
    dsimp only at hn ⊢
    rcases Nat.lt_or_ge n tw.entries.length with hlt | hge
    · rw [List.append_assoc, List.getElem?_append_left hlt] at hn
      rw [List.append_assoc, List.take_append_of_le_length hlt.le]
      exact h.above n rel' content' hn d hd
    · rw [List.append_assoc, List.getElem?_append_right hge] at hn
      -- The entries after the old ones are directories, and the file at the end.
      have hend : n = (tw.entries ++ new.map dirEntry).length ∧ rel' = rel := by
        rcases Nat.lt_or_ge (n - tw.entries.length) (new.map dirEntry).length with hlt | hge'
        · rw [List.getElem?_append_left hlt, List.getElem?_map] at hn
          obtain ⟨d', -, hd'⟩ := Option.map_eq_some_iff.mp hn
          exact absurd hd' (dirEntry_ne_fileEntry d' rel' content')
        · rw [List.getElem?_append_right hge', List.getElem?_singleton] at hn
          split at hn
          · next hzero =>
            refine ⟨?_, ?_⟩
            · rw [List.length_append]
              omega
            · exact (congrArg Entry.name (Option.some.inj hn)).symm
          · cases hn
      obtain ⟨rfl, rfl⟩ := hend
      rw [List.take_left]
      have hmem : d ∈ tw.seenDirs ++ new := hseen ▸ hall d hd
      rcases List.mem_append.mp hmem with hmem | hmem
      · exact List.mem_append_left _ (h.mem_iff.mpr hmem)
      · exact List.mem_append_right _ (List.mem_map_of_mem hmem)
  · intro e he
    have hfile : fileEntry rel content ∈
        tw.entries ++ new.map dirEntry ++ [fileEntry rel content] :=
      List.mem_append_right _ (List.mem_singleton_self _)
    rcases List.mem_append.mp he with he | he
    · rcases List.mem_append.mp he with he | he
      · rcases h.kinds e he with hreg | ⟨d, rel', content', rfl, hmem, hrel', hd⟩
        · exact .inl hreg
        · exact .inr ⟨d, rel', content', rfl,
            List.mem_append_left _ (List.mem_append_left _ hmem), hrel', hd⟩
      · obtain ⟨d, hd, rfl⟩ := List.mem_map.mp he
        exact .inr ⟨d, rel, content, rfl, hfile, hrel, (hnew d hd).2⟩
    · obtain rfl := List.mem_singleton.mp he
      exact .inl ⟨rel, content, rfl, hrel⟩

theorem addFile_ok (h : addFile tw f = .ok tw') :
    ∃ rel content tw₁, sanitizeWorkspacePath f.name.toList = .ok rel ∧
      decodeFileContent f = .ok content ∧ emitDirs tw rel = .ok tw₁ ∧
      tw₁.put (fileEntry rel content) = .ok tw' := by
  obtain ⟨rel, hrel, h⟩ := bind_ok_iff.mp h
  obtain ⟨content, hcontent, h⟩ := bind_ok_iff.mp h
  obtain ⟨tw₁, hdirs, h⟩ := bind_ok_iff.mp h
  exact ⟨rel, content, tw₁, mapError_ok_iff.mp hrel, mapError_ok_iff.mp hcontent, hdirs, h⟩

theorem emitDir_some {c : List Char} (hc : '\x00' ∉ c) (tw : Writer) :
    ∃ tw', emitDir tw c = .ok tw' := by
  unfold emitDir
  split
  · exact ⟨tw, rfl⟩
  · apply put_some
    simp only [dirEntry, List.mem_append, List.mem_singleton, not_or]
    exact ⟨hc, by decide⟩

theorem emitSegs_some {c : List Char} (hc : '\x00' ∉ c) (h : ∀ s ∈ segs, '\x00' ∉ s) (tw : Writer) :
    ∃ tw', emitSegs tw c segs = .ok tw' := by
  induction segs generalizing tw c with
  | nil => exact ⟨tw, rfl⟩
  | cons s segs ih =>
    obtain ⟨hs, hsegs⟩ := List.forall_mem_cons.mp h
    have hnext : '\x00' ∉ if c = [] then s else c ++ '/' :: s := by
      split
      · exact hs
      · simp only [List.mem_append, List.mem_cons, not_or]
        exact ⟨hc, by decide, hs⟩
    obtain ⟨tw₁, hdir⟩ := emitDir_some hnext tw
    obtain ⟨tw', htw'⟩ := ih hnext hsegs tw₁
    exact ⟨tw', bind_ok_iff.mpr ⟨tw₁, hdir, htw'⟩⟩

theorem mem_render {c : Char} (hc : c ≠ '/') : c ∈ render path ↔ ∃ s ∈ path, c ∈ s := by
  induction path with
  | nil => simp [render]
  | cons s path ih =>
    by_cases hnil : path = []
    · subst hnil
      simp
    · rw [render_cons hnil, List.mem_append, List.mem_cons, ih]
      simp [hc]

theorem mem_render_names {c : Char} (hslash : c ≠ '/') (hdot : c ≠ '.') :
    c ∈ render (names name) ↔ c ∈ name := by
  have hname : c ∈ name ↔ ∃ s ∈ name.splitOn '/', c ∈ s := by
    rw [← mem_render hslash, render, List.intercalate_splitOn]
  rw [mem_render hslash, hname]
  constructor
  · rintro ⟨s, hs, hc⟩
    exact ⟨s, (List.mem_filter.mp hs).1, hc⟩
  · rintro ⟨s, hs, hc⟩
    refine ⟨s, List.mem_filter.mpr ⟨hs, ?_⟩, hc⟩
    rw [decide_eq_true_iff]
    constructor
    · rintro rfl
      exact List.not_mem_nil hc
    · rintro rfl
      exact hdot (List.mem_singleton.mp hc)

theorem addFile_some (hrel : sanitizeWorkspacePath f.name.toList = .ok rel)
    (hcontent : decodeFileContent f = .ok content) (h : '\x00' ∉ rel) (tw : Writer) :
    ∃ tw', addFile tw f = .ok tw' := by
  obtain ⟨path, hn, hne, rfl⟩ := sanitize_rooted hrel
  obtain ⟨init, s, rfl⟩ := (List.eq_nil_or_concat' path).resolve_left hne
  have hnone : ∀ t ∈ init ++ [s], '\x00' ∉ t := by
    intro t ht hnul
    exact h ((mem_render (by decide)).mpr ⟨t, ht, hnul⟩)
  have hinit : Normal init := fun x hx => hn x (List.mem_append_left _ hx)
  have hs : IsName s := hn s (List.mem_append_right _ (List.mem_singleton_self s))
  have hdirs : ∃ tw₁, emitDirs tw (render (init ++ [s])) = .ok tw₁ := by
    rw [emitDirs_eq hinit hs]
    split
    · exact ⟨tw, rfl⟩
    · exact emitSegs_some List.not_mem_nil (fun t ht => hnone t (List.mem_append_left _ ht)) tw
  obtain ⟨tw₁, hdirs⟩ := hdirs
  obtain ⟨tw', hput⟩ : ∃ tw', tw₁.put (fileEntry (render (init ++ [s])) content) = .ok tw' :=
    put_some h
  refine ⟨tw', ?_⟩
  unfold addFile
  rw [hrel, hcontent]
  exact bind_ok_iff.mpr ⟨_, rfl, bind_ok_iff.mpr ⟨_, rfl, bind_ok_iff.mpr ⟨tw₁, hdirs, hput⟩⟩⟩

theorem addFiles_iff (tw : Writer) : (∃ tw', addFiles tw files = .ok tw') ↔
    ∀ f ∈ files, ∃ rel content, sanitizeWorkspacePath f.name.toList = .ok rel ∧
      decodeFileContent f = .ok content ∧ '\x00' ∉ rel := by
  induction files generalizing tw with
  | nil => exact iff_of_true ⟨tw, rfl⟩ nofun
  | cons f files ih =>
    rw [List.forall_mem_cons]
    constructor
    · rintro ⟨tw', h⟩
      obtain ⟨tw₁, hf, hrest⟩ := bind_ok_iff.mp h
      obtain ⟨rel, content, tw₂, hrel, hcontent, -, hput⟩ := addFile_ok hf
      exact ⟨⟨rel, content, hrel, hcontent, no_nul_of_put hput⟩, (ih tw₁).mp ⟨tw', hrest⟩⟩
    · rintro ⟨⟨rel, content, hrel, hcontent, hnul⟩, hfiles⟩
      obtain ⟨tw₁, hf⟩ := addFile_some hrel hcontent hnul tw
      obtain ⟨tw', hrest⟩ := (ih tw₁).mpr hfiles
      exact ⟨tw', bind_ok_iff.mpr ⟨tw₁, hf, hrest⟩⟩

theorem buildFilesTar_iff : (∃ entries, buildFilesTar files = .ok entries) ↔
    ∀ f ∈ files, ∃ rel content, sanitizeWorkspacePath f.name.toList = .ok rel ∧
      decodeFileContent f = .ok content ∧ '\x00' ∉ rel := by
  rw [← addFiles_iff ⟨[], []⟩]
  constructor
  · rintro ⟨entries, h⟩
    obtain ⟨tw, hadd, -⟩ := map_ok_iff.mp h
    exact ⟨tw, hadd⟩
  · rintro ⟨tw, hadd⟩
    exact ⟨tw.entries, map_ok_iff.mpr ⟨tw, hadd, rfl⟩⟩

def Copies (f : FileInput) (e : Entry) : Prop :=
  ∃ rel content, sanitizeWorkspacePath f.name.toList = .ok rel ∧
    decodeFileContent f = .ok content ∧ e = fileEntry rel content

def Entry.isReg (e : Entry) : Bool := e.typeflag = .reg

theorem filter_dirEntry (new : List (List Char)) :
    (new.map dirEntry).filter Entry.isReg = [] := by
  rw [List.filter_eq_nil_iff]
  intro e he
  obtain ⟨d, -, rfl⟩ := List.mem_map.mp he
  exact Bool.false_ne_true

theorem Laid.addFiles (h : Laid tw) (hadd : addFiles tw files = .ok tw') :
    Laid tw' ∧ ∃ regs, List.Forall₂ Copies files regs ∧
      tw'.entries.filter Entry.isReg = tw.entries.filter Entry.isReg ++ regs := by
  induction files generalizing tw with
  | nil =>
    obtain rfl := Except.ok.inj hadd
    exact ⟨h, [], .nil, by simp⟩
  | cons f files ih =>
    obtain ⟨tw₁, hf, hrest⟩ := bind_ok_iff.mp hadd
    obtain ⟨rel, content, tw₂, hrel, hcontent, hdirs, hput⟩ := addFile_ok hf
    have hrooted := sanitize_rooted hrel
    obtain ⟨h₁, new, hentries⟩ := h.addFile hrooted (emitDirs_emits hrooted hdirs) hput
    obtain ⟨h', regs, hregs, hfilter⟩ := ih h₁ hrest
    refine ⟨h', fileEntry rel content :: regs, .cons ⟨rel, content, hrel, hcontent, rfl⟩ hregs, ?_⟩
    rw [hfilter, hentries, List.filter_append, List.filter_append, filter_dirEntry]
    simp [Entry.isReg, fileEntry]

theorem addFiles_refused (h : ∃ f ∈ files, ∀ tw, ∃ err, addFile tw f = .error err) (tw : Writer) :
    ∃ err, addFiles tw files = .error err := by
  induction files generalizing tw with
  | nil =>
    obtain ⟨f, hf, -⟩ := h
    cases hf
  | cons f files ih =>
    rw [addFiles]
    cases hf : addFile tw f with
    | error err => exact ⟨err, rfl⟩
    | ok tw' =>
      obtain ⟨g, hg, herr⟩ := h
      rcases List.mem_cons.mp hg with rfl | hg
      · obtain ⟨err, herr⟩ := herr tw
        rw [hf] at herr
        cases herr
      · exact ih ⟨g, hg, herr⟩ tw'

/-- A name that is not safe, a reference that was not resolved, an unknown encoding, or text that
is not base64. -/
def Refused (f : FileInput) : Prop :=
  Unsafe f.name.toList ∨ f.content = none ∨ f.encoding ∉ ["", "utf8", "base64"] ∨
    f.encoding = "base64" ∧ ∀ content ∈ f.content, Base64.decode content.toList = none

theorem decode_refused (h : f.content = none ∨ f.encoding ∉ ["", "utf8", "base64"] ∨
    f.encoding = "base64" ∧ ∀ content ∈ f.content, Base64.decode content.toList = none) :
    ∃ err, decodeFileContent f = .error err := by
  unfold decodeFileContent
  cases hcontent : f.content with
  | none => exact ⟨_, rfl⟩
  | some content =>
    rw [hcontent] at h
    rcases h with h | h | ⟨hbase64, hdecode⟩
    · cases h
    · simp only [List.mem_cons, List.not_mem_nil, or_false, not_or] at h
      simp only [h, or_self, if_false]
      exact ⟨_, rfl⟩
    · have hnone := hdecode content rfl
      simp only [hbase64, hnone, String.reduceEq, or_self, if_false, if_true]
      exact ⟨_, rfl⟩

theorem addFile_refused (h : Refused f) (tw : Writer) : ∃ err, addFile tw f = .error err := by
  cases hadd : addFile tw f with
  | error err => exact ⟨err, rfl⟩
  | ok tw' =>
    obtain ⟨rel, content, tw₁, hrel, hcontent, -⟩ := addFile_ok hadd
    rcases h with h | h
    · obtain ⟨err, herr⟩ := sanitize_refuses h
      rw [herr] at hrel
      cases hrel
    · obtain ⟨err, herr⟩ := decode_refused h
      rw [herr] at hcontent
      cases hcontent

theorem Rooted.safe (h : Rooted rel) : ¬ Unsafe rel := by
  obtain ⟨path, hn, hne, rfl⟩ := h
  rintro (habs | hup | hnil)
  · exact head?_render hn habs
  · rw [splitOn_render hn hne] at hup
    exact hn.no_up hup
  · rw [names, splitOn_render hn hne, hn.filter] at hnil
    exact hne hnil

theorem Above.safe (hrel : Rooted rel) (h : Above d rel) : ¬ Unsafe (d ++ ['/']) := by
  obtain ⟨path, hn, hne, rfl⟩ := hrel
  obtain ⟨q, t, hq, -, rfl, rfl⟩ := (above_render hn hne).mp h
  have hq' : Normal q := fun s hs => hn s (List.mem_append_left _ hs)
  have hsplit : (render q ++ ['/']).splitOn '/' = q ++ [[]] := by
    rw [List.splitOn_append_cons_self, splitOn_render hq' hq, List.splitOn_nil]
  rintro (habs | hup | hnil)
  · rw [List.head?_append_of_ne_nil _ (render_ne_nil hq' hq)] at habs
    exact head?_render hq' habs
  · rw [hsplit, List.mem_append] at hup
    rcases hup with hup | hup
    · exact hq'.no_up hup
    · simp at hup
  · rw [names, hsplit, List.filter_append, hq'.filter] at hnil
    exact hq (List.append_eq_nil_iff.mp hnil).1

theorem Laid.count (h : Laid tw) (hd : dirEntry d ∈ tw.entries) :
    tw.entries.count (dirEntry d) = 1 := by
  have hle : tw.entries.count (dirEntry d) ≤ tw.seenDirs.count d := by
    rw [← h.seen, List.count_filterMap, List.count_eq_countP]
    apply List.countP_mono_left
    intro e _ he
    rw [beq_iff_eq] at he ⊢
    rw [he, dir?_dirEntry]
  have hone : tw.seenDirs.count d = 1 := List.count_eq_one_of_mem h.nodup (h.mem_iff.mp hd)
  have hpos : 0 < tw.entries.count (dirEntry d) := List.count_pos_iff.mpr hd
  omega

/-- What the archive of some files is. -/
structure Archives (files : List FileInput) (entries : List Entry) : Prop where
  contained : ∀ e ∈ entries, ¬ Unsafe e.name
  above : ∀ n rel content, entries[n]? = some (fileEntry rel content) → ∀ d, Above d rel →
    entries.count (dirEntry d) = 1 ∧ dirEntry d ∈ entries.take n
  files : List.Forall₂ Copies files (entries.filter Entry.isReg)
  dirs : ∀ e ∈ entries, e.isReg = false →
    ∃ d rel content, e = dirEntry d ∧ fileEntry rel content ∈ entries ∧ Above d rel

theorem archives_of_ok (h : buildFilesTar files = .ok entries) : Archives files entries := by
  obtain ⟨tw, hadd, rfl⟩ := map_ok_iff.mp h
  obtain ⟨hlaid, regs, hregs, hfilter⟩ := Laid.start.addFiles hadd
  constructor
  · intro e he
    rcases hlaid.kinds e he with ⟨rel, content, rfl, hrel⟩ | ⟨d, rel, content, rfl, -, hrel, hd⟩
    · exact hrel.safe
    · exact hd.safe hrel
  · intro n rel content hn d hd
    have hmem := hlaid.above n rel content hn d hd
    exact ⟨hlaid.count (List.mem_of_mem_take hmem), hmem⟩
  · rw [hfilter]
    exact hregs
  · intro e he hdir
    rcases hlaid.kinds e he with ⟨rel, content, rfl, -⟩ | ⟨d, rel, content, rfl, hmem, -, hd⟩
    · cases hdir
    · exact ⟨d, rel, content, rfl, hmem, hd⟩

/-- The archive stays below the root of the workspace. It has each directory above a file once and
before the file, the files in their order with what they decode to, and nothing else. If a file
is refused there is no archive. -/
theorem buildFilesTar_archives (files : List FileInput) :
    (∀ entries, buildFilesTar files = .ok entries → Archives files entries) ∧
      ((∃ f ∈ files, Refused f) → ∃ err, buildFilesTar files = .error err) := by
  constructor
  · intro entries h
    exact archives_of_ok h
  · rintro ⟨f, hf, hrefused⟩
    obtain ⟨err, herr⟩ := addFiles_refused ⟨f, hf, addFile_refused hrefused⟩ ⟨[], []⟩
    exact ⟨err, by rw [buildFilesTar, herr]; rfl⟩

/-- Two files that share a directory. -/
def nested : List FileInput :=
  [⟨some "print(1)", "", "./src/pkg/a.py", none⟩, ⟨some "aGk=", "base64", "src/b.txt", none⟩]

theorem buildFilesTar_archives_nested :
    Archives nested [dirEntry "src".toList, dirEntry "src/pkg".toList,
      fileEntry "src/pkg/a.py".toList (Utf8.encode "print(1)".toList),
      fileEntry "src/b.txt".toList [0x68, 0x69]] ∧
    ∃ err, buildFilesTar (nested ++ [⟨none, "", "c", some "sha256:00"⟩]) = .error err := by
  refine ⟨(buildFilesTar_archives nested).1 _ (by decide), ?_⟩
  apply (buildFilesTar_archives _).2
  exact ⟨⟨none, "", "c", some "sha256:00"⟩, by simp, .inr (.inl rfl)⟩

def Consistent (entries : List Entry) : Prop :=
  ∀ rel content, fileEntry rel content ∈ entries → dirEntry rel ∉ entries

theorem dirEntry_inj {d' : List Char} (h : dirEntry d = dirEntry d') : d = d' := by
  have hdir := congrArg Entry.dir? h
  rwa [dir?_dirEntry, dir?_dirEntry, Option.some.injEq] at hdir

theorem Archives.consistent_iff (h : Archives files entries) : Consistent entries ↔
    ∀ f ∈ files, ∀ g ∈ files, ∀ p q, sanitizeWorkspacePath f.name.toList = .ok p →
      sanitizeWorkspacePath g.name.toList = .ok q → ¬ Above p q := by
  have hwritten : ∀ f ∈ files, ∀ p, sanitizeWorkspacePath f.name.toList = .ok p →
      ∃ content, fileEntry p content ∈ entries := by
    intro f hf p hp
    obtain ⟨e, he, rel, content, hrel, -, rfl⟩ := exists_partner h.files f hf
    rw [hp] at hrel
    cases hrel
    exact ⟨content, (List.mem_filter.mp he).1⟩
  have hsource : ∀ rel content, fileEntry rel content ∈ entries →
      ∃ f ∈ files, sanitizeWorkspacePath f.name.toList = .ok rel := by
    intro rel content hfile
    obtain ⟨f, hf, rel', content', hrel, -, heq⟩ :=
      exists_partner h.files.flip _ (List.mem_filter.mpr ⟨hfile, rfl⟩)
    obtain rfl : rel = rel' := congrArg Entry.name heq
    exact ⟨f, hf, hrel⟩
  constructor
  · intro hcons f hf g hg p q hp hq habove
    obtain ⟨content, hfile⟩ := hwritten f hf p hp
    obtain ⟨content', hfile'⟩ := hwritten g hg q hq
    obtain ⟨n, hn⟩ := List.mem_iff_getElem?.mp hfile'
    exact hcons p content hfile (List.mem_of_mem_take (h.above n q content' hn p habove).2)
  · intro hnone rel content hfile hdir
    obtain ⟨d, rel', content', heq, hfile', habove⟩ := h.dirs _ hdir rfl
    obtain rfl := dirEntry_inj heq
    obtain ⟨f, hf, hp⟩ := hsource rel content hfile
    obtain ⟨g, hg, hq⟩ := hsource rel' content' hfile'
    exact hnone f hf g hg rel rel' hp hq habove

def text : Docker.Entry → List Char
  | .dir path => render path ++ ['/']
  | .file path => render path

/-- The entries have the same names, and the directories seen are the ones written. -/
structure Same (tw : Writer) (es : List Docker.Entry) : Prop where
  names : tw.entries.map Entry.name = es.map text
  seen : ∀ path, Normal path → path ≠ [] → (render path ∈ tw.seenDirs ↔ .dir path ∈ es)

variable {es : List Docker.Entry}

theorem Same.emitDir (h : Same tw es) (hn : Normal path) (hne : path ≠ [])
    (hdir : emitDir tw (render path) = .ok tw') : Same tw' (Docker.emitDir es path) := by
  unfold Tar.emitDir at hdir
  unfold Docker.emitDir
  split at hdir
  · next hseen =>
    cases hdir
    rw [if_pos ((h.seen path hn hne).mp hseen)]
    exact h
  · next hnew =>
    obtain rfl := put_ok hdir
    rw [if_neg (mt (h.seen path hn hne).mpr hnew)]
    constructor
    · simp [h.names, dirEntry, text]
    · intro path' hn' hne'
      simp only [List.mem_append, List.mem_singleton, h.seen path' hn' hne', Docker.Entry.dir.injEq]
      apply or_congr_right
      constructor
      · exact render_inj hn' hn hne' hne
      · rintro rfl
        rfl

theorem Same.emitSegs (h : Same tw es) (hn : Normal (q ++ segs))
    (hdirs : emitSegs tw (render q) segs = .ok tw') :
    Same tw' (((List.range segs.length).map fun n => q ++ segs.take (n + 1)).foldl
      Docker.emitDir es) := by
  induction segs generalizing tw es q with
  | nil =>
    obtain rfl := Except.ok.inj hdirs
    exact h
  | cons s segs ih =>
    have hq : Normal q := fun x hx => hn x (List.mem_append_left _ hx)
    rw [Tar.emitSegs, render_push hq] at hdirs
    obtain ⟨tw₁, hdir, hdirs⟩ := bind_ok_iff.mp hdirs
    have hqs : Normal (q ++ [s]) := by
      intro x hx
      exact hn x (by simp only [List.mem_append, List.mem_cons] at hx ⊢; tauto)
    have hrest := ih (h.emitDir hqs (by simp) hdir) (by simpa using hn) hdirs
    rw [List.length_cons, List.range_succ_eq_map, List.map_cons, List.foldl_cons, List.map_map]
    have hmap : (List.range segs.length).map ((fun n => q ++ (s :: segs).take (n + 1)) ∘ Nat.succ) =
        (List.range segs.length).map fun n => q ++ [s] ++ segs.take (n + 1) := by
      apply List.map_congr_left
      intro n _
      simp
    rwa [hmap]

theorem Same.emitDirs (h : Same tw es) (hn : Normal path) (hne : path ≠ [])
    (hdirs : emitDirs tw (render path) = .ok tw') : Same tw' (Docker.emitDirs es path) := by
  obtain ⟨init, s, rfl⟩ := (List.eq_nil_or_concat' path).resolve_left hne
  have hinit : Normal init := fun x hx => hn x (List.mem_append_left _ hx)
  have hs : IsName s := hn s (List.mem_append_right _ (List.mem_singleton_self s))
  have hparents : Docker.parents (init ++ [s]) =
      (List.range init.length).map fun n => init.take (n + 1) := by
    rw [Docker.parents, List.length_append, List.length_singleton, Nat.add_sub_cancel]
    apply List.map_congr_left
    intro n hn
    exact List.take_append_of_le_length (List.mem_range.mp hn)
  rw [Docker.emitDirs, hparents]
  rw [emitDirs_eq hinit hs] at hdirs
  split at hdirs
  · next hnil =>
    subst hnil
    obtain rfl := Except.ok.inj hdirs
    exact h
  · have hrest := h.emitSegs (q := []) (by simpa using hinit) hdirs
    simpa using hrest

theorem Same.addFile (h : Same tw es) (hadd : addFile tw f = .ok tw') :
    ∃ es', Docker.addFile es f = .ok es' ∧ Same tw' es' := by
  obtain ⟨rel, content, tw₁, hrel, -, hdirs, hput⟩ := addFile_ok hadd
  rw [sanitize_eq_map] at hrel
  obtain ⟨path, hpath, rfl⟩ := map_ok_iff.mp hrel
  obtain ⟨hn, hne⟩ := normal_of_sanitize hpath
  obtain ⟨hnames, hseen⟩ := h.emitDirs hn hne hdirs
  obtain rfl := put_ok hput
  refine ⟨Docker.emitDirs es path ++ [.file path], ?_, ?_, ?_⟩
  · rw [Docker.addFile, hpath]
    rfl
  · simp [hnames, fileEntry, text]
  · intro path hn hne
    simp [hseen path hn hne]

theorem buildFilesTar_text (h : buildFilesTar files = .ok entries) :
    ∃ es, Docker.buildFilesTar files = .ok es ∧ entries.map Entry.name = es.map text := by
  have hfiles : ∀ (files : List FileInput) (tw tw' : Writer) (es : List Docker.Entry),
      Same tw es → addFiles tw files = .ok tw' →
        ∃ es', files.foldlM Docker.addFile es = .ok es' ∧ Same tw' es' := by
    intro files
    induction files with
    | nil =>
      intro tw tw' es hsame hadd
      obtain rfl := Except.ok.inj hadd
      exact ⟨es, rfl, hsame⟩
    | cons f files ih =>
      intro tw tw' es hsame hadd
      obtain ⟨tw₁, hf, hrest⟩ := bind_ok_iff.mp hadd
      obtain ⟨es₁, hes₁, hsame₁⟩ := hsame.addFile hf
      obtain ⟨es', hes', hsame'⟩ := ih tw₁ tw' es₁ hsame₁ hrest
      exact ⟨es', by rw [List.foldlM_cons, hes₁]; exact hes', hsame'⟩
  obtain ⟨tw, hadd, rfl⟩ := map_ok_iff.mp h
  obtain ⟨es, hes, hsame⟩ := hfiles files ⟨[], []⟩ tw [] ⟨rfl, by simp⟩ hadd
  exact ⟨es, hes, hsame.names⟩

end CodeRunner.Docker.Tar
