import CodeRunner.Lib.Utf8
import CodeRunner.Relay.Codec
import Mathlib.Data.List.TakeWhile

/-! # The files that a session sends back

`_capture_artifacts` walks the workspace and writes each new file to the artifact channel, where
`ArtifactReader` takes the records. A file that raises `OSError` is passed over, and any other
exception ends the walk.
-/

namespace CodeRunner.Zygote

open Incremental Relay

/-- What `open` and `fh.read()` come to. -/
inductive Reading where
  | data (data : List UInt8)
  | osError
  | memoryError

/-- A file when the walk visits it: `other` is a link, of another kind, or gone. -/
inductive FileState where
  | regular (reading : Reading)
  | other

/-- A directory in the order of `os.scandir`, with names as the bytes of the file system. What is
under a directory that cannot be listed, and under a link to one, is not part of it. -/
inductive Listing where
  | nil
  | file (name : List UInt8) (state : FileState) (rest : Listing)
  | dir (name : List UInt8) (entries rest : Listing)

namespace Listing

/-- `rel` of a file: the names on its path with `/` between them. -/
def rel (dirpath : List (List UInt8)) (fn : List UInt8) : List UInt8 :=
  [0x2f].intercalate (dirpath ++ [fn])

/-- The `filenames` of a directory. -/
def filenames (dirpath : List (List UInt8)) : Listing → List (List UInt8 × FileState)
  | nil => []
  | file fn state rest => (rel dirpath fn, state) :: filenames dirpath rest
  | dir _ _ rest => filenames dirpath rest

/-- What `os.walk` yields after a directory: its subdirectories, each with its files first. -/
def subdirs (dirpath : List (List UInt8)) : Listing → List (List UInt8 × FileState)
  | nil => []
  | file _ _ rest => subdirs dirpath rest
  | dir name entries rest =>
    filenames (dirpath ++ [name]) entries ++ subdirs (dirpath ++ [name]) entries ++
      subdirs dirpath rest

/-- The files in the order of `os.walk`. -/
def walk (workdir : Listing) : List (List UInt8 × FileState) :=
  workdir.filenames [] ++ workdir.subdirs []

end Listing

/-- The other end takes what it is sent: how many bytes more than one an `os.write` takes, after
the writes before it. -/
abbrev Channel := List (List UInt8) → List UInt8 → ℕ

def writeallLoop (artFd : Channel) : ℕ → List (List UInt8) → List UInt8 → List (List UInt8)
  | fuel + 1, sent, b :: view =>
    let n := artFd sent (b :: view) + 1
    writeallLoop artFd fuel (sent ++ [(b :: view).take n]) ((b :: view).drop n)
  | _, sent, _ => sent

/-- `_writeall`, with the writes made so far. -/
def writeall (artFd : Channel) (sent : List (List UInt8)) (buf : List UInt8) :
    List (List UInt8) :=
  writeallLoop artFd buf.length sent buf

/-- `rel.encode()`, where `rel` has the bytes of the file system: escaped bytes raise
`UnicodeEncodeError`. -/
def encode (rel : List UInt8) : Option (List UInt8) := if Utf8.Valid rel then some rel else none

/-- `struct.pack(">I", n)`, which raises `struct.error`. -/
def packI (n : ℕ) : Option (List UInt8) := if n < 4294967296 then some (Block.be32 n) else none

variable (artFd : Channel) (inputRel : List (List Char))

/-- One file of the loop with the writes made so far, or `none` for an exception that is no
`OSError`. -/
def captureFile (sent : List (List UInt8)) : List UInt8 × FileState → Option (List (List UInt8))
  | (_, .other) => some sent
  | (rel, .regular reading) =>
    if rel ∈ inputRel.map Utf8.encode then some sent
    else
      match reading with
      | .osError => some sent
      | .memoryError => none
      | .data data => do
        let nameB ← encode rel
        let nameLen ← packI nameB.length
        let dataLen ← packI data.length
        let sent := writeall artFd sent (nameLen ++ nameB ++ dataLen)
        return writeall artFd sent data

def captureFiles (sent : List (List UInt8)) :
    List (List UInt8 × FileState) → List (List UInt8)
  | [] => sent
  | file :: files =>
    match captureFile artFd inputRel sent file with
    | none => sent
    | some sent => captureFiles sent files

/-- The writes of `_capture_artifacts`. -/
def captureArtifacts (workdir : Listing) : List (List UInt8) :=
  captureFiles artFd inputRel [] workdir.walk

/-- The artifact that a file is, when it is new, regular, readable and has a UTF-8 name. -/
def newArtifact : List UInt8 × FileState → Option Artifact
  | (rel, .regular (.data data)) =>
    if rel ∉ inputRel.map Utf8.encode ∧ Utf8.Valid rel then
      some ⟨String.ofList (Utf8.decode rel), data⟩
    else none
  | _ => none

/-- A new regular file that can be opened, but whose name is not UTF-8, whose lengths are no
32-bit numbers, or that does not fit in memory. -/
def Aborts : List UInt8 × FileState → Prop
  | (rel, .regular (.data data)) =>
    rel ∉ inputRel.map Utf8.encode ∧
      (¬ Utf8.Valid rel ∨ 4294967296 ≤ rel.length ∨ 4294967296 ≤ data.length)
  | (rel, .regular .memoryError) => rel ∉ inputRel.map Utf8.encode
  | _ => False

instance : DecidablePred (Aborts inputRel) := fun file => by
  unfold Aborts
  split <;> infer_instance

/-- A new regular file within the frame cap. -/
def Good (file : List UInt8 × FileState) : Prop := ∃ a, newArtifact inputRel file = some a ∧ a.Fits

def wanted (files : List (List UInt8 × FileState)) : List Artifact :=
  (files.filterMap (newArtifact inputRel)).filter (decide <| Artifact.Fits ·)

/-- The writes are whole records, of which the reader, whatever its reads are, takes each wanted
artifact. -/
def Isolates (workdir : Listing) : Prop :=
  ∃ as : List Artifact,
    (captureArtifacts artFd inputRel workdir).flatten = as.flatMap captureRecord ∧
    List.Sublist (wanted inputRel workdir.walk) as ∧
    ∀ reads : List (List UInt8),
      reads.flatten = (captureArtifacts artFd inputRel workdir).flatten →
        artifactReader.feed [] reads = (as, [])

variable {artFd : Channel} {inputRel : List (List Char)} {sent : List (List UInt8)}
  {file : List UInt8 × FileState} {files : List (List UInt8 × FileState)} {rel : List UInt8}
  {state : FileState} {a : Artifact}

theorem valid_encodeName (name : String) : Utf8.Valid (encodeName name) := ⟨name.toList, rfl⟩

theorem newArtifact_eq_some : newArtifact inputRel file = some a ↔
    file = (encodeName a.name, .regular (.data a.data)) ∧
      encodeName a.name ∉ inputRel.map Utf8.encode := by
  constructor
  · intro h
    unfold newArtifact at h
    split at h
    · next rel data =>
      obtain ⟨⟨hnew, cs, rfl⟩, ha⟩ := Option.ite_none_right_eq_some.mp h
      obtain rfl := Option.some.inj ha
      have hname : encodeName (String.ofList (Utf8.decode (Utf8.encode cs))) = Utf8.encode cs := by
        rw [Utf8.decode_encode, encodeName, String.toList_ofList, Utf8.encode]
      rw [hname]
      exact ⟨rfl, hnew⟩
    · cases h
  · rintro ⟨rfl, hnew⟩
    have hname : String.ofList (Utf8.decode (encodeName a.name)) = a.name := by
      change String.ofList (Utf8.decode (Utf8.encode a.name.toList)) = a.name
      rw [Utf8.decode_encode, String.ofList_toList]
    rw [newArtifact, if_pos ⟨hnew, valid_encodeName a.name⟩, hname]

theorem aborts_iff_packs (h : newArtifact inputRel file = some a) :
    Aborts inputRel file ↔ ¬ a.Packs := by
  obtain ⟨rfl, hnew⟩ := newArtifact_eq_some.mp h
  simp only [Aborts, Artifact.Packs, hnew, valid_encodeName, not_true_eq_false, not_false_eq_true,
    false_or, true_and, not_and_or, not_lt]

theorem writeallLoop_flatten {fuel : ℕ} {view : List UInt8} (h : view.length ≤ fuel) :
    (writeallLoop artFd fuel sent view).flatten = sent.flatten ++ view := by
  induction fuel generalizing sent view with
  | zero =>
    obtain rfl := List.length_eq_zero_iff.mp (Nat.le_zero.mp h)
    exact (List.append_nil _).symm
  | succ fuel ih =>
    cases view with
    | nil => exact (List.append_nil _).symm
    | cons b view =>
      have hle : ((b :: view).drop (artFd sent (b :: view) + 1)).length ≤ fuel := by
        rw [List.length_drop]
        omega
      rw [writeallLoop, ih hle, List.flatten_append, List.append_assoc, List.flatten_singleton,
        List.take_append_drop]

@[simp] theorem writeall_flatten (buf : List UInt8) :
    (writeall artFd sent buf).flatten = sent.flatten ++ buf :=
  writeallLoop_flatten (Nat.le_refl _)

theorem captureFile_aborts (h : Aborts inputRel file) :
    captureFile artFd inputRel sent file = none := by
  unfold Aborts at h
  split at h
  · obtain ⟨hnew, hbad⟩ := h
    rw [captureFile, if_neg hnew]
    rcases hbad with hname | hlen | hlen
    · simp [encode, hname]
    · simp [encode, packI, Nat.not_lt.mpr hlen]
    · simp [packI, Nat.not_lt.mpr hlen]
  · rw [captureFile, if_neg h]
  · cases h

theorem captureFile_eq (artFd : Channel) (sent : List (List UInt8))
    (h : ¬ Aborts inputRel file) :
    ∃ sent', captureFile artFd inputRel sent file = some sent' ∧
      sent'.flatten =
        sent.flatten ++ (newArtifact inputRel file).toList.flatMap captureRecord := by
  obtain ⟨rel, state⟩ := file
  cases state with
  | other => exact ⟨sent, rfl, (List.append_nil _).symm⟩
  | regular reading =>
    by_cases hinput : rel ∈ inputRel.map Utf8.encode
    · refine ⟨sent, if_pos hinput, ?_⟩
      cases reading <;> simp [newArtifact, hinput]
    · cases reading with
      | osError => exact ⟨sent, if_neg hinput, (List.append_nil _).symm⟩
      | memoryError => exact absurd hinput h
      | data data =>
        simp only [Aborts, not_and, not_or, not_not, not_le] at h
        obtain ⟨⟨cs, rfl⟩, hname, hdata⟩ := h hinput
        have ha : newArtifact inputRel (Utf8.encode cs, .regular (.data data)) =
            some ⟨String.ofList cs, data⟩ := by
          apply newArtifact_eq_some.mpr
          rw [encodeName, String.toList_ofList]
          exact ⟨rfl, hinput⟩
        refine ⟨writeall artFd (writeall artFd sent (Block.put (Utf8.encode cs) ++
          Block.be32 data.length)) data, ?_, ?_⟩
        · have hnameLen : packI (Utf8.encode cs).length = some (Block.be32 _) := if_pos hname
          have hdataLen : packI data.length = some (Block.be32 data.length) := if_pos hdata
          rw [captureFile, if_neg hinput, encode, if_pos ⟨cs, rfl⟩, hdataLen]
          change (packI (Utf8.encode cs).length).bind _ = _
          rw [hnameLen]
          rfl
        · rw [ha, writeall_flatten, writeall_flatten, Option.toList_some, List.flatMap_singleton,
            captureRecord, encodeName, String.toList_ofList]
          simp only [Block.put, Utf8.encode, List.append_assoc]

/-- The artifacts of the files before the first that aborts the walk. -/
def captured (inputRel : List (List Char)) (files : List (List UInt8 × FileState)) :
    List Artifact :=
  (files.takeWhile fun file => ¬ Aborts inputRel file).filterMap (newArtifact inputRel)

theorem captured_of_aborts (h : Aborts inputRel file) : captured inputRel (file :: files) = [] := by
  simp [captured, h]

theorem captured_cons (h : ¬ Aborts inputRel file) :
    captured inputRel (file :: files) =
      (newArtifact inputRel file).toList ++ captured inputRel files := by
  simp only [captured, h, not_false_eq_true, decide_true, List.takeWhile_cons_of_pos,
    List.filterMap_cons]
  cases newArtifact inputRel file <;> rfl

theorem captureFiles_flatten (files : List (List UInt8 × FileState)) :
    (captureFiles artFd inputRel sent files).flatten =
      sent.flatten ++ (captured inputRel files).flatMap captureRecord := by
  induction files generalizing sent with
  | nil => exact (List.append_nil _).symm
  | cons file files ih =>
    by_cases h : Aborts inputRel file
    · rw [captureFiles, captureFile_aborts h, captured_of_aborts h]
      exact (List.append_nil _).symm
    · obtain ⟨sent', hfile, hsent⟩ := captureFile_eq artFd sent h
      rw [captureFiles, hfile, captured_cons h, List.flatMap_append, ← List.append_assoc, ← hsent]
      exact ih

theorem packs_captured : ∀ a ∈ captured inputRel files, a.Packs := by
  intro a ha
  obtain ⟨file, hfile, ha⟩ := List.mem_filterMap.mp ha
  have hgood : ¬ Aborts inputRel file := by simpa using List.mem_takeWhile_imp hfile
  rwa [aborts_iff_packs ha, not_not] at hgood

theorem not_good_of_aborts (h : Aborts inputRel file) : ¬ Good inputRel file := by
  rintro ⟨a, ha, hfits⟩
  exact (aborts_iff_packs ha).mp h hfits.packs

theorem fits_of_mem_wanted (h : a ∈ wanted inputRel files) : a.Fits :=
  of_decide_eq_true (List.mem_filter.mp h).2

theorem wanted_eq_nil : wanted inputRel files = [] ↔ ∀ file ∈ files, ¬ Good inputRel file := by
  simp only [wanted, List.filter_eq_nil_iff, List.mem_filterMap, decide_eq_true_eq, Good]
  constructor
  · rintro h file hfile ⟨a, ha, hfits⟩
    exact h a ⟨file, hfile, ha⟩ hfits
  · rintro h a ⟨file, hfile, ha⟩ hfits
    exact h file hfile ⟨a, ha, hfits⟩

theorem sublist_captured_iff :
    List.Sublist (wanted inputRel files) (captured inputRel files) ↔
      files.Pairwise fun file file' => Aborts inputRel file → ¬ Good inputRel file' := by
  induction files with
  | nil => exact ⟨fun _ => .nil, fun _ => .slnil⟩
  | cons file files ih =>
    rw [List.pairwise_cons]
    by_cases h : Aborts inputRel file
    · simp only [captured_of_aborts h, List.sublist_nil, wanted_eq_nil, List.forall_mem_cons, h,
        not_good_of_aborts h, not_false_eq_true, true_and, forall_const, iff_self_and]
      intro hfiles
      exact List.pairwise_of_forall_mem_list fun _ _ file' hfile' _ => hfiles file' hfile'
    · have hstep : List.Sublist (wanted inputRel (file :: files))
          (captured inputRel (file :: files)) ↔
            List.Sublist (wanted inputRel files) (captured inputRel files) := by
        rw [captured_cons h]
        cases ha : newArtifact inputRel file with
        | none => rw [wanted, List.filterMap_cons_none ha]; rfl
        | some a =>
          rw [wanted, List.filterMap_cons_some ha, List.filter_cons]
          change List.Sublist (if _ then a :: wanted inputRel files else wanted inputRel files)
            (a :: captured inputRel files) ↔ _
          split
          · exact List.cons_sublist_cons
          · next hfits =>
            constructor
            · intro hsub
              rcases List.sublist_cons_iff.mp hsub with hsub | ⟨r, hr, -⟩
              · exact hsub
              · have hmem : a ∈ wanted inputRel files := hr ▸ List.mem_cons_self
                exact absurd (decide_eq_true (fits_of_mem_wanted hmem)) hfits
            · exact List.Sublist.cons a
      rw [hstep, ih]
      simp [h]

theorem captureArtifacts_flatten (workdir : Listing) :
    (captureArtifacts artFd inputRel workdir).flatten =
      (captured inputRel workdir.walk).flatMap captureRecord :=
  captureFiles_flatten workdir.walk

/-- Bad files are isolated exactly if none that raises another exception than `OSError` comes
before a new file within the frame cap. -/
theorem isolates_iff (artFd : Channel) (inputRel : List (List Char)) (workdir : Listing) :
    Isolates artFd inputRel workdir ↔
      workdir.walk.Pairwise fun file file' => Aborts inputRel file → ¬ Good inputRel file' := by
  have hfeed : ∀ reads : List (List UInt8),
      reads.flatten = (captureArtifacts artFd inputRel workdir).flatten →
        artifactReader.feed [] reads = (captured inputRel workdir.walk, []) := by
    intro reads hreads
    rw [captureArtifacts_flatten] at hreads
    exact artifactReader_feed packs_captured hreads
  rw [← sublist_captured_iff]
  constructor
  · rintro ⟨as, -, hsub, hreads⟩
    have heq := (hreads _ (List.flatten_singleton)).symm.trans (hfeed _ List.flatten_singleton)
    rwa [(Prod.mk.inj heq).1] at hsub
  · intro hsub
    exact ⟨_, captureArtifacts_flatten workdir, hsub, hfeed⟩

theorem not_always_isolates : ¬ ∀ artFd inputRel workdir, Isolates artFd inputRel workdir := by
  intro h
  obtain ⟨as, -, hsub, hreads⟩ := h (fun _ _ => 0) []
    (.file [0xff] (.regular (.data [])) (.file [0x61] (.regular (.data [])) .nil))
  have hfeed := hreads [] (by decide +kernel)
  obtain rfl : [] = as := (Prod.mk.inj hfeed).1
  exact absurd (List.sublist_nil.mp hsub) (by decide +kernel)

end CodeRunner.Zygote
