import CodeRunner.Api.Files
import CodeRunner.Docker.Archive
import CodeRunner.Lib.Stringify

/-! # Inline files from the API to the archive

The files of a request are strings of 16-bit units where the schema and `validateFiles` see them.
They are kept in Redis as a JSON document, and the worker decodes that into the files from which
`buildFilesTar` makes the archive.
-/

namespace CodeRunner.Api.Handover

open Docker.Tar Fallible Posix

/-- A file of the request as JavaScript has it. -/
structure FileInput where
  name : List UInt16
  content : Option (List UInt16)
  encoding : Option (List UInt16)
  ref : Option (List UInt16)
  deriving DecidableEq, Repr

def units (s : String) : List UInt16 := Utf16.ascii s.toList

/-- `sha256:` and 64 lowercase hexadecimal digits. -/
def refMatches (ref : List UInt16) : Bool :=
  ref.take 7 = units "sha256:" && (ref.drop 7).length = 64 &&
    (ref.drop 7).all (· ∈ units "abcdef0123456789")

/-- `FileInputSchema`: an absent encoding is `utf8`. -/
def parseFileInput (f : FileInput) : Option FileInput :=
  let encoding := f.encoding.getD (units "utf8")
  if 1 ≤ f.name.length ∧ f.name.length ≤ 255 ∧ encoding ∈ [units "utf8", units "base64"] ∧
      f.ref.all refMatches then
    some { f with encoding := some encoding }
  else none

def sanitizeWorkspacePath (name : List UInt16) : Except Docker.PathError (List UInt16) :=
  if name = [] then .error .empty
  else if name.head? = some 0x2F then .error .absolute
  else
    let segments := name.splitOn 0x2F
    if units ".." ∈ segments then .error .traversal
    else
      let cleaned := [0x2F].intercalate (segments.filter fun s => s ≠ [] ∧ s ≠ units ".")
      if cleaned = [] then .error .outside else .ok cleaned

inductive FileValidationError where
  | path (name : List UInt16) (err : Docker.PathError)
  | contentAndRef (name : List UInt16)
  | noContentNorRef (name : List UInt16)
  | badRef (name ref : List UInt16)
  | base64 (name : List UInt16)
  deriving DecidableEq

def digits (content : List UInt16) : List UInt16 := content.rdropWhile (· = 0x3D)

/-- `BASE64_RE` with the test of the length. -/
def isBase64 (content : List UInt16) : Bool :=
  (digits content).all (· ∈ Utf16.ascii Base64.alphabet) &&
    content.length - (digits content).length ≤ 2 && content.length % 4 = 0

/-- The length of `Buffer.from(content, "base64")` for a text of that shape. -/
def base64Length (content : List UInt16) : ℕ := (digits content).length * 3 / 4

/-- The bytes that the file adds to `totalBytes`. -/
def validateFile (f : FileInput) : Except FileValidationError ℕ :=
  match sanitizeWorkspacePath f.name with
  | .error err => .error (.path f.name err)
  | .ok _ =>
    match f.content, f.ref with
    | some _, some _ => .error (.contentAndRef f.name)
    | none, none => .error (.noContentNorRef f.name)
    | none, some ref => if refMatches ref then .ok 0 else .error (.badRef f.name ref)
    | some content, none =>
      if f.encoding.getD (units "utf8") = units "base64" then
        if isBase64 content then .ok (base64Length content) else .error (.base64 f.name)
      else .ok (Utf16.byteLength content)

def validateFiles : List FileInput → Except FileValidationError ℕ
  | [] => .ok 0
  | f :: files => do
    let bytes ← validateFile f
    let totalBytes ← validateFiles files
    return bytes + totalBytes

/-- The files of a request that the schema and `validateFiles` accept, with `totalBytes`. -/
def accept (body : List FileInput) : Option (List FileInput × ℕ) := do
  let files ← body.mapM parseFileInput
  if files = [] then none
  else (validateFiles files).toOption.map fun totalBytes => (files, totalBytes)

/-- What is written for a file; a field that is undefined is left out. -/
def fields (f : FileInput) : List (List UInt16 × List UInt16) :=
  [(units "name", some f.name), (units "content", f.content), (units "encoding", f.encoding),
    (units "ref", f.ref)].filterMap fun m => m.2.map fun text => (m.1, text)

/-- The files of the job's specification as `JSON.stringify` writes them. -/
def stringify (files : List FileInput) : List UInt8 :=
  Json.writeArray (files.map fun f =>
    Json.writeObject ((fields f).map fun m => (m.1, Json.quote m.2)))

/-- `wire.FileInput`, whose strings are bytes. -/
structure WireFile where
  content : Option (List UInt8)
  encoding : List UInt8
  name : List UInt8
  ref : Option (List UInt8)

def WireFile.member (key : List UInt8) : Json.Setter WireFile := fun v f =>
  if Json.named "content" key then
    ({ f with content := (Json.setStringPtr v f.content).1 }, (Json.setStringPtr v f.content).2)
  else if Json.named "encoding" key then
    ({ f with encoding := (Json.setString v f.encoding).1 }, (Json.setString v f.encoding).2)
  else if Json.named "name" key then
    ({ f with name := (Json.setString v f.name).1 }, (Json.setString v f.name).2)
  else if Json.named "ref" key then
    ({ f with ref := (Json.setStringPtr v f.ref).1 }, (Json.setStringPtr v f.ref).2)
  else (f, true)

def text (bs : List UInt8) : String := String.ofList (Utf8.decode bs)

/-- The strings that `json.Unmarshal` makes are valid UTF-8. -/
def WireFile.input (f : WireFile) : CodeRunner.FileInput :=
  ⟨f.content.map text, text f.encoding, text f.name, f.ref.map text⟩

def unmarshal (data : List UInt8) : Option (List CodeRunner.FileInput) := do
  let v ← Json.parse data
  let r := Json.setSlice ⟨none, [], [], none⟩ (Json.setRecord WireFile.member) v []
  if r.2 then some (r.1.map WireFile.input) else none

/-- A string of JavaScript as text: a surrogate without its other half is lost. -/
def string (us : List UInt16) : String := String.ofList (Utf16.decode us)

/-- The file as the worker has it. -/
def received (f : FileInput) : CodeRunner.FileInput :=
  ⟨f.content.map string, (f.encoding.map string).getD "", string f.name, f.ref.map string⟩

variable {f : FileInput} {files body : List FileInput} {us : List UInt16} {n total : ℕ}

def bytes (us : List UInt16) : List UInt8 := Utf8.encode (Utf16.decode us)

theorem text_bytes (us : List UInt16) : text (bytes us) = string us := by
  rw [text, bytes, Utf8.decode_encode, string]

def value (f : FileInput) : Json.Value :=
  .obj ((fields f).map fun m => (bytes m.1, .str (bytes m.2)))

theorem reads_file (f : FileInput) :
    Json.Reads 1 (Json.writeObject ((fields f).map fun m => (m.1, Json.quote m.2))) (value f) := by
  have h := Json.Reads.object
    ((fields f).map fun m => ⟨m.1, Json.quote m.2, .str (bytes m.2)⟩) (by
      intro m hm
      obtain ⟨x, -, rfl⟩ := List.mem_map.mp hm
      exact .string 0 x.2)
  rw [List.map_map, List.map_map] at h
  exact h

theorem parse_stringify (files : List FileInput) :
    Json.parse (stringify files) = some (.arr (files.map value)) := by
  have h := Json.Reads.array (files.map fun f =>
    (Json.writeObject ((fields f).map fun m => (m.1, Json.quote m.2)), value f)) (by
      intro m hm
      obtain ⟨f, -, rfl⟩ := List.mem_map.mp hm
      exact reads_file f)
  rw [List.map_map, List.map_map] at h
  exact h.parse (by decide)

theorem member_name (t : List UInt8) (f : WireFile) :
    WireFile.member (bytes (units "name")) (.str t) f = ({ f with name := t }, true) := rfl

theorem member_content (t : List UInt8) (f : WireFile) :
    WireFile.member (bytes (units "content")) (.str t) f =
      ({ f with content := some t }, true) := rfl

theorem member_encoding (t : List UInt8) (f : WireFile) :
    WireFile.member (bytes (units "encoding")) (.str t) f =
      ({ f with encoding := t }, true) := rfl

theorem member_ref (t : List UInt8) (f : WireFile) :
    WireFile.member (bytes (units "ref")) (.str t) f = ({ f with ref := some t }, true) := rfl

theorem setRecord_value (f : FileInput) :
    Json.setRecord WireFile.member (value f) ⟨none, [], [], none⟩ =
      (⟨f.content.map bytes, (f.encoding.map bytes).getD [], bytes f.name, f.ref.map bytes⟩,
        true) := by
  obtain ⟨name, content, encoding, ref⟩ := f
  cases content <;> cases encoding <;> cases ref <;>
    simp [value, fields, Json.setRecord, member_name, member_content, member_encoding, member_ref]

theorem unmarshal_stringify (files : List FileInput) :
    unmarshal (stringify files) = some (files.map received) := by
  have hinput : ∀ f : FileInput, WireFile.input ⟨f.content.map bytes,
      (f.encoding.map bytes).getD [], bytes f.name, f.ref.map bytes⟩ = received f := by
    intro f
    obtain ⟨name, content, encoding, ref⟩ := f
    have hmap : ∀ o : Option (List UInt16), (o.map bytes).map text = o.map string := by
      intro o
      cases o with
      | none => rfl
      | some us => exact congrArg some (text_bytes us)
    have hencoding : text ((encoding.map bytes).getD []) = (encoding.map string).getD "" := by
      cases encoding with
      | none => rfl
      | some us => exact text_bytes us
    simp only [WireFile.input, received, hmap, hencoding, text_bytes]
  unfold unmarshal
  rw [parse_stringify, Option.bind_eq_bind, Option.bind_some]
  simp only [Json.setSlice, List.map_map, List.all_map, Function.comp_def, setRecord_value]
  rw [if_pos (by simp)]
  exact congrArg some (List.map_congr_left fun f _ => hinput f)

variable {name rel content : List UInt16}

theorem decode_units {s : String} (h : s.toList.all (·.toNat < 0x80)) :
    Utf16.decode us = s.toList ↔ us = units s := by
  apply Utf16.decode_eq_ascii
  intro c hc
  exact of_decide_eq_true (List.all_eq_true.mp h c hc)

theorem names_decode (name : List UInt16) : names (Utf16.decode name) =
    ((name.splitOn 0x2F).filter fun s => s ≠ [] ∧ s ≠ units ".").map Utf16.decode := by
  have hsplit : (Utf16.decode name).splitOn '/' = (name.splitOn 0x2F).map Utf16.decode :=
    Utf16.splitOn_decode (by decide) name
  have hdot : ∀ s, Utf16.decode s = ['.'] ↔ s = units "." := fun s =>
    decode_units (s := ".") (by decide)
  rw [names, hsplit, List.filter_map]
  congr 1
  apply List.filter_congr
  intro s _
  simp only [Function.comp_apply, ne_eq, hdot, Utf16.decode_eq_nil]

theorem sanitize_decode (h : sanitizeWorkspacePath name = .ok rel) :
    Docker.Tar.sanitizeWorkspacePath (Utf16.decode name) = .ok (Utf16.decode rel) := by
  have hslash : Utf16.decode name = [] ∨ (Utf16.decode name).head? ≠ some '/' ∨
      name.head? = some 0x2F := by
    cases hname : Utf16.decode name with
    | nil => exact .inl rfl
    | cons c cs =>
      by_cases hc : c = '/'
      · subst hc
        obtain ⟨vs, rfl, -⟩ := Utf16.decode_eq_cons (by decide) hname
        exact .inr (.inr rfl)
      · exact .inr (.inl (by simpa using hc))
  have hsplit : (Utf16.decode name).splitOn '/' = (name.splitOn 0x2F).map Utf16.decode :=
    Utf16.splitOn_decode (by decide) name
  unfold sanitizeWorkspacePath at h
  split at h
  · cases h
  · next hempty =>
    split at h
    · cases h
    · next habs =>
      dsimp only at h
      split at h
      · cases h
      · next hup =>
        split at h
        · cases h
        · next hclean =>
          obtain rfl := Except.ok.inj h
          have hsafe : ¬ Unsafe (Utf16.decode name) := by
            rintro (hhead | hparent | hnil)
            · rcases hslash with hnil | hne | hbad
              · exact hempty (Utf16.decode_eq_nil.mp hnil)
              · exact hne hhead
              · exact habs hbad
            · rw [hsplit, List.mem_map] at hparent
              obtain ⟨s, hs, hdots⟩ := hparent
              obtain rfl := (decode_units (s := "..") (by decide)).mp hdots
              exact hup hs
            · rw [names_decode, List.map_eq_nil_iff] at hnil
              exact hclean (by rw [hnil]; rfl)
          rw [sanitize_safe hsafe, names_decode, render]
          exact congrArg _ (Utf16.decode_intercalate (c := '/') (by decide) _).symm

theorem digits_of_isBase64 (h : isBase64 content) :
    ∃ ds k, (∀ c ∈ ds, c ∈ Base64.alphabet) ∧ k ≤ 2 ∧ (ds.length + k) % 4 = 0 ∧
      (digits content).length = ds.length ∧
      Utf16.decode content = ds ++ List.replicate k '=' := by
  simp only [isBase64, Bool.and_eq_true, List.all_eq_true, decide_eq_true_eq] at h
  obtain ⟨⟨hdigits, hpad⟩, hlen⟩ := h
  obtain ⟨ds, hds, heq⟩ := Utf16.ascii_of_forall hdigits
  have hsplit : content = digits content ++ content.rtakeWhile (· = 0x3D) :=
    List.rdropWhile_append_rtakeWhile.symm
  have hpads : content.rtakeWhile (· = 0x3D) =
      List.replicate (content.rtakeWhile (· = 0x3D)).length 0x3D := by
    apply List.eq_replicate_of_mem
    intro u hu
    simpa using List.mem_rtakeWhile_imp hu
  generalize (content.rtakeWhile (· = 0x3D)).length = k at hpads
  have hascii : content = Utf16.ascii (ds ++ List.replicate k '=') := by
    rw [hsplit, hpads, heq, Utf16.ascii, Utf16.ascii, List.map_append, List.map_replicate]
    rfl
  have hlength : (digits content).length = ds.length := by rw [heq, Utf16.ascii, List.length_map]
  have htotal : content.length = ds.length + k := by
    rw [hascii, Utf16.ascii, List.length_map, List.length_append, List.length_replicate]
  refine ⟨ds, k, hds, by omega, by omega, hlength, ?_⟩
  rw [Utf16.decode_eq_ascii]
  · exact hascii
  · intro c hc
    rcases List.mem_append.mp hc with hc | hc
    · have hall : Base64.alphabet.all (·.toNat < 0x80) := by decide
      exact of_decide_eq_true (List.all_eq_true.mp hall c (hds c hc))
    · rw [List.eq_of_mem_replicate hc]
      decide

theorem string_toList (us : List UInt16) : (string us).toList = Utf16.decode us :=
  String.toList_ofList

theorem string_utf8 : string (units "utf8") = "utf8" := by
  decide

theorem string_base64 : string (units "base64") = "base64" := by
  decide

theorem isBase64_string (h : isBase64 content) : Api.isBase64 (string content) ∧
    (string content).toList.length / 4 * 3 - (string content).toList.count '=' =
      base64Length content := by
  obtain ⟨ds, k, hds, hk, hlen, hdigits, htext⟩ := digits_of_isBase64 h
  have hpad : ∀ c ∈ ds, c ≠ '=' := by
    rintro c hc rfl
    exact absurd (hds '=' hc) (by decide)
  have hlist : (string content).toList = ds ++ List.replicate k '=' := by
    rw [string_toList, htext]
  have hdrop : (ds ++ List.replicate k '=').reverse.dropWhile (· = '=') = ds.reverse := by
    rw [List.reverse_append, List.reverse_replicate, List.dropWhile_append_of_pos]
    · cases hrev : ds.reverse with
      | nil => rfl
      | cons c cs =>
        have hc : c ∈ ds := List.mem_reverse.mp (hrev ▸ List.mem_cons_self)
        rw [List.dropWhile_cons_of_neg]
        simpa using hpad c hc
    · intro c hc
      simpa using List.eq_of_mem_replicate hc
  have hcount : ds.count '=' = 0 := List.count_eq_zero_of_not_mem fun hmem => hpad '=' hmem rfl
  constructor
  · simp only [Api.isBase64, hlist, hdrop, List.length_append, List.length_reverse,
      List.length_replicate, List.all_reverse, Bool.and_eq_true, List.all_eq_true,
      decide_eq_true_eq]
    exact ⟨⟨hds, by omega⟩, hlen⟩
  · rw [base64Length, hdigits, hlist, List.length_append, List.length_replicate, List.count_append,
      List.count_replicate_self, hcount]
    omega

theorem validateFile_received (h : validateFile f = .ok n) (hinline : f.ref = none)
    (hencoding : f.encoding ∈ [some (units "utf8"), some (units "base64")]) :
    Api.validateFile (received f) = .ok n ∧ (received f).encoding ∈ ["utf8", "base64"] := by
  obtain ⟨name, content, encoding, ref⟩ := f
  obtain rfl : ref = none := hinline
  unfold validateFile at h
  cases hrel : sanitizeWorkspacePath name with
  | error err =>
    simp only [hrel] at h
    cases h
  | ok rel =>
    simp only [hrel] at h
    have hpath := sanitize_decode hrel
    rw [← string_toList, sanitize_eq_map] at hpath
    obtain ⟨path, hpath, -⟩ := map_ok_iff.mp hpath
    rw [← Api.sanitizeWorkspacePath_eq] at hpath
    cases content with
    | none => cases h
    | some content =>
      have hfile : ∀ e, received ⟨name, some content, some (units e), none⟩ =
          ⟨some (string content), string (units e), string name, none⟩ := fun _ => rfl
      dsimp only at h hencoding
      rcases List.mem_pair.mp hencoding with rfl | rfl
      · rw [Option.getD_some, if_neg (by decide)] at h
        obtain rfl := Except.ok.inj h
        rw [hfile, string_utf8]
        refine ⟨?_, by simp⟩
        have hsize : (string content).utf8ByteSize = Utf16.byteLength content := by
          rw [← Utf8.length_encode_toList, string_toList, Utf16.byteLength_eq]
        simp only [Api.validateFile, hpath, hsize, String.reduceEq, if_false]
      · rw [Option.getD_some, if_pos rfl] at h
        split at h
        · next hstrict =>
          obtain rfl := Except.ok.inj h
          obtain ⟨hbase64, hsize⟩ := isBase64_string hstrict
          rw [hfile, string_base64]
          refine ⟨?_, by simp⟩
          simp only [Api.validateFile, hpath, hbase64, hsize, if_true]
        · cases h

theorem sanitize_of_validateFile (h : validateFile f = .ok n) :
    ∃ rel, sanitizeWorkspacePath f.name = .ok rel := by
  unfold validateFile at h
  cases hpath : sanitizeWorkspacePath f.name with
  | error err =>
    simp only [hpath] at h
    cases h
  | ok rel => exact ⟨rel, rfl⟩

theorem encoding_of_parseFileInput {b : FileInput} (h : parseFileInput b = some f) :
    f.encoding ∈ [some (units "utf8"), some (units "base64")] := by
  obtain ⟨hcond, h⟩ := Option.ite_none_right_eq_some.mp h
  obtain rfl := Option.some.inj h
  rcases List.mem_pair.mp hcond.2.2.1 with henc | henc <;> simp [henc]

theorem ok_of_toOption {x : Except FileValidationError ℕ} (h : x.toOption = some n) :
    x = .ok n := by
  cases x with
  | error err => cases h
  | ok m => exact congrArg Except.ok (Option.some.inj h)

theorem accept_some (h : accept body = some (files, total)) : validateFiles files = .ok total ∧
    ∀ f ∈ files, f.encoding ∈ [some (units "utf8"), some (units "base64")] := by
  obtain ⟨fs, hparse, h⟩ := Option.bind_eq_some_iff.mp h
  obtain ⟨-, h⟩ := Option.ite_none_left_eq_some.mp h
  obtain ⟨t, ht, heq⟩ := Option.map_eq_some_iff.mp h
  cases heq
  refine ⟨ok_of_toOption ht, fun f hf => ?_⟩
  obtain ⟨b, -, hb⟩ := exists_partner (forall₂_of_mapM hparse).flip f hf
  exact encoding_of_parseFileInput hb

theorem decode_files (h : validateFiles files = .ok total)
    (hencoding : ∀ f ∈ files, f.encoding ∈ [some (units "utf8"), some (units "base64")])
    (hinline : ∀ f ∈ files, f.ref = none) :
    (∀ f ∈ files, ∃ rel, sanitizeWorkspacePath f.name = .ok rel) ∧
      ∃ contents, List.Forall₂ (fun f content => Docker.decodeFileContent f = .ok content)
        (files.map received) contents ∧ (contents.map List.length).sum = total := by
  induction files generalizing total with
  | nil =>
    obtain rfl := Except.ok.inj h
    exact ⟨nofun, [], .nil, rfl⟩
  | cons f files ih =>
    obtain ⟨bytes, hf, h⟩ := bind_ok_iff.mp h
    obtain ⟨rest, hrest, h⟩ := bind_ok_iff.mp h
    obtain rfl := Except.ok.inj h
    rw [List.forall_mem_cons] at hencoding hinline
    obtain ⟨hpaths, contents, hcontents, hsum⟩ := ih hrest hencoding.2 hinline.2
    obtain ⟨hf', henc⟩ := validateFile_received hf hinline.1 hencoding.1
    have href : (received f).ref = none := by
      rw [received, hinline.1]
      rfl
    obtain ⟨content, hcontent, hbytes⟩ := (Api.validateFile_spec hf' henc).2 href
    refine ⟨List.forall_mem_cons.mpr ⟨sanitize_of_validateFile hf, hpaths⟩, content :: contents,
      .cons hcontent hcontents, ?_⟩
    rw [List.map_cons, List.sum_cons, hbytes, hsum]

/-- The worker has every file with its bytes, as many as the API has counted, and the archive is
made and describes a tree. -/
def Materialises (files : List FileInput) (totalBytes : ℕ) : Prop :=
  ∃ inputs contents entries, unmarshal (stringify files) = some inputs ∧
    List.Forall₂ (fun f content => Docker.decodeFileContent f = .ok content) inputs contents ∧
    (contents.map List.length).sum = totalBytes ∧ buildFilesTar inputs = .ok entries ∧
    Consistent entries

/-- No name has a NUL in it, and no file has a path that is a directory of another file. -/
structure Separate (files : List FileInput) : Prop where
  nul : ∀ f ∈ files, 0 ∉ f.name
  apart : ∀ f ∈ files, ∀ g ∈ files, ∀ p q, sanitizeWorkspacePath f.name = .ok p →
    sanitizeWorkspacePath g.name = .ok q → ¬ Above (Utf16.decode p) (Utf16.decode q)

theorem nul_mem (h : sanitizeWorkspacePath name = .ok rel) :
    '\x00' ∈ Utf16.decode rel ↔ 0 ∈ name := by
  have hpath := sanitize_decode h
  by_cases hbad : Unsafe (Utf16.decode name)
  · obtain ⟨err, herr⟩ := sanitize_refuses hbad
    rw [herr] at hpath
    cases hpath
  · rw [sanitize_safe hbad, Except.ok.injEq] at hpath
    rw [← hpath, mem_render_names (by decide) (by decide)]
    exact Utf16.mem_decode (by decide)

/-- The accepted inline files materialise if no name has a NUL in it and no file is below
another one, and only then. -/
theorem materialises_iff (h : accept body = some (files, total))
    (hinline : ∀ f ∈ files, f.ref = none) : Materialises files total ↔ Separate files := by
  obtain ⟨hvalid, hencoding⟩ := accept_some h
  obtain ⟨hpaths, contents, hcontents, hsum⟩ := decode_files hvalid hencoding hinline
  have hrel : ∀ f ∈ files, ∀ rel,
      Docker.Tar.sanitizeWorkspacePath (received f).name.toList = .ok rel ↔
        ∃ p, sanitizeWorkspacePath f.name = .ok p ∧ Utf16.decode p = rel := by
    intro f hf rel
    obtain ⟨p, hp⟩ := hpaths f hf
    have hname : (received f).name.toList = Utf16.decode f.name := string_toList f.name
    rw [hname, sanitize_decode hp, hp, Except.ok.injEq]
    simp
  constructor
  · rintro ⟨inputs, contents', entries, hinputs, -, -, htar, hcons⟩
    rw [unmarshal_stringify, Option.some.injEq] at hinputs
    subst hinputs
    have hall := buildFilesTar_iff.mp ⟨entries, htar⟩
    constructor
    · intro f hf hnul
      obtain ⟨rel, content, hpath, -, hnone⟩ := hall _ (List.mem_map_of_mem hf)
      obtain ⟨p, hp, rfl⟩ := (hrel f hf rel).mp hpath
      exact hnone ((nul_mem hp).mpr hnul)
    · intro f hf g hg p q hp hq
      exact (archives_of_ok htar).consistent_iff.mp hcons _ (List.mem_map_of_mem hf) _
        (List.mem_map_of_mem hg) _ _ ((hrel f hf _).mpr ⟨p, hp, rfl⟩)
        ((hrel g hg _).mpr ⟨q, hq, rfl⟩)
  · intro hsep
    have htar : ∃ entries, buildFilesTar (files.map received) = .ok entries := by
      rw [buildFilesTar_iff, List.forall_mem_map]
      intro f hf
      obtain ⟨p, hp⟩ := hpaths f hf
      obtain ⟨content, -, hcontent⟩ := exists_partner hcontents _ (List.mem_map_of_mem hf)
      exact ⟨_, content, (hrel f hf _).mpr ⟨p, hp, rfl⟩, hcontent,
        mt (nul_mem hp).mp (hsep.nul f hf)⟩
    obtain ⟨entries, htar⟩ := htar
    refine ⟨_, contents, entries, unmarshal_stringify files, hcontents, hsum, htar, ?_⟩
    rw [(archives_of_ok htar).consistent_iff, List.forall_mem_map]
    intro f hf g' hg' rel rel' hpath hpath'
    obtain ⟨g, hg, rfl⟩ := List.mem_map.mp hg'
    obtain ⟨p, hp, rfl⟩ := (hrel f hf rel).mp hpath
    obtain ⟨q, hq, rfl⟩ := (hrel g hg rel').mp hpath'
    exact hsep.apart f hf g hg p q hp hq

/-- A file with the name of a directory above another one. -/
def clash : List FileInput :=
  [⟨units "a", some (units "x"), none, none⟩, ⟨units "a/b", some (units "y"), none, none⟩]

/-- A file with a NUL in its name. -/
def nulName : List FileInput := [⟨units "a\x00b", some (units "eA=="), some (units "base64"), none⟩]

def acceptedFiles (body : List FileInput) : List FileInput := (body.mapM parseFileInput).getD []

theorem accepted_not_materialised :
    (accept clash = some (acceptedFiles clash, 2) ∧ (∀ f ∈ acceptedFiles clash, f.ref = none) ∧
      ¬ Materialises (acceptedFiles clash) 2) ∧
    accept nulName = some (acceptedFiles nulName, 1) ∧
      (∀ f ∈ acceptedFiles nulName, f.ref = none) ∧ ¬ Materialises (acceptedFiles nulName) 1 := by
  refine ⟨⟨by decide, by decide, ?_⟩, by decide, by decide, ?_⟩
  · rintro ⟨inputs, contents, entries, hinputs, -, -, htar, hcons⟩
    rw [unmarshal_stringify, Option.some.injEq] at hinputs
    subst hinputs
    have hentries : buildFilesTar ((acceptedFiles clash).map received) =
        .ok [fileEntry ['a'] [0x78], dirEntry ['a'], fileEntry ['a', '/', 'b'] [0x79]] := by
      decide
    rw [hentries, Except.ok.injEq] at htar
    subst htar
    exact hcons ['a'] [0x78] (by decide) (by decide)
  · rintro ⟨inputs, contents, entries, hinputs, -, -, htar, -⟩
    rw [unmarshal_stringify, Option.some.injEq] at hinputs
    subst hinputs
    have herror : buildFilesTar ((acceptedFiles nulName).map received) =
        .error (.header ['a', '\x00', 'b']) := by
      decide
    rw [herror] at htar
    cases htar

/-- Files side by side and one below a directory of its own. -/
def sideBySide : List FileInput :=
  [⟨units "main.py", some (units "x"), none, none⟩,
    ⟨units "data//./in.bin", some (units "eHk="), some (units "base64"), none⟩]

theorem materialises_iff_sideBySide : Materialises (acceptedFiles sideBySide) 3 := by
  have haccept : accept sideBySide = some (acceptedFiles sideBySide, 3) := by decide
  apply (materialises_iff haccept (by decide)).mpr
  have hpaths : ∀ f ∈ acceptedFiles sideBySide,
      sanitizeWorkspacePath f.name = .ok (units "main.py") ∨
        sanitizeWorkspacePath f.name = .ok (units "data/in.bin") := by
    decide
  constructor
  · decide
  · intro f hf g hg p q hp hq
    rcases hpaths f hf with hf | hf <;> rcases hpaths g hg with hg | hg <;>
      (rw [hf] at hp; rw [hg] at hq; cases hp; cases hq; decide)

end CodeRunner.Api.Handover
