import CodeRunner.Lib.Dumps
import CodeRunner.Relay.Reader
import CodeRunner.Zygote.Hello
import CodeRunner.Zygote.Job

/-! # The payloads of the relay

Worker and agent describe a job to each other in JSON, the one through `json.Marshal` and
`json.Unmarshal`, the other through `json.loads` and `json.dumps`. What either side writes, the
other reads as it was meant.
-/

namespace CodeRunner.Zygote

open Json Relay

def utf8 (s : String) : List UInt8 := Utf8.encode s.toList

/-- The encoding has `omitempty`. -/
def HelloFile.doc (f : HelloFile) : Doc (List UInt8) :=
  .obj ([(utf8 "name", .str (utf8 f.name)), (utf8 "content", .str (utf8 f.content))] ++
    if f.encoding = "" then [] else [(utf8 "encoding", .str (utf8 f.encoding))])

def HelloPayload.doc (p : HelloPayload) : Doc (List UInt8) :=
  .obj [(utf8 "jobId", .str (utf8 p.jobId)), (utf8 "entrypoint", .str (utf8 p.entrypoint)),
    (utf8 "files", .arr (p.files.map HelloFile.doc)), (utf8 "uid", .int p.uid.toInt),
    (utf8 "memMaxBytes", .int p.memMaxBytes.toInt), (utf8 "pidsMax", .int p.pidsMax.toInt),
    (utf8 "tmpfsBytes", .int p.tmpfsBytes.toInt)]

def HelloPayload.marshal (p : HelloPayload) : List UInt8 := p.doc.write marshalLayout marshalStyle

/-- `json.loads(payload.decode())`, none where it raises. Python also reads `NaN` and the infinities
and keeps half of an escaped pair, and `json.Marshal` writes none of these. -/
def loads (payload : List UInt8) : Option Value :=
  if Utf8.Valid payload then parse payload else none

/-- The value of a key of a dict: of several members with the key the last one counts. -/
def get (members : List (List UInt8 × Value)) (key : String) : Option Value :=
  members.reverse.lookup (utf8 key)

def strValue : Value → Option String
  | .str text => some (String.ofList (Utf8.decode text))
  | _ => none

def intValue : Value → Option ℤ
  | .num text =>
    let negative : Bool := text.head? = some 0x2D
    let digits := if negative then text.tail else text
    let n : ℕ := digits.foldl (fun n b => n * 10 + (b.toNat - 0x30)) 0
    if digits.all isDigit then some (if negative then -n else n) else none
  | _ => none

/-- A key that is absent, or has a value of the right kind; the outer none is any other value. -/
def field {α : Type} (kind : Value → Option α) (members : List (List UInt8 × Value))
    (key : String) : Option (Option α) :=
  match get members key with
  | none => some none
  | some v => (kind v).map some

def fileValue : Value → Option HelloFile
  | .obj members => do
    let name ← field strValue members "name"
    let content ← field strValue members "content"
    let encoding ← field strValue members "encoding"
    return ⟨name.getD "", content.getD "", encoding.getD ""⟩
  | _ => none

def filesValue : Value → Option (List HelloFile)
  | .arr items => items.mapM fileValue
  | _ => none

/-- The HELLO of a payload, none where it is no dict or a value is of another kind. -/
def loadsHello (payload : List UInt8) : Option Hello :=
  match loads payload with
  | some (.obj members) => do
    let jobId ← field strValue members "jobId"
    let entrypoint ← field strValue members "entrypoint"
    let files ← field filesValue members "files"
    let uid ← field intValue members "uid"
    let memMaxBytes ← field intValue members "memMaxBytes"
    let pidsMax ← field intValue members "pidsMax"
    let tmpfsBytes ← field intValue members "tmpfsBytes"
    return ⟨jobId, entrypoint, files, uid, memMaxBytes, pidsMax, tmpfsBytes⟩
  | _ => none

structure StartedPayload where
  realPid : ℤ
  cgroupEnforced : Bool
  deriving DecidableEq, Repr

def StartedPayload.member (key : List UInt8) : Setter StartedPayload := fun v s =>
  if named "realpid" key then
    ({ s with realPid := (setInt v s.realPid).1 }, (setInt v s.realPid).2)
  else if named "cgroupEnforced" key then
    ({ s with cgroupEnforced := (setBool v s.cgroupEnforced).1 }, (setBool v s.cgroupEnforced).2)
  else (s, true)

variable {p : HelloPayload}

theorem text_utf8 (s : String) : marshalStyle.text (utf8 s) = utf8 s := by
  rw [marshalStyle_text, utf8, Utf8.decode_encode]

theorem loads_write {d : Doc (List UInt8)} (h : d.depth ≤ maxDepth) :
    loads (d.write marshalLayout marshalStyle) = some (d.value marshalStyle) := by
  rw [loads, if_pos (Doc.valid_write _ _ d), Doc.parse_write _ _ h]

theorem strValue_utf8 (s : String) : strValue (.str (utf8 s)) = some s := by
  rw [strValue, utf8, Utf8.decode_encode, String.ofList_toList]

theorem intValue_decimal (n : ℤ) : intValue (.num (decimal n)) = some n := by
  have hall : (digits n.natAbs).all Json.isDigit = true := List.all_eq_true.mpr (isDigit_digits _)
  have hvalue : (if n < 0 then -(n.natAbs : ℤ) else n.natAbs) = n := by
    split <;> omega
  unfold intValue
  simp only [decide_eq_true_eq]
  rw [unsigned_decimal, foldl_digits]
  simp only [head_decimal, hvalue]
  exact if_pos hall

theorem field_of_get {α : Type} {kind : Value → Option α} {members : List (List UInt8 × Value)}
    {key : String} {v : Value} {x : α} (h : get members key = some v) (hx : kind v = some x) :
    field kind members key = some (some x) := by
  rw [field, h]
  exact congrArg (Option.map some) hx

theorem fileValue_doc (f : HelloFile) : fileValue (f.doc.value marshalStyle) = some f := by
  by_cases hempty : f.encoding = ""
  · have hvalue : f.doc.value marshalStyle =
        .obj [(utf8 "name", .str (utf8 f.name)), (utf8 "content", .str (utf8 f.content))] := by
      rw [HelloFile.doc, if_pos hempty, List.append_nil]
      simp only [Doc.value, Doc.memberValues, text_utf8]
    rw [hvalue, fileValue, field_of_get rfl (strValue_utf8 _), field_of_get rfl (strValue_utf8 _)]
    obtain ⟨name, content, encoding⟩ := f
    obtain rfl : encoding = "" := hempty
    rfl
  · have hvalue : f.doc.value marshalStyle =
        .obj [(utf8 "name", .str (utf8 f.name)), (utf8 "content", .str (utf8 f.content)),
          (utf8 "encoding", .str (utf8 f.encoding))] := by
      rw [HelloFile.doc, if_neg hempty]
      simp only [List.cons_append, List.nil_append, Doc.value, Doc.memberValues, text_utf8]
    rw [hvalue, fileValue, field_of_get rfl (strValue_utf8 _), field_of_get rfl (strValue_utf8 _),
      field_of_get rfl (strValue_utf8 _)]
    rfl

theorem filesValue_docs (files : List HelloFile) :
    filesValue (.arr (Doc.itemValues marshalStyle (files.map HelloFile.doc))) = some files := by
  rw [filesValue]
  induction files with
  | nil => rfl
  | cons f files ih =>
    rw [List.map_cons, Doc.itemValues, List.mapM_cons, fileValue_doc, ih]
    rfl

theorem depth_file (f : HelloFile) : f.doc.depth = 1 := by
  rw [HelloFile.doc]
  split <;> rfl

theorem depth_hello : p.doc.depth ≤ maxDepth := by
  have hfiles : Doc.itemsDepth (p.files.map HelloFile.doc) ≤ 1 := by
    induction p.files with
    | nil => exact Nat.zero_le 1
    | cons f files ih =>
      rw [List.map_cons, Doc.itemsDepth, depth_file]
      exact Nat.max_le.mpr ⟨Nat.le_refl 1, ih⟩
  simp only [HelloPayload.doc, Doc.depth, Doc.membersDepth, maxDepth]
  omega

theorem loadsHello_marshal (p : HelloPayload) : loadsHello p.marshal = some p.toHello := by
  have hvalue : p.doc.value marshalStyle =
      .obj [(utf8 "jobId", .str (utf8 p.jobId)), (utf8 "entrypoint", .str (utf8 p.entrypoint)),
        (utf8 "files", .arr (Doc.itemValues marshalStyle (p.files.map HelloFile.doc))),
        (utf8 "uid", .num (decimal p.uid.toInt)),
        (utf8 "memMaxBytes", .num (decimal p.memMaxBytes.toInt)),
        (utf8 "pidsMax", .num (decimal p.pidsMax.toInt)),
        (utf8 "tmpfsBytes", .num (decimal p.tmpfsBytes.toInt))] := by
    simp only [HelloPayload.doc, Doc.value, Doc.memberValues, text_utf8]
  rw [loadsHello, HelloPayload.marshal, loads_write depth_hello, hvalue]
  dsimp only
  rw [field_of_get rfl (strValue_utf8 _), field_of_get rfl (strValue_utf8 _),
    field_of_get rfl (filesValue_docs _), field_of_get rfl (intValue_decimal _),
    field_of_get rfl (intValue_decimal _), field_of_get rfl (intValue_decimal _),
    field_of_get rfl (intValue_decimal _)]
  rfl

theorem setInt_decimal (n : ℕ) (old : ℤ) :
    setInt (.num (decimal n)) old = if n < 2 ^ 63 then ((n : ℤ), true) else (old, false) := by
  rw [setInt, parseInt_decimal]
  by_cases hlt : n < 2 ^ 63
  · rw [if_pos hlt, if_pos (by omega)]
    rfl
  · rw [if_neg hlt, if_neg (by omega)]
    rfl

theorem jsonBytes_append (s t : String) : jsonBytes (s ++ t) = jsonBytes s ++ jsonBytes t := by
  rw [jsonBytes, String.toList_append, List.map_append]
  rfl

theorem jsonBytes_repr (n : ℕ) : jsonBytes n.repr = decimal n := by
  rw [decimal, if_neg (by omega), List.nil_append, Int.natAbs_natCast]
  rfl

theorem jsonBytes_bool (b : Bool) : jsonBytes (jsonBool b) = literal (some b) := by
  cases b <;> rfl

theorem unicodeEscape_bytes (n : ℕ) :
    (unicodeEscape n).map (fun c => UInt8.ofNat c.toNat) = escapeUnit n := by
  have hall : ∀ m < 16, UInt8.ofNat (Hex.digit m).toNat = hexDigit m := by decide
  have hdigit : ∀ m, UInt8.ofNat (Hex.digit (m % 16)).toNat = hexDigit (m % 16) :=
    fun m => hall _ (Nat.mod_lt m (by decide))
  simp only [unicodeEscape, escapeUnit, List.map_cons, List.map_nil, hdigit]
  rfl

/-- The escape of `json.dumps` is a piece of its style. -/
theorem jsonEscape_bytes (c : Char) :
    (jsonEscape c).map (fun c => UInt8.ofNat c.toNat) = (dumpPiece c).write := by
  unfold dumpPiece
  split
  · next e he =>
    have hall : ∀ ce ∈ shortEscapes,
        (jsonEscape ce.1).map (fun c => UInt8.ofNat c.toNat) = [0x5C, ce.2] := by decide
    obtain ⟨l₁, l₂, heq, -⟩ := List.lookup_eq_some_iff.mp he
    exact hall (c, e) (by rw [heq]; simp)
  · next hnone =>
    have hne : ∀ ce ∈ shortEscapes, c ≠ ce.1 := by
      intro ce hce
      simpa using List.lookup_eq_none_iff.mp hnone ce hce
    have hback : c.toNat ≠ 0x08 := fun h => hne ('\x08', 0x62) (by decide) (Char.toNat_inj.mp h)
    have hfeed : c.toNat ≠ 0x0C := fun h => hne ('\x0C', 0x66) (by decide) (Char.toNat_inj.mp h)
    rw [jsonEscape,
      if_neg (not_or.mpr ⟨hne ('"', 0x22) (by decide), hne ('\\', 0x5C) (by decide)⟩),
      if_neg (hne ('\n', 0x6E) (by decide)), if_neg (hne ('\r', 0x72) (by decide)),
      if_neg (hne ('\t', 0x74) (by decide)), if_neg hback, if_neg hfeed]
    split
    · next hc =>
      rcases Utf8.encodeChar_ascii c with ⟨-, heq⟩ | ⟨hge, -⟩
      · rw [Piece.write, heq]
        rfl
      · omega
    · split
      · next hlt =>
        have hnat : (UInt16.ofNat c.toNat).toNat = c.toNat := by
          rw [UInt16.toNat_ofNat']
          omega
        rw [unicodeEscape_bytes, Piece.write, hnat]
      · obtain ⟨hhi, -, hlo⟩ := toNat_halves c
        rw [List.map_append, unicodeEscape_bytes, unicodeEscape_bytes, Piece.write, hhi, hlo]

theorem jsonBytes_escape (text : String) :
    jsonBytes (.ofList (text.toList.flatMap jsonEscape)) = dumpStyle.raw text.toList := by
  rw [jsonBytes, String.toList_ofList, List.map_flatMap]
  simp only [jsonEscape_bytes]
  exact (List.flatMap_map _ _ _).symm

/-! Each frame of `send_json` is a document in the style of `json.dumps`. -/

def startedDoc (realpid : ℕ) (cgroupEnforced : Bool) : Doc (List Char) :=
  .obj [("realpid".toList, .int realpid), ("cgroupEnforced".toList, .bool cgroupEnforced)]

def cpuDoc (r : CpuReading) : Doc (List Char) := .obj [("cpuMs".toList, .int r.ms)]

def statusDoc : Option UInt8 → Doc (List Char)
  | none => .null
  | some n => .int n.toNat

def exitDoc (r : ExitStatus) (artifactsTruncated : Bool) : Doc (List Char) :=
  .obj [("exitCode".toList, statusDoc r.exitCode), ("signal".toList, statusDoc r.signal),
    ("artifactsTruncated".toList, .bool artifactsTruncated)]

def errorDoc (text : String) : Doc (List Char) :=
  .obj [("exitCode".toList, .null), ("signal".toList, .null), ("error".toList, .str text.toList)]

def dumps (d : Doc (List Char)) : List UInt8 := d.write dumpLayout dumpStyle

theorem startedFrame_payload (realpid : ℕ) (cgroupEnforced : Bool) :
    (startedFrame realpid cgroupEnforced).payload = dumps (startedDoc realpid cgroupEnforced) := by
  have hpid : jsonBytes "\x7b\"realpid\": " =
      0x7B :: dumpStyle.quote "realpid".toList ++ [0x3A, 0x20] := by decide
  have hleaf : jsonBytes ", \"cgroupEnforced\": " =
      [0x2C, 0x20] ++ dumpStyle.quote "cgroupEnforced".toList ++ [0x3A, 0x20] := by decide
  have hclose : jsonBytes "\x7d" = [0x7D] := by decide
  simp only [startedFrame, jsonBytes_append, hpid, jsonBytes_repr, hleaf, jsonBytes_bool, hclose]
  simp [dumps, startedDoc, Doc.write, Doc.writeMembers, dumpLayout]

theorem cpuFrame_payload (r : CpuReading) : (cpuFrame r).payload = dumps (cpuDoc r) := by
  have hkey : jsonBytes "\x7b\"cpuMs\": " =
      0x7B :: dumpStyle.quote "cpuMs".toList ++ [0x3A, 0x20] := by decide
  have hclose : jsonBytes "\x7d" = [0x7D] := by decide
  simp only [cpuFrame, jsonBytes_append, hkey, jsonBytes_repr, hclose]
  simp [dumps, cpuDoc, Doc.write, Doc.writeMembers, dumpLayout]

theorem statusDoc_write (n : Option UInt8) :
    (statusDoc n).write dumpLayout dumpStyle = jsonBytes (jsonNumber n) := by
  cases n with
  | none => decide
  | some n => exact (jsonBytes_repr n.toNat).symm

theorem exitFrame_payload (r : ExitStatus) (artifactsTruncated : Bool) :
    (exitFrame r artifactsTruncated).payload = dumps (exitDoc r artifactsTruncated) := by
  have hcode : jsonBytes "\x7b\"exitCode\": " =
      0x7B :: dumpStyle.quote "exitCode".toList ++ [0x3A, 0x20] := by decide
  have hsignal : jsonBytes ", \"signal\": " =
      [0x2C, 0x20] ++ dumpStyle.quote "signal".toList ++ [0x3A, 0x20] := by decide
  have htruncated : jsonBytes ", \"artifactsTruncated\": " =
      [0x2C, 0x20] ++ dumpStyle.quote "artifactsTruncated".toList ++ [0x3A, 0x20] := by decide
  have hclose : jsonBytes "\x7d" = [0x7D] := by decide
  simp only [exitFrame, jsonBytes_append, hcode, hsignal, htruncated, jsonBytes_bool, hclose,
    ← statusDoc_write]
  simp [dumps, exitDoc, Doc.write, Doc.writeMembers, dumpLayout]

theorem errorFrame_payload (text : String) :
    (errorFrame text).payload = dumps (errorDoc text) := by
  have hopen : jsonBytes "\x7b\"exitCode\": null, \"signal\": null, \"error\": \"" =
      0x7B :: dumpStyle.quote "exitCode".toList ++ [0x3A, 0x20] ++ literal none ++ [0x2C, 0x20] ++
        dumpStyle.quote "signal".toList ++ [0x3A, 0x20] ++ literal none ++ [0x2C, 0x20] ++
        dumpStyle.quote "error".toList ++ [0x3A, 0x20, 0x22] := by decide
  have hclose : jsonBytes "\"\x7d" = [0x22, 0x7D] := by decide
  simp only [errorFrame, jsonBytes_append, hopen, jsonBytes_escape, hclose]
  simp [dumps, errorDoc, Doc.write, Doc.writeMembers, dumpLayout, Style.quote]

@[simp] theorem named_utf8 (key : String) : named key (utf8 key) = true := decide_eq_true rfl

theorem parse_dumps {members : List (List Char × Doc (List Char))} {payload : List UInt8}
    (hpayload : payload = dumps (.obj members)) (hdepth : Doc.membersDepth members = 0) :
    parse payload = some (.obj (Doc.memberValues dumpStyle members)) := by
  have hle : (Doc.obj members).depth ≤ maxDepth := by
    rw [Doc.depth, hdepth]
    decide
  rw [hpayload]
  exact Doc.parse_write _ _ hle

theorem value_status (n : Option UInt8) (old : Option ℤ) :
    setIntPtr ((statusDoc n).value dumpStyle) old = (n.map fun n => (n.toNat : ℤ), true) := by
  cases n with
  | none => rfl
  | some n =>
    have hlt := n.toNat_lt
    change (some (setInt (.num (decimal n.toNat)) (old.getD 0)).1,
      (setInt (.num (decimal n.toNat)) (old.getD 0)).2) = _
    rw [setInt_decimal, if_pos (by omega)]
    rfl

theorem unmarshalCpu_frame (r : CpuReading) :
    unmarshalCpu (cpuFrame r).payload = if r.ms < 2 ^ 63 then some (r.ms : ℤ) else none := by
  have hparse : parse (cpuFrame r).payload = some (.obj [(utf8 "cpuMs", .num (decimal r.ms))]) := by
    rw [parse_dumps (cpuFrame_payload r) rfl, Doc.memberValues, dumpStyle_text]
    rfl
  simp only [unmarshalCpu, unmarshal, hparse, List.foldl_cons, List.foldl_nil, named_utf8,
    if_true, Bool.true_and, setInt_decimal]
  split <;> rfl

theorem depth_status (n : Option UInt8) : (statusDoc n).depth = 0 := by cases n <;> rfl

theorem unmarshalExit_frame (r : ExitStatus) (artifactsTruncated : Bool) :
    unmarshalExit (exitFrame r artifactsTruncated).payload =
      ⟨r.exitCode.map fun n => (n.toNat : ℤ), r.signal.map fun n => (n.toNat : ℤ), [],
        artifactsTruncated⟩ := by
  have hparse : parse (exitFrame r artifactsTruncated).payload =
      some (.obj [(utf8 "exitCode", (statusDoc r.exitCode).value dumpStyle),
        (utf8 "signal", (statusDoc r.signal).value dumpStyle),
        (utf8 "artifactsTruncated", .bool artifactsTruncated)]) := by
    rw [parse_dumps (exitFrame_payload r artifactsTruncated)
      (by simp [Doc.membersDepth, depth_status, Doc.depth])]
    simp only [Doc.memberValues, dumpStyle_text]
    rfl
  have hsignal : named "exitCode" (utf8 "signal") = false := by decide
  have htruncated : named "exitCode" (utf8 "artifactsTruncated") = false ∧
      named "signal" (utf8 "artifactsTruncated") = false ∧
      named "error" (utf8 "artifactsTruncated") = false := by decide
  simp [unmarshalExit, unmarshal, hparse, ExitPayload.member, hsignal, htruncated, value_status,
    setBool]

theorem unmarshalExit_error (text : String) :
    unmarshalExit (errorFrame text).payload = ⟨none, none, utf8 text, false⟩ := by
  have hparse : parse (errorFrame text).payload =
      some (.obj [(utf8 "exitCode", .null), (utf8 "signal", .null),
        (utf8 "error", .str (utf8 text))]) := by
    rw [parse_dumps (errorFrame_payload text) rfl]
    simp only [Doc.memberValues, Doc.value, dumpStyle_text]
    rfl
  have hsignal : named "exitCode" (utf8 "signal") = false := by decide
  have herror : named "exitCode" (utf8 "error") = false ∧
      named "signal" (utf8 "error") = false := by decide
  simp [unmarshalExit, unmarshal, hparse, ExitPayload.member, hsignal, herror, setIntPtr,
    setString]

theorem unmarshal_started (realpid : ℕ) (cgroupEnforced : Bool) :
    unmarshal StartedPayload.member ⟨0, false⟩ (startedFrame realpid cgroupEnforced).payload =
      if realpid < 2 ^ 63 then (⟨realpid, cgroupEnforced⟩, true)
      else (⟨0, cgroupEnforced⟩, false) := by
  have hparse : parse (startedFrame realpid cgroupEnforced).payload =
      some (.obj [(utf8 "realpid", .num (decimal realpid)),
        (utf8 "cgroupEnforced", .bool cgroupEnforced)]) := by
    rw [parse_dumps (startedFrame_payload realpid cgroupEnforced) rfl]
    simp only [Doc.memberValues, Doc.value, dumpStyle_text]
    rfl
  have hleaf : named "realpid" (utf8 "cgroupEnforced") = false := by decide
  simp only [unmarshal, hparse, List.foldl_cons, List.foldl_nil, StartedPayload.member,
    named_utf8, hleaf, if_true, Bool.false_eq_true, if_false, setInt_decimal, setBool,
    Bool.true_and]
  split <;> rfl

/-- What one side of the relay writes, the other side reads as it was meant: the HELLO of the worker
in the agent, and the frames of the agent in the worker, save for numbers of more than 63 bits. -/
theorem payloads_readBack :
    (∀ p : HelloPayload, loadsHello p.marshal = some p.toHello) ∧
      (∀ realpid cgroupEnforced,
        unmarshal StartedPayload.member ⟨0, false⟩ (startedFrame realpid cgroupEnforced).payload =
          if realpid < 2 ^ 63 then (⟨realpid, cgroupEnforced⟩, true)
          else (⟨0, cgroupEnforced⟩, false)) ∧
      (∀ r : CpuReading, unmarshalCpu (cpuFrame r).payload =
        if r.ms < 2 ^ 63 then some (r.ms : ℤ) else none) ∧
      (∀ r artifactsTruncated, unmarshalExit (exitFrame r artifactsTruncated).payload =
        ⟨r.exitCode.map fun n => (n.toNat : ℤ), r.signal.map fun n => (n.toNat : ℤ), [],
          artifactsTruncated⟩) ∧
      ∀ text, unmarshalExit (errorFrame text).payload = ⟨none, none, utf8 text, false⟩ := by
  refine ⟨loadsHello_marshal, unmarshal_started, unmarshalCpu_frame, unmarshalExit_frame, ?_⟩
  exact unmarshalExit_error

end CodeRunner.Zygote
