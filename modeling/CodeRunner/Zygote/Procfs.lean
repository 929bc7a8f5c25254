import CodeRunner.Lib.Fields
import CodeRunner.Lib.Posix
import CodeRunner.Lib.Utf8

/-! # The mount table and the cgroups of a process

How the agent reads `/proc/self/mountinfo` and `/proc/self/cgroup`. The kernel escapes the blanks of
a path but has a line of its own for each mount and each hierarchy, so both come back as written
when they are UTF-8 and no other blank is in them. The kernel takes any bytes for a name, and the
reading of a file in text mode raises when they are not.
-/

namespace CodeRunner.Zygote

open Fields Posix Utf8

/-- `str.isspace`. -/
def isSpace (c : Char) : Bool :=
  let n := c.toNat
  (9 ≤ n && n ≤ 13) || (28 ≤ n && n ≤ 32) || n = 0x85 || n = 0xA0 || n = 0x1680 ||
    (0x2000 ≤ n && n ≤ 0x200A) || n = 0x2028 || n = 0x2029 || n = 0x202F || n = 0x205F ||
    n = 0x3000

def universalNewlines : List Char → List Char
  | '\r' :: '\n' :: text => '\n' :: universalNewlines text
  | '\r' :: text => '\n' :: universalNewlines text
  | c :: text => c :: universalNewlines text
  | [] => []

def readText (bytes : List UInt8) : Option (List Char) :=
  if damage bytes = 0 then some (universalNewlines (Utf8.decode bytes)) else none

def octalValue (c : Char) : Option ℕ :=
  if '0' ≤ c ∧ c ≤ '7' then some (c.toNat - '0'.toNat) else none

def unescapeMountinfo : List Char → List Char
  | '\\' :: a :: b :: c :: text =>
    match octalValue a, octalValue b, octalValue c with
    | some x, some y, some z => Char.ofNat (64 * x + 8 * y + z) :: unescapeMountinfo text
    | _, _, _ => '\\' :: unescapeMountinfo (a :: b :: c :: text)
  | c :: text => c :: unescapeMountinfo text
  | [] => []

/-- A line of `mount_entry`; none where it raises. -/
def mountLine (want : List Char) (found : Option (List Char × List Char)) (line : List Char) :
    Option (Option (List Char × List Char)) :=
  let fs := fields isSpace line
  match fs.idxOf? ['-'] with
  | none => some found
  | some sep =>
    match fs[sep + 1]? with
    | none => some found
    | some fstype =>
      match fs[3]?, fs[4]? with
      | some root, some point =>
        some (if unescapeMountinfo point = want then some (fstype, unescapeMountinfo root)
          else found)
      | _, _ => none

/-- The type and the root of the mount at a path, or none for `(None, None)`. The outer none is an
exception, and a table that cannot be read is none. -/
def mountEntry (mountinfo : Option (List UInt8)) (path : List Char) :
    Option (Option (List Char × List Char)) :=
  match mountinfo with
  | none => some none
  | some bytes => do
    -- an `OSError` is caught, but a `UnicodeDecodeError` is none
    let text ← readText bytes
    (lines '\n' text).foldlM (mountLine (normpath path)) none

def fsType (mountinfo : Option (List UInt8)) (path : List Char) : Option (Option (List Char)) :=
  (mountEntry mountinfo path).map fun e => e.map Prod.fst

def strip (line : List Char) : List Char := (line.dropWhile isSpace).rdropWhile isSpace

/-- `line.split(":", 2)` into three. -/
def splitColons (line : List Char) : Option (List Char × List Char × List Char) :=
  match line.dropWhile (· ≠ ':') with
  | [] => none
  | _ :: rest =>
    match rest.dropWhile (· ≠ ':') with
    | [] => none
    | _ :: path => some (line.takeWhile (· ≠ ':'), rest.takeWhile (· ≠ ':'), path)

/-- `int` of digits. -/
def readInt (text : List Char) : Option ℕ :=
  if text ≠ [] ∧ text.all Char.isDigit then some (Nat.ofDigitChars 10 text 0) else none

/-- A hierarchy of `read_proc_cgroup`: its controllers and a cgroup's path. -/
abbrev Entry := List (List Char) × List Char

/-- An assignment to a key of a dict, which keeps the place of a key that is there. -/
def assign {κ β : Type} [DecidableEq κ] (k : κ) (v : β) : List (κ × β) → List (κ × β)
  | [] => [(k, v)]
  | (j, u) :: d => if j = k then (k, v) :: d else (j, u) :: assign k v d

def cgroupLine (out : List (ℕ × Entry)) (line : List Char) : Option (List (ℕ × Entry)) :=
  match strip line with
  | [] => some out
  | line =>
    match splitColons line with
    | none => none
    | some (hid, ctrls, cpath) =>
      (readInt hid).map fun hid => assign hid ((ctrls.splitOn ',').filter (· ≠ []), cpath) out

def readProcCgroup (file : Option (List UInt8)) : Option (List (ℕ × Entry)) := do
  let text ← file.bind readText
  (lines '\n' text).foldlM cgroupLine []

def escapeChar (c : Char) : List Char :=
  if c = ' ' then "\\040".toList
  else if c = '\t' then "\\011".toList
  else if c = '\n' then "\\012".toList
  else if c = '\\' then "\\134".toList
  else [c]

def mangle (path : List Char) : List Char := path.flatMap escapeChar

/-- `tail` is the source with the options behind it. -/
structure Mount where
  id : List Char
  parent : List Char
  dev : List Char
  root : List Char
  point : List Char
  options : List Char
  optional : List (List Char)
  fstype : List Char
  tail : List Char
  deriving DecidableEq

namespace Mount

def front (m : Mount) : List (List Char) :=
  [m.id, m.parent, m.dev, mangle m.root, mangle m.point, m.options] ++ m.optional

def line (m : Mount) : List Char :=
  ((m.front ++ [['-'], m.fstype]).flatMap fun w => w ++ [' ']) ++ m.tail

/-- No field is blank or has a blank in it that the kernel does not escape, none but the separator
is a dash, and the root of a cgroupfs is a cgroup. -/
structure WellFormed (m : Mount) : Prop where
  words : ∀ w ∈ [m.id, m.parent, m.dev, m.options] ++ m.optional, IsField isSpace w ∧ w ≠ ['-']
  paths : ∀ w ∈ [m.root, m.point],
    w ≠ [] ∧ w ≠ ['-'] ∧ ∀ c ∈ w, isSpace c = true → c = ' ' ∨ c = '\t' ∨ c = '\n'
  fstype : IsField isSpace m.fstype
  tail : '\n' ∉ m.tail ∧ '\r' ∉ m.tail
  cgroup : m.fstype = "cgroup".toList ∨ m.fstype = "cgroup2".toList →
    ∃ r, Normal r ∧ m.root = '/' :: render r

end Mount

/-- `/proc/self/mountinfo`. -/
def mountTable (ms : List Mount) : List UInt8 :=
  Utf8.encode (ms.flatMap fun m => m.line ++ ['\n'])

/-- The mount that a path names, of those stacked on it. -/
def top (ms : List Mount) (path : List Char) : Option Mount :=
  (ms.filter fun m => m.point = path).getLast?

variable {bytes : List UInt8} {text path want : List Char}
  {found : Option (List Char × List Char)} {m : Mount} {ms : List Mount} {c : Char}

theorem readText_encode : readText (Utf8.encode text) = some (universalNewlines text) := by
  rw [readText, if_pos (valid_iff_damage.mp ⟨text, rfl⟩), decode_encode]

theorem readText_invalid (h : ¬ Valid bytes) : readText bytes = none := by
  rw [readText, if_neg (mt valid_iff_damage.mpr h)]

theorem universalNewlines_append_left (h : '\r' ∉ text) (rest : List Char) :
    universalNewlines (text ++ rest) = text ++ universalNewlines rest := by
  induction text with
  | nil => rfl
  | cons c text ih =>
    obtain ⟨hc, htext⟩ := not_or.mp (mt List.mem_cons.mpr h)
    rw [List.cons_append, universalNewlines, ih htext, List.cons_append]
    · rintro _ rfl
      exact absurd rfl hc
    · rintro rfl
      exact absurd rfl hc

theorem universalNewlines_eq (h : '\r' ∉ text) : universalNewlines text = text := by
  have happend := universalNewlines_append_left h []
  rwa [List.append_nil, universalNewlines, List.append_nil] at happend

theorem unescapeMountinfo_cons (h : c ≠ '\\') :
    unescapeMountinfo (c :: text) = c :: unescapeMountinfo text := by
  rw [unescapeMountinfo]
  rintro a b d rest rfl -
  exact h rfl

theorem unescapeMountinfo_escapeChar (c : Char) :
    unescapeMountinfo (escapeChar c ++ text) = c :: unescapeMountinfo text := by
  unfold escapeChar
  split_ifs with hspace htab hnl hslash
  · subst hspace
    rfl
  · subst htab
    rfl
  · subst hnl
    rfl
  · subst hslash
    rfl
  · exact unescapeMountinfo_cons hslash

theorem unescapeMountinfo_mangle (path : List Char) : unescapeMountinfo (mangle path) = path := by
  induction path with
  | nil => rfl
  | cons c path ih => rw [mangle, List.flatMap_cons, unescapeMountinfo_escapeChar, ← mangle, ih]

theorem isSpace_of_mem_escapeChar {d : Char} (hc : isSpace c = true → c = ' ' ∨ c = '\t' ∨ c = '\n')
    (hd : d ∈ escapeChar c) : isSpace d = false := by
  have hescape : ∀ e ∈ ["\\040", "\\011", "\\012", "\\134"], IsField isSpace e.toList := by
    decide +kernel
  unfold escapeChar at hd
  split_ifs at hd with hspace htab hnl hslash
  · exact (hescape _ (.head _)).2 d hd
  · exact (hescape _ (.tail _ (.head _))).2 d hd
  · exact (hescape _ (.tail _ (.tail _ (.head _)))).2 d hd
  · exact (hescape _ (.tail _ (.tail _ (.tail _ (.head _))))).2 d hd
  · obtain rfl := List.mem_singleton.mp hd
    by_contra h
    rcases hc (by simpa using h) with h | h | h
    · exact hspace h
    · exact htab h
    · exact hnl h

theorem escapeChar_ne_nil (c : Char) : escapeChar c ≠ [] := by
  unfold escapeChar
  split_ifs <;> simp

theorem isField_mangle (hne : path ≠ [])
    (hpath : ∀ c ∈ path, isSpace c = true → c = ' ' ∨ c = '\t' ∨ c = '\n') :
    IsField isSpace (mangle path) := by
  constructor
  · obtain ⟨c, path, rfl⟩ := List.exists_cons_of_ne_nil hne
    rw [mangle, List.flatMap_cons]
    exact List.append_ne_nil_of_left_ne_nil (escapeChar_ne_nil c) _
  · intro d hd
    obtain ⟨c, hc, hd⟩ := List.mem_flatMap.mp hd
    exact isSpace_of_mem_escapeChar (hpath c hc) hd

theorem mangle_ne_dash (h : path ≠ ['-']) : mangle path ≠ ['-'] := by
  rintro hdash
  have hread := congrArg unescapeMountinfo hdash
  rw [unescapeMountinfo_mangle] at hread
  exact h hread

theorem isField_dash : IsField isSpace ['-'] := by decide +kernel

theorem Mount.WellFormed.front (hm : m.WellFormed) :
    ∀ w ∈ m.front, IsField isSpace w ∧ w ≠ ['-'] := by
  have hpath : ∀ w ∈ [m.root, m.point], IsField isSpace (mangle w) ∧ mangle w ≠ ['-'] := by
    intro w hw
    obtain ⟨hne, hdash, hspace⟩ := hm.paths w hw
    exact ⟨isField_mangle hne hspace, mangle_ne_dash hdash⟩
  intro w hw
  simp only [Mount.front, List.cons_append, List.nil_append, List.mem_cons] at hw
  rcases hw with rfl | rfl | rfl | rfl | rfl | hw
  · exact hm.words _ (by simp)
  · exact hm.words _ (by simp)
  · exact hm.words _ (by simp)
  · exact hpath _ (by simp)
  · exact hpath _ (by simp)
  · exact hm.words w (by simpa using .inr (.inr (.inr hw)))

theorem Mount.WellFormed.fields_line (hm : m.WellFormed) :
    fields isSpace m.line = m.front ++ ['-'] :: m.fstype :: fields isSpace m.tail := by
  have hall : ∀ w ∈ m.front ++ [['-'], m.fstype], IsField isSpace w := by
    intro w hw
    rcases List.mem_append.mp hw with hw | hw
    · exact (hm.front w hw).1
    · rcases List.mem_pair.mp hw with rfl | rfl
      · exact isField_dash
      · exact hm.fstype
  rw [Mount.line, fields_flatMap_append hall (by decide), List.append_assoc]
  rfl

theorem idxOf?_append_cons {xs ys : List (List Char)} {w : List Char} (h : w ∉ xs) :
    (xs ++ w :: ys).idxOf? w = some xs.length := by
  induction xs with
  | nil => simp [List.idxOf?_cons]
  | cons x xs ih =>
    obtain ⟨hx, hxs⟩ := not_or.mp (mt List.mem_cons.mpr h)
    rw [List.cons_append, List.idxOf?_cons, if_neg (by simpa using Ne.symm hx), ih hxs]
    rfl

theorem mountLine_line (hm : m.WellFormed) :
    mountLine want found m.line =
      some (if m.point = want then some (m.fstype, m.root) else found) := by
  have hdash : (m.front ++ ['-'] :: m.fstype :: fields isSpace m.tail).idxOf? ['-'] =
      some m.front.length := idxOf?_append_cons fun h => (hm.front _ h).2 rfl
  have hfstype : (m.front ++ ['-'] :: m.fstype :: fields isSpace m.tail)[m.front.length + 1]? =
      some m.fstype := by
    rw [List.getElem?_append_right (Nat.le_add_right _ 1), Nat.add_sub_cancel_left]
    rfl
  simp only [mountLine, hm.fields_line, hdash, hfstype]
  simp [Mount.front, unescapeMountinfo_mangle]

theorem Mount.WellFormed.not_mem_line (hm : m.WellFormed) (hc : isSpace c = true) (hblank : c ≠ ' ')
    (htail : c ∉ m.tail) : c ∉ m.line := by
  intro hmem
  rcases List.mem_append.mp hmem with hmem | hmem
  · obtain ⟨w, hw, hmem⟩ := List.mem_flatMap.mp hmem
    rcases List.mem_append.mp hmem with hmem | hmem
    · have hfield : IsField isSpace w := by
        rcases List.mem_append.mp hw with hw | hw
        · exact (hm.front w hw).1
        · rcases List.mem_pair.mp hw with rfl | rfl
          · exact isField_dash
          · exact hm.fstype
      have hnot := hfield.2 c hmem
      rw [hc] at hnot
      cases hnot
    · exact hblank (List.mem_singleton.mp hmem)
  · exact htail hmem

theorem top_cons :
    top (m :: ms) path = (top ms path).or (if m.point = path then some m else none) := by
  by_cases h : m.point = path
  · rw [top, List.filter_cons_of_pos (by simpa using h), List.getLast?_cons, if_pos h, top]
    cases (ms.filter fun m => m.point = path).getLast? <;> rfl
  · rw [top, List.filter_cons_of_neg (by simpa using h), if_neg h, Option.or_none, top]

theorem foldlM_mountLine (h : ∀ m ∈ ms, m.WellFormed) :
    (ms.map Mount.line).foldlM (mountLine want) found =
      some (((top ms want).map fun m => (m.fstype, m.root)).or found) := by
  induction ms generalizing found with
  | nil => rfl
  | cons m ms ih =>
    rw [List.map_cons, List.foldlM_cons, mountLine_line (h m List.mem_cons_self),
      Option.bind_eq_bind, Option.bind_some, ih fun m hm => h m (List.mem_cons_of_mem _ hm),
      top_cons]
    cases top ms want with
    | some m' => rfl
    | none => by_cases hpoint : m.point = want <;> simp [hpoint]

theorem mountEntry_mountTable (h : ∀ m ∈ ms, m.WellFormed) :
    mountEntry (some (mountTable ms)) path =
      some ((top ms (normpath path)).map fun m => (m.fstype, m.root)) := by
  have hcr : '\r' ∉ ms.flatMap fun m => m.line ++ ['\n'] := by
    intro hmem
    obtain ⟨m, hm, hmem⟩ := List.mem_flatMap.mp hmem
    rcases List.mem_append.mp hmem with hmem | hmem
    · exact (h m hm).not_mem_line (by decide) (by decide) (h m hm).tail.2 hmem
    · exact absurd (List.mem_singleton.mp hmem) (by decide)
  have hlines : lines '\n' (ms.flatMap fun m => m.line ++ ['\n']) = ms.map Mount.line := by
    rw [← List.flatMap_map Mount.line fun l => l ++ ['\n']]
    apply lines_flatMap
    intro l hl
    obtain ⟨m, hm, rfl⟩ := List.mem_map.mp hl
    exact (h m hm).not_mem_line (by decide) (by decide) (h m hm).tail.1
  rw [mountEntry, mountTable, readText_encode, Option.bind_eq_bind, Option.bind_some,
    universalNewlines_eq hcr, hlines, foldlM_mountLine h, Option.or_none]

/-- A table that is not UTF-8 makes `mount_entry` raise, at whatever mount the damage is. -/
theorem mountEntry_invalid (h : ¬ Valid bytes) : mountEntry (some bytes) path = none := by
  rw [mountEntry, readText_invalid h]
  rfl

/-- A hierarchy with its controllers, none for the unified one, and the components of the agent's
cgroup in it. -/
structure Hierarchy where
  id : ℕ
  ctrls : List (List Char)
  path : List (List Char)
  deriving DecidableEq

namespace Hierarchy

def line (h : Hierarchy) : List Char :=
  h.id.repr.toList ++ ':' :: ([','].intercalate h.ctrls ++ ':' :: '/' :: render h.path)

def entry (h : Hierarchy) : Entry := (h.ctrls, '/' :: render h.path)

/-- The names of controllers are plain, and the path has no newlines and no blank at its end. -/
structure WellFormed (h : Hierarchy) : Prop where
  ctrls : ∀ c ∈ h.ctrls, IsName c ∧ ∀ d ∈ c, d ≠ ',' ∧ d ≠ ':' ∧ isSpace d = false
  path : Normal h.path
  newline : '\n' ∉ render h.path ∧ '\r' ∉ render h.path
  last : ∀ c, (render h.path).getLast? = some c → isSpace c = false

end Hierarchy

/-- `/proc/self/cgroup`. -/
def cgroupTable (hs : List Hierarchy) : List UInt8 :=
  Utf8.encode (hs.flatMap fun h => h.line ++ ['\n'])

variable {h : Hierarchy} {hs : List Hierarchy} {out : List (ℕ × Entry)}

theorem isDigit_of_mem_repr {n : ℕ} (hc : c ∈ n.repr.toList) : c.isDigit = true := by
  rw [Nat.toList_repr] at hc
  exact Nat.isDigit_of_mem_toDigits (by decide) (by decide) hc

theorem isSpace_of_isDigit (h : c.isDigit = true) : isSpace c = false := by
  rw [Char.isDigit, Bool.and_eq_true, decide_eq_true_eq, decide_eq_true_eq] at h
  have hlow : 48 ≤ c.toNat := UInt32.le_iff_toNat_le.mp h.1
  have hhigh : c.toNat ≤ 57 := UInt32.le_iff_toNat_le.mp h.2
  simp only [isSpace, Bool.or_eq_false_iff, Bool.and_eq_false_iff, decide_eq_false_iff_not]
  omega

theorem strip_eq (hne : text ≠ []) (hhead : ∀ c, text.head? = some c → isSpace c = false)
    (hlast : ∀ c, text.getLast? = some c → isSpace c = false) : strip text = text := by
  obtain ⟨c, rest, rfl⟩ := List.exists_cons_of_ne_nil hne
  have hdrop : (c :: rest).dropWhile isSpace = c :: rest := by
    rw [List.dropWhile_cons_of_neg]
    simpa using hhead c rfl
  rw [strip, hdrop, List.rdropWhile_eq_self_iff]
  intro hl
  simpa using hlast _ (List.getLast?_eq_some_getLast hl)

theorem splitColons_append {x y z : List Char} (hx : ':' ∉ x) (hy : ':' ∉ y) :
    splitColons (x ++ ':' :: (y ++ ':' :: z)) = some (x, y, z) := by
  have htake : ∀ {x rest : List Char}, ':' ∉ x →
      (x ++ ':' :: rest).takeWhile (· ≠ ':') = x ∧
        (x ++ ':' :: rest).dropWhile (· ≠ ':') = ':' :: rest := by
    intro x rest hx
    have hpos : ∀ c ∈ x, decide (c ≠ ':') = true := by
      intro c hc
      rw [decide_eq_true_eq]
      rintro rfl
      exact hx hc
    rw [List.takeWhile_append_of_pos hpos, List.dropWhile_append_of_pos hpos]
    simp
  simp only [splitColons, (htake hx).2, (htake hx).1, (htake hy).2, (htake hy).1]

theorem readInt_repr (n : ℕ) : readInt n.repr.toList = some n := by
  have hne : n.repr.toList ≠ [] := by
    rw [Nat.toList_repr]
    exact Nat.toDigits_ne_nil
  rw [readInt, if_pos ⟨hne, List.all_eq_true.mpr fun c hc => isDigit_of_mem_repr hc⟩,
    Nat.toList_repr, Nat.ofDigitChars_ten_toDigits]

theorem splitOn_intercalate_comma {ctrls : List (List Char)}
    (h : ∀ c ∈ ctrls, c ≠ [] ∧ ',' ∉ c) :
    (([','].intercalate ctrls).splitOn ',').filter (· ≠ []) = ctrls := by
  by_cases hne : ctrls = []
  · subst hne
    rfl
  · rw [List.splitOn_intercalate ',' (fun c hc => (h c hc).2) hne, List.filter_eq_self]
    exact fun c hc => by simpa using (h c hc).1

theorem assign_fresh {κ β : Type} [DecidableEq κ] {k : κ} {v : β} {d : List (κ × β)}
    (h : k ∉ d.map Prod.fst) : assign k v d = d ++ [(k, v)] := by
  induction d with
  | nil => rfl
  | cons p d ih =>
    obtain ⟨j, u⟩ := p
    rw [List.map_cons, List.mem_cons, not_or] at h
    rw [assign, if_neg (Ne.symm h.1), ih h.2, List.cons_append]

theorem not_mem_intercalate (hc : c ≠ ',') (hnot : ∀ x ∈ h.ctrls, c ∉ x) :
    c ∉ [','].intercalate h.ctrls := by
  intro hmem
  rcases mem_intercalate hmem with hcomma | ⟨x, hx, hmem⟩
  · exact hc hcomma
  · exact hnot x hx hmem

theorem cgroupLine_line (hh : h.WellFormed) :
    cgroupLine out h.line = some (assign h.id h.entry out) := by
  have hdigits : ∀ c ∈ h.id.repr.toList, isSpace c = false := fun c hc =>
    isSpace_of_isDigit (isDigit_of_mem_repr hc)
  have hne : h.id.repr.toList ≠ [] := by
    rw [Nat.toList_repr]
    exact Nat.toDigits_ne_nil
  have hstrip : strip h.line = h.line := by
    refine strip_eq (List.append_ne_nil_of_left_ne_nil hne _) (fun c hc => ?_) (fun c hc => ?_)
    · rw [Hierarchy.line, List.head?_append_of_ne_nil _ hne] at hc
      exact hdigits c (List.mem_of_head? hc)
    · have hlast : h.line.getLast? = ('/' :: render h.path).getLast? := by
        simp [Hierarchy.line, List.getLast?_append, List.getLast?_cons]
      rw [hlast] at hc
      cases hpath : (render h.path).getLast? with
      | none =>
        rw [List.getLast?_cons, hpath] at hc
        obtain rfl := Option.some.inj hc
        decide
      | some d =>
        rw [List.getLast?_cons, hpath] at hc
        obtain rfl := Option.some.inj hc
        exact hh.last _ hpath
  have hcolons : splitColons h.line =
      some (h.id.repr.toList, [','].intercalate h.ctrls, '/' :: render h.path) := by
    refine splitColons_append (fun hmem => ?_) ?_
    · exact absurd (isDigit_of_mem_repr hmem) (by decide)
    · exact not_mem_intercalate (by decide) fun x hx hmem => ((hh.ctrls x hx).2 _ hmem).2.1 rfl
  have hctrls := splitOn_intercalate_comma fun x hx =>
    ⟨(hh.ctrls x hx).1.ne_nil, fun hmem => ((hh.ctrls x hx).2 _ hmem).1 rfl⟩
  unfold cgroupLine
  rw [hstrip]
  split
  · next hnil => exact absurd hnil (List.append_ne_nil_of_left_ne_nil hne _)
  · rw [hcolons]
    simp only [readInt_repr, Option.map_some, hctrls, Hierarchy.entry]

theorem foldlM_cgroupLine (hh : ∀ h ∈ hs, h.WellFormed)
    (hids : (out.map Prod.fst ++ hs.map Hierarchy.id).Nodup) :
    (hs.map Hierarchy.line).foldlM cgroupLine out =
      some (out ++ hs.map fun h => (h.id, h.entry)) := by
  induction hs generalizing out with
  | nil => simp
  | cons h hs ih =>
    have hfresh : h.id ∉ out.map Prod.fst := fun hmem =>
      (List.nodup_append.mp hids).2.2 _ hmem _ List.mem_cons_self rfl
    rw [List.map_cons, List.foldlM_cons, cgroupLine_line (hh h List.mem_cons_self),
      Option.bind_eq_bind, Option.bind_some, assign_fresh hfresh,
      ih fun h hmem => hh h (List.mem_cons_of_mem _ hmem)]
    · rw [List.append_assoc, List.map_cons, List.singleton_append]
    · simpa using hids

theorem readProcCgroup_cgroupTable (hh : ∀ h ∈ hs, h.WellFormed)
    (hids : (hs.map Hierarchy.id).Nodup) :
    readProcCgroup (some (cgroupTable hs)) = some (hs.map fun h => (h.id, h.entry)) := by
  have hnot : ∀ h ∈ hs, ∀ c, isSpace c = true → c ≠ ' ' → c ∉ render h.path → c ∉ h.line := by
    intro h hmem c hc hblank hpath hline
    have hcolon : c ≠ ':' := by
      rintro rfl
      cases hc
    have hslash : c ≠ '/' := by
      rintro rfl
      cases hc
    have hcomma : c ≠ ',' := by
      rintro rfl
      cases hc
    have hctrls : c ∉ [','].intercalate h.ctrls := not_mem_intercalate hcomma fun x hx hcx => by
      have hfalse := (((hh h hmem).ctrls x hx).2 c hcx).2.2
      rw [hc] at hfalse
      cases hfalse
    simp only [Hierarchy.line, List.mem_append, List.mem_cons, hcolon, hslash, hctrls, hpath,
      or_false] at hline
    have hdigit := isSpace_of_isDigit (isDigit_of_mem_repr hline)
    rw [hc] at hdigit
    cases hdigit
  have hcr : '\r' ∉ hs.flatMap fun h => h.line ++ ['\n'] := by
    intro hmem
    obtain ⟨h, hh', hmem⟩ := List.mem_flatMap.mp hmem
    rcases List.mem_append.mp hmem with hmem | hmem
    · exact hnot h hh' _ (by decide) (by decide) (hh h hh').newline.2 hmem
    · exact absurd (List.mem_singleton.mp hmem) (by decide)
  have hlines : lines '\n' (hs.flatMap fun h => h.line ++ ['\n']) = hs.map Hierarchy.line := by
    rw [← List.flatMap_map Hierarchy.line fun l => l ++ ['\n']]
    apply lines_flatMap
    intro l hl
    obtain ⟨h, hh', rfl⟩ := List.mem_map.mp hl
    exact hnot h hh' _ (by decide) (by decide) (hh h hh').newline.1
  rw [readProcCgroup, Option.bind_some, cgroupTable, readText_encode, Option.bind_eq_bind,
    Option.bind_some, universalNewlines_eq hcr, hlines, foldlM_cgroupLine hh (by simpa using hids),
    List.nil_append]

theorem readProcCgroup_invalid (h : ¬ Valid bytes) : readProcCgroup (some bytes) = none := by
  rw [readProcCgroup, Option.bind_some, readText_invalid h]
  rfl

end CodeRunner.Zygote
