import CodeRunner.Zygote.Procfs
import Mathlib.Data.Option.Basic

/-! # The CPU time of a session

The agent reads the time from the cgroup leaf, or from `/proc/<pid>/stat` without one. A stat line
has the name of the process in it, which the process chooses and which may hold anything, blanks and
parentheses included.
-/

namespace CodeRunner.Zygote

open Fields Utf8

/-- The file of a leaf that `cgroup_cpu_ms` reads, none for a read that raises. A v1 leaf may be
without `cpuacct`. -/
inductive CpuLeaf where
  | v2 (cpuStat : Option (List UInt8))
  | v1 (cpuacct : Option (Option (List UInt8)))
  deriving DecidableEq, Repr

def cgroupCpuMs : Option CpuLeaf → Option ℕ
  | none => none
  | some (.v2 cpuStat) => do
    let text ← cpuStat.bind readText
    let line ← (lines '\n' text).find? fun line => "usage_usec".toList.isPrefixOf line
    let usec ← (fields isSpace line)[1]?.bind readInt
    return usec / 1000
  | some (.v1 none) => none
  | some (.v1 (some cpuacct)) => do
    let text ← cpuacct.bind readText
    let nsec ← readInt (strip text)
    return nsec / 1000000

/-- `str.rfind` of a character. -/
def rfind (c : Char) (text : List Char) : ℤ := text.length - 1 - text.reverse.idxOf c

/-- The times of a stat line, in milliseconds. A division by zero is an exception too. -/
def statCpuMs (clkTck : ℕ) (data : List Char) : Option ℕ := do
  let rparen := rfind ')' data
  let fs := fields isSpace (data.drop (rparen + 2).toNat)
  let utime ← fs[11]?.bind readInt
  let stime ← fs[12]?.bind readInt
  guard (clkTck ≠ 0)
  return (utime + stime) * 1000 / clkTck

def procCpuMs (clkTck realpid : ℕ) (stat : Option (List UInt8)) : Option ℕ :=
  if realpid = 0 then none else (stat.bind readText).bind (statCpuMs clkTck)

def cpuMs (clkTck : ℕ) (leaf : Option CpuLeaf) (realpid : ℕ) (stat : Option (List UInt8)) :
    Option ℕ :=
  match cgroupCpuMs leaf with
  | some ms => some ms
  | none => procCpuMs clkTck realpid stat

/-- A process with the name it has given itself; `front` are the state and the ten fields behind
it, and `back` those behind the two times. -/
structure Stat where
  pid : ℕ
  comm : List UInt8
  front : List (List Char)
  utime : ℕ
  stime : ℕ
  back : List (List Char)

namespace Stat

def fields (s : Stat) : List (List Char) :=
  s.front ++ [s.utime.repr.toList, s.stime.repr.toList] ++ s.back

/-- `/proc/<pid>/stat`. -/
def bytes (s : Stat) : List UInt8 :=
  Utf8.encode (s.pid.repr.toList ++ " (".toList) ++ s.comm ++
    Utf8.encode (')' :: ' ' :: ([' '].intercalate s.fields ++ ['\n']))

structure WellFormed (s : Stat) : Prop where
  front : s.front.length = 11
  words : ∀ w ∈ s.front ++ s.back, IsField isSpace w ∧ ')' ∉ w

def ms (s : Stat) (clkTck : ℕ) : ℕ := (s.utime + s.stime) * 1000 / clkTck

end Stat

/-- What a leaf accounts for, if its file is there and can be read. -/
inductive Accounting where
  | usec (usage : ℕ) (others : List Char)
  | nsec (usage : ℕ)
  | missing
  | unreadable (unified : Bool)
  deriving DecidableEq, Repr

namespace Accounting

def leaf : Accounting → CpuLeaf
  | .usec usage others =>
    .v2 (some (Utf8.encode ("usage_usec ".toList ++ usage.repr.toList ++ '\n' :: others)))
  | .nsec usage => .v1 (some (some (Utf8.encode (usage.repr.toList ++ ['\n']))))
  | .missing => .v1 none
  | .unreadable unified => if unified then .v2 none else .v1 (some none)

def ms : Accounting → Option ℕ
  | .usec usage _ => some (usage / 1000)
  | .nsec usage => some (usage / 1000000)
  | .missing | .unreadable _ => none

end Accounting

variable {text a b : List Char} {c : Char}

theorem universalNewlines_append (hc : c ≠ '\n') :
    universalNewlines (a ++ c :: b) = universalNewlines a ++ universalNewlines (c :: b) := by
  fun_induction universalNewlines a with
  | case1 text ih =>
    rw [List.cons_append, List.cons_append, universalNewlines, ih, List.cons_append]
  | case2 text hne ih =>
    rw [List.cons_append, universalNewlines, ih, List.cons_append]
    rintro rest heq
    cases text with
    | nil => exact hc (List.cons.inj heq).1
    | cons d text =>
      rw [List.cons_append] at heq
      obtain ⟨rfl, -⟩ := List.cons.inj heq
      exact hne text rfl
  | case3 d text hne hne' ih =>
    rw [List.cons_append, universalNewlines, ih, List.cons_append]
    · rintro rest rfl heq
      cases text with
      | nil => exact hc (List.cons.inj heq).1
      | cons e text =>
        rw [List.cons_append] at heq
        obtain ⟨rfl, -⟩ := List.cons.inj heq
        exact hne text rfl rfl
    · exact hne'
  | case4 => rfl

theorem drop_rfind (hb : ')' ∉ b) :
    (a ++ ')' :: ' ' :: b).drop (rfind ')' (a ++ ')' :: ' ' :: b) + 2).toNat = b := by
  have hidx : (a ++ ')' :: ' ' :: b).reverse.idxOf ')' = b.length + 1 := by
    have hrev : (a ++ ')' :: ' ' :: b).reverse = (b.reverse ++ [' ']) ++ ')' :: a.reverse := by
      simp
    rw [hrev, List.idxOf_append_of_notMem (by simpa using hb), List.idxOf_cons_self]
    simp
  have hdrop : (rfind ')' (a ++ ')' :: ' ' :: b) + 2).toNat = a.length + 2 := by
    rw [rfind, hidx, List.length_append, List.length_cons, List.length_cons]
    omega
  rw [hdrop, ← List.drop_drop, List.drop_left]
  rfl

variable {s : Stat} {clkTck pid : ℕ}

theorem isField_repr (n : ℕ) : IsField isSpace n.repr.toList := by
  refine ⟨?_, fun c hc => isSpace_of_isDigit (isDigit_of_mem_repr hc)⟩
  rw [Nat.toList_repr]
  exact Nat.toDigits_ne_nil

theorem Stat.WellFormed.fields (hs : s.WellFormed) :
    ∀ w ∈ s.fields, IsField isSpace w ∧ ')' ∉ w := by
  have hrepr : ∀ n : ℕ, IsField isSpace n.repr.toList ∧ ')' ∉ n.repr.toList := fun n =>
    ⟨isField_repr n, fun h => absurd (isDigit_of_mem_repr h) (by decide)⟩
  intro w hw
  simp only [Stat.fields, List.append_assoc, List.mem_append, List.mem_cons, List.not_mem_nil,
    or_false] at hw
  rcases hw with hw | (rfl | rfl) | hw
  · exact hs.words w (List.mem_append_left _ hw)
  · exact hrepr s.utime
  · exact hrepr s.stime
  · exact hs.words w (List.mem_append_right _ hw)

theorem Stat.WellFormed.not_mem (hs : s.WellFormed) (hspace : c ≠ ' ') (hnl : c ≠ '\n')
    (hc : isSpace c = true ∨ c = ')') : c ∉ [' '].intercalate s.fields ++ ['\n'] := by
  intro hmem
  rcases List.mem_append.mp hmem with hmem | hmem
  · rcases mem_intercalate hmem with rfl | ⟨w, hw, hmem⟩
    · exact hspace rfl
    · obtain ⟨hfield, hparen⟩ := hs.fields w hw
      rcases hc with hc | rfl
      · rw [hfield.2 c hmem] at hc
        cases hc
      · exact hparen hmem
  · exact hnl (List.mem_singleton.mp hmem)

theorem statCpuMs_fields (hs : s.WellFormed) : statCpuMs clkTck
    (a ++ ')' :: ' ' :: ([' '].intercalate s.fields ++ ['\n'])) =
      if clkTck = 0 then none else some (s.ms clkTck) := by
  have hparen : ')' ∉ [' '].intercalate s.fields ++ ['\n'] :=
    hs.not_mem (by decide) (by decide) (.inr rfl)
  have hfields : Fields.fields isSpace ([' '].intercalate s.fields ++ ['\n']) = s.fields :=
    fields_intercalate_append (fun w hw => (hs.fields w hw).1) (by decide) (by decide)
  have hutime : s.fields[11]? = some s.utime.repr.toList := by
    rw [Stat.fields, List.append_assoc, List.getElem?_append_right (Nat.le_of_eq hs.front),
      hs.front]
    rfl
  have hstime : s.fields[12]? = some s.stime.repr.toList := by
    rw [Stat.fields, List.append_assoc, List.getElem?_append_right (by rw [hs.front]; decide),
      hs.front]
    rfl
  simp only [statCpuMs, drop_rfind hparen, hfields, hutime, hstime, Option.bind_some, readInt_repr]
  by_cases hclk : clkTck = 0
  · rw [if_pos hclk]
    simp only [hclk, ne_eq, not_true_eq_false, guard_false]
    rfl
  · rw [if_neg hclk]
    simp [hclk, Stat.ms]

theorem procCpuMs_valid (hs : s.WellFormed) (hpid : pid ≠ 0) (hcomm : Valid s.comm) :
    procCpuMs clkTck pid (some s.bytes) = if clkTck = 0 then none else some (s.ms clkTck) := by
  obtain ⟨cs, hcs⟩ := hcomm
  have hcr : '\r' ∉ ')' :: ' ' :: ([' '].intercalate s.fields ++ ['\n']) := by
    have hnot := hs.not_mem (c := '\r') (by decide) (by decide) (.inl (by decide))
    simpa using hnot
  have hbytes : s.bytes = Utf8.encode ((s.pid.repr.toList ++ " (".toList ++ cs) ++
      ')' :: ' ' :: ([' '].intercalate s.fields ++ ['\n'])) := by
    rw [Stat.bytes, ← hcs, ← encode_append, ← encode_append]
  rw [procCpuMs, if_neg hpid, Option.bind_some, hbytes, readText_encode, Option.bind_some,
    universalNewlines_append (by decide), universalNewlines_eq hcr, statCpuMs_fields hs]

theorem procCpuMs_invalid (hcomm : ¬ Valid s.comm) :
    procCpuMs clkTck pid (some s.bytes) = none := by
  have hbytes : ¬ Valid s.bytes := by
    intro h
    rw [Stat.bytes, List.append_assoc] at h
    have hrest := (Valid.append_iff ⟨_, rfl⟩).mp h
    exact hcomm (hrest.cut (by decide))
  rw [procCpuMs, Option.bind_some, readText_invalid hbytes, Option.bind_none, ite_self]

theorem not_mem_repr (n : ℕ) (hc : c.isDigit = false) : c ∉ n.repr.toList := by
  intro hmem
  rw [isDigit_of_mem_repr hmem] at hc
  cases hc

theorem cgroupCpuMs_usec (usage : ℕ) (others : List Char) :
    cgroupCpuMs (some (Accounting.usec usage others).leaf) = some (usage / 1000) := by
  have hline : ∀ c, c ∉ "usage_usec ".toList → c.isDigit = false →
      c ∉ "usage_usec ".toList ++ usage.repr.toList := by
    intro c hc hdigit hmem
    rcases List.mem_append.mp hmem with hmem | hmem
    · exact hc hmem
    · exact not_mem_repr usage hdigit hmem
  have hread : readText
      (Utf8.encode ("usage_usec ".toList ++ usage.repr.toList ++ '\n' :: others)) =
        some ("usage_usec ".toList ++ usage.repr.toList ++ '\n' :: universalNewlines others) := by
    rw [readText_encode, universalNewlines_append_left (hline '\r' (by decide) (by decide)),
      universalNewlines]
    · rintro _ ⟨⟩
    · rintro ⟨⟩
  have hfields : fields isSpace ("usage_usec ".toList ++ usage.repr.toList) =
      ["usage_usec".toList, usage.repr.toList] := by
    have hname : IsField isSpace "usage_usec".toList := by decide
    change fields isSpace ("usage_usec".toList ++ ' ' :: usage.repr.toList) = _
    rw [fields_append hname (by decide), fields_self (isField_repr usage)]
  have hfind : (lines '\n' ("usage_usec ".toList ++ usage.repr.toList ++
      '\n' :: universalNewlines others)).find? (fun line => "usage_usec".toList.isPrefixOf line) =
        some ("usage_usec ".toList ++ usage.repr.toList) := by
    rw [lines_append_cons (hline '\n' (by decide) (by decide))]
    rfl
  simp only [cgroupCpuMs, Accounting.leaf, Option.bind_some, hread]
  change Option.bind (List.find? _ _) _ = _
  rw [hfind, Option.bind_some, hfields]
  change Option.bind (readInt usage.repr.toList) _ = _
  rw [readInt_repr]
  rfl

theorem cgroupCpuMs_nsec (usage : ℕ) :
    cgroupCpuMs (some (Accounting.nsec usage).leaf) = some (usage / 1000000) := by
  have hdigits : ∀ c ∈ usage.repr.toList, isSpace c = false := (isField_repr usage).2
  have hcr : '\r' ∉ usage.repr.toList ++ ['\n'] := by
    intro hmem
    rcases List.mem_append.mp hmem with hmem | hmem
    · exact not_mem_repr usage (by decide) hmem
    · exact absurd (List.mem_singleton.mp hmem) (by decide)
  have hstrip : strip (usage.repr.toList ++ ['\n']) = usage.repr.toList := by
    obtain ⟨c, rest, hrepr⟩ := List.exists_cons_of_ne_nil (isField_repr usage).1
    have hc : isSpace c = false := hdigits c (hrepr ▸ List.mem_cons_self)
    have hdrop : (usage.repr.toList ++ ['\n']).dropWhile isSpace = usage.repr.toList ++ ['\n'] := by
      rw [hrepr, List.cons_append, List.dropWhile_cons_of_neg (by simpa using hc)]
    rw [strip, hdrop, List.rdropWhile_concat_pos _ _ _ (by decide), List.rdropWhile_eq_self_iff]
    intro hl
    simpa using hdigits _ (List.getLast_mem hl)
  simp only [cgroupCpuMs, Accounting.leaf, Option.bind_some, readText_encode]
  rw [universalNewlines_eq hcr]
  change Option.bind (readInt (strip _)) _ = _
  rw [hstrip, readInt_repr]
  rfl

theorem cgroupCpuMs_leaf (acct : Accounting) : cgroupCpuMs (some acct.leaf) = acct.ms := by
  cases acct with
  | usec usage others => exact cgroupCpuMs_usec usage others
  | nsec usage => exact cgroupCpuMs_nsec usage
  | missing => rfl
  | unreadable unified => cases unified <;> rfl

/-- The leaf accounts for the time. -/
def Accounted (acct : Option Accounting) : Prop := (acct.bind Accounting.ms).isSome = true

/-- The time from what accounts for it, in milliseconds. -/
def usedMs (clkTck : ℕ) (acct : Option Accounting) (s : Stat) : ℕ :=
  (acct.bind Accounting.ms).getD (s.ms clkTck)

/-- The time is read exactly, whatever name the process takes, as long as the leaf accounts for it
or the name is text; otherwise it is not read at all. -/
theorem cpuMs_eq (hs : s.WellFormed) (hpid : pid ≠ 0) (acct : Option Accounting) :
    (Accounted acct ∨ (Valid s.comm ∧ clkTck ≠ 0) →
      cpuMs clkTck (acct.map Accounting.leaf) pid (some s.bytes) =
        some (usedMs clkTck acct s)) ∧
    (¬ Accounted acct → ¬ (Valid s.comm ∧ clkTck ≠ 0) →
      cpuMs clkTck (acct.map Accounting.leaf) pid (some s.bytes) = none) := by
  have hleaf : cgroupCpuMs (acct.map Accounting.leaf) = acct.bind Accounting.ms := by
    cases acct with
    | none => rfl
    | some a => exact cgroupCpuMs_leaf a
  rw [cpuMs, hleaf, Accounted, usedMs]
  cases acct.bind Accounting.ms with
  | some ms => exact ⟨fun _ => rfl, fun hnot => absurd rfl hnot⟩
  | none =>
    refine ⟨fun h => ?_, fun _ hnot => ?_⟩
    · obtain ⟨hcomm, hclk⟩ := h.resolve_left Bool.false_ne_true
      exact (procCpuMs_valid hs hpid hcomm).trans (if_neg hclk)
    · by_cases hcomm : Valid s.comm
      · have hclk : clkTck = 0 := by
          by_contra hne
          exact hnot ⟨hcomm, hne⟩
        exact (procCpuMs_valid hs hpid hcomm).trans (if_pos hclk)
      · exact procCpuMs_invalid hcomm

/-- A process that calls itself `) 1 (`. -/
def parenthesised : Stat where
  pid := 7
  comm := Utf8.encode ") 1 (".toList
  front := List.replicate 11 "0".toList
  utime := 12
  stime := 3
  back := ["0".toList]

theorem cpuMs_eq_parenthesised :
    cpuMs 100 none 7 (some parenthesised.bytes) = some 150 := by
  have hs : parenthesised.WellFormed := ⟨rfl, by decide⟩
  have hcomm : Valid parenthesised.comm := ⟨_, rfl⟩
  exact (cpuMs_eq hs (show 7 ≠ 0 by decide) none).1 (.inr ⟨hcomm, by decide⟩)

end CodeRunner.Zygote
