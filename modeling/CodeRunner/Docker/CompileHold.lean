import CodeRunner.Lib.Shell
import CodeRunner.Wire
import Mathlib.Data.List.TakeWhile

/-! # The command of a container that compiles

`buildCompileHoldCmd` makes a shell script that waits for the marker of the compile step and then
`exec`s the run command. A shell reads the arguments of that command from the script as they are.
-/

namespace CodeRunner.Docker

def compileRunMarker : List Char := "/workspace/.compile_ready".toList

/-- An argument in single quotes, with `'\''` for each one in it. -/
def quoteArg (arg : List Char) : List Char :=
  '\'' :: arg.flatMap (fun c => if c = '\'' then ['\'', '\\', '\'', '\''] else [c]) ++ ['\'']

def holdScript (runArgv : List String) : List Char :=
  let runShell := [' '].intercalate (runArgv.map fun arg => quoteArg arg.toList)
  "while [ ! -f ".toList ++ compileRunMarker ++ " ]; do sleep 0.05; done; rm -f ".toList ++
    compileRunMarker ++ "; exec ".toList ++ runShell

def buildCompileHoldCmd (runArgv : List String) : List String :=
  if runArgv = [] then ["sh", "-c", "sleep infinity"]
  else ["sh", "-c", String.ofList (holdScript runArgv)]

/-- The command that `Create` gives the container. -/
def containerCmd (spec : JobSpec) : List String :=
  if spec.compile.isSome then buildCompileHoldCmd spec.run else spec.run

/-- An argument as the kernel hands it to a program: a C string, which a NUL ends. -/
def cString (arg : String) : List Char := arg.toList.takeWhile (· ≠ '\x00')

/-- A word without quotes. -/
def bareWord (s : String) : Shell.Word := s.toList.map .bare

/-- What the script does before `exec`. -/
def hold : List Shell.Command :=
  let marker := compileRunMarker.map .bare
  [.loop [.simple [bareWord "[", bareWord "!", bareWord "-f", marker, bareWord "]"]]
      [.simple [bareWord "sleep", bareWord "0.05"]],
    .simple [bareWord "rm", bareWord "-f", marker]]

variable {runArgv : List String}

/-- The script up to the arguments of `exec`. -/
def holdPrefix : List Char :=
  "while [ ! -f ".toList ++ compileRunMarker ++ " ]; do sleep 0.05; done; rm -f ".toList ++
    compileRunMarker ++ "; exec ".toList

theorem holdScript_eq (runArgv : List String) : holdScript runArgv =
    holdPrefix ++ [' '].intercalate ((runArgv.map String.toList).map Shell.quote) := by
  rw [List.map_map]
  rfl

def holdTokens : List Shell.Token := ((Shell.lex holdPrefix).getD [])

theorem lex_holdPrefix : holdPrefix.foldlM Shell.Lexer.step ⟨.blank, []⟩ =
    some ⟨.blank, holdTokens⟩ := by
  decide

theorem parse_holdTokens : holdTokens.foldlM Shell.Parser.step ⟨[], [], [], false⟩ =
    some ⟨[], hold, [bareWord "exec"], false⟩ := by
  rfl

theorem cString_holdScript (h : ∀ arg ∈ runArgv, '\x00' ∉ arg.toList) :
    cString (String.ofList (holdScript runArgv)) = holdScript runArgv := by
  have hquote : ∀ cs : List Char, '\x00' ∉ cs → '\x00' ∉ Shell.quote cs := by
    intro cs hcs hmem
    simp only [Shell.quote, List.cons_append, List.mem_cons, List.mem_append, List.mem_flatMap,
      List.not_mem_nil, or_false] at hmem
    rcases hmem with hnul | ⟨c, hc, hnul⟩ | hnul
    · cases hnul
    · split at hnul
      · revert hnul
        decide
      · exact hcs (List.mem_singleton.mp hnul ▸ hc)
    · cases hnul
  have hargs : ∀ args : List (List Char), (∀ cs ∈ args, '\x00' ∉ cs) →
      '\x00' ∉ [' '].intercalate (args.map Shell.quote) := by
    intro args
    induction args with
    | nil => simp
    | cons cs args ih =>
      intro hargs
      obtain ⟨hcs, hrest⟩ := List.forall_mem_cons.mp hargs
      cases args with
      | nil => simpa using hquote cs hcs
      | cons cs' args =>
        rw [List.map_cons, List.map_cons, List.intercalate_cons_cons, ← List.map_cons,
          List.append_assoc, List.singleton_append, List.mem_append, List.mem_cons, not_or, not_or]
        exact ⟨hquote cs hcs, by decide, ih hrest⟩
  rw [cString, String.toList_ofList, List.takeWhile_eq_self_iff, holdScript_eq]
  intro c hc
  rw [decide_eq_true_iff]
  rintro rfl
  rcases List.mem_append.mp hc with hc | hc
  · exact absurd hc (by decide)
  · exact hargs _ (List.forall_mem_map.mpr h) hc

/-- Whatever the arguments are, the shell runs the same commands before `exec`, and `exec` has
exactly the arguments. -/
theorem buildCompileHoldCmd_parse (runArgv : List String) (hne : runArgv ≠ [])
    (hnul : ∀ arg ∈ runArgv, '\x00' ∉ arg.toList) :
    ∃ script, buildCompileHoldCmd runArgv = ["sh", "-c", script] ∧
      (∀ spec : JobSpec, spec.compile.isSome → spec.run = runArgv →
        containerCmd spec = ["sh", "-c", script]) ∧
      ∃ args, Shell.parse (cString script) =
          some (hold ++ [.simple (bareWord "exec" :: args)]) ∧
        args.map Shell.Word.field = runArgv.map fun arg => some arg.toList := by
  have hscript : buildCompileHoldCmd runArgv = ["sh", "-c", String.ofList (holdScript runArgv)] :=
    if_neg hne
  obtain ⟨args, hparse, hfields⟩ := Shell.parse_append_quotes lex_holdPrefix parse_holdTokens
    (show runArgv.map String.toList ≠ [] by simpa using hne)
  refine ⟨_, hscript, ?_, args, ?_, ?_⟩
  · rintro spec hcompile rfl
    rw [containerCmd, if_pos hcompile, hscript]
  · rw [cString_holdScript hnul, holdScript_eq, hparse]
  · rw [hfields, List.map_map]
    rfl

/-- Quotes, blanks, a newline and an empty argument. -/
def trickyArgv : List String := ["./a.out", "it's", "", "'; rm -rf $HOME\n", "\\\"#`id`"]

theorem buildCompileHoldCmd_parse_tricky :
    ∃ args, Shell.parse (holdScript trickyArgv) =
        some (hold ++ [.simple (bareWord "exec" :: args)]) ∧
      args.map Shell.Word.field = trickyArgv.map fun arg => some arg.toList := by
  obtain ⟨script, hscript, -, args, hparse, hfields⟩ :=
    buildCompileHoldCmd_parse trickyArgv (by decide) (by decide)
  obtain rfl : String.ofList (holdScript trickyArgv) = script := by
    simpa [buildCompileHoldCmd, trickyArgv] using hscript
  rw [cString_holdScript (by decide)] at hparse
  exact ⟨args, hparse, hfields⟩

end CodeRunner.Docker
