import CodeRunner.Lib.Posix
import Mathlib

/-! # Texts of a POSIX shell

A text is cut into tokens, character by character, and the tokens are read as commands with a stack
of the loops that are open. Characters between quotes and behind a backslash stand for themselves.
Texts with parameters, substitutions, redirections, pipelines or other compound commands than the
`while` loop are not read at all.
-/

namespace Shell

inductive Piece where
  | bare (c : Char)
  | quoted (cs : List Char)
  deriving DecidableEq, Repr

abbrev Word := List Piece

inductive Token where
  | word (w : Word)
  | op (text : List Char)
  deriving DecidableEq, Repr

def operators : List (List Char) :=
  ["&", "&&", "(", ")", ";", ";;", "|", "||", "<", "<<", "<&", "<>", "<<-", ">", ">>", ">&", ">|",
    "\n"].map String.toList

/-- Where the lexer is: between tokens, in a comment, in an operator, or in a word, there also
behind a backslash or between quotes. -/
inductive Mode where
  | blank
  | comment
  | op (text : List Char)
  | word (w : Word)
  | escape (w : Word)
  | single (w : Word) (cs : List Char)
  | double (w : Word) (cs : List Char)
  | doubleEscape (w : Word) (cs : List Char)
  deriving DecidableEq, Repr

structure Lexer where
  mode : Mode
  tokens : List Token
  deriving DecidableEq, Repr

def isBlank (c : Char) : Bool := c = ' ' || c = '\t'

/-- A character that begins an expansion, also between double quotes. -/
def isExpansion (c : Char) : Bool := c = '$' || c = '`'

def wordChar (w : Word) (c : Char) : Option Mode :=
  if isExpansion c then none
  else if c = '\\' then some (.escape w)
  else if c = '\'' then some (.single w [])
  else if c = '"' then some (.double w [])
  else some (.word (w ++ [.bare c]))

def blankChar (ts : List Token) (c : Char) : Option Lexer :=
  if isBlank c then some ⟨.blank, ts⟩
  else if c = '#' then some ⟨.comment, ts⟩
  else if [c] ∈ operators then some ⟨.op [c], ts⟩
  else (wordChar [] c).map fun mode => ⟨mode, ts⟩

def Lexer.step (l : Lexer) (c : Char) : Option Lexer :=
  match l.mode with
  | .blank => blankChar l.tokens c
  | .comment => if c = '\n' then some ⟨.op [c], l.tokens⟩ else some l
  | .op text =>
    if text ++ [c] ∈ operators then some ⟨.op (text ++ [c]), l.tokens⟩
    else blankChar (l.tokens ++ [.op text]) c
  | .word w =>
    if isBlank c || [c] ∈ operators then blankChar (l.tokens ++ [.word w]) c
    else (wordChar w c).map fun mode => { l with mode := mode }
  | .escape w =>
    -- A line that goes on: the backslash and the newline are taken out.
    if c = '\n' then some { l with mode := if w = [] then .blank else .word w }
    else some { l with mode := .word (w ++ [.quoted [c]]) }
  | .single w cs =>
    if c = '\'' then some { l with mode := .word (w ++ [.quoted cs]) }
    else some { l with mode := .single w (cs ++ [c]) }
  | .double w cs =>
    if c = '"' then some { l with mode := .word (w ++ [.quoted cs]) }
    else if c = '\\' then some { l with mode := .doubleEscape w cs }
    else if isExpansion c then none
    else some { l with mode := .double w (cs ++ [c]) }
  | .doubleEscape w cs =>
    if c = '\n' then some { l with mode := .double w cs }
    else if isExpansion c || c = '"' || c = '\\' then some { l with mode := .double w (cs ++ [c]) }
    else some { l with mode := .double w (cs ++ ['\\', c]) }

/-- The tokens at the end of the text, which may not be in quotes. -/
def Lexer.finish (l : Lexer) : Option (List Token) :=
  match l.mode with
  | .blank | .comment => some l.tokens
  | .op text => some (l.tokens ++ [.op text])
  | .word w => some (l.tokens ++ [.word w])
  | _ => none

def lex (text : List Char) : Option (List Token) := do
  (← text.foldlM Lexer.step ⟨.blank, []⟩).finish

inductive Command where
  | simple (words : List Word)
  | loop (cond body : List Command)

def Word.text? (w : Word) : Option (List Char) :=
  w.mapM fun | .bare c => some c | .quoted _ => none

def reserved : List (List Char) :=
  ["!", "\x7b", "\x7d", "case", "do", "done", "elif", "else", "esac", "fi", "for", "if", "in",
    "then", "until", "while"].map String.toList

/-- A word with a name and `=` before any quote, which assigns when it stands first. -/
def Word.assigns (w : Word) : Bool := .bare '=' ∈ w.takeWhile (· matches .bare _)

/-- A loop that is open, with the commands before it; at its condition, or at its body. -/
inductive Frame where
  | cond (before : List Command)
  | body (before cond : List Command)

/-- The commands of the innermost list, the words of the one being read, and whether a loop has
just been closed. -/
structure Parser where
  stack : List Frame
  done : List Command
  words : List Word
  closed : Bool

def Parser.first (p : Parser) (w : Word) : Option Parser :=
  let text := w.text?
  if text = some "while".toList then
    if p.closed then none else some ⟨.cond p.done :: p.stack, [], [], false⟩
  else if text = some "do".toList then
    match p.stack, p.done with
    | .cond before :: stack, cond@(_ :: _) => some ⟨.body before cond :: stack, [], [], false⟩
    | _, _ => none
  else if text = some "done".toList then
    match p.stack, p.done with
    | .body before cond :: stack, body@(_ :: _) =>
      some ⟨stack, before ++ [.loop cond body], [], true⟩
    | _, _ => none
  else if text.any (· ∈ reserved) || w.assigns || p.closed then none
  else some { p with words := [w] }

/-- The end of a command. -/
def Parser.close (p : Parser) : Parser :=
  if p.words = [] then { p with closed := false }
  else { p with done := p.done ++ [.simple p.words], words := [], closed := false }

def Parser.step (p : Parser) : Token → Option Parser
  | .word w => if p.words = [] then p.first w else some { p with words := p.words ++ [w] }
  | .op text =>
    if text = ['\n'] then some p.close
    else if text = [';'] ∧ (p.words ≠ [] ∨ p.closed) then some p.close
    else none

/-- The commands of a text, one after the other. -/
def parse (text : List Char) : Option (List Command) := do
  let p ← (← lex text).foldlM Parser.step ⟨[], [], [], false⟩
  match p.stack with
  | [] => some p.close.done
  | _ => none

/-- The field that a word makes once its quotes are removed; a word that the shell expands to
what depends on its surroundings makes none of its own. -/
def Word.field (w : Word) : Option (List Char) :=
  if w.head? = some (.bare '~') ∨ ∃ c ∈ ['*', '?', '['], .bare c ∈ w then none
  else some (w.flatMap fun | .bare c => [c] | .quoted cs => cs)

/-- A text in single quotes; a quote in it is taken out of them and put behind a backslash. -/
def quote (cs : List Char) : List Char :=
  '\'' :: cs.flatMap (fun c => if c = '\'' then ['\'', '\\', '\'', '\''] else [c]) ++ ['\'']

variable {w : Word} {args : List (List Char)} {p : Parser}

def Literal (w : Word) : Prop := ∀ p ∈ w, ∃ cs, p = .quoted cs

def text (w : Word) : List Char := w.flatMap fun | .bare c => [c] | .quoted cs => cs

theorem Literal.append (h : Literal w) (cs : List Char) : Literal (w ++ [.quoted cs]) := by
  intro p hp
  rcases List.mem_append.mp hp with hp | hp
  · exact h p hp
  · exact ⟨cs, List.mem_singleton.mp hp⟩

theorem text_append (w : Word) (cs : List Char) : text (w ++ [.quoted cs]) = text w ++ cs := by
  simp [text]

theorem Literal.field (h : Literal w) : w.field = some (text w) := by
  rw [Word.field, if_neg]
  · rfl
  · rintro (hhead | ⟨c, -, hc⟩)
    · obtain ⟨cs, hcs⟩ := h _ (List.mem_of_mem_head? hhead)
      cases hcs
    · obtain ⟨cs, hcs⟩ := h _ hc
      cases hcs

theorem run_single (h : Literal w) (ds : List Char) (ts : List Token) (cs : List Char) :
    ∃ w' ds', (cs.flatMap fun c => if c = '\'' then ['\'', '\\', '\'', '\''] else [c]).foldlM
        Lexer.step ⟨.single w ds, ts⟩ = some ⟨.single w' ds', ts⟩ ∧
      Literal w' ∧ text w' ++ ds' = text w ++ ds ++ cs := by
  induction cs generalizing w ds with
  | nil => exact ⟨w, ds, rfl, h, by simp⟩
  | cons c cs ih =>
    rw [List.flatMap_cons, List.foldlM_append]
    by_cases hc : c = '\''
    · subst hc
      obtain ⟨w', ds', hrun, hw', htext⟩ := ih ((h.append ds).append ['\'']) []
      refine ⟨w', ds', hrun, hw', ?_⟩
      rw [htext, text_append, text_append]
      simp
    · obtain ⟨w', ds', hrun, hw', htext⟩ := ih h (ds ++ [c])
      refine ⟨w', ds', ?_, hw', by rw [htext]; simp⟩
      have hstep : Lexer.step ⟨.single w ds, ts⟩ c = some ⟨.single w (ds ++ [c]), ts⟩ := if_neg hc
      rw [if_neg hc, List.foldlM_cons, hstep]
      exact hrun

theorem run_quote (ts : List Token) (cs : List Char) :
    ∃ w, (quote cs).foldlM Lexer.step ⟨.blank, ts⟩ = some ⟨.word w, ts⟩ ∧ w.field = some cs := by
  obtain ⟨w, ds, hrun, hw, htext⟩ := run_single (w := []) nofun [] ts cs
  refine ⟨w ++ [.quoted ds], ?_, ?_⟩
  · have hopen : Lexer.step ⟨.blank, ts⟩ '\'' = some ⟨.single [] [], ts⟩ := rfl
    rw [quote, List.cons_append, List.foldlM_cons, hopen, Option.bind_eq_bind, Option.bind_some,
      List.foldlM_append, hrun]
    rfl
  · rw [(hw.append ds).field, text_append, htext]
    rfl

/-- Quoted texts with blanks between them are as many words, each with its text for a field. -/
theorem run_quotes (hne : args ≠ []) (ts : List Token) :
    ∃ ws : List Word, (([' '].intercalate (args.map quote)).foldlM Lexer.step ⟨.blank, ts⟩).bind
        Lexer.finish = some (ts ++ ws.map .word) ∧ ws.map Word.field = args.map some := by
  induction args generalizing ts with
  | nil => exact absurd rfl hne
  | cons cs args ih =>
    obtain ⟨w, hrun, hfield⟩ := run_quote ts cs
    cases args with
    | nil =>
      refine ⟨[w], ?_, by rw [List.map_singleton, hfield]; rfl⟩
      rw [List.map_singleton, List.intercalate_singleton, hrun]
      rfl
    | cons cs' args =>
      obtain ⟨ws, hrest, hfields⟩ := ih (by simp) (ts ++ [.word w])
      refine ⟨w :: ws, ?_, by rw [List.map_cons, hfield, hfields]; rfl⟩
      have hblank : Lexer.step ⟨.word w, ts⟩ ' ' = some ⟨.blank, ts ++ [.word w]⟩ := rfl
      rw [List.map_cons, List.map_cons, List.intercalate_cons_cons, List.append_assoc,
        List.foldlM_append, hrun, Option.bind_eq_bind, Option.bind_some, List.singleton_append,
        List.foldlM_cons, hblank, Option.bind_eq_bind, Option.bind_some, ← List.map_cons, hrest,
        List.append_assoc]
      rfl

theorem run_words (h : p.words ≠ []) (ws : List Word) :
    (ws.map Token.word).foldlM Parser.step p = some { p with words := p.words ++ ws } := by
  induction ws generalizing p with
  | nil =>
    rw [List.append_nil]
    rfl
  | cons w ws ih =>
    have hstep : Parser.step p (.word w) = some { p with words := p.words ++ [w] } := if_neg h
    rw [List.map_cons, List.foldlM_cons, hstep, Option.bind_eq_bind, Option.bind_some, ih (by simp),
      List.append_assoc]
    rfl

/-- A text that ends in quoted words after the first word of a command: the commands before are
read as they are without them, and the command has those fields for its other words. -/
theorem parse_append_quotes {pre : List Char} {ts : List Token} {done : List Command} {w : Word}
    (hlex : pre.foldlM Lexer.step ⟨.blank, []⟩ = some ⟨.blank, ts⟩)
    (hparse : ts.foldlM Parser.step ⟨[], [], [], false⟩ = some ⟨[], done, [w], false⟩)
    (hne : args ≠ []) :
    ∃ ws : List Word, parse (pre ++ [' '].intercalate (args.map quote)) =
        some (done ++ [.simple (w :: ws)]) ∧ ws.map Word.field = args.map some := by
  obtain ⟨ws, hws, hfields⟩ := run_quotes hne ts
  refine ⟨ws, ?_, hfields⟩
  have htokens : lex (pre ++ [' '].intercalate (args.map quote)) = some (ts ++ ws.map .word) := by
    rw [lex, List.foldlM_append, hlex]
    exact hws
  have hrun : (ts ++ ws.map Token.word).foldlM Parser.step ⟨[], [], [], false⟩ =
      some ⟨[], done, w :: ws, false⟩ := by
    rw [List.foldlM_append, hparse]
    exact run_words (by simp) ws
  rw [parse, htokens, Option.bind_eq_bind, Option.bind_some, hrun]
  rfl

end Shell
