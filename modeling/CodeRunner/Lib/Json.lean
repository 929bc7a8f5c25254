import CodeRunner.Lib.Utf8
import Mathlib.Algebra.Group.Int.Defs
import Mathlib.Data.Int.Notation

/-! # Reading JSON documents

A document is cut into tokens, byte by byte, and the tokens are read with a stack of the open
objects and arrays. A string may hold bytes that belong to no character and surrogates without
their other half; each becomes U+FFFD. A document is decoded into a record member by member: a
member whose value is of the wrong kind is an error, but the members after it are decoded too.
-/

namespace Json

inductive Value where
  | null
  | bool (b : Bool)
  | num (text : List UInt8)
  | str (text : List UInt8)
  | arr (items : List Value)
  | obj (members : List (List UInt8 × Value))

inductive Token where
  | openObj
  | closeObj
  | openArr
  | closeArr
  | colon
  | comma
  | str (raw : List UInt8)
  | word (text : List UInt8)
  deriving DecidableEq, Repr

/-- Where the lexer is: between tokens, in a number or a literal name, in a string, after its
backslash, or before the `n`th digit of a `\u` escape. -/
inductive Mode where
  | idle
  | word (text : List UInt8)
  | str (raw : List UInt8)
  | escape (raw : List UInt8)
  | hex (raw : List UInt8) (n : ℕ)
  deriving DecidableEq, Repr

def isSpace (b : UInt8) : Bool := b = 0x20 || b = 0x09 || b = 0x0A || b = 0x0D

def isDigit (b : UInt8) : Bool := 0x30 ≤ b && b ≤ 0x39

def isLetter (b : UInt8) : Bool := (0x61 ≤ b && b ≤ 0x7A) || (0x41 ≤ b && b ≤ 0x5A)

def isWord (b : UInt8) : Bool := b = 0x2B || b = 0x2D || b = 0x2E || isDigit b || isLetter b

def hexValue (b : UInt8) : Option ℕ :=
  if isDigit b then some (b.toNat - 0x30)
  else if 0x61 ≤ b && b ≤ 0x66 then some (b.toNat - 0x57)
  else if 0x41 ≤ b && b ≤ 0x46 then some (b.toNat - 0x37)
  else none

/-- The bytes of `"`, `\`, `/`, `b`, `f`, `n`, `r` and `t`, and what they stand for after a
backslash. -/
def escapes : List (UInt8 × UInt8) :=
  [(0x22, 0x22), (0x5C, 0x5C), (0x2F, 0x2F), (0x62, 0x08), (0x66, 0x0C), (0x6E, 0x0A),
    (0x72, 0x0D), (0x74, 0x09)]

def punctuation (b : UInt8) : Option Token :=
  [(0x7B, .openObj), (0x7D, .closeObj), (0x5B, .openArr), (0x5D, .closeArr), (0x3A, .colon),
    (0x2C, .comma)].lookup b

def lexIdle (b : UInt8) : Option (Mode × List Token) :=
  if isSpace b then some (.idle, [])
  else if b = 0x22 then some (.str [], [])
  else if isWord b then some (.word [b], [])
  else (punctuation b).map fun t => (.idle, [t])

def lexByte (b : UInt8) : Mode → Option (Mode × List Token)
  | .idle => lexIdle b
  | .word text =>
    if isWord b then some (.word (text ++ [b]), [])
    else (lexIdle b).map fun r => (r.1, .word text :: r.2)
  | .str raw =>
    if b = 0x22 then some (.idle, [.str raw])
    else if b = 0x5C then some (.escape (raw ++ [b]), [])
    else if b < 0x20 then none
    else some (.str (raw ++ [b]), [])
  | .escape raw =>
    if b = 0x75 then some (.hex (raw ++ [b]) 0, [])
    else if (escapes.lookup b).isSome then some (.str (raw ++ [b]), [])
    else none
  | .hex raw n =>
    if (hexValue b).isNone then none
    else if n = 3 then some (.str (raw ++ [b]), [])
    else some (.hex (raw ++ [b]) (n + 1), [])

def lex : Mode → List UInt8 → Option (List Token)
  | .idle, [] => some []
  | .word text, [] => some [.word text]
  | _, [] => none
  | mode, b :: bs => do
    let (mode, tokens) ← lexByte b mode
    let rest ← lex mode bs
    return tokens ++ rest

/-- The UTF-8 bytes of a code point; a surrogate has none of its own. -/
def encodePoint (n : ℕ) : List UInt8 :=
  String.utf8EncodeChar (if 0xD800 ≤ n ∧ n < 0xE000 then '\uFFFD' else .ofNat n)

/-- Four digits after `\u`. -/
def hexUnit (a b c d : UInt8) : ℕ :=
  [a, b, c, d].foldl (fun n x => n * 16 + (hexValue x).getD 0) 0

/-- The text of a string with its escapes resolved: the two halves of a pair of surrogates are
one character. -/
def unescape : List UInt8 → List UInt8
  | 0x5C :: 0x75 :: a :: b :: c :: d :: 0x5C :: 0x75 :: a' :: b' :: c' :: d' :: bs =>
    let hi := hexUnit a b c d
    let lo := hexUnit a' b' c' d'
    if 0xD800 ≤ hi ∧ hi < 0xDC00 ∧ 0xDC00 ≤ lo ∧ lo < 0xE000 then
      encodePoint (0x10000 + (hi - 0xD800) * 0x400 + (lo - 0xDC00)) ++ unescape bs
    else encodePoint hi ++ unescape (0x5C :: 0x75 :: a' :: b' :: c' :: d' :: bs)
  | 0x5C :: 0x75 :: a :: b :: c :: d :: bs => encodePoint (hexUnit a b c d) ++ unescape bs
  | 0x5C :: e :: bs => (escapes.lookup e).getD e :: unescape bs
  | b :: bs => b :: unescape bs
  | [] => []

def unquote (raw : List UInt8) : List UInt8 :=
  unescape (Utf8.scan String.utf8EncodeChar (String.utf8EncodeChar '\uFFFD') raw)

def isExponent : List UInt8 → Bool
  | 0x2B :: bs | 0x2D :: bs | bs => bs ≠ [] && bs.all isDigit

def isFraction (bs : List UInt8) : Bool :=
  let power : List UInt8 → Bool
    | [] => true
    | b :: bs => (b = 0x65 || b = 0x45) && isExponent bs
  match bs with
  | 0x2E :: bs => (bs.takeWhile isDigit) ≠ [] && power (bs.dropWhile isDigit)
  | bs => power bs

def isNumber (text : List UInt8) : Bool :=
  let digits := if text.head? = some 0x2D then text.tail else text
  match digits with
  | 0x30 :: bs => isFraction bs
  | b :: bs => isDigit b && isFraction (bs.dropWhile isDigit)
  | [] => false

def wordValue (text : List UInt8) : Option Value :=
  if text = [0x6E, 0x75, 0x6C, 0x6C] then some .null
  else if text = [0x74, 0x72, 0x75, 0x65] then some (.bool true)
  else if text = [0x66, 0x61, 0x6C, 0x73, 0x65] then some (.bool false)
  else if isNumber text then some (.num text)
  else none

/-- An open container, with what it has so far; of an object also the key that waits for its
value. -/
inductive Frame where
  | obj (members : List (List UInt8 × Value)) (key : List UInt8)
  | arr (items : List Value)

/-- What the reader expects next. `first` allows the container to be closed at once. -/
inductive Want where
  | value
  | firstValue
  | key (members : List (List UInt8 × Value)) (first : Bool)
  | colon (members : List (List UInt8 × Value)) (key : List UInt8)
  /-- After a value of a container. -/
  | more (v : Value)
  | done (v : Value)

structure Reader where
  stack : List Frame
  want : Want

def Reader.give (stack : List Frame) (v : Value) : Reader :=
  match stack with
  | [] => ⟨[], .done v⟩
  | stack => ⟨stack, .more v⟩

def maxDepth : ℕ := 10000

/-- A token at the place of a value. The container that it opens has its frame pushed when the
first member or item comes. -/
def Reader.value (stack : List Frame) : Token → Option Reader
  | .openObj => if stack.length < maxDepth then some ⟨stack, .key [] true⟩ else none
  | .openArr => if stack.length < maxDepth then some ⟨.arr [] :: stack, .firstValue⟩ else none
  | .str raw => some (.give stack (.str (unquote raw)))
  | .word text => (wordValue text).map (.give stack)
  | _ => none

def Reader.step (r : Reader) (t : Token) : Option Reader :=
  match r.want, t, r.stack with
  | .firstValue, .closeArr, .arr items :: stack => some (.give stack (.arr items))
  | .firstValue, t, stack => Reader.value stack t
  | .value, t, stack => Reader.value stack t
  | .key members true, .closeObj, stack => some (.give stack (.obj members))
  | .key members _, .str raw, stack => some ⟨stack, .colon members (unquote raw)⟩
  | .colon members key, .colon, stack => some ⟨.obj members key :: stack, .value⟩
  | .more v, .comma, .arr items :: stack => some ⟨.arr (items ++ [v]) :: stack, .value⟩
  | .more v, .closeArr, .arr items :: stack => some (.give stack (.arr (items ++ [v])))
  | .more v, .comma, .obj members key :: stack => some ⟨stack, .key (members ++ [(key, v)]) false⟩
  | .more v, .closeObj, .obj members key :: stack =>
    some (.give stack (.obj (members ++ [(key, v)])))
  | _, _, _ => none

def parse (data : List UInt8) : Option Value := do
  let tokens ← lex .idle data
  match (← tokens.foldlM Reader.step ⟨[], .value⟩).want with
  | .done v => some v
  | _ => none

/-- A key without its case, for names of ASCII letters: U+017F is a form of `s` and U+212A one of
`k`. -/
def foldName : List UInt8 → List UInt8
  | 0xC5 :: 0xBF :: bs => 0x53 :: foldName bs
  | 0xE2 :: 0x84 :: 0xAA :: bs => 0x4B :: foldName bs
  | b :: bs => (if 0x61 ≤ b ∧ b ≤ 0x7A then b - 0x20 else b) :: foldName bs
  | [] => []

def named (name : String) (key : List UInt8) : Bool :=
  foldName key = foldName (Utf8.encode name.toList)

def parseInt (text : List UInt8) : Option ℤ :=
  let negative : Bool := text.head? = some 0x2D
  let digits := if negative then text.tail else text
  let n : ℕ := digits.foldl (fun n b => n * 10 + (b.toNat - 0x30)) 0
  let v : ℤ := if negative then -n else n
  if digits.all isDigit ∧ -2 ^ 63 ≤ v ∧ v < 2 ^ 63 then some v else none

/-- What a value makes of a field and whether it is of the right kind. -/
abbrev Setter (α : Type*) := Value → α → α × Bool

def setInt : Setter ℤ
  | .null, old => (old, true)
  | .num text, old => ((parseInt text).getD old, (parseInt text).isSome)
  | _, old => (old, false)

/-- A value of the wrong kind leaves a pointer to zero where there was none. -/
def setIntPtr : Setter (Option ℤ)
  | .null, _ => (none, true)
  | v, old =>
    let (n, ok) := setInt v (old.getD 0)
    (some n, ok)

def setString : Setter (List UInt8)
  | .null, old => (old, true)
  | .str text, _ => (text, true)
  | _, old => (old, false)

def setStringPtr : Setter (Option (List UInt8))
  | .null, _ => (none, true)
  | v, old =>
    let (text, ok) := setString v (old.getD [])
    (some text, ok)

def setBool : Setter Bool
  | .null, old => (old, true)
  | .bool b, _ => (b, true)
  | _, old => (old, false)

/-- A document decoded into a record, and whether that went without error. `member` is what one
member makes of the record. -/
def unmarshal {σ : Type*} (member : List UInt8 → Setter σ) (s : σ) (data : List UInt8) : σ × Bool :=
  match parse data with
  | none => (s, false)
  | some .null => (s, true)
  | some (.obj members) =>
    members.foldl (fun r m => ((member m.1 m.2 r.1).1, r.2 && (member m.1 m.2 r.1).2)) (s, true)
  | some _ => (s, false)

def setRecord {σ : Type*} (member : List UInt8 → Setter σ) : Setter σ
  | .null, s => (s, true)
  | .obj members, s =>
    members.foldl (fun r m => ((member m.1 m.2 r.1).1, r.2 && (member m.1 m.2 r.1).2)) (s, true)
  | _, s => (s, false)

/-- A slice that had no items; each one is decoded into `zero`. -/
def setSlice {α : Type*} (zero : α) (item : Setter α) : Setter (List α)
  | .null, _ => ([], true)
  | .arr items, _ => (items.map fun v => (item v zero).1, items.all fun v => (item v zero).2)
  | _, old => (old, false)

end Json
