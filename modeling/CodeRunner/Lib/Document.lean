import CodeRunner.Lib.Stringify
import Mathlib.Algebra.Order.Group.Unbundled.Int
import Mathlib.Data.List.Chain
import Mathlib.Data.List.TakeWhile

/-! # JSON documents of any writer

Writers differ in the escapes that they use in strings and in the blanks behind commas and colons.
A document is a tree; whatever the style and the layout that it is written in, it is read back as
the same tree, with the strings that the style stands for.
-/

namespace Json

open Utf16

/-- What a string is written with: a character as it is, a short escape, the escape of a unit, or
the escapes of the two halves of a pair. -/
inductive Piece where
  | char (c : Char)
  | short (e : UInt8)
  | unit (u : UInt16)
  | pair (hi lo : UInt16)
  deriving DecidableEq, Repr

namespace Piece

def write : Piece → List UInt8
  | .char c => String.utf8EncodeChar c
  | .short e => [0x5C, e]
  | .unit u => escapeUnit u.toNat
  | .pair hi lo => escapeUnit hi.toNat ++ escapeUnit lo.toNat

def read : Piece → List UInt8
  | .char c => String.utf8EncodeChar c
  | .short e => [(escapes.lookup e).getD e]
  | .unit u => encodePoint u.toNat
  | .pair hi lo => String.utf8EncodeChar (Utf16.pair hi lo)

def WellFormed : Piece → Prop
  | .char c => shortEscapes.lookup c = none ∧ ¬ c.toNat < 0x20
  | .short e => e ≠ 0x75 ∧ (escapes.lookup e).isSome = true
  | .unit _ => True
  | .pair hi lo => isHigh hi = true ∧ isLow lo = true

def Apart : Piece → Piece → Prop
  | .unit u, .unit v => ¬(isHigh u = true ∧ isLow v = true)
  | _, _ => True

end Piece

structure Style (σ : Type*) where
  pieces : σ → List Piece
  wellFormed : ∀ s, ∀ p ∈ pieces s, p.WellFormed
  apart : ∀ s, (pieces s).IsChain Piece.Apart

variable {σ : Type*}

def Style.raw (st : Style σ) (s : σ) : List UInt8 := (st.pieces s).flatMap Piece.write

def Style.text (st : Style σ) (s : σ) : List UInt8 := (st.pieces s).flatMap Piece.read

variable {st : Style σ} {p : Piece} {ps : List Piece} {bs bs' rest acc : List UInt8}
  {ts ts' : List Token}

theorem lex_write (hp : p.WellFormed) :
    lex (.str acc) (p.write ++ rest) = lex (.str (acc ++ p.write)) rest := by
  cases p with
  | char c => exact lex_plain (plain_of_lookup hp.1 hp.2)
  | short e =>
    have hslash : lexByte 0x5C (.str acc) = some (.escape (acc ++ [0x5C]), []) := rfl
    have hlast : lexByte e (.escape (acc ++ [0x5C])) = some (.str (acc ++ [0x5C] ++ [e]), []) := by
      rw [lexByte, if_neg hp.1, if_pos hp.2]
    rw [Piece.write, List.cons_append, lex_silent hslash, List.singleton_append, lex_silent hlast,
      List.append_assoc]
    rfl
  | unit u => exact lex_escapeUnit u.toNat
  | pair hi lo =>
    rw [Piece.write, List.append_assoc, lex_escapeUnit, lex_escapeUnit, List.append_assoc]

theorem lex_pieces (h : ∀ p ∈ ps, p.WellFormed) :
    lex (.str acc) (ps.flatMap Piece.write ++ rest) =
      lex (.str (acc ++ ps.flatMap Piece.write)) rest := by
  induction ps generalizing acc with
  | nil => rw [List.flatMap_nil, List.nil_append, List.append_nil]
  | cons p ps ih =>
    obtain ⟨hp, hps⟩ := List.forall_mem_cons.mp h
    rw [List.flatMap_cons, List.append_assoc, lex_write hp, ih hps, List.append_assoc]

theorem valid_escapeUnit (n : ℕ) : Utf8.Valid (escapeUnit n) := by
  have hdigit : ∀ m, (hexDigit (m % 16)).toNat < 0x80 := by
    have hall : ∀ m < 16, (hexDigit m).toNat < 0x80 := by decide
    exact fun m => hall _ (Nat.mod_lt m (by decide))
  apply valid_ascii
  simp [escapeUnit, hdigit]

theorem escapes_ascii {e : UInt8} (h : (escapes.lookup e).isSome = true) : e.toNat < 0x80 := by
  have hall : ∀ x ∈ escapes, x.1.toNat < 0x80 := by simp [escapes]
  obtain ⟨c, hc⟩ := Option.isSome_iff_exists.mp h
  obtain ⟨l₁, l₂, heq, -⟩ := List.lookup_eq_some_iff.mp hc
  exact hall (e, c) (by rw [heq]; simp)

theorem valid_write (hp : p.WellFormed) : Utf8.Valid p.write := by
  cases p with
  | char c => exact ⟨[c], List.append_nil _⟩
  | short e =>
    apply valid_ascii
    simp [Piece.write, escapes_ascii hp.2]
  | unit u => exact valid_escapeUnit _
  | pair hi lo => exact (valid_escapeUnit _).append (valid_escapeUnit _)

theorem valid_pieces (h : ∀ p ∈ ps, p.WellFormed) : Utf8.Valid (ps.flatMap Piece.write) := by
  rw [List.flatMap_def]
  apply Utf8.Valid.flatten
  intro bs hbs
  obtain ⟨p, hp, rfl⟩ := List.mem_map.mp hbs
  exact valid_write (h p hp)

theorem unescape_pair {hi lo : UInt16} (hhi : isHigh hi = true) (hlo : isLow lo = true) :
    unescape (escapeUnit hi.toNat ++ escapeUnit lo.toNat ++ rest) =
      String.utf8EncodeChar (Utf16.pair hi lo) ++ unescape rest := by
  have hunits := hexUnit_escapeUnit hi.toNat_lt
  have hunits' := hexUnit_escapeUnit lo.toNat_lt
  have hpair := pair_toNat hhi hlo
  simp only [isHigh, isLow, Bool.and_eq_true, decide_eq_true_eq] at hhi hlo
  simp only [escapeUnit, List.cons_append, List.nil_append]
  rw [unescape_spec.2.2.2 _ _ _ _ _ _ _ _ _ (by omega), hunits, hunits', ← encodePoint_char,
    hpair]

theorem unit_of_low {a b c d : UInt8} (hp : p.WellFormed)
    (h : p.write ++ rest = 0x5C :: 0x75 :: a :: b :: c :: d :: bs)
    (hlow : 0xDC00 ≤ hexUnit a b c d ∧ hexUnit a b c d < 0xE000) :
    ∃ u, p = .unit u ∧ isLow u = true := by
  have hescape : ∀ (u : UInt16) rest', escapeUnit u.toNat ++ rest' =
      0x5C :: 0x75 :: a :: b :: c :: d :: bs → u.toNat = hexUnit a b c d := by
    intro u rest' hu
    simp only [escapeUnit, List.cons_append, List.nil_append, List.cons.injEq, true_and] at hu
    obtain ⟨ha, hb, hc, hd, -⟩ := hu
    rw [← ha, ← hb, ← hc, ← hd, hexUnit_escapeUnit u.toNat_lt]
  cases p with
  | char ch =>
    have hplain := plain_of_lookup hp.1 hp.2
    cases hbytes : String.utf8EncodeChar ch with
    | nil => exact absurd hbytes String.utf8EncodeChar_ne_nil
    | cons x xs =>
      rw [Piece.write, hbytes, List.cons_append, List.cons.injEq] at h
      exact absurd h.1 (hplain x (by rw [hbytes]; exact List.mem_cons_self)).2.2
  | short e =>
    rw [Piece.write, List.cons_append, List.cons.injEq, List.singleton_append,
      List.cons.injEq] at h
    exact absurd h.2.1 hp.1
  | unit u =>
    refine ⟨u, rfl, ?_⟩
    rw [isLow, hescape u rest h]
    simpa using hlow
  | pair hi lo =>
    rw [Piece.write, List.append_assoc] at h
    have hhi := hp.1
    rw [isHigh, hescape hi _ h] at hhi
    simp only [Bool.and_eq_true, decide_eq_true_eq] at hhi
    omega

theorem unescape_pieces (h : ∀ p ∈ ps, p.WellFormed) (hapart : ps.IsChain Piece.Apart) :
    unescape (ps.flatMap Piece.write) = ps.flatMap Piece.read := by
  induction ps with
  | nil => rfl
  | cons p ps ih =>
    obtain ⟨hp, hps⟩ := List.forall_mem_cons.mp h
    rw [List.flatMap_cons, List.flatMap_cons, ← ih hps hapart.tail]
    cases p with
    | char c => exact unescape_plain fun b hb => (plain_of_lookup hp.1 hp.2 b hb).2.2
    | short e =>
      rw [Piece.write, List.cons_append, List.singleton_append, unescape_short hp.1]
      rfl
    | unit u =>
      refine unescape_unit u.toNat_lt fun hge hlt a b c d bs heq hlow => ?_
      cases ps with
      | nil => cases heq
      | cons q ps =>
        rw [List.flatMap_cons] at heq
        obtain ⟨v, rfl, hv⟩ := unit_of_low (List.forall_mem_cons.mp hps).1 heq hlow
        have hu : isHigh u = true := by simpa [isHigh] using ⟨hge, hlt⟩
        exact (List.isChain_cons_cons.mp hapart).1 ⟨hu, hv⟩
    | pair hi lo => exact unescape_pair hp.1 hp.2

theorem Style.lex_raw (st : Style σ) (s : σ) :
    lex (.str acc) (st.raw s ++ rest) = lex (.str (acc ++ st.raw s)) rest :=
  lex_pieces (st.wellFormed s)

theorem Style.unquote_raw (st : Style σ) (s : σ) : unquote (st.raw s) = st.text s := by
  obtain ⟨cs, hcs⟩ := valid_pieces (st.wellFormed s)
  have hscan : Utf8.scan String.utf8EncodeChar (String.utf8EncodeChar '\uFFFD')
      (Utf8.encode cs ++ []) = cs.flatMap String.utf8EncodeChar ++ [] := Utf8.scan_encode_append
  rw [List.append_nil, List.append_nil] at hscan
  rw [unquote, Style.raw, ← hcs, hscan, ← Utf8.encode, hcs,
    unescape_pieces (st.wellFormed s) (st.apart s)]
  rfl

def digits (n : ℕ) : List UInt8 := n.repr.toList.map fun c => .ofNat c.toNat

def decimal (n : ℤ) : List UInt8 := (if n < 0 then [0x2D] else []) ++ digits n.natAbs

theorem head_toDigits {cs : List Char} {n : ℕ} (h : Nat.toDigits 10 n = '0' :: cs) : cs = [] := by
  induction n using Nat.strongRecOn generalizing cs with
  | ind n ih =>
    rw [Nat.toDigits_eq_if (by decide)] at h
    split at h
    · exact (List.cons.inj h).2.symm
    · next hn =>
      have hne : Nat.toDigits 10 (n / 10) ≠ [] := Nat.toDigits_ne_nil
      obtain ⟨c, cs', hcs⟩ := List.exists_cons_of_ne_nil hne
      rw [hcs, List.cons_append, List.cons.injEq] at h
      obtain ⟨rfl, -⟩ := h
      obtain rfl := ih (n / 10) (by omega) hcs
      have hzero : n / 10 = 0 := by
        rw [← Nat.ofDigitChars_ten_toDigits (n := n / 10), hcs]
        rfl
      omega

theorem toNat_digit {c : Char} (hc : c.isDigit = true) :
    (UInt8.ofNat c.toNat).toNat = c.toNat ∧ 0x30 ≤ c.toNat ∧ c.toNat ≤ 0x39 := by
  have hrange : 0x30 ≤ c.toNat ∧ c.toNat ≤ 0x39 := by
    simpa [Char.isDigit, UInt32.le_iff_toNat_le] using hc
  refine ⟨?_, hrange⟩
  rw [UInt8.toNat_ofNat']
  omega

theorem isDigit_digits (n : ℕ) : ∀ b ∈ digits n, isDigit b = true := by
  intro b hb
  obtain ⟨c, hc, rfl⟩ := List.mem_map.mp hb
  rw [Nat.toList_repr] at hc
  obtain ⟨hnat, hge, hle⟩ :=
    toNat_digit (Nat.isDigit_of_mem_toDigits (by decide) (by decide) hc)
  simp only [isDigit, Bool.and_eq_true, decide_eq_true_eq, UInt8.le_iff_toNat_le, hnat]
  exact ⟨hge, hle⟩

theorem digits_ne_nil (n : ℕ) : digits n ≠ [] := by
  rw [digits, Nat.toList_repr]
  exact fun h => Nat.toDigits_ne_nil (List.map_eq_nil_iff.mp h)

theorem isWord_of_isDigit {b : UInt8} (h : isDigit b = true) : isWord b = true := by
  simp [isWord, h]

theorem isWord_decimal (n : ℤ) : ∀ b ∈ decimal n, isWord b = true := by
  intro b hb
  rcases List.mem_append.mp hb with hb | hb
  · split at hb
    · obtain rfl := List.mem_singleton.mp hb
      rfl
    · cases hb
  · exact isWord_of_isDigit (isDigit_digits _ b hb)

theorem decimal_ne_nil (n : ℤ) : decimal n ≠ [] :=
  fun h => digits_ne_nil _ (List.append_eq_nil_iff.mp h).2

theorem head_decimal (n : ℤ) : (decimal n).head? = some 0x2D ↔ n < 0 := by
  obtain ⟨b, bs, hbs⟩ := List.exists_cons_of_ne_nil (digits_ne_nil n.natAbs)
  have hb : isDigit b = true := isDigit_digits n.natAbs b (by rw [hbs]; exact List.mem_cons_self)
  rw [decimal, hbs]
  split
  · next hn => exact iff_of_true rfl hn
  · next hn =>
    refine iff_of_false (fun h => ?_) hn
    obtain rfl : b = 0x2D := Option.some.inj h
    exact absurd hb (by decide)

theorem unsigned_decimal (n : ℤ) :
    (if (decimal n).head? = some 0x2D then (decimal n).tail else decimal n) =
      digits n.natAbs := by
  split
  · next h => rw [decimal, if_pos ((head_decimal n).mp h)]; rfl
  · next h => rw [decimal, if_neg (mt (head_decimal n).mpr h), List.nil_append]

theorem isNumber_decimal (n : ℤ) : isNumber (decimal n) = true := by
  rw [isNumber, unsigned_decimal]
  have hdigits := isDigit_digits n.natAbs
  cases hbs : digits n.natAbs with
  | nil => exact absurd hbs (digits_ne_nil _)
  | cons b bs =>
    rw [hbs] at hdigits
    obtain ⟨hb, hrest⟩ := List.forall_mem_cons.mp hdigits
    have hdrop : bs.dropWhile isDigit = [] := List.dropWhile_eq_nil_iff.mpr hrest
    split
    · next bs' heq =>
      obtain ⟨hzero, rfl⟩ := List.cons.inj heq
      -- a zero in front stands alone
      have hnil : bs = [] := by
        rw [digits, Nat.toList_repr] at hbs
        obtain ⟨c, cs, hcs, hc, rfl⟩ := List.map_eq_cons_iff.mp hbs
        have hdigit : c.isDigit = true := Nat.isDigit_of_mem_toDigits (by decide) (by decide)
          (hcs ▸ List.mem_cons_self)
        have hnat := (toNat_digit hdigit).1
        rw [hc, hzero] at hnat
        obtain rfl : c = '0' := Char.toNat_inj.mp hnat.symm
        rw [head_toDigits hcs, List.map_nil]
      rw [hnil]
      rfl
    · next b' bs' hne heq =>
      obtain ⟨rfl, rfl⟩ := List.cons.inj heq
      rw [hb, hdrop]
      rfl
    · next heq => cases heq

theorem wordValue_decimal (n : ℤ) : wordValue (decimal n) = some (.num (decimal n)) := by
  have hname : ∀ b bs, isLetter b = true → decimal n ≠ b :: bs := by
    intro b bs hb heq
    by_cases hn : n < 0
    · have hhead := (head_decimal n).mpr hn
      rw [heq] at hhead
      obtain rfl : b = 0x2D := Option.some.inj hhead
      exact absurd hb (by decide)
    · rw [decimal, if_neg hn, List.nil_append] at heq
      have hdigit := isDigit_digits n.natAbs b (by rw [heq]; exact List.mem_cons_self)
      simp only [isDigit, isLetter, Bool.and_eq_true, Bool.or_eq_true, decide_eq_true_eq,
        UInt8.le_iff_toNat_le] at hb hdigit
      have h39 : (0x39 : UInt8).toNat = 0x39 := rfl
      have h61 : (0x61 : UInt8).toNat = 0x61 := rfl
      have h41 : (0x41 : UInt8).toNat = 0x41 := rfl
      omega
  rw [wordValue, if_neg (hname _ _ (by decide)), if_neg (hname _ _ (by decide)),
    if_neg (hname _ _ (by decide)), if_pos (isNumber_decimal n)]

theorem foldl_digits (n : ℕ) :
    (digits n).foldl (fun n b => n * 10 + (b.toNat - 0x30)) 0 = n := by
  have hdigits : ∀ cs : List Char, (∀ c ∈ cs, c.isDigit = true) → ∀ k,
      (cs.map fun c => UInt8.ofNat c.toNat).foldl (fun n b => n * 10 + (b.toNat - 0x30)) k =
        Nat.ofDigitChars 10 cs k := by
    intro cs
    induction cs with
    | nil => intro _ k; rfl
    | cons c cs ih =>
      intro h k
      obtain ⟨hc, hcs⟩ := List.forall_mem_cons.mp h
      have hzero : ('0' : Char).toNat = 0x30 := rfl
      rw [List.map_cons, List.foldl_cons, ih hcs, Nat.ofDigitChars_cons, (toNat_digit hc).1,
        Nat.mul_comm, hzero]
  rw [digits, Nat.toList_repr,
    hdigits _ (fun c hc => Nat.isDigit_of_mem_toDigits (by decide) (by decide) hc),
    Nat.ofDigitChars_ten_toDigits]

theorem parseInt_decimal (n : ℤ) :
    parseInt (decimal n) = if -2 ^ 63 ≤ n ∧ n < 2 ^ 63 then some n else none := by
  have hall : (digits n.natAbs).all isDigit = true := List.all_eq_true.mpr (isDigit_digits _)
  have hvalue : (if n < 0 then -(n.natAbs : ℤ) else n.natAbs) = n := by
    split <;> omega
  unfold parseInt
  simp only [decide_eq_true_eq]
  rw [unsigned_decimal, foldl_digits]
  simp only [head_decimal, hvalue, hall, true_and]

inductive Doc (σ : Type*) where
  | null
  | bool (b : Bool)
  | int (n : ℤ)
  | str (s : σ)
  | arr (items : List (Doc σ))
  | obj (members : List (σ × Doc σ))

structure Layout where
  comma : List UInt8
  colon : List UInt8
  blank : ∀ b ∈ comma ++ colon, isSpace b = true

def literal : Option Bool → List UInt8
  | none => [0x6E, 0x75, 0x6C, 0x6C]
  | some true => [0x74, 0x72, 0x75, 0x65]
  | some false => [0x66, 0x61, 0x6C, 0x73, 0x65]

def Style.quote (st : Style σ) (s : σ) : List UInt8 := 0x22 :: st.raw s ++ [0x22]

section Writing

variable (ly : Layout) (st : Style σ)

mutual

def Doc.write : Doc σ → List UInt8
  | .null => literal none
  | .bool b => literal (some b)
  | .int n => decimal n
  | .str s => st.quote s
  | .arr items => 0x5B :: Doc.writeItems [] items
  | .obj members => 0x7B :: Doc.writeMembers [] members

/-- The items that are left of an array, with what separates them from the one before. -/
def Doc.writeItems (sep : List UInt8) : List (Doc σ) → List UInt8
  | [] => [0x5D]
  | d :: ds => sep ++ (d.write ++ Doc.writeItems (0x2C :: ly.comma) ds)

def Doc.writeMembers (sep : List UInt8) : List (σ × Doc σ) → List UInt8
  | [] => [0x7D]
  | (key, d) :: ms => sep ++ (st.quote key ++ (0x3A :: ly.colon ++
      (d.write ++ Doc.writeMembers (0x2C :: ly.comma) ms)))

end

mutual

def Doc.tokens : Doc σ → Token × List Token
  | .null => (.word (literal none), [])
  | .bool b => (.word (literal (some b)), [])
  | .int n => (.word (decimal n), [])
  | .str s => (.str (st.raw s), [])
  | .arr items => (.openArr, Doc.itemTokens [] items)
  | .obj members => (.openObj, Doc.memberTokens [] members)

def Doc.itemTokens (sep : List Token) : List (Doc σ) → List Token
  | [] => [.closeArr]
  | d :: ds => sep ++ (d.tokens.1 :: d.tokens.2 ++ Doc.itemTokens [.comma] ds)

def Doc.memberTokens (sep : List Token) : List (σ × Doc σ) → List Token
  | [] => [.closeObj]
  | (key, d) :: ms => sep ++ (.str (st.raw key) :: .colon ::
      (d.tokens.1 :: d.tokens.2 ++ Doc.memberTokens [.comma] ms))

end

mutual

def Doc.value : Doc σ → Value
  | .null => .null
  | .bool b => .bool b
  | .int n => .num (decimal n)
  | .str s => .str (st.text s)
  | .arr items => .arr (Doc.itemValues items)
  | .obj members => .obj (Doc.memberValues members)

def Doc.itemValues : List (Doc σ) → List Value
  | [] => []
  | d :: ds => d.value :: Doc.itemValues ds

def Doc.memberValues : List (σ × Doc σ) → List (List UInt8 × Value)
  | [] => []
  | (key, d) :: ms => (st.text key, d.value) :: Doc.memberValues ms

end

end Writing

mutual

def Doc.depth : Doc σ → ℕ
  | .arr items => Doc.itemsDepth items + 1
  | .obj members => Doc.membersDepth members + 1
  | .null | .bool _ | .int _ | .str _ => 0

def Doc.itemsDepth : List (Doc σ) → ℕ
  | [] => 0
  | d :: ds => max d.depth (Doc.itemsDepth ds)

def Doc.membersDepth : List (σ × Doc σ) → ℕ
  | [] => 0
  | (_, d) :: ms => max d.depth (Doc.membersDepth ms)

end

variable {ly : Layout} {d : Doc σ} {ds : List (Doc σ)} {ms : List (σ × Doc σ)} {w : List UInt8}

def Ends (bs : List UInt8) : Prop := ∀ b ∈ bs.head?, isWord b = false

theorem Ends.append (h : Ends bs) (h' : Ends bs') : Ends (bs ++ bs') := by
  cases bs with
  | nil => exact h'
  | cons b bs => exact h

/-- The text is cut into these tokens, unless a number at its end goes on. -/
def LexesTo (bs : List UInt8) (ts : List Token) : Prop :=
  ∀ rest, Ends rest → lex .idle (bs ++ rest) = (lex .idle rest).map (ts ++ ·)

theorem Lexes.lexesTo (h : Lexes bs ts) : LexesTo bs ts := fun rest _ => h rest

theorem Lexes.append_lexesTo (h : Lexes bs ts) (h' : LexesTo bs' ts') :
    LexesTo (bs ++ bs') (ts ++ ts') := by
  intro rest hrest
  rw [List.append_assoc, h, h' rest hrest, Option.map_map]
  congr 1
  funext x
  exact (List.append_assoc ts ts' x).symm

theorem LexesTo.append (h : LexesTo bs ts) (h' : LexesTo bs' ts') (hends : Ends bs') :
    LexesTo (bs ++ bs') (ts ++ ts') := by
  intro rest hrest
  rw [List.append_assoc, h _ (hends.append hrest), h' rest hrest, Option.map_map]
  congr 1
  funext x
  exact (List.append_assoc ts ts' x).symm

theorem lexes_blanks (h : ∀ b ∈ bs, isSpace b = true) : Lexes bs [] := by
  induction bs with
  | nil =>
    intro rest
    simp
  | cons b bs ih =>
    obtain ⟨hb, hbs⟩ := List.forall_mem_cons.mp h
    have hblank : lexByte b .idle = some (.idle, []) := by
      rw [lexByte, lexIdle, if_pos hb]
    intro rest
    rw [List.cons_append, lex_silent hblank]
    exact ih hbs rest

theorem lexes_separator {b : UInt8} {t : Token} (h : lexByte b .idle = some (.idle, [t]))
    (hbs : ∀ x ∈ bs, isSpace x = true) : Lexes (b :: bs) [t] :=
  (lexes_punctuation h).append (lexes_blanks hbs)

theorem lexIdle_word {b : UInt8} (h : isWord b = true) : lexIdle b = some (.word [b], []) := by
  have hspace : isSpace b = false := by
    rw [← Bool.not_eq_true]
    intro hspace
    simp only [isSpace, Bool.or_eq_true, decide_eq_true_eq] at hspace
    rcases hspace with ((rfl | rfl) | rfl) | rfl <;> cases h
  have hquote : b ≠ 0x22 := by
    rintro rfl
    cases h
  rw [lexIdle, hspace, if_neg Bool.false_ne_true, if_neg hquote, if_pos h]

theorem lex_word (h : ∀ b ∈ bs, isWord b = true) (hrest : Ends rest) :
    lex (.word w) (bs ++ rest) = (lex .idle rest).map (.word (w ++ bs) :: ·) := by
  induction bs generalizing w with
  | nil =>
    rw [List.nil_append, List.append_nil]
    cases rest with
    | nil => rfl
    | cons b rest =>
      have hb : isWord b = false := hrest b rfl
      have hbyte : lexByte b (.word w) = (lexIdle b).map fun r => (r.1, .word w :: r.2) := by
        rw [lexByte, hb, if_neg Bool.false_ne_true]
      rw [lex_cons, lex_cons, hbyte, lexByte]
      cases lexIdle b with
      | none => rfl
      | some r =>
        rw [Option.map_some, Option.bind_some, Option.bind_some, Option.map_map]
        rfl
  | cons b bs ih =>
    obtain ⟨hb, hbs⟩ := List.forall_mem_cons.mp h
    have hbyte : lexByte b (.word w) = some (.word (w ++ [b]), []) := by rw [lexByte, if_pos hb]
    rw [List.cons_append, lex_silent hbyte, ih hbs, List.append_assoc, List.singleton_append]

theorem lexesTo_word (hne : bs ≠ []) (h : ∀ b ∈ bs, isWord b = true) :
    LexesTo bs [.word bs] := by
  intro rest hrest
  cases bs with
  | nil => exact absurd rfl hne
  | cons b bs =>
    obtain ⟨hb, hbs⟩ := List.forall_mem_cons.mp h
    have hbyte : lexByte b .idle = some (.word [b], []) := lexIdle_word hb
    rw [List.cons_append, lex_silent hbyte, lex_word hbs hrest]
    rfl

theorem Style.lexes_quote (st : Style σ) (s : σ) : Lexes (st.quote s) [.str (st.raw s)] := by
  intro rest
  have hopen : lexByte 0x22 .idle = some (.str [], []) := rfl
  have hclose : lexByte 0x22 (.str (st.raw s)) = some (.idle, [.str (st.raw s)]) := rfl
  rw [Style.quote, List.cons_append, List.cons_append, lex_silent hopen, List.append_assoc,
    st.lex_raw, List.nil_append, List.singleton_append, lex_cons, hclose]
  rfl

theorem ends_items (hbs : ∀ b ∈ bs.head?, isWord b = false) (hne : bs ≠ []) :
    Ends (Doc.writeItems ly st bs ds) := by
  cases ds with
  | nil => exact fun b hb => by cases hb; rfl
  | cons d ds =>
    rw [Doc.writeItems]
    intro b hb
    rw [List.head?_append_of_ne_nil _ hne] at hb
    exact hbs b hb

theorem ends_members (hbs : ∀ b ∈ bs.head?, isWord b = false) (hne : bs ≠ []) :
    Ends (Doc.writeMembers ly st bs ms) := by
  cases ms with
  | nil => exact fun b hb => by cases hb; rfl
  | cons m ms =>
    rw [Doc.writeMembers]
    intro b hb
    rw [List.head?_append_of_ne_nil _ hne] at hb
    exact hbs b hb

theorem Layout.lexes_comma (ly : Layout) : Lexes (0x2C :: ly.comma) [.comma] :=
  lexes_separator rfl fun b hb => ly.blank b (List.mem_append_left _ hb)

theorem Layout.lexes_colon (ly : Layout) : Lexes (0x3A :: ly.colon) [.colon] :=
  lexes_separator rfl fun b hb => ly.blank b (List.mem_append_right _ hb)

theorem ends_comma : ∀ b ∈ (0x2C :: bs).head?, isWord b = false := by
  rintro b ⟨⟩
  rfl

theorem lexesTo_literal (b : Option Bool) : LexesTo (literal b) [.word (literal b)] := by
  rcases b with _ | _ | _ <;> exact lexesTo_word (List.cons_ne_nil _ _) (List.all_eq_true.mp rfl)

theorem lexes_nil : Lexes [] [] := lexes_blanks fun _ hb => absurd hb List.not_mem_nil

mutual

theorem Doc.lexesTo (ly : Layout) (st : Style σ) :
    ∀ d : Doc σ, LexesTo (d.write ly st) ((d.tokens st).1 :: (d.tokens st).2)
  | .null => lexesTo_literal none
  | .bool b => lexesTo_literal (some b)
  | .int n => lexesTo_word (decimal_ne_nil n) (isWord_decimal n)
  | .str s => (st.lexes_quote s).lexesTo
  | .arr items => (lexes_punctuation rfl).append_lexesTo
      (Doc.lexesTo_items ly st [] [] lexes_nil items)
  | .obj members => (lexes_punctuation rfl).append_lexesTo
      (Doc.lexesTo_members ly st [] [] lexes_nil members)

theorem Doc.lexesTo_items (ly : Layout) (st : Style σ) (sep : List UInt8) (ts : List Token)
    (hsep : Lexes sep ts) :
    ∀ ds : List (Doc σ), LexesTo (Doc.writeItems ly st sep ds) (Doc.itemTokens st ts ds)
  | [] => (lexes_punctuation rfl).lexesTo
  | d :: ds => hsep.append_lexesTo ((Doc.lexesTo ly st d).append
      (Doc.lexesTo_items ly st _ _ ly.lexes_comma ds)
      (ends_items ends_comma (List.cons_ne_nil _ _)))

theorem Doc.lexesTo_members (ly : Layout) (st : Style σ) (sep : List UInt8) (ts : List Token)
    (hsep : Lexes sep ts) : ∀ ms : List (σ × Doc σ),
      LexesTo (Doc.writeMembers ly st sep ms) (Doc.memberTokens st ts ms)
  | [] => (lexes_punctuation rfl).lexesTo
  | (key, d) :: ms => hsep.append_lexesTo ((st.lexes_quote key).append_lexesTo
      (ly.lexes_colon.append_lexesTo ((Doc.lexesTo ly st d).append
        (Doc.lexesTo_members ly st _ _ ly.lexes_comma ms)
        (ends_members ends_comma (List.cons_ne_nil _ _)))))

end

theorem first_ne_closeArr (d : Doc σ) : (d.tokens st).1 ≠ .closeArr := by
  cases d <;> nofun

theorem step_word {text : List UInt8} {v : Value} (h : wordValue text = some v)
    (stack : List Frame) : [Token.word text].foldlM Reader.step ⟨stack, .value⟩ =
      some (.give stack v) := by
  rw [List.foldlM_cons, step_value, Reader.value, h]
  rfl

mutual

theorem Doc.reads (st : Style σ) : ∀ (d : Doc σ) (stack : List Frame),
    stack.length + d.depth ≤ maxDepth →
      ((d.tokens st).1 :: (d.tokens st).2).foldlM Reader.step ⟨stack, .value⟩ =
        some (.give stack (d.value st))
  | .null, stack, _ => step_word rfl stack
  | .bool b, stack, _ => step_word (by cases b <;> rfl) stack
  | .int n, stack, _ => step_word (wordValue_decimal n) stack
  | .str s, stack, _ => by
    have hstr : Reader.value stack (.str (st.raw s)) = some (.give stack (.str (st.text s))) := by
      rw [Reader.value, st.unquote_raw]
    rw [Doc.tokens, List.foldlM_cons, step_value, hstr]
    rfl
  | .arr items, stack, h => by
    have hopen : Reader.value stack .openArr = some ⟨.arr [] :: stack, .firstValue⟩ := by
      rw [Doc.depth] at h
      rw [Reader.value, if_pos (by omega)]
    rw [Doc.tokens, List.foldlM_cons, step_value, hopen]
    exact Doc.reads_items st items stack (by rwa [Doc.depth] at h)
  | .obj members, stack, h => by
    have hopen : Reader.value stack .openObj = some ⟨stack, .key [] true⟩ := by
      rw [Doc.depth] at h
      rw [Reader.value, if_pos (by omega)]
    rw [Doc.tokens, List.foldlM_cons, step_value, hopen]
    exact Doc.reads_members st members stack (by rwa [Doc.depth] at h)

theorem Doc.reads_items (st : Style σ) : ∀ (ds : List (Doc σ)) (stack : List Frame),
    stack.length + (Doc.itemsDepth ds + 1) ≤ maxDepth →
      (Doc.itemTokens st [] ds).foldlM Reader.step ⟨.arr [] :: stack, .firstValue⟩ =
        some (.give stack (.arr (Doc.itemValues st ds)))
  | [], stack, _ => rfl
  | d :: ds, stack, h => by
    rw [Doc.itemsDepth] at h
    rw [Doc.itemTokens, List.nil_append, List.cons_append, List.foldlM_cons,
      step_firstValue (first_ne_closeArr d), ← List.foldlM_cons, ← List.cons_append,
      List.foldlM_append, Doc.reads st d _ (by rw [List.length_cons]; omega)]
    exact Doc.reads_moreItems st ds stack [] (d.value st) (by omega)

theorem Doc.reads_moreItems (st : Style σ) : ∀ (ds : List (Doc σ)) (stack : List Frame)
    (acc : List Value) (v : Value), stack.length + (Doc.itemsDepth ds + 1) ≤ maxDepth →
      (Doc.itemTokens st [.comma] ds).foldlM Reader.step ⟨.arr acc :: stack, .more v⟩ =
        some (.give stack (.arr (acc ++ v :: Doc.itemValues st ds)))
  | [], stack, acc, v, _ => rfl
  | d :: ds, stack, acc, v, h => by
    rw [Doc.itemsDepth] at h
    have hcomma : Reader.step ⟨.arr acc :: stack, .more v⟩ .comma =
        some ⟨.arr (acc ++ [v]) :: stack, .value⟩ := rfl
    rw [Doc.itemTokens, List.singleton_append, List.foldlM_cons, hcomma, Option.bind_eq_bind,
      Option.bind_some, List.foldlM_append, Doc.reads st d _ (by rw [List.length_cons]; omega)]
    have hmore := Doc.reads_moreItems st ds stack (acc ++ [v]) (d.value st) (by omega)
    rw [List.append_assoc] at hmore
    exact hmore

theorem Doc.reads_members (st : Style σ) : ∀ (ms : List (σ × Doc σ)) (stack : List Frame),
    stack.length + (Doc.membersDepth ms + 1) ≤ maxDepth →
      (Doc.memberTokens st [] ms).foldlM Reader.step ⟨stack, .key [] true⟩ =
        some (.give stack (.obj (Doc.memberValues st ms)))
  | [], stack, _ => rfl
  | (key, d) :: ms, stack, h => by
    rw [Doc.membersDepth] at h
    have hkey : Reader.step ⟨stack, .key [] true⟩ (.str (st.raw key)) =
        some ⟨stack, .colon [] (st.text key)⟩ := by
      rw [← st.unquote_raw]
      rfl
    have hcolon : Reader.step ⟨stack, .colon [] (st.text key)⟩ .colon =
        some ⟨.obj [] (st.text key) :: stack, .value⟩ := rfl
    rw [Doc.memberTokens, List.nil_append, List.foldlM_cons, hkey, Option.bind_eq_bind,
      Option.bind_some, List.foldlM_cons, hcolon, Option.bind_eq_bind, Option.bind_some,
      List.foldlM_append, Doc.reads st d _ (by rw [List.length_cons]; omega)]
    exact Doc.reads_moreMembers st ms stack [] (st.text key) (d.value st) (by omega)

theorem Doc.reads_moreMembers (st : Style σ) : ∀ (ms : List (σ × Doc σ)) (stack : List Frame)
    (acc : List (List UInt8 × Value)) (key : List UInt8) (v : Value),
      stack.length + (Doc.membersDepth ms + 1) ≤ maxDepth →
        (Doc.memberTokens st [.comma] ms).foldlM Reader.step ⟨.obj acc key :: stack, .more v⟩ =
          some (.give stack (.obj (acc ++ (key, v) :: Doc.memberValues st ms)))
  | [], stack, acc, key, v, _ => rfl
  | (key', d) :: ms, stack, acc, key, v, h => by
    rw [Doc.membersDepth] at h
    have hcomma : Reader.step ⟨.obj acc key :: stack, .more v⟩ .comma =
        some ⟨stack, .key (acc ++ [(key, v)]) false⟩ := rfl
    have hkey : Reader.step ⟨stack, .key (acc ++ [(key, v)]) false⟩ (.str (st.raw key')) =
        some ⟨stack, .colon (acc ++ [(key, v)]) (st.text key')⟩ := by
      rw [← st.unquote_raw]
      rfl
    have hcolon : Reader.step ⟨stack, .colon (acc ++ [(key, v)]) (st.text key')⟩ .colon =
        some ⟨.obj (acc ++ [(key, v)]) (st.text key') :: stack, .value⟩ := rfl
    rw [Doc.memberTokens, List.singleton_append, List.foldlM_cons, hcomma, Option.bind_eq_bind,
      Option.bind_some, List.foldlM_cons, hkey, Option.bind_eq_bind, Option.bind_some,
      List.foldlM_cons, hcolon, Option.bind_eq_bind, Option.bind_some,
      List.foldlM_append, Doc.reads st d _ (by rw [List.length_cons]; omega)]
    have hmore := Doc.reads_moreMembers st ms stack (acc ++ [(key, v)]) (st.text key')
      (d.value st) (by omega)
    rw [List.append_assoc] at hmore
    exact hmore

end

theorem Doc.parse_write (ly : Layout) (st : Style σ) (h : d.depth ≤ maxDepth) :
    parse (d.write ly st) = some (d.value st) := by
  have hlex := Doc.lexesTo ly st d [] fun b hb => by cases hb
  rw [List.append_nil, lex, Option.map_some, List.append_nil] at hlex
  rw [parse, hlex, Option.bind_eq_bind, Option.bind_some, Doc.reads st d [] (by simpa using h)]
  rfl

theorem ascii_of_isWord {b : UInt8} (h : isWord b = true) : b.toNat < 0x80 := by
  simp only [isWord, isDigit, isLetter, Bool.or_eq_true, Bool.and_eq_true, decide_eq_true_eq,
    UInt8.le_iff_toNat_le] at h
  have h39 : (0x39 : UInt8).toNat = 0x39 := rfl
  have h5a : (0x5A : UInt8).toNat = 0x5A := rfl
  have h7a : (0x7A : UInt8).toNat = 0x7A := rfl
  rcases h with (((rfl | rfl) | rfl) | h) | h | h
  · decide
  · decide
  · decide
  · omega
  · omega
  · omega

theorem ascii_of_isSpace {b : UInt8} (h : isSpace b = true) : b.toNat < 0x80 := by
  simp only [isSpace, Bool.or_eq_true, decide_eq_true_eq] at h
  rcases h with ((rfl | rfl) | rfl) | rfl <;> decide

theorem valid_cons {b : UInt8} (hb : b.toNat < 0x80) (h : Utf8.Valid bs) :
    Utf8.Valid (b :: bs) := by
  have hone : Utf8.Valid [b] := valid_ascii (List.forall_mem_singleton.mpr hb)
  exact hone.append h

theorem valid_literal (b : Option Bool) : Utf8.Valid (literal b) := by
  rcases b with _ | _ | _ <;> exact valid_ascii (by simp [literal])

theorem Style.valid_quote (st : Style σ) (s : σ) : Utf8.Valid (st.quote s) :=
  valid_cons (by decide) ((valid_pieces (st.wellFormed s)).append
    (valid_cons (by decide) ⟨[], rfl⟩))

theorem Layout.valid_comma (ly : Layout) : Utf8.Valid (0x2C :: ly.comma) :=
  valid_cons (by decide) (valid_ascii fun b hb =>
    ascii_of_isSpace (ly.blank b (List.mem_append_left _ hb)))

theorem Layout.valid_colon (ly : Layout) : Utf8.Valid (0x3A :: ly.colon) :=
  valid_cons (by decide) (valid_ascii fun b hb =>
    ascii_of_isSpace (ly.blank b (List.mem_append_right _ hb)))

mutual

theorem Doc.valid_write (ly : Layout) (st : Style σ) : ∀ d : Doc σ, Utf8.Valid (d.write ly st)
  | .null => valid_literal none
  | .bool b => valid_literal (some b)
  | .int n => valid_ascii fun b hb => ascii_of_isWord (isWord_decimal n b hb)
  | .str s => st.valid_quote s
  | .arr items => valid_cons (by decide) (Doc.valid_writeItems ly st [] ⟨[], rfl⟩ items)
  | .obj members => valid_cons (by decide) (Doc.valid_writeMembers ly st [] ⟨[], rfl⟩ members)

theorem Doc.valid_writeItems (ly : Layout) (st : Style σ) (sep : List UInt8)
    (hsep : Utf8.Valid sep) : ∀ ds : List (Doc σ), Utf8.Valid (Doc.writeItems ly st sep ds)
  | [] => valid_cons (by decide) ⟨[], rfl⟩
  | d :: ds => hsep.append ((Doc.valid_write ly st d).append
      (Doc.valid_writeItems ly st _ ly.valid_comma ds))

theorem Doc.valid_writeMembers (ly : Layout) (st : Style σ) (sep : List UInt8)
    (hsep : Utf8.Valid sep) :
    ∀ ms : List (σ × Doc σ), Utf8.Valid (Doc.writeMembers ly st sep ms)
  | [] => valid_cons (by decide) ⟨[], rfl⟩
  | (key, d) :: ms => hsep.append ((st.valid_quote key).append (ly.valid_colon.append
      ((Doc.valid_write ly st d).append (Doc.valid_writeMembers ly st _ ly.valid_comma ms))))

end

end Json
