import CodeRunner.Lib.Json
import CodeRunner.Lib.Utf16

/-! # Writing JSON documents

A string of 16-bit units is written with the escapes that it needs and no others; a surrogate
without its other half is escaped, so that the document is always valid UTF-8. Strings, arrays and
objects are read back as what they were written for, but for the surrogates, which are lost.
-/

namespace Json

open Utf16

/-- The characters that have a short escape, with what stands after its backslash. -/
def shortEscapes : List (Char × UInt8) :=
  [('"', 0x22), ('\\', 0x5C), ('\x08', 0x62), ('\x0C', 0x66), ('\n', 0x6E), ('\r', 0x72),
    ('\t', 0x74)]

def hexDigit (n : ℕ) : UInt8 := .ofNat (if n < 10 then n + 0x30 else n + 0x57)

def escapeUnit (n : ℕ) : List UInt8 :=
  [0x5C, 0x75, hexDigit (n / 0x1000 % 16), hexDigit (n / 0x100 % 16), hexDigit (n / 0x10 % 16),
    hexDigit (n % 16)]

def quotePoint : Point → List UInt8
  | .lone u => escapeUnit u.toNat
  | .char c =>
    match shortEscapes.lookup c with
    | some e => [0x5C, e]
    | none => if c.toNat < 0x20 then escapeUnit c.toNat else String.utf8EncodeChar c

def quoteRaw (us : List UInt16) : List UInt8 := (points us).flatMap quotePoint

def quote (us : List UInt16) : List UInt8 := 0x22 :: quoteRaw us ++ [0x22]

def separate : List (List UInt8) → List UInt8
  | [] => []
  | [x] => x
  | x :: xs => x ++ 0x2C :: separate xs

def writeArray (items : List (List UInt8)) : List UInt8 := 0x5B :: separate items ++ [0x5D]

def writeObject (members : List (List UInt16 × List UInt8)) : List UInt8 :=
  0x7B :: separate (members.map fun m => quote m.1 ++ 0x3A :: m.2) ++ [0x7D]

variable {mode : Mode} {raw bs rest : List UInt8} {b : UInt8} {c : Char} {p : Point}
  {us : List UInt16} {n : ℕ}

theorem hexValue_hexDigit : ∀ n < 16, hexValue (hexDigit n) = some n := by
  decide

theorem shortEscapes_lookup (c : Char) (e : UInt8) (h : shortEscapes.lookup c = some e) :
    e ≠ 0x75 ∧ c.toNat < 0x80 ∧ escapes.lookup e = some (.ofNat c.toNat) := by
  have hall : ∀ ce ∈ shortEscapes, ce.2 ≠ 0x75 ∧ ce.1.toNat < 0x80 ∧
      escapes.lookup ce.2 = some (.ofNat ce.1.toNat) := by
    decide
  obtain ⟨l₁, l₂, heq, -⟩ := List.lookup_eq_some_iff.mp h
  exact hall (c, e) (by rw [heq]; simp)

theorem lex_cons (mode : Mode) (b : UInt8) (bs : List UInt8) :
    lex mode (b :: bs) = (lexByte b mode).bind fun r => (lex r.1 bs).map (r.2 ++ ·) := by
  rw [lex]
  cases lexByte b mode with
  | none => rfl
  | some r => cases hrest : lex r.1 bs <;> simp [hrest]

theorem lex_silent {mode' : Mode} (h : lexByte b mode = some (mode', [])) :
    lex mode (b :: bs) = lex mode' bs := by
  rw [lex_cons, h]
  simp

theorem lexByte_plain (h : 0x20 ≤ b.toNat ∧ b ≠ 0x22 ∧ b ≠ 0x5C) :
    lexByte b (.str raw) = some (.str (raw ++ [b]), []) := by
  obtain ⟨hge, hquote, hslash⟩ := h
  have hlt : ¬ b < 0x20 := by
    rw [UInt8.lt_iff_toNat_lt]
    exact Nat.not_lt.mpr hge
  rw [lexByte, if_neg hquote, if_neg hslash, if_neg hlt]

theorem lex_plain (h : ∀ b ∈ bs, 0x20 ≤ b.toNat ∧ b ≠ 0x22 ∧ b ≠ 0x5C) :
    lex (.str raw) (bs ++ rest) = lex (.str (raw ++ bs)) rest := by
  induction bs generalizing raw with
  | nil => rw [List.nil_append, List.append_nil]
  | cons b bs ih =>
    obtain ⟨hb, hbs⟩ := List.forall_mem_cons.mp h
    rw [List.cons_append, lex_silent (lexByte_plain hb), ih hbs, List.append_assoc,
      List.singleton_append]

theorem lex_escapeUnit (n : ℕ) :
    lex (.str raw) (escapeUnit n ++ rest) = lex (.str (raw ++ escapeUnit n)) rest := by
  have hhex : ∀ m raw k, lexByte (hexDigit (m % 16)) (.hex raw k) =
      some (if k = 3 then (.str (raw ++ [hexDigit (m % 16)]), [])
        else (.hex (raw ++ [hexDigit (m % 16)]) (k + 1), [])) := by
    intro m raw k
    rw [lexByte, hexValue_hexDigit _ (Nat.mod_lt _ (by decide)), Option.isNone_some,
      if_neg Bool.false_ne_true, apply_ite some]
  have hslash : lexByte 0x5C (.str raw) = some (.escape (raw ++ [0x5C]), []) := rfl
  have hu : ∀ raw, lexByte 0x75 (.escape raw) = some (.hex (raw ++ [0x75]) 0, []) := fun _ => rfl
  simp only [escapeUnit, List.cons_append, List.nil_append]
  rw [lex_silent hslash, lex_silent (hu _), lex_silent (hhex _ _ 0), lex_silent (hhex _ _ 1),
    lex_silent (hhex _ _ 2), lex_silent (hhex _ _ 3)]
  simp

theorem plain_of_lookup (h : shortEscapes.lookup c = none) (hc : ¬ c.toNat < 0x20) :
    ∀ b ∈ String.utf8EncodeChar c, 0x20 ≤ b.toNat ∧ b ≠ 0x22 ∧ b ≠ 0x5C := by
  rcases Utf8.encodeChar_ascii c with ⟨hlt, heq⟩ | ⟨-, hall⟩
  · rw [heq, List.forall_mem_singleton, UInt8.toNat_ofNat']
    refine ⟨by omega, ?_, ?_⟩
    · intro hquote
      have hnat := congrArg UInt8.toNat hquote
      rw [UInt8.toNat_ofNat', Nat.mod_eq_of_lt (by omega)] at hnat
      obtain rfl : c = '"' := Char.toNat_inj.mp hnat
      cases h
    · intro hslash
      have hnat := congrArg UInt8.toNat hslash
      rw [UInt8.toNat_ofNat', Nat.mod_eq_of_lt (by omega)] at hnat
      obtain rfl : c = '\\' := Char.toNat_inj.mp hnat
      cases h
  · intro b hb
    have hge := hall b hb
    refine ⟨by omega, ?_, ?_⟩
    · rintro rfl
      exact absurd hge (by decide)
    · rintro rfl
      exact absurd hge (by decide)

theorem lex_quotePoint (p : Point) :
    lex (.str raw) (quotePoint p ++ rest) = lex (.str (raw ++ quotePoint p)) rest := by
  cases p with
  | lone u => exact lex_escapeUnit u.toNat
  | char c =>
    rw [quotePoint]
    split
    · next e he =>
      obtain ⟨hu, -, hescape⟩ := shortEscapes_lookup c e he
      have hslash : lexByte 0x5C (.str raw) = some (.escape (raw ++ [0x5C]), []) := rfl
      have hlast : lexByte e (.escape (raw ++ [0x5C])) =
          some (.str (raw ++ [0x5C] ++ [e]), []) := by
        rw [lexByte, if_neg hu, hescape]
        rfl
      rw [List.cons_append, lex_silent hslash, List.singleton_append, lex_silent hlast,
        List.append_assoc]
      rfl
    · next hnone =>
      split
      · exact lex_escapeUnit c.toNat
      · next hc => exact lex_plain (plain_of_lookup hnone hc)

theorem lex_quote (us : List UInt16) (rest : List UInt8) :
    lex .idle (quote us ++ rest) = (lex .idle rest).map ([.str (quoteRaw us)] ++ ·) := by
  have hpoints : ∀ (ps : List Point) (raw : List UInt8) (rest : List UInt8),
      lex (.str raw) (ps.flatMap quotePoint ++ rest) =
        lex (.str (raw ++ ps.flatMap quotePoint)) rest := by
    intro ps
    induction ps with
    | nil => simp
    | cons p ps ih =>
      intro raw rest
      rw [List.flatMap_cons, List.append_assoc, lex_quotePoint, ih, List.append_assoc]
  have hopen : lexByte 0x22 .idle = some (.str [], []) := rfl
  have hclose : lexByte 0x22 (.str (quoteRaw us)) = some (.idle, [.str (quoteRaw us)]) := rfl
  rw [quote, List.cons_append, List.cons_append, lex_silent hopen, List.append_assoc, quoteRaw,
    hpoints, List.nil_append, ← quoteRaw, List.singleton_append, lex_cons, hclose]
  rfl

def Unpaired (n : ℕ) (rest : List UInt8) : Prop :=
  0xD800 ≤ n → n < 0xDC00 → ∀ a b c d bs, rest = 0x5C :: 0x75 :: a :: b :: c :: d :: bs →
    ¬(0xDC00 ≤ hexUnit a b c d ∧ hexUnit a b c d < 0xE000)

theorem unescape_spec :
    (∀ b bs, b ≠ 0x5C → unescape (b :: bs) = b :: unescape bs) ∧
      (∀ e bs, e ≠ 0x75 →
        unescape (0x5C :: e :: bs) = (escapes.lookup e).getD e :: unescape bs) ∧
      (∀ a b c d bs, Unpaired (hexUnit a b c d) bs →
        unescape (0x5C :: 0x75 :: a :: b :: c :: d :: bs) =
          encodePoint (hexUnit a b c d) ++ unescape bs) ∧
      ∀ a b c d a' b' c' d' bs, 0xD800 ≤ hexUnit a b c d ∧ hexUnit a b c d < 0xDC00 ∧
        0xDC00 ≤ hexUnit a' b' c' d' ∧ hexUnit a' b' c' d' < 0xE000 →
          unescape
              (0x5C :: 0x75 :: a :: b :: c :: d :: 0x5C :: 0x75 :: a' :: b' :: c' :: d' :: bs) =
            encodePoint (0x10000 + (hexUnit a b c d - 0xD800) * 0x400 +
              (hexUnit a' b' c' d' - 0xDC00)) ++ unescape bs := by
  refine ⟨fun b bs hb => ?_, fun e bs he => ?_, fun a b c d rest h => ?_, ?_⟩
  · rw [unescape]
    all_goals
      intros
      contradiction
  · rw [unescape]
    all_goals
      intros
      simp_all
  · by_cases hnext : ∃ a b c d bs, rest = 0x5C :: 0x75 :: a :: b :: c :: d :: bs
    · obtain ⟨a', b', c', d', bs, rfl⟩ := hnext
      rw [unescape, if_neg]
      rintro ⟨hge, hlt, hlow⟩
      exact h hge hlt a' b' c' d' bs rfl hlow
    · rw [unescape]
      intro a b c d bs heq
      exact hnext ⟨a, b, c, d, bs, heq⟩
  · intro a b c d a' b' c' d' bs h
    rw [unescape, if_pos h]

theorem unescape_plain (h : ∀ b ∈ bs, b ≠ 0x5C) : unescape (bs ++ rest) = bs ++ unescape rest := by
  induction bs with
  | nil => rfl
  | cons b bs ih =>
    obtain ⟨hb, hbs⟩ := List.forall_mem_cons.mp h
    rw [List.cons_append, unescape_spec.1 b _ hb, ih hbs, List.cons_append]

theorem unescape_short {e : UInt8} (h : e ≠ 0x75) :
    unescape (0x5C :: e :: bs) = (escapes.lookup e).getD e :: unescape bs :=
  unescape_spec.2.1 e bs h

theorem hexUnit_escapeUnit (h : n < 0x10000) :
    hexUnit (hexDigit (n / 0x1000 % 16)) (hexDigit (n / 0x100 % 16)) (hexDigit (n / 0x10 % 16))
      (hexDigit (n % 16)) = n := by
  have hlt : ∀ m, m % 16 < 16 := fun m => Nat.mod_lt m (by decide)
  simp only [hexUnit, List.foldl_cons, List.foldl_nil, hexValue_hexDigit _ (hlt _),
    Option.getD_some]
  omega

theorem unescape_unit (hn : n < 0x10000) (h : Unpaired n rest) :
    unescape (escapeUnit n ++ rest) = encodePoint n ++ unescape rest := by
  have hunit := hexUnit_escapeUnit hn
  simp only [escapeUnit, List.cons_append, List.nil_append]
  rw [unescape_spec.2.2.1 _ _ _ _ _ (by rwa [hunit]), hunit]

theorem encodePoint_lone {u : UInt16} (h : isHigh u ∨ isLow u) :
    encodePoint u.toNat = String.utf8EncodeChar '\uFFFD' := by
  simp only [isHigh, isLow, Bool.and_eq_true, decide_eq_true_eq] at h
  rw [encodePoint, if_pos (by omega)]

theorem encodePoint_char (c : Char) : encodePoint c.toNat = String.utf8EncodeChar c := by
  have hvalue : c.toNat = c.val.toNat := rfl
  rw [encodePoint, if_neg, Char.ofNat_toNat]
  rcases c.valid with hlt | ⟨hgt, -⟩ <;> omega

theorem unescape_quotePoint (hlone : ∀ u, p = .lone u → isHigh u ∨ isLow u)
    (hpair : ∀ u, p = .lone u → Unpaired u.toNat rest) :
    unescape (quotePoint p ++ rest) = String.utf8EncodeChar p.decode ++ unescape rest := by
  cases p with
  | lone u =>
    rw [quotePoint, unescape_unit u.toNat_lt (hpair u rfl), encodePoint_lone (hlone u rfl)]
    rfl
  | char c =>
    rw [quotePoint, Point.decode]
    split
    · next e he =>
      obtain ⟨hu, hlt, hescape⟩ := shortEscapes_lookup c e he
      rw [List.cons_append, List.singleton_append, unescape_short hu, hescape, Option.getD_some]
      rcases Utf8.encodeChar_ascii c with ⟨-, heq⟩ | ⟨hge, -⟩
      · rw [heq]
        rfl
      · omega
    · next hnone =>
      split
      · next hc =>
        rw [unescape_unit (by omega) fun hge _ => by omega, encodePoint_char]
      · next hc => exact unescape_plain fun b hb => (plain_of_lookup hnone hc b hb).2.2

theorem head?_of_points {u : UInt16} {ps : List Point} (h : points us = .lone u :: ps) :
    us.head? = some u := by
  have hunit : ∀ v, unit v = .lone u → v = u := by
    intro v hv
    unfold unit at hv
    split at hv <;> cases hv
    rfl
  cases us using points.induct with
  | case1 hi lo us hpair =>
    rw [points, if_pos hpair] at h
    cases h
  | case2 hi lo us hpair =>
    rw [points, if_neg hpair, List.cons.injEq] at h
    rw [List.head?_cons, hunit hi h.1]
  | case3 v =>
    rw [points, List.cons.injEq] at h
    rw [List.head?_cons, hunit v h.1]
  | case4 => cases h

theorem unpaired_of_head (h : ∀ u ∈ us.head?, isLow u = false) : Unpaired n (quoteRaw us) := by
  intro _ _ a b c d bs heq hlow
  rw [quoteRaw] at heq
  cases hps : points us with
  | nil =>
    rw [hps] at heq
    cases heq
  | cons p ps =>
    rw [hps, List.flatMap_cons] at heq
    have hescape : ∀ m, escapeUnit m ++ ps.flatMap quotePoint =
        0x5C :: 0x75 :: a :: b :: c :: d :: bs → m < 0x10000 → m = hexUnit a b c d := by
      intro m hm hlt
      simp only [escapeUnit, List.cons_append, List.nil_append, List.cons.injEq, true_and] at hm
      obtain ⟨ha, hb, hc, hd, -⟩ := hm
      rw [← ha, ← hb, ← hc, ← hd, hexUnit_escapeUnit hlt]
    cases p with
    | lone u =>
      have hu := h u (head?_of_points hps)
      have heq := hescape u.toNat heq u.toNat_lt
      simp only [isLow, heq, Bool.and_eq_false_iff, decide_eq_false_iff_not] at hu
      omega
    | char ch =>
      rw [quotePoint] at heq
      split at heq
      · next e he =>
        rw [List.cons_append, List.cons.injEq, List.singleton_append, List.cons.injEq] at heq
        exact (shortEscapes_lookup ch e he).1 heq.2.1
      · next hnone =>
        split at heq
        · next hc =>
          have heq := hescape ch.toNat heq (by omega)
          omega
        · next hc =>
          have hplain := plain_of_lookup hnone hc
          cases hbytes : String.utf8EncodeChar ch with
          | nil => exact String.utf8EncodeChar_ne_nil hbytes
          | cons x xs =>
            rw [hbytes, List.cons_append, List.cons.injEq] at heq
            exact (hplain x (by rw [hbytes]; exact List.mem_cons_self)).2.2 heq.1

theorem unescape_quoteRaw (us : List UInt16) :
    unescape (quoteRaw us) = Utf8.encode (Utf16.decode us) := by
  have hunit : ∀ v u, unit v = .lone u → v = u ∧ (isHigh u ∨ isLow u) := by
    intro v u hv
    unfold unit at hv
    split at hv
    · next hsurrogate =>
      cases hv
      exact ⟨rfl, Bool.or_eq_true_iff.mp hsurrogate⟩
    · cases hv
  have hcons : ∀ v us, ¬(isHigh v ∧ ∃ lo ∈ us.head?, isLow lo) →
      unescape (quoteRaw us) = Utf8.encode (Utf16.decode us) →
        unescape (quoteRaw (v :: us)) = Utf8.encode (Utf16.decode (v :: us)) := by
    intro v us hpair ih
    have hdecode : Utf16.decode (v :: us) = (unit v).decode :: Utf16.decode us := by
      rw [Utf16.decode, points_cons hpair]
      rfl
    rw [quoteRaw, points_cons hpair, List.flatMap_cons, ← quoteRaw, unescape_quotePoint, ih,
      hdecode]
    · rfl
    · exact fun u hu => (hunit v u hu).2
    · intro u hu
      obtain ⟨rfl, -⟩ := hunit v u hu
      intro hge hlt
      apply unpaired_of_head _ hge hlt
      intro lo hlo
      rw [← Bool.not_eq_true]
      intro hlow
      apply hpair
      refine ⟨?_, lo, hlo, hlow⟩
      simp only [isHigh, Bool.and_eq_true, decide_eq_true_eq]
      exact ⟨hge, hlt⟩
  induction us using points.induct with
  | case1 hi lo us hpair ih =>
    have hdecode : Utf16.decode (hi :: lo :: us) = pair hi lo :: Utf16.decode us := by
      rw [Utf16.decode, points, if_pos hpair]
      rfl
    have hchar : ∀ {P : UInt16 → Prop} u, Point.char (pair hi lo) = .lone u → P u := by
      intro P u hu
      cases hu
    rw [quoteRaw, points, if_pos hpair, List.flatMap_cons, ← quoteRaw,
      unescape_quotePoint hchar hchar, ih, hdecode]
    rfl
  | case2 hi lo us hpair ih =>
    apply hcons _ _ _ ih
    rintro ⟨hhi, lo', hlo', hlow⟩
    obtain rfl : lo = lo' := Option.some.inj hlo'
    exact hpair (Bool.and_eq_true_iff.mpr ⟨hhi, hlow⟩)
  | case3 u =>
    apply hcons _ _ _ rfl
    rintro ⟨-, lo, hlo, -⟩
    cases hlo
  | case4 => rfl

theorem valid_ascii (h : ∀ b ∈ bs, b.toNat < 0x80) : Utf8.Valid bs := by
  refine ⟨bs.map fun b => .ofNat b.toNat, ?_⟩
  induction bs with
  | nil => rfl
  | cons b bs ih =>
    obtain ⟨hb, hbs⟩ := List.forall_mem_cons.mp h
    have hnat : (Char.ofNat b.toNat).toNat = b.toNat := toNat_ofNat (.inl (by omega))
    rw [List.map_cons, Utf8.encode_cons, ih hbs]
    rcases Utf8.encodeChar_ascii (.ofNat b.toNat) with ⟨-, heq⟩ | ⟨hge, -⟩
    · rw [heq, hnat, UInt8.ofNat_toNat]
      rfl
    · omega

theorem valid_quoteRaw (us : List UInt16) : Utf8.Valid (quoteRaw us) := by
  have hdigit : ∀ m, (hexDigit (m % 16)).toNat < 0x80 := by
    have hall : ∀ m < 16, (hexDigit m).toNat < 0x80 := by decide
    exact fun m => hall _ (Nat.mod_lt m (by decide))
  have hescape : ∀ m, Utf8.Valid (escapeUnit m) := by
    intro m
    apply valid_ascii
    simp [escapeUnit, hdigit]
  rw [quoteRaw, List.flatMap_def]
  apply Utf8.Valid.flatten
  intro bs hbs
  obtain ⟨p, -, rfl⟩ := List.mem_map.mp hbs
  cases p with
  | lone u => exact hescape _
  | char c =>
    rw [quotePoint]
    split
    · next e he =>
      apply valid_ascii
      have hall : ∀ ce ∈ shortEscapes, ce.2.toNat < 0x80 := by decide
      obtain ⟨l₁, l₂, heq, -⟩ := List.lookup_eq_some_iff.mp he
      have hlt : e.toNat < 0x80 := hall (c, e) (by rw [heq]; simp)
      simp [hlt]
    · split
      · exact hescape _
      · exact ⟨[c], by simp [Utf8.encode]⟩

theorem unquote_quoteRaw (us : List UInt16) :
    unquote (quoteRaw us) = Utf8.encode (Utf16.decode us) := by
  obtain ⟨cs, hcs⟩ := valid_quoteRaw us
  have hscan : Utf8.scan String.utf8EncodeChar (String.utf8EncodeChar '\uFFFD')
      (Utf8.encode cs ++ []) = cs.flatMap String.utf8EncodeChar ++ [] := Utf8.scan_encode_append
  rw [List.append_nil, hcs, List.append_nil] at hscan
  rw [unquote, hscan, ← Utf8.encode, hcs, unescape_quoteRaw]

def Lexes (bs : List UInt8) (ts : List Token) : Prop :=
  ∀ rest, lex .idle (bs ++ rest) = (lex .idle rest).map (ts ++ ·)

/-- Where a value is wanted the text is read as this one, when so many containers more may be
opened. -/
def Reads (depth : ℕ) (bs : List UInt8) (v : Value) : Prop :=
  ∃ t ts, Lexes bs (t :: ts) ∧ t ≠ .closeArr ∧ ∀ stack, stack.length + depth ≤ maxDepth →
    (t :: ts).foldlM Reader.step ⟨stack, .value⟩ = some (.give stack v)

variable {bs' : List UInt8} {ts ts' : List Token} {v : Value} {depth : ℕ}
  {items : List (List UInt8 × Value)}

theorem Lexes.append (h : Lexes bs ts) (h' : Lexes bs' ts') : Lexes (bs ++ bs') (ts ++ ts') := by
  intro rest
  rw [List.append_assoc, h, h', Option.map_map]
  congr 1
  funext x
  exact (List.append_assoc ts ts' x).symm

theorem lexes_punctuation {t : Token} (h : lexByte b .idle = some (.idle, [t])) :
    Lexes [b] [t] := by
  intro rest
  rw [List.singleton_append, lex_cons, h]
  rfl

theorem lexes_quote (us : List UInt16) : Lexes (quote us) [.str (quoteRaw us)] := lex_quote us

theorem step_value (stack : List Frame) (t : Token) :
    Reader.step ⟨stack, .value⟩ t = Reader.value stack t := rfl

theorem Reads.string (depth : ℕ) (us : List UInt16) :
    Reads depth (quote us) (.str (Utf8.encode (Utf16.decode us))) := by
  refine ⟨_, [], lexes_quote us, by simp, fun stack _ => ?_⟩
  rw [List.foldlM_cons, step_value, Reader.value, unquote_quoteRaw]
  rfl

theorem step_firstValue {t : Token} (h : t ≠ .closeArr) (stack : List Frame) :
    Reader.step ⟨stack, .firstValue⟩ t = Reader.step ⟨stack, .value⟩ t := by
  cases t with
  | closeArr => exact absurd rfl h
  | _ => rfl

theorem reads_items (hne : items ≠ []) (h : ∀ m ∈ items, Reads depth m.1 m.2) :
    ∃ t ts, Lexes (separate (items.map Prod.fst)) (t :: ts) ∧ t ≠ .closeArr ∧
      ∀ (acc : List Value) (stack : List Frame), stack.length + depth + 1 ≤ maxDepth →
        (t :: ts ++ [Token.closeArr]).foldlM Reader.step ⟨.arr acc :: stack, .value⟩ =
          some (.give stack (.arr (acc ++ items.map Prod.snd))) := by
  induction items with
  | nil => exact absurd rfl hne
  | cons m items ih =>
    obtain ⟨hm, hitems⟩ := List.forall_mem_cons.mp h
    obtain ⟨t, ts, hlex, ht, hfold⟩ := hm
    cases items with
    | nil =>
      refine ⟨t, ts, hlex, ht, fun acc stack hdepth => ?_⟩
      rw [List.foldlM_append, hfold _ (by rw [List.length_cons]; omega)]
      rfl
    | cons m' items =>
      obtain ⟨t', ts', hlex', -, hfold'⟩ := ih (by simp) hitems
      have hcomma : Lexes [0x2C] [.comma] := lexes_punctuation rfl
      refine ⟨t, ts ++ .comma :: t' :: ts', ?_, ht, fun acc stack hdepth => ?_⟩
      · exact hlex.append (hcomma.append hlex')
      · rw [← List.cons_append, List.append_assoc, List.foldlM_append,
          hfold _ (by rw [List.length_cons]; omega)]
        change List.foldlM Reader.step ⟨.arr (acc ++ [m.2]) :: stack, .value⟩
          (t' :: ts' ++ [.closeArr]) = _
        rw [hfold' _ _ hdepth, List.append_assoc]
        rfl

theorem Reads.array (items : List (List UInt8 × Value)) (h : ∀ m ∈ items, Reads depth m.1 m.2) :
    Reads (depth + 1) (writeArray (items.map Prod.fst)) (.arr (items.map Prod.snd)) := by
  have hopen : Lexes [0x5B] [.openArr] := lexes_punctuation rfl
  have hclose : Lexes [0x5D] [.closeArr] := lexes_punctuation rfl
  have hstart : ∀ stack : List Frame, stack.length < maxDepth →
      Reader.step ⟨stack, .value⟩ .openArr = some ⟨.arr [] :: stack, .firstValue⟩ := by
    intro stack hlt
    rw [step_value, Reader.value, if_pos hlt]
  by_cases hnil : items = []
  · subst hnil
    refine ⟨.openArr, [.closeArr], hopen.append hclose, by simp, fun stack hdepth => ?_⟩
    rw [List.foldlM_cons, hstart stack (by omega)]
    rfl
  · obtain ⟨t, ts, hlex, ht, hfold⟩ := reads_items hnil h
    refine ⟨.openArr, t :: ts ++ [.closeArr], ?_, by simp, fun stack hdepth => ?_⟩
    · exact hopen.append (hlex.append hclose)
    · rw [List.foldlM_cons, hstart stack (by omega), Option.bind_eq_bind, Option.bind_some,
        List.cons_append, List.foldlM_cons, step_firstValue ht, ← List.foldlM_cons,
        ← List.cons_append, hfold [] stack (by omega)]
      rfl

structure Member where
  key : List UInt16
  text : List UInt8
  value : Value

def Member.write (m : Member) : List UInt16 × List UInt8 := (m.key, m.text)

def Member.read (m : Member) : List UInt8 × Value := (Utf8.encode (Utf16.decode m.key), m.value)

variable {m : Member} {members : List Member}

theorem reads_member (h : Reads depth m.text m.value) :
    ∃ ts, Lexes (quote m.key ++ 0x3A :: m.text) ts ∧
      ∀ (acc : List (List UInt8 × Value)) (first : Bool) (stack : List Frame),
        stack.length + depth + 1 ≤ maxDepth →
          ts.foldlM Reader.step ⟨stack, .key acc first⟩ =
            some ⟨.obj acc m.read.1 :: stack, .more m.value⟩ := by
  obtain ⟨t, ts, hlex, -, hfold⟩ := h
  have hcolon : Lexes [0x3A] [.colon] := lexes_punctuation rfl
  refine ⟨.str (quoteRaw m.key) :: .colon :: t :: ts, ?_, fun acc first stack hdepth => ?_⟩
  · exact (lexes_quote m.key).append (hcolon.append hlex)
  · have hkey : Reader.step ⟨stack, .key acc first⟩ (.str (quoteRaw m.key)) =
        some ⟨stack, .colon acc m.read.1⟩ := by
      rw [Member.read, ← unquote_quoteRaw]
      cases first <;> rfl
    rw [List.foldlM_cons, hkey]
    change List.foldlM Reader.step ⟨.obj acc m.read.1 :: stack, .value⟩ (t :: ts) = _
    rw [hfold _ (by rw [List.length_cons]; omega)]
    rfl

theorem reads_members (hne : members ≠ []) (h : ∀ m ∈ members, Reads depth m.text m.value) :
    ∃ ts, Lexes (separate (members.map fun m => quote m.key ++ 0x3A :: m.text)) ts ∧
      ∀ (acc : List (List UInt8 × Value)) (first : Bool) (stack : List Frame),
        stack.length + depth + 1 ≤ maxDepth →
          (ts ++ [Token.closeObj]).foldlM Reader.step ⟨stack, .key acc first⟩ =
            some (.give stack (.obj (acc ++ members.map Member.read))) := by
  induction members with
  | nil => exact absurd rfl hne
  | cons m members ih =>
    obtain ⟨hm, hmembers⟩ := List.forall_mem_cons.mp h
    obtain ⟨ts, hlex, hfold⟩ := reads_member hm
    cases members with
    | nil =>
      refine ⟨ts, hlex, fun acc first stack hdepth => ?_⟩
      rw [List.foldlM_append, hfold acc first stack hdepth]
      rfl
    | cons m' members =>
      obtain ⟨ts', hlex', hfold'⟩ := ih (by simp) hmembers
      have hcomma : Lexes [0x2C] [.comma] := lexes_punctuation rfl
      refine ⟨ts ++ .comma :: ts', ?_, fun acc first stack hdepth => ?_⟩
      · exact hlex.append (hcomma.append hlex')
      · rw [List.append_assoc, List.foldlM_append, hfold acc first stack hdepth]
        change List.foldlM Reader.step ⟨stack, .key (acc ++ [(m.read.1, m.value)]) false⟩
          (ts' ++ [.closeObj]) = _
        rw [hfold' _ _ _ hdepth, List.append_assoc]
        rfl

theorem Reads.object (members : List Member) (h : ∀ m ∈ members, Reads depth m.text m.value) :
    Reads (depth + 1) (writeObject (members.map Member.write))
      (.obj (members.map Member.read)) := by
  have hopen : Lexes [0x7B] [.openObj] := lexes_punctuation rfl
  have hclose : Lexes [0x7D] [.closeObj] := lexes_punctuation rfl
  have hstart : ∀ stack : List Frame, stack.length < maxDepth →
      Reader.step ⟨stack, .value⟩ .openObj = some ⟨stack, .key [] true⟩ := by
    intro stack hlt
    rw [step_value, Reader.value, if_pos hlt]
  by_cases hnil : members = []
  · subst hnil
    refine ⟨.openObj, [.closeObj], hopen.append hclose, by simp, fun stack hdepth => ?_⟩
    rw [List.foldlM_cons, hstart stack (by omega)]
    rfl
  · obtain ⟨ts, hlex, hfold⟩ := reads_members hnil h
    refine ⟨.openObj, ts ++ [.closeObj], ?_, by simp, fun stack hdepth => ?_⟩
    · rw [writeObject, List.map_map]
      exact hopen.append (hlex.append hclose)
    · rw [List.foldlM_cons, hstart stack (by omega), Option.bind_eq_bind, Option.bind_some,
        hfold [] true stack (by omega)]
      rfl

theorem Reads.parse (h : Reads depth bs v) (hdepth : depth ≤ maxDepth) : parse bs = some v := by
  obtain ⟨t, ts, hlex, -, hfold⟩ := h
  have hall := hlex []
  rw [List.append_nil] at hall
  rw [Json.parse, hall, lex, Option.map_some, List.append_nil, Option.bind_eq_bind,
    Option.bind_some, hfold [] (by rw [List.length_nil]; omega)]
  rfl

end Json
