import CodeRunner.Lib.Document

/-! # Writing JSON documents with Python and with Go

`json.dumps` escapes all that is not printable ASCII, by its 16-bit units, and puts blanks behind
commas and colons. `json.Marshal` escapes the characters of HTML and the line separators, and writes
each byte of a string that belongs to no character as U+FFFD.
-/

namespace Json

open Utf16 Utf8

variable {u : UInt16} {c : Char} {chunk : List UInt8}

theorem apart_of_forall {ps : List Piece} (h : ∀ u, .unit u ∈ ps → isHigh u = false) :
    ps.IsChain Piece.Apart := by
  induction ps with
  | nil => exact .nil
  | cons p ps ih =>
    refine List.isChain_cons.mpr ⟨fun q hq => ?_, ih fun u hu => h u (List.mem_cons_of_mem p hu)⟩
    cases p with
    | unit u =>
      have hu := h u List.mem_cons_self
      cases q with
      | unit v => exact fun hpair => absurd hpair.1 (by rw [hu]; decide)
      | _ => trivial
    | _ => trivial

theorem short_read {e : UInt8} (h : shortEscapes.lookup c = some e) :
    (Piece.short e).read = String.utf8EncodeChar c := by
  obtain ⟨-, hascii, hescape⟩ := shortEscapes_lookup c e h
  rw [Piece.read, hescape, Option.getD_some]
  rcases encodeChar_ascii c with ⟨-, heq⟩ | ⟨hge, -⟩
  · rw [heq]
  · omega

theorem short_wellFormed {e : UInt8} (h : shortEscapes.lookup c = some e) :
    (Piece.short e).WellFormed := by
  obtain ⟨hu, -, hescape⟩ := shortEscapes_lookup c e h
  exact ⟨hu, by rw [hescape]; rfl⟩

def dumpPiece (c : Char) : Piece :=
  match shortEscapes.lookup c with
  | some e => .short e
  | none =>
    if 0x20 ≤ c.toNat ∧ c.toNat ≤ 0x7E then .char c
    else if c.toNat < 0x10000 then .unit (.ofNat c.toNat)
    else .pair (.ofNat (0xD800 + (c.toNat - 0x10000) / 0x400))
      (.ofNat (0xDC00 + (c.toNat - 0x10000) % 0x400))

theorem toNat_halves (c : Char) :
    (UInt16.ofNat (0xD800 + (c.toNat - 0x10000) / 0x400)).toNat =
        0xD800 + (c.toNat - 0x10000) / 0x400 ∧ (c.toNat - 0x10000) / 0x400 < 0x400 ∧
      (UInt16.ofNat (0xDC00 + (c.toNat - 0x10000) % 0x400)).toNat =
        0xDC00 + (c.toNat - 0x10000) % 0x400 := by
  have hmax : c.toNat < 0x110000 := by
    have hvalue : c.toNat = c.val.toNat := rfl
    rcases c.valid with hlt | ⟨-, hlt⟩ <;> omega
  rw [UInt16.toNat_ofNat', UInt16.toNat_ofNat']
  omega

theorem dumpPiece_wellFormed (c : Char) : (dumpPiece c).WellFormed := by
  unfold dumpPiece
  split
  · next e he => exact short_wellFormed he
  · next hnone =>
    split
    · next hc => exact ⟨hnone, Nat.not_lt.mpr hc.1⟩
    · split
      · trivial
      · obtain ⟨hhi, hlt, hlo⟩ := toNat_halves c
        simp only [Piece.WellFormed, isHigh, isLow, hhi, hlo, Bool.and_eq_true, decide_eq_true_eq]
        omega

theorem dumpPiece_unit (h : dumpPiece c = .unit u) : isHigh u = false := by
  unfold dumpPiece at h
  split at h
  · cases h
  · split at h
    · cases h
    · split at h
      · next hlt =>
        cases h
        have hvalue : c.toNat = c.val.toNat := rfl
        rw [← Bool.not_eq_true, isHigh, UInt16.toNat_ofNat']
        simp only [Bool.and_eq_true, decide_eq_true_eq]
        rcases c.valid with hc | ⟨hc, -⟩ <;> omega
      · cases h

theorem dumpPiece_read (c : Char) : (dumpPiece c).read = String.utf8EncodeChar c := by
  unfold dumpPiece
  split
  · next e he => exact short_read he
  · split
    · rfl
    · split
      · next hlt =>
        have hnat : (UInt16.ofNat c.toNat).toNat = c.toNat := by
          rw [UInt16.toNat_ofNat']
          omega
        rw [Piece.read, hnat, encodePoint_char]
      · next hge =>
        obtain ⟨hhi, hlt, hlo⟩ := toNat_halves c
        rw [Piece.read, Utf16.pair, hhi, hlo]
        have hnat : 0x10000 + (0xD800 + (c.toNat - 0x10000) / 0x400 - 0xD800) * 0x400 +
            (0xDC00 + (c.toNat - 0x10000) % 0x400 - 0xDC00) = c.toNat := by omega
        rw [hnat, Char.ofNat_toNat]

def dumpStyle : Style (List Char) where
  pieces cs := cs.map dumpPiece
  wellFormed cs p hp := by
    obtain ⟨c, -, rfl⟩ := List.mem_map.mp hp
    exact dumpPiece_wellFormed c
  apart cs := by
    apply apart_of_forall
    intro u hu
    obtain ⟨c, -, hc⟩ := List.mem_map.mp hu
    exact dumpPiece_unit hc

theorem dumpStyle_text (cs : List Char) : dumpStyle.text cs = encode cs := by
  change (cs.map dumpPiece).flatMap Piece.read = _
  rw [List.flatMap_map, encode]
  congr 1
  funext c
  exact dumpPiece_read c

/-- The separators of `json.dumps`. -/
def dumpLayout : Layout where
  comma := [0x20]
  colon := [0x20]
  blank := List.all_eq_true.mp rfl

/-- A character as `json.Marshal` writes it. -/
def marshalPiece (c : Char) : Piece :=
  match shortEscapes.lookup c with
  | some e => .short e
  | none =>
    if c.toNat < 0x20 ∨ c ∈ ['<', '>', '&', '\u2028', '\u2029'] then .unit (.ofNat c.toNat)
    else .char c

def marshalPieces (chunk : List UInt8) : List Piece :=
  scan (fun c => [marshalPiece c]) [.unit 0xFFFD] chunk

theorem marshalPiece_wellFormed (c : Char) : (marshalPiece c).WellFormed := by
  unfold marshalPiece
  split
  · next e he => exact short_wellFormed he
  · next hnone =>
    split
    · trivial
    · next hplain => exact ⟨hnone, fun hlt => hplain (.inl hlt)⟩

theorem marshalPiece_unit (h : marshalPiece c = .unit u) : isHigh u = false := by
  have hlow : ∀ n < 0x20, isHigh (.ofNat n) = false := by decide
  unfold marshalPiece at h
  split at h
  · cases h
  · split at h
    · next hc =>
      cases h
      rcases hc with hc | hc
      · exact hlow _ hc
      · simp only [List.mem_cons, List.not_mem_nil, or_false] at hc
        rcases hc with rfl | rfl | rfl | rfl | rfl <;> decide
    · cases h

theorem marshalPiece_read (c : Char) : (marshalPiece c).read = String.utf8EncodeChar c := by
  unfold marshalPiece
  split
  · next e he => exact short_read he
  · split
    · next hc =>
      have hnat : (UInt16.ofNat c.toNat).toNat = c.toNat := by
        rcases hc with hc | hc
        · rw [UInt16.toNat_ofNat']
          omega
        · simp only [List.mem_cons, List.not_mem_nil, or_false] at hc
          rcases hc with rfl | rfl | rfl | rfl | rfl <;> rfl
      rw [Piece.read, hnat, encodePoint_char]
    · rfl

theorem mem_marshalPieces {p : Piece} (hp : p ∈ marshalPieces chunk) :
    (∃ c, p = marshalPiece c) ∨ p = .unit 0xFFFD := by
  revert hp
  induction chunk using reading with
  | nil => exact fun hp => absurd hp List.not_mem_nil
  | rune c bs ih =>
    rw [marshalPieces, scan_rune, ← marshalPieces, List.singleton_append, List.mem_cons]
    rintro (rfl | hp)
    · exact .inl ⟨c, rfl⟩
    · exact ih hp
  | bad b bs hb ih =>
    rw [marshalPieces, scan_bad hb, ← marshalPieces, List.singleton_append, List.mem_cons]
    rintro (rfl | hp)
    · exact .inr rfl
    · exact ih hp

def marshalStyle : Style (List UInt8) where
  pieces := marshalPieces
  wellFormed chunk p hp := by
    rcases mem_marshalPieces hp with ⟨c, rfl⟩ | rfl
    · exact marshalPiece_wellFormed c
    · trivial
  apart chunk := by
    apply apart_of_forall
    intro u hu
    rcases mem_marshalPieces hu with ⟨c, hc⟩ | hu
    · exact marshalPiece_unit hc.symm
    · cases hu
      decide

theorem marshalStyle_text (chunk : List UInt8) :
    marshalStyle.text chunk = encode (Utf8.decode chunk) := by
  change (marshalPieces chunk).flatMap Piece.read = _
  induction chunk using reading with
  | nil => rfl
  | rune c bs ih =>
    rw [marshalPieces, scan_rune, ← marshalPieces, List.singleton_append, List.flatMap_cons, ih,
      marshalPiece_read, Utf8.decode, Utf8.decode, scan_rune]
    rfl
  | bad b bs hb ih =>
    rw [marshalPieces, scan_bad hb, ← marshalPieces, List.singleton_append, List.flatMap_cons, ih,
      Utf8.decode, Utf8.decode, scan_bad hb]
    rfl

def marshalLayout : Layout where
  comma := []
  colon := []
  blank := List.all_eq_true.mp rfl

end Json
