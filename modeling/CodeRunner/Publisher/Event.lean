import CodeRunner.Lib.Utf8

/-! # Output events on the wire

An output event as `json.Marshal` writes it. A Go string holds any bytes: those that belong to no
character are written as an escaped U+FFFD.
-/

namespace CodeRunner.Publisher

open Utf8

def ascii (s : String) : List UInt8 := s.toList.map fun c => UInt8.ofNat c.toNat

def hexDigit (n : UInt8) : UInt8 := if n < 10 then 0x30 + n else 0x57 + n

/-- An ASCII byte in a JSON string, with the characters of HTML escaped. -/
def escapeByte (b : UInt8) : List UInt8 :=
  if b = 0x22 ∨ b = 0x5C then [0x5C, b]
  else if b = 0x08 then ascii "\\b"
  else if b = 0x0C then ascii "\\f"
  else if b = 0x0A then ascii "\\n"
  else if b = 0x0D then ascii "\\r"
  else if b = 0x09 then ascii "\\t"
  else if b < 0x20 ∨ b = 0x3C ∨ b = 0x3E ∨ b = 0x26 then
    ascii "\\u00" ++ [hexDigit (b / 16), hexDigit (b % 16)]
  else [b]

def escapeRune (c : Char) : List UInt8 :=
  if c.utf8Size = 1 then (String.utf8EncodeChar c).flatMap escapeByte
  else if c = '\u2028' then ascii "\\u2028"
  else if c = '\u2029' then ascii "\\u2029"
  else String.utf8EncodeChar c

def escape (chunk : List UInt8) : List UInt8 := scan escapeRune (ascii "\\ufffd") chunk

/-- `wire.OutputChunkEvent`. -/
structure OutputChunkEvent where
  chunk : List UInt8
  seq : ℕ
  deriving DecidableEq, Repr

def OutputChunkEvent.marshal (ev : OutputChunkEvent) : List UInt8 :=
  ascii "\x7b\"chunk\":\"" ++ escape ev.chunk ++ ascii "\",\"seq\":" ++ ascii ev.seq.repr ++
    ascii "\x7d"

variable {ev : OutputChunkEvent} {chunk : List UInt8}

theorem length_ascii (s : String) : (ascii s).length = s.length := by
  rw [ascii, List.length_map, String.length_toList]

theorem length_marshal :
    ev.marshal.length = (escape ev.chunk).length + ev.seq.repr.length + 19 := by
  have hopen : (ascii "\x7b\"chunk\":\"").length = 10 := by decide
  have hseq : (ascii "\",\"seq\":").length = 8 := by decide
  have hclose : (ascii "\x7d").length = 1 := by decide
  rw [OutputChunkEvent.marshal]
  simp only [List.length_append, hopen, hseq, hclose, length_ascii]
  omega

theorem length_escapeByte (b : UInt8) : (escapeByte b).length ≤ 6 := by
  unfold escapeByte
  repeat' split
  all_goals first | decide | exact Nat.le_of_ble_eq_true rfl

theorem length_escapeRune (c : Char) : (escapeRune c).length ≤ 6 * c.utf8Size := by
  have hlen : (String.utf8EncodeChar c).length = c.utf8Size := String.length_utf8EncodeChar c
  have hpos : 0 < c.utf8Size := c.utf8Size_pos
  unfold escapeRune
  split
  · next hone =>
    rw [hone] at hlen
    obtain ⟨b, hb⟩ := List.length_eq_one_iff.mp hlen
    rw [hb, hone, List.flatMap_singleton]
    exact length_escapeByte b
  · split
    · have hsix : (ascii "\\u2028").length = 6 := by decide
      omega
    · split
      · have hsix : (ascii "\\u2029").length = 6 := by decide
        omega
      · omega

theorem length_escape_le (bs : List UInt8) : (escape bs).length ≤ 6 * bs.length := by
  induction bs using reading with
  | nil => exact Nat.le_refl _
  | rune c bs ih =>
    have hlen : (String.utf8EncodeChar c).length = c.utf8Size := String.length_utf8EncodeChar c
    have hrune := length_escapeRune c
    rw [escape, scan_rune, List.length_append, List.length_append, hlen, ← escape]
    omega
  | bad b bs hb ih =>
    have hsix : (ascii "\\ufffd").length = 6 := by decide
    rw [escape, scan_bad hb, List.length_append, List.length_cons, ← escape, hsix]
    omega

end CodeRunner.Publisher
