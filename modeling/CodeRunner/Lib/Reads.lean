import Mathlib.Data.List.TakeDrop
import Mathlib.Tactic.TypeStar

/-! # Filling a buffer from a source

A source gives a byte stream in reads of its own sizes and then ends. A buffer of fixed size
that is filled from it gets the next bytes of the stream, however they were cut into reads.
-/

namespace Reads

variable {β : Type*}

inductive Error where
  /-- The source ended before the first byte. -/
  | eof
  /-- The source ended in the middle. -/
  | unexpectedEof
  deriving DecidableEq, Repr

/-- Reads until `n` more bytes are there, when `got` are there already. A read never takes more
than the buffer has room for. -/
def fillFrom (got : List β) : ℕ → List (List β) → Except Error (List β × List (List β))
  | 0, reads => .ok (got, reads)
  | _ + 1, [] => .error (if got.isEmpty then .eof else .unexpectedEof)
  | n + 1, r :: reads =>
    if r.length ≤ n + 1 then fillFrom (got ++ r) (n + 1 - r.length) reads
    else .ok (got ++ r.take (n + 1), r.drop (n + 1) :: reads)

/-- The next `n` bytes of the source, and the reads it has left. -/
def fill (n : ℕ) (reads : List (List β)) : Except Error (List β × List (List β)) :=
  fillFrom [] n reads

theorem fillFrom_of_le (got : List β) {n : ℕ} {reads : List (List β)}
    (h : n ≤ reads.flatten.length) :
    ∃ rest, fillFrom got n reads = .ok (got ++ reads.flatten.take n, rest) ∧
      rest.flatten = reads.flatten.drop n := by
  induction reads generalizing got n with
  | nil =>
    obtain rfl : n = 0 := Nat.le_zero.mp h
    exact ⟨[], by simp [fillFrom], rfl⟩
  | cons r reads ih =>
    cases n with
    | zero => exact ⟨r :: reads, by simp [fillFrom], rfl⟩
    | succ n =>
      rw [List.flatten_cons, List.length_append] at h
      by_cases hr : r.length ≤ n + 1
      · have hle : n + 1 - r.length ≤ reads.flatten.length := by omega
        obtain ⟨rest, hfill, hrest⟩ := ih (got ++ r) hle
        refine ⟨rest, ?_, ?_⟩
        · rw [fillFrom, if_pos hr, hfill, List.flatten_cons, List.take_append,
            List.take_of_length_le hr, List.append_assoc]
        · rw [hrest, List.flatten_cons, List.drop_append, List.drop_of_length_le hr,
            List.nil_append]
      · have hle : n + 1 ≤ r.length := by omega
        refine ⟨r.drop (n + 1) :: reads, ?_, ?_⟩
        · rw [fillFrom, if_neg hr, List.flatten_cons, List.take_append_of_le_length hle]
        · rw [List.flatten_cons, List.flatten_cons, List.drop_append_of_le_length hle]

theorem fillFrom_of_lt (got : List β) {n : ℕ} {reads : List (List β)}
    (h : reads.flatten.length < n) :
    fillFrom got n reads =
      .error (if (got ++ reads.flatten).isEmpty then .eof else .unexpectedEof) := by
  induction reads generalizing got n with
  | nil =>
    cases n with
    | zero => cases h
    | succ n => simp [fillFrom]
  | cons r reads ih =>
    rw [List.flatten_cons, List.length_append] at h
    cases n with
    | zero => cases h
    | succ n =>
      have hr : r.length ≤ n + 1 := by omega
      rw [fillFrom, if_pos hr, ih (got ++ r) (by omega), List.flatten_cons, List.append_assoc]

theorem fill_of_le {n : ℕ} {reads : List (List β)} (h : n ≤ reads.flatten.length) :
    ∃ rest, fill n reads = .ok (reads.flatten.take n, rest) ∧
      rest.flatten = reads.flatten.drop n :=
  fillFrom_of_le [] h

theorem fill_of_lt {n : ℕ} {reads : List (List β)} (h : reads.flatten.length < n) :
    fill n reads = .error (if reads.flatten.isEmpty then .eof else .unexpectedEof) :=
  fillFrom_of_lt [] h

end Reads
