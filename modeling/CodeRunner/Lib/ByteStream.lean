import Mathlib.Data.List.Basic

/-! # Byte streams with a bounded buffer

One direction of a connected pair of sockets: the writer appends as many bytes as the
buffer has room for, the reader takes bytes off the front, and the stream as a whole is what
was read followed by what is still buffered.
-/

/-- `closed` says that the writing end is closed, so that end of file follows the buffered
bytes; `failed` that the connection is broken, so that every operation on it errs. -/
structure ByteStream where
  cap : ℕ
  read : List UInt8
  unread : List UInt8
  closed : Bool
  failed : Bool
  deriving DecidableEq, Repr

namespace ByteStream

inductive Received where
  | data (bs : List UInt8)
  | eof
  | wouldBlock
  | error
  deriving DecidableEq, Repr

def empty (cap : ℕ) : ByteStream := ⟨cap, [], [], false, false⟩

def bytes (s : ByteStream) : List UInt8 := s.read ++ s.unread

def free (s : ByteStream) : ℕ := s.cap - s.unread.length

def write (s : ByteStream) (bs : List UInt8) : ByteStream := { s with unread := s.unread ++ bs }

/-- A receive of at most `n` bytes on a non-blocking socket. -/
def recv (s : ByteStream) (n : ℕ) : Received × ByteStream :=
  if s.failed then (.error, s)
  else if s.unread.take n = [] then (if s.closed then .eof else .wouldBlock, s)
  else (.data (s.unread.take n),
    { s with read := s.read ++ s.unread.take n, unread := s.unread.drop n })

/-- The reader takes `n` bytes, or as many as there are. -/
def pull (s : ByteStream) (n : ℕ) : ByteStream :=
  { s with read := s.read ++ s.unread.take n, unread := s.unread.drop n }

/-- A send of all of `bs` on a non-blocking socket: it writes what fits, and it succeeds only
when everything fit. -/
def sendall (s : ByteStream) (bs : List UInt8) : Bool × ByteStream :=
  if s.failed then (false, s)
  else (decide (bs.length ≤ s.free), s.write (bs.take s.free))

variable {s s' : ByteStream} {bs : List UInt8} {n : ℕ}

@[simp] theorem bytes_write : (s.write bs).bytes = s.bytes ++ bs := by
  simp [write, bytes]

@[simp] theorem bytes_pull : (s.pull n).bytes = s.bytes := by
  simp [pull, bytes]

theorem sendall_of_fits (hs : s.failed = false) (h : bs.length ≤ s.free) :
    s.sendall bs = (true, s.write bs) := by
  simp [sendall, hs, h, List.take_of_length_le h]

theorem sendall_fst : (s.sendall bs).1 = true ↔ s.failed = false ∧ bs.length ≤ s.free := by
  unfold sendall
  cases hs : s.failed <;> simp

theorem recv_of_unread (hs : s.failed = false) (hn : 0 < n) (hu : s.unread ≠ []) :
    s.recv n = (.data (s.unread.take n), s.pull n) := by
  have hd : s.unread.take n ≠ [] := by
    intro hd
    rcases List.take_eq_nil_iff.mp hd with h0 | hu'
    · omega
    · exact hu hu'
  simp [recv, hs, hd, pull]

theorem recv_data {r : List UInt8} (h : s.recv n = (.data r, s')) :
    r = s.unread.take n ∧ s' = s.pull n := by
  unfold recv at h
  split at h
  · simp at h
  · split at h
    · split at h <;> simp at h
    · simp only [Prod.mk.injEq, Received.data.injEq] at h
      exact ⟨h.1.symm, h.2.symm⟩

theorem recv_error (h : (s.recv n).1 = .error) : s.failed = true := by
  unfold recv at h
  split at h
  · next hf => exact hf
  · split at h
    · split at h <;> cases h
    · cases h

theorem recv_eof (hn : 0 < n) (h : (s.recv n).1 = .eof) : s.unread = [] ∧ s.closed = true := by
  unfold recv at h
  split at h
  · cases h
  · split at h
    · next hd =>
      have hu : s.unread = [] := by
        rcases List.take_eq_nil_iff.mp hd with h0 | hu
        · omega
        · exact hu
      cases hc : s.closed
      · simp [hc] at h
      · exact ⟨hu, rfl⟩
    · cases h

end ByteStream
