import Mathlib.Data.List.Basic
import Mathlib.Tactic.TypeStar

/-! # Incremental parsers

A reader of a byte stream keeps a buffer, takes complete items off its front and waits for
more bytes when the front is not yet a complete item. What it has taken does not depend on
how the stream was cut into reads.
-/

namespace Incremental

/-- `next` takes one item off the front of a buffer, or is `none` when there is no complete
item there. -/
structure Parser (β α : Type*) where
  next : List β → Option (α × List β)
  shorter : ∀ {bs x rest}, next bs = some (x, rest) → rest.length < bs.length
  stable : ∀ {bs x rest} more, next bs = some (x, rest) → next (bs ++ more) = some (x, rest ++ more)

namespace Parser

variable {α β : Type*} (p : Parser β α)

/-- The first `n` complete items of a buffer, and what is left of it. -/
def take : ℕ → List β → List α × List β
  | 0, bs => ([], bs)
  | n + 1, bs =>
    match p.next bs with
    | none => ([], bs)
    | some (x, rest) => (x :: (take n rest).1, (take n rest).2)

def drain (bs : List β) : List α × List β := p.take bs.length bs

/-- What a reader takes that drains its buffer after each read, and the buffer it is left with. -/
def feed : List β → List (List β) → List α × List β
  | buf, [] => ([], buf)
  | buf, r :: reads =>
    let drained := p.drain (buf ++ r)
    (drained.1 ++ (feed drained.2 reads).1, (feed drained.2 reads).2)

variable {p} {bs rest : List β} {x : α}

theorem take_eq_take {n m : ℕ} (hn : bs.length ≤ n) (hm : bs.length ≤ m) :
    p.take n bs = p.take m bs := by
  induction n generalizing bs m with
  | zero =>
    obtain rfl := List.length_eq_zero_iff.mp (Nat.le_zero.mp hn)
    cases m with
    | zero => rfl
    | succ m =>
      cases hnext : p.next [] with
      | none => simp [take, hnext]
      | some r => exact absurd (p.shorter hnext) (Nat.not_lt_zero _)
  | succ n ih =>
    cases hnext : p.next bs with
    | none => cases m <;> simp [take, hnext]
    | some r =>
      have hlt := p.shorter hnext
      cases m with
      | zero => omega
      | succ m =>
        have heq : p.take n r.2 = p.take m r.2 := ih (by omega) (by omega)
        simp [take, hnext, heq]

theorem drain_of_none (h : p.next bs = none) : p.drain bs = ([], bs) := by
  unfold drain
  cases bs.length <;> simp [take, h]

theorem drain_of_some (h : p.next bs = some (x, rest)) :
    p.drain bs = (x :: (p.drain rest).1, (p.drain rest).2) := by
  have hlt := p.shorter h
  have hlen : bs.length = bs.length - 1 + 1 := by omega
  have htake : p.take (bs.length - 1) rest = p.drain rest := take_eq_take (by omega) (Nat.le_refl _)
  rw [drain, hlen, take, h]
  simp [htake]

theorem next_drain (bs : List β) : p.next (p.drain bs).2 = none := by
  induction hlen : bs.length using Nat.strongRecOn generalizing bs with
  | ind n ih =>
    cases hnext : p.next bs with
    | none => simp [drain_of_none hnext, hnext]
    | some r =>
      rw [drain_of_some hnext]
      exact ih r.2.length (hlen ▸ p.shorter hnext) r.2 rfl

theorem drain_append (bs more : List β) :
    p.drain (bs ++ more) =
      ((p.drain bs).1 ++ (p.drain ((p.drain bs).2 ++ more)).1,
        (p.drain ((p.drain bs).2 ++ more)).2) := by
  induction hlen : bs.length using Nat.strongRecOn generalizing bs with
  | ind n ih =>
    cases hnext : p.next bs with
    | none => simp [drain_of_none hnext]
    | some r =>
      have hrest := ih r.2.length (hlen ▸ p.shorter hnext) r.2 rfl
      rw [drain_of_some (p.stable more hnext), drain_of_some hnext, hrest]
      rfl

theorem drain_prefix (bs more : List β) : (p.drain bs).1 <+: (p.drain (bs ++ more)).1 := by
  rw [drain_append bs more]
  exact List.prefix_append _ _

theorem feed_eq_drain (h : p.next bs = none) (reads : List (List β)) :
    p.feed bs reads = p.drain (bs ++ reads.flatten) := by
  induction reads generalizing bs with
  | nil => rw [feed, List.flatten_nil, List.append_nil, drain_of_none h]
  | cons r reads ih =>
    have hrest := ih (next_drain (bs ++ r))
    rw [List.flatten_cons, ← List.append_assoc, drain_append (bs ++ r), feed, hrest]

theorem next_of_cut {cut more : List β} (h : p.next (cut ++ more) = some (x, []))
    (hmore : more ≠ []) : p.next cut = none := by
  cases hcut : p.next cut with
  | none => rfl
  | some r =>
    have hstable := p.stable more hcut
    rw [h, Option.some.injEq, Prod.mk.injEq] at hstable
    exact absurd (List.append_eq_nil_iff.mp hstable.2.symm).2 hmore

/-- A writer whose every item the parser takes back off the front is read back in full. -/
theorem drain_flatMap (write : α → List β) {xs : List α}
    (h : ∀ x ∈ xs, ∀ rest, p.next (write x ++ rest) = some (x, rest)) (rest : List β) :
    p.drain (xs.flatMap write ++ rest) = (xs ++ (p.drain rest).1, (p.drain rest).2) := by
  induction xs with
  | nil => rfl
  | cons x xs ih =>
    have hx := h x (List.mem_cons_self ..) (xs.flatMap write ++ rest)
    have hxs := ih fun y hy => h y (List.mem_cons_of_mem x hy)
    rw [List.flatMap_cons, List.append_assoc, drain_of_some hx, hxs]
    rfl

end Parser

end Incremental
