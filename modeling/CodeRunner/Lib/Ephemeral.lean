import Mathlib.Data.Nat.Notation
import Mathlib.Data.Option.Basic
import Mathlib.Logic.Function.Basic

/-! # A store whose keys expire

A key holds a value and may carry a deadline. From the deadline on the key is absent to every
command, although nothing removes it: the next command that creates it starts anew.
-/

namespace Ephemeral

structure Cell (β : Type*) where
  value : β
  deadline : Option ℕ
  deriving DecidableEq, Repr

variable {κ β : Type*}

def Cell.live (now : ℕ) (c : Cell β) : Bool := c.deadline.all fun d => decide (now < d)

abbrev Store (κ β : Type*) := κ → Option (Cell β)

namespace Store

def empty : Store κ β := fun _ => none

/-- What a command at `now` finds under a key. -/
def get (s : Store κ β) (now : ℕ) (k : κ) : Option (Cell β) := (s k).filter (Cell.live now)

variable [DecidableEq κ]

def put (s : Store κ β) (k : κ) (c : Cell β) : Store κ β := Function.update s k (some c)

/-- Set a key with a time to live, whatever it held. -/
def setEx (s : Store κ β) (now ttl : ℕ) (k : κ) (v : β) : Store κ β := s.put k ⟨v, some (now + ttl)⟩

/-- Give a key a new time to live, unless it is absent. -/
def expire (s : Store κ β) (now ttl : ℕ) (k : κ) : Store κ β :=
  match s.get now k with
  | none => s
  | some c => s.put k { c with deadline := some (now + ttl) }

/-- Count a key up, from zero if it is absent. The deadline of a key that is there stays. -/
def incr (s : Store κ ℕ) (now : ℕ) (k : κ) : Store κ ℕ :=
  match s.get now k with
  | none => s.put k ⟨1, none⟩
  | some c => s.put k { c with value := c.value + 1 }

/-- The reply to `incr`. -/
def next (s : Store κ ℕ) (now : ℕ) (k : κ) : ℕ := ((s.get now k).elim 0 Cell.value) + 1

/-- `k` has the value `v` and does not expire before `upto`. -/
def Lasts (s : Store κ β) (k : κ) (v : β) (upto : ℕ) : Prop :=
  ∃ c, s k = some c ∧ c.value = v ∧ ∀ d ∈ c.deadline, upto ≤ d

variable {s : Store κ β} {k j : κ} {v : β} {now ttl upto : ℕ} {c : Cell β}

omit [DecidableEq κ] in
theorem Lasts.get (h : s.Lasts k v upto) (hnow : now < upto) :
    ∃ c, s.get now k = some c ∧ c.value = v ∧ ∀ d ∈ c.deadline, upto ≤ d := by
  obtain ⟨c, hk, hv, hd⟩ := h
  refine ⟨c, Option.filter_eq_some_iff.mpr ⟨hk, ?_⟩, hv, hd⟩
  rw [Cell.live, Option.all_eq_true]
  intro d hd'
  exact decide_eq_true (Nat.lt_of_lt_of_le hnow (hd d hd'))

omit [DecidableEq κ] in
theorem get_eq (h : s k = some ⟨v, some ttl⟩) :
    s.get now k = if now < ttl then some ⟨v, some ttl⟩ else none := by
  simp [Store.get, h, Option.filter_some, Cell.live]

theorem put_self : s.put k c k = some c := by
  rw [put, Function.update_self]

theorem put_of_ne (h : j ≠ k) : s.put k c j = s j := by
  rw [put, Function.update_of_ne h]

theorem setEx_self : s.setEx now ttl k v k = some ⟨v, some (now + ttl)⟩ := put_self

theorem Lasts.put (h : ∀ d ∈ c.deadline, upto ≤ d) : (s.put k c).Lasts k c.value upto :=
  ⟨c, put_self, rfl, h⟩

theorem expire_of_ne (h : j ≠ k) : s.expire now ttl k j = s j := by
  rw [expire]
  cases s.get now k with
  | none => rfl
  | some c => exact put_of_ne h

theorem incr_of_ne {s : Store κ ℕ} (h : j ≠ k) : s.incr now k j = s j := by
  rw [incr]
  cases s.get now k with
  | none => exact put_of_ne h
  | some c => exact put_of_ne h

theorem expire_none (h : s k = none) : s.expire now ttl k = s := by
  rw [expire, Store.get, h]
  rfl

theorem Lasts.expire (h : s.Lasts k v upto) (hle : upto ≤ now + ttl) :
    (s.expire now ttl k).Lasts k v upto := by
  rw [Store.expire]
  split
  · exact h
  · next c hc =>
    obtain ⟨c', hk, rfl, -⟩ := h
    obtain rfl : c' = c := Option.some.inj (hk.symm.trans (Option.filter_eq_some_iff.mp hc).1)
    exact .put (c := { c' with deadline := some (now + ttl) }) fun d hd =>
      Option.some.inj hd ▸ hle

section Counter

variable {s : Store κ ℕ} {n : ℕ}

omit [DecidableEq κ] in
theorem next_none (h : s k = none) : s.next now k = 1 := by
  rw [next, Store.get, h]
  rfl

theorem incr_none (h : s k = none) : (s.incr now k).Lasts k 1 upto := by
  rw [incr, Store.get, h]
  exact .put fun d hd => nomatch hd

omit [DecidableEq κ] in
theorem Lasts.next (h : s.Lasts k n upto) (hnow : now < upto) : s.next now k = n + 1 := by
  obtain ⟨c, hc, rfl, -⟩ := h.get hnow
  rw [Store.next, hc]
  rfl

theorem Lasts.incr (h : s.Lasts k n upto) (hnow : now < upto) :
    (s.incr now k).Lasts k (n + 1) upto := by
  obtain ⟨c, hc, rfl, hd⟩ := h.get hnow
  rw [Store.incr, hc]
  exact .put (c := { c with value := c.value + 1 }) hd

end Counter

omit [DecidableEq κ] in
theorem Lasts.of_eq {s' : Store κ β} (h : s.Lasts k v upto) (heq : s' k = s k) :
    s'.Lasts k v upto := by
  obtain ⟨c, hk, hrest⟩ := h
  exact ⟨c, heq.trans hk, hrest⟩

end Store

end Ephemeral
