import Mathlib.Algebra.BigOperators.Group.Finset.Piecewise
import Mathlib.Algebra.GroupWithZero.Nat
import Mathlib.Algebra.Order.BigOperators.Group.Finset

/-! # A quota shared by several drawers

Drawers take chunks in turn and share one quota. Each chunk is served as far as the quota goes at
that moment. What a drawer is served is a prefix of what it has drawn, and together they are
served what they have drawn up to the quota.
-/

namespace Quota

abbrev Log (ι β : Type*) := List (ι × List β)

variable {ι β : Type*} {d : ι × List β} {log log' : Log ι β}

def total (log : Log ι β) : ℕ := (log.map fun d => d.2.length).sum

@[simp] theorem total_nil : total ([] : Log ι β) = 0 := rfl

@[simp] theorem total_cons : total (d :: log) = d.2.length + total log := rfl

@[simp] theorem total_append : total (log ++ log') = total log + total log' := by
  rw [total, List.map_append, List.sum_append, total, total]

variable [DecidableEq ι]

/-- What the drawer `i` has drawn. -/
def drawn (i : ι) (log : Log ι β) : List β :=
  log.flatMap fun d => if d.1 = i then d.2 else []

/-- What the drawer `i` is served. -/
def served (i : ι) : ℕ → Log ι β → List β
  | _, [] => []
  | cap, (j, chunk) :: log =>
    (if j = i then chunk.take cap else []) ++ served i (cap - chunk.length) log

variable {i j : ι} {cap : ℕ} {chunk : List β}

@[simp] theorem drawn_nil : drawn i ([] : Log ι β) = [] := rfl

@[simp] theorem drawn_append : drawn i (log ++ log') = drawn i log ++ drawn i log' :=
  List.flatMap_append

theorem drawn_single : drawn i [(j, chunk)] = if j = i then chunk else [] := by
  rw [drawn, List.flatMap_singleton]

@[simp] theorem served_zero : served i 0 log = [] := by
  induction log with
  | nil => rfl
  | cons d log ih =>
    rw [served, List.take_zero, ite_self, Nat.zero_sub, ih]
    rfl

theorem served_append :
    served i cap (log ++ [(j, chunk)]) =
      served i cap log ++ if j = i then chunk.take (cap - total log) else [] := by
  induction log generalizing cap with
  | nil => exact (List.append_nil _).trans rfl
  | cons d log ih =>
    rw [List.cons_append, served, served, ih, List.append_assoc, total_cons, Nat.sub_sub]

theorem served_prefix : served i cap log <+: drawn i log := by
  induction log generalizing cap with
  | nil => exact List.prefix_refl []
  | cons d log ih =>
    have hdrawn : drawn i (d :: log) = (if d.1 = i then d.2 else []) ++ drawn i log := rfl
    rw [served, hdrawn]
    rcases Nat.le_total d.2.length cap with hle | hle
    · rw [List.take_of_length_le hle]
      exact (List.prefix_append_right_inj _).mpr ih
    · -- the quota ends in this chunk, and nothing is served after it
      rw [Nat.sub_eq_zero_of_le hle, served_zero, List.append_nil]
      split
      · exact (List.take_prefix cap d.2).trans (List.prefix_append _ _)
      · exact List.nil_prefix

theorem served_of_le (h : total log ≤ cap) : served i cap log = drawn i log := by
  induction log generalizing cap with
  | nil => rfl
  | cons d log ih =>
    rw [total_cons] at h
    have hdrawn : drawn i (d :: log) = (if d.1 = i then d.2 else []) ++ drawn i log := rfl
    rw [served, hdrawn, List.take_of_length_le (by omega), ih (by omega)]

variable [Fintype ι]

open Finset in
theorem sum_served : ∑ i, (served i cap log).length = min (total log) cap := by
  induction log generalizing cap with
  | nil => simp [served]
  | cons d log ih =>
    have hchunk : ∑ i, (if d.1 = i then d.2.take cap else []).length = min cap d.2.length := by
      simp only [apply_ite List.length, List.length_nil, sum_ite_eq, mem_univ, if_true,
        List.length_take]
    simp only [served, List.length_append, sum_add_distrib, hchunk, ih, total_cons]
    omega

open Finset in
theorem sum_drawn : ∑ i, (drawn i log).length = total log := by
  have hsum : ∑ i, (served i (total log) log).length = min (total log) (total log) := sum_served
  simp only [served_of_le (Nat.le_refl _), Nat.min_self] at hsum
  exact hsum

/-- What all have drawn and one holds does not go beyond what each of them may draw. -/
theorem total_add_le {held bound : ι → ℕ} (h : ∀ i, (drawn i log).length + held i ≤ bound i)
    (i : ι) : total log + held i ≤ ∑ j, bound j := by
  have hsum : total log + ∑ j, held j ≤ ∑ j, bound j := by
    rw [← sum_drawn, ← Finset.sum_add_distrib]
    exact Finset.sum_le_sum fun j _ => h j
  have hone : held i ≤ ∑ j, held j :=
    Finset.single_le_sum (fun j _ => Nat.zero_le _) (Finset.mem_univ i)
  omega

end Quota
