import Mathlib.Data.Nat.Notation
import Mathlib.Tactic.TypeStar

/-! # Shares of a common resource

The parties of a system are the elements of a list, and each holds a number of units of a
resource. The tally of a list follows the change of one party.
-/

namespace Tally

variable {α : Type*} {f g : α → ℕ} {p : α → Bool} {l : List α} {a b : α} {i : ℕ}

/-- The units held by all parties together. -/
def tally (f : α → ℕ) : List α → ℕ
  | [] => 0
  | a :: l => f a + tally f l

@[simp] theorem tally_nil : tally f [] = 0 := rfl

@[simp] theorem tally_cons : tally f (a :: l) = f a + tally f l := rfl

theorem tally_append_singleton : tally f (l ++ [a]) = tally f l + f a := by
  induction l with
  | nil => simp
  | cons c l ih =>
    simp only [List.cons_append, tally_cons, ih]
    omega

theorem tally_set (h : l[i]? = some a) : tally f (l.set i b) + f a = tally f l + f b := by
  induction l generalizing i with
  | nil => cases h
  | cons c l ih =>
    cases i with
    | zero =>
      obtain rfl := Option.some.inj h
      simp only [List.set_cons_zero, tally_cons]
      omega
    | succ i =>
      have hi := ih h
      simp only [List.set_cons_succ, tally_cons]
      omega

theorem tally_mono (h : ∀ a ∈ l, f a ≤ g a) : tally f l ≤ tally g l := by
  induction l with
  | nil => exact Nat.le_refl 0
  | cons c l ih =>
    apply Nat.add_le_add
    · exact h c List.mem_cons_self
    · exact ih fun a ha => h a (List.mem_cons_of_mem c ha)

theorem tally_eq_zero (h : ∀ a ∈ l, f a = 0) : tally f l = 0 := by
  induction l with
  | nil => rfl
  | cons c l ih =>
    rw [tally_cons, h c List.mem_cons_self, Nat.zero_add]
    exact ih fun a ha => h a (List.mem_cons_of_mem c ha)

theorem le_tally (h : a ∈ l) : f a ≤ tally f l := by
  induction l with
  | nil => cases h
  | cons c l ih =>
    rw [tally_cons]
    rcases List.mem_cons.mp h with rfl | h
    · exact Nat.le_add_right _ _
    · exact Nat.le_trans (ih h) (Nat.le_add_left _ _)

theorem countP_eq_tally : l.countP p = tally (fun a => (p a).toNat) l := by
  induction l with
  | nil => rfl
  | cons a l ih => cases h : p a <;> simp [h, ih, Nat.add_comm]

/-- When each party that counts holds a unit, no more of them count than there are units. -/
theorem countP_le_tally (h : ∀ a ∈ l, p a = true → 0 < f a) : l.countP p ≤ tally f l := by
  rw [countP_eq_tally]
  apply tally_mono
  intro a ha
  cases hp : p a with
  | false => exact Nat.zero_le _
  | true => exact h a ha hp

theorem countP_set_le (h : l[i]? = some a) (hp : p b = true → p a = true) :
    (l.set i b).countP p ≤ l.countP p := by
  have hset : tally (fun a => (p a).toNat) (l.set i b) + (p a).toNat =
      tally (fun a => (p a).toNat) l + (p b).toNat := tally_set h
  have hle : (p b).toNat ≤ (p a).toNat := by
    cases hb : p b with
    | false => exact Nat.zero_le _
    | true => exact Nat.le_of_eq (congrArg Bool.toNat (hp hb).symm)
  rw [countP_eq_tally, countP_eq_tally]
  omega

end Tally
