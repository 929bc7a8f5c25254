import Mathlib.Data.List.Basic

/-! # First matches

The first element of a list that meets a predicate, as a relation, and when two predicates
have the same one.
-/

namespace FirstMatch

variable {α : Type*} {p q : α → Bool} {l : List α} {x y : α}

inductive First (p : α → Bool) : List α → α → Prop where

  | here {x : α} {l : List α} : p x = true → First p (x :: l) x

  | there {x y : α} {l : List α} : p y = false → First p l x → First p (y :: l) x

theorem first_iff_find? : First p l x ↔ l.find? p = some x := by
  constructor
  · intro h
    induction h with
    | here hx => exact List.find?_cons_of_pos hx
    | there hy _ ih => rwa [List.find?_cons_of_neg (Bool.not_eq_true _ ▸ hy)]
  · intro h
    induction l with
    | nil => cases h
    | cons y l ih =>
      cases hy : p y with
      | true =>
        rw [List.find?_cons_of_pos hy] at h
        obtain rfl := Option.some.inj h
        exact .here hy
      | false =>
        rw [List.find?_cons_of_neg (Bool.not_eq_true _ ▸ hy)] at h
        exact .there hy (ih h)

theorem First.holds (h : First p l x) : p x = true := by
  induction h with
  | here hx => exact hx
  | there _ _ ih => exact ih

theorem First.mem (h : First p l x) : x ∈ l := by
  induction h with
  | here _ => exact List.mem_cons_self
  | there _ _ ih => exact List.mem_cons_of_mem _ ih

theorem First.unique (h : First p l x) (h' : First p l y) : x = y :=
  Option.some.inj ((first_iff_find?.mp h).symm.trans (first_iff_find?.mp h'))

theorem exists_first (hx : x ∈ l) (hp : p x = true) : ∃ y, First p l y := by
  have hsome : (l.find? p).isSome = true := List.find?_isSome.mpr ⟨x, hx, hp⟩
  obtain ⟨y, hy⟩ := Option.isSome_iff_exists.mp hsome
  exact ⟨y, first_iff_find?.mpr hy⟩

theorem First.of_imp (hpq : ∀ y ∈ l, p y = true → q y = true) (h : First q l x) (hx : p x = true) :
    First p l x := by
  induction h with
  | here _ => exact .here hx
  | @there x y l hy _ ih =>
    have hy' : p y = false := by
      by_contra hp
      rw [hpq y List.mem_cons_self (Bool.not_eq_false _ ▸ hp)] at hy
      cases hy
    exact .there hy' (ih (fun z hz => hpq z (List.mem_cons_of_mem _ hz)) hx)

theorem First.append {pre : List α} (hpre : ∀ y ∈ pre, p y = false) (h : First p l x) :
    First p (pre ++ l) x := by
  induction pre with
  | nil => exact h
  | cons y pre ih =>
    have hy : p y = false := hpre y List.mem_cons_self
    exact .there hy (ih fun z hz => hpre z (List.mem_cons_of_mem _ hz))

/-- Two predicates find the same when the first element that meets either meets both. -/
theorem find?_eq_find?_iff :
    l.find? p = l.find? q ↔
      ∀ x, First (fun y => p y || q y) l x → p x = true ∧ q x = true := by
  constructor
  · intro heq x hx
    have hp : p x = true → First p l x :=
      fun hp => hx.of_imp (fun y _ hy => by simp [hy]) hp
    have hq : q x = true → First q l x :=
      fun hq => hx.of_imp (fun y _ hy => by simp [hy]) hq
    rcases Bool.or_eq_true _ _ ▸ hx.holds with h | h
    · have hfirst := first_iff_find?.mp (hp h)
      exact ⟨h, (first_iff_find?.mpr (heq ▸ hfirst)).holds⟩
    · have hfirst := first_iff_find?.mp (hq h)
      exact ⟨(first_iff_find?.mpr (heq.symm ▸ hfirst)).holds, h⟩
  · intro hboth
    cases h : l.find? fun y => p y || q y with
    | none =>
      have hnone := List.find?_eq_none.mp h
      have hp : l.find? p = none := List.find?_eq_none.mpr fun y hy h => hnone y hy (by simp [h])
      have hq : l.find? q = none := List.find?_eq_none.mpr fun y hy h => hnone y hy (by simp [h])
      rw [hp, hq]
    | some x =>
      have hx := first_iff_find?.mpr h
      obtain ⟨hpx, hqx⟩ := hboth x hx
      have hp : First p l x := hx.of_imp (fun y _ hy => by simp [hy]) hpx
      have hq : First q l x := hx.of_imp (fun y _ hy => by simp [hy]) hqx
      rw [first_iff_find?.mp hp, first_iff_find?.mp hq]

theorem First.both (hpq : ∀ y ∈ l, p y = true ↔ q y = true)
    (h : First (fun y => p y || q y) l x) : p x = true ∧ q x = true := by
  rcases Bool.or_eq_true _ _ ▸ h.holds with hp | hq
  · exact ⟨hp, (hpq x h.mem).mp hp⟩
  · exact ⟨(hpq x h.mem).mpr hq, hq⟩

end FirstMatch
