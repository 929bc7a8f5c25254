import Mathlib.Data.List.Forall2

/-! # Results that are not errors

A fallible computation gives a result exactly when each of its steps does.
-/

namespace Fallible

universe u v

variable {ε ε' : Type u} {α β : Type v} {x : Except ε α} {a : α} {b : β}

theorem map_ok_iff {f : α → β} : x.map f = .ok b ↔ ∃ a, x = .ok a ∧ f a = b := by
  constructor
  · intro h
    cases x with
    | error err => cases h
    | ok a => exact ⟨a, rfl, Except.ok.inj h⟩
  · rintro ⟨a, rfl, rfl⟩
    rfl

theorem mapError_ok_iff {f : ε → ε'} : x.mapError f = .ok a ↔ x = .ok a := by
  constructor
  · intro h
    cases x with
    | error err => cases h
    | ok a' => exact congrArg Except.ok (Except.ok.inj h)
  · rintro rfl
    rfl

theorem bind_ok_iff {f : α → Except ε β} :
    x >>= f = .ok b ↔ ∃ a, x = .ok a ∧ f a = .ok b := by
  constructor
  · intro h
    cases x with
    | error err => cases h
    | ok a => exact ⟨a, rfl, h⟩
  · rintro ⟨a, rfl, h⟩
    exact h

section Lists

variable {l : List α} {l' : List β}

theorem forall₂_of_mapM {f : α → Option β} (h : l.mapM f = some l') :
    List.Forall₂ (fun a b => f a = some b) l l' := by
  induction l generalizing l' with
  | nil =>
    obtain rfl := Option.some.inj h
    exact .nil
  | cons a l ih =>
    rw [List.mapM_cons] at h
    obtain ⟨b, hb, h⟩ := Option.bind_eq_some_iff.mp h
    obtain ⟨rest, hrest, h⟩ := Option.bind_eq_some_iff.mp h
    obtain rfl := Option.some.inj h
    exact .cons hb (ih hrest)

theorem exists_partner {R : α → β → Prop} (h : List.Forall₂ R l l') : ∀ a ∈ l, ∃ b ∈ l', R a b := by
  induction h with
  | nil => nofun
  | cons hab _ ih =>
    rw [List.forall_mem_cons]
    refine ⟨⟨_, List.mem_cons_self, hab⟩, fun a ha => ?_⟩
    obtain ⟨b, hb, hR⟩ := ih a ha
    exact ⟨b, List.mem_cons_of_mem _ hb, hR⟩

end Lists

section State

variable {ε σ α β : Type u} {m : EStateM ε σ α} {k : α → EStateM ε σ β} {s s' : σ} {e : ε} {a : α}

theorem bind_of_ok (h : m s = .ok a s') : (m >>= k) s = k a s' := by
  change (match m s with | .ok a s => k a s | .error e s => .error e s) = _
  rw [h]

theorem bind_of_error (h : m s = .error e s') : (m >>= k) s = .error e s' := by
  change (match m s with | .ok a s => k a s | .error e s => .error e s) = _
  rw [h]

end State

end Fallible
