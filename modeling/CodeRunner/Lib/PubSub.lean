import Mathlib.Data.Nat.Notation
import Mathlib.Tactic.TypeStar

/-! # Fire-and-forget publish and subscribe

A message reaches a subscription that is active when it is published, and nobody else. It is in
flight until the subscriber takes it, in publish order. A bounded buffer behind the subscriber
drops what finds it full.
-/

namespace PubSub

variable {μ : Type*}

/-- `inflight` holds what has been published and not been taken, oldest first. -/
structure Subscription (μ : Type*) where
  active : Bool
  inflight : List μ

namespace Subscription

def closed : Subscription μ := ⟨false, []⟩

def activate (sub : Subscription μ) : Subscription μ := { sub with active := true }

def publish (sub : Subscription μ) (m : μ) : Subscription μ :=
  if sub.active then { sub with inflight := sub.inflight ++ [m] } else sub

/-- The oldest message in flight, and the subscription without it. -/
def take? (sub : Subscription μ) : Option (μ × Subscription μ) :=
  match sub.inflight with
  | m :: rest => some (m, { sub with inflight := rest })
  | [] => none

variable {sub sub' : Subscription μ} {m m' : μ}

@[simp] theorem inflight_closed : (closed : Subscription μ).inflight = [] := rfl

@[simp] theorem inflight_activate : sub.activate.inflight = sub.inflight := rfl

theorem inflight_publish (h : sub.active = true) :
    (sub.publish m).inflight = sub.inflight ++ [m] := by
  rw [publish, if_pos h]

theorem publish_of_inactive (h : sub.active = false) : sub.publish m = sub := by
  rw [publish, if_neg (by rw [h]; exact Bool.false_ne_true)]

@[simp] theorem active_publish : (sub.publish m).active = sub.active := by
  unfold publish
  split <;> rfl

theorem mem_publish_of_mem (h : m ∈ sub.inflight) : m ∈ (sub.publish m').inflight := by
  unfold publish
  split
  · exact List.mem_append_left _ h
  · exact h

theorem mem_publish (h : m' ∈ (sub.publish m).inflight) : m' ∈ sub.inflight ∨ m' = m := by
  unfold publish at h
  split at h
  · exact (List.mem_append.mp h).imp_right List.mem_singleton.mp
  · exact .inl h

theorem length_publish_le : (sub.publish m).inflight.length ≤ sub.inflight.length + 1 := by
  unfold publish
  split
  · exact Nat.le_of_eq List.length_append
  · exact Nat.le_succ _

theorem count_publish_of_ne [DecidableEq μ] (h : m ≠ m') :
    (sub.publish m).inflight.count m' = sub.inflight.count m' := by
  unfold publish
  split
  · rw [List.count_append, List.count_singleton, if_neg (by simpa using h), Nat.add_zero]
  · rfl

theorem take?_eq_some :
    sub.take? = some (m, sub') ↔ sub.inflight = m :: sub'.inflight ∧ sub'.active = sub.active := by
  unfold take?
  constructor
  · intro h
    split at h
    · next hin =>
      cases h
      exact ⟨hin, rfl⟩
    · cases h
  · rintro ⟨hin, hactive⟩
    rw [hin]
    cases sub'
    cases sub
    cases hactive
    rfl

end Subscription

/-- A message at a buffer of `cap` places. -/
def offer (cap : ℕ) (buffer : List μ) (m : μ) : List μ :=
  if buffer.length < cap then buffer ++ [m] else buffer

variable {cap : ℕ} {buffer : List μ} {m : μ}

theorem offer_of_lt (h : buffer.length < cap) : offer cap buffer m = buffer ++ [m] := if_pos h

theorem length_offer_le : (offer cap buffer m).length ≤ buffer.length + 1 := by
  unfold offer
  split
  · exact Nat.le_of_eq List.length_append
  · exact Nat.le_succ _

end PubSub
