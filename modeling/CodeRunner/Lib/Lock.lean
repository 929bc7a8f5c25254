import Mathlib.Logic.Function.Basic
import Mathlib.Data.Nat.Notation
import Mathlib.Data.Option.Basic

/-! # A lock key that expires

A party takes the lock by setting an absent key with a time to live, and gives it up by deleting
the key, whoever set it. The key carries no owner; `State` records one as history, with the time
at which each party inside the guarded section entered it.
-/

namespace Lock

/-- The lock key with the party that set it and its expiry time, and the entry times of the
parties inside. -/
structure State (ι : Type*) where
  now : ℕ
  key : Option (ι × ℕ)
  since : ι → Option ℕ

/-- `leave` ends a party's section without a delete of the key. -/
inductive Act (ι : Type*) where
  | acquire (i : ι)
  | release (i : ι)
  | leave (i : ι)
  | tick (d : ℕ)
  deriving DecidableEq, Repr

variable {ι : Type*} [DecidableEq ι] {ttl : ℕ}

def State.start (now : ℕ) : State ι := ⟨now, none, fun _ => none⟩

def State.apply (ttl : ℕ) (s : State ι) : Act ι → State ι
  | .acquire i =>
      if s.key.isSome then s
      else
        { s with
          key := some (i, s.now + ttl)
          since := Function.update s.since i (some s.now) }
  | .release i => { s with key := none, since := Function.update s.since i none }
  | .leave i => { s with since := Function.update s.since i none }
  | .tick d =>
      { s with
        now := s.now + d
        key := s.key.filter fun k => decide (s.now + d < k.2) }

/-- `i` is inside, and its time to live has not run out. -/
def State.InTerm (ttl : ℕ) (s : State ι) (i : ι) : Prop := ∃ t ∈ s.since i, s.now < t + ttl

/-- `i` is inside, and its time to live has run out. -/
def State.Outlived (ttl : ℕ) (s : State ι) (i : ι) : Prop := ∃ t ∈ s.since i, t + ttl ≤ s.now

/-- A delete of the key by `i` removes no other party's lock. -/
def State.Owns (s : State ι) (i : ι) : Prop := ∀ k ∈ s.key, k.1 = i

/-- `i` deletes the key within its own time to live, or there is none to delete. -/
def State.InTime (ttl : ℕ) (s : State ι) (i : ι) : Prop := s.key = none ∨ s.InTerm ttl i

instance (s : State ι) (i : ι) : Decidable (s.InTerm ttl i) :=
  inferInstanceAs (Decidable (∃ t ∈ s.since i, s.now < t + ttl))

instance (s : State ι) (i : ι) : Decidable (s.Outlived ttl i) :=
  inferInstanceAs (Decidable (∃ t ∈ s.since i, t + ttl ≤ s.now))

instance (s : State ι) (i : ι) : Decidable (s.Owns i) :=
  inferInstanceAs (Decidable (∀ k ∈ s.key, k.1 = i))

instance (s : State ι) (i : ι) : Decidable (s.InTime ttl i) :=
  inferInstanceAs (Decidable (s.key = none ∨ s.InTerm ttl i))

/-- A party in its term has the key, no key has expired, and the key of a party inside is from
its last entry. -/
structure State.Sound (ttl : ℕ) (s : State ι) : Prop where
  held : ∀ i, ∀ t ∈ s.since i, s.now < t + ttl → s.key = some (i, t + ttl)
  alive : ∀ k ∈ s.key, s.now < k.2
  owned : ∀ k ∈ s.key, ∀ t ∈ s.since k.1, k.2 = t + ttl

variable {s : State ι} {i j : ι}

omit [DecidableEq ι] in
theorem start_sound (now : ℕ) : (State.start now : State ι).Sound ttl where
  held := by simp [State.start]
  alive := by simp [State.start]
  owned := by simp [State.start]

theorem mem_update_none {f : ι → Option ℕ} {t : ℕ} (h : t ∈ Function.update f i none j) :
    j ≠ i ∧ t ∈ f j := by
  by_cases hj : j = i
  · subst hj
    simp at h
  · exact ⟨hj, by simpa [Function.update_of_ne hj] using h⟩

theorem acquire_sound (hpos : 0 < ttl) (hs : s.Sound ttl) :
    (s.apply ttl (.acquire i)).Sound ttl := by
  rw [State.apply]
  split
  · exact hs
  · next hfree =>
    have hnone : s.key = none := by simpa using hfree
    constructor
    · intro j t ht hterm
      by_cases hj : j = i
      · subst hj
        obtain rfl : s.now = t := by simpa using ht
        rfl
      · -- The key is absent, so the term of every other party inside has run out.
        have ht : t ∈ s.since j := by simpa [Function.update_of_ne hj] using ht
        have hkey := hs.held j t ht hterm
        rw [hnone] at hkey
        cases hkey
    · rintro k hk
      obtain rfl : (i, s.now + ttl) = k := Option.some.inj hk
      exact Nat.lt_add_of_pos_right hpos
    · rintro k hk t ht
      obtain rfl : (i, s.now + ttl) = k := Option.some.inj hk
      obtain rfl : s.now = t := by simpa using ht
      rfl

theorem release_sound (hs : s.Sound ttl) (hi : s.InTime ttl i) :
    (s.apply ttl (.release i)).Sound ttl := by
  constructor
  · intro j t ht hterm
    obtain ⟨hj, ht⟩ := mem_update_none ht
    have hkey := hs.held j t ht hterm
    rcases hi with hnone | ⟨u, hu, hterm'⟩
    · rw [hnone] at hkey
      cases hkey
    · have hkey' := hs.held i u hu hterm'
      rw [hkey'] at hkey
      simp only [Option.some.injEq, Prod.mk.injEq] at hkey
      exact absurd hkey.1.symm hj
  · rintro k ⟨⟩
  · rintro k ⟨⟩

theorem leave_sound (hs : s.Sound ttl) : (s.apply ttl (.leave i)).Sound ttl where
  held j t ht hterm := hs.held j t (mem_update_none ht).2 hterm
  alive := hs.alive
  owned k hk t ht := hs.owned k hk t (mem_update_none ht).2

theorem tick_sound (d : ℕ) (hs : s.Sound ttl) : (s.apply ttl (.tick d)).Sound ttl := by
  constructor
  · intro j t ht hterm
    have hterm : s.now + d < t + ttl := hterm
    have hkey := hs.held j t ht (by omega)
    simp only [State.apply, hkey, Option.filter_some, hterm, decide_true, if_true]
  · intro k hk
    obtain ⟨-, halive⟩ := Option.filter_eq_some_iff.mp hk
    exact of_decide_eq_true halive
  · intro k hk t ht
    obtain ⟨hkey, -⟩ := Option.filter_eq_some_iff.mp hk
    exact hs.owned k hkey t ht

theorem apply_sound (hpos : 0 < ttl) (hs : s.Sound ttl) {a : Act ι}
    (ha : ∀ i, a = .release i → s.InTime ttl i) : (s.apply ttl a).Sound ttl := by
  cases a with
  | acquire i => exact acquire_sound hpos hs
  | release i => exact release_sound hs (ha i rfl)
  | leave i => exact leave_sound hs
  | tick d => exact tick_sound d hs

omit [DecidableEq ι] in
theorem State.Sound.unique (hs : s.Sound ttl) (hi : s.InTerm ttl i) (hj : s.InTerm ttl j) :
    i = j := by
  obtain ⟨t, ht, hti⟩ := hi
  obtain ⟨u, hu, huj⟩ := hj
  have hkey := (hs.held i t ht hti).symm.trans (hs.held j u hu huj)
  simp only [Option.some.injEq, Prod.mk.injEq] at hkey
  exact hkey.1

omit [DecidableEq ι] in
theorem outlived_of_not_inTerm (hi : (s.since i).isSome) (h : ¬ s.InTerm ttl i) :
    s.Outlived ttl i := by
  obtain ⟨t, ht⟩ := Option.isSome_iff_exists.mp hi
  exact ⟨t, ht, Nat.le_of_not_lt fun hlt => h ⟨t, ht, hlt⟩⟩

omit [DecidableEq ι] in
theorem State.Sound.outlived (hs : s.Sound ttl) (hij : i ≠ j) (hi : (s.since i).isSome)
    (hj : (s.since j).isSome) : s.Outlived ttl i ∨ s.Outlived ttl j := by
  by_cases hti : s.InTerm ttl i
  · exact .inr (outlived_of_not_inTerm hj fun htj => hij (hs.unique hti htj))
  · exact .inl (outlived_of_not_inTerm hi hti)

omit [DecidableEq ι] in
theorem State.Sound.owns_iff (hs : s.Sound ttl) (hi : (s.since i).isSome) :
    s.Owns i ↔ s.InTime ttl i := by
  constructor
  · intro ho
    rcases hk : s.key with _ | k
    · exact .inl hk
    · obtain rfl : k.1 = i := ho k hk
      obtain ⟨t, ht⟩ := Option.isSome_iff_exists.mp hi
      exact .inr ⟨t, ht, hs.owned k hk t ht ▸ hs.alive k hk⟩
  · rintro (hnone | ⟨t, ht, hterm⟩) k hk
    · rw [hnone] at hk
      cases hk
    · rw [hs.held i t ht hterm] at hk
      exact congrArg Prod.fst (Option.some.inj hk).symm

end Lock
