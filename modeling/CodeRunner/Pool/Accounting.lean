import CodeRunner.Pool.Manager

/-! # The accounts of the pool

Each parent counts the dials that hold a reservation on it, and the map files each parent under
the key it was launched for. The function that `dial` returns gives the reservation back the
first time it is called; its `sync.Once` makes every later call return at once.
-/

namespace CodeRunner.Pool

open Tally Transition

variable {K : Type*} [DecidableEq K]

/-- Reservations are counted, the map files parents under their keys, and a call reaches only
parents that have been launched. -/
structure Counted (s : State K) : Prop where
  inflight : ∀ p x, s.manager.launched[p]? = some x →
    x.inflight = (tally (fun t => t.pc.reserved p) s.threads : ℤ)
  key : ∀ k p, s.manager.parents.lookup k = some p →
    s.manager.launched[p]?.map PoolParent.key = some k
  known : ∀ t ∈ s.threads, ∀ p, t.pc.Reaches p → p < s.manager.launched.length

variable {idle : ℕ} {s s' : State K} {a : Act K} {p q : ℕ} {pc pc' : Pc K} {k key : K}

theorem Counted.start : Counted (State.start K) where
  inflight p x h := by cases h
  key k p h := by cases h
  known t h := by cases h

theorem Counted.call (h : Counted s) (hr : ∀ p, ¬ pc.Reaches p) : Counted (s.call pc) where
  inflight p x hx := by
    have hzero : pc.reserved p = 0 := Nat.eq_zero_of_not_pos fun hpos => hr p (.inr hpos)
    have htally : tally (fun t => t.pc.reserved p) (s.threads ++ [⟨pc, false⟩]) =
        tally (fun t => t.pc.reserved p) s.threads + pc.reserved p := tally_append_singleton
    rw [h.inflight p x hx, State.call, htally, hzero, Nat.add_zero]
  key := h.key
  known t hm := by
    rcases List.mem_append.mp hm with hm | hm
    · exact h.known t hm
    · obtain rfl := List.mem_singleton.mp hm
      exact fun p hp => absurd hp (hr p)

theorem Counted.cancel {i : ℕ} {t : Thread K} (h : Counted s) (hi : s.threads[i]? = some t) :
    Counted { s with threads := s.threads.set i { t with cancelled := true } } where
  inflight p x hx := by
    have htally : tally (fun t => t.pc.reserved p)
        (s.threads.set i { t with cancelled := true }) + t.pc.reserved p =
        tally (fun t => t.pc.reserved p) s.threads + t.pc.reserved p :=
      tally_set hi
    rw [h.inflight p x hx]
    dsimp only
    omega
  key := h.key
  known u hu := by
    rcases List.mem_or_eq_of_mem_set hu with hu | rfl
    · exact h.known u hu
    · exact h.known t (List.mem_of_getElem? hi)

theorem Counted.go {i j : ℕ} {ok : Bool} {t : Thread K} {m' : Manager K} (h : Counted s)
    (hi : s.threads[i]? = some t)
    (hn : s.manager.next idle t.cancelled ok j t.pc = some (pc', m')) :
    Counted ⟨m', s.threads.set i { t with pc := pc' }⟩ := by
  have hmoves := next_moves hn
  have ht : t ∈ s.threads := List.mem_of_getElem? hi
  have hmap : ∀ k p, s.manager.parents.lookup k = some p → p < s.manager.launched.length := by
    intro k p hp
    obtain ⟨x, hx, -⟩ := Option.map_eq_some_iff.mp (h.key k p hp)
    exact (List.getElem?_eq_some_iff.mp hx).1
  constructor
  · intro p x' hx
    have htally : tally (fun t => t.pc.reserved p) (s.threads.set i { t with pc := pc' }) +
        t.pc.reserved p = tally (fun t => t.pc.reserved p) s.threads + pc'.reserved p :=
      tally_set hi
    rcases hmoves.inflight p x' hx with ⟨x, hx, -, hr⟩ | ⟨rfl, hx, hr⟩
    · have := h.inflight p x hx
      dsimp only
      omega
    · have hzero : tally (fun t => t.pc.reserved s.manager.launched.length) s.threads = 0 :=
        tally_eq_zero fun u hu => Nat.eq_zero_of_not_pos fun hpos =>
          absurd (h.known u hu _ (.inr hpos)) (Nat.lt_irrefl _)
      dsimp only
      omega
  · intro k p hp
    rcases hmoves.lookup k p hp with hp | ⟨-, hkey⟩
    · exact hmoves.key (h.key k p hp)
    · exact hkey
  · intro u hu p hp
    rcases List.mem_or_eq_of_mem_set hu with hu | rfl
    · exact Nat.lt_of_lt_of_le (h.known u hu p hp) hmoves.grows
    · rcases hmoves.reaches p hp with hp | ⟨k, hp⟩ | ⟨-, hlt⟩
      · exact Nat.lt_of_lt_of_le (h.known t ht p hp) hmoves.grows
      · exact Nat.lt_of_lt_of_le (hmap k p hp) hmoves.grows
      · exact hlt

theorem Counted.step (h : Counted s) (hs : s.step idle a = some s') : Counted s' := by
  cases a with
  | dial key =>
    cases hs
    exact h.call (by rintro p (h | h) <;> cases h)
  | reapIdle =>
    simp only [State.step] at hs
    split at hs <;> cases hs
    exact h.call (by rintro p (h | h) <;> cases h)
  | close =>
    cases hs
    exact h.call (by rintro p (h | h) <;> cases h)
  | cancel i =>
    obtain ⟨t, hi, rfl⟩ := Option.map_eq_some_iff.mp hs
    exact h.cancel hi
  | go i ok j =>
    obtain ⟨t, hi, hs⟩ := Option.bind_eq_some_iff.mp hs
    obtain ⟨⟨pc', m'⟩, hn, rfl⟩ := Option.map_eq_some_iff.mp hs
    exact h.go hi hn
  | tick =>
    cases hs
    exact ⟨h.inflight, h.key, h.known⟩

/-- The pool and the dials whose `releaseOnce` has run. -/
structure Releases (K : Type*) where
  pool : State K
  once : List ℕ

def Releases.start (K : Type*) : Releases K := ⟨.start K, []⟩

/-- An action of the pool, or a call of the function that the `i`th call returned. -/
inductive Call (K : Type*) where
  | act (a : Act K)
  | release (i : ℕ)
  deriving DecidableEq, Repr

/-- The place of the `i`th call. -/
def State.pcOf (s : State K) (i : ℕ) : Option (Pc K) := (s.threads[i]?).map Thread.pc

/-- A dial that has returned goes on only when its release function is called. -/
def State.returned (s : State K) (i : ℕ) : Bool :=
  match s.pcOf i with
  | some (.open_ _) => true
  | _ => false

def Act.goes : Act K → Option ℕ
  | .go i _ _ => some i
  | _ => none

def Releases.step (idle : ℕ) (s : Releases K) : Call K → Option (Releases K)
  | .act a =>
    if (a.goes.map s.pool.returned).getD false then none
    else (s.pool.step idle a).map fun t => { s with pool := t }
  | .release i =>
    if i ∈ s.once then some s
    else if s.pool.returned i then
      (s.pool.step idle (.go i true 0)).map fun t => ⟨t, i :: s.once⟩
    else none

theorem Releases.step_pool {s s' : Releases K} {c : Call K} (h : s.step idle c = some s') :
    s' = s ∨ ∃ a, s.pool.step idle a = some s'.pool := by
  cases c with
  | act a =>
    simp only [Releases.step] at h
    split at h
    · cases h
    · obtain ⟨t, ht, rfl⟩ := Option.map_eq_some_iff.mp h
      exact .inr ⟨a, ht⟩
  | release i =>
    simp only [Releases.step] at h
    split at h
    · cases h
      exact .inl rfl
    · split at h
      · obtain ⟨t, ht, rfl⟩ := Option.map_eq_some_iff.mp h
        exact .inr ⟨_, ht⟩
      · cases h

theorem Counted.releases {s s' : Releases K} {c : Call K} (h : Counted s.pool)
    (hs : s.step idle c = some s') : Counted s'.pool := by
  rcases Releases.step_pool hs with rfl | ⟨a, ha⟩
  · exact h
  · exact h.step ha

/-- The key and the parent for which an action runs the critical section of `dropParent`. -/
def State.drops (s : State K) : Act K → Option (K × ℕ)
  | .go i _ _ =>
    match s.pcOf i with
    | some (.drop key p _) => some (key, p)
    | _ => none
  | _ => none

theorem drop_lookup {m : Manager K} (hp : p ≠ q) :
    (m.drop key q).parents.lookup k = some p ↔ m.parents.lookup k = some p := by
  unfold Manager.drop
  split
  · next hq =>
    constructor
    · exact fun h => (erase_lookup h).2
    · intro h
      have hk : k ≠ key := by
        rintro rfl
        exact hp (Option.some.inj (h.symm.trans hq))
      rw [AList.lookup_erase_ne hk]
      exact h
  · exact Iff.rfl

theorem drops_keeps (hd : s.drops a = some (key, q)) (hs : s.step idle a = some s') (hp : p ≠ q) :
    s'.manager.parents.lookup k = some p ↔ s.manager.parents.lookup k = some p := by
  cases a with
  | go i ok j =>
    obtain ⟨t, hi, hs⟩ := Option.bind_eq_some_iff.mp hs
    obtain ⟨⟨pc', m'⟩, hn, rfl⟩ := Option.map_eq_some_iff.mp hs
    simp only [State.drops, State.pcOf, hi, Option.map_some] at hd
    split at hd
    · next hpc =>
      cases hd
      rw [Option.some.inj hpc] at hn
      obtain ⟨-, hn⟩ := underLock_eq_some.mp hn
      cases hn
      exact drop_lookup hp
    · cases hd
  | _ => cases hd

/-- However dials, releases, passes of the reaper and `close` interleave, each parent counts the
dials that hold a reservation on it, the map has one parent for a key and each under the key it
was launched for, and `dropParent` leaves every parent in the map but the one it was given. -/
theorem pool_accounting {as : List (Call K)} {s : Releases K}
    (hr : run (Releases.step idle) (Releases.start K) as = some s) :
    (∀ p x, s.pool.manager.launched[p]? = some x → 0 ≤ x.inflight ∧
      x.inflight = (tally (fun t => t.pc.reserved p) s.pool.threads : ℤ)) ∧
    (∀ e ∈ s.pool.manager.parents.entries, ∀ e' ∈ s.pool.manager.parents.entries,
      e.1 = e'.1 → e = e') ∧
    (∀ k p, s.pool.manager.parents.lookup k = some p →
      ∃ x, s.pool.manager.launched[p]? = some x ∧ x.key = k) ∧
    ∀ a s' key q, s.step idle (.act a) = some s' → s.pool.drops a = some (key, q) →
      ∀ k p, p ≠ q →
        (s'.pool.manager.parents.lookup k = some p ↔ s.pool.manager.parents.lookup k = some p) := by
  have hacc : Counted s.pool := by
    apply Reachable.invariant (I := fun s : Releases K => Counted s.pool) _ .start ⟨as, hr⟩
    exact fun _ _ _ => Counted.releases
  refine ⟨?_, ?_, ?_, ?_⟩
  · intro p x hx
    rw [hacc.inflight p x hx]
    exact ⟨Int.natCast_nonneg _, rfl⟩
  · intro e he e' he' hkey
    exact List.NodupKeys.eq_of_fst_eq s.pool.manager.parents.nodupKeys he he' hkey
  · intro k p hp
    exact Option.map_eq_some_iff.mp (hacc.key k p hp)
  · intro a s' key q hs hd k p hp
    simp only [Releases.step] at hs
    split at hs
    · cases hs
    · obtain ⟨t, ht, rfl⟩ := Option.map_eq_some_iff.mp hs
      exact drops_keeps hd ht hp

/-- A job releases its parent twice while a second dial to it fails. -/
def doubleRelease : List (Call String) :=
  [.act (.dial "python:3.12"), .act (.go 0 true 0), .act (.go 0 true 0), .act (.go 0 true 0),
    .act (.go 0 true 0), .act (.dial "python:3.12"), .act (.go 1 true 0), .act (.go 1 true 0),
    .act (.go 1 true 0), .act (.go 1 false 0), .act (.go 1 true 0), .release 0, .release 0]

theorem pool_accounting_doubleRelease :
    ∃ s x, run (Releases.step 1) (Releases.start String) doubleRelease = some s ∧
      s.pool.manager.launched = [x] ∧ x.inflight = 0 ∧
        tally (fun t => t.pc.reserved 0) s.pool.threads = 0 := by
  have hrun : (run (Releases.step 1) (Releases.start String) doubleRelease).map (fun s =>
      s.pool.manager.launched.map PoolParent.inflight) = some [0] := by
    decide
  obtain ⟨s, hr, hlaunched⟩ := Option.map_eq_some_iff.mp hrun
  obtain ⟨x, hx, hinflight⟩ := List.map_eq_singleton_iff.mp hlaunched
  have hcount := ((pool_accounting hr).1 0 x (by rw [hx]; rfl)).2
  rw [hinflight] at hcount
  exact ⟨s, x, hr, hx, hinflight, (Int.natCast_eq_zero.mp hcount.symm)⟩

end CodeRunner.Pool
