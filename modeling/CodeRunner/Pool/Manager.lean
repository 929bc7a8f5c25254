import Mathlib.Data.List.AList
import CodeRunner.Lib.Tally
import CodeRunner.Lib.Transition

/-! # The pool of warm parents

`poolManager` keeps one warm parent for each key. Jobs dial a parent and release it, the idle
reaper collects parents that have not been used for a while, and `close` takes them all. Each
call is a thread; it goes on where it holds a lock for one critical section, and calls of the
backend and the relay dial are answered from outside.
-/

namespace CodeRunner.Pool

/-- `poolParent`; its container is its place among the launched parents. -/
structure PoolParent (K : Type*) where
  key : K
  lastUsed : ℕ
  inflight : ℤ
  deriving DecidableEq, Repr

/-- The state that the calls share. The last two fields are what became of the containers: those
that `removeParent` removed and those for which it returned an error. -/
structure Manager (K : Type*) where
  clock : ℕ
  locked : Bool
  parents : AList fun _ : K => ℕ
  launched : List (PoolParent K)
  removed : List ℕ
  failed : List ℕ

def Manager.start (K : Type*) : Manager K := ⟨0, false, ∅, [], [], []⟩

/-- Where a call is: the constructors up to `finished` belong to `dial`, the next four to
`reapIdle` and the last three to `close`. -/
inductive Pc (K : Type*) where
  | lookup (key : K)
  | healthy (key : K) (p : ℕ)
  /-- In `dropParent`; a dead parent is then launched anew, and a failed dial has failed. -/
  | drop (key : K) (p : ℕ) (respawn : Bool)
  | dropped (key : K) (p : ℕ) (respawn : Bool)
  | launch (key : K)
  /-- `getOrCreate` has returned. -/
  | given (key : K) (p : ℕ)
  | dialRelay (key : K) (p : ℕ)
  | rollback (key : K) (p : ℕ)
  | open_ (p : ℕ)
  | finished
  | now
  | lock (now : ℕ)
  | scan (now : ℕ) (keys : List K) (toReap : List ℕ)
  | reap (toReap : List ℕ)
  | close
  /-- `count` parents had been launched when `close` took the map. -/
  | closing (todo : List ℕ) (count : ℕ)
  | closed (count : ℕ)
  deriving DecidableEq, Repr

structure Thread (K : Type*) where
  pc : Pc K
  cancelled : Bool
  deriving DecidableEq, Repr

structure State (K : Type*) where
  manager : Manager K
  threads : List (Thread K)

def State.start (K : Type*) : State K := ⟨.start K, []⟩

section Manager

variable {K : Type*} (m : Manager K)

/-- A critical section of `pm.mu`. -/
def Manager.underLock {α : Type*} (r : α) : Option α := if m.locked then none else some r

/-- `inflight` by `d` and `lastUsed` to now, under the parent's own lock. -/
def Manager.use (p : ℕ) (d : ℤ) : Manager K :=
  { m with
    launched := m.launched.modify p fun x =>
      { x with inflight := x.inflight + d, lastUsed := m.clock } }

def Manager.removal (p : ℕ) (ok : Bool) : Manager K :=
  if ok then { m with removed := p :: m.removed } else { m with failed := p :: m.failed }

/-- `idleEnough` of `reapIdle`. -/
def Manager.idleEnough (idle now p : ℕ) : Bool :=
  match m.launched[p]? with
  | some x => x.inflight = 0 ∧ x.lastUsed + idle ≤ now
  | none => false

variable {m} {ok : Bool} {p : ℕ}

theorem underLock_eq_some {α : Type*} {r r' : α} :
    m.underLock r = some r' ↔ m.locked = false ∧ r = r' := by
  cases hl : m.locked <;> simp [Manager.underLock, hl]

theorem removal_parents : (m.removal p ok).parents = m.parents := by
  cases ok <;> rfl

theorem removal_launched : (m.removal p ok).launched = m.launched := by
  cases ok <;> rfl

end Manager

section Step

variable {K : Type*} [DecidableEq K]

/-- `dropParent` deletes the parent only while it is the current one of its key. -/
def Manager.drop (m : Manager K) (key : K) (p : ℕ) : Manager K :=
  if m.parents.lookup key = some p then { m with parents := m.parents.erase key } else m

/-- The parent that `launchParent` returned, in the map. -/
def Manager.add (m : Manager K) (key : K) : Manager K :=
  { m with
    parents := m.parents.insert key m.launched.length
    launched := m.launched ++ [⟨key, m.clock, 0⟩] }

/-- One visit of the loop of `reapIdle` over the map. -/
def Manager.visit (m : Manager K) (idle now : ℕ) (key : K) (keys : List K) (toReap : List ℕ) :
    Pc K × Manager K :=
  match m.parents.lookup key with
  | some p =>
    if m.idleEnough idle now p then
      (.scan now keys (toReap ++ [p]), { m with parents := m.parents.erase key })
    else (.scan now keys toReap, m)
  | none => (.scan now keys toReap, m)

/-- What a call does next. `ok` is the answer from outside and `j` the map's choice of the next
entry. Without the caller's context a removal fails; the reaper and `close` have their own. -/
def Manager.next (idle : ℕ) (cancelled ok : Bool) (j : ℕ) (m : Manager K) :
    Pc K → Option (Pc K × Manager K)
  | .lookup key =>
    m.underLock <|
      match m.parents.lookup key with
      | some p => (.healthy key p, m)
      | none => (.launch key, m)
  | .healthy key p => some (if ok then .given key p else .drop key p true, m)
  | .drop key p respawn => m.underLock (.dropped key p respawn, m.drop key p)
  | .dropped key p respawn =>
    some (if respawn then .launch key else .finished, m.removal p (ok && !cancelled))
  | .launch key =>
    m.underLock <|
      match m.parents.lookup key with
      | some p => (.given key p, m)
      | none => if ok then (.given key m.launched.length, m.add key) else (.finished, m)
  | .given key p => some (.dialRelay key p, m.use p 1)
  | .dialRelay key p => some (if ok then .open_ p else .rollback key p, m)
  | .rollback key p => some (.drop key p false, m.use p (-1))
  -- The release function, which undoes the reservation once.
  | .open_ p => some (.finished, m.use p (-1))
  | .finished => none
  | .now => some (.lock m.clock, m)
  | .lock now => m.underLock (.scan now m.parents.keys [], { m with locked := true })
  | .scan _ [] toReap => some (.reap toReap, { m with locked := false })
  | .scan now (key :: keys) toReap =>
    ((key :: keys)[j]?).map fun k => m.visit idle now k ((key :: keys).eraseIdx j) toReap
  | .reap [] => some (.finished, m)
  | .reap (p :: toReap) => some (.reap toReap, m.removal p ok)
  | .close =>
    m.underLock (.closing (m.parents.entries.map Sigma.snd) m.launched.length,
      { m with parents := ∅ })
  | .closing [] count => some (.closed count, m)
  | .closing (p :: todo) count =>
    ((p :: todo)[j]?).map fun q => (.closing ((p :: todo).eraseIdx j) count, m.removal q ok)
  | .closed _ => none

/-- The reaper runs only with a positive idle time. -/
inductive Act (K : Type*) where
  | dial (key : K)
  | reapIdle
  | close
  | cancel (i : ℕ)
  | go (i : ℕ) (ok : Bool) (j : ℕ)
  | tick
  deriving DecidableEq, Repr

def State.call (s : State K) (pc : Pc K) : State K :=
  { s with threads := s.threads ++ [⟨pc, false⟩] }

def State.step (idle : ℕ) (s : State K) : Act K → Option (State K)
  | .dial key => some (s.call (.lookup key))
  | .reapIdle => if 0 < idle then some (s.call .now) else none
  | .close => some (s.call .close)
  | .cancel i =>
    s.threads[i]?.map fun t => { s with threads := s.threads.set i { t with cancelled := true } }
  | .go i ok j =>
    s.threads[i]?.bind fun t =>
      (s.manager.next idle t.cancelled ok j t.pc).map fun r =>
        ⟨r.2, s.threads.set i { t with pc := r.1 }⟩
  | .tick => some { s with manager := { s.manager with clock := s.manager.clock + 1 } }

/-- The reservations of a parent that a call holds. -/
def Pc.reserved (p : ℕ) : Pc K → ℕ
  | .dialRelay _ q | .rollback _ q | .open_ q => if q = p then 1 else 0
  | _ => 0

/-- A dial that has looked a parent up or been given it, but not reserved it yet. -/
def Pc.Unreserved (p : ℕ) : Pc K → Prop
  | .healthy _ q | .given _ q => q = p
  | _ => False

def Pc.Reaches (p : ℕ) (pc : Pc K) : Prop := pc.Unreserved p ∨ 0 < pc.reserved p

/-- The parents a pass of the reaper has selected and not removed yet. -/
def Pc.toReap : Pc K → List ℕ
  | .scan _ _ toReap | .reap toReap => toReap
  | _ => []

/-- The parents a call has taken out of the map, or found there no more, and is to remove. -/
def Pc.taken : Pc K → List ℕ
  | .dropped _ p _ => [p]
  | .scan _ _ todo | .reap todo | .closing todo _ => todo
  | _ => []

variable {idle j p : ℕ} {cancelled ok : Bool} {m m' : Manager K} {pc pc' : Pc K}

inductive Turn (idle j : ℕ) (m : Manager K) : Pc K → Pc K → Manager K → Prop where

  | found {key : K} {p : ℕ} (hp : m.parents.lookup key = some p) :
      Turn idle j m (.lookup key) (.healthy key p) m

  | missing {key : K} : Turn idle j m (.lookup key) (.launch key) m

  | healthy {key : K} {p : ℕ} : Turn idle j m (.healthy key p) (.given key p) m

  | dead {key : K} {p : ℕ} : Turn idle j m (.healthy key p) (.drop key p true) m

  | drops {key : K} {p : ℕ} {respawn : Bool} (hp : m.parents.lookup key = some p) :
      Turn idle j m (.drop key p respawn) (.dropped key p respawn)
        { m with parents := m.parents.erase key }

  | keeps {key : K} {p : ℕ} {respawn : Bool} :
      Turn idle j m (.drop key p respawn) (.dropped key p respawn) m

  | respawns {key : K} {p : ℕ} (ok : Bool) :
      Turn idle j m (.dropped key p true) (.launch key) (m.removal p ok)

  | fails {key : K} {p : ℕ} (ok : Bool) :
      Turn idle j m (.dropped key p false) .finished (m.removal p ok)

  | raced {key : K} {p : ℕ} (hp : m.parents.lookup key = some p) :
      Turn idle j m (.launch key) (.given key p) m

  | launches {key : K} (hkey : m.parents.lookup key = none) :
      Turn idle j m (.launch key) (.given key m.launched.length) (m.add key)

  | launchFails {key : K} : Turn idle j m (.launch key) .finished m

  | reserves {key : K} {p : ℕ} : Turn idle j m (.given key p) (.dialRelay key p) (m.use p 1)

  | dials {key : K} {p : ℕ} : Turn idle j m (.dialRelay key p) (.open_ p) m

  | dialFails {key : K} {p : ℕ} : Turn idle j m (.dialRelay key p) (.rollback key p) m

  | rollsBack {key : K} {p : ℕ} :
      Turn idle j m (.rollback key p) (.drop key p false) (m.use p (-1))

  | releases {p : ℕ} : Turn idle j m (.open_ p) .finished (m.use p (-1))

  | reads : Turn idle j m .now (.lock m.clock) m

  | locks {now : ℕ} :
      Turn idle j m (.lock now) (.scan now m.parents.keys []) { m with locked := true }

  | selects {now p : ℕ} {keys : List K} {toReap : List ℕ} {key : K} (hkey : keys[j]? = some key)
      (hp : m.parents.lookup key = some p) (hidle : m.idleEnough idle now p = true) :
      Turn idle j m (.scan now keys toReap) (.scan now (keys.eraseIdx j) (toReap ++ [p]))
        { m with parents := m.parents.erase key }

  | passes {now : ℕ} {keys : List K} {toReap : List ℕ} :
      Turn idle j m (.scan now keys toReap) (.scan now (keys.eraseIdx j) toReap) m

  | unlocks {now : ℕ} {toReap : List ℕ} :
      Turn idle j m (.scan now [] toReap) (.reap toReap) { m with locked := false }

  | reaps {p : ℕ} {toReap : List ℕ} (ok : Bool) :
      Turn idle j m (.reap (p :: toReap)) (.reap toReap) (m.removal p ok)

  | reaped : Turn idle j m (.reap []) .finished m

  | closes : Turn idle j m .close
      (.closing (m.parents.entries.map Sigma.snd) m.launched.length) { m with parents := ∅ }

  | removes {q count : ℕ} {todo : List ℕ} (ok : Bool) (hq : todo[j]? = some q) :
      Turn idle j m (.closing todo count) (.closing (todo.eraseIdx j) count) (m.removal q ok)

  | closed {count : ℕ} : Turn idle j m (.closing [] count) (.closed count) m

theorem next_turn (h : m.next idle cancelled ok j pc = some (pc', m')) :
    Turn idle j m pc pc' m' := by
  cases pc with
  | lookup key =>
    obtain ⟨-, h⟩ := underLock_eq_some.mp h
    split at h <;> cases h
    · next p hp => exact .found hp
    · exact .missing
  | healthy key p =>
    cases ok <;> cases h
    · exact .dead
    · exact .healthy
  | drop key p respawn =>
    obtain ⟨-, h⟩ := underLock_eq_some.mp h
    cases h
    unfold Manager.drop
    split
    · next hp => exact .drops hp
    · exact .keeps
  | dropped key p respawn =>
    cases respawn <;> cases h
    · exact .fails _
    · exact .respawns _
  | launch key =>
    obtain ⟨-, h⟩ := underLock_eq_some.mp h
    split at h
    · next p hp =>
      cases h
      exact .raced hp
    · next hkey =>
      cases ok <;> cases h
      · exact .launchFails
      · exact .launches hkey
  | given key p =>
    cases h
    exact .reserves
  | dialRelay key p =>
    cases ok <;> cases h
    · exact .dialFails
    · exact .dials
  | rollback key p =>
    cases h
    exact .rollsBack
  | open_ p =>
    cases h
    exact .releases
  | finished | closed => cases h
  | now =>
    cases h
    exact .reads
  | lock now =>
    obtain ⟨-, h⟩ := underLock_eq_some.mp h
    cases h
    exact .locks
  | scan now keys toReap =>
    cases keys with
    | nil =>
      cases h
      exact .unlocks
    | cons key keys =>
      obtain ⟨k, hk, h⟩ := Option.map_eq_some_iff.mp h
      unfold Manager.visit at h
      split at h
      · next p hp =>
        split at h <;> cases h
        · next hidle => exact .selects hk hp hidle
        · exact .passes
      · cases h
        exact .passes
  | reap toReap =>
    cases toReap with
    | nil =>
      cases h
      exact .reaped
    | cons p toReap =>
      cases h
      exact .reaps ok
  | close =>
    obtain ⟨-, h⟩ := underLock_eq_some.mp h
    cases h
    exact .closes
  | closing todo count =>
    cases todo with
    | nil =>
      cases h
      exact .closed
    | cons p todo =>
      obtain ⟨q, hq, h⟩ := Option.map_eq_some_iff.mp h
      cases h
      exact .removes ok hq

structure Moves (m : Manager K) (pc pc' : Pc K) (m' : Manager K) : Prop where
  grows : m.launched.length ≤ m'.launched.length
  inflight : ∀ p x', m'.launched[p]? = some x' →
    (∃ x, m.launched[p]? = some x ∧ x'.key = x.key ∧
      x'.inflight + (pc.reserved p : ℤ) = x.inflight + (pc'.reserved p : ℤ)) ∨
    (p = m.launched.length ∧ x'.inflight = 0 ∧ pc'.reserved p = 0)
  lookup : ∀ k p, m'.parents.lookup k = some p → m.parents.lookup k = some p ∨
    p = m.launched.length ∧ m'.launched[p]?.map PoolParent.key = some k
  reaches : ∀ p, pc'.Reaches p → pc.Reaches p ∨ (∃ k, m.parents.lookup k = some p) ∨
    p = m.launched.length ∧ p < m'.launched.length

theorem Moves.key {k : K} (h : Moves m pc pc' m')
    (hp : m.launched[p]?.map PoolParent.key = some k) :
    m'.launched[p]?.map PoolParent.key = some k := by
  obtain ⟨x, hx, rfl⟩ := Option.map_eq_some_iff.mp hp
  have hlt : p < m.launched.length := (List.getElem?_eq_some_iff.mp hx).1
  have hx' := List.getElem?_eq_getElem (Nat.lt_of_lt_of_le hlt h.grows)
  rcases h.inflight p _ hx' with ⟨y, hy, hkey, -⟩ | ⟨rfl, -⟩
  · obtain rfl := Option.some.inj (hx.symm.trans hy)
    rw [hx', Option.map_some, hkey]
  · exact absurd hlt (Nat.lt_irrefl _)

theorem erase_lookup {parents : AList fun _ : K => ℕ} {k key : K}
    (h : (parents.erase key).lookup k = some p) : k ≠ key ∧ parents.lookup k = some p := by
  by_cases hk : k = key
  · rw [hk, AList.lookup_erase] at h
    cases h
  · rw [AList.lookup_erase_ne hk] at h
    exact ⟨hk, h⟩

theorem Moves.of_launched (hl : m'.launched = m.launched)
    (hp : ∀ k p, m'.parents.lookup k = some p → m.parents.lookup k = some p)
    (hr : ∀ p, pc'.reserved p = pc.reserved p)
    (hu : ∀ p, pc'.Unreserved p → pc.Unreserved p ∨ ∃ k, m.parents.lookup k = some p) :
    Moves m pc pc' m' where
  grows := by rw [hl]
  inflight p x' hx := .inl ⟨x', hl ▸ hx, rfl, by rw [hr]⟩
  lookup k p h := .inl (hp k p h)
  reaches p h := by
    rcases h with h | h
    · exact (hu p h).elim (fun h => .inl (.inl h)) fun h => .inr (.inl h)
    · exact .inl (.inr (hr p ▸ h))

theorem Moves.of_parents (hl : m'.launched = m.launched) (hp : m'.parents = m.parents)
    (hr : ∀ p, pc'.reserved p = pc.reserved p)
    (hu : ∀ p, pc'.Unreserved p → pc.Unreserved p ∨ ∃ k, m.parents.lookup k = some p) :
    Moves m pc pc' m' :=
  .of_launched hl (fun _ _ h => hp ▸ h) hr hu

theorem Moves.of_use {q : ℕ} {d : ℤ}
    (hr : ∀ p, (pc'.reserved p : ℤ) = pc.reserved p + if q = p then d else 0)
    (hu : ∀ p, pc'.Reaches p → pc.Reaches p) : Moves m pc pc' (m.use q d) where
  grows := by simp [Manager.use]
  inflight p x' hx := by
    rw [Manager.use, List.getElem?_modify] at hx
    obtain ⟨x, hq, rfl⟩ := Option.map_eq_some_iff.mp hx
    refine .inl ⟨x, hq, ?_, ?_⟩
    · split <;> rfl
    · rw [hr]
      split
      · rw [Int.add_assoc, Int.add_comm d]
      · rw [Int.add_zero]
  lookup k p h := .inl h
  reaches p h := .inl (hu p h)

theorem Moves.of_add {key : K} (hr : ∀ p, pc.reserved p = 0) :
    Moves m pc (.given key m.launched.length) (m.add key) where
  grows := by simp [Manager.add]
  inflight p x' hx := by
    rw [Manager.add] at hx
    dsimp only at hx
    by_cases hp : p < m.launched.length
    · rw [List.getElem?_append_left hp] at hx
      exact .inl ⟨x', hx, rfl, by rw [hr]; rfl⟩
    · rw [List.getElem?_append_right (Nat.le_of_not_lt hp), List.getElem?_singleton] at hx
      split at hx
      · cases hx
        exact .inr ⟨by omega, rfl, rfl⟩
      · cases hx
  lookup k p h := by
    rw [Manager.add] at h
    dsimp only at h
    by_cases hk : k = key
    · rw [hk, AList.lookup_insert] at h
      obtain rfl := Option.some.inj h
      exact .inr ⟨rfl, by simp [Manager.add, hk]⟩
    · rw [AList.lookup_insert_ne hk] at h
      exact .inl h
  reaches p h := by
    rcases h with h | h
    · exact .inr (.inr ⟨h.symm, by rw [← h]; simp [Manager.add]⟩)
    · cases h

theorem next_moves (h : m.next idle cancelled ok j pc = some (pc', m')) : Moves m pc pc' m' := by
  cases next_turn h with
  | found hp | raced hp =>
    exact .of_parents rfl rfl (fun _ => rfl) fun q hq => .inr ⟨_, hq ▸ hp⟩
  | healthy => exact .of_parents rfl rfl (fun _ => rfl) fun q hq => .inl hq
  | drops | selects =>
    exact .of_launched rfl (fun k q hq => (erase_lookup hq).2) (fun _ => rfl) nofun
  | fails | respawns | reaps | removes =>
    exact .of_parents removal_launched removal_parents (fun _ => rfl) nofun
  | launches => exact .of_add fun _ => rfl
  | reserves =>
    refine .of_use (fun q => ?_) fun q hq => ?_
    · simp only [Pc.reserved]
      split <;> rfl
    · rcases hq with hq | hq
      · cases hq
      · simp only [Pc.reserved] at hq
        split at hq
        · next h => exact .inl h
        · cases hq
  | rollsBack | releases =>
    refine .of_use (fun q => ?_) nofun
    simp only [Pc.reserved]
    split <;> rfl
  | closes =>
    refine .of_launched rfl (fun k p hp => ?_) (fun _ => rfl) nofun
    rw [AList.lookup_empty] at hp
    cases hp
  | _ => exact .of_parents rfl rfl (fun _ => rfl) nofun

end Step

end CodeRunner.Pool
