import CodeRunner.Pool.Manager

/-! # What becomes of the containers

Deleting a parent from the map and removing its container are two steps, and the second may
fail for good. Every launched container is still in the map, is about to be removed, has been
removed, or is one that a removal failed for; the last is a leak.
-/

namespace CodeRunner.Pool

open Transition

variable {K : Type*} [DecidableEq K]

/-- The number of parents launched before `close` took the map. -/
def Pc.emptied : Pc K → Option ℕ
  | .closing _ count | .closed count => some count
  | _ => none

/-- The call has returned; an open dial has, before its release. -/
def Pc.Returned : Pc K → Prop
  | .open_ _ | .finished | .closed _ => True
  | _ => False

instance : ∀ pc : Pc K, Decidable pc.Returned
  | .open_ _ | .finished | .closed _ => isTrue trivial
  | .lookup _ | .healthy _ _ | .drop _ _ _ | .dropped _ _ _ | .launch _ | .given _ _
  | .dialRelay _ _ | .rollback _ _ | .now | .lock _ | .scan _ _ _ | .reap _ | .close
  | .closing _ _ => isFalse id

def Manager.Holds (m : Manager K) (p : ℕ) : Prop := ∃ k, m.parents.lookup k = some p

/-- `removeParent` of the container has returned. -/
def Manager.Disposed (m : Manager K) (p : ℕ) : Prop := p ∈ m.removed ∨ p ∈ m.failed

variable {idle j p : ℕ} {cancelled ok : Bool} {m m' : Manager K} {pc pc' : Pc K}

/-- A step moves a container only from the map to the calls that are to remove it, and from
there to what has been removed or failed to be. -/
structure Disposes (m : Manager K) (pc pc' : Pc K) (m' : Manager K) : Prop where
  disposed : ∀ p, m.Disposed p → m'.Disposed p
  taken : ∀ p ∈ pc.taken, p ∈ pc'.taken ∨ m'.Disposed p
  holds : ∀ p, m.Holds p → m'.Holds p ∨ p ∈ pc'.taken
  launched : ∀ p < m'.launched.length, p < m.launched.length ∨ m'.Holds p
  emptied : ∀ n ∈ pc'.emptied, n ∈ pc.emptied ∨
    n = m.launched.length ∧ m'.launched = m.launched ∧ ∀ p, ¬ m'.Holds p

omit [DecidableEq K] in
theorem disposed_removal {q : ℕ} :
    (m.removal q ok).Disposed p ↔ m.Disposed p ∨ p = q := by
  cases ok <;> simp [Manager.removal, Manager.Disposed, or_comm, or_assoc, or_left_comm]

theorem Disposes.of_eq (hp : m'.parents = m.parents) (hl : m'.launched.length = m.launched.length)
    (hr : m'.removed = m.removed) (hf : m'.failed = m.failed)
    (ht : ∀ p ∈ pc.taken, p ∈ pc'.taken) (he : pc'.emptied = pc.emptied) :
    Disposes m pc pc' m' where
  disposed p h := by rwa [Manager.Disposed, hr, hf]
  taken p h := .inl (ht p h)
  holds p h := .inl (by rwa [Manager.Holds, hp])
  launched p h := .inl (hl ▸ h)
  emptied n h := .inl (he ▸ h)

/-- A call of `removeParent`. -/
theorem Disposes.of_removal {q : ℕ} (ht : ∀ p ∈ pc.taken, p ∈ pc'.taken ∨ p = q)
    (he : pc'.emptied = pc.emptied) : Disposes m pc pc' (m.removal q ok) where
  disposed p h := disposed_removal.mpr (.inl h)
  taken p h := (ht p h).imp_right fun h => disposed_removal.mpr (.inr h)
  holds p h := .inl (by rwa [Manager.Holds, removal_parents])
  launched p h := .inl (by rwa [removal_launched] at h)
  emptied n h := .inl (he ▸ h)

theorem Disposes.of_erase {key : K} {q : ℕ} (hq : m.parents.lookup key = some q)
    (ht : ∀ p ∈ pc.taken, p ∈ pc'.taken) (hmem : q ∈ pc'.taken)
    (he : pc'.emptied = pc.emptied) :
    Disposes m pc pc' { m with parents := m.parents.erase key } where
  disposed p h := h
  taken p h := .inl (ht p h)
  holds p h := by
    obtain ⟨k, hk⟩ := h
    by_cases heq : k = key
    · obtain rfl : p = q := Option.some.inj (hk.symm.trans (heq ▸ hq))
      exact .inr hmem
    · exact .inl ⟨k, by rwa [AList.lookup_erase_ne heq]⟩
  launched p h := .inl h
  emptied n h := .inl (he ▸ h)

theorem Disposes.of_add {key : K} (hkey : m.parents.lookup key = none) (ht : pc.taken = [])
    (he : pc'.emptied = none) : Disposes m pc pc' (m.add key) where
  disposed p h := h
  taken p h := by rw [ht] at h; cases h
  holds p h := by
    obtain ⟨k, hk⟩ := h
    have hne : k ≠ key := by
      rintro rfl
      rw [hkey] at hk
      cases hk
    exact .inl ⟨k, by rwa [Manager.add, AList.lookup_insert_ne hne]⟩
  launched p h := by
    rw [Manager.add, List.length_append, List.length_singleton] at h
    by_cases hp : p < m.launched.length
    · exact .inl hp
    · obtain rfl : p = m.launched.length := by omega
      exact .inr ⟨key, by rw [Manager.add, AList.lookup_insert]⟩
  emptied n h := by rw [he] at h; cases h

theorem Disposes.of_close :
    Disposes m .close (.closing (m.parents.entries.map Sigma.snd) m.launched.length)
      { m with parents := ∅ } where
  disposed p h := h
  taken p h := by cases h
  holds p h := by
    obtain ⟨k, hk⟩ := h
    exact .inr (List.mem_map.mpr ⟨⟨k, p⟩, AList.mem_lookup_iff.mp hk, rfl⟩)
  launched p h := .inl h
  emptied n h := by
    cases h
    refine .inr ⟨rfl, rfl, fun p hp => ?_⟩
    obtain ⟨k, hk⟩ := hp
    rw [AList.lookup_empty] at hk
    cases hk

theorem mem_eraseIdx_or {α : Type*} {l : List α} {a b : α} (hb : l[j]? = some b) (ha : a ∈ l) :
    a ∈ l.eraseIdx j ∨ a = b := by
  induction l generalizing j with
  | nil => cases ha
  | cons c l ih =>
    cases j with
    | zero =>
      obtain rfl := Option.some.inj hb
      exact (List.mem_cons.mp ha).symm
    | succ j =>
      rcases List.mem_cons.mp ha with rfl | ha
      · exact .inl List.mem_cons_self
      · exact (ih hb ha).imp_left (List.mem_cons_of_mem c)

theorem next_disposes (h : m.next idle cancelled ok j pc = some (pc', m')) :
    Disposes m pc pc' m' := by
  cases next_turn h with
  | drops hp => exact .of_erase hp nofun List.mem_cons_self rfl
  | fails | respawns => exact .of_removal (fun q hq => .inr (List.mem_singleton.mp hq)) rfl
  | launches hkey => exact .of_add hkey rfl rfl
  | reserves | rollsBack | releases =>
    exact .of_eq rfl (List.length_modify _ _ _) rfl rfl nofun rfl
  | selects hkey hp =>
    exact .of_erase hp (fun p hp => List.mem_append_left _ hp)
      (List.mem_append_right _ List.mem_cons_self) rfl
  | passes | unlocks => exact .of_eq rfl rfl rfl rfl (fun p hp => hp) rfl
  | reaps => exact .of_removal (fun q hq => (List.mem_cons.mp hq).symm) rfl
  | closes => exact .of_close
  | removes ok hq => exact .of_removal (fun r hr => mem_eraseIdx_or hq hr) rfl
  | _ => exact .of_eq rfl rfl rfl rfl nofun rfl

/-- Some call is still to remove the container. -/
def State.Taken (s : State K) (p : ℕ) : Prop := ∃ t ∈ s.threads, p ∈ t.pc.taken

structure Accounted (s : State K) : Prop where
  launched : ∀ p < s.manager.launched.length,
    s.manager.Holds p ∨ s.Taken p ∨ s.manager.Disposed p
  emptied : ∀ t ∈ s.threads, ∀ n ∈ t.pc.emptied,
    n ≤ s.manager.launched.length ∧ ∀ p < n, ¬ s.manager.Holds p

variable {s s' : State K} {a : Act K}

theorem Accounted.start : Accounted (State.start K) where
  launched p h := by cases h
  emptied t h := by cases h

theorem Accounted.call (h : Accounted s) (he : pc.emptied = none) : Accounted (s.call pc) where
  launched p hp := by
    rcases h.launched p hp with hp | ⟨t, ht, hp⟩ | hp
    · exact .inl hp
    · exact .inr (.inl ⟨t, List.mem_append_left _ ht, hp⟩)
    · exact .inr (.inr hp)
  emptied t ht := by
    rcases List.mem_append.mp ht with ht | ht
    · exact h.emptied t ht
    · obtain rfl := List.mem_singleton.mp ht
      rw [he]
      nofun

theorem mem_set_or {α : Type*} {l : List α} {i : ℕ} {a b c : α} (hi : l[i]? = some a)
    (hc : c ∈ l) : c ∈ l.set i b ∨ c = a := by
  obtain ⟨k, hk⟩ := List.mem_iff_getElem?.mp hc
  by_cases h : i = k
  · exact .inr (Option.some.inj (hk.symm.trans (h ▸ hi)))
  · exact .inl (List.mem_of_getElem? ((List.getElem?_set_ne h).trans hk))

theorem Accounted.set {i : ℕ} {t t' : Thread K} (h : Accounted s) (hi : s.threads[i]? = some t)
    (hmoves : Moves s.manager t.pc t'.pc m') (hd : Disposes s.manager t.pc t'.pc m') :
    Accounted ⟨m', s.threads.set i t'⟩ where
  launched p hp := by
    have ht' : t' ∈ s.threads.set i t' :=
      List.mem_set (List.getElem?_eq_some_iff.mp hi).1 t'
    rcases hd.launched p hp with hp | hp
    · rcases h.launched p hp with hp | ⟨u, hu, hp⟩ | hp
      · rcases hd.holds p hp with hp | hp
        · exact .inl hp
        · exact .inr (.inl ⟨t', ht', hp⟩)
      · rcases mem_set_or hi hu with hu | rfl
        · exact .inr (.inl ⟨u, hu, hp⟩)
        · rcases hd.taken p hp with hp | hp
          · exact .inr (.inl ⟨t', ht', hp⟩)
          · exact .inr (.inr hp)
      · exact .inr (.inr (hd.disposed p hp))
    · exact .inl hp
  emptied u hu n hn := by
    have hkeep : (n ≤ s.manager.launched.length ∧ ∀ p < n, ¬ s.manager.Holds p) →
        n ≤ m'.launched.length ∧ ∀ p < n, ¬ m'.Holds p := by
      rintro ⟨hle, hnot⟩
      refine ⟨Nat.le_trans hle hmoves.grows, fun p hp hholds => ?_⟩
      obtain ⟨k, hk⟩ := hholds
      rcases hmoves.lookup k p hk with hk | ⟨rfl, -⟩
      · exact hnot p hp ⟨k, hk⟩
      · exact Nat.not_lt.mpr hle hp
    rcases List.mem_or_eq_of_mem_set hu with hu | rfl
    · exact hkeep (h.emptied u hu n hn)
    · rcases hd.emptied n hn with hn | ⟨rfl, hl, hnone⟩
      · exact hkeep (h.emptied t (List.mem_of_getElem? hi) n hn)
      · exact ⟨Nat.le_of_eq (congrArg List.length hl).symm, fun p _ => hnone p⟩

theorem Accounted.step (h : Accounted s) (hs : s.step idle a = some s') : Accounted s' := by
  cases a with
  | dial key =>
    cases hs
    exact h.call rfl
  | reapIdle =>
    simp only [State.step] at hs
    split at hs <;> cases hs
    exact h.call rfl
  | close =>
    cases hs
    exact h.call rfl
  | cancel i =>
    obtain ⟨t, hi, rfl⟩ := Option.map_eq_some_iff.mp hs
    exact h.set hi (.of_parents rfl rfl (fun _ => rfl) fun q hq => .inl hq)
      (.of_eq rfl rfl rfl rfl (fun p hp => hp) rfl)
  | go i ok j =>
    obtain ⟨t, hi, hs⟩ := Option.bind_eq_some_iff.mp hs
    obtain ⟨⟨pc', m'⟩, hn, rfl⟩ := Option.map_eq_some_iff.mp hs
    exact h.set hi (next_moves hn) (next_disposes hn)
  | tick =>
    cases hs
    exact ⟨h.launched, h.emptied⟩

omit [DecidableEq K] in
theorem taken_of_returned (h : pc.Returned) : pc.taken = [] := by
  cases pc with
  | open_ p => rfl
  | finished => rfl
  | closed count => rfl
  | _ => cases h

/-- Every launched container is in the map, to be removed by a call under way, removed, or one
that a removal failed for. When `close` and all other calls have returned, those launched before
`close` took the map are removed or one that a removal failed for. -/
theorem containers_accounted (h : Reachable (State.step idle) (State.start K) s) :
    (∀ p < s.manager.launched.length,
      s.manager.Holds p ∨ s.Taken p ∨ s.manager.Disposed p) ∧
    ∀ t ∈ s.threads, ∀ n, t.pc = .closed n → (∀ u ∈ s.threads, u.pc.Returned) →
      ∀ p < n, s.manager.Disposed p := by
  have hinv : Accounted s := h.invariant (fun _ _ _ => Accounted.step) .start
  refine ⟨hinv.launched, fun t ht n hpc hall p hp => ?_⟩
  obtain ⟨hle, hnone⟩ := hinv.emptied t ht n (by rw [hpc]; rfl)
  rcases hinv.launched p (Nat.lt_of_lt_of_le hp hle) with hholds | ⟨u, hu, hmem⟩ | hdisposed
  · exact absurd hholds (hnone p hp)
  · rw [taken_of_returned (hall u hu)] at hmem
    cases hmem
  · exact hdisposed

def Pc.removing (j : ℕ) : Pc K → Option ℕ
  | .dropped _ p _ => some p
  | .reap toReap => toReap.head?
  | .closing todo _ => todo[j]?
  | _ => none

/-- The answer to `removeParent`, which `dropParent` calls with the caller's context. -/
def Pc.answer (cancelled ok : Bool) : Pc K → Bool
  | .dropped _ _ _ => ok && !cancelled
  | _ => ok

/-- A call of `launchParent` that returns a container. -/
def Manager.Launches (m : Manager K) (ok : Bool) : Pc K → Prop
  | .launch key => ok = true ∧ m.parents.lookup key = none
  | _ => False

instance : ∀ pc : Pc K, Decidable (m.Launches ok pc)
  | .launch _ => inferInstanceAs (Decidable (_ ∧ _))
  | .lookup _ | .healthy _ _ | .drop _ _ _ | .dropped _ _ _ | .given _ _ | .dialRelay _ _
  | .rollback _ _ | .open_ _ | .finished | .now | .lock _ | .scan _ _ _ | .reap _ | .close
  | .closing _ _ | .closed _ => isFalse id

/-- A removal does not fail, unless the container has been removed before, and once `close` has
taken the map no parent is launched. -/
def Careful (s : State K) : Act K → Prop
  | .go i ok j => ∀ t ∈ s.threads[i]?,
      (∀ p ∈ t.pc.removing j, t.pc.answer t.cancelled ok = true ∨ p ∈ s.manager.removed) ∧
        (s.manager.Launches ok t.pc → ∀ u ∈ s.threads, u.pc.emptied = none)
  | _ => True

instance (s : State K) : ∀ a, Decidable (Careful s a)
  | .go i _ _ => inferInstanceAs (Decidable (∀ t ∈ s.threads[i]?, _ ∧ _))
  | .dial _ | .reapIdle | .close | .cancel _ | .tick => isTrue trivial

omit [DecidableEq K] in
theorem mem_failed_removal {q : ℕ} :
    p ∈ (m.removal q ok).failed ↔ p ∈ m.failed ∨ ok = false ∧ p = q := by
  cases ok <;> simp [Manager.removal, or_comm]

omit [DecidableEq K] in
theorem mem_removed_removal {q : ℕ} (h : p ∈ m.removed) : p ∈ (m.removal q ok).removed := by
  cases ok
  · exact h
  · exact List.mem_cons_of_mem q h

theorem next_failed (h : m.next idle cancelled ok j pc = some (pc', m')) (hp : p ∈ m'.failed) :
    p ∈ m.failed ∨ p ∈ pc.removing j ∧ pc.answer cancelled ok = false := by
  cases pc with
  | dropped key q respawn =>
    cases h
    refine (mem_failed_removal.mp hp).imp_right fun hq => ?_
    exact ⟨congrArg some hq.2.symm, hq.1⟩
  | reap toReap =>
    cases toReap with
    | nil =>
      cases h
      exact .inl hp
    | cons q toReap =>
      cases h
      refine (mem_failed_removal.mp hp).imp_right fun hq => ?_
      exact ⟨congrArg some hq.2.symm, hq.1⟩
  | closing todo count =>
    cases todo with
    | nil =>
      cases h
      exact .inl hp
    | cons q todo =>
      obtain ⟨r, hr, h⟩ := Option.map_eq_some_iff.mp h
      cases h
      refine (mem_failed_removal.mp hp).imp_right fun hq => ?_
      exact ⟨hr.trans (congrArg some hq.2.symm), hq.1⟩
  | _ => cases next_turn h <;> exact .inl hp

theorem next_removed (h : m.next idle cancelled ok j pc = some (pc', m')) (hp : p ∈ m.removed) :
    p ∈ m'.removed := by
  cases next_turn h with
  | fails | respawns | reaps | removes => exact mem_removed_removal hp
  | _ => exact hp

/-- A parent is launched by `launchParent` only. -/
theorem next_launched (h : m.next idle cancelled ok j pc = some (pc', m')) :
    m'.launched.length = m.launched.length ∨ m.Launches ok pc := by
  cases next_turn h with
  | launches hkey =>
    right
    obtain ⟨-, h⟩ := underLock_eq_some.mp h
    rw [hkey] at h
    cases ok
    · cases h
    · exact ⟨rfl, hkey⟩
  | reserves | rollsBack | releases => exact .inl (List.length_modify _ _ _)
  | fails | respawns | reaps | removes => exact .inl (congrArg List.length removal_launched)
  | _ => exact .inl rfl

/-- Every removal that failed was of a container that is gone, and no parent has been launched
since `close` took the map. -/
structure Clean (s : State K) : Prop extends Accounted s where
  failed : ∀ p ∈ s.manager.failed, p ∈ s.manager.removed
  latest : ∀ t ∈ s.threads, ∀ n ∈ t.pc.emptied, n = s.manager.launched.length

theorem Clean.start : Clean (State.start K) where
  toAccounted := .start
  failed p h := by cases h
  latest t h := by cases h

theorem Clean.call (h : Clean s) (he : pc.emptied = none) : Clean (s.call pc) where
  toAccounted := h.toAccounted.call he
  failed := h.failed
  latest t ht := by
    rcases List.mem_append.mp ht with ht | ht
    · exact h.latest t ht
    · obtain rfl := List.mem_singleton.mp ht
      rw [he]
      nofun

theorem Clean.step (h : Clean s) (hc : Careful s a) (hs : s.step idle a = some s') :
    Clean s' := by
  cases a with
  | dial key =>
    cases hs
    exact h.call rfl
  | reapIdle =>
    simp only [State.step] at hs
    split at hs <;> cases hs
    exact h.call rfl
  | close =>
    cases hs
    exact h.call rfl
  | cancel i =>
    have hacc := h.toAccounted.step hs
    obtain ⟨t, hi, rfl⟩ := Option.map_eq_some_iff.mp hs
    refine ⟨hacc, h.failed, fun u hu => ?_⟩
    rcases List.mem_or_eq_of_mem_set hu with hu | rfl
    · exact h.latest u hu
    · exact h.latest t (List.mem_of_getElem? hi)
  | go i ok j =>
    have hacc := h.toAccounted.step hs
    obtain ⟨t, hi, hs⟩ := Option.bind_eq_some_iff.mp hs
    obtain ⟨⟨pc', m'⟩, hn, rfl⟩ := Option.map_eq_some_iff.mp hs
    obtain ⟨hremoves, hlaunches⟩ := hc t hi
    refine ⟨hacc, fun p hp => ?_, fun u hu n hemptied => ?_⟩
    · rcases next_failed hn hp with hp | ⟨hremoving, hanswer⟩
      · exact next_removed hn (h.failed p hp)
      · rcases hremoves p hremoving with hok | hgone
        · exact absurd (hanswer.symm.trans hok) Bool.false_ne_true
        · exact next_removed hn hgone
    · have hkeep : ∀ v ∈ s.threads, n ∈ v.pc.emptied → n = m'.launched.length := by
        intro v hv hn'
        rcases next_launched hn with hlen | hl
        · exact (h.latest v hv n hn').trans hlen.symm
        · rw [hlaunches hl v hv] at hn'
          cases hn'
      rcases List.mem_or_eq_of_mem_set hu with hu | rfl
      · exact hkeep u hu hemptied
      · rcases (next_disposes hn).emptied n hemptied with hn' | ⟨rfl, hl, -⟩
        · exact hkeep t (List.mem_of_getElem? hi) hn'
        · exact (congrArg List.length hl).symm
  | tick =>
    cases hs
    exact ⟨⟨h.launched, h.emptied⟩, h.failed, h.latest⟩

/-- The states in which no container has leaked. -/
def State.Kept (s : State K) : Prop :=
  (∀ p < s.manager.launched.length,
    (∃ e ∈ s.manager.parents.entries, e.2 = p) ∨ p ∈ s.manager.removed) ∧
  ((∃ t ∈ s.threads, t.pc.emptied.isSome ∧ t.pc.Returned) → (∀ u ∈ s.threads, u.pc.Returned) →
    ∀ p < s.manager.launched.length, p ∈ s.manager.removed)

instance (s : State K) : Decidable s.Kept := inferInstanceAs (Decidable (_ ∧ (_ → _ → _)))

/-- No call is between taking a container out of the map and removing it. -/
def State.Settled (s : State K) : Prop := ∀ t ∈ s.threads, ∀ p ∈ t.pc.taken, p ∈ s.manager.removed

instance (s : State K) : Decidable s.Settled := inferInstanceAs (Decidable (∀ t ∈ _, ∀ p ∈ _, _))

omit [DecidableEq K] in
theorem settled_of_returned (h : ∀ u ∈ s.threads, u.pc.Returned) : s.Settled := by
  intro t ht p hp
  rw [taken_of_returned (h t ht)] at hp
  cases hp

theorem Clean.accounted (h : Clean s) {p : ℕ} (hp : p < s.manager.launched.length) :
    s.manager.Holds p ∨ s.Taken p ∨ p ∈ s.manager.removed := by
  rcases h.launched p hp with hp | hp | hp | hp
  · exact .inl hp
  · exact .inr (.inl hp)
  · exact .inr (.inr hp)
  · exact .inr (.inr (h.failed p hp))

theorem Clean.kept (h : Clean s) (hs : s.Settled) : s.Kept := by
  have hall : ∀ p < s.manager.launched.length, s.manager.Holds p ∨ p ∈ s.manager.removed := by
    intro p hp
    rcases h.accounted hp with hp | ⟨t, ht, hp⟩ | hp
    · exact .inl hp
    · exact .inr (hs t ht p hp)
    · exact .inr hp
  constructor
  · intro p hp
    refine (hall p hp).imp_left fun hholds => ?_
    obtain ⟨k, hk⟩ := hholds
    exact ⟨⟨k, p⟩, AList.mem_lookup_iff.mp hk, rfl⟩
  · rintro ⟨t, ht, hsome, -⟩ - p hp
    obtain ⟨n, hn⟩ := Option.isSome_iff_exists.mp hsome
    have hnone := (h.emptied t ht n hn).2
    exact (hall p hp).resolve_left (hnone p (h.latest t ht n hn ▸ hp))

/-- In every careful run each launched container is at all times in the map, about to be removed
by a call under way, or removed; and none has leaked whenever no call is between taking one out
of the map and removing it, in particular when all calls have returned. -/
theorem kept_of_careful {acts : List (Act K)}
    (hc : EveryStep (State.step idle) Careful (State.start K) acts) :
    Always (State.step idle)
      (fun s => (∀ p < s.manager.launched.length,
          s.manager.Holds p ∨ s.Taken p ∨ p ∈ s.manager.removed) ∧
        (s.Settled → s.Kept) ∧ ((∀ u ∈ s.threads, u.pc.Returned) → s.Kept))
      (State.start K) acts := by
  have hall : Always (State.step idle) Clean (State.start K) acts :=
    .of_guarded (fun _ _ _ => Clean.step) .start hc
  refine hall.mono fun s h => ⟨fun p => h.accounted, h.kept, fun hreturned => ?_⟩
  exact h.kept (settled_of_returned hreturned)

/-- A job finds the parent of another dead, and its own is still in use when the pool is closed. -/
def careRun : List (Act String) :=
  [.dial "python:3.12", .go 0 true 0, .go 0 true 0, .go 0 true 0, .go 0 true 0, .go 0 true 0,
    .dial "python:3.12", .go 1 true 0, .go 1 false 0, .go 1 true 0, .go 1 true 0, .go 1 true 0,
    .go 1 true 0, .go 1 true 0, .close, .go 2 true 0, .go 2 true 0, .go 2 true 0]

theorem careRun_kept :
    ∃ s, run (State.step 1) (State.start String) careRun = some s ∧ s.manager.launched.length = 2 ∧
      ∀ p < 2, p ∈ s.manager.removed := by
  have hcareful : EveryStep (State.step 1) Careful (State.start String) careRun := by
    decide +kernel
  obtain ⟨s, hr, hlen, hreturned, hclosed⟩ : ∃ s,
      run (State.step 1) (State.start String) careRun = some s ∧
        s.manager.launched.length = 2 ∧ (∀ u ∈ s.threads, u.pc.Returned) ∧
        ∃ t ∈ s.threads, t.pc.emptied.isSome ∧ t.pc.Returned := by
    refine ⟨_, rfl, ?_, ?_, ?_⟩
    · decide
    · decide
    · decide
  obtain ⟨-, -, hkept⟩ := (kept_of_careful hcareful).last hr
  exact ⟨s, hr, hlen, hlen ▸ (hkept hreturned).2 hclosed hreturned⟩

/-- A job has used its parent and released it when another finds it dead; the other's context is
cancelled, so that the parent leaves the map and its container stays. Then the pool is closed. -/
def leakRun : List (Act String) :=
  [.dial "python:3.12", .go 0 true 0, .go 0 true 0, .go 0 true 0, .go 0 true 0, .go 0 true 0,
    .dial "python:3.12", .go 1 true 0, .go 1 false 0, .go 1 true 0, .cancel 1, .go 1 true 0,
    .go 1 false 0, .close, .go 2 true 0, .go 2 true 0]

theorem container_leaks :
    ∃ s, run (State.step 1) (State.start String) leakRun = some s ∧
      (∀ u ∈ s.threads, u.pc.Returned) ∧ ¬ s.Kept := by
  refine ⟨_, rfl, ?_, ?_⟩
  · decide
  · decide

end CodeRunner.Pool
