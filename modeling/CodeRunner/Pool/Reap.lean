import CodeRunner.Pool.Accounting

/-! # The idle reaper and parents in use

The reaper selects a parent that nobody has reserved, and a dial reserves its parent only after
it has looked it up and probed it. No pass removes a parent in use as long as no parent is
selected between the two.
-/

namespace CodeRunner.Pool

open Tally Transition

variable {K : Type*} [DecidableEq K]

/-- The parent that an action selects for removal, when it is a visit of `reapIdle`. -/
def State.selected (idle : ℕ) (s : State K) : Act K → Option ℕ
  | .go i _ j =>
    match (s.threads[i]?).map Thread.pc with
    | some (.scan now keys _) =>
      (keys[j]?).bind fun key =>
        (s.manager.parents.lookup key).filter (s.manager.idleEnough idle now)
    | _ => none
  | _ => none

/-- The parent for which an action of `reapIdle` calls `removeParent`. -/
def State.reaped (s : State K) : Act K → Option ℕ
  | .go i _ _ =>
    match (s.threads[i]?).map Thread.pc with
    | some (.reap (p :: _)) => some p
    | _ => none
  | _ => none

/-- A dial that `getOrCreate` has given the parent and that has not failed or been released. -/
def Pc.Uses (p : ℕ) : Pc K → Prop
  | .given _ q | .dialRelay _ q | .rollback _ q | .open_ q => q = p
  | _ => False

instance (p : ℕ) : ∀ pc : Pc K, Decidable (pc.Uses p)
  | .given _ q | .dialRelay _ q | .rollback _ q | .open_ q => inferInstanceAs (Decidable (q = p))
  | .lookup _ | .healthy _ _ | .drop _ _ _ | .dropped _ _ _ | .launch _ | .finished | .now
  | .lock _ | .scan _ _ _ | .reap _ | .close | .closing _ _ | .closed _ => isFalse id

instance (p : ℕ) : ∀ pc : Pc K, Decidable (pc.Unreserved p)
  | .healthy _ q | .given _ q => inferInstanceAs (Decidable (q = p))
  | .lookup _ | .drop _ _ _ | .dropped _ _ _ | .launch _ | .dialRelay _ _ | .rollback _ _
  | .open_ _ | .finished | .now | .lock _ | .scan _ _ _ | .reap _ | .close | .closing _ _
  | .closed _ => isFalse id

/-- No dial is between looking up the parent that is selected and reserving it. -/
def SelectsReserved (idle : ℕ) (s : State K) (a : Act K) : Prop :=
  ∀ p ∈ s.selected idle a, ∀ t ∈ s.threads, ¬ t.pc.Unreserved p

/-- The parent that `reapIdle` removes is not in use. -/
def ReapsUnused (s : State K) (a : Act K) : Prop :=
  ∀ p ∈ s.reaped a, ∀ t ∈ s.threads, ¬ t.pc.Uses p

instance (idle : ℕ) (s : State K) (a : Act K) : Decidable (SelectsReserved idle s a) :=
  inferInstanceAs (Decidable (∀ p ∈ s.selected idle a, ∀ t ∈ s.threads, ¬ t.pc.Unreserved p))

instance (s : State K) (a : Act K) : Decidable (ReapsUnused s a) :=
  inferInstanceAs (Decidable (∀ p ∈ s.reaped a, ∀ t ∈ s.threads, ¬ t.pc.Uses p))

/-- The accounts are right, and a parent selected for removal has left the map and cannot be
reached by a dial. -/
structure Inv (s : State K) : Prop extends Counted s where
  toReap : ∀ t ∈ s.threads, ∀ p ∈ t.pc.toReap, p < s.manager.launched.length ∧
    (∀ k, s.manager.parents.lookup k ≠ some p) ∧ ∀ u ∈ s.threads, ¬ u.pc.Reaches p

variable {idle : ℕ} {s s' : State K} {a : Act K} {p : ℕ} {pc pc' : Pc K}

omit [DecidableEq K] in
theorem Pc.Uses.reaches (h : pc.Uses p) : pc.Reaches p := by
  cases pc with
  | given key q => exact .inl h
  | dialRelay key q | rollback key q | open_ q =>
    obtain rfl := h
    exact .inr (by simp [Pc.reserved])
  | _ => cases h

theorem Inv.start : Inv (State.start K) where
  toCounted := .start
  toReap t h := by cases h

theorem Inv.call (h : Inv s) (hr : ∀ p, ¬ pc.Reaches p) (ht : pc.toReap = []) :
    Inv (s.call pc) where
  toCounted := h.toCounted.call hr
  toReap t hm p hp := by
    rcases List.mem_append.mp hm with hm | hm
    · obtain ⟨hlt, hmap, hall⟩ := h.toReap t hm p hp
      refine ⟨hlt, hmap, fun u hu => ?_⟩
      rcases List.mem_append.mp hu with hu | hu
      · exact hall u hu
      · obtain rfl := List.mem_singleton.mp hu
        exact hr p
    · obtain rfl := List.mem_singleton.mp hm
      rw [ht] at hp
      cases hp

theorem Inv.cancel {i : ℕ} {t : Thread K} (h : Inv s) (hi : s.threads[i]? = some t) :
    Inv { s with threads := s.threads.set i { t with cancelled := true } } where
  toCounted := h.toCounted.cancel hi
  toReap u hu p hp := by
    have hold : ∀ v ∈ s.threads.set i { t with cancelled := true },
        ∃ w ∈ s.threads, w.pc = v.pc := by
      intro v hv
      rcases List.mem_or_eq_of_mem_set hv with hv | rfl
      · exact ⟨v, hv, rfl⟩
      · exact ⟨t, List.mem_of_getElem? hi, rfl⟩
    obtain ⟨w, hw, hpc⟩ := hold u hu
    obtain ⟨hlt, hmap, hall⟩ := h.toReap w hw p (hpc ▸ hp)
    refine ⟨hlt, hmap, fun v hv => ?_⟩
    obtain ⟨w', hw', hpc'⟩ := hold v hv
    exact hpc' ▸ hall w' hw'

theorem next_toReap {m m' : Manager K} {cancelled ok : Bool} {j : ℕ}
    (h : m.next idle cancelled ok j pc = some (pc', m')) :
    ∀ p ∈ pc'.toReap, p ∈ pc.toReap ∨ (∀ q, ¬ pc'.Reaches q) ∧
      ∃ now keys toReap key, pc = .scan now keys toReap ∧ keys[j]? = some key ∧
        m.parents.lookup key = some p ∧ m.idleEnough idle now p = true ∧
        m'.launched = m.launched ∧ m'.parents = m.parents.erase key := by
  intro p hp
  cases next_turn h with
  | selects hkey hlook hidle =>
    rcases List.mem_append.mp hp with hp | hp
    · exact .inl hp
    · obtain rfl := List.mem_singleton.mp hp
      exact .inr ⟨nofun, _, _, _, _, rfl, hkey, hlook, hidle, rfl, rfl⟩
  | passes | unlocks => exact .inl hp
  | reaps => exact .inl (List.mem_cons_of_mem _ hp)
  | _ => cases hp

theorem Inv.reserved_of_idle {now : ℕ} (h : Inv s)
    (hidle : s.manager.idleEnough idle now p = true) :
    p < s.manager.launched.length ∧ ∀ t ∈ s.threads, t.pc.reserved p = 0 := by
  unfold Manager.idleEnough at hidle
  split at hidle
  · next x hx =>
    refine ⟨(List.getElem?_eq_some_iff.mp hx).1, fun t ht => ?_⟩
    have hzero : x.inflight = 0 := (of_decide_eq_true hidle).1
    have htally := h.inflight p x hx
    have hle := le_tally (f := fun t => t.pc.reserved p) ht
    omega
  · cases hidle

theorem State.selected_eq_some {i j : ℕ} {ok : Bool} :
    s.selected idle (.go i ok j) = some p ↔ ∃ t now keys toReap key, s.threads[i]? = some t ∧
      t.pc = .scan now keys toReap ∧ keys[j]? = some key ∧
      s.manager.parents.lookup key = some p ∧ s.manager.idleEnough idle now p = true := by
  constructor
  · intro h
    simp only [State.selected] at h
    split at h
    · next now keys toReap heq =>
      obtain ⟨t, ht, hpc⟩ := Option.map_eq_some_iff.mp heq
      obtain ⟨key, hkey, h⟩ := Option.bind_eq_some_iff.mp h
      obtain ⟨hlook, hidle⟩ := Option.filter_eq_some_iff.mp h
      exact ⟨t, now, keys, toReap, key, ht, hpc, hkey, hlook, hidle⟩
    · cases h
  · rintro ⟨t, now, keys, toReap, key, ht, hpc, hkey, hlook, hidle⟩
    simp only [State.selected, ht, Option.map_some, hpc, hkey, Option.bind_some, hlook,
      Option.filter_some, hidle, if_true]

theorem Inv.go {i j : ℕ} {ok : Bool} {t : Thread K} {m' : Manager K} (h : Inv s)
    (hi : s.threads[i]? = some t)
    (hn : s.manager.next idle t.cancelled ok j t.pc = some (pc', m'))
    (hguard : ∀ p ∈ s.selected idle (.go i ok j), ∀ t ∈ s.threads, ¬ t.pc.Unreserved p) :
    Inv ⟨m', s.threads.set i { t with pc := pc' }⟩ := by
  have hmoves := next_moves hn
  have ht : t ∈ s.threads := List.mem_of_getElem? hi
  constructor
  · exact h.toCounted.go hi hn
  · -- What nobody could reach and the map did not hold stays so.
    have hkeep : ∀ p, p < s.manager.launched.length ∧
        (∀ k, s.manager.parents.lookup k ≠ some p) ∧ (∀ u ∈ s.threads, ¬ u.pc.Reaches p) →
        p < m'.launched.length ∧ (∀ k, m'.parents.lookup k ≠ some p) ∧
          ∀ u ∈ s.threads.set i { t with pc := pc' }, ¬ u.pc.Reaches p := by
      rintro p ⟨hlt, hold, hall⟩
      refine ⟨Nat.lt_of_lt_of_le hlt hmoves.grows, fun k hk => ?_, fun u hu hreach => ?_⟩
      · rcases hmoves.lookup k p hk with hk | ⟨rfl, -⟩
        · exact hold k hk
        · exact Nat.lt_irrefl _ hlt
      · rcases List.mem_or_eq_of_mem_set hu with hu | rfl
        · exact hall u hu hreach
        · rcases hmoves.reaches p hreach with hp | ⟨k, hp⟩ | ⟨rfl, -⟩
          · exact hall t ht hp
          · exact hold k hp
          · exact Nat.lt_irrefl _ hlt
    intro u hu p hp
    rcases List.mem_or_eq_of_mem_set hu with hu | rfl
    · exact hkeep p (h.toReap u hu p hp)
    · rcases next_toReap hn p hp with hp | ⟨hnone, now, keys, toReap, key, hpc, hkey, hlook, hidle,
        hlaunched, hparents⟩
      · exact hkeep p (h.toReap t ht p hp)
      · obtain ⟨hlt, hzero⟩ := h.reserved_of_idle hidle
        have hsel : s.selected idle (.go i ok j) = some p :=
          State.selected_eq_some.mpr ⟨t, now, keys, toReap, key, hi, hpc, hkey, hlook, hidle⟩
        refine ⟨hlaunched ▸ hlt, fun k hk => ?_, fun u hu hreach => ?_⟩
        · rw [hparents] at hk
          obtain ⟨hne, hk⟩ := erase_lookup hk
          have heq := (h.key k p hk).symm.trans (h.key key p hlook)
          exact hne (Option.some.inj heq)
        · rcases List.mem_or_eq_of_mem_set hu with hu | rfl
          · rcases hreach with hreach | hreach
            · exact hguard p hsel u hu hreach
            · exact absurd (hzero u hu) (Nat.pos_iff_ne_zero.mp hreach)
          · exact hnone p hreach

theorem Inv.step (h : Inv s) (hguard : SelectsReserved idle s a) (hs : s.step idle a = some s') :
    Inv s' := by
  cases a with
  | dial key =>
    cases hs
    exact h.call (by rintro p (h | h) <;> cases h) rfl
  | reapIdle =>
    simp only [State.step] at hs
    split at hs <;> cases hs
    exact h.call (by rintro p (h | h) <;> cases h) rfl
  | close =>
    cases hs
    exact h.call (by rintro p (h | h) <;> cases h) rfl
  | cancel i =>
    obtain ⟨t, hi, rfl⟩ := Option.map_eq_some_iff.mp hs
    exact h.cancel hi
  | go i ok j =>
    obtain ⟨t, hi, hs⟩ := Option.bind_eq_some_iff.mp hs
    obtain ⟨⟨pc', m'⟩, hn, rfl⟩ := Option.map_eq_some_iff.mp hs
    exact h.go hi hn hguard
  | tick =>
    cases hs
    exact ⟨⟨h.inflight, h.key, h.known⟩, h.toReap⟩

theorem Inv.reapsUnused (h : Inv s) : ReapsUnused s a := by
  intro p hp t ht huses
  cases a with
  | go i ok j =>
    simp only [State.reaped] at hp
    split at hp <;> cases hp
    next toReap heq =>
      obtain ⟨u, hu, hpc⟩ := Option.map_eq_some_iff.mp heq
      have hmem : p ∈ u.pc.toReap := by rw [hpc]; exact List.mem_cons_self
      exact (h.toReap u (List.mem_of_getElem? hu) p hmem).2.2 t ht huses.reaches
  | _ => cases hp

theorem go_step {i j : ℕ} {ok : Bool} {t : Thread K} {m' : Manager K}
    (hi : s.threads[i]? = some t)
    (hn : s.manager.next idle t.cancelled ok j t.pc = some (pc', m')) :
    s.step idle (.go i ok j) = some ⟨m', s.threads.set i { t with pc := pc' }⟩ := by
  simp only [State.step, hi, Option.bind_some, hn, Option.map_some]

def State.At (s : State K) (i n : ℕ) (pc pc' : Pc K) : Prop :=
  i ≠ n ∧ (s.threads[i]?).map Thread.pc = some pc ∧ (s.threads[n]?).map Thread.pc = some pc'

omit [DecidableEq K] in
theorem State.At.symm {i n : ℕ} (h : s.At i n pc pc') : s.At n i pc' pc := ⟨h.1.symm, h.2.2, h.2.1⟩

theorem State.At.go {i n : ℕ} {pc₁ : Pc K} (h : s.At i n pc pc') (idle j : ℕ) (ok : Bool)
    (hn : ∀ cancelled, ∃ m', s.manager.next idle cancelled ok j pc = some (pc₁, m')) :
    ∃ s', s.step idle (.go i ok j) = some s' ∧ s'.At i n pc₁ pc' := by
  obtain ⟨hne, hi, hk⟩ := h
  obtain ⟨t, ht, rfl⟩ := Option.map_eq_some_iff.mp hi
  obtain ⟨m', hm⟩ := hn t.cancelled
  refine ⟨_, go_step ht hm, hne, ?_, ?_⟩
  · have hlt : i < s.threads.length := (List.getElem?_eq_some_iff.mp ht).1
    rw [List.getElem?_set_self hlt]
    rfl
  · rw [List.getElem?_set_ne hne, hk]

theorem State.At.scan {i n now : ℕ} {keys : List K} {toReap : List ℕ}
    (h : s.At i n (.scan now keys toReap) pc) (idle : ℕ) (hp : p ∈ toReap) :
    ∃ as s' toReap', run (State.step idle) s as = some s' ∧ s'.At i n (.reap toReap') pc ∧
      p ∈ toReap' := by
  induction keys generalizing s toReap with
  | nil =>
    obtain ⟨s', hs, h'⟩ := h.go idle 0 true fun _ => ⟨_, rfl⟩
    exact ⟨[.go i true 0], s', toReap, by rw [run_cons_of_step hs]; rfl, h', hp⟩
  | cons key keys ih =>
    obtain ⟨toReap₁, m₁, hvisit, hp₁⟩ : ∃ toReap₁ m₁,
        s.manager.visit idle now key keys toReap = (.scan now keys toReap₁, m₁) ∧ p ∈ toReap₁ := by
      unfold Manager.visit
      split
      · split
        · exact ⟨_, _, rfl, List.mem_append_left _ hp⟩
        · exact ⟨_, _, rfl, hp⟩
      · exact ⟨_, _, rfl, hp⟩
    have hnext : ∀ cancelled, ∃ m', s.manager.next idle cancelled true 0
        (.scan now (key :: keys) toReap) = some (.scan now keys toReap₁, m') :=
      fun _ => ⟨m₁, congrArg some hvisit⟩
    obtain ⟨s₁, hs, h₁⟩ := h.go idle 0 true hnext
    obtain ⟨as, s', toReap', hr, h', hp'⟩ := ih h₁ hp₁
    exact ⟨.go i true 0 :: as, s', toReap', by rw [run_cons_of_step hs, hr], h', hp'⟩

theorem State.At.reap {i n : ℕ} {toReap : List ℕ} (h : s.At i n (.reap toReap) pc)
    (idle : ℕ) (hp : p ∈ toReap) :
    ∃ as s' rest, run (State.step idle) s as = some s' ∧ s'.At i n (.reap (p :: rest)) pc := by
  induction toReap generalizing s with
  | nil => cases hp
  | cons q toReap ih =>
    by_cases hq : p = q
    · exact ⟨[], s, toReap, rfl, hq ▸ h⟩
    · obtain ⟨s₁, hs, h₁⟩ := h.go idle 0 true fun _ => ⟨_, rfl⟩
      obtain ⟨as, s', rest, hr, h'⟩ := ih h₁ ((List.mem_cons.mp hp).resolve_left hq)
      exact ⟨.go i true 0 :: as, s', rest, by rw [run_cons_of_step hs, hr], h'⟩

theorem State.At.unreserved {i n : ℕ} {rest : List ℕ} (h : s.At i n (.reap (p :: rest)) pc)
    (idle : ℕ) (hpc : pc.Unreserved p) :
    ∃ as s' key, run (State.step idle) s as = some s' ∧
      s'.At i n (.reap (p :: rest)) (.given key p) := by
  cases pc with
  | healthy key q =>
    obtain rfl : q = p := hpc
    obtain ⟨s', hs, h'⟩ := h.symm.go idle 0 true fun _ => ⟨_, rfl⟩
    exact ⟨[.go n true 0], s', key, by rw [run_cons_of_step hs]; rfl, h'.symm⟩
  | given key q =>
    obtain rfl : q = p := hpc
    exact ⟨[], s, key, rfl, h⟩
  | _ => cases hpc

omit [DecidableEq K] in
theorem State.At.not_reapsUnused {i n : ℕ} {rest : List ℕ} {key : K}
    (h : s.At i n (.reap (p :: rest)) (.given key p)) :
    ¬ ReapsUnused s (.go i true 0) := by
  obtain ⟨-, hi, hn⟩ := h
  obtain ⟨u, hu, hpc⟩ := Option.map_eq_some_iff.mp hn
  intro hall
  have hreaped : s.reaped (.go i true 0) = some p := by simp only [State.reaped, hi]
  exact hall p hreaped u (List.mem_of_getElem? hu) (by rw [hpc]; rfl)

theorem reaps_used (hs : s.step idle a = some s') (ha : ¬ SelectsReserved idle s a) :
    ∃ bs t, run (State.step idle) s' bs = some t ∧
      ¬ EveryStep (State.step idle) ReapsUnused s' bs := by
  simp only [SelectsReserved, not_forall, not_not] at ha
  obtain ⟨p, hp, u, hu, hpc⟩ := ha
  obtain ⟨n, hn⟩ := List.mem_iff_getElem?.mp hu
  cases a with
  | go i ok j =>
    obtain ⟨t, now, keys, toReap, key, ht, htpc, hkey, hlook, hidle⟩ :=
      State.selected_eq_some.mp hp
    have hne : i ≠ n := by
      rintro rfl
      obtain rfl := Option.some.inj (hn.symm.trans ht)
      rw [htpc] at hpc
      exact hpc
    have hat : s.At i n (.scan now keys toReap) u.pc :=
      ⟨hne, by rw [ht, Option.map_some, htpc], by rw [hn, Option.map_some]⟩
    have hnext : ∀ cancelled, ∃ m', s.manager.next idle cancelled ok j (.scan now keys toReap) =
        some (.scan now (keys.eraseIdx j) (toReap ++ [p]), m') := by
      intro cancelled
      cases keys with
      | nil => cases hkey
      | cons k keys =>
        simp only [Manager.next, hkey, Option.map_some, Manager.visit, hlook, hidle, if_true]
        exact ⟨_, rfl⟩
    obtain ⟨s₀, hs₀, h₀⟩ := hat.go idle j ok hnext
    obtain rfl := Option.some.inj (hs₀.symm.trans hs)
    obtain ⟨as₁, s₁, toReap₁, hr₁, h₁, hp₁⟩ :=
      h₀.scan idle (List.mem_append_right toReap List.mem_cons_self)
    obtain ⟨as₂, s₂, rest, hr₂, h₂⟩ := h₁.reap idle hp₁
    obtain ⟨as₃, s₃, key', hr₃, h₃⟩ := h₂.unreserved idle hpc
    obtain ⟨s₄, hs₄, -⟩ := h₃.go idle 0 true fun _ => ⟨_, rfl⟩
    have hr : run (State.step idle) s₀ (as₁ ++ (as₂ ++ as₃)) = some s₃ := by
      rw [run_append, hr₁, Option.bind_some, run_append, hr₂, Option.bind_some, hr₃]
    refine ⟨as₁ ++ (as₂ ++ as₃) ++ [.go i true 0], s₄, ?_, fun hall => ?_⟩
    · rw [run_append, hr, Option.bind_some, run_cons_of_step hs₄]
      rfl
    · exact h₃.not_reapsUnused ((everyStep_append hr).mp hall).2.1
  | _ => cases hp

/-- In a run in which no parent is selected between the lookup of a dial and its reservation, the
reaper removes no parent in use, and a run with such a selection can go on to a removal of one. -/
theorem reapIdle_removes_unused {as : List (Act K)}
    (hr : run (State.step idle) (State.start K) as = some s) :
    (EveryStep (State.step idle) (SelectsReserved idle) (State.start K) as →
      EveryStep (State.step idle) ReapsUnused (State.start K) as) ∧
    ∀ a s', s.step idle a = some s' → ¬ SelectsReserved idle s a →
      ∃ bs t, run (State.step idle) (State.start K) (as ++ a :: bs) = some t ∧
        ¬ EveryStep (State.step idle) ReapsUnused (State.start K) (as ++ a :: bs) := by
  constructor
  · intro hguard
    have hall : Always (State.step idle) Inv (State.start K) as :=
      .of_guarded (fun _ _ _ => Inv.step) .start hguard
    exact .of_always (fun _ _ _ h _ _ => h.reapsUnused) hall hguard hr
  · intro a s' hs ha
    obtain ⟨bs, t, hbs, hnot⟩ := reaps_used hs ha
    refine ⟨bs, t, ?_, fun hall => ?_⟩
    · rw [run_append, hr, Option.bind_some, run_cons_of_step hs, hbs]
    · exact hnot (((everyStep_append hr).mp hall).2.2 s' hs)

/-- A job uses the parent, it is idle for a while, and the reaper takes it. -/
def idleRun : List (Act String) :=
  [.dial "python:3.12", .go 0 true 0, .go 0 true 0, .go 0 true 0, .go 0 true 0, .go 0 true 0,
    .tick, .reapIdle, .go 1 true 0, .go 1 true 0, .go 1 true 0, .go 1 true 0, .go 1 true 0]

theorem reapIdle_removes_unused_idleRun :
    EveryStep (State.step 1) ReapsUnused (State.start String) idleRun := by
  have hrun : (run (State.step 1) (State.start String) idleRun).isSome = true := by decide
  obtain ⟨s, hr⟩ := Option.isSome_iff_exists.mp hrun
  exact (reapIdle_removes_unused hr).1 (by decide)

/-- A second job looks the idle parent up, the reaper selects it, the probe succeeds, and the
reaper removes it. -/
def reapRace : List (Act String) :=
  idleRun.take 7 ++
    [.dial "python:3.12", .go 1 true 0, .reapIdle, .go 2 true 0, .go 2 true 0, .go 2 true 0,
      .go 1 true 0, .go 2 true 0, .go 2 true 0]

theorem reapIdle_removes_used :
    (run (State.step 1) (State.start String) reapRace).isSome = true ∧
      ¬ EveryStep (State.step 1) ReapsUnused (State.start String) reapRace := by
  constructor
  · decide
  · decide

end CodeRunner.Pool
