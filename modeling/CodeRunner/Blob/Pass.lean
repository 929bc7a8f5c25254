import Mathlib.Logic.Function.Iterate
import Mathlib.Data.List.Nodup
import CodeRunner.Blob.Programs

/-! # A complete sweep

A sweep that nobody interrupts, run command by command to its end. What it leaves behind is the
fold of the loop's body over the index, and the visit of a hash touches nothing of the others.
-/

namespace CodeRunner.Blob

variable {cfg : Config} {stuck : List Hash}

def Cmd.isRemove : Cmd → Bool
  | .removeObject _ => true
  | _ => false

def Store.Collectable (s : Store) (h : Hash) : Prop :=
  (s.metaKey h).isSome = false ∧ (s.lease h).card = 0

instance (s : Store) (h : Hash) : Decidable (s.Collectable h) :=
  inferInstanceAs (Decidable ((s.metaKey h).isSome = false ∧ (s.lease h).card = 0))

/-- The next command of a sweep that runs alone. The object store refuses to delete the objects
of the hashes in `stuck`; every other command succeeds. -/
def Sweep.advance (cfg : Config) (stuck : List Hash) (p : Store × Sweep) : Store × Sweep :=
  match p.2.next cfg with
  | none => p
  | some cmd =>
      if cmd ∈ stuck.map Cmd.removeObject then (p.1, p.2.resume cfg .err)
      else ((p.1.exec cmd).1, p.2.resume cfg (p.1.exec cmd).2)

/-- A whole sweep: three commands before the loop, at most nine for a hash, and the unlock. -/
def Sweep.complete (cfg : Config) (stuck : List Hash) (s : Store) : Store × Sweep :=
  (Sweep.advance cfg stuck)^[4 + 9 * s.index.length] (s, .start)

/-- The object delete of a hash past its grace window and the scrub of its keys. -/
def Store.reclaim (s : Store) (h : Hash) : Store :=
  [Cmd.removeObject h, .sremIndex h, .zrem h, .delLease h, .delMeta h].foldl
    (fun s cmd => (s.exec cmd).1) s

def Store.collect (cfg : Config) (stuck : List Hash) (nowMs : ℕ) (s : Store) (h : Hash) : Store :=
  match s.candidates h with
  | none => (s.exec (.zadd h nowMs)).1
  | some score => if cfg.graceMs < nowMs - score ∧ h ∉ stuck then s.reclaim h else s

def Store.visit (cfg : Config) (stuck : List Hash) (nowMs : ℕ) (s : Store) (h : Hash) : Store :=
  if s.Collectable h then s.collect cfg stuck nowMs h else (s.exec (.zrem h)).1

/-- `q` is what `k` commands of a sweep that runs alone lead to from `p`. -/
def Advances (cfg : Config) (stuck : List Hash) (k : ℕ) (p q : Store × Sweep) : Prop :=
  (Sweep.advance cfg stuck)^[k] p = q

variable {p q r : Store × Sweep} {j k : ℕ}

theorem Advances.refl (p : Store × Sweep) : Advances cfg stuck 0 p p := rfl

theorem Advances.cons (hpq : Sweep.advance cfg stuck p = q) (hqr : Advances cfg stuck k q r) :
    Advances cfg stuck (k + 1) p r := by
  rw [Advances, Function.iterate_succ_apply, hpq, hqr]

theorem Advances.trans (hpq : Advances cfg stuck j p q) (hqr : Advances cfg stuck k q r) :
    Advances cfg stuck (j + k) p r := by
  rw [Advances, Nat.add_comm, Function.iterate_add_apply, hpq, hqr]

theorem Advances.of_done (k : ℕ) (hp : p.2.pc = .done) : Advances cfg stuck k p p := by
  have hn : p.2.next cfg = none := by simp only [Sweep.next, hp]
  have hfix : Sweep.advance cfg stuck p = p := by simp only [Sweep.advance, hn]
  exact Function.iterate_fixed hfix k

variable {s : Store} {t : Sweep} {cmd : Cmd} {nowMs : ℕ} {h : Hash} {todo : List Hash}

theorem advance_of_next (hn : t.next cfg = some cmd) (hc : cmd.isRemove = false) :
    Sweep.advance cfg stuck (s, t) = ((s.exec cmd).1, t.resume cfg (s.exec cmd).2) := by
  have hmem : cmd ∉ stuck.map Cmd.removeObject := by
    intro hmem
    obtain ⟨h, -, rfl⟩ := List.mem_map.mp hmem
    cases hc
  simp only [Sweep.advance, hn, hmem, if_false]

theorem Advances.next (cmd : Cmd) (hn : t.next cfg = some cmd) (hc : cmd.isRemove = false)
    (hr : Advances cfg stuck k ((s.exec cmd).1, t.resume cfg (s.exec cmd).2) r) :
    Advances cfg stuck (k + 1) (s, t) r :=
  .cons (advance_of_next hn hc) hr

/-- The object delete, refused for the hashes in `stuck`, and then the rest. -/
theorem Advances.remove {v : Visit} {freed : ℕ} (ht : t.pc = .remove v freed)
    (hr : Advances cfg stuck k
      (if v.hash ∈ stuck then (s, t.resume cfg .err)
        else ((s.exec (.removeObject v.hash)).1, t.resume cfg .ok)) r) :
    Advances cfg stuck (k + 1) (s, t) r := by
  have hn : t.next cfg = some (.removeObject v.hash) := by simp only [Sweep.next, ht]
  have hmem : Cmd.removeObject v.hash ∈ stuck.map Cmd.removeObject ↔ v.hash ∈ stuck := by
    simp [List.mem_map]
  refine .cons ?_ hr
  simp only [Sweep.advance, hn, hmem]
  rfl

def Sweep.AtLoop (nowMs : ℕ) (todo : List Hash) (t : Sweep) : Prop := t.pc = .loop nowMs todo

theorem advances_scard (ht : t.AtLoop nowMs (h :: todo)) :
    Advances cfg stuck 2 (s, t)
      (s, if s.Collectable h then { t with pc := .zscore ⟨nowMs, h, todo⟩ }
        else { t with pc := .recovered ⟨nowMs, h, todo⟩ }) := by
  obtain ⟨pc, reclaimed, bytesFreed⟩ := t
  obtain rfl : pc = .loop nowMs (h :: todo) := ht
  exact .next (.existsMeta h) rfl rfl (.next (.scardLease h) rfl rfl (.refl _))

theorem resume_stat {v : Visit} {size : Option ℕ} (ht : t.pc = .stat v) :
    t.resume cfg (.opt size) = { t with pc := .remove v (size.getD 0) } := by
  cases size <;> simp only [Sweep.resume, ht, Option.getD]

theorem advances_reclaim {v : Visit} (ht : t.pc = .stat v) (hv : v.hash ∉ stuck) :
    ∃ t', t'.AtLoop v.nowMs v.rest ∧ Advances cfg stuck 6 (s, t) (s.reclaim v.hash, t') := by
  obtain ⟨pc, reclaimed, bytesFreed⟩ := t
  obtain rfl : pc = .stat v := ht
  refine ⟨⟨.loop v.nowMs v.rest, reclaimed + 1, bytesFreed + (s.objects v.hash).getD 0⟩, rfl,
    .next (.statObject v.hash) rfl rfl ?_⟩
  rw [Store.exec, resume_stat rfl]
  refine .remove rfl ?_
  rw [if_neg hv]
  exact .next (.sremIndex v.hash) rfl rfl (.next (.zrem v.hash) rfl rfl
    (.next (.delLease v.hash) rfl rfl (.next (.delMeta v.hash) rfl rfl (.refl _))))

theorem advances_refused {v : Visit} (ht : t.pc = .stat v) (hv : v.hash ∈ stuck) :
    ∃ t', t'.AtLoop v.nowMs v.rest ∧ Advances cfg stuck 2 (s, t) (s, t') := by
  obtain ⟨pc, reclaimed, bytesFreed⟩ := t
  obtain rfl : pc = .stat v := ht
  refine ⟨⟨.loop v.nowMs v.rest, reclaimed, bytesFreed⟩, rfl,
    .next (.statObject v.hash) rfl rfl ?_⟩
  rw [Store.exec, resume_stat rfl]
  refine .remove rfl ?_
  rw [if_pos hv]
  exact .refl _

theorem resume_zscore {v : Visit} {score : ℕ} (ht : t.pc = .zscore v) :
    t.resume cfg (.opt (some score)) =
      if cfg.graceMs < v.nowMs - score then { t with pc := .stat v }
      else { t with pc := .loop v.nowMs v.rest } := by
  simp only [Sweep.resume, ht]

theorem advances_collect {v : Visit} (ht : t.pc = .zscore v) :
    ∃ k ≤ 7, ∃ t', t'.AtLoop v.nowMs v.rest ∧
      Advances cfg stuck k (s, t) (s.collect cfg stuck v.nowMs v.hash, t') := by
  obtain ⟨pc, reclaimed, bytesFreed⟩ := t
  obtain rfl : pc = .zscore v := ht
  rw [Store.collect]
  rcases hcand : s.candidates v.hash with _ | score
  · -- First seen collectable: it becomes a candidate.
    refine ⟨2, by decide, ⟨.loop v.nowMs v.rest, reclaimed, bytesFreed⟩, rfl,
      .next (.zscore v.hash) rfl rfl ?_⟩
    rw [Store.exec, hcand]
    exact .next (.zadd v.hash v.nowMs) rfl rfl (.refl _)
  · by_cases hpast : cfg.graceMs < v.nowMs - score
    · by_cases hstuck : v.hash ∈ stuck
      · obtain ⟨t', ht', hrefused⟩ := advances_refused (s := s)
          (t := ⟨.stat v, reclaimed, bytesFreed⟩) rfl hstuck
        refine ⟨3, by decide, t', ht', .next (.zscore v.hash) rfl rfl ?_⟩
        rw [Store.exec, hcand, resume_zscore rfl, if_pos hpast]
        simpa only [hpast, hstuck, not_true_eq_false, and_false, if_false] using hrefused
      · obtain ⟨t', ht', hreclaim⟩ := advances_reclaim (s := s)
          (t := ⟨.stat v, reclaimed, bytesFreed⟩) rfl hstuck
        refine ⟨7, by decide, t', ht', .next (.zscore v.hash) rfl rfl ?_⟩
        rw [Store.exec, hcand, resume_zscore rfl, if_pos hpast]
        simpa only [hpast, hstuck, not_false_eq_true, and_true, if_true] using hreclaim
    · refine ⟨1, by decide, ⟨.loop v.nowMs v.rest, reclaimed, bytesFreed⟩, rfl,
        .next (.zscore v.hash) rfl rfl ?_⟩
      rw [Store.exec, hcand, resume_zscore rfl, if_neg hpast]
      simp only [hpast, false_and, if_false]
      exact .refl _

theorem advances_visit (ht : t.AtLoop nowMs (h :: todo)) :
    ∃ k ≤ 9, ∃ t', t'.AtLoop nowMs todo ∧
      Advances cfg stuck k (s, t) (s.visit cfg stuck nowMs h, t') := by
  have hscard : Advances cfg stuck 2 (s, t) _ := advances_scard ht
  by_cases hcol : s.Collectable h
  · rw [if_pos hcol] at hscard
    obtain ⟨k, hk, t', ht', hcollect⟩ := advances_collect (s := s)
      (t := { t with pc := .zscore ⟨nowMs, h, todo⟩ }) rfl
    refine ⟨2 + k, by omega, t', ht', hscard.trans ?_⟩
    rw [Store.visit, if_pos hcol]
    exact hcollect
  · rw [if_neg hcol] at hscard
    refine ⟨2 + 1, by decide, { t with pc := .loop nowMs todo }, rfl, hscard.trans ?_⟩
    rw [Store.visit, if_neg hcol]
    exact .next (.zrem h) rfl rfl (.refl _)

variable (cfg stuck) in
theorem advances_loop (ht : t.AtLoop nowMs todo) :
    ∃ k ≤ 9 * todo.length, ∃ t', t'.AtLoop nowMs [] ∧
      Advances cfg stuck k (s, t) (todo.foldl (Store.visit cfg stuck nowMs) s, t') := by
  induction todo generalizing s t with
  | nil => exact ⟨0, le_rfl, t, ht, .refl _⟩
  | cons h todo ih =>
    obtain ⟨j, hj, t₁, ht₁, hvisit⟩ := advances_visit ht
    obtain ⟨k, hk, t₂, ht₂, hloop⟩ := ih ht₁
    refine ⟨j + k, ?_, t₂, ht₂, hvisit.trans hloop⟩
    rw [List.length_cons]
    omega

def Store.withLock (s : Store) (o : Option ℕ) : Store := { s with gcLock := o }

def Store.swept (cfg : Config) (stuck : List Hash) (s : Store) : Store :=
  s.index.foldl (Store.visit cfg stuck s.now) s

theorem visit_withLock (o : Option ℕ) :
    (s.withLock o).visit cfg stuck nowMs h = (s.visit cfg stuck nowMs h).withLock o := by
  simp only [Store.visit, Store.collect]
  by_cases hcol : s.Collectable h
  · rw [if_pos hcol, if_pos (show (s.withLock o).Collectable h from hcol)]
    rw [show (s.withLock o).candidates h = s.candidates h from rfl]
    rcases s.candidates h with _ | score
    · rfl
    · by_cases hpast : cfg.graceMs < nowMs - score ∧ h ∉ stuck
      · simp only [if_pos hpast]
        rfl
      · simp only [if_neg hpast]
  · rw [if_neg hcol, if_neg (show ¬ (s.withLock o).Collectable h from hcol)]
    rfl

theorem foldl_visit_withLock (o : Option ℕ) :
    todo.foldl (Store.visit cfg stuck nowMs) (s.withLock o) =
      (todo.foldl (Store.visit cfg stuck nowMs) s).withLock o := by
  induction todo generalizing s with
  | nil => rfl
  | cons h todo ih => rw [List.foldl_cons, visit_withLock, ih, List.foldl_cons]

variable (cfg stuck) in
theorem complete_eq_swept (hs : s.gcLock = none) :
    ∃ t, t.pc = .done ∧ Sweep.complete cfg stuck s = ((s.swept cfg stuck).withLock none, t) := by
  have hlock : s.exec (.setnxLock cfg.lockTtlMs) =
      (s.withLock (some (s.now + cfg.lockTtlMs)), .bool true) := by
    simp [Store.exec, hs, Store.withLock]
  have hhead : Advances cfg stuck 3 (s, .start)
      (s.withLock (some (s.now + cfg.lockTtlMs)), ⟨.loop s.now s.index, 0, 0⟩) := by
    refine .next (.setnxLock cfg.lockTtlMs) rfl rfl ?_
    rw [hlock]
    exact .next .smembersIndex rfl rfl (.next .time rfl rfl (.refl _))
  obtain ⟨k, hk, t, ht, hloop⟩ := advances_loop cfg stuck
    (s := s.withLock (some (s.now + cfg.lockTtlMs))) (t := ⟨.loop s.now s.index, 0, 0⟩)
    rfl
  obtain ⟨pc, reclaimed, bytesFreed⟩ := t
  obtain rfl : pc = .loop s.now [] := ht
  have hall := hhead.trans (hloop.trans (.next .delLock rfl rfl
    (.of_done (9 * s.index.length - k) rfl)))
  refine ⟨⟨.done, reclaimed, bytesFreed⟩, rfl, ?_⟩
  have hcount : 4 + 9 * s.index.length = 3 + (k + (9 * s.index.length - k + 1)) := by omega
  rw [Sweep.complete, hcount, hall, foldl_visit_withLock]
  rfl

/-- The stores agree on the clock and on everything about `h`. -/
structure Agree (h : Hash) (s s' : Store) : Prop where
  metaKey : s'.metaKey h = s.metaKey h
  lease : s'.lease h = s.lease h
  candidates : s'.candidates h = s.candidates h
  objects : s'.objects h = s.objects h
  index : h ∈ s'.index ↔ h ∈ s.index

theorem Agree.refl (h : Hash) (s : Store) : Agree h s s := ⟨rfl, rfl, rfl, rfl, Iff.rfl⟩

theorem Agree.symm {s s' : Store} (hs : Agree h s s') : Agree h s' s where
  metaKey := hs.metaKey.symm
  lease := hs.lease.symm
  candidates := hs.candidates.symm
  objects := hs.objects.symm
  index := hs.index.symm

theorem Agree.trans {s s' s'' : Store} (hs : Agree h s s') (hs' : Agree h s' s'') :
    Agree h s s'' where
  metaKey := hs'.metaKey.trans hs.metaKey
  lease := hs'.lease.trans hs.lease
  candidates := hs'.candidates.trans hs.candidates
  objects := hs'.objects.trans hs.objects
  index := hs'.index.trans hs.index

theorem Agree.collectable_iff {s s' : Store} (hs : Agree h s s') :
    s'.Collectable h ↔ s.Collectable h := by
  rw [Store.Collectable, Store.Collectable, hs.metaKey, hs.lease]

theorem reclaim_agree {h' : Hash} (hne : h' ≠ h) : Agree h' s (s.reclaim h) where
  metaKey := by simp [Store.reclaim, Store.exec, Function.update_of_ne hne]
  lease := by simp [Store.reclaim, Store.exec, Function.update_of_ne hne]
  candidates := by simp [Store.reclaim, Store.exec, Function.update_of_ne hne]
  objects := by simp [Store.reclaim, Store.exec, Function.update_of_ne hne]
  index := by simp [Store.reclaim, Store.exec, List.mem_erase_of_ne hne]

theorem visit_agree_of_ne {h' : Hash} (hne : h' ≠ h) :
    Agree h' s (s.visit cfg stuck nowMs h) := by
  rw [Store.visit]
  split
  · rw [Store.collect]
    split
    · exact ⟨rfl, rfl, Function.update_of_ne hne _ _, rfl, Iff.rfl⟩
    · split
      · exact reclaim_agree hne
      · exact .refl _ _
  · exact ⟨rfl, rfl, Function.update_of_ne hne _ _, rfl, Iff.rfl⟩

theorem visit_index_nodup (hs : s.index.Nodup) : (s.visit cfg stuck nowMs h).index.Nodup := by
  rw [Store.visit]
  split
  · rw [Store.collect]
    split
    · exact hs
    · split
      · exact hs.erase h
      · exact hs
  · exact hs

theorem visit_congr {s' : Store} (hs : Agree h s s') (hn : s.index.Nodup) (hn' : s'.index.Nodup) :
    Agree h (s.visit cfg stuck nowMs h) (s'.visit cfg stuck nowMs h) := by
  rw [Store.visit, Store.visit]
  by_cases hcol : s.Collectable h
  · rw [if_pos hcol, if_pos (hs.collectable_iff.mpr hcol), Store.collect, Store.collect,
      hs.candidates]
    rcases hcand : s.candidates h with _ | score
    · exact ⟨hs.metaKey, hs.lease, by simp [Store.exec], hs.objects, hs.index⟩
    · dsimp only
      split
      · constructor
        · simp [Store.reclaim, Store.exec]
        · simp [Store.reclaim, Store.exec]
        · simp [Store.reclaim, Store.exec]
        · simp [Store.reclaim, Store.exec]
        · simp [Store.reclaim, Store.exec, hn.not_mem_erase, hn'.not_mem_erase]
      · exact hs
  · rw [if_neg hcol, if_neg (hs.collectable_iff.not.mpr hcol)]
    exact ⟨hs.metaKey, hs.lease, by simp [Store.exec], hs.objects, hs.index⟩

theorem foldl_visit_nodup (hs : s.index.Nodup) :
    (todo.foldl (Store.visit cfg stuck nowMs) s).index.Nodup := by
  induction todo generalizing s with
  | nil => exact hs
  | cons h todo ih => exact ih (visit_index_nodup hs)

theorem foldl_visit_agree (hh : h ∉ todo) :
    Agree h s (todo.foldl (Store.visit cfg stuck nowMs) s) := by
  induction todo generalizing s with
  | nil => exact .refl _ _
  | cons h' todo ih =>
    obtain ⟨hne, hh⟩ := not_or.mp (mt List.mem_cons.mpr hh)
    exact (visit_agree_of_ne hne).trans (ih hh)

/-- A sweep does to a hash of the index what its visit does, and nothing to the others. -/
theorem foldl_visit_of_mem (hs : s.index.Nodup) (hn : todo.Nodup) (hh : h ∈ todo) :
    Agree h (s.visit cfg stuck nowMs h) (todo.foldl (Store.visit cfg stuck nowMs) s) := by
  induction todo generalizing s with
  | nil => exact absurd hh List.not_mem_nil
  | cons h' todo ih =>
    obtain ⟨hh', hn⟩ := List.nodup_cons.mp hn
    by_cases hne : h = h'
    · subst hne
      exact foldl_visit_agree hh'
    · have hmem : h ∈ todo := (List.mem_cons.mp hh).resolve_left hne
      have hvisit : Agree h s (s.visit cfg stuck nowMs h') := visit_agree_of_ne hne
      have hhere : Agree h (s.visit cfg stuck nowMs h) _ :=
        visit_congr hvisit hs (visit_index_nodup hs)
      exact hhere.trans (ih (visit_index_nodup hs) hn hmem)

theorem visit_now : (s.visit cfg stuck nowMs h).now = s.now := by
  rw [Store.visit]
  split
  · rw [Store.collect]
    split
    · rfl
    · split <;> rfl
  · rfl

theorem foldl_visit_now : (todo.foldl (Store.visit cfg stuck nowMs) s).now = s.now := by
  induction todo generalizing s with
  | nil => rfl
  | cons h todo ih => rw [List.foldl_cons, ih, visit_now]

/-- A visit reclaims a collectable candidate past the grace window. -/
def Store.Reclaims (cfg : Config) (stuck : List Hash) (s : Store) (h : Hash) : Prop :=
  s.Collectable h ∧ h ∉ stuck ∧ ∃ score ∈ s.candidates h, cfg.graceMs < s.now - score

theorem visit_of_reclaims (hs : s.Reclaims cfg stuck h) :
    s.visit cfg stuck s.now h = s.reclaim h := by
  obtain ⟨hcol, hstuck, score, hscore, hpast⟩ := hs
  rw [Store.visit, if_pos hcol, Store.collect, Option.mem_def.mp hscore]
  exact if_pos ⟨hpast, hstuck⟩

theorem visit_of_not_reclaims (hs : ¬ s.Reclaims cfg stuck h) :
    s.visit cfg stuck s.now h =
      { s with
        candidates := Function.update s.candidates h
          (if s.Collectable h then some ((s.candidates h).getD s.now) else none) } := by
  rw [Store.visit]
  by_cases hcol : s.Collectable h
  · rw [if_pos hcol, Store.collect]
    simp only [if_pos hcol]
    rcases hcand : s.candidates h with _ | score
    · rfl
    · have hpast : ¬ (cfg.graceMs < s.now - score ∧ h ∉ stuck) := fun hp =>
        hs ⟨hcol, hp.2, score, hcand, hp.1⟩
      dsimp only [Option.getD]
      rw [if_neg hpast, ← hcand, Function.update_eq_self]
  · simp only [if_neg hcol]
    rfl

end CodeRunner.Blob
