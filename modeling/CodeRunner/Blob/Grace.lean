import CodeRunner.Blob.Pass
import CodeRunner.Blob.Soundness
import CodeRunner.Lib.Transition

/-! # The grace window

A candidate's score is the time of the first sweep that found it collectable, and only a sweep
that finds the hash live again clears it. A live spell between two sweeps goes unseen and leaves
an old score behind; without such spells the sweeps honour the grace window.
-/

namespace CodeRunner.Blob

open Transition

/-- The commands of the blobs' users, a step of the environment, or a complete sweep, in which
the object store refuses to delete the objects of the hashes in `stuck`. -/
inductive Event where
  | touch (h : Hash) (size createdAtMs : ℕ)
  | lease (h : Hash) (job : JobId)
  | release (h : Hash) (job : JobId)
  | put (h : Hash) (size : ℕ)
  | env (e : Env)
  | sweep (stuck : List Hash)
  deriving DecidableEq, Repr

def Store.step (cfg : Config) (s : Store) : Event → Option Store
  | .touch h size createdAtMs => some (s.exec (.touch h size createdAtMs cfg.idleTtlMs)).1
  | .lease h job => some (s.exec (.saddLease h job)).1
  | .release h job => some (s.exec (.sremLease h job)).1
  | .put h size => some (s.exec (.putObject h size)).1
  | .env e => s.env e
  | .sweep stuck => some (Sweep.complete cfg stuck s).1

/-- The store with the time since which each hash is collectable, and the time of the first of
the sweeps that, up to the last one, all found it collectable. -/
structure Watched where
  store : Store
  since : Hash → Option ℕ
  seen : Hash → Option ℕ

/-- A hash becomes collectable when its meta key expires, or else on a command. -/
def sinceAfter (s s' : Store) (since : Option ℕ) (h : Hash) : Option ℕ :=
  if s'.Collectable h then
    if s.Collectable h then since
    else some (((s.metaKey h).bind Meta.expireAt).getD s'.now)
  else none

def seenAfter (s s' : Store) (seen : Option ℕ) (h : Hash) : Option ℕ :=
  if h ∈ s'.index ∧ s.Collectable h then some (seen.getD s.now) else none

def Watched.step (cfg : Config) (w : Watched) (e : Event) : Option Watched :=
  (w.store.step cfg e).map fun s =>
    { store := s
      since := fun h => sinceAfter w.store s (w.since h) h
      seen := fun h =>
        match e with
        | .sweep _ => seenAfter w.store s (w.seen h) h
        | _ => w.seen h }

/-- Nothing is stored yet. -/
structure Watched.Fresh (w : Watched) : Prop where
  store : w.store = .empty w.store.now
  since : ∀ h, w.since h = some w.store.now
  seen : ∀ h, w.seen h = none

/-- A blob that a sweep deletes has been collectable for more than the grace period. -/
def HonoursGrace (cfg : Config) (w : Watched) : Event → Prop
  | .sweep stuck => ∀ h, (w.store.objects h).isSome →
      (Sweep.complete cfg stuck w.store).1.objects h = none →
        ∃ c ∈ w.since h, c + cfg.graceMs < w.store.now
  | _ => True

/-- A candidate that is in use again stays in use until a sweep has found it so. -/
def StaysLive (cfg : Config) (w : Watched) : Event → Prop
  | .sweep _ => True
  | e => ∀ s' ∈ w.store.step cfg e, ∀ h ∈ w.store.index, (w.store.candidates h).isSome →
      ¬ w.store.Collectable h → ¬ s'.Collectable h

instance (cfg : Config) (w : Watched) : ∀ e, Decidable (StaysLive cfg w e)
  | .sweep _ => isTrue trivial
  | .touch _ _ _ | .lease _ _ | .release _ _ | .put _ _ | .env _ =>
    inferInstanceAs (Decidable (∀ s' ∈ _, ∀ h ∈ _, _ → _ → _))

variable {cfg : Config} {w w' : Watched} {s s' : Store} {h : Hash} {e : Event}

theorem Watched.step_eq_some :
    w.step cfg e = some w' ↔ w.store.step cfg e = some w'.store ∧
      (∀ h, w'.since h = sinceAfter w.store w'.store (w.since h) h) ∧
      ∀ h, w'.seen h =
        match e with
        | .sweep _ => seenAfter w.store w'.store (w.seen h) h
        | _ => w.seen h := by
  rw [Watched.step, Option.map_eq_some_iff]
  constructor
  · rintro ⟨s, hs, rfl⟩
    exact ⟨hs, fun _ => rfl, fun _ => rfl⟩
  · rintro ⟨hs, hsince, hseen⟩
    obtain ⟨store, since, seen⟩ := w'
    refine ⟨store, hs, ?_⟩
    rw [Watched.mk.injEq]
    exact ⟨rfl, funext fun h => (hsince h).symm, funext fun h => (hseen h).symm⟩

theorem isSome_sinceAfter {since : Option ℕ} (hs : since.isSome ↔ s.Collectable h) :
    (sinceAfter s s' since h).isSome ↔ s'.Collectable h := by
  rw [sinceAfter]
  split
  · next hcol' =>
    split
    · next hcol => exact iff_of_true (hs.mpr hcol) hcol'
    · exact iff_of_true rfl hcol'
  · next hcol' => exact iff_of_false (by simp) hcol'

variable {stuck : List Hash}

theorem swept_of_mem (hn : s.index.Nodup) (hh : h ∈ s.index) :
    Agree h (s.visit cfg stuck s.now h) (s.swept cfg stuck) :=
  foldl_visit_of_mem hn hn hh

theorem swept_of_not_mem (hh : h ∉ s.index) : Agree h s (s.swept cfg stuck) :=
  foldl_visit_agree hh

theorem reclaim_objects : (s.reclaim h).objects h = none := by
  simp [Store.reclaim, Store.exec]

theorem swept_objects_eq_none_iff (hn : s.index.Nodup) (ho : (s.objects h).isSome) :
    (s.swept cfg stuck).objects h = none ↔ h ∈ s.index ∧ s.Reclaims cfg stuck h := by
  have hne : s.objects h ≠ none := Option.isSome_iff_ne_none.mp ho
  by_cases hh : h ∈ s.index
  · rw [(swept_of_mem hn hh).objects]
    by_cases hrec : s.Reclaims cfg stuck h
    · rw [visit_of_reclaims hrec]
      exact iff_of_true reclaim_objects ⟨hh, hrec⟩
    · rw [visit_of_not_reclaims hrec]
      exact iff_of_false hne fun hboth => hrec hboth.2
  · rw [(swept_of_not_mem hh).objects]
    exact iff_of_false hne fun hboth => hh hboth.1

/-- Collectable hashes have a time since when, and the candidates are the hashes that the sweeps
keep seeing collectable, by their first sighting. -/
structure Watched.Kept (w : Watched) : Prop where
  since : ∀ h, (w.since h).isSome ↔ w.store.Collectable h
  candidates : ∀ h, w.store.candidates h = w.seen h
  index : ∀ h, (w.seen h).isSome → h ∈ w.store.index
  nodup : w.store.index.Nodup
  lock : w.store.gcLock = none

theorem kept_of_fresh (hf : w.Fresh) : w.Kept where
  since h := by
    rw [hf.since, hf.store]
    exact iff_of_true rfl ⟨rfl, rfl⟩
  candidates h := by
    rw [hf.seen, hf.store]
    rfl
  index h hs := by
    rw [hf.seen] at hs
    cases hs
  nodup := by
    rw [hf.store]
    exact List.nodup_nil
  lock := by
    rw [hf.store]
    rfl

/-- The users' commands and the environment keep the candidates and every hash of the index. -/
theorem step_frame (hs : s.step cfg e = some s') (he : ∀ stuck, e ≠ .sweep stuck) :
    s'.candidates = s.candidates ∧ (∀ h ∈ s.index, h ∈ s'.index) ∧
      (s.index.Nodup → s'.index.Nodup) ∧ (s.gcLock = none → s'.gcLock = none) := by
  cases e with
  | sweep stuck => exact absurd rfl (he stuck)
  | touch h size createdAtMs =>
    obtain rfl := Option.some.inj hs
    exact ⟨rfl, fun _ => List.mem_insert_of_mem, List.Nodup.insert, id⟩
  | env e =>
    cases e with
    | tick ms =>
      obtain rfl := Option.some.inj hs
      refine ⟨rfl, fun _ => id, id, fun hlock => ?_⟩
      dsimp only
      rw [hlock, Option.filter_none]
    | shuffle hs' =>
      simp only [Store.step, Store.env, Option.ite_none_right_eq_some, Option.some.injEq,
        List.isPerm_iff] at hs
      obtain ⟨hperm, rfl⟩ := hs
      exact ⟨rfl, fun _ => hperm.mem_iff.mpr, hperm.nodup_iff.mpr, id⟩
  | _ =>
    obtain rfl := Option.some.inj hs
    exact ⟨rfl, fun _ => id, id, id⟩

/-- A sweep leaves as score of a hash the first of the sightings that lead up to it. -/
theorem swept_candidates (hk : w.Kept) :
    (w.store.swept cfg stuck).candidates h =
      seenAfter w.store (w.store.swept cfg stuck) (w.seen h) h := by
  rw [seenAfter]
  by_cases hh : h ∈ w.store.index
  · have hvisit : Agree h _ (w.store.swept cfg stuck) := swept_of_mem hk.nodup hh
    simp only [hvisit.candidates, hvisit.index]
    by_cases hrec : w.store.Reclaims cfg stuck h
    · rw [visit_of_reclaims hrec]
      simp [Store.reclaim, Store.exec, hk.nodup.not_mem_erase]
    · rw [visit_of_not_reclaims hrec]
      simp [hh, hk.candidates h]
  · have hframe : Agree h w.store (w.store.swept cfg stuck) := swept_of_not_mem hh
    have hseen : w.seen h = none := by
      by_contra hne
      exact hh (hk.index h (Option.isSome_iff_ne_none.mpr hne))
    simp [hframe.candidates, hframe.index, hk.candidates h, hseen, hh]

theorem sweep_kept (hk : w.Kept) (h : w.step cfg (.sweep stuck) = some w') : w'.Kept := by
  obtain ⟨hs, hsince, hseen⟩ := Watched.step_eq_some.mp h
  obtain ⟨t, -, hswept⟩ := complete_eq_swept cfg stuck hk.lock
  have hstore : w'.store = (w.store.swept cfg stuck).withLock none := by
    rw [← Option.some.inj hs, hswept]
  constructor
  · intro h
    rw [hsince]
    exact isSome_sinceAfter (hk.since h)
  · intro h
    rw [hseen, hstore]
    exact swept_candidates hk
  · intro h hsome
    rw [hseen] at hsome
    simp only [seenAfter] at hsome
    split at hsome
    · next hboth => exact hboth.1
    · cases hsome
  · rw [hstore]
    exact foldl_visit_nodup hk.nodup
  · rw [hstore]
    rfl

theorem step_kept (hk : w.Kept) (h : w.step cfg e = some w') : w'.Kept := by
  by_cases he : ∃ stuck, e = .sweep stuck
  · obtain ⟨stuck, rfl⟩ := he
    exact sweep_kept hk h
  · obtain ⟨hs, hsince, hseen⟩ := Watched.step_eq_some.mp h
    obtain ⟨hcand, hindex, hnodup, hlock⟩ := step_frame hs fun stuck hes => he ⟨stuck, hes⟩
    have hseen : ∀ h, w'.seen h = w.seen h := by
      intro h
      rw [hseen]
      cases e with
      | sweep stuck => exact absurd ⟨stuck, rfl⟩ he
      | _ => rfl
    constructor
    · intro h
      rw [hsince]
      exact isSome_sinceAfter (hk.since h)
    · intro h
      rw [hseen, hcand]
      exact hk.candidates h
    · intro h hsome
      rw [hseen] at hsome
      exact hindex h (hk.index h hsome)
    · exact hnodup hk.nodup
    · exact hlock hk.lock

def Store.Unexpired (s : Store) : Prop :=
  ∀ h, ∀ m ∈ s.metaKey h, ∀ x ∈ m.expireAt, s.now < x

theorem touchedMeta_unexpired {now size createdAtMs reqTtl x : ℕ} {old : Option Meta}
    (hpos : 0 < reqTtl) (hx : x ∈ (touchedMeta now old size createdAtMs reqTtl).expireAt) :
    now < x := by
  simp only [touchedMeta] at hx
  split at hx
  · obtain rfl := Option.some.inj hx
    exact Nat.lt_add_of_pos_right hpos
  · next e he =>
    split at hx
    · obtain rfl := Option.some.inj hx
      exact Nat.lt_add_of_pos_right hpos
    · obtain rfl : e = x := Option.some.inj (he.symm.trans hx)
      omega

theorem swept_metaKey_eq_some {m : Meta} (hn : s.index.Nodup)
    (hm : m ∈ (s.swept cfg stuck).metaKey h) : m ∈ s.metaKey h := by
  by_cases hh : h ∈ s.index
  · rw [(swept_of_mem hn hh).metaKey] at hm
    by_cases hrec : s.Reclaims cfg stuck h
    · rw [visit_of_reclaims hrec] at hm
      simp [Store.reclaim, Store.exec] at hm
    · rwa [visit_of_not_reclaims hrec] at hm
  · rwa [(swept_of_not_mem hh).metaKey] at hm

theorem step_unexpired (hk : w.Kept) (hu : w.store.Unexpired)
    (h : w.step cfg e = some w') : w'.store.Unexpired ∧ w.store.now ≤ w'.store.now := by
  obtain ⟨hs, -, -⟩ := Watched.step_eq_some.mp h
  cases e with
  | touch h₀ size createdAtMs =>
    rw [← Option.some.inj hs]
    refine ⟨fun h' m hm x hx => ?_, le_rfl⟩
    rw [Store.exec, touchScript_metaKey] at hm
    split at hm
    · obtain rfl := Option.some.inj hm
      exact touchedMeta_unexpired cfg.idleTtl_pos hx
    · exact hu h' m hm x hx
  | env e =>
    cases e with
    | tick ms =>
      rw [← Option.some.inj hs]
      refine ⟨fun h' m hm x hx => ?_, Nat.le_add_right _ _⟩
      obtain ⟨-, halive⟩ := Option.filter_eq_some_iff.mp hm
      rw [Meta.alive, Option.mem_def.mp hx] at halive
      exact of_decide_eq_true halive
    | shuffle hs' =>
      simp only [Store.step, Store.env, Option.ite_none_right_eq_some, Option.some.injEq] at hs
      rw [← hs.2]
      exact ⟨hu, le_rfl⟩
  | sweep stuck =>
    obtain ⟨t, -, hswept⟩ := complete_eq_swept cfg stuck hk.lock
    have hnow : (w.store.swept cfg stuck).now = w.store.now := foldl_visit_now
    rw [← Option.some.inj hs, hswept]
    refine ⟨fun h' m hm x hx => ?_, hnow.ge⟩
    exact hnow.symm ▸ hu h' m (swept_metaKey_eq_some hk.nodup hm) x hx
  | _ =>
    rw [← Option.some.inj hs]
    exact ⟨hu, le_rfl⟩

theorem since_of_sinceAfter {c : ℕ} {since : Option ℕ} (hu : s.Unexpired)
    (hle : s.now ≤ s'.now) (hc : c ∈ sinceAfter s s' since h) (hlt : c < s.now) : c ∈ since := by
  rw [sinceAfter] at hc
  split at hc
  · split at hc
    · exact hc
    · rcases hx : (s.metaKey h).bind Meta.expireAt with _ | x
      · rw [hx, Option.getD_none] at hc
        obtain rfl : s'.now = c := Option.some.inj hc
        omega
      · obtain ⟨m, hm, hmx⟩ := Option.bind_eq_some_iff.mp hx
        have hlater := hu h m hm x hmx
        rw [hx, Option.getD_some] at hc
        obtain rfl : x = c := Option.some.inj hc
        omega
  · cases hc

theorem since_of_lt {c : ℕ} {es : List Event} (hk : w.Kept) (hu : w.store.Unexpired)
    (hr : run (Watched.step cfg) w es = some w') (hc : c ∈ w'.since h) :
    Always (Watched.step cfg) (fun u => c < u.store.now → u.Kept ∧ c ∈ u.since h) w es := by
  induction es generalizing w with
  | nil =>
    obtain rfl : w = w' := Option.some.inj hr
    exact fun _ => ⟨hk, hc⟩
  | cons e es ih =>
    obtain ⟨w₁, hs, hr⟩ := run_cons_eq_some.mp hr
    obtain ⟨hu₁, hle⟩ := step_unexpired hk hu hs
    have hrest := ih (step_kept hk hs) hu₁ hr
    refine ⟨fun hlt => ⟨hk, ?_⟩, fun w₂ hs₂ => ?_⟩
    · obtain ⟨-, hsince, -⟩ := Watched.step_eq_some.mp hs
      have hc₁ := (hrest.head (hlt.trans_le hle)).2
      rw [hsince] at hc₁
      exact since_of_sinceAfter hu hle hc₁ hlt
    · obtain rfl : w₁ = w₂ := Option.some.inj (hs.symm.trans hs₂)
      exact hrest

/-- A hash collectable since `c` has been collectable at every moment after `c`. -/
theorem collectable_of_since_lt {c : ℕ} {es : List Event} (hf : w.Fresh)
    (hr : run (Watched.step cfg) w es = some w') (hc : c ∈ w'.since h) :
    Always (Watched.step cfg) (fun u => c < u.store.now → u.store.Collectable h) w es := by
  have hu : w.store.Unexpired := by
    rw [hf.store]
    rintro h' m ⟨⟩
  refine (since_of_lt (kept_of_fresh hf) hu hr hc).mono fun u hall hlt => ?_
  obtain ⟨hk, hcu⟩ := hall hlt
  exact (hk.since h).mp (Option.isSome_of_mem hcu)

theorem expired_of_step (hk : w.Kept) (hs : w.store.step cfg e = some s')
    (hlive : ¬ w.store.Collectable h) (hcol : s'.Collectable h) {x : ℕ}
    (hx : x ∈ (w.store.metaKey h).bind Meta.expireAt) : x ≤ s'.now := by
  obtain ⟨m, hm, hmx⟩ := Option.bind_eq_some_iff.mp hx
  have hgone : s'.metaKey h ≠ some m := fun heq => by
    have hnone := hcol.1
    rw [heq] at hnone
    cases hnone
  cases e with
  | touch h₀ size createdAtMs =>
    obtain rfl := Option.some.inj hs
    rw [Store.exec, touchScript_metaKey] at hgone
    have hnone := hcol.1
    rw [Store.exec, touchScript_metaKey] at hnone
    split at hgone
    · next heq =>
      rw [if_pos heq] at hnone
      cases hnone
    · exact absurd hm hgone
  | env e =>
    cases e with
    | tick ms =>
      obtain rfl := Option.some.inj hs
      by_contra hlt
      refine hgone (Option.filter_eq_some_iff.mpr ⟨hm, ?_⟩)
      rw [Meta.alive, hmx]
      exact decide_eq_true (Nat.lt_of_not_le hlt)
    | shuffle hs' =>
      simp only [Store.step, Store.env, Option.ite_none_right_eq_some, Option.some.injEq] at hs
      rw [← hs.2] at hgone
      exact absurd hm hgone
  | sweep stuck =>
    obtain ⟨t, -, hswept⟩ := complete_eq_swept cfg stuck hk.lock
    have hnot : ¬ w.store.Reclaims cfg stuck h := fun hrec => hlive hrec.1
    have hsame : (w.store.swept cfg stuck).metaKey h = w.store.metaKey h := by
      by_cases hh : h ∈ w.store.index
      · rw [(swept_of_mem hk.nodup hh).metaKey, visit_of_not_reclaims hnot]
      · exact (swept_of_not_mem hh).metaKey
    rw [← Option.some.inj hs, hswept] at hgone
    exact absurd (hsame.trans hm) hgone
  | _ =>
    obtain rfl := Option.some.inj hs
    exact absurd hm hgone

/-- A first sighting is no older than the time since which the hash is collectable. -/
structure Watched.Current (w : Watched) : Prop where
  kept : w.Kept
  unexpired : w.store.Unexpired
  past : ∀ h, ∀ c ∈ w.since h, c ≤ w.store.now
  sighted : ∀ h, ∀ c ∈ w.since h, ∀ t ∈ w.seen h, c ≤ t

theorem current_of_fresh (hf : w.Fresh) : w.Current where
  kept := kept_of_fresh hf
  unexpired := by
    rw [hf.store]
    rintro h' m ⟨⟩
  past h c hc := by
    rw [hf.since] at hc
    exact (Option.some.inj hc).ge
  sighted h c _ t ht := by
    rw [hf.seen] at ht
    cases ht

theorem since_past (hk : w.Kept) (hp : ∀ c ∈ w.since h, c ≤ w.store.now)
    (hle : w.store.now ≤ s'.now) (hs : w.store.step cfg e = some s') :
    ∀ c ∈ sinceAfter w.store s' (w.since h) h, c ≤ s'.now := by
  intro c hc
  rw [sinceAfter] at hc
  split at hc
  · next hcol =>
    split at hc
    · exact (hp c hc).trans hle
    · next hlive =>
      rcases hx : (w.store.metaKey h).bind Meta.expireAt with _ | x
      · rw [hx, Option.getD_none] at hc
        exact (Option.some.inj hc).ge
      · rw [hx, Option.getD_some] at hc
        obtain rfl := Option.some.inj hc
        exact expired_of_step hk hs hlive hcol hx
  · cases hc

theorem step_current (hw : w.Current) (hg : StaysLive cfg w e) (h : w.step cfg e = some w') :
    w'.Current := by
  obtain ⟨hs, hsince, hseen⟩ := Watched.step_eq_some.mp h
  obtain ⟨hu, hle⟩ := step_unexpired hw.kept hw.unexpired h
  refine ⟨step_kept hw.kept h, hu, fun h' => ?_, fun h' c hc t ht => ?_⟩
  · rw [hsince]
    exact since_past hw.kept (hw.past h') hle hs
  · have hcol' : w'.store.Collectable h' :=
      ((step_kept hw.kept h).since h').mp (Option.isSome_of_mem hc)
    rw [hsince, sinceAfter, if_pos hcol'] at hc
    rw [hseen] at ht
    cases e with
    | sweep stuck =>
      -- the sweep has seen the hash collectable, for the first time or once more
      dsimp only [seenAfter] at ht
      split at ht
      · next hboth =>
        rw [if_pos hboth.2] at hc
        cases hseen' : w.seen h' with
        | none =>
          rw [hseen', Option.getD_none] at ht
          exact Option.some.inj ht ▸ hw.past h' c hc
        | some t' =>
          rw [hseen', Option.getD_some] at ht
          exact Option.some.inj ht ▸ hw.sighted h' c hc t' hseen'
      · cases ht
    | _ =>
      have hcand : (w.store.candidates h').isSome := by
        rw [hw.kept.candidates]
        exact Option.isSome_of_mem ht
      have hcol : w.store.Collectable h' :=
        by_contra fun hlive => hg w'.store hs h' (hw.kept.index h' (Option.isSome_of_mem ht)) hcand
          hlive hcol'
      rw [if_pos hcol] at hc
      exact hw.sighted h' c hc t ht

theorem honoursGrace_of_current (hw : w.Current) : HonoursGrace cfg w e := by
  cases e with
  | sweep stuck =>
    intro h ho hdeleted
    obtain ⟨t, -, hswept⟩ := complete_eq_swept cfg stuck hw.kept.lock
    rw [hswept] at hdeleted
    obtain ⟨-, hcol, -, t, ht, hpast⟩ := (swept_objects_eq_none_iff hw.kept.nodup ho).mp hdeleted
    obtain ⟨c, hc⟩ := Option.isSome_iff_exists.mp ((hw.kept.since h).mpr hcol)
    have hle := hw.sighted h c hc t (hw.kept.candidates h ▸ ht)
    exact ⟨c, hc, by omega⟩
  | _ => exact True.intro

/-- Along every history of the blobs in which a candidate that is used again stays in use until the
next sweep, with complete sweeps at any times, the sweeps honour the grace window. -/
theorem honoursGrace_of_staysLive (cfg : Config) (es : List Event) (hf : w.Fresh)
    (hg : EveryStep (Watched.step cfg) (StaysLive cfg) w es) :
    EveryStep (Watched.step cfg) (HonoursGrace cfg) w es := by
  have hall : Always (Watched.step cfg) Watched.Current w es :=
    .of_guarded (fun _ _ _ => step_current) (current_of_fresh hf) hg
  exact EveryStep.of_always_guard (fun _ _ hw _ => honoursGrace_of_current hw) hall hg

/-- An idle TTL of a minute, sweeps every ten, a grace period of half an hour. -/
def shortTtl : Config := ⟨60000, 1800000, 660000, by decide⟩

def nothingStored : Watched := ⟨.empty 0, fun _ => some 0, fun _ => none⟩

theorem nothingStored_fresh : nothingStored.Fresh := ⟨rfl, fun _ => rfl, fun _ => rfl⟩

/-- The blob is uploaded and expires; four sweeps see it collectable. Five minutes after the
fourth it is used again, and it is collectable again before the fifth. -/
def usedBetween : List Event :=
  [.put unstored 5, .touch unstored 5 0, .env (.tick 600000), .sweep [], .env (.tick 600000),
    .sweep [], .env (.tick 600000), .sweep [], .env (.tick 600000), .sweep [],
    .env (.tick 300000), .touch unstored 0 2700000, .env (.tick 300000)]

theorem usedBetween_deleted :
    (run (Watched.step shortTtl) nothingStored usedBetween).map (fun w =>
      ((w.store.objects unstored).isSome, (Sweep.complete shortTtl [] w.store).1.objects unstored,
        w.since unstored, w.store.now)) = some (true, none, some 2760000, 3000000) := by
  decide +kernel

theorem not_always_honoursGrace :
    ¬ ∀ (cfg : Config) (w : Watched) (es : List Event), w.Fresh →
      EveryStep (Watched.step cfg) (HonoursGrace cfg) w es := by
  intro h
  obtain ⟨w', hr, hw'⟩ := Option.map_eq_some_iff.mp usedBetween_deleted
  simp only [Prod.mk.injEq] at hw'
  obtain ⟨hstored, hdeleted, hsince, hnow⟩ := hw'
  have hall := h shortTtl nothingStored (usedBetween ++ [.sweep []]) nothingStored_fresh
  have hlast := ((everyStep_append hr).mp hall).2.1
  obtain ⟨c, hc, hold⟩ := hlast unstored hstored hdeleted
  obtain rfl : 2760000 = c := Option.some.inj (hsince.symm.trans hc)
  rw [hnow] at hold
  exact absurd hold (by decide)

/-- The blob is used again after a sweep has seen it collectable, and is in use at the next. -/
def usedAgain : List Event :=
  [.put unstored 5, .touch unstored 5 0, .env (.tick 600000), .sweep [], .env (.tick 560000),
    .touch unstored 0 1160000, .env (.tick 40000), .sweep [], .env (.tick 600000), .sweep []]

theorem usedAgain_honoursGrace :
    EveryStep (Watched.step shortTtl) (HonoursGrace shortTtl) nothingStored usedAgain := by
  apply honoursGrace_of_staysLive shortTtl usedAgain nothingStored_fresh
  decide +kernel

end CodeRunner.Blob
