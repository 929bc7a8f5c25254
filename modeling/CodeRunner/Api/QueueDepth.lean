import CodeRunner.Api.Execute
import Mathlib.Data.Set.Card

/-! # The depth of the queue

A request is admitted by a look at the length of the queue and adds to it later, so the length is
bounded as long as the check leaves room for the requests between the two.
-/

namespace CodeRunner.Api

open Transition

variable {ι : Type*} {q q' t u : Queue ι} {i : ι}

def Queue.admitted (q : Queue ι) : Set ι := {i | (q.posts i).pc.piped = true}

/-- A request is admitted only if there is room for it and those admitted before. -/
def AdmitsWithin (maxQueueDepth : ℕ) (q : Queue ι) : QueueAct ι → Prop
  | .llen _ _ => q.jobs.length < maxQueueDepth →
      q.jobs.length + q.admitted.ncard < maxQueueDepth
  | _ => True

/-- The queue has room for the admitted requests. -/
structure Queue.Bounded (maxQueueDepth : ℕ) (q : Queue ι) : Prop where
  finite : q.admitted.Finite
  room : q.jobs.length + q.admitted.ncard ≤ maxQueueDepth

theorem Queue.Bounded.start (maxQueueDepth : ℕ) :
    (Queue.start : Queue ι).Bounded maxQueueDepth := by
  have hnone : (Queue.start : Queue ι).admitted = ∅ :=
    Set.eq_empty_of_forall_notMem fun i h => Bool.false_ne_true h
  constructor
  · rw [hnone]
    exact Set.finite_empty
  · rw [hnone, Set.ncard_empty]
    exact Nat.zero_le _

variable [DecidableEq ι] {maxQueueDepth : ℕ} {qa : QueueAct ι} {qas : List (QueueAct ι)}

theorem admitted_setPost_piped {post : Post} (hpost : post.pc.piped = true) :
    (q.setPost i post).admitted = insert i q.admitted := by
  ext j
  by_cases hj : j = i
  · subst hj
    simp [Queue.admitted, hpost]
  · simp [Queue.admitted, setPost_of_ne hj, hj]

theorem admitted_setPost_not_piped {post : Post} (hpost : post.pc.piped = false) :
    (q.setPost i post).admitted = q.admitted \ {i} := by
  ext j
  by_cases hj : j = i
  · subst hj
    simp [Queue.admitted, hpost]
  · simp [Queue.admitted, setPost_of_ne hj, hj]

omit [DecidableEq ι] in
theorem admitted_exec (q : Queue ι) (pc : PostPc) : (q.exec pc).admitted = q.admitted := by
  simp only [Queue.admitted, exec_posts]

inductive DepthTurn (maxQueueDepth : ℕ) (q : Queue ι) : QueueAct ι → Queue ι → Prop where
  | stays (qa : QueueAct ι) (q' : Queue ι) (hadmitted : q'.admitted = q.admitted)
      (hjobs : q'.jobs.length ≤ q.jobs.length) : DepthTurn maxQueueDepth q qa q'
  | admits (i : ι) (jobId : String) (q' : Queue ι) (hlt : q.jobs.length < maxQueueDepth)
      (hadmitted : q'.admitted = insert i q.admitted) (hi : i ∉ q.admitted)
      (hjobs : q'.jobs = q.jobs) : DepthTurn maxQueueDepth q (.llen i jobId) q'
  | ends (i : ι) (ok : Bool) (q' : Queue ι) (hi : i ∈ q.admitted)
      (hadmitted : q'.admitted = q.admitted \ {i})
      (hjobs : q'.jobs.length ≤ q.jobs.length + 1) : DepthTurn maxQueueDepth q (.command i ok) q'

theorem stays_of_idle {pc : PostPc} {results : List Bool} (hold : (q.posts i).pc.piped = false)
    (hpc : pc.piped = false) : DepthTurn maxQueueDepth q qa (q.setPost i ⟨pc, results⟩) := by
  have hi : i ∉ q.admitted := fun h => Bool.false_ne_true (hold.symm.trans h)
  apply DepthTurn.stays
  · rw [admitted_setPost_not_piped hpc, Set.sdiff_singleton_eq_self hi]
  · exact Nat.le_refl _

theorem command_turn (ok : Bool) (hpc : (q.posts i).pc.piped = true) :
    DepthTurn maxQueueDepth q (.command i ok)
      ((if ok then q.exec (q.posts i).pc else q).setPost i
        ⟨(q.posts i).pc.next, (q.posts i).results ++ [ok]⟩) := by
  have hi : i ∈ q.admitted := hpc
  have hexec : (if ok then q.exec (q.posts i).pc else q).admitted = q.admitted := by
    cases ok with
    | false => rfl
    | true => exact admitted_exec q _
  cases hcase : (q.posts i).pc with
  | setSpec spec | setStatus spec =>
    apply DepthTurn.stays
    · rw [admitted_setPost_piped rfl]
      rw [hcase] at hexec
      rw [hexec, Set.insert_eq_of_mem hi]
    · cases ok <;> exact Nat.le_refl _
  | lpush spec =>
    apply DepthTurn.ends i ok _ hi
    · rw [admitted_setPost_not_piped rfl]
      rw [hcase] at hexec
      rw [hexec]
    · cases ok with
      | false => exact Nat.le_succ _
      | true => exact Nat.le_refl _
  | idle | llen | depth | answered =>
    rw [hcase] at hpc
    cases hpc

theorem llen_cases {jobId : String} (h : q.step maxQueueDepth (.llen i jobId) = some q') :
    (q.posts i).pc.piped = false ∧
      ((maxQueueDepth ≤ q.jobs.length ∧ q' = q.setPost i ⟨.depth, []⟩) ∨
        q.jobs.length < maxQueueDepth ∧ ∃ spec, q' = q.setPost i ⟨.setSpec spec, []⟩) := by
  simp only [Queue.step] at h
  split at h
  · next req hpc =>
    rw [hpc]
    split at h
    · next hle => exact ⟨rfl, .inl ⟨hle, (Option.some.inj h).symm⟩⟩
    · next hlt =>
      exact ⟨rfl, .inr ⟨Nat.not_le.mp hlt, req.spec jobId, (Option.some.inj h).symm⟩⟩
  · cases h

theorem depth_turn (h : q.step maxQueueDepth qa = some q') : DepthTurn maxQueueDepth q qa q' := by
  cases qa with
  | post i req =>
    simp only [Queue.step] at h
    split at h
    · next hpc =>
      obtain rfl := Option.some.inj h
      exact stays_of_idle (by rw [hpc]; rfl) rfl
    · cases h
  | llen i jobId =>
    obtain ⟨hold, ⟨-, rfl⟩ | ⟨hlt, spec, rfl⟩⟩ := llen_cases h
    · exact stays_of_idle hold rfl
    · apply DepthTurn.admits i jobId _ hlt (admitted_setPost_piped rfl)
      · exact fun h => Bool.false_ne_true (hold.symm.trans h)
      · rfl
  | depth i =>
    simp only [Queue.step] at h
    split at h
    · next hpc =>
      obtain rfl := Option.some.inj h
      exact stays_of_idle (by rw [hpc]; rfl) rfl
    · cases h
  | command i ok =>
    obtain ⟨hpc, h⟩ := Option.ite_none_right_eq_some.mp h
    obtain rfl := Option.some.inj h
    exact command_turn ok hpc
  | claim =>
    simp only [Queue.step] at h
    split at h
    · cases h
    · obtain rfl := Option.some.inj h
      exact .stays _ _ rfl (by simp)
  | expire jobId =>
    obtain rfl := Option.some.inj h
    exact .stays _ _ rfl (Nat.le_refl _)

theorem Queue.Bounded.step (hq : q.Bounded maxQueueDepth)
    (hwithin : AdmitsWithin maxQueueDepth q qa) (h : q.step maxQueueDepth qa = some q') :
    q'.Bounded maxQueueDepth := by
  obtain ⟨hfinite, hroom⟩ := hq
  cases depth_turn h with
  | stays _ _ hadmitted hjobs =>
    constructor
    · rwa [hadmitted]
    · rw [hadmitted]
      omega
  | admits i jobId _ hlt hadmitted hi hjobs =>
    constructor
    · rw [hadmitted]
      exact hfinite.insert i
    · rw [hadmitted, hjobs, Set.ncard_insert_of_notMem hi hfinite]
      exact hwithin hlt
  | ends i ok _ hi hadmitted hjobs =>
    have hcard := Set.ncard_sdiff_singleton_add_one hi hfinite
    constructor
    · rw [hadmitted]
      exact hfinite.sdiff
    · rw [hadmitted]
      omega

def Pushes (maxQueueDepth : ℕ) (i : ι) (q : Queue ι) : Prop :=
  ∃ qas u, run (Queue.step maxQueueDepth) q qas = some u ∧ u.jobs.length = q.jobs.length + 1 ∧
    u.admitted = q.admitted \ {i}

theorem pushes_of_lpush {spec : JobSpec} (hpc : (q.posts i).pc = .lpush spec) :
    Pushes maxQueueDepth i q := by
  have hs : q.step maxQueueDepth (.command i true) = some _ :=
    if_pos (show (q.posts i).pc.piped = true by rw [hpc]; rfl)
  refine ⟨[.command i true], _, (run_cons_of_step hs).trans rfl, ?_, ?_⟩
  · rw [if_pos rfl, hpc]
    rfl
  · rw [admitted_setPost_not_piped (by rw [hpc]; rfl), if_pos rfl, admitted_exec]

theorem Pushes.of_next (hpc : (q.posts i).pc.piped = true)
    (hnext : (q.posts i).pc.next.piped = true) (hjobs : (q.exec (q.posts i).pc).jobs = q.jobs)
    (h : ∀ u : Queue ι, (u.posts i).pc = (q.posts i).pc.next → Pushes maxQueueDepth i u) :
    Pushes maxQueueDepth i q := by
  have hs : q.step maxQueueDepth (.command i true) = some _ := if_pos hpc
  obtain ⟨qas, u, hr, hlen, hadmitted⟩ := h
    ((q.exec (q.posts i).pc).setPost i ⟨(q.posts i).pc.next, (q.posts i).results ++ [true]⟩)
    (by rw [setPost_self])
  refine ⟨.command i true :: qas, u, (run_cons_of_step hs).trans hr, ?_, ?_⟩
  · rw [hlen, ← hjobs]
    rfl
  · have hi : i ∈ q.admitted := hpc
    rw [hadmitted, admitted_setPost_piped hnext, admitted_exec, Set.insert_eq_of_mem hi]

theorem pushes_of_setStatus {spec : JobSpec} (hpc : (q.posts i).pc = .setStatus spec) :
    Pushes maxQueueDepth i q := by
  apply Pushes.of_next
  · rw [hpc]
    rfl
  · rw [hpc]
    rfl
  · rw [hpc]
    rfl
  · intro u hu
    rw [hpc] at hu
    exact pushes_of_lpush hu

theorem pushes_of_admitted (hi : i ∈ q.admitted) : Pushes maxQueueDepth i q := by
  have hpiped : (q.posts i).pc.piped = true := hi
  cases hpc : (q.posts i).pc with
  | setSpec spec =>
    apply Pushes.of_next hpiped
    · rw [hpc]
      rfl
    · rw [hpc]
      rfl
    · intro u hu
      rw [hpc] at hu
      exact pushes_of_setStatus hu
  | setStatus spec => exact pushes_of_setStatus hpc
  | lpush spec => exact pushes_of_lpush hpc
  | idle | llen | depth | answered =>
    rw [hpc] at hpiped
    cases hpiped

theorem exists_pushes (maxQueueDepth : ℕ) (hfinite : q.admitted.Finite) :
    ∃ qas u, run (Queue.step maxQueueDepth) q qas = some u ∧
      u.jobs.length = q.jobs.length + q.admitted.ncard := by
  induction hn : q.admitted.ncard generalizing q with
  | zero => exact ⟨[], q, rfl, rfl⟩
  | succ n ih =>
    obtain ⟨i, hi⟩ := Set.nonempty_of_ncard_ne_zero (by omega : q.admitted.ncard ≠ 0)
    obtain ⟨qas, u, hr, hlen, hadmitted⟩ : Pushes maxQueueDepth i q := pushes_of_admitted hi
    have hcard := Set.ncard_sdiff_singleton_add_one hi hfinite
    rw [← hadmitted] at hcard
    obtain ⟨qbs, v, hr', hlen'⟩ := ih (hadmitted ▸ hfinite.sdiff) (by omega)
    refine ⟨qas ++ qbs, v, ?_, by omega⟩
    rw [run_append, hr, Option.bind_some, hr']

theorem step_admitted_finite (hq : q.admitted.Finite) (h : q.step maxQueueDepth qa = some q') :
    q'.admitted.Finite := by
  cases depth_turn h with
  | stays _ _ hadmitted => rwa [hadmitted]
  | admits i jobId _ hlt hadmitted =>
    rw [hadmitted]
    exact hq.insert i
  | ends i ok _ hi hadmitted =>
    rw [hadmitted]
    exact hq.sdiff

theorem run_admitted_finite (hr : run (Queue.step maxQueueDepth) .start qas = some t) :
    t.admitted.Finite := by
  have hstart : (Queue.start : Queue ι).admitted.Finite := (Queue.Bounded.start 0).finite
  have hall : Always (Queue.step maxQueueDepth) (fun q => q.admitted.Finite) .start qas :=
    .of_invariant (fun _ _ _ => step_admitted_finite) hstart
  exact hall.last hr

/-- If every check leaves room for the requests admitted before, the queue is never longer than
its bound, and an admission without that room can be followed by a longer queue. -/
theorem queue_bounded (hr : run (Queue.step maxQueueDepth) .start qas = some t) :
    (EveryStep (Queue.step maxQueueDepth) (AdmitsWithin maxQueueDepth) .start qas →
      Always (Queue.step maxQueueDepth) (fun q => q.jobs.length ≤ maxQueueDepth) .start qas) ∧
    ∀ qa u, t.step maxQueueDepth qa = some u → ¬ AdmitsWithin maxQueueDepth t qa →
      ∃ qbs v, run (Queue.step maxQueueDepth) .start (qas ++ qa :: qbs) = some v ∧
        maxQueueDepth < v.jobs.length := by
  constructor
  · intro hwithin
    have hall : Always (Queue.step maxQueueDepth) (Queue.Bounded maxQueueDepth) .start qas :=
      .of_guarded (fun _ _ _ hq hw => hq.step hw) (.start _) hwithin
    exact hall.mono fun q hq => Nat.le_trans (Nat.le_add_right _ _) hq.room
  · intro qa u hs hnot
    have hfinite := run_admitted_finite hr
    cases qa with
    | llen i jobId =>
      obtain ⟨hlt, hfull⟩ := Classical.not_imp.mp hnot
      obtain ⟨hold, ⟨hle, -⟩ | ⟨-, spec, rfl⟩⟩ := llen_cases hs
      · exact absurd hlt (Nat.not_lt.mpr hle)
      · have hi : i ∉ t.admitted := fun h => Bool.false_ne_true (hold.symm.trans h)
        have hcard := Set.ncard_insert_of_notMem hi hfinite
        obtain ⟨qbs, v, hbs, hlen⟩ := exists_pushes maxQueueDepth (step_admitted_finite hfinite hs)
        rw [admitted_setPost_piped rfl, hcard] at hlen
        refine ⟨qbs, v, ?_, ?_⟩
        · rw [run_append, hr, Option.bind_some, run_cons_of_step hs, hbs]
        · rw [hlen]
          exact Nat.lt_succ_of_le (Nat.not_lt.mp hfull)
    | _ => exact absurd True.intro hnot

/-- The second request is checked before the first has got to the queue. -/
def checkRace : List (QueueAct Bool) :=
  [.post false scriptRequest, .post true scriptRequest, .llen false "a", .llen true "b",
    .command false true, .command false true, .command false true,
    .command true true, .command true true, .command true true]

theorem queue_exceeds_depth :
    ¬ ∀ (qas : List (QueueAct Bool)) (t : Queue Bool), run (Queue.step 1) .start qas = some t →
      Always (Queue.step 1) (fun q => q.jobs.length ≤ 1) .start qas := by
  intro hall
  obtain ⟨t, hr, hjobs⟩ : ∃ t, run (Queue.step 1) .start checkRace = some t ∧
      t.jobs = ["b", "a"] := ⟨_, rfl, rfl⟩
  have hlen := (hall _ t hr).last hr
  rw [hjobs] at hlen
  exact absurd hlen (by decide)

theorem queue_bounded_postScript :
    Always (Queue.step 100) (fun q => q.jobs.length ≤ 100) .start (postScript true true true) := by
  obtain ⟨t, hr⟩ : ∃ t, run (Queue.step 100) .start (postScript true true true) = some t :=
    ⟨_, rfl⟩
  apply (queue_bounded hr).1
  refine ⟨True.intro, fun q hs => ⟨fun _ => ?_, fun _ _ => ?_⟩⟩
  · obtain rfl := Option.some.inj hs
    have hone := Set.ncard_le_one_of_subsingleton
      (Queue.start.setPost () ⟨.llen scriptRequest, []⟩).admitted
    exact Nat.lt_of_le_of_lt (Nat.add_le_add_left hone 0) (by decide)
  · exact ⟨True.intro, fun _ _ => ⟨True.intro, fun _ _ => ⟨True.intro, fun _ _ => True.intro⟩⟩⟩

end CodeRunner.Api
