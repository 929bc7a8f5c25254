import CodeRunner.Reaper.Sweep

/-! # Safety of the reaper

A sweep spares the jobs that it has read from the sets of live workers. What it reads is older
than the containers it lists, so a job is missed only where a read fails, or where a worker that
was taken for dead has a heartbeat again.
-/

namespace CodeRunner.Reaper

open Transition

/-- The jobs of the containers that a sweep has listed and not dealt with. -/
def Sweep.jobs : Sweep → List String
  | .idle => []
  | .scanning cs _ _ | .checking cs _ _ | .reading cs _ _ | .evaluating cs _
  | .cleaning _ _ _ cs _ => cs.map (·.jobID)
  | .removing c cs _ => c.jobID :: cs.map (·.jobID)

/-- A sweep will not find in the set of a worker that it owns a job. -/
def Sweep.Misses (w jobID : String) : Sweep → Prop
  | .idle => False
  | .scanning _ _ lasting => w ∉ lasting
  | .checking _ keys liveIDs => workerJobsKey w ∉ keys ∧ w ∉ liveIDs
  | .reading _ ws liveJobs => w ∉ ws ∧ jobID ∉ liveJobs
  | .evaluating _ liveJobs | .cleaning _ _ _ _ liveJobs => jobID ∉ liveJobs
  | .removing c _ liveJobs => jobID = c.jobID ∨ jobID ∉ liveJobs

def Cluster.Overlooks (s : Cluster) (r w : String) : Prop :=
  ∃ jobID ∈ (s.sweep r).jobs, (w, jobID) ∈ s.owned ∧ (s.sweep r).Misses w jobID

def Cluster.Unlisted (s : Cluster) (w : String) (cs : List Container) : Prop :=
  w ∈ s.beating → ∀ c ∈ cs, (w, c.jobID) ∉ s.owned

/-- The calls of a sweep fail only for workers that are dead or own no job of a listed container,
and a worker that a sweep overlooks does not get a heartbeat. -/
def Careful (s : Cluster) : Act → Prop
  | .worker (.heartbeat w) => ∀ r, ¬ s.Overlooks r w
  | .sweep r (.heartbeatAlive false) =>
    match s.sweep r with
    | .checking cs (k :: _) _ => s.Unlisted (extractWorkerID k) cs
    | _ => True
  | .sweep r (.ownedJobs false) =>
    match s.sweep r with
    | .reading cs (w :: _) _ => s.Unlisted w cs
    | _ => True
  | _ => True

variable {minAge now : ℕ} {s s' t : Cluster} {q q' : Sweep} {r w jobID k : String} {a : Act}
  {act : SweepAct} {acts : List Act} {owned owned' : Finset (String × String)}

theorem extractWorkerID_workerJobsKey (w : String) : extractWorkerID (workerJobsKey w) = w := by
  have hpre : workerJobsKeyPrefix.toList <+: (workerJobsKey w).toList := by
    rw [workerJobsKey, String.toList_append, String.toList_append, List.append_assoc]
    exact List.prefix_append _ _
  have hsuf : workerJobsKeySuffix.toList <:+ (workerJobsKey w).toList := by
    rw [workerJobsKey, String.toList_append]
    exact List.suffix_append _ _
  have htake : (workerJobsKey w).toList.take
      ((workerJobsKey w).length - workerJobsKeySuffix.length) =
        workerJobsKeyPrefix.toList ++ w.toList := by
    rw [workerJobsKey, String.toList_append, String.toList_append]
    apply List.take_left'
    rw [String.length_append, String.length_append, Nat.add_sub_cancel, List.length_append,
      String.length_toList, String.length_toList]
  rw [extractWorkerID, if_pos ⟨hpre, hsuf⟩, htake, ← String.length_toList, List.drop_left,
    String.ofList_toList]

theorem mem_ownedJobs : jobID ∈ s.ownedJobs w ↔ (w, jobID) ∈ s.owned := by
  simp [Cluster.ownedJobs]

theorem mem_keysOf (h : (w, jobID) ∈ owned) : w ∈ keysOf owned :=
  Finset.mem_image_of_mem Prod.fst h

def Phase.OwnedBy (w : String) : Phase → Prop
  | .owned w' | .created w' | .done w' => w = w'
  | _ => False

def Phase.Created : Phase → Prop
  | .created _ | .done _ => True
  | _ => False

def Phase.Named : Phase → Prop
  | .queued => True
  | .claimed w | .owned w | .created w | .done w => w ≠ ""

inductive Phase.Next : Phase → Phase → Prop
  | claim {w : String} (h : w ≠ "") : Next .queued (.claimed w)
  | own (w : String) : Next (.claimed w) (.owned w)
  | create (w : String) : Next (.owned w) (.created w)
  | rollback (w : String) : Next (.owned w) (.done w)
  | teardown (w : String) : Next (.created w) (.done w)

variable {p p' : Phase}

theorem Phase.Next.named (h : p.Next p') (hp : p.Named) : p'.Named := by
  cases h with
  | claim hw => exact hw
  | _ => exact hp

theorem Phase.Next.ownedBy (h : p.Next p') (hp : p.OwnedBy w) : p'.OwnedBy w := by
  cases h with
  | claim | own => cases hp
  | _ => exact hp

theorem Phase.Next.created (h : p.Next p') (hp : p.Created) : p'.Created := by
  cases h with
  | teardown => exact True.intro
  | _ => cases hp

/-- A job is owned before its container is created, what is listed has been created, and the
workers that a sweep overlooks are dead. -/
structure Inv (s : Cluster) : Prop where
  named : ∀ jobID, (s.phase jobID).Named
  owner : ∀ w jobID, (w, jobID) ∈ s.owned → (s.phase jobID).OwnedBy w
  created : ∀ c ∈ s.containers, (s.phase c.jobID).Created
  listed : ∀ r, ∀ jobID ∈ (s.sweep r).jobs, (s.phase jobID).Created
  dead : ∀ r w, s.Overlooks r w → w ∉ s.beating

theorem jobs_refresh : (q.refresh owned).jobs = q.jobs := by cases q <;> rfl

theorem misses_of_refresh (hw : (w, jobID) ∈ owned) (hm : (q.refresh owned).Misses w jobID) :
    q.Misses w jobID := by
  cases q with
  | scanning cs keys lasting =>
    intro hmem
    exact hm (Finset.mem_inter.mpr ⟨hmem, mem_keysOf hw⟩)
  | _ => exact hm

theorem Inv.start : Inv .start := by
  constructor
  · exact fun _ => True.intro
  · nofun
  · nofun
  · exact fun _ => nofun
  · rintro r w ⟨jobID, hj, -⟩
    cases hj

theorem setPhase_self (s : Cluster) (jobID : String) (p : Phase) :
    (s.setPhase jobID p).phase jobID = p := Function.update_self _ _ _

theorem Inv.setPhase (hi : Inv s) (hp : (s.phase jobID).Next p) : Inv (s.setPhase jobID p) := by
  have hof : ∀ {P : Phase → Prop} {j : String}, P (s.phase j) → (P (s.phase jobID) → P p) →
      P ((s.setPhase jobID p).phase j) := by
    intro P j hj hp
    change P (Function.update s.phase jobID p j)
    by_cases h : j = jobID
    · subst h
      rw [Function.update_self]
      exact hp hj
    · rw [Function.update_of_ne h]
      exact hj
  constructor
  · exact fun j => hof (hi.named j) hp.named
  · exact fun w j hw => hof (hi.owner w j hw) hp.ownedBy
  · exact fun c hc => hof (hi.created c hc) hp.created
  · exact fun r j hj => hof (hi.listed r j hj) hp.created
  · exact hi.dead

theorem Inv.setOwned (hi : Inv s)
    (howner : ∀ w jobID, (w, jobID) ∈ owned → (s.phase jobID).OwnedBy w)
    (hsub : ∀ w jobID, (s.phase jobID).Created → (w, jobID) ∈ owned → (w, jobID) ∈ s.owned) :
    Inv (s.setOwned owned) := by
  constructor
  · exact hi.named
  · exact howner
  · exact hi.created
  · intro r j hj
    apply hi.listed r j
    exact jobs_refresh ▸ hj
  · rintro r w ⟨j, hj, hw, hm⟩
    have hj : j ∈ (s.sweep r).jobs := jobs_refresh ▸ hj
    exact hi.dead r w ⟨j, hj, hsub w j (hi.listed r j hj) hw, misses_of_refresh hw hm⟩

theorem Inv.erase (hi : Inv s) : Inv (s.setOwned (s.owned.erase (w, jobID))) :=
  hi.setOwned (fun w j hw => hi.owner w j (Finset.mem_of_mem_erase hw))
    fun _ _ _ hw => Finset.mem_of_mem_erase hw

theorem Inv.setContainers {cs : List Container} (hi : Inv s)
    (hcs : ∀ c ∈ cs, (s.phase c.jobID).Created) : Inv { s with containers := cs } :=
  ⟨hi.named, hi.owner, hcs, hi.listed, hi.dead⟩

theorem work_inv {act : WorkerAct} (hi : Inv s) (hg : Careful s (.worker act))
    (h : s.work act = some s') : Inv s' := by
  cases act with
  | heartbeat w =>
    obtain rfl := Option.some.inj h
    refine ⟨hi.named, hi.owner, hi.created, hi.listed, fun r w' hmiss hbeat => ?_⟩
    rcases Finset.mem_insert.mp hbeat with rfl | hbeat
    · exact hg r hmiss
    · exact hi.dead r w' hmiss hbeat
  | expire w =>
    obtain rfl := Option.some.inj h
    refine ⟨hi.named, hi.owner, hi.created, hi.listed, fun r w' hmiss hbeat => ?_⟩
    exact hi.dead r w' hmiss (Finset.mem_of_mem_erase hbeat)
  | claim w jobID =>
    obtain ⟨⟨hw, hq⟩, ⟨⟩⟩ := Option.ite_none_right_eq_some.mp h
    exact hi.setPhase (hq ▸ .claim hw)
  | addOwnedJob jobID applied =>
    simp only [Cluster.work] at h
    split at h
    · next w hp =>
      have hi' : Inv (s.setPhase jobID (.owned w)) := hi.setPhase (hp ▸ .own w)
      have hphase := setPhase_self s jobID (.owned w)
      obtain rfl := Option.some.inj h
      split
      · apply hi'.setOwned
        · intro w' j hw'
          rcases Finset.mem_insert.mp hw' with heq | hw'
          · obtain ⟨rfl, rfl⟩ := Prod.mk.inj heq
            rw [hphase]
            rfl
          · exact hi'.owner w' j hw'
        · intro w' j hc hw'
          rcases Finset.mem_insert.mp hw' with heq | hw'
          · obtain ⟨rfl, rfl⟩ := Prod.mk.inj heq
            rw [hphase] at hc
            cases hc
          · exact hw'
      · exact hi'
    · cases h
  | create jobID id =>
    simp only [Cluster.work] at h
    split at h
    · next w hp =>
      have hi' : Inv (s.setPhase jobID (.created w)) := hi.setPhase (hp ▸ .create w)
      obtain ⟨-, ⟨⟩⟩ := Option.ite_none_left_eq_some.mp h
      apply hi'.setContainers
      intro c hc
      rcases List.mem_append.mp hc with hc | hc
      · exact hi'.created c hc
      · obtain rfl := List.mem_singleton.mp hc
        rw [setPhase_self]
        exact True.intro
    · cases h
  | removeOwnedJob jobID applied =>
    simp only [Cluster.work] at h
    split at h
    · next w hp =>
      have hi' : Inv (s.setPhase jobID (.done w)) := hi.setPhase (hp ▸ .rollback w)
      obtain rfl := Option.some.inj h
      split
      · exact hi'.erase
      · exact hi'
    · next w hp =>
      have hi' : Inv (s.setPhase jobID (.done w)) := hi.setPhase (hp ▸ .teardown w)
      obtain rfl := Option.some.inj h
      split
      · exact hi'.erase
      · exact hi'
    · cases h
  | cleanup jobID =>
    have hfilter : Inv { s with containers := s.containers.filter (·.jobID ≠ jobID) } :=
      hi.setContainers fun c hc => hi.created c (List.mem_of_mem_filter hc)
    simp only [Cluster.work] at h
    split at h
    · obtain rfl := Option.some.inj h
      exact hfilter
    · obtain rfl := Option.some.inj h
      exact hfilter
    · cases h

/-- A sweep goes on with some of its jobs, and misses none that it has not missed before. -/
structure GoesOn (q q' : Sweep) : Prop where
  jobs : ∀ jobID ∈ q'.jobs, jobID ∈ q.jobs
  misses : ∀ w jobID, w ≠ "" → q'.Misses w jobID → q.Misses w jobID

/-- A sweep lists the containers, learns of a worker whether it is alive, learns its jobs, or
goes on. -/
inductive Goes (s : Cluster) : Sweep → SweepAct → Sweep → Prop
  | list : Goes s .idle (.containerList true) (.scanning s.containers [] (keysOf s.owned))
  | check (cs : List Container) (k : String) (keys liveIDs : List String) (ok : Bool) :
      Goes s (.checking cs (k :: keys) liveIDs) (.heartbeatAlive ok) (.checking cs keys
        (if ok = true ∧ extractWorkerID k ∈ s.beating then liveIDs ++ [extractWorkerID k]
          else liveIDs))
  | read (cs : List Container) (w : String) (ws : List String) (liveJobs : Finset String)
      (ok : Bool) :
      Goes s (.reading cs (w :: ws) liveJobs) (.ownedJobs ok) (.reading cs ws
        (if ok then liveJobs ∪ s.ownedJobs w else liveJobs))
  | on {q q' : Sweep} {act : SweepAct} (h : GoesOn q q') : Goes s q act q'

theorem GoesOn.of_eq (hj : q'.jobs = q.jobs)
    (hm : ∀ w jobID, q'.Misses w jobID ↔ q.Misses w jobID) : GoesOn q q' :=
  ⟨fun _ h => hj ▸ h, fun w jobID _ => (hm w jobID).mp⟩

theorem GoesOn.idle (q : Sweep) : GoesOn q .idle := ⟨nofun, nofun⟩

/-- A container of a job that is missed was missed before, or has just been found old. -/
theorem evaluate_goesOn (c : Container) (cs : List Container) (liveJobs : Finset String) :
    GoesOn (.evaluating (c :: cs) liveJobs) (Sweep.evaluate minAge now liveJobs c cs) := by
  have hskip : GoesOn (.evaluating (c :: cs) liveJobs) (.evaluating cs liveJobs) :=
    ⟨fun _ hj => List.mem_cons_of_mem _ hj, fun _ _ _ hm => hm⟩
  unfold Sweep.evaluate
  split
  · exact hskip
  · split
    · exact hskip
    · next hlive =>
      split
      · exact hskip
      · refine ⟨fun _ hj => hj, fun w jobID _ hm => ?_⟩
        rcases hm with rfl | hm
        · exact hlive
        · exact hm

theorem removing_goesOn (c : Container) {cs : List Container} {liveJobs : Finset String}
    (hj : q.jobs = cs.map (·.jobID)) (hm : ∀ w jobID, q.Misses w jobID ↔ jobID ∉ liveJobs) :
    GoesOn (.removing c cs liveJobs) q := by
  constructor
  · exact fun jobID h => List.mem_cons_of_mem _ (hj ▸ h)
  · exact fun w jobID _ h => .inr ((hm w jobID).mp h)

theorem step_goes (h : q.step minAge s act = some q') : Goes s q act q' := by
  unfold Sweep.step at h
  split at h
  · split at h
    · next ok hlist =>
      obtain rfl := Option.some.inj h
      rw [hlist.1]
      exact .list
    · obtain rfl := Option.some.inj h
      exact .on (.idle _)
  · split at h
    · obtain rfl := Option.some.inj h
      exact .on ⟨fun _ hj => hj, fun _ _ _ hm => hm⟩
    · -- after its last page a scan has returned the keys that were there throughout
      obtain ⟨hall, ⟨⟩⟩ := Option.ite_none_right_eq_some.mp h
      exact .on ⟨fun _ hj => hj, fun w _ _ hm hlast => hm.1 (hall w hlast)⟩
  · obtain rfl := Option.some.inj h
    exact .on (.idle _)
  · next cs k keys liveIDs ok =>
    obtain ⟨-, ⟨⟩⟩ := Option.ite_none_left_eq_some.mp h
    exact .check cs k keys liveIDs ok
  · next cs k keys liveIDs =>
    obtain ⟨hempty, ⟨⟩⟩ := Option.ite_none_right_eq_some.mp h
    refine .on ⟨fun _ hj => hj, fun w _ hne hm => ⟨fun hmem => ?_, hm.2⟩⟩
    rcases List.mem_cons.mp hmem with rfl | hmem
    · rw [extractWorkerID_workerJobsKey] at hempty
      exact hne hempty
    · exact hm.1 hmem
  · obtain rfl := Option.some.inj h
    exact .on ⟨fun _ hj => hj, fun _ _ _ hm => ⟨List.not_mem_nil, hm.1⟩⟩
  · next cs w ws liveJobs ok =>
    obtain rfl := Option.some.inj h
    exact .read cs w ws liveJobs ok
  · obtain rfl := Option.some.inj h
    exact .on ⟨fun _ hj => hj, fun _ _ _ hm => ⟨List.not_mem_nil, hm⟩⟩
  · obtain rfl := Option.some.inj h
    exact .on (.idle _)
  · obtain rfl := Option.some.inj h
    exact .on (evaluate_goesOn _ _ _)
  · split at h
    · obtain rfl := Option.some.inj h
      exact .on (removing_goesOn _ rfl fun _ _ => Iff.rfl)
    · obtain ⟨-, ⟨⟩⟩ := Option.ite_none_right_eq_some.mp h
      exact .on (removing_goesOn _ rfl fun _ _ => Iff.rfl)
    · obtain ⟨-, ⟨⟩⟩ := Option.ite_none_left_eq_some.mp h
      exact .on (removing_goesOn _ rfl fun _ _ => Iff.rfl)
  · obtain rfl := Option.some.inj h
    exact .on (.of_eq rfl fun _ _ => Iff.rfl)
  · obtain rfl := Option.some.inj h
    exact .on (.of_eq rfl fun _ _ => Iff.rfl)
  · obtain rfl := Option.some.inj h
    exact .on (.of_eq rfl fun _ _ => Iff.rfl)
  · obtain ⟨-, ⟨⟩⟩ := Option.ite_none_right_eq_some.mp h
    exact .on (.of_eq rfl fun _ _ => Iff.rfl)
  · obtain ⟨-, ⟨⟩⟩ := Option.ite_none_left_eq_some.mp h
    exact .on (.of_eq rfl fun _ _ => Iff.rfl)
  · cases h

theorem Goes.jobs (h : Goes s q act q') (hj : jobID ∈ q'.jobs) :
    jobID ∈ q.jobs ∨ ∃ c ∈ s.containers, c.jobID = jobID := by
  cases h with
  | list => exact .inr (List.mem_map.mp hj)
  | check | read => exact .inl hj
  | on h => exact .inl (h.jobs jobID hj)

/-- A key that has been checked is missed only if its worker has no heartbeat, or the check
failed. -/
theorem check_misses {cs : List Container} {keys liveIDs : List String} {ok : Bool}
    (hm : (Sweep.checking cs keys (if ok = true ∧ extractWorkerID k ∈ s.beating then
      liveIDs ++ [extractWorkerID k] else liveIDs)).Misses w jobID) :
    (Sweep.checking cs (k :: keys) liveIDs).Misses w jobID ∨
      k = workerJobsKey w ∧ (ok = false ∨ w ∉ s.beating) := by
  by_cases hk : workerJobsKey w = k
  · subst hk
    refine .inr ⟨rfl, ?_⟩
    rw [extractWorkerID_workerJobsKey] at hm
    by_contra hnot
    rw [not_or, Bool.not_eq_false, not_not] at hnot
    apply hm.2
    rw [if_pos hnot]
    exact List.mem_append_right _ List.mem_cons_self
  · refine .inl ⟨fun hmem => ?_, fun hmem => hm.2 ?_⟩
    · rcases List.mem_cons.mp hmem with heq | hmem
      · exact hk heq
      · exact hm.1 hmem
    · split
      · exact List.mem_append_left _ hmem
      · exact hmem

theorem read_misses {cs : List Container} {w' : String} {ws : List String}
    {liveJobs : Finset String} {ok : Bool} (hw : (w, jobID) ∈ s.owned)
    (hm : (Sweep.reading cs ws (if ok then liveJobs ∪ s.ownedJobs w' else liveJobs)).Misses w
      jobID) :
    (Sweep.reading cs (w' :: ws) liveJobs).Misses w jobID ∨ w' = w ∧ ok = false := by
  by_cases hk : w = w'
  · subst hk
    cases ok with
    | true => exact absurd (Finset.mem_union_right _ (mem_ownedJobs.mpr hw)) hm.2
    | false => exact .inr ⟨rfl, rfl⟩
  · refine .inl ⟨fun hmem => ?_, fun hmem => hm.2 ?_⟩
    · rcases List.mem_cons.mp hmem with heq | hmem
      · exact hk heq
      · exact hm.1 hmem
    · split
      · exact Finset.mem_union_left _ hmem
      · exact hmem

theorem Goes.overlooks (h : Goes s (s.sweep r) act q') (hg : Careful s (.sweep r act))
    (hne : w ≠ "") (hw : (w, jobID) ∈ s.owned) (hj : jobID ∈ q'.jobs) (hm : q'.Misses w jobID)
    (hbeat : w ∈ s.beating) : s.Overlooks r w := by
  generalize hq : s.sweep r = q at h
  have hold : jobID ∈ q.jobs → q.Misses w jobID → s.Overlooks r w := fun hj hm =>
    ⟨jobID, hq ▸ hj, hw, hq ▸ hm⟩
  cases h with
  | list => exact absurd (mem_keysOf hw) hm
  | check cs k keys liveIDs ok =>
    rcases check_misses hm with hm | ⟨rfl, rfl | hdead⟩
    · exact hold hj hm
    · simp only [Careful, hq, extractWorkerID_workerJobsKey] at hg
      obtain ⟨c, hc, rfl⟩ := List.mem_map.mp hj
      exact absurd hw (hg hbeat c hc)
    · exact absurd hbeat hdead
  | read cs w' ws liveJobs ok =>
    rcases read_misses hw hm with hm | ⟨rfl, rfl⟩
    · exact hold hj hm
    · simp only [Careful, hq] at hg
      obtain ⟨c, hc, rfl⟩ := List.mem_map.mp hj
      exact absurd hw (hg hbeat c hc)
  | on h => exact hold (h.jobs jobID hj) (h.misses w jobID hne hm)

theorem Inv.ne_empty (hi : Inv s) (hw : (w, jobID) ∈ s.owned) : w ≠ "" := by
  have howner := hi.owner w jobID hw
  have hnamed := hi.named jobID
  cases hp : s.phase jobID with
  | queued | claimed w' =>
    rw [hp] at howner
    cases howner
  | owned w' | created w' | done w' =>
    rw [hp] at howner hnamed
    obtain rfl : w = w' := howner
    exact hnamed

theorem effect_inv (hi : Inv s) : Inv (q.effect s act) := by
  unfold Sweep.effect
  split
  · exact hi.setContainers fun c hc => hi.created c (List.mem_of_mem_erase hc)
  · exact hi.erase
  · exact hi

theorem sweep_inv (hi : Inv s) (hg : Careful s (.sweep r act))
    (h : s.sweepStep minAge r act = some s') : Inv s' := by
  obtain ⟨q, hq, rfl⟩ := Option.map_eq_some_iff.mp h
  apply effect_inv
  have hof : ∀ {P : Sweep → Prop} {r' : String}, P (s.sweep r') → P q →
      P (Function.update s.sweep r q r') := by
    intro P r' hr' hp
    by_cases hr : r' = r
    · subst hr
      rw [Function.update_self]
      exact hp
    · rw [Function.update_of_ne hr]
      exact hr'
  constructor
  · exact hi.named
  · exact hi.owner
  · exact hi.created
  · intro r'
    apply hof (P := fun q => ∀ jobID ∈ q.jobs, (s.phase jobID).Created) (hi.listed r')
    intro jobID hj
    rcases (step_goes hq).jobs hj with hj | ⟨c, hc, rfl⟩
    · exact hi.listed r jobID hj
    · exact hi.created c hc
  · intro r' w
    apply hof (P := fun q => (∃ jobID ∈ q.jobs, (w, jobID) ∈ s.owned ∧ q.Misses w jobID) →
      w ∉ s.beating) (hi.dead r' w)
    rintro ⟨jobID, hj, hw, hm⟩ hbeat
    exact hi.dead r w ((step_goes hq).overlooks hg (hi.ne_empty hw) hw hj hm hbeat) hbeat

theorem step_inv (hi : Inv s) (hg : Careful s a) (h : s.step minAge a = some s') : Inv s' := by
  cases a with
  | tick seconds =>
    obtain rfl := Option.some.inj h
    exact ⟨hi.named, hi.owner, hi.created, hi.listed, hi.dead⟩
  | worker act => exact work_inv hi hg h
  | sweep r act => exact sweep_inv hi hg h

theorem Inv.spares (hi : Inv s) (a : Act) : Spares s a := by
  cases a with
  | tick seconds => exact True.intro
  | worker act => exact True.intro
  | sweep r act =>
    cases act with
    | containerRemove res =>
      cases hq : s.sweep r with
      | removing c cs liveJobs =>
        simp only [Spares, hq]
        intro w hbeat hw
        apply hi.dead r w _ hbeat
        rw [Cluster.Overlooks, hq]
        exact ⟨c.jobID, List.mem_cons_self, hw, .inl rfl⟩
      | _ =>
        simp only [Spares, hq]
    | _ => exact True.intro

/-- As long as no call fails for a live worker that owns a listed job, and no worker that a sweep
overlooks gets a heartbeat again, sweeps remove no container of a live worker. -/
theorem spares_of_careful (hr : run (Cluster.step minAge) .start acts = some s)
    (hg : EveryStep (Cluster.step minAge) Careful .start acts) :
    EveryStep (Cluster.step minAge) Spares .start acts := by
  have hinv : Always (Cluster.step minAge) Inv .start acts :=
    .of_guarded (fun _ _ _ hi hg h => step_inv hi hg h) Inv.start hg
  exact .of_always (fun _ a _ hi _ _ => hi.spares a) hinv hg hr

instance (s : Cluster) : ∀ a, Decidable (Spares s a)
  | .sweep r (.containerRemove _) =>
    match h : s.sweep r with
    | .removing c _ _ =>
      decidable_of_iff (∀ w ∈ s.beating, (w, c.jobID) ∉ s.owned) (by simp [Spares, h])
    | .idle | .scanning _ _ _ | .checking _ _ _ | .reading _ _ _ | .evaluating _ _
    | .cleaning _ _ _ _ _ => isTrue (by simp [Spares, h])
  | .sweep _ (.containerList _) | .sweep _ (.scan _ _) | .sweep _ .scanFails
  | .sweep _ (.heartbeatAlive _) | .sweep _ (.ownedJobs _) | .sweep _ .next
  | .sweep _ (.removeOwnedJob _) | .tick _ | .worker _ => isTrue True.intro

/-- A worker with a job whose container is as old as the grace period. -/
def ageing : List Act :=
  [.worker (.heartbeat "w"), .worker (.claim "w" "job"), .worker (.addOwnedJob "job" true),
    .worker (.create "job" 1), .tick 45]

def sweepBlind : List Act :=
  [.sweep "r" (.containerList true), .sweep "r" (.scan [workerJobsKey "w"] false),
    .sweep "r" (.heartbeatAlive true), .sweep "r" .next, .sweep "r" (.ownedJobs false),
    .sweep "r" .next, .sweep "r" .next, .sweep "r" (.containerRemove .removed)]

/-- A sweep that finds no heartbeat of the worker. -/
def sweepOrphan : List Act :=
  [.worker (.expire "w"), .sweep "r" (.containerList true),
    .sweep "r" (.scan [workerJobsKey "w"] false), .sweep "r" (.heartbeatAlive true),
    .sweep "r" .next, .sweep "r" .next, .sweep "r" .next,
    .sweep "r" (.containerRemove .removed)]

theorem not_always_spares :
    ¬ ∀ (acts : List Act) (s : Cluster), run (Cluster.step 45) .start acts = some s →
      EveryStep (Cluster.step 45) Spares .start acts := by
  intro hall
  have hsome : (run (Cluster.step 45) .start (ageing ++ sweepBlind)).isSome = true := by decide
  obtain ⟨s, hr⟩ := Option.isSome_iff_exists.mp hsome
  exact absurd (hall _ s hr) (by decide)

theorem sweepOrphan_spares :
    ∃ s, run (Cluster.step 45) .start (ageing ++ sweepOrphan) = some s ∧ s.containers = [] ∧
      EveryStep (Cluster.step 45) Spares .start (ageing ++ sweepOrphan) := by
  obtain ⟨s, hr, hempty⟩ : ∃ s, run (Cluster.step 45) .start (ageing ++ sweepOrphan) = some s ∧
      s.containers = [] := ⟨_, rfl, by decide⟩
  refine ⟨s, hr, hempty, spares_of_careful hr ?_⟩
  have hbeat : Careful .start (.worker (.heartbeat "w")) := by
    rintro r ⟨jobID, hj, -⟩
    cases hj
  refine ⟨hbeat, fun s' _ => ?_⟩
  simp [EveryStep, Careful, sweepOrphan]

end CodeRunner.Reaper
