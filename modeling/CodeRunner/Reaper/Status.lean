import CodeRunner.Jobstore
import CodeRunner.Reaper.Sweep

/-! # The status that a reaper writes

After it has removed a container a sweep marks the job as failed, whatever its status is by then.
The worker of the job may have torn it down in the meantime: it gives up the job first, then
writes the terminal status, and removes the container last.
-/

namespace CodeRunner.Reaper

open Transition

/-- The cluster next to the stored statuses. `final` holds the terminal status that the worker of
a job has written, `marking` the job whose container a sweep has removed and that it is about to
mark. -/
structure Ledger where
  cluster : Cluster
  status : String → Option JobStatus
  final : String → Option JobStatus
  marking : String → Option String

inductive LedgerAct
  | act (a : Act)
  | writeStatus (jobID : String) (state : Worker.Status) (ok : Bool)
  | markError (workerID : String) (ok : Bool)
  deriving DecidableEq

/-- What `reapContainer` writes. -/
def errorStatus (jobID : String) : JobStatus where
  channel := ""
  jobId := jobID
  language := ""
  state := .ended .error
  version := ""

/-- Where the worker of a job writes a status. -/
def Phase.writes : Phase → Worker.Status → Bool
  | .claimed _, .queued | .created _, .running | .done _, .ended _ => true
  | _, _ => false

def Sweep.reaping : Sweep → Option String
  | .cleaning jobID _ _ _ _ => some jobID
  | _ => none

/-- The job that a sweep has just cleaned up after. -/
def Sweep.cleaned (q : Sweep) : Sweep → Option String
  | .evaluating _ _ => q.reaping
  | _ => none

namespace Ledger

def start : Ledger := ⟨.start, fun _ => none, fun _ => none, fun _ => none⟩

def writeStatus (l : Ledger) (jobID : String) (st : JobStatus) : Ledger :=
  { l with status := Function.update l.status jobID (some st) }

def finish (l : Ledger) (jobID : String) (st : JobStatus) : Ledger :=
  match st.state with
  | .ended _ => { l.writeStatus jobID st with final := Function.update l.final jobID (some st) }
  | _ => l.writeStatus jobID st

def mark (l : Ledger) (r jobID : String) (ok : Bool) : Ledger :=
  let l := { l with marking := Function.update l.marking r none }
  if ok then l.writeStatus jobID (errorStatus jobID) else l

def idle (l : Ledger) : Act → Bool
  | .sweep r _ => (l.marking r).isNone
  | _ => true

def after (l : Ledger) (a : Act) (s : Cluster) : Ledger :=
  match a with
  | .sweep r _ =>
    { l with
      cluster := s
      marking := Function.update l.marking r ((l.cluster.sweep r).cleaned (s.sweep r)) }
  | _ => { l with cluster := s }

/-- An error of `WriteStatus` is logged. A worker writes one terminal status. -/
def step (minAge : ℕ) (specs : String → JobSpec) (l : Ledger) : LedgerAct → Option Ledger
  | .act a => if l.idle a then (l.cluster.step minAge a).map (l.after a) else none
  | .writeStatus jobID state ok =>
    if (l.cluster.phase jobID).writes state = true ∧ l.final jobID = none then
      some (if ok then l.finish jobID ((specs jobID).status state) else l)
    else none
  | .markError r ok => (l.marking r).map fun jobID => l.mark r jobID ok

/-- The terminal statuses that workers have written are still there. -/
def Kept (l : Ledger) : Prop := ∀ jobID st, l.final jobID = some st → l.status jobID = some st

/-- A sweep has removed the container of a job and not marked the job. -/
def Reaps (l : Ledger) (r jobID : String) : Prop :=
  l.marking r = some jobID ∨ (l.cluster.sweep r).reaping = some jobID

/-- No sweep is between a removal and its mark. -/
def Settled (l : Ledger) : Prop := ∀ r jobID, ¬ l.Reaps r jobID

end Ledger

/-- A container that a sweep removes, or finds removed, is of a job without a terminal status,
and a worker writes none between the removal and the mark. -/
def Orderly (l : Ledger) : LedgerAct → Prop
  | .act (.sweep r (.containerRemove res)) =>
    match l.cluster.sweep r with
    | .removing c _ _ => res = .failed ∨ l.final c.jobID = none
    | _ => True
  | .writeStatus jobID (.ended _) true => ∀ r, ¬ l.Reaps r jobID
  | _ => True

/-- The mark of a sweep is written. -/
def LedgerAct.Marks : LedgerAct → Prop
  | .markError _ ok => ok = true
  | _ => True

variable {minAge : ℕ} {specs : String → JobSpec} {l l' : Ledger} {la : LedgerAct}
  {s s' : Cluster} {q q' : Sweep} {a : Act} {act : SweepAct} {r jobID : String} {st : JobStatus}

theorem reaping_refresh (owned : Finset (String × String)) :
    (q.refresh owned).reaping = q.reaping := by
  cases q <;> rfl

inductive Reaping (q : Sweep) (act : SweepAct) (q' : Sweep) : Prop where
  | stays (hr : q'.reaping = q.reaping) (hc : q.cleaned q' = none) : Reaping q act q'
  | removes (c : Container) (cs : List Container) (liveJobs : Finset String) (res : Removal)
      (hq : q = .removing c cs liveJobs) (ha : act = .containerRemove res) (hres : res ≠ .failed)
      (hr : q'.reaping = some c.jobID) (hc : q.cleaned q' = none) : Reaping q act q'
  | cleans (hr : q'.reaping = none) (hc : q.cleaned q' = q.reaping) : Reaping q act q'

theorem evaluate_reaping (now : ℕ) (liveJobs : Finset String) (c : Container)
    (cs : List Container) :
    Reaping (.evaluating (c :: cs) liveJobs) act (Sweep.evaluate minAge now liveJobs c cs) := by
  have hskip : Reaping (.evaluating (c :: cs) liveJobs) act (.evaluating cs liveJobs) :=
    .stays rfl rfl
  unfold Sweep.evaluate
  split
  · exact hskip
  · split
    · exact hskip
    · split
      · exact hskip
      · exact .stays rfl rfl

theorem step_reaping (h : q.step minAge s act = some q') : Reaping q act q' := by
  unfold Sweep.step at h
  split at h
  · split at h <;> obtain rfl := Option.some.inj h <;> exact .stays rfl rfl
  · split at h
    · obtain rfl := Option.some.inj h
      exact .stays rfl rfl
    · obtain ⟨-, ⟨⟩⟩ := Option.ite_none_right_eq_some.mp h
      exact .stays rfl rfl
  · obtain rfl := Option.some.inj h
    exact .stays rfl rfl
  · obtain ⟨-, ⟨⟩⟩ := Option.ite_none_left_eq_some.mp h
    exact .stays rfl rfl
  · obtain ⟨-, ⟨⟩⟩ := Option.ite_none_right_eq_some.mp h
    exact .stays rfl rfl
  · obtain rfl := Option.some.inj h
    exact .stays rfl rfl
  · obtain rfl := Option.some.inj h
    exact .stays rfl rfl
  · obtain rfl := Option.some.inj h
    exact .stays rfl rfl
  · obtain rfl := Option.some.inj h
    exact .stays rfl rfl
  · obtain rfl := Option.some.inj h
    exact evaluate_reaping _ _ _ _
  · next c cs liveJobs res =>
    split at h
    · obtain rfl := Option.some.inj h
      exact .stays rfl rfl
    · obtain ⟨-, ⟨⟩⟩ := Option.ite_none_right_eq_some.mp h
      exact .removes c cs liveJobs _ rfl rfl nofun rfl rfl
    · obtain ⟨-, ⟨⟩⟩ := Option.ite_none_left_eq_some.mp h
      exact .removes c cs liveJobs _ rfl rfl nofun rfl rfl
  · obtain rfl := Option.some.inj h
    exact .stays rfl rfl
  · obtain rfl := Option.some.inj h
    exact .cleans rfl rfl
  · obtain rfl := Option.some.inj h
    exact .cleans rfl rfl
  · obtain ⟨-, ⟨⟩⟩ := Option.ite_none_right_eq_some.mp h
    exact .stays rfl rfl
  · obtain ⟨-, ⟨⟩⟩ := Option.ite_none_left_eq_some.mp h
    exact .stays rfl rfl
  · cases h

theorem work_reaping {act : WorkerAct} (h : s.work act = some s') (r : String) :
    (s'.sweep r).reaping = (s.sweep r).reaping := by
  have hset : ∀ (t : Cluster) owned, t.sweep = s.sweep →
      ((t.setOwned owned).sweep r).reaping = (s.sweep r).reaping := fun t owned ht => by
    rw [← ht]
    exact reaping_refresh owned
  cases act with
  | heartbeat | expire =>
    obtain rfl := Option.some.inj h
    rfl
  | claim =>
    obtain ⟨-, ⟨⟩⟩ := Option.ite_none_right_eq_some.mp h
    rfl
  | addOwnedJob =>
    simp only [Cluster.work] at h
    split at h
    · obtain rfl := Option.some.inj h
      split
      · exact hset _ _ rfl
      · rfl
    · cases h
  | removeOwnedJob =>
    simp only [Cluster.work] at h
    split at h
    · obtain rfl := Option.some.inj h
      split
      · exact hset _ _ rfl
      · rfl
    · obtain rfl := Option.some.inj h
      split
      · exact hset _ _ rfl
      · rfl
    · cases h
  | create =>
    simp only [Cluster.work] at h
    split at h
    · obtain ⟨-, ⟨⟩⟩ := Option.ite_none_left_eq_some.mp h
      rfl
    · cases h
  | cleanup =>
    simp only [Cluster.work] at h
    split at h
    · obtain rfl := Option.some.inj h
      rfl
    · obtain rfl := Option.some.inj h
      rfl
    · cases h

theorem Reaping.refresh (h : Reaping q act q') (owned : Finset (String × String)) :
    Reaping q act (q'.refresh owned) := by
  have hc : q.cleaned (q'.refresh owned) = q.cleaned q' := by cases q' <;> rfl
  cases h with
  | stays hr hc' => exact .stays ((reaping_refresh owned).trans hr) (hc.trans hc')
  | removes c cs liveJobs res hq ha hres hr hc' =>
    exact .removes c cs liveJobs res hq ha hres ((reaping_refresh owned).trans hr) (hc.trans hc')
  | cleans hr hc' => exact .cleans ((reaping_refresh owned).trans hr) (hc.trans hc')

theorem effect_sweep (q : Sweep) (s : Cluster) (act : SweepAct) :
    (q.effect s act).sweep = s.sweep ∨
      ∃ owned, (q.effect s act).sweep = fun r => (s.sweep r).refresh owned := by
  unfold Sweep.effect
  split
  · exact .inl rfl
  · exact .inr ⟨_, rfl⟩
  · exact .inl rfl

/-- A step of one sweep is that of its state, and at most tells all of them that the owners have
changed. -/
theorem step_of_sweepStep (h : s.sweepStep minAge r act = some s') :
    ∃ q, (s.sweep r).step minAge s act = some q ∧
      (s'.sweep = Function.update s.sweep r q ∨
        ∃ owned, s'.sweep = fun r' => (Function.update s.sweep r q r').refresh owned) := by
  obtain ⟨q, hq, rfl⟩ := Option.map_eq_some_iff.mp h
  exact ⟨q, hq, effect_sweep _ _ act⟩

theorem sweepStep_reaping (h : s.sweepStep minAge r act = some s') :
    Reaping (s.sweep r) act (s'.sweep r) ∧
      ∀ r', r' ≠ r → (s'.sweep r').reaping = (s.sweep r').reaping := by
  obtain ⟨q, hq, hsweep⟩ := step_of_sweepStep h
  have hstep : Reaping (s.sweep r) act q := step_reaping hq
  rcases hsweep with hsweep | ⟨owned, hsweep⟩
  · rw [hsweep, Function.update_self]
    refine ⟨hstep, fun r' hne => ?_⟩
    rw [Function.update_of_ne hne]
  · rw [hsweep]
    dsimp only
    rw [Function.update_self]
    refine ⟨hstep.refresh owned, fun r' hne => ?_⟩
    rw [Function.update_of_ne hne, reaping_refresh]

inductive Turns (l : Ledger) (a : Act) (l' : Ledger) (r : String) : Prop where
  | keeps (h : ∀ jobID, l'.Reaps r jobID ↔ l.Reaps r jobID) : Turns l a l' r
  | removes (c : Container) (cs : List Container) (liveJobs : Finset String) (res : Removal)
      (ha : a = .sweep r (.containerRemove res)) (hres : res ≠ .failed)
      (hq : l.cluster.sweep r = .removing c cs liveJobs)
      (h : ∀ jobID, l'.Reaps r jobID ↔ c.jobID = jobID) : Turns l a l' r

theorem Turns.of_same (hm : l'.marking r = l.marking r)
    (hr : (l'.cluster.sweep r).reaping = (l.cluster.sweep r).reaping) : Turns l a l' r :=
  .keeps fun jobID => by rw [Ledger.Reaps, hm, hr, Ledger.Reaps]

theorem after_turns (h : l.cluster.step minAge a = some s') (hidle : l.idle a = true)
    (r : String) : Turns l a (l.after a s') r := by
  cases a with
  | tick seconds =>
    obtain rfl := Option.some.inj h
    exact .of_same rfl rfl
  | worker act => exact .of_same rfl (work_reaping h r)
  | sweep r₀ act =>
    obtain ⟨hown, hother⟩ := sweepStep_reaping h
    by_cases hr : r = r₀
    · subst hr
      have hnone : l.marking r = none := Option.isNone_iff_eq_none.mp hidle
      have hiff : ∀ jobID, (l.after (.sweep r act) s').Reaps r jobID ↔
          (l.cluster.sweep r).cleaned (s'.sweep r) = some jobID ∨
            (s'.sweep r).reaping = some jobID := fun jobID => by
        simp only [Ledger.Reaps, Ledger.after, Function.update_self]
      cases hown with
      | stays hreap hclean =>
        refine .keeps fun jobID => ?_
        rw [hiff, hclean, hreap, Ledger.Reaps, hnone]
      | removes c cs liveJobs res hq ha hres hreap hclean =>
        refine .removes c cs liveJobs res (ha ▸ rfl) hres hq fun jobID => ?_
        rw [hiff, hclean, hreap]
        simp
      | cleans hreap hclean =>
        refine .keeps fun jobID => ?_
        rw [hiff, hclean, hreap, Ledger.Reaps, hnone]
        exact or_comm
    · refine .of_same ?_ (hother r hr)
      exact Function.update_of_ne hr _ _

/-- Terminal statuses are still there and as their workers wrote them, and no sweep is about to
mark their jobs. -/
structure Ledger.Sound (specs : String → JobSpec) (l : Ledger) : Prop where
  kept : l.Kept
  unmarked : ∀ r jobID, l.Reaps r jobID → l.final jobID = none
  written : ∀ jobID st, l.final jobID = some st → ∃ state, st = (specs jobID).status state

theorem Ledger.Sound.start (specs : String → JobSpec) : Ledger.Sound specs .start where
  kept := nofun
  unmarked _ _ _ := rfl
  written := nofun

theorem after_final (a : Act) (s : Cluster) :
    (l.after a s).final = l.final ∧ (l.after a s).status = l.status := by
  cases a <;> exact ⟨rfl, rfl⟩

theorem finish_reaps : (l.finish jobID st).Reaps r = l.Reaps r := by
  unfold Ledger.finish
  split <;> rfl

theorem finish_status : (l.finish jobID st).status = Function.update l.status jobID (some st) := by
  unfold Ledger.finish
  split <;> rfl

/-- What the worker of a job writes is its terminal status, or leaves it without one. -/
theorem finish_final (l : Ledger) (jobID : String) (st : JobStatus) :
    (∃ state, st.state = .ended state) ∧
        (l.finish jobID st).final = Function.update l.final jobID (some st) ∨
      (∀ state, st.state ≠ .ended state) ∧ (l.finish jobID st).final = l.final := by
  unfold Ledger.finish
  split
  · next state h => exact .inl ⟨⟨state, h⟩, rfl⟩
  · next h => exact .inr ⟨h, rfl⟩

theorem Ledger.Sound.finish (hl : l.Sound specs) {state : Worker.Status}
    (hg : Orderly l (.writeStatus jobID state true)) (hnone : l.final jobID = none) :
    (l.finish jobID ((specs jobID).status state)).Sound specs := by
  rcases finish_final l jobID ((specs jobID).status state) with
    ⟨⟨state', hstate⟩, hfinal⟩ | ⟨-, hfinal⟩
  · obtain rfl : state = .ended state' := hstate
    constructor
    · intro j st hj
      rw [finish_status]
      rw [hfinal] at hj
      by_cases hjob : j = jobID
      · subst hjob
        rw [Function.update_self] at hj ⊢
        exact hj
      · rw [Function.update_of_ne hjob] at hj ⊢
        exact hl.kept j st hj
    · intro r j hr
      rw [finish_reaps] at hr
      rw [hfinal]
      by_cases hjob : j = jobID
      · subst hjob
        exact absurd hr (hg r)
      · rw [Function.update_of_ne hjob]
        exact hl.unmarked r j hr
    · intro j st hj
      rw [hfinal] at hj
      by_cases hjob : j = jobID
      · subst hjob
        rw [Function.update_self] at hj
        exact ⟨_, (Option.some.inj hj).symm⟩
      · rw [Function.update_of_ne hjob] at hj
        exact hl.written j st hj
  · constructor
    · intro j st hj
      rw [hfinal] at hj
      rw [finish_status]
      have hjob : j ≠ jobID := by
        rintro rfl
        rw [hnone] at hj
        cases hj
      rw [Function.update_of_ne hjob]
      exact hl.kept j st hj
    · intro r j hr
      rw [finish_reaps] at hr
      rw [hfinal]
      exact hl.unmarked r j hr
    · intro j st hj
      rw [hfinal] at hj
      exact hl.written j st hj

theorem mark_final (ok : Bool) : (l.mark r jobID ok).final = l.final := by
  cases ok <;> rfl

theorem mark_status : (l.mark r jobID true).status =
    Function.update l.status jobID (some (errorStatus jobID)) := rfl

theorem mark_reaps {ok : Bool} {r' j : String} (hr : (l.mark r jobID ok).Reaps r' j) :
    l.Reaps r' j := by
  have hmark : (l.mark r jobID ok).marking = Function.update l.marking r none ∧
      (l.mark r jobID ok).cluster = l.cluster := by
    cases ok <;> exact ⟨rfl, rfl⟩
  rw [Ledger.Reaps, hmark.1, hmark.2] at hr
  by_cases hne : r' = r
  · subst hne
    rw [Function.update_self] at hr
    exact .inr (hr.resolve_left nofun)
  · rw [Function.update_of_ne hne] at hr
    exact hr

theorem reaps_mark {r' j : String} (hm : l.marking r = some jobID) (hr : l.Reaps r' j)
    (hjob : j ≠ jobID) : (l.mark r jobID true).Reaps r' j := by
  refine hr.imp_left fun hr => ?_
  have hne : r' ≠ r := by
    rintro rfl
    exact hjob (Option.some.inj (hr.symm.trans hm))
  exact (Function.update_of_ne hne _ _).trans hr

theorem Ledger.Sound.mark (hl : l.Sound specs) (hm : l.marking r = some jobID) (ok : Bool) :
    (l.mark r jobID ok).Sound specs := by
  constructor
  · intro j st hj
    rw [mark_final] at hj
    cases ok with
    | false => exact hl.kept j st hj
    | true =>
      have hjob : j ≠ jobID := by
        rintro rfl
        rw [hl.unmarked r j (.inl hm)] at hj
        cases hj
      rw [mark_status, Function.update_of_ne hjob]
      exact hl.kept j st hj
  · intro r' j hr
    rw [mark_final]
    exact hl.unmarked r' j (mark_reaps hr)
  · intro j st hj
    rw [mark_final] at hj
    exact hl.written j st hj

theorem Ledger.Sound.after (hl : l.Sound specs) (hg : Orderly l (.act a))
    (hidle : l.idle a = true) (h : l.cluster.step minAge a = some s') :
    (l.after a s').Sound specs := by
  obtain ⟨hfinal, hstatus⟩ := after_final (l := l) a s'
  constructor
  · intro j st hj
    rw [hfinal] at hj
    rw [hstatus]
    exact hl.kept j st hj
  · intro r j hr
    rw [hfinal]
    cases after_turns h hidle r with
    | keeps hkeep => exact hl.unmarked r j ((hkeep j).mp hr)
    | removes c cs liveJobs res ha hres hq hnew =>
      subst ha
      simp only [Orderly, hq] at hg
      exact (hnew j).mp hr ▸ hg.resolve_left hres
  · intro j st hj
    rw [hfinal] at hj
    exact hl.written j st hj

theorem step_sound (hl : l.Sound specs) (hg : Orderly l la)
    (h : l.step minAge specs la = some l') : l'.Sound specs := by
  cases la with
  | act a =>
    obtain ⟨hidle, h⟩ := Option.ite_none_right_eq_some.mp h
    obtain ⟨s', hs, rfl⟩ := Option.map_eq_some_iff.mp h
    exact hl.after hg hidle hs
  | writeStatus jobID state ok =>
    obtain ⟨⟨-, hnone⟩, ⟨⟩⟩ := Option.ite_none_right_eq_some.mp h
    cases ok with
    | true => exact hl.finish hg hnone
    | false => exact hl
  | markError r ok =>
    obtain ⟨jobID, hm, rfl⟩ := Option.map_eq_some_iff.mp h
    exact hl.mark hm ok

/-- A terminal status is lost, or a sweep is about to mark its job. -/
def Ledger.Doomed (l : Ledger) : Prop :=
  ∃ jobID st, l.final jobID = some st ∧ st ≠ errorStatus jobID ∧
    (l.status jobID ≠ some st ∨ ∃ r, l.Reaps r jobID)

theorem ne_errorStatus (hch : ∀ jobID, (specs jobID).channel ≠ "") (state : Worker.Status) :
    (specs jobID).status state ≠ errorStatus jobID := by
  intro h
  exact hch jobID (congrArg JobStatus.channel h)

theorem remove_reaping {c : Container} {cs : List Container} {liveJobs : Finset String}
    {res : Removal} (hq : s.sweep r = .removing c cs liveJobs) (hres : res ≠ .failed)
    (h : s.sweepStep minAge r (.containerRemove res) = some s') :
    (s'.sweep r).reaping = some c.jobID := by
  obtain ⟨q, hstep, hsweep⟩ := step_of_sweepStep h
  obtain rfl : q = .cleaning c.jobID [] true cs liveJobs := by
    rw [hq] at hstep
    cases res with
    | failed => exact absurd rfl hres
    | removed => exact (Option.some.inj (Option.ite_none_right_eq_some.mp hstep).2).symm
    | notFound => exact (Option.some.inj (Option.ite_none_left_eq_some.mp hstep).2).symm
  rcases hsweep with hsweep | ⟨owned, hsweep⟩
  · rw [hsweep, Function.update_self]
    rfl
  · rw [hsweep]
    dsimp only
    rw [Function.update_self]
    rfl

theorem not_orderly_act (hg : ¬ Orderly l (.act a)) :
    ∃ r res c cs liveJobs, a = .sweep r (.containerRemove res) ∧ res ≠ .failed ∧
      l.cluster.sweep r = .removing c cs liveJobs ∧ l.final c.jobID ≠ none := by
  cases a with
  | tick | worker => exact absurd True.intro hg
  | sweep r act =>
    cases act with
    | containerRemove res =>
      cases hq : l.cluster.sweep r with
      | removing c cs liveJobs =>
        simp only [Orderly, hq, not_or] at hg
        exact ⟨r, res, c, cs, liveJobs, rfl, hg.1, hq, hg.2⟩
      | _ =>
        simp only [Orderly, hq] at hg
        exact absurd True.intro hg
    | _ => exact absurd True.intro hg

theorem doomed_of_step (hch : ∀ jobID, (specs jobID).channel ≠ "") (hl : l.Sound specs)
    (hg : ¬ Orderly l la) (h : l.step minAge specs la = some l') : l'.Doomed := by
  cases la with
  | act a =>
    obtain ⟨-, h⟩ := Option.ite_none_right_eq_some.mp h
    obtain ⟨s', hs, rfl⟩ := Option.map_eq_some_iff.mp h
    obtain ⟨r, res, c, cs, liveJobs, rfl, hres, hq, hfinal⟩ := not_orderly_act hg
    obtain ⟨st, hst⟩ := Option.ne_none_iff_exists'.mp hfinal
    obtain ⟨state, rfl⟩ := hl.written c.jobID st hst
    exact ⟨c.jobID, _, hst, ne_errorStatus hch state, .inr ⟨r, .inr (remove_reaping hq hres hs)⟩⟩
  | writeStatus jobID state ok =>
    obtain ⟨-, ⟨⟩⟩ := Option.ite_none_right_eq_some.mp h
    cases ok with
    | false => cases state <;> exact absurd True.intro hg
    | true =>
      cases state with
      | queued | running => exact absurd True.intro hg
      | ended state =>
        obtain ⟨r, hr⟩ := not_forall_not.mp hg
        exact ⟨jobID, _, Function.update_self _ _ _, ne_errorStatus hch _, .inr ⟨r, hr⟩⟩
  | markError r ok => exact absurd True.intro hg

theorem after_reaps (h : l.cluster.step minAge a = some s') (hidle : l.idle a = true)
    (hr : l.Reaps r jobID) : (l.after a s').Reaps r jobID := by
  cases after_turns h hidle r with
  | keeps hkeep => exact (hkeep jobID).mpr hr
  | removes c cs liveJobs res ha _ hq =>
    subst ha
    rcases hr with hr | hr
    · rw [Ledger.idle, hr] at hidle
      cases hidle
    · rw [hq] at hr
      cases hr

theorem Ledger.Doomed.step (hd : l.Doomed) (hm : la.Marks)
    (h : l.step minAge specs la = some l') : l'.Doomed := by
  obtain ⟨jobID, st, hfinal, hne, hd⟩ := hd
  cases la with
  | act a =>
    obtain ⟨hidle, h⟩ := Option.ite_none_right_eq_some.mp h
    obtain ⟨s', hs, rfl⟩ := Option.map_eq_some_iff.mp h
    obtain ⟨hfinal', hstatus⟩ := after_final (l := l) a s'
    refine ⟨jobID, st, by rw [hfinal']; exact hfinal, hne, ?_⟩
    rw [hstatus]
    exact hd.imp_right fun ⟨r, hr⟩ => ⟨r, after_reaps hs hidle hr⟩
  | writeStatus j state ok =>
    obtain ⟨⟨-, hnone⟩, ⟨⟩⟩ := Option.ite_none_right_eq_some.mp h
    have hjob : jobID ≠ j := by
      rintro rfl
      rw [hnone] at hfinal
      cases hfinal
    cases ok with
    | false => exact ⟨jobID, st, hfinal, hne, hd⟩
    | true =>
      refine ⟨jobID, st, ?_, hne, ?_⟩
      · rcases finish_final l j ((specs j).status state) with ⟨-, hfinal'⟩ | ⟨-, hfinal'⟩
        · exact (congrFun hfinal' jobID).trans ((Function.update_of_ne hjob _ _).trans hfinal)
        · exact (congrFun hfinal' jobID).trans hfinal
      · simp only [if_true, finish_status, finish_reaps, Function.update_of_ne hjob]
        exact hd
  | markError r ok =>
    obtain ⟨j, hmark, rfl⟩ := Option.map_eq_some_iff.mp h
    obtain rfl : ok = true := hm
    refine ⟨jobID, st, hfinal, hne, ?_⟩
    by_cases hjob : jobID = j
    · subst hjob
      left
      rw [mark_status, Function.update_self]
      exact fun h => hne (Option.some.inj h).symm
    · rw [mark_status, Function.update_of_ne hjob]
      exact hd.imp_right fun ⟨r', hr⟩ => ⟨r', reaps_mark hmark hr hjob⟩

/-- In an orderly run the terminal statuses are kept. In a run that leaves no sweep unfinished,
and in which every mark is written, they are kept only if it is orderly. -/
theorem kept_iff_orderly {acts : List LedgerAct} {t : Ledger}
    (hr : run (Ledger.step minAge specs) .start acts = some t) :
    (EveryStep (Ledger.step minAge specs) Orderly .start acts →
      Always (Ledger.step minAge specs) Ledger.Kept .start acts) ∧
    ((∀ jobID, (specs jobID).channel ≠ "") → t.Settled → (∀ la ∈ acts, la.Marks) →
      (Always (Ledger.step minAge specs) Ledger.Kept .start acts ↔
        EveryStep (Ledger.step minAge specs) Orderly .start acts)) := by
  have hkept : EveryStep (Ledger.step minAge specs) Orderly .start acts →
      Always (Ledger.step minAge specs) Ledger.Kept .start acts := fun hg => by
    have hsound : Always (Ledger.step minAge specs) (Ledger.Sound specs) .start acts :=
      .of_guarded (fun _ _ _ => step_sound) (.start specs) hg
    exact hsound.mono fun _ h => h.kept
  refine ⟨hkept, fun hch hsettled hmarks => ⟨fun hall => ?_, hkept⟩⟩
  rcases everyStep_or_of_latch_of (W := fun _ la => la.Marks) (fun _ _ _ hl _ => step_sound hl)
      (fun _ _ _ hl _ => doomed_of_step hch hl) (fun _ _ _ hd => hd.step)
      (Ledger.Sound.start specs) (everyStep_of_mem hmarks) hr with ⟨hg, -⟩ | ⟨-, hd⟩
  · exact hg
  · obtain ⟨jobID, st, hfinal, -, hlost | ⟨r, hr'⟩⟩ := hd
    · exact absurd (hall.last hr jobID st hfinal) hlost
    · exact absurd hr' (hsettled r jobID)

def LedgerAct.SparesAll : LedgerAct → Prop
  | .act (.sweep _ (.containerRemove _)) => False
  | _ => True

instance : ∀ la, Decidable (LedgerAct.SparesAll la)
  | .act (.sweep _ (.containerRemove _)) => isFalse id
  | .act (.sweep _ (.containerList _)) | .act (.sweep _ (.scan _ _)) | .act (.sweep _ .scanFails)
  | .act (.sweep _ (.heartbeatAlive _)) | .act (.sweep _ (.ownedJobs _)) | .act (.sweep _ .next)
  | .act (.sweep _ (.removeOwnedJob _)) | .act (.tick _) | .act (.worker _)
  | .writeStatus _ _ _ | .markError _ _ => isTrue True.intro

theorem step_settled (hs : l.Settled) (hla : la.SparesAll)
    (h : l.step minAge specs la = some l') : l'.Settled := by
  intro r jobID hr
  cases la with
  | act a =>
    obtain ⟨hidle, h⟩ := Option.ite_none_right_eq_some.mp h
    obtain ⟨s', hs', rfl⟩ := Option.map_eq_some_iff.mp h
    cases after_turns hs' hidle r with
    | keeps hkeep => exact hs r jobID ((hkeep jobID).mp hr)
    | removes c cs liveJobs res ha =>
      subst ha
      exact hla
  | writeStatus j state ok =>
    obtain ⟨-, ⟨⟩⟩ := Option.ite_none_right_eq_some.mp h
    cases ok with
    | false => exact hs r jobID hr
    | true => exact hs r jobID (finish_reaps ▸ hr)
  | markError r' ok =>
    obtain ⟨j, -, rfl⟩ := Option.map_eq_some_iff.mp h
    exact hs r jobID (mark_reaps hr)

theorem orderly_of_settled (hs : l.Settled) (hla : la.SparesAll) : Orderly l la := by
  unfold Orderly
  split
  · exact hla.elim
  · exact fun r => hs r _
  · trivial

/-- A job of a worker, whose container has reached the grace period. -/
def ageingJob : List LedgerAct :=
  [.act (.worker (.heartbeat "w")), .act (.worker (.claim "w" "job")),
    .act (.worker (.addOwnedJob "job" true)), .act (.worker (.create "job" 1)), .act (.tick 45)]

def tearDownJob : List LedgerAct :=
  [.act (.worker (.removeOwnedJob "job" true)), .writeStatus "job" (.ended .done) true,
    .act (.worker (.cleanup "job"))]

/-- A sweep lists the container before the job is torn down, and its owners after. -/
def sweepLate : List LedgerAct :=
  [.act (.sweep "r" (.containerList true))] ++ tearDownJob ++
    [.act (.sweep "r" (.scan [] false)), .act (.sweep "r" .next), .act (.sweep "r" .next),
      .act (.sweep "r" .next), .act (.sweep "r" (.containerRemove .notFound)),
      .act (.sweep "r" (.scan [] false)), .act (.sweep "r" .next), .markError "r" true]

theorem not_always_kept :
    ¬ ∀ (specs : String → JobSpec) (acts : List LedgerAct) (t : Ledger),
      run (Ledger.step 45 specs) .start acts = some t →
        Always (Ledger.step 45 specs) Ledger.Kept .start acts := by
  intro hall
  obtain ⟨t, hr, hfinal, hstatus⟩ : ∃ t,
      run (Ledger.step 45 fun _ => Worker.script.spec) .start (ageingJob ++ sweepLate) = some t ∧
        t.final "job" = some (Worker.script.spec.status (.ended .done)) ∧
          t.status "job" = some (errorStatus "job") := ⟨_, rfl, by decide, by decide⟩
  have hkept := (hall _ _ t hr).last hr "job" _ hfinal
  rw [hstatus] at hkept
  exact absurd hkept (by decide)

/-- A sweep finds the job among those of its worker before it is torn down. -/
def sweepEarly : List LedgerAct :=
  [.act (.sweep "r" (.containerList true)), .act (.sweep "r" (.scan [workerJobsKey "w"] false)),
      .act (.sweep "r" (.heartbeatAlive true)), .act (.sweep "r" .next),
      .act (.sweep "r" (.ownedJobs true)), .act (.sweep "r" .next)] ++ tearDownJob ++
    [.act (.sweep "r" .next), .act (.sweep "r" .next)]

theorem sweepEarly_kept :
    ∃ t, run (Ledger.step 45 fun _ => Worker.script.spec) .start (ageingJob ++ sweepEarly) =
        some t ∧ t.final "job" = some (Worker.script.spec.status (.ended .done)) ∧
      Always (Ledger.step 45 fun _ => Worker.script.spec) Ledger.Kept .start
        (ageingJob ++ sweepEarly) := by
  obtain ⟨t, hr, hfinal⟩ : ∃ t,
      run (Ledger.step 45 fun _ => Worker.script.spec) .start (ageingJob ++ sweepEarly) = some t ∧
        t.final "job" = some (Worker.script.spec.status (.ended .done)) := ⟨_, rfl, by decide⟩
  have hsettled : Always (Ledger.step 45 fun _ => Worker.script.spec) Ledger.Settled .start
      (ageingJob ++ sweepEarly) := by
    refine .of_guarded (G := fun _ la => la.SparesAll) (fun _ _ _ => step_settled) ?_ ?_
    · rintro r jobID (h | h) <;> cases h
    · exact everyStep_of_mem (by decide)
  have horderly : EveryStep (Ledger.step 45 fun _ => Worker.script.spec) Orderly .start
      (ageingJob ++ sweepEarly) :=
    .of_always_guard (fun _ _ => orderly_of_settled) hsettled
      (everyStep_of_mem (P := LedgerAct.SparesAll) (by decide))
  refine ⟨t, hr, hfinal, ((kept_iff_orderly hr).2 ?_ (hsettled.last hr) ?_).mpr horderly⟩
  · exact fun _ => by decide
  · simp [ageingJob, sweepEarly, tearDownJob, LedgerAct.Marks]

end CodeRunner.Reaper
