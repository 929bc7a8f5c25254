import CodeRunner.Worker.Blobs

/-! # Teardown under a cancelled context

The writes of the teardown share the jobs context with everything before them, and `Drain`
cancels that context. The teardown of a job takes effect exactly if it comes to the terminal
status before.
-/

namespace CodeRunner.Worker

open Transition

def Pc.storeCall : Pc → Bool
  | .readSpec | .announceQueued | .addOwned | .startFlag _ | .announceRunning _ => true
  | _ => false

/-- The outcome of the call to the store or the index that a turn makes. -/
def Custody.outcome (c : Custody) : CustodyAct → Option Bool
  | .act (.call ok) => if c.handler.pc.storeCall then some ok else none
  | .act _ | .lease (.pull _) => none
  | .lease (.sadd ok) | .lease (.leaseTouch ok) | .lease (.touch ok) | .lease (.srem ok) => some ok
  | .effect ok => some ok

/-- A call with a cancelled context fails, any other succeeds. -/
def ContextBound (c : Custody) (ca : CustodyAct) : Prop :=
  ∀ ok ∈ c.outcome ca, ok = !c.handler.cancelled

instance : ∀ c ca, Decidable (ContextBound c ca) :=
  fun _ _ => inferInstanceAs (Decidable (∀ _ ∈ _, _))

/-- The teardown has taken effect. -/
structure Custody.Clear (c : Custody) : Prop where
  owned : c.owned = false
  leases : c.leases = ∅
  status : ∃ state, c.status = .ended state

def Effect.writes : Effect → Bool
  | .writeStatus _ => true
  | _ => false

def Effect.clears : Effect → Bool
  | .removeOwned | .releaseLeases | .writeStatus _ => true
  | _ => false

/-- The jobs context is not cancelled when the terminal status is written. -/
def Timely (c : Custody) : CustodyAct → Prop
  | .effect _ => c.handler.pc.todo.head?.any Effect.writes = true → c.handler.cancelled = false
  | _ => True

instance (c : Custody) : (ca : CustodyAct) → Decidable (Timely c ca)
  | .effect _ => inferInstanceAs (Decidable (_ → _))
  | .act _ | .lease _ => isTrue trivial

/-- The terminal status is still to come, and nothing that clears comes after it. -/
structure Due (todo : List Effect) : Prop where
  writes : ∃ state, .writeStatus state ∈ todo
  last : todo.Pairwise fun e e' => e.writes = true → e'.clears = false

/-- The job has no terminal status yet, and all is well unless the context is cancelled. -/
structure Custody.Pending (c : Custody) : Prop where
  status : ∀ state, c.status ≠ .ended state
  sandbox : c.handler.pc.stage ≠ .ending → c.handler.sandbox ≠ .cleaned
  due : ∀ todo, c.handler.pc = .ending todo → Due todo
  covered : c.handler.cancelled = false → c.Covered
  owned : c.handler.cancelled = false → ∀ todo, c.handler.pc = .ending todo →
    .removeOwned ∈ todo ∨ c.owned = false

def Custody.Spent (c : Custody) : Prop :=
  ∃ todo, c.handler.pc = .ending todo ∧ ∀ e ∈ todo, e.clears = false

def Custody.Barren (c : Custody) : Prop :=
  ∃ todo, c.handler.pc = .ending todo ∧ .cleanup ∉ todo ∧ c.handler.sandbox ≠ .cleaned

def Custody.Lost (c : Custody) : Prop := c.Spent ∧ ∀ state, c.status ≠ .ended state

variable {s s' : Handler} {a : Act} {c c' : Custody} {ca : CustodyAct}

theorem clears_of_writes {e : Effect} (h : e.writes = true) : ∃ state, e = .writeStatus state := by
  cases e with
  | writeStatus state => exact ⟨state, rfl⟩
  | _ => cases h

theorem Due.tail {e : Effect} {todo : List Effect} (h : Due (e :: todo))
    (he : e.writes = false) : Due todo where
  writes := by
    obtain ⟨state, hmem⟩ := h.writes
    rcases List.mem_cons.mp hmem with rfl | hmem
    · cases he
    · exact ⟨state, hmem⟩
  last := (List.pairwise_cons.mp h.last).2

theorem due_teardown (job : Job) (state : JobState) : Due (teardown job state) where
  writes := ⟨state, by simp [teardown]⟩
  last := by
    unfold teardown
    split <;> simp [Effect.writes, Effect.clears]

theorem due_terminate (job : Job) (state : JobState) : Due (terminate ++ teardown job state) where
  writes := ⟨state, by simp [teardown]⟩
  last := by
    unfold teardown terminate
    split <;> simp [Effect.writes, Effect.clears]

inductive Closes (job : Job) (todo : List Effect) : Prop where
  | barren (h : .cleanup ∉ todo) : Closes job todo
  | due (h : Due todo) (hremove : .removeOwned ∈ todo) : Closes job todo

theorem closes_of_step {todo : List Effect} (h : s.step a = some s')
    (hpc : s.pc.stage ≠ .ending) (hpc' : s'.pc = .ending todo) : Closes s.job todo := by
  cases step_arrives h hpc with
  | stays hg hne => exact absurd (by rw [hpc']; rfl) hne
  | concludes todo' hg hpc'' hc =>
    obtain rfl : todo' = todo := Pc.ending.inj (hpc''.symm.trans hpc')
    cases hc with
    | blobsFailed | createFailed => exact .barren (by decide)
    | teardown state => exact .due (due_teardown _ _) (by simp [teardown])
    | terminate state => exact .due (due_terminate _ _) (by simp [teardown])
  | silent todo' hg =>
    cases a with
    | call ok =>
      simp only [OpeningSucceeds, Classical.not_imp, Bool.not_eq_true] at hg
      obtain ⟨hopening, rfl⟩ := hg
      cases hs : s.pc with
      | readSpec | subscribe | subscribeControl =>
        simp only [Handler.step, Handler.call, hs, Option.some.injEq] at h
        subst h
        cases hpc'
        exact .barren (by decide)
      | _ =>
        rw [hs] at hopening
        cases hopening
    | _ => exact absurd True.intro hg

theorem step_cancelled (h : s.step a = some s') (hc : s.cancelled = true) :
    s'.cancelled = true := by
  cases step_branch h with
  | create ok pc hpc => rw [create_eq]; exact hc
  | durableStart | parkedStart => rw [begin_eq]; exact hc
  | compileExits | compileFails | touchFails | resumes => rw [compiled_eq]; exact hc
  | cancel => rfl
  | effect e todo hpc => cases e <;> exact hc
  | _ => exact hc

theorem live_of_step (h : s.step a = some s') (hc : s'.cancelled = false) :
    s.cancelled = false := by
  by_contra hcancelled
  rw [step_cancelled h (Bool.not_eq_false _ ▸ hcancelled)] at hc
  cases hc

theorem create_cleaned {ok : Bool} {pc : CreatePc} (hc : s.sandbox ≠ .cleaned) :
    (s.create ok pc).sandbox ≠ .cleaned := by
  have hcomplete : s.sandbox.complete ≠ .cleaned := by
    cases hs : s.sandbox with
    | cleaned => exact absurd hs hc
    | _ => nofun
  have hzygote : s.zygoteFails.sandbox ≠ .cleaned := by
    rw [zygoteFails_sandbox]
    nofun
  cases ok with
  | false =>
    cases pc with
    | dial | hello | started => exact hzygote
    | containerCreate => nofun
    | copyFiles | attach | containerStart | containerRemove => exact hc
  | true =>
    cases pc with
    | dial | attach | copyFiles => exact hc
    | hello | containerCreate | containerRemove => nofun
    | started | containerStart => exact hcomplete

theorem step_cleaned (h : s.step a = some s') (ha : a ≠ .effect) (hc : s.sandbox ≠ .cleaned) :
    s'.sandbox ≠ .cleaned := by
  cases step_branch h with
  | create ok pc hpc => exact create_cleaned hc
  | createLost hpc => nofun
  | durableStart | parkedStart => rw [begin_eq]; exact hc
  | compileExits | compileFails | touchFails | resumes => rw [compiled_eq]; exact hc
  | effect => exact absurd rfl ha
  | _ => exact hc

theorem perform_cancelled (s : Handler) (e : Effect) : (s.perform e).cancelled = s.cancelled := by
  cases e <;> rfl

theorem cancelled_of_step (h : c.step ca = some c') (hc : c'.handler.cancelled = false) :
    c.handler.cancelled = false := by
  cases step_turn h with
  | act a handler hallows hs => exact live_of_step hs hc
  | effect ok e todo => exact (perform_cancelled c.handler e).symm.trans hc
  | _ => exact hc

theorem ContextBound.pins (hb : ContextBound c ca) (hc : c.handler.cancelled = false) :
    ca.Releases ∧ Pins c ca := by
  have hok : ∀ ok, c.outcome ca = some ok → ok = true := fun ok ho => by
    rw [hb ok ho, hc]
    rfl
  cases ca with
  | lease la =>
    cases la with
    | srem ok => exact ⟨hok ok rfl, True.intro⟩
    | leaseTouch ok =>
      obtain rfl := hok ok rfl
      exact ⟨True.intro, True.intro⟩
    | sadd | pull | touch => exact ⟨True.intro, True.intro⟩
  | act | effect => exact ⟨True.intro, True.intro⟩

theorem covered_of_bound (hb : ContextBound c ca) (h : c.step ca = some c')
    (hcov : c.handler.cancelled = false → c.Covered) (hc : c'.handler.cancelled = false) :
    c'.Covered := by
  have hlive := cancelled_of_step h hc
  obtain ⟨hrel, hpins⟩ := hb.pins hlive
  exact step_covered (hcov hlive) hrel hpins h

theorem write_status (c : Custody) (a : Act) (h : ∀ state, c.status ≠ .ended state)
    (state : JobState) : (c.write a).status ≠ .ended state := by
  unfold Custody.write
  split
  · nofun
  · exact h state
  · nofun
  · exact h state

theorem write_of_ending {todo : List Effect} (a : Act) (hpc : c.handler.pc = .ending todo) :
    c.write a = c := by
  unfold Custody.write
  rw [hpc]

theorem pc_of_allows (hallows : c.Allows a) (h : c.handler.step a = some s')
    (hs : c.handler.pc.stage = .ending) : s'.pc = c.handler.pc := by
  rcases step_of_ending h hs with ⟨hpc, -⟩ | ⟨e, todo, rfl, -⟩
  · exact hpc
  · exact hallows.elim

theorem Custody.Spent.step (hs : c.Spent) (h : c.step ca = some c') :
    c'.Spent ∧ c'.owned = c.owned ∧ c'.leases = c.leases ∧ c'.status = c.status := by
  obtain ⟨todo, hpc, htodo⟩ := hs
  cases step_turn h with
  | act a handler hallows hs =>
    rw [write_of_ending a hpc]
    refine ⟨⟨todo, ?_, htodo⟩, rfl, rfl, rfl⟩
    exact (pc_of_allows hallows hs (by rw [hpc]; rfl)).trans hpc
  | releases ok ref leased todo' hpc' =>
    rw [hpc] at hpc'
    cases hpc'
    exact absurd (htodo _ List.mem_cons_self) nofun
  | effect ok e todo' hpc' =>
    rw [hpc] at hpc'
    cases hpc'
    have hkeeps : (if ok then c.perform e else c) = c := by
      cases ok with
      | false => rfl
      | true =>
        have he := htodo e List.mem_cons_self
        cases e with
        | removeOwned | releaseLeases | writeStatus => cases he
        | _ => rfl
    rw [hkeeps]
    exact ⟨⟨todo', rfl, fun e' he' => htodo e' (List.mem_cons_of_mem e he')⟩, rfl, rfl, rfl⟩
  | pins _ hpc' | pinFails _ hpc' | leases _ hpc' | leaseFails _ hpc' | pulls _ _ hpc'
  | pullFails _ _ hpc' | touches _ _ hpc' =>
    rw [hpc] at hpc'
    cases hpc'

theorem Custody.Barren.step (hb : c.Barren) (h : c.step ca = some c') : c'.Barren := by
  obtain ⟨todo, hpc, hclean, hs⟩ := hb
  cases step_turn h with
  | act a handler hallows hstep =>
    have ha : a ≠ .effect := by
      rintro rfl
      exact hallows
    have hpc' := pc_of_allows hallows hstep (by rw [hpc]; rfl)
    exact ⟨todo, hpc'.trans hpc, hclean, step_cleaned hstep ha hs⟩
  | releases ok ref leased todo' hpc' => exact ⟨todo, hpc, hclean, hs⟩
  | effect ok e todo' hpc' =>
    rw [hpc] at hpc'
    cases hpc'
    rw [List.mem_cons, not_or] at hclean
    refine ⟨todo', rfl, hclean.2, ?_⟩
    cases e with
    | cleanup => exact absurd rfl hclean.1
    | _ => exact hs
  | pins _ hpc' | pinFails _ hpc' | leases _ hpc' | leaseFails _ hpc' | pulls _ _ hpc'
  | pullFails _ _ hpc' | touches _ _ hpc' =>
    rw [hpc] at hpc'
    cases hpc'

theorem Custody.Pending.start (configured : Bool) (job : Job) :
    (Custody.start configured job).Pending where
  status _ := nofun
  sandbox _ := nofun
  due _ := nofun
  covered _ := .start configured job
  owned _ _ := nofun

theorem Custody.Pending.act {handler : Handler} (hp : c.Pending) (hallows : c.Allows a)
    (hs : c.handler.step a = some handler)
    (hcov : handler.cancelled = false → Custody.Covered { c.write a with handler := handler }) :
    Custody.Barren { c.write a with handler := handler } ∨
      Custody.Pending { c.write a with handler := handler } := by
  have ha : a ≠ .effect := by
    rintro rfl
    exact hallows
  by_cases hstage : c.handler.pc.stage = .ending
  · have hpc := pc_of_allows hallows hs hstage
    obtain ⟨todo, htodo⟩ := Pc.exists_eq_ending hstage
    rw [write_of_ending a htodo] at hcov ⊢
    right
    constructor
    · exact hp.status
    · exact fun hne => absurd (by rw [hpc]; exact hstage) hne
    · exact fun todo' h => hp.due todo' (hpc.symm.trans h)
    · exact hcov
    · intro hc todo' h
      exact hp.owned (live_of_step hs hc) todo' (hpc.symm.trans h)
  · have hsandbox := step_cleaned hs ha (hp.sandbox hstage)
    by_cases hbarren : ∃ todo, handler.pc = .ending todo ∧ .cleanup ∉ todo
    · obtain ⟨todo, hpc, hclean⟩ := hbarren
      exact .inl ⟨todo, hpc, hclean, hsandbox⟩
    · have hcloses : ∀ todo, handler.pc = .ending todo → Due todo ∧ .removeOwned ∈ todo :=
        fun todo hpc => by
          cases closes_of_step hs hstage hpc with
          | barren hclean => exact absurd ⟨todo, hpc, hclean⟩ hbarren
          | due hdue hremove => exact ⟨hdue, hremove⟩
      right
      constructor
      · exact write_status c a hp.status
      · exact fun _ => hsandbox
      · exact fun todo hpc => (hcloses todo hpc).1
      · exact hcov
      · exact fun _ todo hpc => .inl (hcloses todo hpc).2

theorem Custody.Pending.resolves {r : Resolve} {leases : Finset String} (hp : c.Pending)
    (hpc : c.handler.pc = .resolveBlobs)
    (hcov : c.handler.cancelled = false →
      Custody.Covered { c with resolve := r, leases := leases }) :
    Custody.Pending { c with resolve := r, leases := leases } where
  status := hp.status
  sandbox := hp.sandbox
  due := hp.due
  covered := hcov
  owned _ todo h := by
    rw [hpc] at h
    cases h

theorem Custody.Pending.ended {state : JobState} {todo : List Effect} (hp : c.Pending)
    (hpc : c.handler.pc = .ending (.writeStatus state :: todo))
    (hc : c.handler.cancelled = false) : c.owned = false ∧ c.leases = ∅ := by
  have hlast := (List.pairwise_cons.mp (hp.due _ hpc).last).1
  constructor
  · rcases hp.owned hc _ hpc with hmem | howned
    · rcases List.mem_cons.mp hmem with h | hmem
      · cases h
      · exact absurd (hlast _ hmem rfl) nofun
    · exact howned
  · refine (hp.covered hc).released _ hpc fun hmem => ?_
    rcases List.mem_cons.mp hmem with h | hmem
    · cases h
    · exact absurd (hlast _ hmem rfl) nofun

theorem spent_of_due {state : JobState} {todo : List Effect}
    (h : Due (.writeStatus state :: todo)) : ∀ e ∈ todo, e.clears = false :=
  fun e he => (List.pairwise_cons.mp h.last).1 e he rfl

theorem Custody.Pending.effect {ok : Bool} {e : Effect} {todo : List Effect} (hp : c.Pending)
    (hpc : c.handler.pc = .ending (e :: todo)) (he : e.writes = false)
    (hb : ContextBound c (.effect ok))
    (hcov : c.handler.cancelled = false → Custody.Covered
      { (if ok then c.perform e else c) with
        handler := { c.handler.perform e with pc := .ending todo } }) :
    Custody.Pending
      { (if ok then c.perform e else c) with
        handler := { c.handler.perform e with pc := .ending todo } } where
  status state := by
    cases ok with
    | false => exact hp.status state
    | true =>
      cases e with
      | writeStatus => cases he
      | _ => exact hp.status state
  sandbox h := absurd rfl h
  due todo' h := by
    cases h
    exact (hp.due _ hpc).tail he
  covered h := hcov ((perform_cancelled c.handler e).symm.trans h)
  owned h todo' hpc' := by
    cases hpc'
    have hlive := (perform_cancelled c.handler e).symm.trans h
    obtain rfl : ok = true := by
      rw [hb ok rfl, hlive]
      rfl
    rcases hp.owned hlive _ hpc with hmem | howned
    · rcases List.mem_cons.mp hmem with rfl | hmem
      · exact .inr rfl
      · exact .inl hmem
    · right
      cases e with
      | removeOwned => rfl
      | _ => exact howned

theorem timely_iff {ok : Bool} {e : Effect} {todo : List Effect}
    (hpc : c.handler.pc = .ending (e :: todo)) :
    Timely c (.effect ok) ↔ (e.writes = true → c.handler.cancelled = false) := by
  simp [Timely, hpc, Pc.todo]

theorem Custody.Pending.step (hp : c.Pending) (hb : ContextBound c ca)
    (h : c.step ca = some c') :
    c'.Barren ∨ Timely c ca ∧ c'.Pending ∨
      c'.Spent ∧ (Timely c ca → c'.Clear) ∧
        (¬ Timely c ca → ∀ state, c'.status ≠ .ended state) := by
  have hcov := covered_of_bound hb h hp.covered
  cases step_turn h with
  | act a handler hallows hs =>
    exact (hp.act hallows hs hcov).imp_right fun hp' => .inl ⟨True.intro, hp'⟩
  | pins ref hpc | pinFails ref hpc | leases ref hpc | leaseFails ref hpc | pulls ref content hpc
  | pullFails ref name hpc | touches ok content hpc =>
    exact .inr (.inl ⟨True.intro, hp.resolves hpc hcov⟩)
  | releases ok ref leased todo hpc =>
    exact .inr (.inl ⟨True.intro, hp.status, hp.sandbox, hp.due, hcov, hp.owned⟩)
  | effect ok e todo hpc =>
    right
    rw [timely_iff hpc]
    by_cases he : e.writes = true
    · obtain ⟨state, rfl⟩ := clears_of_writes he
      right
      have hok : ok = !c.handler.cancelled := hb ok rfl
      refine ⟨⟨todo, rfl, spent_of_due (hp.due _ hpc)⟩, fun ht => ?_, fun ht => ?_⟩
      · have hlive := ht he
        rw [hlive] at hok
        subst hok
        obtain ⟨howned, hleases⟩ := hp.ended hpc hlive
        exact ⟨howned, hleases, state, rfl⟩
      · rw [Classical.not_imp, Bool.not_eq_false] at ht
        rw [ht.2] at hok
        subst hok
        exact hp.status
    · left
      refine ⟨fun hwrites => absurd hwrites he, ?_⟩
      have hlive : c.handler.cancelled = false → (c.handler.perform e).cancelled = false :=
        (perform_cancelled c.handler e).trans
      exact hp.effect hpc (Bool.not_eq_true _ ▸ he) hb fun hc => hcov (hlive hc)

variable {configured : Bool} {job : Job} {cas : List CustodyAct} {t : Custody}

def Custody.OnCourse (c : Custody) : Prop := c.Barren ∨ c.Pending ∨ c.Spent ∧ c.Clear

theorem Custody.Spent.timely (hs : c.Spent) : Timely c ca := by
  obtain ⟨todo, hpc, htodo⟩ := hs
  cases ca with
  | act | lease => exact True.intro
  | effect ok =>
    cases todo with
    | nil =>
      rw [Timely, hpc]
      nofun
    | cons e todo =>
      rw [timely_iff hpc]
      intro he
      obtain ⟨state, rfl⟩ := clears_of_writes he
      exact absurd (htodo _ List.mem_cons_self) nofun

theorem Custody.OnCourse.step (hc : c.OnCourse) (hb : ContextBound c ca) (ht : Timely c ca)
    (h : c.step ca = some c') : c'.OnCourse := by
  rcases hc with hbarren | hp | ⟨hs, hclear⟩
  · exact .inl (hbarren.step h)
  · rcases hp.step hb h with hbarren | ⟨-, hp'⟩ | ⟨hs, hclear, -⟩
    · exact .inl hbarren
    · exact .inr (.inl hp')
    · exact .inr (.inr ⟨hs, hclear ht⟩)
  · obtain ⟨hs', howned, hleases, hstatus⟩ := hs.step h
    refine .inr (.inr ⟨hs', ?_⟩)
    constructor
    · exact howned.trans hclear.owned
    · exact hleases.trans hclear.leases
    · exact hstatus ▸ hclear.status

theorem Custody.OnCourse.lost (hc : c.OnCourse) (hb : ContextBound c ca) (ht : ¬ Timely c ca)
    (h : c.step ca = some c') : c'.Barren ∨ c'.Lost := by
  rcases hc with hbarren | hp | ⟨hs, -⟩
  · exact .inl (hbarren.step h)
  · rcases hp.step hb h with hbarren | ⟨htimely, -⟩ | ⟨hs, -, hstatus⟩
    · exact .inl hbarren
    · exact absurd htimely ht
    · exact .inr ⟨hs, hstatus ht⟩
  · exact absurd hs.timely ht

theorem Custody.Lost.step (hl : c.Lost) (h : c.step ca = some c') : c'.Lost := by
  obtain ⟨hs', -, -, hstatus⟩ := hl.1.step h
  exact ⟨hs', hstatus ▸ hl.2⟩

/-- The teardown of a job whose sandbox was created has taken effect, whatever way the job ended,
exactly if the jobs context was not cancelled before the terminal status was written. -/
theorem clear_iff_timely (hr : run Custody.step (.start configured job) cas = some t)
    (hb : EveryStep Custody.step ContextBound (.start configured job) cas)
    (hend : t.handler.Ended) (hsandbox : t.handler.sandbox = .cleaned) :
    t.Clear ↔ EveryStep Custody.step Timely (.start configured job) cas := by
  have hcreated : ¬ t.Barren := fun ⟨_, _, _, hne⟩ => hne hsandbox
  have hends := everyStep_or_of_latch_of (I := Custody.OnCourse)
    (D := fun c => c.Barren ∨ c.Lost)
    (fun _ _ _ hc hw ht => hc.step hw ht) (fun _ _ _ hc hw ht => hc.lost hw ht)
    (fun _ _ _ hc _ h => hc.imp (·.step h) (·.step h))
    (.inr (.inl (.start configured job))) hb hr
  constructor
  · intro hclear
    rcases hends with ⟨hall, -⟩ | ⟨-, hbarren | ⟨-, hstatus⟩⟩
    · exact hall
    · exact absurd hbarren hcreated
    · obtain ⟨state, hs⟩ := hclear.status
      exact absurd hs (hstatus state)
  · intro hall
    rcases hends with ⟨-, hbarren | hp | ⟨-, hclear⟩⟩ | ⟨hnot, -⟩
    · exact absurd hbarren hcreated
    · obtain ⟨state, hmem⟩ := (hp.due [] hend).writes
      cases hmem
    · exact hclear
    · exact absurd hall hnot

/-- The sandbox is made and the handler waits for the start, with the blob leased. -/
def parkBlobScript : List CustodyAct :=
  leaseBlob true ++ [.lease (.pull (some "")), .lease (.touch true)] ++
    List.replicate 7 (.call true)

/-- The teardown, each of its calls with the same outcome. -/
def tearDown (ok : Bool) : List CustodyAct :=
  List.replicate 4 (.effect ok) ++ [.lease (.srem ok)] ++ List.replicate 4 (.effect ok)

/-- The deadline of `Drain` passes. -/
def drain : List CustodyAct := [.act .cancel, .act .contextDone]

theorem not_always_clear :
    ¬ ∀ (configured : Bool) (job : Job) (cas : List CustodyAct) (t : Custody),
      run Custody.step (.start configured job) cas = some t →
        EveryStep Custody.step ContextBound (.start configured job) cas → t.handler.Ended →
          t.handler.sandbox = .cleaned → t.Clear := by
  intro hall
  obtain ⟨t, hr, hpc, hsandbox, hstatus⟩ : ∃ t,
      run Custody.step (.start true blobScript) (parkBlobScript ++ drain ++ tearDown false) =
        some t ∧ t.handler.pc = .ending [] ∧ t.handler.sandbox = .cleaned ∧
          t.status = .queued := ⟨_, rfl, rfl, rfl, rfl⟩
  obtain ⟨state, hended⟩ := (hall _ _ _ t hr (by decide) hpc hsandbox).status
  rw [hstatus] at hended
  cases hended

/-- The warm-up time passes. -/
theorem warmup_clear :
    ∃ t, run Custody.step (.start true blobScript)
        (parkBlobScript ++ [.act (.tick 30000), .act .warmup] ++ tearDown true) = some t ∧
      t.Clear := by
  obtain ⟨t, hr, hpc, hsandbox⟩ : ∃ t,
      run Custody.step (.start true blobScript)
          (parkBlobScript ++ [.act (.tick 30000), .act .warmup] ++ tearDown true) = some t ∧
        t.handler.pc = .ending [] ∧ t.handler.sandbox = .cleaned := ⟨_, rfl, rfl, rfl⟩
  exact ⟨t, hr, (clear_iff_timely hr (by decide) hpc hsandbox).mpr (by decide)⟩

end CodeRunner.Worker
