import Mathlib.Data.Nat.Notation
import Mathlib.Data.Option.Basic
import Mathlib.Tactic.TypeStar

/-! # Runs of a partial step function

A step function takes a state and an action to the next state, or to `none` when the
action is not enabled. Schedules are lists of actions; what holds along a whole schedule
is derived here, once, from what a single step preserves.
-/

namespace Transition

variable {σ α : Type*} (step : σ → α → Option σ)

/-- The state reached by a schedule, when each of its actions is enabled in turn. -/
def run : σ → List α → Option σ
  | s, [] => some s
  | s, a :: as => (step s a).bind fun s' => run s' as

/-- A state predicate at every state that a schedule visits, both ends included. -/
def Always (I : σ → Prop) : σ → List α → Prop
  | s, [] => I s
  | s, a :: as => I s ∧ ∀ s', step s a = some s' → Always I s' as

/-- A condition on the state before and the action taken, at every step of a schedule. -/
def EveryStep (G : σ → α → Prop) : σ → List α → Prop
  | _, [] => True
  | s, a :: as => G s a ∧ ∀ s', step s a = some s' → EveryStep G s' as

def Reachable (s₀ s : σ) : Prop := ∃ as, run step s₀ as = some s

variable {step} {I J : σ → Prop} {G H : σ → α → Prop} {s s' t : σ} {a : α} {as bs : List α}

@[simp] theorem run_nil : run step s [] = some s := rfl

theorem run_cons_eq_some :
    run step s (a :: as) = some t ↔ ∃ s', step s a = some s' ∧ run step s' as = some t :=
  Option.bind_eq_some_iff

theorem run_cons_of_step (h : step s a = some s') :
    run step s (a :: as) = run step s' as := by
  simp [run, h]

theorem run_append : run step s (as ++ bs) = (run step s as).bind fun s' => run step s' bs := by
  induction as generalizing s with
  | nil => rfl
  | cons a as ih =>
    rw [List.cons_append, run, run, Option.bind_assoc]
    simp only [ih]

theorem Reachable.refl : Reachable step s s := ⟨[], rfl⟩

theorem Reachable.trans (h : Reachable step s s') (h' : Reachable step s' t) :
    Reachable step s t := by
  obtain ⟨as, has⟩ := h
  obtain ⟨bs, hbs⟩ := h'
  exact ⟨as ++ bs, by rw [run_append, has]; exact hbs⟩

theorem Reachable.of_step (h : step s a = some s') : Reachable step s s' :=
  ⟨[a], by rw [run_cons_of_step h]; rfl⟩

theorem Reachable.tail (h : Reachable step s s') (h' : step s' a = some t) :
    Reachable step s t := h.trans (.of_step h')

theorem Always.head (h : Always step I s as) : I s := by
  cases as with
  | nil => exact h
  | cons a as => exact h.1

theorem Always.last (h : Always step I s as) (hr : run step s as = some t) : I t := by
  induction as generalizing s with
  | nil => exact Option.some.inj hr ▸ h
  | cons a as ih =>
    obtain ⟨s', hs, hr⟩ := run_cons_eq_some.mp hr
    exact ih (h.2 s' hs) hr

theorem Always.mono (hIJ : ∀ s, I s → J s) (h : Always step I s as) : Always step J s as := by
  induction as generalizing s with
  | nil => exact hIJ s h
  | cons a as ih => exact ⟨hIJ s h.1, fun s' hs => ih (h.2 s' hs)⟩

theorem Always.and (h : Always step I s as) (h' : Always step J s as) :
    Always step (fun s => I s ∧ J s) s as := by
  induction as generalizing s with
  | nil => exact ⟨h, h'⟩
  | cons a as ih => exact ⟨⟨h.1, h'.1⟩, fun s' hs => ih (h.2 s' hs) (h'.2 s' hs)⟩

/-- Two predicates that an invariant makes equivalent hold along the same schedules. -/
theorem Always.congr {K : σ → Prop} (hIJ : ∀ s, K s → (I s ↔ J s)) (hK : Always step K s as) :
    Always step I s as ↔ Always step J s as := by
  induction as generalizing s with
  | nil => exact hIJ s hK
  | cons a as ih =>
    exact and_congr (hIJ s hK.1) (forall_congr' fun s' => forall_congr' fun hs => ih (hK.2 s' hs))

theorem EveryStep.congr (hGH : ∀ s a, I s → (G s a ↔ H s a)) (hI : Always step I s as) :
    EveryStep step G s as ↔ EveryStep step H s as := by
  induction as generalizing s with
  | nil => exact Iff.rfl
  | cons a as ih =>
    exact and_congr (hGH s a hI.1)
      (forall_congr' fun s' => forall_congr' fun hs => ih (hI.2 s' hs))

theorem EveryStep.mono (hGH : ∀ s a, G s a → H s a) (h : EveryStep step G s as) :
    EveryStep step H s as := by
  induction as generalizing s with
  | nil => trivial
  | cons a as ih => exact ⟨hGH s a h.1, fun s' hs => ih (h.2 s' hs)⟩

theorem EveryStep.and (h : EveryStep step G s as) (h' : EveryStep step H s as) :
    EveryStep step (fun s a => G s a ∧ H s a) s as := by
  induction as generalizing s with
  | nil => trivial
  | cons a as ih => exact ⟨⟨h.1, h'.1⟩, fun s' hs => ih (h.2 s' hs) (h'.2 s' hs)⟩

theorem everyStep_cons (h : step s a = some s') :
    EveryStep step G s (a :: as) ↔ G s a ∧ EveryStep step G s' as := by
  simp [EveryStep, h]

theorem everyStep_append (hr : run step s as = some s') :
    EveryStep step G s (as ++ bs) ↔ EveryStep step G s as ∧ EveryStep step G s' bs := by
  induction as generalizing s with
  | nil => simp [EveryStep, Option.some.inj hr]
  | cons a as ih =>
    obtain ⟨s₁, hs, hr⟩ := run_cons_eq_some.mp hr
    simp only [List.cons_append, EveryStep, hs, Option.some.injEq, forall_eq', ih hr, and_assoc]

theorem always_append (hr : run step s as = some s') :
    Always step I s (as ++ bs) ↔ Always step I s as ∧ Always step I s' bs := by
  induction as generalizing s with
  | nil =>
    obtain rfl : s = s' := Option.some.inj hr
    exact ⟨fun h => ⟨h.head, h⟩, fun h => h.2⟩
  | cons a as ih =>
    obtain ⟨s₁, hs, hr⟩ := run_cons_eq_some.mp hr
    simp only [List.cons_append, Always, hs, Option.some.injEq, forall_eq', ih hr, and_assoc]

/-- A run into `I` from outside takes a step into it. -/
theorem exists_crossing (hs : ¬ I s) (ht : I t) (hr : run step s as = some t) :
    ∃ bs a cs u u', as = bs ++ a :: cs ∧ run step s bs = some u ∧ ¬ I u ∧
      step u a = some u' ∧ I u' ∧ run step u' cs = some t := by
  induction as generalizing s with
  | nil =>
    obtain rfl : s = t := Option.some.inj hr
    exact absurd ht hs
  | cons a as ih =>
    obtain ⟨s', hstep, hr⟩ := run_cons_eq_some.mp hr
    by_cases hs' : I s'
    · exact ⟨[], a, as, s, s', rfl, rfl, hs, hstep, hs', hr⟩
    · obtain ⟨bs, b, cs, u, u', rfl, hu, hrest⟩ := ih hs' hr
      exact ⟨a :: bs, b, cs, u, u', rfl, by rw [run_cons_of_step hstep, hu], hrest⟩

theorem always_not_of_last (hstep : ∀ s a s', I s → step s a = some s' → I s') (ht : ¬ I t)
    (hr : run step s as = some t) : Always step (fun s => ¬ I s) s as := by
  induction as generalizing s with
  | nil =>
    obtain rfl : s = t := Option.some.inj hr
    exact ht
  | cons a as ih =>
    obtain ⟨s₁, hs, hr⟩ := run_cons_eq_some.mp hr
    have hrest := ih hr
    refine ⟨fun hI => hrest.head (hstep s a s₁ hI hs), fun s₂ hs₂ => ?_⟩
    obtain rfl : s₁ = s₂ := Option.some.inj (hs.symm.trans hs₂)
    exact hrest

variable (step) in
instance Always.instDecidable [∀ s, Decidable (I s)] :
    ∀ s as, Decidable (Always step I s as)
  | s, [] => inferInstanceAs (Decidable (I s))
  | s, a :: as =>
    match h : step s a with
    | none => decidable_of_iff (I s) (by simp [Always, h])
    | some s' =>
      have := Always.instDecidable s' as
      decidable_of_iff (I s ∧ Always step I s' as) (by simp [Always, h])

variable (step) in
instance EveryStep.instDecidable [∀ s a, Decidable (G s a)] :
    ∀ s as, Decidable (EveryStep step G s as)
  | _, [] => isTrue trivial
  | s, a :: as =>
    match h : step s a with
    | none => decidable_of_iff (G s a) (by simp [EveryStep, h])
    | some s' =>
      have := EveryStep.instDecidable s' as
      decidable_of_iff (G s a ∧ EveryStep step G s' as) (by simp [EveryStep, h])

/-- A predicate that every step meeting `G` preserves holds along every schedule whose
steps all meet `G`. -/
theorem Always.of_guarded
    (hstep : ∀ s a s', I s → G s a → step s a = some s' → I s')
    (hI : I s) (hG : EveryStep step G s as) : Always step I s as := by
  induction as generalizing s with
  | nil => exact hI
  | cons a as ih =>
    exact ⟨hI, fun s' hs => ih (hstep s a s' hI hG.1 hs) (hG.2 s' hs)⟩

theorem Always.of_invariant (hstep : ∀ s a s', I s → step s a = some s' → I s') (hI : I s) :
    Always step I s as := by
  induction as generalizing s with
  | nil => exact hI
  | cons a as ih => exact ⟨hI, fun s' hs => ih (hstep s a s' hI hs)⟩

theorem Reachable.invariant (hstep : ∀ s a s', I s → step s a = some s' → I s') (hI : I s)
    (h : Reachable step s t) : I t := by
  obtain ⟨as, hr⟩ := h
  have hall : Always step I s as := .of_invariant hstep hI
  exact hall.last hr

theorem EveryStep.of_always (hGH : ∀ s a s', I s → G s a → step s a = some s' → H s a)
    (hI : Always step I s as) (hG : EveryStep step G s as) (hr : run step s as = some t) :
    EveryStep step H s as := by
  induction as generalizing s with
  | nil => trivial
  | cons a as ih =>
    obtain ⟨s', hs, hr⟩ := run_cons_eq_some.mp hr
    refine ⟨hGH s a s' hI.1 hG.1 hs, fun s₁ hs₁ => ?_⟩
    obtain rfl : s' = s₁ := Option.some.inj (hs.symm.trans hs₁)
    exact ih (hI.2 s' hs) (hG.2 s' hs) hr

/-- What an invariant implies of the actions that meet `G`, enabled or not. -/
theorem EveryStep.of_always_guard (hGH : ∀ s a, I s → G s a → H s a)
    (hI : Always step I s as) (hG : EveryStep step G s as) : EveryStep step H s as := by
  induction as generalizing s with
  | nil => trivial
  | cons a as ih => exact ⟨hGH s a hI.1 hG.1, fun s' hs => ih (hI.2 s' hs) (hG.2 s' hs)⟩

/-- What two successive states in `I` imply of the step between them holds at every step of
a run that stays in `I`. -/
theorem EveryStep.of_always_next
    (hG : ∀ s a s', I s → I s' → step s a = some s' → G s a) (hI : Always step I s as)
    (hr : run step s as = some t) : EveryStep step G s as := by
  induction as generalizing s with
  | nil => trivial
  | cons a as ih =>
    obtain ⟨s', hs, hr⟩ := run_cons_eq_some.mp hr
    have hI' : Always step I s' as := hI.2 s' hs
    refine ⟨hG s a s' hI.1 hI'.head hs, fun s₁ hs₁ => ?_⟩
    obtain rfl : s' = s₁ := Option.some.inj (hs.symm.trans hs₁)
    exact ih hI' hr

/-- When a step meeting `W` between states in `J` keeps `I` exactly if it meets `G`, and `J`
is invariant under such steps, a run of them stays in `I` exactly if all its steps meet `G`. -/
theorem always_iff_everyStep_of {W : σ → α → Prop}
    (haux : ∀ s a s', J s → W s a → step s a = some s' → J s')
    (hstep : ∀ s a s', J s → J s' → I s → W s a → step s a = some s' → (I s' ↔ G s a))
    (hJ : J s) (hI : I s) (hW : EveryStep step W s as) (hr : run step s as = some t) :
    Always step I s as ↔ EveryStep step G s as := by
  constructor
  · intro h
    induction as generalizing s with
    | nil => exact True.intro
    | cons a as ih =>
      obtain ⟨s', hs, hr⟩ := run_cons_eq_some.mp hr
      have hJ' : J s' := haux s a s' hJ hW.1 hs
      have hI' : I s' := (h.2 s' hs).head
      refine ⟨(hstep s a s' hJ hJ' hI hW.1 hs).mp hI', fun s₁ hs₁ => ?_⟩
      obtain rfl : s' = s₁ := Option.some.inj (hs.symm.trans hs₁)
      exact ih hJ' hI' (hW.2 s' hs) hr (h.2 s' hs)
  · intro hG
    have hboth : Always step (fun s => J s ∧ I s) s as :=
      .of_guarded (fun s a s' hI hG hs => by
        have hJ' := haux s a s' hI.1 hG.1 hs
        exact ⟨hJ', (hstep s a s' hI.1 hJ' hI.2 hG.1 hs).mpr hG.2⟩) ⟨hJ, hI⟩ (hW.and hG)
    exact hboth.mono fun s h => h.2

/-- When steps meeting `G` keep an invariant under which `G` and `H` agree on each step, a run
meets the one at all of its steps exactly if it meets the other. -/
theorem everyStep_iff_of_guarded
    (hstep : ∀ s a s', I s → G s a → step s a = some s' → I s')
    (hGH : ∀ s a s', I s → step s a = some s' → (G s a ↔ H s a))
    (hI : I s) (hr : run step s as = some t) :
    EveryStep step G s as ↔ EveryStep step H s as := by
  induction as generalizing s with
  | nil => exact Iff.rfl
  | cons a as ih =>
    obtain ⟨s', hs, hr⟩ := run_cons_eq_some.mp hr
    rw [everyStep_cons hs, everyStep_cons hs, ← hGH s a s' hI hs]
    exact and_congr_right fun hG => ih (hstep s a s' hI hG hs) hr

theorem EveryStep.trivial : EveryStep step (fun _ _ => True) s as := by
  induction as generalizing s with
  | nil => exact True.intro
  | cons a as ih => exact ⟨True.intro, fun s' _ => ih⟩

theorem everyStep_of_mem {P : α → Prop} (h : ∀ a ∈ as, P a) :
    EveryStep step (fun _ a => P a) s as := by
  induction as generalizing s with
  | nil => exact True.intro
  | cons a as ih =>
    exact ⟨h a List.mem_cons_self, fun s' _ => ih fun b hb => h b (List.mem_cons_of_mem a hb)⟩

/-- When a step keeps `I` exactly if it meets `G`, a run stays in `I` exactly if all of its
steps meet `G`. -/
theorem always_iff_everyStep
    (hstep : ∀ s a s', I s → step s a = some s' → (I s' ↔ G s a))
    (hI : I s) (hr : run step s as = some t) :
    Always step I s as ↔ EveryStep step G s as :=
  always_iff_everyStep_of (J := fun _ => True) (fun _ _ _ _ _ _ => True.intro)
    (fun s a s' _ _ hI _ hs => hstep s a s' hI hs) True.intro hI EveryStep.trivial hr

/-- When a step out of `I` meeting `W` stays in `I` if it meets `G` and otherwise falls into `D`,
which such steps do not leave, the end of a run of them tells whether all of its steps met `G`. -/
theorem everyStep_or_of_latch_of {I D : σ → Prop} {W : σ → α → Prop}
    (keep : ∀ s a s', I s → W s a → G s a → step s a = some s' → I s')
    (fall : ∀ s a s', I s → W s a → ¬ G s a → step s a = some s' → D s')
    (stay : ∀ s a s', D s → W s a → step s a = some s' → D s')
    (hI : I s) (hW : EveryStep step W s as) (hr : run step s as = some t) :
    EveryStep step G s as ∧ I t ∨ ¬ EveryStep step G s as ∧ D t := by
  induction as generalizing s with
  | nil => exact .inl ⟨True.intro, Option.some.inj hr ▸ hI⟩
  | cons a as ih =>
    obtain ⟨s', hs, hr⟩ := run_cons_eq_some.mp hr
    obtain ⟨hw, hW⟩ := (everyStep_cons hs).mp hW
    rw [everyStep_cons hs]
    by_cases hG : G s a
    · rcases ih (keep s a s' hI hw hG hs) hW hr with ⟨h, hIt⟩ | ⟨h, hDt⟩
      · exact .inl ⟨⟨hG, h⟩, hIt⟩
      · exact .inr ⟨fun hall => h hall.2, hDt⟩
    · have hD : Always step D s' as := .of_guarded stay (fall s a s' hI hw hG hs) hW
      exact .inr ⟨fun hall => hG hall.1, hD.last hr⟩

/-- When a step out of `I` stays in `I` exactly if it meets `G` and falls into `D` for good
otherwise, the end of a run tells whether all of its steps met `G`. -/
theorem everyStep_or_of_latch {I D : σ → Prop}
    (keep : ∀ s a s', I s → G s a → step s a = some s' → I s')
    (fall : ∀ s a s', I s → ¬ G s a → step s a = some s' → D s')
    (stay : ∀ s a s', D s → step s a = some s' → D s')
    (hI : I s) (hr : run step s as = some t) :
    EveryStep step G s as ∧ I t ∨ ¬ EveryStep step G s as ∧ D t :=
  everyStep_or_of_latch_of (fun s a s' hI _ => keep s a s' hI) (fun s a s' hI _ => fall s a s' hI)
    (fun s a s' hD _ => stay s a s' hD) hI .trivial hr

/-- When the steps in `P` lower a measure, those in `Q` raise it by at most `k` and the others
do not raise it, the steps in `P` of a run are bounded by those in `Q`. -/
theorem countP_le_of_measure {P Q : α → Bool} {μ : σ → ℕ} {k : ℕ}
    (lower : ∀ s a s', P a = true → step s a = some s' → μ s' < μ s)
    (raise : ∀ s a s', P a = false → step s a = some s' →
      μ s' ≤ μ s + if Q a then k else 0)
    (hr : run step s as = some t) : as.countP P + μ t ≤ μ s + k * as.countP Q := by
  induction as generalizing s with
  | nil =>
    obtain rfl : s = t := Option.some.inj hr
    exact Nat.le_of_eq (Nat.zero_add _)
  | cons a as ih =>
    obtain ⟨s', hs, hr⟩ := run_cons_eq_some.mp hr
    have hrest := ih hr
    rw [List.countP_cons, List.countP_cons, Nat.mul_add]
    cases hP : P a with
    | true =>
      have hlt := lower s a s' hP hs
      simp only [if_true]
      omega
    | false =>
      have hle := raise s a s' hP hs
      cases hQ : Q a with
      | true =>
        simp only [hQ, if_true, Nat.mul_one] at hle ⊢
        simp only [Bool.false_eq_true, if_false]
        omega
      | false =>
        simp only [hQ, Bool.false_eq_true, if_false, Nat.mul_zero] at hle ⊢
        omega

/-- A run whose steps keep an invariant and lower a measure is bounded by the measure. -/
theorem length_le_of_measure {μ : σ → ℕ} (hstep : ∀ s a s', I s → step s a = some s' → I s')
    (lower : ∀ s a s', I s → step s a = some s' → μ s' < μ s) (hI : I s)
    (hr : run step s as = some t) : as.length + μ t ≤ μ s := by
  induction as generalizing s with
  | nil =>
    obtain rfl : s = t := Option.some.inj hr
    exact Nat.le_of_eq (Nat.zero_add _)
  | cons a as ih =>
    obtain ⟨s', hs, hr⟩ := run_cons_eq_some.mp hr
    have hrest := ih (hstep s a s' hI hs) hr
    have hlt := lower s a s' hI hs
    rw [List.length_cons]
    omega

/-- When every state of an invariant is done or can be left for one of a lower measure by steps
meeting `G`, steps meeting `G` lead to one that is done. -/
theorem exists_run_of_measure {D : σ → Prop} (μ : σ → ℕ)
    (h : ∀ s, I s → D s ∨ ∃ as s', run step s as = some s' ∧ EveryStep step G s as ∧ I s' ∧
      μ s' < μ s) (hI : I s) :
    ∃ as t, run step s as = some t ∧ EveryStep step G s as ∧ I t ∧ D t := by
  induction hμ : μ s using Nat.strongRecOn generalizing s with
  | ind n ih =>
    rcases h s hI with hD | ⟨as, s', hr, hg, hI', hlt⟩
    · exact ⟨[], s, rfl, trivial, hI, hD⟩
    · obtain ⟨bs, t, hr', hg', hI'', hD⟩ := ih _ (hμ ▸ hlt) hI' rfl
      refine ⟨as ++ bs, t, ?_, (everyStep_append hr).mpr ⟨hg, hg'⟩, hI'', hD⟩
      rw [run_append, hr]
      exact hr'

theorem measure_run_le {μ : σ → ℕ} (hmono : ∀ s a s', step s a = some s' → μ s' ≤ μ s)
    (hr : run step s as = some t) : μ t ≤ μ s :=
  Reachable.invariant (I := fun u => μ u ≤ μ s)
    (fun u a u' h hs => Nat.le_trans (hmono u a u' hs) h) (Nat.le_refl _) ⟨as, hr⟩

/-- When no step raises a measure, and one that keeps it leads into `I` exactly from `I` and by
`G`, a run that keeps it ends in `I` exactly if it starts there and all its steps meet `G`. -/
theorem last_iff_everyStep {μ : σ → ℕ}
    (hmono : ∀ s a s', step s a = some s' → μ s' ≤ μ s)
    (hstep : ∀ s a s', step s a = some s' → μ s' = μ s → (I s' ↔ I s ∧ G s a))
    (hr : run step s as = some t) (hμ : μ t = μ s) : I t ↔ I s ∧ EveryStep step G s as := by
  induction as generalizing s with
  | nil =>
    obtain rfl : s = t := Option.some.inj hr
    exact (and_iff_left True.intro).symm
  | cons a as ih =>
    obtain ⟨s', hs, hr⟩ := run_cons_eq_some.mp hr
    have hlast : μ t ≤ μ s' := measure_run_le hmono hr
    have hfirst : μ s' ≤ μ s := hmono s a s' hs
    rw [ih hr (by omega), hstep s a s' hs (by omega), everyStep_cons hs, and_assoc]

/-- When a step meeting `W` from a state in `J` leads into `I` exactly from `I` and by `G`, a run of
such steps ends in `I` exactly if it starts there and all its steps meet `G`. -/
theorem last_iff_everyStep_of {W : σ → α → Prop}
    (haux : ∀ s a s', J s → W s a → step s a = some s' → J s')
    (hstep : ∀ s a s', J s → W s a → step s a = some s' → (I s' ↔ I s ∧ G s a))
    (hJ : J s) (hW : EveryStep step W s as) (hr : run step s as = some t) :
    I t ↔ I s ∧ EveryStep step G s as := by
  induction as generalizing s with
  | nil =>
    obtain rfl : s = t := Option.some.inj hr
    exact (and_iff_left True.intro).symm
  | cons a as ih =>
    obtain ⟨s', hs, hr⟩ := run_cons_eq_some.mp hr
    obtain ⟨hw, hW⟩ := (everyStep_cons hs).mp hW
    rw [ih (haux s a s' hJ hw hs) hW hr, hstep s a s' hJ hw hs, everyStep_cons hs, and_assoc]

/-- A state with what the steps up to it have put out. -/
structure Recorded (σ ω : Type*) where
  state : σ
  record : List ω

variable {ω : Type*} {out : σ → α → List ω} {r r' u : Recorded σ ω}

variable (step) in
/-- The machine that also keeps the record of its outputs. -/
def recorded (out : σ → α → List ω) (r : Recorded σ ω) (a : α) : Option (Recorded σ ω) :=
  (step r.state a).map fun s' => ⟨s', r.record ++ out r.state a⟩

theorem recorded_eq_some :
    recorded step out r a = some r' ↔
      step r.state a = some r'.state ∧ r'.record = r.record ++ out r.state a := by
  rw [recorded, Option.map_eq_some_iff]
  constructor
  · rintro ⟨s', hs, rfl⟩
    exact ⟨hs, rfl⟩
  · rintro ⟨hs, hrec⟩
    exact ⟨r'.state, hs, by rw [← hrec]⟩

theorem run_of_recorded (hr : run (recorded step out) r as = some u) :
    run step r.state as = some u.state := by
  induction as generalizing r with
  | nil => exact congrArg some (congrArg Recorded.state (Option.some.inj hr))
  | cons a as ih =>
    obtain ⟨r', hs, hr⟩ := run_cons_eq_some.mp hr
    obtain ⟨hs, -⟩ := recorded_eq_some.mp hs
    rw [run_cons_of_step hs]
    exact ih hr

end Transition
