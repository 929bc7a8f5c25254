import CodeRunner.Blob.Programs

/-! # Soundness of the presence index

A meta key answers `present` on behalf of the object store. It is created by every touch and
outlives every delete of the object, so it is sound along a run exactly when touches find the
object stored and deletes find the meta key gone.
-/

namespace CodeRunner.Blob

open Threads Transition

variable {ι : Type*} [DecidableEq ι] {cfg : Config}

/-- Every hash with a meta key has an object. -/
def Store.Sound (s : Store) : Prop := ∀ h, (s.metaKey h).isSome → (s.objects h).isSome

/-- A touch finds the object of its hash stored; an object delete finds no meta key. -/
def Grounded (cfg : Config) (c : System ι) (a : Act ι Env) : Prop :=
  (∀ h size createdAtMs reqTtl,
      (program cfg).executes c a = some (.touch h size createdAtMs reqTtl) →
        (c.shared.objects h).isSome) ∧
    ∀ h, (program cfg).executes c a = some (.removeObject h) → c.shared.metaKey h = none

def Cmd.grounded (s : Store) : Cmd → Bool
  | .touch h _ _ _ => (s.objects h).isSome
  | .removeObject h => (s.metaKey h).isNone
  | _ => true

omit [DecidableEq ι] in
theorem grounded_iff {cfg : Config} {c : System ι} {a : Act ι Env} :
    Grounded cfg c a ↔ ∀ cmd ∈ (program cfg).executes c a, cmd.grounded c.shared = true := by
  unfold Grounded
  constructor
  · rintro ⟨ht, hr⟩ cmd hcmd
    cases cmd with
    | touch h size createdAtMs reqTtl => exact ht h size createdAtMs reqTtl hcmd
    | removeObject h => exact Option.isNone_iff_eq_none.mpr (hr h hcmd)
    | _ => rfl
  · intro hall
    exact ⟨fun h size createdAtMs reqTtl hcmd => hall _ hcmd,
      fun h hcmd => Option.isNone_iff_eq_none.mp (hall _ hcmd)⟩

instance (cfg : Config) (c : System ι) (a : Act ι Env) : Decidable (Grounded cfg c a) :=
  decidable_of_iff' _ grounded_iff

theorem exec_sound {s : Store} {cmd : Cmd} (hs : s.Sound)
    (ht : ∀ h size createdAtMs reqTtl, cmd = .touch h size createdAtMs reqTtl →
      (s.objects h).isSome)
    (hr : ∀ h, cmd = .removeObject h → s.metaKey h = none) : (s.exec cmd).1.Sound := by
  intro h hm
  have ho : (s.objects h).isSome := by
    rcases exec_metaKey_isSome hm with hm | ⟨size, createdAtMs, reqTtl, rfl⟩
    · exact hs h hm
    · exact ht _ _ _ _ rfl
  rcases exec_objects_isSome (c := cmd) ho with ho | rfl
  · exact ho
  · rw [exec_metaKey_of_remove, hr h rfl] at hm
    exact absurd hm (by simp)

theorem touch_grounded_of_sound {s : Store} {h : Hash} {size createdAtMs reqTtl : ℕ}
    (hs : (s.exec (.touch h size createdAtMs reqTtl)).1.Sound) : (s.objects h).isSome := by
  have hm : ((s.exec (.touch h size createdAtMs reqTtl)).1.metaKey h).isSome := by
    rw [Store.exec, touchScript_metaKey, if_pos rfl]
    rfl
  simpa only [exec_objects_of_touch] using hs h hm

theorem remove_grounded_of_sound {s : Store} {h : Hash}
    (hs : (s.exec (.removeObject h)).1.Sound) : s.metaKey h = none := by
  by_contra hm
  have ho := hs h (Option.isSome_iff_ne_none.mpr hm)
  simp [Store.exec] at ho

theorem step_sound_iff {c c' : System ι} {a : Act ι Env} (hs : c.shared.Sound)
    (h : (program cfg).step c a = some c') : c'.shared.Sound ↔ Grounded cfg c a := by
  rcases Program.step_shared h with ⟨cmd, hc, he⟩ | ⟨hc, he⟩ | ⟨hc, e, he⟩
  · rw [he]
    constructor
    · intro hs'
      refine ⟨fun h₀ size createdAtMs reqTtl ht => ?_, fun h₀ hr => ?_⟩
      · obtain rfl := Option.some.inj (hc.symm.trans ht)
        exact touch_grounded_of_sound hs'
      · obtain rfl := Option.some.inj (hc.symm.trans hr)
        exact remove_grounded_of_sound hs'
    · rintro ⟨ht, hr⟩
      exact exec_sound hs (fun h₀ _ _ _ heq => ht h₀ _ _ _ (heq ▸ hc))
        (fun h₀ heq => hr h₀ (heq ▸ hc))
  · simp [Grounded, hc, he, hs]
  · have hs' : c'.shared.Sound := fun h₀ hm =>
      (env_frame he).1 ▸ hs h₀ (env_metaKey_isSome he hm)
    simp [Grounded, hc, hs']

/-- The index stays sound along a run exactly when each touch of it finds the object and each
object delete finds the meta key gone. -/
theorem sound_iff_grounded {c c' : System ι} {as : List (Act ι Env)} (hs : c.shared.Sound)
    (hr : run (program cfg).step c as = some c') :
    Always (program cfg).step (fun c => c.shared.Sound) c as ↔
      EveryStep (program cfg).step (Grounded cfg) c as :=
  always_iff_everyStep (fun _ _ _ hs h => step_sound_iff hs h) hs hr

/-- The loader's defaults: idle TTL 24 h, grace 30 min, lock TTL 11 min. -/
def defaults : Config := ⟨86400000, 1800000, 660000, by decide⟩

def unstored : Hash :=
  "sha256:e3b0c44298fc1c149afbf4c8996fb92427ae41e4649b934ca495991b7852b855"

/-- One job names `unstored`; then a client asks whether it still has to upload it. -/
def unstoredSystem : System ℕ where
  shared := .empty 0
  threads
    | 0 => .job (.start "job-1" [unstored])
    | _ => .check (.start [unstored])

theorem unstoredSystem_fresh : unstoredSystem.Fresh where
  shared := ⟨0, rfl⟩
  threads
    | 0 => .job _ _
    | _ + 1 => .check _

/-- The lease touch records the hash, and the check answers `present` for a blob nobody has. -/
theorem unstoredSystem_present :
    ((run (program defaults).step unstoredSystem
      [.cmd 0, .cmd 0, .cmd 0, .cmd 1, .cmd 1, .cmd 1]).map fun c =>
        (c.threads 1, (c.shared.metaKey unstored).isSome, c.shared.objects unstored)) =
      some (.check ⟨.query [] 0, [], [unstored]⟩, true, none) := rfl

theorem not_always_sound :
    ¬ ∀ (cfg : Config) (c c' : System ℕ) (as : List (Act ℕ Env)), c.Fresh →
      run (program cfg).step c as = some c' → c'.shared.Sound := by
  intro h
  obtain ⟨c', hr, hc'⟩ := Option.map_eq_some_iff.mp unstoredSystem_present
  simp only [Prod.mk.injEq] at hc'
  have ho := h _ _ c' _ unstoredSystem_fresh hr unstored hc'.2.1
  simp [hc'.2.2] at ho

/-- One client uploads `unstored` through check, PUT and finalize. -/
def uploadSystem : System ℕ where
  shared := .empty 0
  threads _ := .upload (.start unstored 5)

theorem uploadSystem_sound :
    Always (program defaults).step (fun c => c.shared.Sound) uploadSystem
      [.cmd 0, .cmd 0, .cmd 0, .cmd 0, .cmd 0] :=
  (sound_iff_grounded (fun _ hm => absurd hm (by simp [uploadSystem, Store.empty])) rfl).mpr
    (by decide)

end CodeRunner.Blob
