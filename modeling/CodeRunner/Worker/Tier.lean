import CodeRunner.Api.Execute
import CodeRunner.Manifest.Resolve
import CodeRunner.Worker.Marker

/-! # The tier of a job

A job runs on the zygote tier when a zygote runner is configured and the manifest that its
language and version resolve to declares a preimport set. No step of the way looks at the compile
command, which only the Docker tier can run.
-/

namespace CodeRunner.Worker

open FirstMatch Transition

/-- The fields that the execute route reads. -/
def forRoute (m : Manifest) : Api.Manifest where
  compile := m.compile
  defaultLimits := m.defaultLimits
  entrypoint := m.entrypoint
  image := m.image
  interactive := m.interactive
  language := m.language
  run := m.run
  version := m.version

def zygoteEligibleFromRegistry (reg : Registry) (spec : JobSpec) : Bool :=
  match reg.resolve spec.language spec.version with
  | .error _ => false
  | .ok m => zygoteEligible m

/-- The job of a worker with a `TieredRunner`; `zygote` says whether its zygote runner is
there. -/
def tieredJob (zygote : Bool) (reg : Registry) (spec : JobSpec) (marked : Bool) (warmupMs : ℕ) :
    Job where
  spec := spec
  eligible := zygote && zygoteEligibleFromRegistry reg spec
  marked := marked
  warmupMs := warmupMs

/-- `Create` has not returned a zygote sandbox, and `Compile` is called on a Docker sandbox. -/
def Handler.OnDocker (s : Handler) : Prop :=
  s.sandbox ≠ .created .zygote ∧ ∀ since pc, s.pc = .compile since pc → s.sandbox = .created .docker

/-- The sandbox that the handler of a job holds at this call. -/
def Pc.Holds (eligible : Bool) : Pc → Sandbox → Prop
  | .create .dial, sandbox | .create .hello, sandbox => eligible = true ∧ sandbox = .absent
  | .create .started, sandbox => eligible = true ∧ sandbox = .building .zygote
  | .create .containerCreate, sandbox => sandbox = .absent
  | .create _, sandbox => sandbox = .building .docker
  | .startFlag _, sandbox | .parked _, sandbox | .compile _ _, sandbox
  | .announceRunning _, sandbox | .session, sandbox =>
    sandbox = .created .docker ∨ eligible = true ∧ sandbox = .created .zygote
  | .ending _, sandbox => sandbox = .created .zygote → eligible = true
  | _, sandbox => sandbox = .absent

def Handler.Holds (s : Handler) : Prop := s.pc.Holds s.job.eligible s.sandbox

variable {s s' t : Handler} {a : Act} {job : Job}

theorem holds_absent {todo : List Effect} (hpc : s'.pc = .ending todo)
    (hs : s'.sandbox = .absent) : s'.Holds := by
  unfold Handler.Holds
  rw [hpc, hs]
  nofun

theorem holds_ending {todo : List Effect} (hs : s'.sandbox = .created .docker ∨
      s'.job.eligible = true ∧ s'.sandbox = .created .zygote)
    (hpc : s'.pc = .ending todo) : s'.Holds := by
  unfold Handler.Holds
  rw [hpc]
  rcases hs with h | ⟨h, -⟩
  · rw [h]
    nofun
  · exact fun _ => h

theorem zygoteFails_holds (s : Handler) : s.zygoteFails.Holds := by
  have habsent := zygoteFails_sandbox s
  rcases pc_zygoteFails s with h | h
  · exact holds_absent h habsent
  · unfold Handler.Holds
    rw [h]
    exact habsent

/-- A failed `Create` may leave a container. -/
theorem holds_building {todo : List Effect} (hpc : s'.pc = .ending todo)
    (hs : s'.sandbox = .building .docker) : s'.Holds := by
  unfold Handler.Holds
  rw [hpc, hs]
  nofun

theorem create_holds {ok : Bool} {pc : CreatePc} (hpc : s.pc = .create pc) (hs : s.Holds) :
    (s.create ok pc).Holds := by
  unfold Handler.Holds at hs
  rw [hpc] at hs
  cases ok with
  | false =>
    cases pc with
    | dial | hello | started => exact zygoteFails_holds s
    | containerCreate => exact holds_absent rfl rfl
    | copyFiles | attach | containerStart => exact hs
    | containerRemove => exact holds_building rfl hs
  | true =>
    cases pc with
    | dial => exact hs
    | hello => exact ⟨hs.1, rfl⟩
    | started =>
      obtain ⟨helig, hsandbox⟩ := hs
      exact .inr ⟨helig, congrArg Sandbox.complete hsandbox⟩
    | containerCreate => exact (rfl : Sandbox.building .docker = .building .docker)
    | copyFiles | attach => exact hs
    | containerStart => exact .inl (congrArg Sandbox.complete hs)
    | containerRemove => exact holds_absent rfl rfl

theorem begin_holds (hs : s.sandbox = .created .docker ∨
      s.job.eligible = true ∧ s.sandbox = .created .zygote) : s.begin.Holds := by
  unfold Handler.Holds
  have hpc := pc_begin s
  rw [begin_eq] at hpc ⊢
  rcases hpc with h | ⟨wallMs, h⟩ <;> dsimp only at h ⊢ <;> rw [h] <;> exact hs

theorem compiled_holds {since : ℕ} {ok : Bool} (hs : s.sandbox = .created .docker ∨
      s.job.eligible = true ∧ s.sandbox = .created .zygote) : (s.compiled since ok).Holds := by
  have heq := compiled_eq s since ok
  rcases pc_compiled s since ok with ⟨wallMs, h⟩ | ⟨state, h⟩
  · unfold Handler.Holds
    rw [h, heq]
    exact hs
  · refine holds_ending ?_ h
    rw [heq]
    exact hs

theorem step_holds (h : s.step a = some s') (hs : s.Holds) : s'.Holds := by
  have hs' := hs
  unfold Handler.Holds at hs'
  cases step_branch h with
  | readSpec hpc | subscribe hpc | subscribeControl hpc | announceQueued ok hpc
  | resolveBlobs hpc | parks ok deadline hpc | announceRunning ok wallMs hpc
  | compileSucceeds since hpc | touches since hpc =>
    rw [hpc] at hs'
    exact hs'
  | readSpecFails hpc | subscribeFails hpc | subscribeControlFails hpc | resolveBlobsFails hpc =>
    rw [hpc] at hs'
    exact holds_absent rfl hs'
  | addOwned ok hpc =>
    rw [hpc] at hs'
    unfold Handler.Holds
    dsimp only
    split
    · next helig => exact ⟨helig, hs'⟩
    · exact hs'
  | create ok pc hpc => exact create_holds hpc hs
  | createLost hpc => exact holds_building rfl rfl
  | startLost hpc =>
    rw [hpc] at hs'
    exact (hs' : s.sandbox = .building .docker)
  | durableStart deadline hpc | parkedStart deadline rest hpc =>
    rw [hpc] at hs'
    exact begin_holds hs'
  | contextDone deadline hpc | warmup deadline hpc | parkedKill deadline rest hpc
  | waitReturns hpc | wall wall idle hpc | idle wall idle hpc | cpu wall idle usageMs hpc =>
    rw [hpc] at hs'
    exact holds_ending hs' rfl
  | compileExits since code hpc | compileFails since hpc | touchFails since hpc
  | resumes since wake hpc =>
    rw [hpc] at hs'
    exact compiled_holds hs'
  | effect e todo hpc =>
    rw [hpc] at hs'
    unfold Handler.Holds
    cases e <;> first | exact hs' | nofun
  | _ => exact hs

theorem start_holds (job : Job) : (Handler.start job).Holds :=
  (rfl : Sandbox.absent = .absent)

theorem reachable_holds (h : Reachable Handler.step (.start job) t) :
    t.Holds ∧ t.job = job :=
  h.invariant (I := fun s => s.Holds ∧ s.job = job)
    (fun _ _ _ hs hstep => ⟨step_holds hstep hs.1, (step_job hstep).trans hs.2⟩)
    ⟨start_holds job, rfl⟩

theorem Handler.Holds.eligible (hs : s.Holds) (hzygote : s.sandbox = .created .zygote) :
    s.job.eligible = true := by
  unfold Handler.Holds at hs
  rw [hzygote] at hs
  cases hpc : s.pc with
  | ending todo =>
    rw [hpc] at hs
    exact hs rfl
  | startFlag | parked | compile | announceRunning | session =>
    rw [hpc] at hs
    rcases hs with h | ⟨h, -⟩
    · cases h
    · exact h
  | create pc =>
    rw [hpc] at hs
    cases pc with
    | dial | hello | started => exact hs.1
    | containerCreate | copyFiles | attach | containerStart | containerRemove => cases hs
  | readSpec | subscribe | subscribeControl | announceQueued | resolveBlobs | addOwned =>
    rw [hpc] at hs
    cases hs

theorem Handler.Holds.onDocker (hs : s.Holds) (hdocker : s.job.eligible = false) :
    s.OnDocker := by
  constructor
  · intro hzygote
    rw [hs.eligible hzygote] at hdocker
    cases hdocker
  · intro since pc hpc
    unfold Handler.Holds at hs
    rw [hpc] at hs
    rcases hs with h | ⟨helig, -⟩
    · exact h
    · rw [helig] at hdocker
      cases hdocker

def compileOnZygote : List Act := List.replicate 9 (.call true) ++ [.requestStart, .call true]

theorem exists_compile_on_zygote (helig : job.eligible = true)
    (hcompile : job.spec.compile.isSome = true) :
    ∃ s, Reachable Handler.step (.start job) s ∧ ∃ since pc, s.pc = .compile since pc ∧
      s.sandbox = .created .zygote := by
  obtain ⟨⟨_, _, compile, _, _, _, _, _, _, _, _, _⟩, eligible, marked, warmupMs⟩ := job
  obtain rfl : eligible = true := helig
  obtain ⟨argv, rfl⟩ := Option.isSome_iff_exists.mp hcompile
  exact ⟨_, ⟨compileOnZygote, rfl⟩, _, _, rfl, rfl⟩

/-- Some way of `Create` puts the job on the zygote tier exactly if the predicate says so. -/
theorem onDocker_iff (job : Job) (hcompile : job.spec.compile.isSome = true) :
    (∀ s, Reachable Handler.step (.start job) s → s.OnDocker) ↔ job.eligible = false := by
  constructor
  · intro h
    by_contra helig
    obtain ⟨s, hs, since, pc, -, hzygote⟩ :=
      exists_compile_on_zygote (Bool.not_eq_false _ ▸ helig) hcompile
    exact (h s hs).1 hzygote
  · intro helig s hs
    obtain ⟨hholds, hjob⟩ := reachable_holds hs
    exact hholds.onDocker (hjob ▸ helig)

variable {reg : Registry} {ms : List Manifest} {m : Manifest} {files : List (String × Manifest)}
  {spec : JobSpec}

theorem zygoteEligible_eq_false_iff : zygoteEligible m = false ↔ preimports m = [] := by
  simp [zygoteEligible]

theorem eligible_eq_false_iff (hr : reg.Indexes ms) (hm : m ∈ ms)
    (hlang : spec.language = m.language) (hversion : spec.version = m.version) :
    zygoteEligibleFromRegistry reg spec = false ↔
      ∀ o x, First (·.keyed m.language) ms o →
        First (·.keyed (vkey o.language m.version)) ms x → preimports x = [] := by
  have hok : zygoteEligibleFromRegistry reg spec = false ↔
      ∀ x, reg.resolve m.language m.version = .ok x → preimports x = [] := by
    unfold zygoteEligibleFromRegistry
    rw [hlang, hversion]
    cases reg.resolve m.language m.version with
    | error err => exact iff_of_true rfl nofun
    | ok x => simp only [Except.ok.injEq, forall_eq', zygoteEligible_eq_false_iff]
  rw [hok]
  constructor
  · intro h o x ho hx
    exact h x ((hr.resolve_ok_iff hm).mpr ⟨o, ho, hx⟩)
  · intro h x hx
    obtain ⟨o, ho, hx⟩ := (hr.resolve_ok_iff hm).mp hx
    exact h o x ho hx

theorem eligible_eq_of_plain (hplain : Plain ms) (hr : reg.Indexes ms) (hm : m ∈ ms)
    (hlang : spec.language = m.language) (hversion : spec.version = m.version) :
    zygoteEligibleFromRegistry reg spec = zygoteEligible m := by
  unfold zygoteEligibleFromRegistry
  rw [hlang, hversion, hplain.resolve_self hr hm]

/-- Compiled jobs of a manifest stay off the zygote tier exactly if it has no compile command or
the manifest that its language and version are routed by declares no preimports. -/
theorem compile_onDocker_iff (hload : Registry.load files = .ok reg)
    (hm : m ∈ files.map Prod.snd) :
    (∀ (req : Api.ExecuteRequest) (jobId : String) (zygote marked : Bool) (warmupMs : ℕ)
        (s : Handler), req.manifest = forRoute m → (req.spec jobId).compile.isSome = true →
      Reachable Handler.step (.start (tieredJob zygote reg (req.spec jobId) marked warmupMs)) s →
        s.OnDocker) ↔
      (m.compile.isSome = true → ∀ o x, First (·.keyed m.language) (files.map Prod.snd) o →
        First (·.keyed (vkey o.language m.version)) (files.map Prod.snd) x →
          preimports x = []) := by
  have hr := load_indexes hload
  constructor
  · intro h hcompile
    let req : Api.ExecuteRequest := ⟨none, [], none, forRoute m⟩
    have hdocker := (onDocker_iff (tieredJob true reg (req.spec "") false 0) hcompile).mp
      fun s hs => h req "" true false 0 s rfl hcompile hs
    have hspec : (req.spec "").language = m.language ∧ (req.spec "").version = m.version :=
      ⟨rfl, rfl⟩
    exact (eligible_eq_false_iff hr hm hspec.1 hspec.2).mp hdocker
  · intro h req jobId zygote marked warmupMs s hreq hcompile hs
    have hmanifest : (req.spec jobId).compile = m.compile ∧
        (req.spec jobId).language = m.language ∧ (req.spec jobId).version = m.version := by
      unfold Api.ExecuteRequest.spec
      rw [hreq]
      exact ⟨rfl, rfl, rfl⟩
    obtain ⟨hc, hlang, hversion⟩ := hmanifest
    have helig := (eligible_eq_false_iff hr hm hlang hversion).mpr (h (hc ▸ hcompile))
    have hjob : (tieredJob zygote reg (req.spec jobId) marked warmupMs).eligible = false := by
      unfold tieredJob
      rw [helig, Bool.and_false]
    exact (onDocker_iff _ hcompile).mpr hjob s hs

def kotlin : Manifest where
  language := "kotlin"
  version := "2.0"
  aliases := ["kt"]
  image := "executor/kotlin:2.0"
  entrypoint := "main.kt"
  compile := some ["kotlinc", "main.kt", "-d", "main.jar"]
  run := ["kotlin", "-cp", "main.jar", "MainKt"]
  interactive := true
  preimport := some ["kotlin.collections"]
  defaultLimits := ⟨15000, 10000, 4194304, 20, 512, 512, 64, 30000⟩

def kotlinOnly : List (String × Manifest) := [("languages/kotlin-2.0/manifest.json", kotlin)]

/-- The same language without a preimport set. -/
def plainKotlin : Manifest := { kotlin with preimport := none }

def plainKotlinOnly : List (String × Manifest) :=
  [("languages/kotlin-2.0/manifest.json", plainKotlin)]

theorem compile_onDocker_plainKotlinOnly :
    ∃ reg, Registry.load plainKotlinOnly = .ok reg ∧
      ∀ (req : Api.ExecuteRequest) (jobId : String) (zygote marked : Bool) (warmupMs : ℕ)
          (s : Handler), req.manifest = forRoute plainKotlin →
        (req.spec jobId).compile.isSome = true →
        Reachable Handler.step
            (.start (tieredJob zygote reg (req.spec jobId) marked warmupMs)) s → s.OnDocker := by
  have hmem : plainKotlin ∈ plainKotlinOnly.map Prod.snd := List.mem_cons_self
  refine ⟨_, rfl, (compile_onDocker_iff rfl hmem).mpr ?_⟩
  intro _ o x _ hx
  obtain rfl := List.mem_singleton.mp hx.mem
  rfl

theorem not_compile_onDocker :
    ¬ ∀ (files : List (String × Manifest)) (reg : Registry) (m : Manifest),
      Registry.load files = .ok reg → m ∈ files.map Prod.snd →
        ∀ (req : Api.ExecuteRequest) (jobId : String) (zygote marked : Bool) (warmupMs : ℕ)
          (s : Handler), req.manifest = forRoute m → (req.spec jobId).compile.isSome = true →
          Reachable Handler.step
              (.start (tieredJob zygote reg (req.spec jobId) marked warmupMs)) s →
            s.OnDocker := by
  intro hall
  let req : Api.ExecuteRequest := ⟨none, [], none, forRoute kotlin⟩
  have hdocker := hall kotlinOnly _ kotlin rfl List.mem_cons_self req "1" true false 30000
  have hiff := (onDocker_iff (tieredJob true _ (req.spec "1") false 30000) rfl).mp
    fun s hs => hdocker s rfl rfl hs
  cases hiff

end CodeRunner.Worker
