import CodeRunner.Api.Execute
import CodeRunner.Zygote.Hello
import Mathlib.Algebra.Group.Int.Defs

/-! # The limits in the units of their use

A limit is scaled where it is used: to the nanoseconds of a `time.Duration`, to bytes, and to the
size of `/tmp` on either tier. The products are 64-bit integers, and the signs of some are looked
at for a default.
-/

namespace CodeRunner.Scaling

/-- `time.Millisecond`. -/
def millisecond : Int64 := 1000000

/-- The timer of `runWallClock`. -/
def wallTimer (limits : Limits) : Int64 := limits.wallTimeMs * millisecond

/-- The timer of `runIdleClock`, at its start and at every reset. -/
def idleTimer (limits : Limits) : Int64 := limits.idleMs * millisecond

/-- What `superviseInteractive` stores in the budget of the pumps. -/
def outputBudget (limits : Limits) : Int64 := limits.outputKb * 1024

/-- `Memory` and `MemorySwap` of a container. -/
def memBytes (limits : Limits) : Int64 :=
  let memBytes := limits.memoryMb * 1024 * 1024
  if memBytes ≤ 0 then 128 * 1024 * 1024 else memBytes

def defaultTmpfsSizeMb : Int64 := 64

/-- The size of `/tmp` in a container. -/
def tmpfsSizeMb (limits : Limits) : Int64 :=
  if 0 < limits.outputKb then
    let tmpfsSizeMb := (limits.outputKb / 1024 + 1) * 2
    if tmpfsSizeMb < defaultTmpfsSizeMb then defaultTmpfsSizeMb else tmpfsSizeMb
  else defaultTmpfsSizeMb

def InSchema (v : Int64) : Prop := 1 ≤ v.toInt ∧ v.toInt ≤ 2 ^ 53 - 1

instance (v : Int64) : Decidable (InSchema v) := inferInstanceAs (Decidable (_ ∧ _))

def fields (l : Limits) : List Int64 :=
  [l.wallTimeMs, l.idleMs, l.cpuMs, l.memoryMb, l.pids, l.outputKb, l.maxArtifacts,
    l.maxArtifactBytes]

def overrideFields (o : Api.LimitsOverride) : List (Option Int64) :=
  [o.wallTimeMs, o.idleMs, o.cpuMs, o.memoryMb, o.pids, o.outputKb, o.maxArtifacts,
    o.maxArtifactBytes]

/-- What `mergeLimits` makes of the defaults of a manifest and a request, both in the schema. -/
def Admitted (l : Limits) : Prop :=
  ∃ defaults overrides, l = Api.mergeLimits defaults overrides ∧
    (∀ v ∈ fields defaults, InSchema v) ∧
    ∀ o ∈ overrides, ∀ v ∈ overrideFields o, ∀ n ∈ v, InSchema n

variable {l : Limits} {spec : JobSpec} {cfg : Zygote.Config} {a b : Int64} {c : ℤ}

theorem Admitted.inSchema (h : Admitted l) : ∀ v ∈ fields l, InSchema v := by
  obtain ⟨defaults, overrides, rfl, hdefaults, hoverrides⟩ := h
  cases overrides with
  | none => exact hdefaults
  | some o =>
    have ho := hoverrides o rfl
    have hget : ∀ (v : Option Int64) (d : Int64), v ∈ overrideFields o → d ∈ fields defaults →
        InSchema (v.getD d) := by
      intro v d hv hd
      cases v with
      | none => exact hdefaults d hd
      | some n => exact ho (some n) hv n rfl
    simp only [fields, Api.mergeLimits, List.forall_mem_cons]
    refine ⟨?_, ?_, ?_, ?_, ?_, ?_, ?_, ?_, nofun⟩ <;>
      exact hget _ _ (by simp [overrideFields]) (by simp [fields])

theorem toInt_mul_iff : (a * b).toInt = a.toInt * b.toInt ↔
    -2 ^ 63 ≤ a.toInt * b.toInt ∧ a.toInt * b.toInt < 2 ^ 63 := by
  rw [Int64.toInt_mul]
  constructor
  · intro h
    have hle := Int64.le_toInt (a * b)
    have hlt := Int64.toInt_lt (a * b)
    rw [Int64.toInt_mul, h] at hle hlt
    exact ⟨hle, hlt⟩
  · rintro ⟨hle, hlt⟩
    exact Int.bmod_eq_of_le (by omega) (by omega)

/-- Of a positive number and a positive constant the product is exact below a bound. -/
theorem scale_iff (hb : b.toInt = c) (hc : 0 < c) (ha : 0 < a.toInt) :
    (a * b).toInt = a.toInt * c ↔ a.toInt ≤ (2 ^ 63 - 1) / c := by
  rw [← hb, toInt_mul_iff, hb, Int.le_ediv_iff_mul_le hc]
  have hpos : 0 < a.toInt * c := Int.mul_pos ha hc
  omega

theorem wallTimer_iff (h : 0 < l.wallTimeMs.toInt) :
    (wallTimer l).toInt = l.wallTimeMs.toInt * 1000000 ↔ l.wallTimeMs.toInt ≤ 9223372036854 :=
  scale_iff (by decide) (by decide) h

theorem idleTimer_iff (h : 0 < l.idleMs.toInt) :
    (idleTimer l).toInt = l.idleMs.toInt * 1000000 ↔ l.idleMs.toInt ≤ 9223372036854 :=
  scale_iff (by decide) (by decide) h

theorem outputBudget_eq (h : InSchema l.outputKb) :
    (outputBudget l).toInt = l.outputKb.toInt * 1024 := by
  obtain ⟨hge, hle⟩ := h
  apply (scale_iff (by decide) (by decide) (by omega)).mpr
  omega

/-- The number of megabytes as bytes, or the default where the product has no positive sign. -/
theorem megabytes_iff (h : 0 < a.toInt) :
    (if a * 1024 * 1024 ≤ 0 then 128 * 1024 * 1024 else a * 1024 * 1024 : Int64).toInt =
      a.toInt * 2 ^ 20 ↔ a.toInt < 2 ^ 43 := by
  have hassoc : a * 1024 * 1024 = a * (1024 * 1024) := Int64.mul_assoc a 1024 1024
  have hexact : (a * (1024 * 1024)).toInt = a.toInt * 2 ^ 20 ↔ a.toInt < 2 ^ 43 := by
    rw [scale_iff (c := 2 ^ 20) (by decide) (by decide) h]
    omega
  rw [hassoc]
  split
  · next hneg =>
    have hle : (a * (1024 * 1024)).toInt ≤ 0 := Int64.le_iff_toInt_le.mp hneg
    have hdefault : (128 * 1024 * 1024 : Int64).toInt = 2 ^ 27 := by decide
    rw [hdefault]
    constructor
    · intro heq
      omega
    · intro hlt
      have heq := hexact.mpr hlt
      omega
  · exact hexact

/-- The megabytes of `/tmp` on either tier, before the default. -/
def headroom (outputKb : ℤ) : ℤ := (outputKb / 1024 + 1) * 2

theorem toInt_headroom (h : InSchema a) : ((a / 1024 + 1) * 2).toInt = headroom a.toInt := by
  obtain ⟨hge, hle⟩ := h
  have hdiv : (a / 1024).toInt = a.toInt / 1024 := by
    rw [Int64.toInt_div_of_ne_right _ _ (by decide)]
    exact Int.tdiv_eq_ediv_of_nonneg (by omega)
  have hadd : (a / 1024 + 1).toInt = a.toInt / 1024 + 1 := by
    rw [Int64.toInt_add, hdiv]
    exact Int.bmod_eq_of_le (by simp; omega) (by simp; omega)
  rw [(scale_iff (c := 2) (by decide) (by decide) (by omega)).mpr (by omega), hadd, headroom]

theorem tmpfsSizeMb_eq (h : InSchema l.outputKb) :
    (tmpfsSizeMb l).toInt = max 64 (headroom l.outputKb.toInt) := by
  have hpos : 0 < l.outputKb := by
    rw [Int64.lt_iff_toInt_lt]
    exact Int.lt_of_lt_of_le (by decide) h.1
  have hroom := toInt_headroom h
  have hdefault : defaultTmpfsSizeMb.toInt = 64 := rfl
  rw [tmpfsSizeMb, if_pos hpos]
  dsimp only
  split
  · next hlt =>
    rw [Int64.lt_iff_toInt_lt, hroom, hdefault] at hlt
    rw [hdefault]
    omega
  · next hge =>
    rw [Int64.lt_iff_toInt_lt, hroom, hdefault] at hge
    rw [hroom]
    omega

/-- The HELLO has the size in bytes, which a large `outputKb` wraps. -/
theorem helloTmpfs_iff (h : InSchema l.outputKb) :
    (Zygote.helloTmpfs l).toInt = max (2 ^ 26) (headroom l.outputKb.toInt * 2 ^ 20) ↔
      l.outputKb.toInt < 2 ^ 52 - 1024 := by
  have hpos : 0 < l.outputKb := by
    rw [Int64.lt_iff_toInt_lt]
    exact Int.lt_of_lt_of_le (by decide) h.1
  have hroom := toInt_headroom h
  obtain ⟨hge, hle⟩ := h
  have hassoc : (l.outputKb / 1024 + 1) * 2 * 1024 * 1024 =
      (l.outputKb / 1024 + 1) * 2 * (1024 * 1024) := Int64.mul_assoc _ 1024 1024
  have hexact : ((l.outputKb / 1024 + 1) * 2 * (1024 * 1024)).toInt =
      headroom l.outputKb.toInt * 2 ^ 20 ↔ l.outputKb.toInt < 2 ^ 52 - 1024 := by
    rw [← hroom, scale_iff (c := 2 ^ 20) (by decide) (by decide) (by rw [hroom, headroom]; omega),
      hroom, headroom]
    omega
  have hdefault : Zygote.defaultZygoteTmpfsBytes.toInt = 2 ^ 26 := by decide
  rw [Zygote.helloTmpfs, if_pos hpos]
  dsimp only
  rw [hassoc]
  split
  · next hlt =>
    rw [Int64.lt_iff_toInt_lt, hdefault] at hlt
    rw [← hexact]
    constructor
    · intro heq
      omega
    · intro heq
      omega
  · next hnot =>
    rw [Int64.lt_iff_toInt_lt, hdefault, Int.not_lt] at hnot
    rw [hdefault]
    constructor
    · intro heq
      have hsmall : headroom l.outputKb.toInt * 2 ^ 20 ≤ 2 ^ 26 := by omega
      rw [headroom] at hsmall
      omega
    · intro hlt
      have heq := hexact.mpr hlt
      omega

/-- Every product is the limit in its unit; the sizes of `/tmp` are no smaller than their
defaults. -/
structure Represents (cfg : Zygote.Config) (spec : JobSpec) : Prop where
  wall : (wallTimer spec.limits).toInt = spec.limits.wallTimeMs.toInt * 1000000
  idle : (idleTimer spec.limits).toInt = spec.limits.idleMs.toInt * 1000000
  output : (outputBudget spec.limits).toInt = spec.limits.outputKb.toInt * 1024
  memory : (memBytes spec.limits).toInt = spec.limits.memoryMb.toInt * 2 ^ 20
  helloMemory : (Zygote.buildHello spec cfg).memMaxBytes.toInt =
    spec.limits.memoryMb.toInt * 2 ^ 20
  tmpfs : (tmpfsSizeMb spec.limits).toInt = max 64 (headroom spec.limits.outputKb.toInt)
  helloTmpfs : (Zygote.buildHello spec cfg).tmpfsBytes.toInt =
    max (2 ^ 26) (headroom spec.limits.outputKb.toInt * 2 ^ 20)

/-- No limit of the first job that is at most that of the second has more effect. -/
structure Monotone (cfg : Zygote.Config) (spec spec' : JobSpec) : Prop where
  wall : spec.limits.wallTimeMs ≤ spec'.limits.wallTimeMs →
    wallTimer spec.limits ≤ wallTimer spec'.limits
  idle : spec.limits.idleMs ≤ spec'.limits.idleMs → idleTimer spec.limits ≤ idleTimer spec'.limits
  output : spec.limits.outputKb ≤ spec'.limits.outputKb →
    outputBudget spec.limits ≤ outputBudget spec'.limits
  memory : spec.limits.memoryMb ≤ spec'.limits.memoryMb →
    memBytes spec.limits ≤ memBytes spec'.limits ∧
      (Zygote.buildHello spec cfg).memMaxBytes ≤ (Zygote.buildHello spec' cfg).memMaxBytes
  tmpfs : spec.limits.outputKb ≤ spec'.limits.outputKb →
    tmpfsSizeMb spec.limits ≤ tmpfsSizeMb spec'.limits ∧
      (Zygote.buildHello spec cfg).tmpfsBytes ≤ (Zygote.buildHello spec' cfg).tmpfsBytes

/-- No product leaves the 64 bits: the times are below 2^63 nanoseconds, the memory is below 2^63
bytes, and so is the size of `/tmp` that the HELLO has. -/
structure Fits (l : Limits) : Prop where
  wall : l.wallTimeMs.toInt ≤ 9223372036854
  idle : l.idleMs.toInt ≤ 9223372036854
  memory : l.memoryMb.toInt < 2 ^ 43
  tmpfs : l.outputKb.toInt < 2 ^ 52 - 1024

theorem represents_iff (h : Admitted spec.limits) : Represents cfg spec ↔ Fits spec.limits := by
  have hall := h.inSchema
  simp only [fields, List.forall_mem_cons] at hall
  obtain ⟨hwall, hidle, -, hmemory, -, houtput, -⟩ := hall
  have hwall := wallTimer_iff (l := spec.limits) (by have := hwall.1; omega)
  have hidle := idleTimer_iff (l := spec.limits) (by have := hidle.1; omega)
  have hmemory := megabytes_iff (a := spec.limits.memoryMb) (by have := hmemory.1; omega)
  have htmpfs := helloTmpfs_iff houtput
  constructor
  · intro hrep
    exact ⟨hwall.mp hrep.wall, hidle.mp hrep.idle, hmemory.mp hrep.memory,
      htmpfs.mp hrep.helloTmpfs⟩
  · intro hfits
    exact ⟨hwall.mpr hfits.wall, hidle.mpr hfits.idle, outputBudget_eq houtput,
      hmemory.mpr hfits.memory, hmemory.mpr hfits.memory, tmpfsSizeMb_eq houtput,
      htmpfs.mpr hfits.tmpfs⟩

theorem headroom_mono {m n : ℤ} (h : m ≤ n) : headroom m ≤ headroom n := by
  unfold headroom
  omega

/-- A limit that is no greater than one that fits is represented too, and gives no more. -/
theorem monotone_of_fits {spec' : JobSpec} (h : Admitted spec.limits) (h' : Admitted spec'.limits)
    (hfits : Fits spec'.limits) : Monotone cfg spec spec' := by
  have hrep : Represents cfg spec' := (represents_iff h').mpr hfits
  have hall := h.inSchema
  simp only [fields, List.forall_mem_cons] at hall
  obtain ⟨hwall, hidle, -, hmemory, -, houtput, -⟩ := hall
  have hwall := wallTimer_iff (l := spec.limits) (by have := hwall.1; omega)
  have hidle := idleTimer_iff (l := spec.limits) (by have := hidle.1; omega)
  have hmemory := megabytes_iff (a := spec.limits.memoryMb) (by have := hmemory.1; omega)
  have htmpfs := helloTmpfs_iff houtput
  constructor
  · intro hle
    rw [Int64.le_iff_toInt_le] at hle ⊢
    rw [hrep.wall, hwall.mpr (Int.le_trans hle hfits.wall)]
    omega
  · intro hle
    rw [Int64.le_iff_toInt_le] at hle ⊢
    rw [hrep.idle, hidle.mpr (Int.le_trans hle hfits.idle)]
    omega
  · intro hle
    rw [Int64.le_iff_toInt_le] at hle ⊢
    rw [hrep.output, outputBudget_eq houtput]
    omega
  · intro hle
    rw [Int64.le_iff_toInt_le] at hle
    have hmem := hmemory.mpr (Int.lt_of_le_of_lt hle hfits.memory)
    have hdocker : (memBytes spec.limits).toInt = spec.limits.memoryMb.toInt * 2 ^ 20 := hmem
    have hhello : (Zygote.buildHello spec cfg).memMaxBytes.toInt =
        spec.limits.memoryMb.toInt * 2 ^ 20 := hmem
    rw [Int64.le_iff_toInt_le, Int64.le_iff_toInt_le, hrep.memory, hrep.helloMemory, hdocker,
      hhello]
    omega
  · intro hle
    rw [Int64.le_iff_toInt_le] at hle
    have hroom := headroom_mono hle
    have hhello : (Zygote.buildHello spec cfg).tmpfsBytes.toInt =
        max (2 ^ 26) (headroom spec.limits.outputKb.toInt * 2 ^ 20) :=
      htmpfs.mpr (Int.lt_of_le_of_lt hle hfits.tmpfs)
    rw [Int64.le_iff_toInt_le, Int64.le_iff_toInt_le, hrep.tmpfs, hrep.helloTmpfs,
      tmpfsSizeMb_eq houtput, hhello]
    omega

/-- The limits of a job are represented, and no smaller ones have more effect, if the products
fit into 64 bits, and only then. -/
theorem scaling_exact (cfg : Zygote.Config) (spec : JobSpec) (h : Admitted spec.limits) :
    (Represents cfg spec ∧ ∀ spec' : JobSpec, Admitted spec'.limits → Monotone cfg spec' spec) ↔
      Fits spec.limits := by
  rw [represents_iff h]
  constructor
  · exact And.left
  · intro hfits
    exact ⟨hfits, fun spec' h' => monotone_of_fits h' h hfits⟩

def workerConfig : Zygote.Config := ⟨10000, by decide⟩

/-- A job of a compiled or interpreted language with the limits of a request. -/
def jobWith (limits : Limits) : JobSpec where
  channel := "private-run-j"
  collectOutput := some false
  compile := none
  entrypoint := "main.py"
  files := [⟨some "print(1)", "utf8", "main.py", none⟩]
  image := "python-3.12"
  interactive := true
  jobId := "j"
  language := "python"
  limits := limits
  run := ["python3", "main.py"]
  version := "3.12"

def defaultLimits : Limits := ⟨15000, 10000, 4194304, 20, 512, 512, 64, 30000⟩

theorem admitted_self (h : (fields l).all fun v => InSchema v) : Admitted l :=
  ⟨l, none, rfl, fun v hv => of_decide_eq_true (List.all_eq_true.mp h v hv), nofun⟩

theorem scaling_exact_default :
    Represents workerConfig (jobWith defaultLimits) ∧ ∀ spec' : JobSpec,
      Admitted spec'.limits → Monotone workerConfig spec' (jobWith defaultLimits) := by
  apply (scaling_exact workerConfig (jobWith defaultLimits) (admitted_self (by decide))).mpr
  exact ⟨by decide, by decide, by decide, by decide⟩

/-- A wall time that is a millisecond longer than the longest one makes the timer fire at once, and
2^43 megabytes are given 128. -/
theorem scaling_wraps :
    let long := jobWith { defaultLimits with wallTimeMs := 9223372036855 }
    let large := jobWith { defaultLimits with memoryMb := 8796093022208 }
    (Admitted long.limits ∧ (wallTimer long.limits).toInt < 0 ∧ ¬ Represents workerConfig long) ∧
      Admitted large.limits ∧ memBytes large.limits = 128 * 1024 * 1024 ∧
      ¬ Monotone workerConfig (jobWith defaultLimits) large := by
  refine ⟨⟨admitted_self (by decide), by decide, fun h => ?_⟩, admitted_self (by decide),
    by decide, fun h => ?_⟩
  · exact absurd h.wall (by decide)
  · exact absurd (h.memory (by decide)).1 (by decide)

end CodeRunner.Scaling
