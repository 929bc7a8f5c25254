import CodeRunner.Zygote.Procfs
import Mathlib.Data.Option.Basic

/-! # Where the cgroup leaves go

The agent resolves the cgroup layout once, at its start, from the mount table and from
`/proc/self/cgroup`. A directory outside a cgroupfs takes every write and enforces nothing, so a
base has to lie on a mount of the right type, at the agent's own cgroup.
-/

namespace CodeRunner.Zygote

open Fields Posix Utf8

def relativeTo (root cgroupPath : List Char) : List Char :=
  if root ≠ [] ∧ root ≠ ['/'] then
    if cgroupPath = root ∨ root ++ ['/'] <+: cgroupPath then cgroupPath.drop root.length else []
  else cgroupPath

def cgroupDir (mountinfo : Option (List UInt8)) (mountPoint cgroupPath : List Char) :
    Option (List Char) :=
  (mountEntry mountinfo mountPoint).map fun e =>
    let rel := match e with
      | some (_, root) => relativeTo root cgroupPath
      | none => cgroupPath
    join mountPoint (rel.dropWhile (· = '/'))

/-- The components of `CGROOT`. -/
def cgroot : List (List Char) := ["sys".toList, "fs".toList, "cgroup".toList]

def v1Required : List (List Char) := ["memory".toList, "pids".toList]

def v1Optional : List (List Char) := ["cpuacct".toList]

/-- A call to the file system. -/
inductive SetupCall where
  | makedirs (dir : List Char)
  | write (file value : List Char)
  deriving DecidableEq

inductive BaseLayout where
  | v2 (base : List Char)
  | v1 (bases : List (List Char × List Char))
  deriving DecidableEq

/-- The remount is best-effort, and an exception anywhere gives no layout. -/
def setupCgroupV2 (succeeds : SetupCall → Bool) (mountinfo : Option (List UInt8)) (pid : List Char)
    (procs : List (ℕ × Entry)) : Option BaseLayout := do
  let (_, path) ← procs.lookup 0
  let own ← cgroupDir mountinfo ('/' :: render cgroot) path
  let base := join own "zygote".toList
  let mgr := join base "mgr".toList
  guard (succeeds (.makedirs mgr))
  guard (succeeds (.write (join mgr "cgroup.procs".toList) pid))
  guard (succeeds (.write (join base "cgroup.subtree_control".toList) "+memory +pids".toList))
  return .v2 base

/-- The first candidate that is a mount of type `cgroup`. -/
def findMount (mountinfo : Option (List UInt8)) : List (List Char) → Option (Option (List Char))
  | [] => some none
  | cand :: cands => do
    let mnt := join ('/' :: render cgroot) cand
    let fstype ← fsType mountinfo mnt
    if fstype = some "cgroup".toList then return some mnt else findMount mountinfo cands

def v1Ctrl (mountinfo : Option (List UInt8)) (entry : Entry)
    (bases : List (List Char × List Char)) (ctrl : List Char) :
    Option (List (List Char × List Char)) :=
  if ctrl ∉ v1Required ++ v1Optional then some bases
  else do
    match ← findMount mountinfo ([','].intercalate entry.1 :: entry.1) with
    | none => return bases
    | some mnt =>
      let own ← cgroupDir mountinfo mnt entry.2
      return assign ctrl (join own "zygote".toList) bases

def v1Bases (mountinfo : Option (List UInt8)) (procs : List (ℕ × Entry)) :
    Option (List (List Char × List Char)) :=
  procs.foldlM (fun bases p => p.2.1.foldlM (v1Ctrl mountinfo p.2) bases) []

def setupCgroupV1 (succeeds : SetupCall → Bool) (mountinfo : Option (List UInt8))
    (procs : List (ℕ × Entry)) : Option (Option BaseLayout) :=
  (v1Bases mountinfo procs).map fun bases =>
    if v1Required.any fun c => (bases.lookup c).isNone then none
    else if bases.all fun b => succeeds (.makedirs b.2) then some (.v1 bases)
    else none

/-- The outer none is an exception, which the agent does not survive. -/
def setupCgroupBase (succeeds : SetupCall → Bool) (cgroup mountinfo : Option (List UInt8))
    (pid : List Char) : Option (Option BaseLayout) :=
  match readProcCgroup cgroup with
  | none => some none
  | some procs => do
    let fstype ← fsType mountinfo ('/' :: render cgroot)
    match if fstype = some "cgroup2".toList then setupCgroupV2 succeeds mountinfo pid procs
      else none with
    | some layout => return some layout
    | none => setupCgroupV1 succeeds mountinfo procs

variable {text path : List Char} {m : Mount} {ms : List Mount} {h : Hierarchy} {hs : List Hierarchy}

/-- What a mount of a cgroup shows of a cgroup: the part below its root, or the root for one that
is elsewhere. -/
def below (root path : List (List Char)) : List (List Char) :=
  if root <+: path then path.drop root.length else []

/-- A directory for the leaves lies in the mount on top at `point`, which is of the type asked for,
and there at the cgroup that is asked for. -/
def BaseOn (ms : List Mount) (fstype : List Char) (point path : List (List Char))
    (dir : List Char) : Prop :=
  ∃ m r, top ms ('/' :: render point) = some m ∧ m.fstype = fstype ∧ m.root = '/' :: render r ∧
    Normal r ∧ dir = '/' :: render (point ++ below r path ++ ["zygote".toList])

variable {root point q : List (List Char)} {name : List Char}

theorem dropWhile_render (hq : Normal q) : ('/' :: render q).dropWhile (· = '/') = render q := by
  rw [List.dropWhile_cons_of_pos (by decide)]
  cases hrender : render q with
  | nil => rfl
  | cons c rest =>
    rw [List.dropWhile_cons_of_neg]
    have hhead := head?_render hq
    rw [hrender] at hhead
    simpa using hhead

theorem eq_of_render_eq {p : List (List Char)} (hp : Normal p) (hr : Normal root)
    (heq : render p = render root) : p = root := by
  by_cases hpn : p = []
  · subst hpn
    by_contra hne
    exact render_ne_nil hr (Ne.symm hne) heq.symm
  · by_cases hrn : root = []
    · subst hrn
      exact absurd heq (render_ne_nil hp hpn)
    · exact render_inj hp hr hpn hrn heq

theorem prefix_render_iff (hr : Normal root) (hne : root ≠ []) {p : List (List Char)}
    (hp : Normal p) :
    ('/' :: render p = '/' :: render root ∨ '/' :: render root ++ ['/'] <+: '/' :: render p) ↔
      root <+: p := by
  constructor
  · rintro (heq | hpre)
    · have hpr : p = root := eq_of_render_eq hp hr (List.cons.inj heq).2
      rw [hpr]
    · rw [← normpath_render hp] at hpre
      obtain ⟨q, hq, hpath⟩ := normal_of_prefix rfl hr hne hpre
      rw [normpath_render hp] at hpath
      have hpq : p = root ++ q := eq_of_render_eq hp (hr.append hq) (List.cons.inj hpath).2
      exact ⟨q, hpq.symm⟩
  · rintro ⟨q, rfl⟩
    by_cases hq : q = []
    · subst hq
      rw [List.append_nil]
      exact .inl rfl
    · refine .inr ⟨render q, ?_⟩
      rw [render_append hne hq]
      simp

theorem relativeTo_render (hr : Normal root) {p : List (List Char)} (hp : Normal p) :
    (relativeTo ('/' :: render root) ('/' :: render p)).dropWhile (· = '/') =
      render (below root p) := by
  by_cases hne : root = []
  · subst hne
    rw [relativeTo, if_neg (by simp [render]), dropWhile_render hp, below, if_pos (List.nil_prefix),
      List.length_nil, List.drop_zero]
  · have hslash : '/' :: render root ≠ ['/'] := by
      simpa using render_ne_nil hr hne
    rw [relativeTo, if_pos ⟨List.cons_ne_nil _ _, hslash⟩, below]
    by_cases hpre : root <+: p
    · rw [if_pos ((prefix_render_iff hr hne hp).mpr hpre), if_pos hpre]
      obtain ⟨q, rfl⟩ := hpre
      rw [List.drop_left]
      by_cases hq : q = []
      · subst hq
        rw [List.append_nil, List.drop_length]
        rfl
      · have hdrop : ('/' :: render (root ++ q)).drop ('/' :: render root).length =
            '/' :: render q := by
          rw [render_append hne hq, ← List.cons_append, List.drop_left]
        rw [hdrop, dropWhile_render fun s hs => hp s (List.mem_append_right root hs)]
    · rw [if_neg (mt (prefix_render_iff hr hne hp).mp hpre), if_neg hpre]
      rfl

theorem head?_name (hname : IsName name) : name.head? ≠ some '/' := by
  have hnormal : Normal [name] := List.forall_mem_singleton.mpr hname
  have hrender := head?_render hnormal
  rwa [render_singleton] at hrender

theorem join_join (hpoint : Normal point) (hne : point ≠ []) (hq : Normal q) (hname : IsName name) :
    join (join ('/' :: render point) (render q)) name =
      '/' :: render (point ++ q ++ [name]) := by
  have hhead : name.head? ≠ some '/' := head?_name hname
  have hpnil : ¬('/' :: render point = [] ∨ ('/' :: render point).getLast? = some '/') :=
    not_or.mpr ⟨List.cons_ne_nil _ _, getLast?_render hpoint hne⟩
  have hown : join ('/' :: render point) (render q) = '/' :: render point ++ '/' :: render q := by
    rw [join, if_neg (head?_render hq), if_neg hpnil]
  rw [hown]
  by_cases hqn : q = []
  · subst hqn
    have hend : ('/' :: render point ++ '/' :: render []).getLast? = some '/' := by
      rw [List.getLast?_append_of_ne_nil _ (List.cons_ne_nil _ _)]
      rfl
    rw [join, if_neg hhead, if_pos (.inr hend), List.append_nil,
      render_append hne (List.cons_ne_nil name []), render_singleton]
    simp [render]
  · have hlast := getLast?_render hq hqn
    have hend : ('/' :: render point ++ '/' :: render q).getLast? ≠ some '/' := by
      rwa [List.getLast?_append_of_ne_nil _ (List.cons_ne_nil _ _)]
    rw [join, if_neg hhead, if_neg (not_or.mpr ⟨by simp, hend⟩),
      render_append (List.append_ne_nil_of_left_ne_nil hne q) (List.cons_ne_nil name []),
      render_append hne hqn, render_singleton]
    simp

theorem normal_cgroot : Normal cgroot := by decide

theorem isName_zygote : IsName "zygote".toList := by decide

theorem fsType_mountTable (hms : ∀ m ∈ ms, m.WellFormed) (hpoint : Normal point) :
    fsType (some (mountTable ms)) ('/' :: render point) =
      some ((top ms ('/' :: render point)).map Mount.fstype) := by
  rw [fsType, mountEntry_mountTable hms, normpath_render hpoint, Option.map_some, Option.map_map]
  rfl

theorem mem_of_top (h : top ms path = some m) : m ∈ ms :=
  (List.mem_filter.mp (List.mem_of_getLast? h)).1

theorem cgroupDir_mountTable (hms : ∀ m ∈ ms, m.WellFormed) (hpoint : Normal point)
    (hne : point ≠ []) (htop : top ms ('/' :: render point) = some m)
    (htype : m.fstype = "cgroup".toList ∨ m.fstype = "cgroup2".toList) (hq : Normal q) :
    ∃ own, cgroupDir (some (mountTable ms)) ('/' :: render point) ('/' :: render q) = some own ∧
      BaseOn ms m.fstype point q (join own "zygote".toList) := by
  obtain ⟨r, hr, hroot⟩ := (hms m (mem_of_top htop)).cgroup htype
  have hbelow : Normal (below r q) := by
    rw [below]
    split
    · exact fun s hs => hq s (List.mem_of_mem_drop hs)
    · exact nofun
  refine ⟨join ('/' :: render point) (render (below r q)), ?_, m, r, htop, rfl, hroot, hr,
    join_join hpoint hne hbelow isName_zygote⟩
  rw [cgroupDir, mountEntry_mountTable hms, normpath_render hpoint, htop]
  simp only [Option.map_some, hroot, relativeTo_render hr hq]

/-- The names that the mount of a hierarchy may have under `CGROOT`. -/
def candidates (h : Hierarchy) : List (List Char) := [','].intercalate h.ctrls :: h.ctrls

/-- A candidate has a mount of type `cgroup` on top. -/
def Mounted (ms : List Mount) (cand : List Char) : Prop :=
  ∃ m, top ms ('/' :: render (cgroot ++ [cand])) = some m ∧ m.fstype = "cgroup".toList

theorem normal_candidate (hh : h.WellFormed) (hne : h.ctrls ≠ []) {cand : List Char}
    (hcand : cand ∈ candidates h) : IsName cand := by
  rcases List.mem_cons.mp hcand with rfl | hcand
  · obtain ⟨x, xs, hxs⟩ := List.exists_cons_of_ne_nil hne
    have hx : IsName x := (hh.ctrls x (by simp [hxs])).1
    cases xs with
    | nil => rwa [hxs, List.intercalate_singleton]
    | cons y ys =>
      constructor
      · have hcomma : ',' ∈ [','].intercalate h.ctrls := by
          rw [hxs, List.intercalate_cons_of_ne_nil (List.cons_ne_nil y ys)]
          simp
        intro hdots
        rw [List.mem_cons, List.mem_pair] at hdots
        rcases hdots with hd | hd | hd <;> rw [hd] at hcomma <;> revert hcomma <;> decide
      · exact not_mem_intercalate (by decide) fun z hz => (hh.ctrls z hz).1.2
  · exact (hh.ctrls cand hcand).1

theorem join_cgroot {cand : List Char} (hcand : IsName cand) :
    join ('/' :: render cgroot) cand = '/' :: render (cgroot ++ [cand]) := by
  have hhead : cand.head? ≠ some '/' := head?_name hcand
  have hpnil : ¬('/' :: render cgroot = [] ∨ ('/' :: render cgroot).getLast? = some '/') := by
    decide
  rw [join, if_neg hhead, if_neg hpnil, render_append (by decide) (List.cons_ne_nil cand []),
    render_singleton]
  rfl

theorem findMount_mountTable (hms : ∀ m ∈ ms, m.WellFormed) {cands : List (List Char)}
    (hcands : ∀ c ∈ cands, IsName c) :
    (findMount (some (mountTable ms)) cands = some none ∧ ∀ c ∈ cands, ¬ Mounted ms c) ∨
      ∃ c ∈ cands, Mounted ms c ∧
        findMount (some (mountTable ms)) cands = some (some ('/' :: render (cgroot ++ [c]))) := by
  induction cands with
  | nil => exact .inl ⟨rfl, nofun⟩
  | cons cand cands ih =>
    have hcand : IsName cand := hcands cand List.mem_cons_self
    have hnormal : Normal (cgroot ++ [cand]) :=
      normal_cgroot.append (List.forall_mem_singleton.mpr hcand)
    rw [findMount, join_cgroot hcand, fsType_mountTable hms hnormal, Option.bind_eq_bind,
      Option.bind_some]
    by_cases hm : Mounted ms cand
    · obtain ⟨m, htop, htype⟩ := hm
      refine .inr ⟨cand, List.mem_cons_self, ⟨m, htop, htype⟩, ?_⟩
      rw [if_pos (by rw [htop, Option.map_some, htype])]
      rfl
    · have hne : (top ms ('/' :: render (cgroot ++ [cand]))).map Mount.fstype ≠
          some "cgroup".toList := by
        intro heq
        obtain ⟨m, htop, htype⟩ := Option.map_eq_some_iff.mp heq
        exact hm ⟨m, htop, htype⟩
      rw [if_neg hne]
      rcases ih fun c hc => hcands c (List.mem_cons_of_mem _ hc) with
        ⟨hnone, hnot⟩ | ⟨c, hc, hfound⟩
      · exact .inl ⟨hnone, List.forall_mem_cons.mpr ⟨hm, hnot⟩⟩
      · exact .inr ⟨c, List.mem_cons_of_mem _ hc, hfound⟩

theorem mem_of_mem_assign {κ β : Type} [DecidableEq κ] {k : κ} {v : β} {d : List (κ × β)}
    {b : κ × β} (h : b ∈ assign k v d) : b = (k, v) ∨ b ∈ d := by
  induction d with
  | nil => exact .inl (List.mem_singleton.mp h)
  | cons p d ih =>
    obtain ⟨j, u⟩ := p
    rw [assign] at h
    split at h
    · rcases List.mem_cons.mp h with h | h
      · exact .inl h
      · exact .inr (List.mem_cons_of_mem _ h)
    · rcases List.mem_cons.mp h with h | h
      · exact .inr (h ▸ List.mem_cons_self)
      · exact (ih h).imp id (List.mem_cons_of_mem _)

theorem mem_keys_assign {κ β : Type} [DecidableEq κ] {j k : κ} {v : β} {d : List (κ × β)}
    (h : j = k ∨ j ∈ d.map Prod.fst) : j ∈ (assign k v d).map Prod.fst := by
  induction d with
  | nil => simpa [assign] using h
  | cons p d ih =>
    obtain ⟨i, u⟩ := p
    rw [List.map_cons, List.mem_cons] at h
    rw [assign]
    split
    · next hik =>
      subst hik
      rcases h with h | h | h
      · exact List.mem_cons.mpr (.inl h)
      · exact List.mem_cons.mpr (.inl h)
      · exact List.mem_cons_of_mem _ h
    · rcases h with h | h | h
      · exact List.mem_cons_of_mem _ (ih (.inl h))
      · exact List.mem_cons.mpr (.inl h)
      · exact List.mem_cons_of_mem _ (ih (.inr h))

structure Bases (ms : List Mount) (done : List (Hierarchy × List Char))
    (bases : List (List Char × List Char)) : Prop where
  sound : ∀ b ∈ bases, ∃ d ∈ done, d.2 = b.1 ∧ ∃ cand ∈ candidates d.1,
    BaseOn ms "cgroup".toList (cgroot ++ [cand]) d.1.path b.2
  complete : ∀ d ∈ done, d.2 ∈ v1Required ++ v1Optional →
    (∃ cand ∈ candidates d.1, Mounted ms cand) → d.2 ∈ bases.map Prod.fst

variable {done : List (Hierarchy × List Char)} {bases : List (List Char × List Char)}
  {ctrl : List Char} {ctrls : List (List Char)}

theorem Bases.skip (hB : Bases ms done bases)
    (hnot : ctrl ∉ v1Required ++ v1Optional ∨ ∀ cand ∈ candidates h, ¬ Mounted ms cand) :
    Bases ms (done ++ [(h, ctrl)]) bases where
  sound b hb := by
    obtain ⟨d, hd, hrest⟩ := hB.sound b hb
    exact ⟨d, List.mem_append_left _ hd, hrest⟩
  complete d hd hctrl hmounted := by
    rcases List.mem_append.mp hd with hd | hd
    · exact hB.complete d hd hctrl hmounted
    · obtain rfl := List.mem_singleton.mp hd
      obtain ⟨cand, hcand, hm⟩ := hmounted
      rcases hnot with hnot | hnot
      · exact absurd hctrl hnot
      · exact absurd hm (hnot cand hcand)

theorem Bases.assign (hB : Bases ms done bases) {cand dir : List Char} (hcand : cand ∈ candidates h)
    (hdir : BaseOn ms "cgroup".toList (cgroot ++ [cand]) h.path dir) :
    Bases ms (done ++ [(h, ctrl)]) (assign ctrl dir bases) where
  sound b hb := by
    rcases mem_of_mem_assign hb with rfl | hb
    · exact ⟨(h, ctrl), List.mem_append_right _ List.mem_cons_self, rfl, cand, hcand, hdir⟩
    · obtain ⟨d, hd, hrest⟩ := hB.sound b hb
      exact ⟨d, List.mem_append_left _ hd, hrest⟩
  complete d hd hctrl hmounted := by
    apply mem_keys_assign
    rcases List.mem_append.mp hd with hd | hd
    · exact .inr (hB.complete d hd hctrl hmounted)
    · obtain rfl := List.mem_singleton.mp hd
      exact .inl rfl

theorem v1Ctrl_mountTable (hms : ∀ m ∈ ms, m.WellFormed) (hh : h.WellFormed)
    (hctrl : ctrl ∈ h.ctrls) (hB : Bases ms done bases) :
    ∃ bases', v1Ctrl (some (mountTable ms)) h.entry bases ctrl = some bases' ∧
      Bases ms (done ++ [(h, ctrl)]) bases' := by
  by_cases hrelevant : ctrl ∈ v1Required ++ v1Optional
  · have hnames : ∀ cand ∈ candidates h, IsName cand := fun cand hcand =>
      normal_candidate hh (List.ne_nil_of_mem hctrl) hcand
    rw [v1Ctrl, if_neg (not_not.mpr hrelevant)]
    rcases findMount_mountTable hms hnames with ⟨hnone, hnot⟩ | ⟨cand, hcand, hm, hfound⟩
    · refine ⟨bases, ?_, hB.skip (.inr hnot)⟩
      change (findMount (some (mountTable ms)) (candidates h)).bind _ = _
      rw [hnone, Option.bind_some]
      rfl
    · obtain ⟨m, htop, htype⟩ := hm
      have hnormal : Normal (cgroot ++ [cand]) :=
        normal_cgroot.append (List.forall_mem_singleton.mpr (hnames cand hcand))
      obtain ⟨own, hown, hbase⟩ := cgroupDir_mountTable hms hnormal
        (List.append_ne_nil_of_right_ne_nil _ (List.cons_ne_nil cand [])) htop (.inl htype) hh.path
      refine ⟨assign ctrl (join own "zygote".toList) bases, ?_, hB.assign hcand (htype ▸ hbase)⟩
      change (findMount (some (mountTable ms)) (candidates h)).bind _ = _
      rw [hfound, Option.bind_some]
      change (cgroupDir _ _ ('/' :: render h.path)).bind _ = _
      rw [hown, Option.bind_some]
      rfl
  · exact ⟨bases, by rw [v1Ctrl, if_pos hrelevant], hB.skip (.inl hrelevant)⟩

theorem foldlM_v1Ctrl (hms : ∀ m ∈ ms, m.WellFormed) (hh : h.WellFormed)
    (hctrls : ∀ ctrl ∈ ctrls, ctrl ∈ h.ctrls) (hB : Bases ms done bases) :
    ∃ bases', ctrls.foldlM (v1Ctrl (some (mountTable ms)) h.entry) bases = some bases' ∧
      Bases ms (done ++ ctrls.map fun ctrl => (h, ctrl)) bases' := by
  induction ctrls generalizing done bases with
  | nil => exact ⟨bases, rfl, by simpa using hB⟩
  | cons ctrl ctrls ih =>
    obtain ⟨b₁, hb₁, hB₁⟩ := v1Ctrl_mountTable hms hh (hctrls ctrl List.mem_cons_self) hB
    obtain ⟨b₂, hb₂, hB₂⟩ := ih (fun c hc => hctrls c (List.mem_cons_of_mem _ hc)) hB₁
    refine ⟨b₂, ?_, by simpa using hB₂⟩
    rw [List.foldlM_cons, hb₁]
    exact hb₂

theorem v1Bases_mountTable (hms : ∀ m ∈ ms, m.WellFormed) (hh : ∀ h ∈ hs, h.WellFormed) :
    ∃ bases, v1Bases (some (mountTable ms)) (hs.map fun h => (h.id, h.entry)) = some bases ∧
      Bases ms (hs.flatMap fun h => h.ctrls.map fun ctrl => (h, ctrl)) bases := by
  have hfold : ∀ done bases, Bases ms done bases → ∃ bases',
      (hs.map fun h => (h.id, h.entry)).foldlM (fun bases p =>
        p.2.1.foldlM (v1Ctrl (some (mountTable ms)) p.2) bases) bases = some bases' ∧
        Bases ms (done ++ hs.flatMap fun h => h.ctrls.map fun ctrl => (h, ctrl)) bases' := by
    induction hs with
    | nil =>
      intro done bases hB
      exact ⟨bases, rfl, by simpa using hB⟩
    | cons h hs ih =>
      intro done bases hB
      have hctrls : ∀ ctrl ∈ h.ctrls, ctrl ∈ h.ctrls := fun _ => id
      obtain ⟨b₁, hb₁, hB₁⟩ := foldlM_v1Ctrl hms (hh h List.mem_cons_self) hctrls hB
      obtain ⟨b₂, hb₂, hB₂⟩ := ih (fun h hmem => hh h (List.mem_cons_of_mem _ hmem)) _ _ hB₁
      refine ⟨b₂, ?_, by simpa using hB₂⟩
      rw [List.map_cons, List.foldlM_cons]
      change (h.ctrls.foldlM (v1Ctrl (some (mountTable ms)) h.entry) bases).bind _ = _
      rw [hb₁]
      exact hb₂
  obtain ⟨bases, hbases, hB⟩ := hfold [] [] ⟨nofun, nofun⟩
  exact ⟨bases, hbases, by simpa using hB⟩

/-- The v2 layout is at the agent's cgroup on the cgroup2 mount, and there is none only without
such a mount, or without the hierarchy, or when a call fails. -/
theorem setupCgroupV2_mountTable (hms : ∀ m ∈ ms, m.WellFormed) (hh : ∀ h ∈ hs, h.WellFormed)
    {succeeds : SetupCall → Bool} {pid : List Char}
    (htop : (top ms ('/' :: render cgroot)).map Mount.fstype = some "cgroup2".toList) :
    (∃ base, setupCgroupV2 succeeds (some (mountTable ms)) pid
        (hs.map fun h => (h.id, h.entry)) = some (.v2 base) ∧
      ∃ h ∈ hs, h.id = 0 ∧ BaseOn ms "cgroup2".toList cgroot h.path base) ∨
    (setupCgroupV2 succeeds (some (mountTable ms)) pid
        (hs.map fun h => (h.id, h.entry)) = none ∧
      ((∃ call, succeeds call = false) ∨ ∀ h ∈ hs, h.id ≠ 0)) := by
  obtain ⟨m, hm, htype⟩ := Option.map_eq_some_iff.mp htop
  cases hlookup : (hs.map fun h => (h.id, h.entry)).lookup 0 with
  | none =>
    refine .inr ⟨by rw [setupCgroupV2, hlookup]; rfl, .inr ?_⟩
    rintro h hmem hid
    have hnot := List.lookup_eq_none_iff.mp hlookup (h.id, h.entry) (List.mem_map_of_mem hmem)
    simp [hid] at hnot
  | some entry =>
    obtain ⟨h, hmem, hid, hentry⟩ : ∃ h ∈ hs, h.id = 0 ∧ h.entry = entry := by
      obtain ⟨l₁, l₂, hsplit, -⟩ := List.lookup_eq_some_iff.mp hlookup
      have hpair : (0, entry) ∈ hs.map fun h => (h.id, h.entry) := by
        rw [hsplit]
        simp
      obtain ⟨h, hmem, heq⟩ := List.mem_map.mp hpair
      exact ⟨h, hmem, (Prod.mk.inj heq).1, (Prod.mk.inj heq).2⟩
    obtain ⟨own, hown, hbase⟩ := cgroupDir_mountTable hms normal_cgroot (by decide) hm
      (.inr htype) (hh h hmem).path
    subst hentry
    have hcalls : setupCgroupV2 succeeds (some (mountTable ms)) pid
        (hs.map fun h => (h.id, h.entry)) = do
          let base := join own "zygote".toList
          let mgr := join base "mgr".toList
          guard (succeeds (.makedirs mgr))
          guard (succeeds (.write (join mgr "cgroup.procs".toList) pid))
          guard (succeeds
            (.write (join base "cgroup.subtree_control".toList) "+memory +pids".toList))
          return .v2 base := by
      rw [setupCgroupV2, hlookup, Option.bind_eq_bind, Option.bind_some]
      simp only [Hierarchy.entry]
      rw [hown]
      rfl
    rw [hcalls]
    by_cases hall : ∀ call, succeeds call = true
    · refine .inl ⟨join own "zygote".toList, ?_, h, hmem, hid, htype ▸ hbase⟩
      simp [hall]
    · obtain ⟨call, hcall⟩ := not_forall.mp hall
      have hfails : ∃ call, succeeds call = false := ⟨call, by simpa using hcall⟩
      simp only [guard]
      split_ifs
      · exact .inl ⟨join own "zygote".toList, rfl, h, hmem, hid, htype ▸ hbase⟩
      all_goals exact .inr ⟨rfl, .inl hfails⟩

/-- The v1 layout has the controllers that limits need, each at the agent's cgroup on a cgroup
mount, and there is none only without such a mount for one of them, or when a call fails. -/
theorem setupCgroupV1_mountTable (hms : ∀ m ∈ ms, m.WellFormed) (hh : ∀ h ∈ hs, h.WellFormed)
    {succeeds : SetupCall → Bool} :
    (∃ bases, setupCgroupV1 succeeds (some (mountTable ms)) (hs.map fun h => (h.id, h.entry)) =
        some (some (.v1 bases)) ∧
      (∀ c ∈ v1Required, c ∈ bases.map Prod.fst) ∧
      ∀ b ∈ bases, ∃ h ∈ hs, b.1 ∈ h.ctrls ∧ ∃ cand ∈ candidates h,
        BaseOn ms "cgroup".toList (cgroot ++ [cand]) h.path b.2) ∨
    (setupCgroupV1 succeeds (some (mountTable ms)) (hs.map fun h => (h.id, h.entry)) =
        some none ∧
      ((∃ call, succeeds call = false) ∨
        ∃ c ∈ v1Required, ∀ h ∈ hs, c ∈ h.ctrls → ∀ cand ∈ candidates h, ¬ Mounted ms cand)) := by
  obtain ⟨bases, hbases, hB⟩ := v1Bases_mountTable hms hh
  have hkeys : ∀ c, (bases.lookup c).isNone = false ↔ c ∈ bases.map Prod.fst := by
    intro c
    rw [Option.isNone_eq_false_iff, List.lookup_isSome_iff, List.mem_map]
    constructor
    · rintro ⟨b, hb, hc⟩
      exact ⟨b, hb, (beq_iff_eq.mp hc).symm⟩
    · rintro ⟨b, hb, rfl⟩
      exact ⟨b, hb, beq_self_eq_true b.1⟩
  rw [setupCgroupV1, hbases, Option.map_some]
  by_cases hrequired : ∀ c ∈ v1Required, c ∈ bases.map Prod.fst
  · have hnone : (v1Required.any fun c => (bases.lookup c).isNone) = false := by
      rw [List.any_eq_false]
      intro c hc
      rw [(hkeys c).mpr (hrequired c hc)]
      exact Bool.false_ne_true
    rw [hnone, if_neg Bool.false_ne_true]
    split
    · refine .inl ⟨bases, rfl, hrequired, fun b hb => ?_⟩
      obtain ⟨d, hd, hdb, hcand⟩ := hB.sound b hb
      obtain ⟨h, hmem, hd⟩ := List.mem_flatMap.mp hd
      obtain ⟨ctrl, hctrl, rfl⟩ := List.mem_map.mp hd
      exact ⟨h, hmem, hdb ▸ hctrl, hcand⟩
    · next hfail =>
      refine .inr ⟨rfl, .inl ?_⟩
      rw [List.all_eq_true] at hfail
      obtain ⟨b, hb⟩ := not_forall.mp hfail
      obtain ⟨-, hb⟩ := Classical.not_imp.mp hb
      exact ⟨_, by simpa using hb⟩
  · obtain ⟨c, hc⟩ := not_forall.mp hrequired
    obtain ⟨hc, hnot⟩ := Classical.not_imp.mp hc
    have hany : (v1Required.any fun c => (bases.lookup c).isNone) = true := by
      rw [List.any_eq_true]
      refine ⟨c, hc, ?_⟩
      by_contra h
      exact hnot ((hkeys c).mp (by simpa using h))
    rw [hany, if_pos rfl]
    refine .inr ⟨rfl, .inr ⟨c, hc, fun h hmem hctrl cand hcand hm => hnot ?_⟩⟩
    exact hB.complete (h, c) (List.mem_flatMap.mpr ⟨h, hmem, List.mem_map_of_mem hctrl⟩)
      (List.mem_append_left _ hc) ⟨cand, hcand, hm⟩

def plainMount (root point fstype : String) : Mount where
  id := "1".toList
  parent := "0".toList
  dev := "0:1".toList
  root := root.toList
  point := point.toList
  options := "rw".toList
  optional := []
  fstype := fstype.toList
  tail := "none rw".toList

/-- A hybrid host: below a tmpfs, the v1 controllers are mounted at the container's cgroup. -/
def hybridMounts : List Mount :=
  [plainMount "/" "/sys/fs/cgroup" "tmpfs",
    plainMount "/docker/j" "/sys/fs/cgroup/memory" "cgroup",
    plainMount "/docker/j" "/sys/fs/cgroup/pids" "cgroup"]

def hybridHierarchies : List Hierarchy :=
  [⟨5, ["memory".toList], ["docker".toList, "j".toList]⟩,
    ⟨4, ["pids".toList], ["docker".toList, "j".toList]⟩,
    ⟨0, [], ["docker".toList, "j".toList]⟩]

theorem plainMount_wellFormed {root point fstype : String}
    (hfields : ∀ w ∈ [root.toList, point.toList, fstype.toList], IsField isSpace w)
    (hdash : root.toList ≠ ['-'] ∧ point.toList ≠ ['-'])
    (hroot : fstype.toList = "cgroup".toList ∨ fstype.toList = "cgroup2".toList →
      ∃ r, Normal r ∧ root.toList = '/' :: render r) :
    (plainMount root point fstype).WellFormed := by
  have hpath : ∀ w ∈ [root.toList, point.toList], IsField isSpace w ∧ w ≠ ['-'] := by
    intro w hw
    rcases List.mem_pair.mp hw with rfl | rfl
    · exact ⟨hfields _ (by simp), hdash.1⟩
    · exact ⟨hfields _ (by simp), hdash.2⟩
  constructor
  · have hwords : ∀ w ∈ ["1", "0", "0:1", "rw"], IsField isSpace w.toList ∧ w.toList ≠ ['-'] := by
      decide +kernel
    intro w hw
    obtain ⟨s, hs, rfl⟩ : ∃ s ∈ ["1", "0", "0:1", "rw"], s.toList = w := by
      simpa [plainMount, eq_comm] using hw
    exact hwords s hs
  · intro w hw
    obtain ⟨hfield, hne⟩ := hpath w hw
    refine ⟨hfield.1, hne, fun c hc hspace => ?_⟩
    rw [hfield.2 c hc] at hspace
    cases hspace
  · exact hfields _ (by simp [plainMount])
  · have htail : '\n' ∉ "none rw".toList ∧ '\r' ∉ "none rw".toList := by decide
    exact htail
  · exact hroot

theorem hybridMounts_wellFormed : ∀ m ∈ hybridMounts, m.WellFormed := by
  have hdocker : Normal ["docker".toList, "j".toList] := by decide
  intro m hm
  simp only [hybridMounts, List.mem_cons, List.not_mem_nil, or_false] at hm
  rcases hm with rfl | rfl | rfl
  · exact plainMount_wellFormed (by decide +kernel) (by decide) fun h => absurd h (by decide)
  · exact plainMount_wellFormed (by decide +kernel) (by decide) fun _ => ⟨_, hdocker, by decide⟩
  · exact plainMount_wellFormed (by decide +kernel) (by decide) fun _ => ⟨_, hdocker, by decide⟩

theorem hybridHierarchies_wellFormed : ∀ h ∈ hybridHierarchies, h.WellFormed := by
  have hnames : ∀ c ∈ ["memory".toList, "pids".toList], IsName c ∧ ',' ∉ c ∧ ':' ∉ c ∧
      IsField isSpace c := by decide +kernel
  have hctrls : ∀ h ∈ hybridHierarchies, ∀ c ∈ h.ctrls, c ∈ ["memory".toList, "pids".toList] := by
    decide
  have hpath : ∀ h ∈ hybridHierarchies, h.path = ["docker".toList, "j".toList] := by decide
  intro h hmem
  constructor
  · intro c hc
    obtain ⟨hname, hcomma, hcolon, hfield⟩ := hnames c (hctrls h hmem c hc)
    refine ⟨hname, fun d hd => ⟨?_, ?_, hfield.2 d hd⟩⟩
    · rintro rfl
      exact hcomma hd
    · rintro rfl
      exact hcolon hd
  · rw [hpath h hmem]
    decide
  · rw [hpath h hmem]
    exact ⟨by decide, by decide⟩
  · rw [hpath h hmem]
    rintro c ⟨⟩
    rfl

end CodeRunner.Zygote
