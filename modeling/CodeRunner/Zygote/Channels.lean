import CodeRunner.Lib.Descriptors
import CodeRunner.Lib.Transition
import Mathlib.Logic.Function.Basic

/-! # The descriptors of a session

The agent serves its jobs in threads of one process. A session is forked from it with every
descriptor that is open at that moment, those of the other jobs included. It moves its own channel
ends into place and closes the rest before it runs the code of the job.
-/

namespace CodeRunner.Zygote.Channels

open Transition

inductive Chan | stdin | stdout | stderr | art
  deriving DecidableEq, Repr

def Chan.all : List Chan := [.stdin, .stdout, .stderr, .art]

/-- What a descriptor of the agent or of a process forked from it refers to: the stdio of the agent,
its listening socket, what `handle_job` and `spawn_session` open for the job `j`, or a file that the
code of the job has opened itself. -/
inductive File where
  | stdio (n : ℕ)
  | listener
  | conn (j : ℕ)
  | parentEnd (j : ℕ) (ch : Chan)
  | childEnd (j : ℕ) (ch : Chan)
  | pipeRead (j : ℕ)
  | pipeWrite (j : ℕ)
  | own (j : ℕ)
  deriving DecidableEq, Repr

/-- The job that a file has been opened for. -/
def File.job : File → Option ℕ
  | .stdio _ | .listener => none
  | .conn j | .parentEnd j _ | .childEnd j _ | .pipeRead j | .pipeWrite j | .own j => some j

/-- A process forked by `spawn_session`, with the descriptors that it was called with and those of
its pipe. -/
structure Child where
  table : Descriptors File
  fd : Chan → ℕ
  r : ℕ
  w : ℕ

def Child.place (c : Child) : Chan → ℕ
  | .stdin => 0
  | .stdout => 1
  | .stderr => 2
  | .art => c.fd .art

/-- The three calls of `dup2`. -/
def Child.wire (c : Child) : Option (Descriptors File) :=
  (c.table.dup2 (c.fd .stdin) 0).bind fun t =>
    (t.dup2 (c.fd .stdout) 1).bind fun t => t.dup2 (c.fd .stderr) 2

/-- `_scrub_fds`, for which the listing has the descriptor of the listed directory as well. -/
def scrubFds (keep : ℕ) (listed : Bool) (t : Descriptors File) : Descriptors File :=
  let fds := if listed then t.fds ++ [t.lowest] else List.range' 3 4093
  t.closeAll (fun fd => decide (fd ≤ 2 ∨ fd = keep)) fds

/-- `_run_user_code` up to the code of the job. -/
def Child.runUserCode (c : Child) (listed : Bool) : Option (Descriptors File) :=
  c.wire.map (scrubFds (c.fd .art) listed)

/-- The session before it runs the code of the job, and while it does so in one or more processes;
`ended` may also come by an exception. -/
inductive Session where
  | forked (c : Child)
  | running (procs : List (Descriptors File))
  | ended

inductive UserOp where
  | open
  | close (fd : ℕ)
  | dup2 (old new : ℕ)
  | fork
  deriving DecidableEq, Repr

def userOp (j : ℕ) (t : Descriptors File) : UserOp → Option (List (Descriptors File))
  | .open => some [t.alloc (.own j)]
  | .close fd => some [t.close fd]
  | .dup2 old new => (t.dup2 old new).map fun t => [t]
  | .fork => some [t, t]

/-- What a thread sees: the descriptors of the agent, and those of the files that it holds. -/
structure View where
  table : Descriptors File
  held : File → Option ℕ

def View.opens (v : View) (f : File) : View :=
  ⟨v.table.alloc f, Function.update v.held f (some v.table.lowest)⟩

def View.closes (v : View) (f : File) : View :=
  match v.held f with
  | some fd => ⟨v.table.close fd, Function.update v.held f none⟩
  | none => v

/-- Inside `handle_job` after the HELLO, where `piped` to `joined` are in `spawn_session`. -/
inductive ThreadPc where
  | pairing (todo : List Chan)
  | piped
  | forked
  | reading
  | joined
  | closing (todo : List Chan)
  | relaying
  | cleaning (todo : List File)
  | finished
  deriving DecidableEq, Repr

structure Thread where
  pc : ThreadPc
  held : File → Option ℕ

structure Agent where
  table : Descriptors File
  spawnLock : Option ℕ
  thread : ℕ → Option Thread
  inter : ℕ → Option Child
  session : ℕ → Option Session

/-- The steps of a thread. `leave` is the end of the relay or an exception. -/
inductive ThreadAct where
  | pair
  | pipe
  | fork
  | closeWrite
  | closeRead
  | join
  | closeEnd
  | leave
  | clean
  deriving DecidableEq, Repr

/-- The accept of a connection, the steps of a thread, those of the intermediate process, and those
of the session. The flag of `run` is whether `/proc/self/fd` could be listed. -/
inductive AgentAct where
  | accept (j : ℕ)
  | thread (j : ℕ) (a : ThreadAct)
  | interFork (j : ℕ)
  | interExit (j : ℕ)
  | run (j : ℕ) (listed : Bool)
  | user (j k : ℕ) (op : UserOp)
  | exit (j : ℕ)
  deriving DecidableEq, Repr

/-- The order in which `handle_job` closes what it has opened. -/
def cleanupOrder (j : ℕ) : List File :=
  Chan.all.flatMap (fun ch => [.parentEnd j ch, .childEnd j ch]) ++ [.conn j]

namespace Agent

/-- Before the first `accept`. -/
def start : Agent where
  table := ⟨[some (.stdio 0), some (.stdio 1), some (.stdio 2), some .listener]⟩
  spawnLock := none
  thread := fun _ => none
  inter := fun _ => none
  session := fun _ => none

variable (s : Agent)

def view (t : Thread) : View := ⟨s.table, t.held⟩

def put (j : ℕ) (pc : ThreadPc) (v : View) : Agent :=
  { s with table := v.table, thread := Function.update s.thread j (some ⟨pc, v.held⟩) }

def unlock (j : ℕ) : Agent := if s.spawnLock = some j then { s with spawnLock := none } else s

def setInter (j : ℕ) (c : Option Child) : Agent := { s with inter := Function.update s.inter j c }

def setSession (j : ℕ) (p : Session) : Agent :=
  { s with session := Function.update s.session j (some p) }

def child (j : ℕ) (t : Thread) : Child where
  table := s.table
  fd := fun ch => (t.held (.childEnd j ch)).getD 0
  r := (t.held (.pipeRead j)).getD 0
  w := (t.held (.pipeWrite j)).getD 0

def threadStep (j : ℕ) (t : Thread) : ThreadAct → Option Agent
  | .pair =>
    match t.pc with
    | .pairing (ch :: todo) =>
      some (s.put j (.pairing todo) (((s.view t).opens (.parentEnd j ch)).opens (.childEnd j ch)))
    | _ => none
  | .pipe =>
    if t.pc = .pairing [] ∧ s.spawnLock = none then
      some { s.put j .piped (((s.view t).opens (.pipeRead j)).opens (.pipeWrite j)) with
        spawnLock := some j }
    else none
  | .fork =>
    if t.pc = .piped then
      some ((s.put j .forked (s.view t)).setInter j (some (s.child j t)))
    else none
  | .closeWrite =>
    if t.pc = .forked then some (s.put j .reading ((s.view t).closes (.pipeWrite j))) else none
  | .closeRead =>
    -- the pid of the session has been read, or the end of the pipe
    if t.pc = .reading ∧ ((s.session j).isSome = true ∨ s.inter j = none) then
      some (s.put j .joined ((s.view t).closes (.pipeRead j)))
    else none
  | .join =>
    if t.pc = .joined ∧ s.inter j = none then
      some ((s.put j (.closing Chan.all) (s.view t)).unlock j)
    else none
  | .closeEnd =>
    match t.pc with
    | .closing (ch :: todo) => some (s.put j (.closing todo) ((s.view t).closes (.childEnd j ch)))
    | .closing [] => some (s.put j .relaying (s.view t))
    | _ => none
  | .leave =>
    match t.pc with
    | .cleaning _ | .finished => none
    | _ => some ((s.put j (.cleaning (cleanupOrder j)) (s.view t)).unlock j)
  | .clean =>
    match t.pc with
    | .cleaning (f :: todo) => some (s.put j (.cleaning todo) ((s.view t).closes f))
    | .cleaning [] => some (s.put j .finished (s.view t))
    | _ => none

def step (s : Agent) : AgentAct → Option Agent
  | .accept j =>
    match s.thread j with
    | none =>
      some (s.put j (.pairing Chan.all) ((View.mk s.table fun _ => none).opens (.conn j)))
    | some _ => none
  | .interFork j =>
    match s.inter j, s.session j with
    | some c, none =>
      -- the one closes the read end, and the other then the write end
      some (s.setSession j (.forked { c with table := (c.table.close c.r).close c.w }))
    | _, _ => none
  | .interExit j => (s.inter j).map fun _ => s.setInter j none
  | .run j listed =>
    match s.session j with
    | some (.forked c) =>
      match c.runUserCode listed with
      | some t => some (s.setSession j (.running [t]))
      | none => some (s.setSession j .ended)
    | _ => none
  | .user j k op =>
    match s.session j with
    | some (.running procs) =>
      (procs[k]?.bind fun t => userOp j t op).map fun new =>
        s.setSession j (.running (procs.take k ++ new ++ procs.drop (k + 1)))
    | _ => none
  | .exit j => (s.session j).map fun _ => s.setSession j .ended
  | .thread j a => (s.thread j).bind fun t => s.threadStep j t a

end Agent

/-- What a process of the job `j` may hold while it runs the code of the job. -/
def File.Allowed (j : ℕ) (f : File) : Prop := f = .own j ∨ ∃ ch, f = .childEnd j ch

/-- The code of a job holds its own channel ends and what it has opened itself. -/
def Isolated (s : Agent) : Prop :=
  ∀ j procs, s.session j = some (.running procs) → ∀ t ∈ procs, ∀ fd f, t.get fd = some f →
    f.Allowed j

/-- It starts with the four channels at their places and with nothing else. -/
def Wired (s : Agent) : AgentAct → Prop
  | .run j listed => ∀ c, s.session j = some (.forked c) → ∃ t, c.runUserCode listed = some t ∧
    ∀ fd f, t.get fd = some f ↔ ∃ ch, c.place ch = fd ∧ f = .childEnd j ch
  | _ => True

def Agent.tableSize (s : Agent) (j : ℕ) : ℕ :=
  match s.session j with
  | some (.forked c) => c.table.files.length
  | _ => 0

/-- The open descriptors can be listed, or they are among those that are closed without. -/
def Scrubs (s : Agent) : AgentAct → Prop
  | .run j listed => listed = true ∨ s.tableSize j ≤ 4096
  | _ => True

instance (s : Agent) : ∀ a, Decidable (Scrubs s a)
  | .run _ _ => inferInstanceAs (Decidable (_ ∨ _))
  | .accept _ | .thread _ _ | .interFork _ | .interExit _ | .user _ _ _ | .exit _ => isTrue trivial

variable {j j' : ℕ} {f g : File} {fd : ℕ} {v v' v'' : View} {t : Thread} {c : Child}
  {s s' : Agent} {a : AgentAct} {as : List AgentAct}

/-- The thread of the job `j` holds what it has opened. -/
def View.Holds (j : ℕ) (v : View) : Prop :=
  ∀ f fd, v.held f = some fd → f.job = some j ∧ v.table.get fd = some f

/-- The thread of the job `j` leaves all else open. -/
structure Keeps (j : ℕ) (v v' : View) : Prop where
  holds : v.Holds j → v'.Holds j
  others : v.Holds j → ∀ fd f, f.job ≠ some j → v.table.get fd = some f →
    v'.table.get fd = some f

theorem Keeps.refl : Keeps j v v := ⟨id, fun _ _ _ _ h => h⟩

theorem Keeps.trans (h : Keeps j v v') (h' : Keeps j v' v'') : Keeps j v v'' := by
  constructor
  · intro hv
    exact h'.holds (h.holds hv)
  · intro hv fd f hf hget
    exact h'.others (h.holds hv) fd f hf (h.others hv fd f hf hget)

theorem opens_held : (v.opens f).held g = if g = f then some v.table.lowest else v.held g :=
  Function.update_apply v.held f _ g

theorem opens_keeps (hf : f.job = some j) : Keeps j v (v.opens f) := by
  constructor
  · intro hv g fd hg
    by_cases hgf : g = f
    · subst hgf
      rw [opens_held, if_pos rfl] at hg
      obtain rfl := Option.some.inj hg
      exact ⟨hf, Descriptors.get_alloc_lowest⟩
    · rw [opens_held, if_neg hgf] at hg
      obtain ⟨hjob, hget⟩ := hv g fd hg
      exact ⟨hjob, Descriptors.get_alloc_of_some hget f⟩
  · intro _ fd g _ hget
    exact Descriptors.get_alloc_of_some hget f

theorem closes_keeps : Keeps j v (v.closes f) := by
  unfold View.closes
  split
  · next fd hfd =>
    constructor
    · intro hv g fd' hg
      obtain ⟨-, hget⟩ := hv f fd hfd
      dsimp only at hg
      by_cases hgf : g = f
      · subst hgf
        rw [Function.update_self] at hg
        cases hg
      · rw [Function.update_of_ne hgf] at hg
        obtain ⟨hjob, hget'⟩ := hv g fd' hg
        exact ⟨hjob, Descriptors.get_close_of_some hget' hget hgf⟩
    · intro hv fd' g hg hget'
      obtain ⟨hjob, hget⟩ := hv f fd hfd
      apply Descriptors.get_close_of_some hget' hget
      rintro rfl
      exact hg hjob
  · exact Keeps.refl

theorem opens_held_isSome (h : f = g ∨ (v.held g).isSome = true) :
    ((v.opens f).held g).isSome = true := by
  rw [opens_held]
  split
  · rfl
  · next hgf => exact h.resolve_left fun heq => hgf heq.symm

/-- The channel ends are open at the descriptors of the call, above the stdio. -/
def Child.Holds (j : ℕ) (c : Child) : Prop :=
  ∀ ch, c.table.get (c.fd ch) = some (.childEnd j ch) ∧ 2 < c.fd ch

/-- After the three `dup2` the channels are at their places. -/
theorem exists_wire (hc : c.Holds j) :
    ∃ t, c.wire = some t ∧ (∀ ch, t.get (c.place ch) = some (.childEnd j ch)) ∧
      t.files.length = max c.table.files.length 3 := by
  obtain ⟨hin, -⟩ := hc .stdin
  obtain ⟨hout, hout2⟩ := hc .stdout
  obtain ⟨herr, herr2⟩ := hc .stderr
  obtain ⟨hart, hart2⟩ := hc .art
  refine ⟨((c.table.set 0 (some (.childEnd j .stdin))).set 1 (some (.childEnd j .stdout))).set 2
    (some (.childEnd j .stderr)), ?_, ?_, ?_⟩
  · have h₁ : (c.table.set 0 (some (.childEnd j .stdin))).get (c.fd .stdout) =
        some (.childEnd j .stdout) := by
      rw [Descriptors.get_set_of_ne (by omega), hout]
    have h₂ : ((c.table.set 0 (some (.childEnd j .stdin))).set 1
        (some (.childEnd j .stdout))).get (c.fd .stderr) = some (.childEnd j .stderr) := by
      rw [Descriptors.get_set_of_ne (by omega), Descriptors.get_set_of_ne (by omega), herr]
    simp only [Child.wire, Descriptors.dup2, hin, Option.map_some, Option.bind_some, h₁, h₂]
  · intro ch
    cases ch with
    | stdin | stdout | stderr => simp [Child.place, Descriptors.get_set]
    | art =>
      simp only [Child.place]
      rw [Descriptors.get_set_of_ne (by omega), Descriptors.get_set_of_ne (by omega),
        Descriptors.get_set_of_ne (by omega), hart]
  · simp only [Descriptors.length_set]
    omega

theorem get_scrubFds {keep : ℕ} {listed : Bool} {t : Descriptors File}
    (h : listed = true ∨ t.files.length ≤ 4096) :
    (scrubFds keep listed t).get fd = if fd ≤ 2 ∨ fd = keep then t.get fd else none := by
  unfold scrubFds
  rw [Descriptors.get_closeAll]
  by_cases hkeep : fd ≤ 2 ∨ fd = keep
  · rw [if_pos hkeep, if_neg]
    rintro ⟨hfalse, -⟩
    exact absurd (decide_eq_true hkeep) (Bool.eq_false_iff.mp hfalse)
  · rw [if_neg hkeep]
    cases hget : t.get fd with
    | none => rw [ite_self]
    | some f =>
      rw [if_pos]
      refine ⟨decide_eq_false hkeep, ?_⟩
      cases hlisted : listed with
      | true =>
        rw [if_pos rfl, List.mem_append]
        exact .inl (Descriptors.mem_fds.mpr ⟨f, hget⟩)
      | false =>
        have hlt := Descriptors.lt_length_of_get hget
        have hle : t.files.length ≤ 4096 := h.resolve_left (by rw [hlisted]; nofun)
        rw [if_neg (by nofun), List.mem_range'_1]
        omega

theorem place_cases (h : fd ≤ 2 ∨ fd = c.fd .art) : ∃ ch, c.place ch = fd := by
  rcases h with hle | rfl
  · obtain rfl | rfl | rfl : fd = 0 ∨ fd = 1 ∨ fd = 2 := by omega
    · exact ⟨.stdin, rfl⟩
    · exact ⟨.stdout, rfl⟩
    · exact ⟨.stderr, rfl⟩
  · exact ⟨.art, rfl⟩

theorem place_kept (c : Child) (ch : Chan) : c.place ch ≤ 2 ∨ c.place ch = c.fd .art := by
  cases ch with
  | stdin => exact .inl (Nat.zero_le 2)
  | stdout => exact .inl (Nat.le_succ 1)
  | stderr => exact .inl (Nat.le_refl 2)
  | art => exact .inr rfl

theorem exists_runUserCode {listed : Bool} (hc : c.Holds j)
    (h : listed = true ∨ c.table.files.length ≤ 4096) :
    ∃ t, c.runUserCode listed = some t ∧
      ∀ fd f, t.get fd = some f ↔ ∃ ch, c.place ch = fd ∧ f = .childEnd j ch := by
  obtain ⟨t, hwire, hplace, hlength⟩ := exists_wire hc
  refine ⟨scrubFds (c.fd .art) listed t, by rw [Child.runUserCode, hwire]; rfl, fun fd f => ?_⟩
  rw [get_scrubFds (h.imp_right fun hle => by omega)]
  constructor
  · intro hget
    split at hget
    · next hkept =>
      obtain ⟨ch, rfl⟩ := place_cases hkept
      exact ⟨ch, rfl, Option.some.inj (hget.symm.trans (hplace ch))⟩
    · cases hget
  · rintro ⟨ch, rfl, rfl⟩
    rw [if_pos (place_kept c ch), hplace]

theorem userOp_allowed {t : Descriptors File} {op : UserOp} {new : List (Descriptors File)}
    (ht : ∀ fd f, t.get fd = some f → f.Allowed j) (h : userOp j t op = some new) :
    ∀ t' ∈ new, ∀ fd f, t'.get fd = some f → f.Allowed j := by
  have hset : ∀ (fd : ℕ) (o : Option File), (∀ f, o = some f → f.Allowed j) →
      ∀ fd' f, (t.set fd o).get fd' = some f → f.Allowed j := by
    intro fd o ho fd' f hget
    rw [Descriptors.get_set] at hget
    split at hget
    · exact ho f hget
    · exact ht fd' f hget
  cases op with
  | «open» =>
    cases h
    rw [List.forall_mem_singleton]
    exact hset _ _ fun f hf => .inl (Option.some.inj hf).symm
  | close fd =>
    cases h
    rw [List.forall_mem_singleton]
    exact hset _ _ nofun
  | dup2 old new =>
    obtain ⟨t', hdup, rfl⟩ := Option.map_eq_some_iff.mp h
    obtain ⟨f, hf, rfl⟩ := Descriptors.dup2_eq_some.mp hdup
    rw [List.forall_mem_singleton]
    exact hset _ _ fun g hg => Option.some.inj hg ▸ ht old f hf
  | fork =>
    cases h
    simp only [List.forall_mem_cons]
    exact ⟨ht, ht, nofun⟩

def Ready (j : ℕ) (held : File → Option ℕ) : ThreadPc → Prop
  | .pairing todo => ∀ ch, ch ∉ todo → (held (.childEnd j ch)).isSome = true
  | .piped => (∀ ch, (held (.childEnd j ch)).isSome = true) ∧
    (held (.pipeRead j)).isSome = true ∧ (held (.pipeWrite j)).isSome = true
  | _ => True

/-- The intermediate process has its pipe as well. -/
structure Child.Fresh (j : ℕ) (c : Child) : Prop where
  holds : c.Holds j
  r : c.table.get c.r = some (.pipeRead j)
  w : c.table.get c.w = some (.pipeWrite j)

def Session.Sound (j : ℕ) : Session → Prop
  | .forked c => c.Holds j
  | .running procs => ∀ t ∈ procs, ∀ fd f, t.get fd = some f → f.Allowed j
  | .ended => True

/-- Every thread holds its own files, and every forked process its channel ends. -/
structure Sound (s : Agent) : Prop where
  stdio : ∀ n, n < 3 → s.table.get n = some (.stdio n)
  thread : ∀ j t, s.thread j = some t → (s.view t).Holds j ∧ Ready j t.held t.pc
  inter : ∀ j c, s.inter j = some c → c.Fresh j
  session : ∀ j p, s.session j = some p → p.Sound j

theorem sound_start : Sound .start where
  stdio := by decide
  thread := nofun
  inter := nofun
  session := nofun

theorem forall_update {α : Type} {m : ℕ → Option α} {P : ℕ → α → Prop} {o : Option α}
    (ho : ∀ x, o = some x → P j x) (hm : ∀ i x, i ≠ j → m i = some x → P i x) :
    ∀ i x, Function.update m j o i = some x → P i x := by
  intro i x hx
  by_cases hij : i = j
  · subst hij
    rw [Function.update_self] at hx
    exact ho x hx
  · rw [Function.update_of_ne hij] at hx
    exact hm i x hij hx

theorem Sound.put {pc : ThreadPc} (hs : Sound s) (htable : v.table = s.table) (hv : v.Holds j)
    (hk : Keeps j v v') (hr : Ready j v'.held pc) : Sound (s.put j pc v') := by
  have hothers := hk.others hv
  rw [htable] at hothers
  constructor
  · intro n hn
    exact hothers n _ nofun (hs.stdio n hn)
  · apply forall_update (P := fun i t => ((s.put j pc v').view t).Holds i ∧ Ready i t.held t.pc)
    · intro t ht
      obtain rfl := Option.some.inj ht
      exact ⟨hk.holds hv, hr⟩
    · intro i t hij ht
      obtain ⟨hheld, hready⟩ := hs.thread i t ht
      refine ⟨fun f fd hf => ?_, hready⟩
      obtain ⟨hjob, hget⟩ := hheld f fd hf
      refine ⟨hjob, hothers fd f ?_ hget⟩
      rw [hjob]
      exact fun h => hij (Option.some.inj h)
  · exact hs.inter
  · exact hs.session

theorem Sound.setLock (hs : Sound s) (lock : Option ℕ) : Sound { s with spawnLock := lock } where
  stdio := hs.stdio
  thread := hs.thread
  inter := hs.inter
  session := hs.session

theorem Sound.unlock (hs : Sound s) : Sound (s.unlock j) := by
  unfold Agent.unlock
  split
  · exact hs.setLock none
  · exact hs

theorem Sound.setInter {o : Option Child} (hs : Sound s) (ho : ∀ c, o = some c → c.Fresh j) :
    Sound (s.setInter j o) where
  stdio := hs.stdio
  thread := hs.thread
  inter := forall_update ho fun i c _ => hs.inter i c
  session := hs.session

theorem Sound.setSession {p : Session} (hs : Sound s) (hp : p.Sound j) :
    Sound (s.setSession j p) where
  stdio := hs.stdio
  thread := hs.thread
  inter := hs.inter
  session := by
    apply forall_update (P := Session.Sound) _ fun i p _ => hs.session i p
    intro q hq
    exact Option.some.inj hq ▸ hp

theorem child_fresh (hs : Sound s) (hv : (s.view t).Holds j) (hr : Ready j t.held .piped) :
    (s.child j t).Fresh j := by
  have hget : ∀ f, (t.held f).isSome = true → s.table.get ((t.held f).getD 0) = some f := by
    intro f hf
    obtain ⟨fd, hfd⟩ := Option.isSome_iff_exists.mp hf
    rw [hfd]
    exact (hv f fd hfd).2
  obtain ⟨hends, hread, hwrite⟩ := hr
  constructor
  · intro ch
    have hch := hget _ (hends ch)
    refine ⟨hch, ?_⟩
    by_contra hlt
    have hstdio := hs.stdio _ (Nat.lt_succ_of_le (Nat.le_of_not_lt hlt))
    cases hstdio.symm.trans hch
  · exact hget _ hread
  · exact hget _ hwrite

theorem sound_threadStep {a : ThreadAct} (hs : Sound s) (ht : s.thread j = some t)
    (h : s.threadStep j t a = some s') : Sound s' := by
  obtain ⟨hv, hready⟩ := hs.thread j t ht
  cases a with
  | pair =>
    simp only [Agent.threadStep] at h
    split at h
    · next ch todo hpc =>
      cases h
      rw [hpc] at hready
      apply hs.put rfl hv ((opens_keeps rfl).trans (opens_keeps rfl))
      intro ch' hch'
      apply opens_held_isSome
      by_cases heq : ch' = ch
      · exact .inl (by rw [heq])
      · refine .inr (opens_held_isSome (.inr (hready ch' ?_)))
        rw [List.mem_cons, not_or]
        exact ⟨heq, hch'⟩
    · cases h
  | pipe =>
    obtain ⟨⟨hpc, -⟩, h⟩ := Option.ite_none_right_eq_some.mp h
    cases h
    rw [hpc] at hready
    apply Sound.setLock
    apply hs.put rfl hv ((opens_keeps rfl).trans (opens_keeps rfl))
    refine ⟨fun ch => ?_, ?_, ?_⟩
    · exact opens_held_isSome (.inr (opens_held_isSome (.inr (hready ch List.not_mem_nil))))
    · exact opens_held_isSome (.inr (opens_held_isSome (.inl rfl)))
    · exact opens_held_isSome (.inl rfl)
  | fork =>
    obtain ⟨hpc, h⟩ := Option.ite_none_right_eq_some.mp h
    cases h
    rw [hpc] at hready
    have hput : Sound (s.put j .forked (s.view t)) := hs.put rfl hv .refl trivial
    apply hput.setInter
    intro c hc
    exact Option.some.inj hc ▸ child_fresh hs hv hready
  | closeWrite =>
    obtain ⟨-, h⟩ := Option.ite_none_right_eq_some.mp h
    cases h
    exact hs.put rfl hv closes_keeps trivial
  | closeRead =>
    obtain ⟨-, h⟩ := Option.ite_none_right_eq_some.mp h
    cases h
    exact hs.put rfl hv closes_keeps trivial
  | join =>
    obtain ⟨-, h⟩ := Option.ite_none_right_eq_some.mp h
    cases h
    have hput : Sound (s.put j (.closing Chan.all) (s.view t)) := hs.put rfl hv .refl trivial
    exact hput.unlock
  | closeEnd =>
    simp only [Agent.threadStep] at h
    split at h
    · cases h
      exact hs.put rfl hv closes_keeps trivial
    · cases h
      exact hs.put rfl hv .refl trivial
    · cases h
  | leave =>
    simp only [Agent.threadStep] at h
    split at h
    · cases h
    · cases h
    · cases h
      have hput : Sound (s.put j (.cleaning (cleanupOrder j)) (s.view t)) :=
        hs.put rfl hv .refl trivial
      exact hput.unlock
  | clean =>
    simp only [Agent.threadStep] at h
    split at h
    · cases h
      exact hs.put rfl hv closes_keeps trivial
    · cases h
      exact hs.put rfl hv .refl trivial
    · cases h

theorem Child.Fresh.forked (hc : c.Fresh j) :
    Child.Holds j { c with table := (c.table.close c.r).close c.w } := by
  intro ch
  obtain ⟨hget, hlt⟩ := hc.holds ch
  have hr := Descriptors.get_close_of_some hget hc.r nofun
  have hw := Descriptors.get_close_of_some hc.w hc.r nofun
  exact ⟨Descriptors.get_close_of_some hr hw nofun, hlt⟩

theorem tableSize_forked (hp : s.session j = some (.forked c)) :
    s.tableSize j = c.table.files.length := by
  rw [Agent.tableSize, hp]

theorem sound_step (hs : Sound s) (hg : Scrubs s a) (h : s.step a = some s') : Sound s' := by
  cases a with
  | accept j =>
    simp only [Agent.step] at h
    split at h
    · cases h
      exact hs.put (v := ⟨s.table, fun _ => none⟩) rfl nofun (opens_keeps rfl)
        fun ch hch => absurd (by cases ch <;> decide) hch
    · cases h
  | thread j a =>
    obtain ⟨t, ht, h⟩ := Option.bind_eq_some_iff.mp h
    exact sound_threadStep hs ht h
  | interFork j =>
    simp only [Agent.step] at h
    split at h
    · next c hc _ =>
      cases h
      exact hs.setSession (hs.inter j c hc).forked
    · cases h
  | interExit j =>
    obtain ⟨c, -, rfl⟩ := Option.map_eq_some_iff.mp h
    exact hs.setInter nofun
  | run j listed =>
    simp only [Agent.step] at h
    split at h
    · next c hc =>
      have hholds : c.Holds j := hs.session j _ hc
      rw [Scrubs, tableSize_forked hc] at hg
      obtain ⟨t, hrun, hexact⟩ := exists_runUserCode hholds hg
      rw [hrun] at h
      cases h
      apply hs.setSession
      intro t' ht' fd f hget
      obtain rfl := List.mem_singleton.mp ht'
      obtain ⟨ch, -, rfl⟩ := (hexact fd f).mp hget
      exact .inr ⟨ch, rfl⟩
    · cases h
  | user j k op =>
    simp only [Agent.step] at h
    split at h
    · next procs hprocs =>
      obtain ⟨new, hnew, rfl⟩ := Option.map_eq_some_iff.mp h
      obtain ⟨t, ht, hop⟩ := Option.bind_eq_some_iff.mp hnew
      have hall : ∀ t ∈ procs, ∀ fd f, t.get fd = some f → f.Allowed j := hs.session j _ hprocs
      apply hs.setSession
      intro t' ht'
      simp only [List.mem_append] at ht'
      rcases ht' with (ht' | ht') | ht'
      · exact hall t' (List.mem_of_mem_take ht')
      · exact userOp_allowed (hall t (List.mem_of_getElem? ht)) hop t' ht'
      · exact hall t' (List.mem_of_mem_drop ht')
    · cases h
  | exit j =>
    obtain ⟨p, -, rfl⟩ := Option.map_eq_some_iff.mp h
    exact hs.setSession trivial

theorem Sound.isolated (hs : Sound s) : Isolated s := fun j _ hp => hs.session j _ hp

theorem Sound.wired (hs : Sound s) (hg : Scrubs s a) : Wired s a := by
  cases a with
  | run j listed =>
    intro c hc
    rw [Scrubs, tableSize_forked hc] at hg
    have hholds : c.Holds j := hs.session j _ hc
    exact exists_runUserCode hholds hg
  | _ => trivial

/-- Jobs may be served, forked and cleaned up in any interleaving. As long as the open descriptors
can be listed, or are fewer than those that are closed without, the code of a job starts with its
four channels and nothing else, and never holds a descriptor of the agent or of another job. -/
theorem isolated_of_scrubs (h : EveryStep Agent.step Scrubs .start as) :
    Always Agent.step Isolated .start as ∧ EveryStep Agent.step Wired .start as := by
  have hall : Always Agent.step Sound .start as :=
    .of_guarded (fun _ _ _ => sound_step) sound_start h
  exact ⟨hall.mono fun _ => Sound.isolated, .of_always_guard (fun _ _ => Sound.wired) hall h⟩

/-- Two jobs, of which the second forks while the channels of the first are open in the agent. -/
def twoJobs : List AgentAct :=
  [.accept 0, .thread 0 .pair, .thread 0 .pair, .accept 1, .thread 0 .pair, .thread 0 .pair,
    .thread 0 .pipe, .thread 0 .fork, .interFork 0, .thread 0 .closeWrite, .interExit 0,
    .thread 0 .closeRead, .thread 1 .pair, .thread 1 .pair, .thread 1 .pair, .thread 1 .pair,
    .thread 0 .join, .thread 1 .pipe, .thread 1 .fork, .interFork 1, .run 0 true, .run 1 true,
    .user 1 0 (.dup2 0 9), .user 1 0 .fork, .thread 0 .closeEnd, .exit 0]

theorem isolated_twoJobs :
    Always Agent.step Isolated .start twoJobs ∧ EveryStep Agent.step Wired .start twoJobs :=
  isolated_of_scrubs (by decide)

end CodeRunner.Zygote.Channels
