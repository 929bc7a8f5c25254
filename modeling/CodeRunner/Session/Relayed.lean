import CodeRunner.Relay.Reader
import CodeRunner.Session.Pump

/-! # The output of a relayed session

On the zygote tier the reader goroutine of the connection writes into two unbuffered pipes, and the
pumps of the session read from them. The goroutine waits for whichever pump its current frame is
for. None of the three is ever left waiting, whatever the agent sends and whatever the budget.
-/

namespace CodeRunner.Session

open Transition Quota

open Relay (RelayConn ConnEnd Phase framesOf beforeExit payloads)

def Stream.pipe : Stream → Relay.Output
  | .stdout => .stdout
  | .stderr => .stderr

/-- What the agent sends of a stream before its first EXIT frame. -/
def relayedSource (reads : List (List UInt8)) (i : Stream) : List UInt8 :=
  payloads i.pipe.ftype (beforeExit (framesOf reads))

structure Relayed where
  conn : RelayConn
  output : Output

/-- A step of the reader that no pump takes part in, a `Read` of a pipe that is being written to,
one of a pipe that has been closed, and the rest of an iteration of a pump. -/
inductive RelayedAct where
  | reader
  | transfer (i : Stream)
  | finish (i : Stream)
  | pump (i : Stream)
  deriving DecidableEq, Repr

/-- What a `Read` of a closed pipe returns. -/
def closedEnd : Option Relay.RelayError → ReadEnd
  | none => .eof
  | some _ => .failed

namespace Relayed

def start (reads : List (List UInt8)) (outputKb : Int64) : Relayed where
  conn := .start reads
  output := .start outputKb (relayedSource reads)

def step (fin : ConnEnd) (s : Relayed) : RelayedAct → Option Relayed
  | .reader => (s.conn.step fin .go).map fun conn => { s with conn := conn }
  | .transfer i =>
    match s.conn.pc with
    | .write out rest =>
      if out = i.pipe ∧ rest ≠ [] then
        -- a pipe hands over as much as the buffer of the `Read` takes
        let n := min readSize rest.length
        (s.conn.step fin (.take out (n - 1))).bind fun conn =>
          (s.output.step (.read i n .more)).map fun output => ⟨conn, output⟩
      else none
    | _ => none
  | .finish i =>
    match (s.conn.pipe i.pipe).closed with
    | some err =>
      (s.output.step (.read i 0 (closedEnd err))).map fun output => { s with output := output }
    | none => none
  | .pump i => (s.output.step (.go i)).map fun output => { s with output := output }

/-- The reader and both pumps have returned. -/
def Finished (s : Relayed) : Prop :=
  s.conn.pc = .returned ∧ ∀ i, ∃ fin, (s.output.pump i).pc = .returned fin

end Relayed

variable {fin : ConnEnd} {reads : List (List UInt8)} {s s' : Relayed} {a : RelayedAct}
  {i : Stream} {o o' : Output} {src : Stream → List UInt8} {cap : ℕ} {p : Pump}
  {act : OutputAct}

theorem Stream.exists_pipe (out : Relay.Output) : ∃ i : Stream, i.pipe = out := by
  cases out with
  | stdout => exact ⟨.stdout, rfl⟩
  | stderr => exact ⟨.stderr, rfl⟩

inductive Relayed.Parts (fin : ConnEnd) (s : Relayed) : RelayedAct → Relayed → Prop
  | reader {conn : RelayConn} (h : s.conn.step fin .go = some conn) :
      Parts fin s .reader { s with conn := conn }
  | transfer {i : Stream} {rest : List UInt8} {conn : RelayConn} {output : Output}
      (hpc : s.conn.pc = .write i.pipe rest) (hrest : rest ≠ [])
      (hconn : s.conn.step fin (.take i.pipe (min readSize rest.length - 1)) = some conn)
      (houtput : s.output.step (.read i (min readSize rest.length) .more) = some output) :
      Parts fin s (.transfer i) ⟨conn, output⟩
  | finish {i : Stream} {err : Option Relay.RelayError} {output : Output}
      (hclosed : (s.conn.pipe i.pipe).closed = some err)
      (houtput : s.output.step (.read i 0 (closedEnd err)) = some output) :
      Parts fin s (.finish i) { s with output := output }
  | pump {i : Stream} {output : Output} (houtput : s.output.step (.go i) = some output) :
      Parts fin s (.pump i) { s with output := output }

theorem parts (h : s.step fin a = some s') : s.Parts fin a s' := by
  cases a with
  | reader =>
    obtain ⟨conn, hconn, rfl⟩ := Option.map_eq_some_iff.mp h
    exact .reader hconn
  | transfer i =>
    simp only [Relayed.step] at h
    split at h
    · next out rest hpc =>
      obtain ⟨⟨rfl, hrest⟩, h⟩ := Option.ite_none_right_eq_some.mp h
      obtain ⟨conn, hconn, h⟩ := Option.bind_eq_some_iff.mp h
      obtain ⟨output, houtput, rfl⟩ := Option.map_eq_some_iff.mp h
      exact .transfer hpc hrest hconn houtput
    · cases h
  | finish i =>
    simp only [Relayed.step] at h
    split at h
    · next err hclosed =>
      obtain ⟨output, houtput, rfl⟩ := Option.map_eq_some_iff.mp h
      exact .finish hclosed houtput
    · cases h
  | pump i =>
    obtain ⟨output, houtput, rfl⟩ := Option.map_eq_some_iff.mp h
    exact .pump houtput

theorem readNext_pipe {conn : RelayConn} (hpc : conn.pc = .next) :
    (conn.readNext fin).pipe = conn.pipe := by
  rcases Relay.readNext_cases fin hpc with ⟨f, reads', -, -, -, hh⟩ | ⟨e, reads', -, -, -, hl⟩
  · exact hh.pipe
  · exact hl.pipe

/-- By itself the reader puts nothing through a pipe, and it closes one only on its way out. -/
theorem go_pipes {conn conn' : RelayConn} (h : conn.step fin .go = some conn') :
    (∀ out, (conn'.pipe out).delivered = (conn.pipe out).delivered) ∧
      (conn'.pc.reading = true → conn.pc.reading = true ∧ conn'.pipe = conn.pipe) := by
  simp only [RelayConn.step] at h
  split at h
  · next hpc =>
    cases h
    rw [readNext_pipe hpc, hpc]
    exact ⟨fun _ => rfl, fun _ => ⟨rfl, rfl⟩⟩
  · next hpc =>
    obtain ⟨-, h⟩ := Option.ite_none_right_eq_some.mp h
    cases h
    rw [hpc]
    exact ⟨fun _ => rfl, fun _ => ⟨rfl, rfl⟩⟩
  · next err e hpc =>
    cases h
    exact ⟨fun out => Relay.close_delivered .stdout out err, by rintro ⟨⟩⟩
  · next err e hpc =>
    cases h
    exact ⟨fun out => Relay.close_delivered .stderr out err, by rintro ⟨⟩⟩
  · next e hpc =>
    cases h
    constructor
    · intro out
      simp only [RelayConn.resolveExit]
      split <;> rfl
    · rintro ⟨⟩
  · cases h

/-- A read of the pipe that is being written to, of no more than is left of the frame. -/
theorem take_pipes {conn conn' : RelayConn} {out : Relay.Output} {rest : List UInt8} {n : ℕ}
    (hpc : conn.pc = .write out rest) (h : conn.step fin (.take out n) = some conn') :
    (conn'.pipe out).delivered = (conn.pipe out).delivered ++ rest.take (n + 1) ∧
      (∀ out', out' ≠ out → conn'.pipe out' = conn.pipe out') ∧
      ∀ out', (conn'.pipe out').closed = (conn.pipe out').closed := by
  simp only [RelayConn.step, hpc] at h
  obtain ⟨-, h⟩ := Option.ite_none_right_eq_some.mp h
  cases h
  refine ⟨?_, fun out' hne => Function.update_of_ne hne _ _, fun out' => ?_⟩
  · simp only [Function.update_self]
  · by_cases hout : out' = out
    · subst hout
      simp only [Function.update_self]
    · simp only [Function.update_of_ne hout]

/-- A `Read` that hands out `n` bytes and no error, or an error and no bytes. -/
theorem read_pump {n : ℕ} {fin : ReadEnd} (h : o.step (.read i n fin) = some o') :
    (o.pump i).pc = .reading ∧ (o'.pump i).rest = (o.pump i).rest.drop n ∧
      (∀ j, j ≠ i → o'.pump j = o.pump j) ∧
      (o'.pump i).pc = if n = 0 then fin.next else .drawing ((o.pump i).rest.take n) fin := by
  cases output_branch h with
  | read hpc hn hle heof =>
    refine ⟨hpc, ?_, fun j hj => set_pump_of_ne hj, ?_⟩
    · exact congrArg Pump.rest set_pump_self
    · exact congrArg Pump.pc set_pump_self

/-- A pump on a pipe has ended only when there is nothing left to read. -/
def Ended (p : Pump) : Prop :=
  (p.pc.fin = .more ∧ ∀ fin, p.pc ≠ .returned fin) ∨ (∃ fin, p.pc = .returned fin) ∧ p.rest = []

/-- The parts keep their own invariants, and what has left a pipe has been read by its pump. -/
structure Joined (reads : List (List UInt8)) (cap : ℕ) (s : Relayed) : Prop where
  phase : Phase (framesOf reads) s.conn
  refines : ∃ log, Refines (relayedSource reads) cap log s.output
  piped : ∀ i, (s.conn.pipe i.pipe).delivered ++ (s.output.pump i).rest = relayedSource reads i
  opened : s.conn.pc.reading = true → ∀ out, (s.conn.pipe out).closed = none
  ended : ∀ i, Ended (s.output.pump i)

theorem Joined.start {outputKb : Int64} {K : ℕ} (hK : outputKb.toInt = K)
    (hcap : K * 1024 < 9223372036854775808) :
    Joined reads (K * 1024) (.start reads outputKb) where
  phase := .start reads
  refines := ⟨[], .start hK hcap⟩
  piped _ := rfl
  opened _ _ := rfl
  ended _ := .inl ⟨rfl, nofun⟩

theorem Joined.rest_eq (h : Joined reads cap s) (hpc : s.conn.pc.reading = true) (i : Stream) :
    (s.output.pump i).rest = s.conn.pc.pending i.pipe ++
      payloads i.pipe.ftype (beforeExit (framesOf s.conn.reads)) := by
  obtain ⟨hread, -⟩ := h.phase.reading hpc
  have hout : (s.conn.pipe i.pipe).delivered ++ (s.output.pump i).rest =
      (s.conn.pipe i.pipe).delivered ++ (s.conn.pc.pending i.pipe ++
        payloads i.pipe.ftype (beforeExit (framesOf s.conn.reads))) := by
    rw [h.piped, ← List.append_assoc, hread.out]
    rfl
  exact List.append_cancel_left hout

theorem Joined.rest_of_left (h : Joined reads cap s) (hpc : s.conn.pc.reading = false) :
    (s.output.pump i).rest = [] := by
  have hdelivered : s.conn.Delivered (framesOf reads) := by
    have hphase := h.phase
    unfold Phase at hphase
    cases hcase : s.conn.pc with
    | next | write => rw [hcase] at hpc; cases hpc
    | _ => rw [hcase] at hphase; exact hphase.1
  have hpiped := h.piped i
  rw [hdelivered i.pipe] at hpiped
  exact List.append_right_eq_self.mp hpiped

theorem Joined.rest_of_closed (h : Joined reads cap s) {err : Option Relay.RelayError}
    (hclosed : (s.conn.pipe i.pipe).closed = some err) : (s.output.pump i).rest = [] := by
  apply h.rest_of_left
  cases hpc : s.conn.pc.reading with
  | true =>
    rw [h.opened hpc] at hclosed
    cases hclosed
  | false => rfl

theorem ended_go (h : o.step (.go i) = some o') (hall : ∀ j, Ended (o.pump j)) :
    (∀ j, (o'.pump j).rest = (o.pump j).rest) ∧ ∀ j, Ended (o'.pump j) := by
  have hmore : ∀ pc : PumpPc, (o.pump i).pc = pc → (∀ fin, pc ≠ .returned fin) →
      pc.fin = .more := by
    rintro pc rfl hne
    rcases hall i with ⟨hmore, -⟩ | ⟨⟨fin, hfin⟩, -⟩
    · exact hmore
    · exact absurd hfin (hne fin)
  have hkeep : ∀ p : Pump, p.rest = (o.pump i).rest →
      ∀ j, ((o.set i p).pump j).rest = (o.pump j).rest := fun p hp =>
    forall_set (P := fun j p => p.rest = (o.pump j).rest) hp fun _ => rfl
  cases output_branch h with
  | draw hpc =>
    refine ⟨hkeep _ rfl, forall_set (.inl ?_) hall⟩
    have hfin := hmore _ hpc nofun
    simp only [PumpPc.within]
    split
    · split <;> exact ⟨hfin, nofun⟩
    · exact ⟨hfin, nofun⟩
  | cross hpc =>
    have hfin := hmore _ hpc nofun
    exact ⟨hkeep _ rfl, forall_set (.inl ⟨hfin, nofun⟩) hall⟩
  | sink hpc =>
    obtain rfl := hmore _ hpc nofun
    refine ⟨hkeep _ rfl, forall_set (.inl ?_) hall⟩
    dsimp only
    split <;> exact ⟨rfl, nofun⟩
  | mark hpc =>
    obtain rfl := hmore _ hpc nofun
    exact ⟨hkeep _ rfl, forall_set (.inl ⟨rfl, nofun⟩) hall⟩

theorem Joined.reader (hs : Joined reads cap s) {conn : RelayConn}
    (hconn : s.conn.step fin .go = some conn) : Joined reads cap { s with conn := conn } := by
  obtain ⟨hdelivered, hreading⟩ := go_pipes hconn
  constructor
  · exact (hs.phase.step hconn).1
  · exact hs.refines
  · intro i
    rw [hdelivered]
    exact hs.piped i
  · intro hpc out
    obtain ⟨hpc, hpipe⟩ := hreading hpc
    rw [hpipe]
    exact hs.opened hpc out
  · exact hs.ended

/-- What a `Read` takes from a pipe is the front of what its pump has not read. -/
theorem Joined.transfer (hs : Joined reads cap s)
    (hfit : ∑ j, (relayedSource reads j).length ≤ cap + 9223372036854775808) {rest : List UInt8}
    {conn : RelayConn} (hpc : s.conn.pc = .write i.pipe rest) (hrest : rest ≠ [])
    (hconn : s.conn.step fin (.take i.pipe (min readSize rest.length - 1)) = some conn)
    (houtput : s.output.step (.read i (min readSize rest.length) .more) = some o') :
    Joined reads cap ⟨conn, o'⟩ := by
  have hreading : s.conn.pc.reading = true := by rw [hpc]; rfl
  obtain ⟨hdelivered, hother, hclosed⟩ := take_pipes hpc hconn
  obtain ⟨hreadpc, hdrop, hsame, hpc'⟩ := read_pump houtput
  have hpos : 0 < rest.length := List.length_pos_of_ne_nil hrest
  have hn : min readSize rest.length - 1 + 1 = min readSize rest.length := by
    have hsize : readSize = 32768 := rfl
    omega
  constructor
  · exact (hs.phase.step hconn).1
  · obtain ⟨log, hlog⟩ := hs.refines
    exact step_refines hfit hlog houtput
  · intro j
    by_cases hj : j = i
    · subst hj
      have hrest' := hs.rest_eq hreading j
      have hpending : s.conn.pc.pending j.pipe = rest := by
        rw [hpc]
        exact if_pos rfl
      rw [hpending] at hrest'
      have hle : min readSize rest.length ≤ rest.length := Nat.min_le_right _ _
      have hpiped := hs.piped j
      rw [hrest', ← List.take_append_drop (min readSize rest.length) rest] at hpiped
      rw [hdelivered, hdrop, hn, hrest', List.drop_append_of_le_length hle, ← hpiped]
      simp only [List.append_assoc]
    · have hne : j.pipe ≠ i.pipe := by
        cases j <;> cases i <;> first | exact absurd rfl hj | nofun
      rw [hother j.pipe hne, hsame j hj]
      exact hs.piped j
  · intro _ out
    rw [hclosed]
    exact hs.opened hreading out
  · intro j
    by_cases hj : j = i
    · subst hj
      left
      rw [hpc', if_neg (by omega)]
      exact ⟨rfl, nofun⟩
    · rw [hsame j hj]
      exact hs.ended j

theorem Joined.finish (hs : Joined reads cap s)
    (hfit : ∑ j, (relayedSource reads j).length ≤ cap + 9223372036854775808)
    {err : Option Relay.RelayError} (hclosed : (s.conn.pipe i.pipe).closed = some err)
    (houtput : s.output.step (.read i 0 (closedEnd err)) = some o') :
    Joined reads cap { s with output := o' } := by
  obtain ⟨hreadpc, hdrop, hsame, hpc'⟩ := read_pump houtput
  have hnil := hs.rest_of_closed hclosed
  constructor
  · exact hs.phase
  · obtain ⟨log, hlog⟩ := hs.refines
    exact step_refines hfit hlog houtput
  · intro j
    by_cases hj : j = i
    · subst hj
      rw [hdrop]
      exact hs.piped j
    · rw [hsame j hj]
      exact hs.piped j
  · exact hs.opened
  · intro j
    by_cases hj : j = i
    · subst hj
      right
      rw [hpc', hdrop, hnil, if_pos rfl]
      refine ⟨⟨closedEnd err, ?_⟩, rfl⟩
      cases err <;> rfl
    · rw [hsame j hj]
      exact hs.ended j

theorem Joined.pump (hs : Joined reads cap s)
    (hfit : ∑ j, (relayedSource reads j).length ≤ cap + 9223372036854775808)
    (houtput : s.output.step (.go i) = some o') : Joined reads cap { s with output := o' } := by
  obtain ⟨hrest, hended⟩ := ended_go houtput hs.ended
  constructor
  · exact hs.phase
  · obtain ⟨log, hlog⟩ := hs.refines
    exact step_refines hfit hlog houtput
  · intro j
    rw [hrest]
    exact hs.piped j
  · exact hs.opened
  · exact hended

theorem joined_step (hfit : ∑ j, (relayedSource reads j).length ≤ cap + 9223372036854775808)
    (hs : Joined reads cap s) (h : s.step fin a = some s') : Joined reads cap s' := by
  cases parts h with
  | reader hconn => exact hs.reader hconn
  | transfer hpc hrest hconn houtput => exact hs.transfer hfit hpc hrest hconn houtput
  | finish hclosed houtput => exact hs.finish hfit hclosed houtput
  | pump houtput => exact hs.pump hfit houtput

/-- How many steps a pump has before its next read, and the read of the end. -/
def PumpPc.left : PumpPc → ℕ
  | .drawing _ _ => 5
  | .crossing _ _ _ => 4
  | .sinking _ _ _ => 3
  | .marking _ => 2
  | .reading => 1
  | .returned _ => 0

/-- Every read of a frame costs the reader a step, which pays for four of the pump. -/
def Relayed.left (s : Relayed) : ℕ := 5 * s.conn.left + ∑ i, (s.output.pump i).pc.left

theorem next_left_le (fin : ReadEnd) : fin.next.left ≤ 1 := by
  cases fin <;> exact Nat.le_of_ble_eq_true rfl

theorem sum_left_set : ∑ j, ((o.set i p).pump j).pc.left + (o.pump i).pc.left =
    ∑ j, (o.pump j).pc.left + p.pc.left := by
  have hsum : ∀ f : Stream → ℕ, ∑ j, f j = f .stdout + f .stderr := fun f => by
    simp [Finset.sum, Finset.univ, Fintype.elems]
  rw [hsum, hsum]
  cases i with
  | stdout => simp only [Output.set, Function.update_self, ne_eq, reduceCtorEq, not_false_eq_true,
      Function.update_of_ne]; omega
  | stderr => simp only [Output.set, Function.update_self, ne_eq, reduceCtorEq, not_false_eq_true,
      Function.update_of_ne]; omega

theorem within_left_le (remaining : Int64) (chunk : List UInt8) (fin : ReadEnd) :
    (PumpPc.within remaining chunk fin).left ≤ 4 := by
  unfold PumpPc.within
  split
  · split
    · exact Nat.le_refl 4
    · exact Nat.le_succ 3
  · exact Nat.le_add_right 2 2

theorem go_left (h : o.step (.go i) = some o') :
    ∑ j, (o'.pump j).pc.left < ∑ j, (o.pump j).pc.left := by
  cases output_branch h with
  | @draw i chunk fin hpc =>
    have hleft : (o.pump i).pc.left = 5 := by rw [hpc]; rfl
    have hle := within_left_le (o.budget - Int64.ofNat chunk.length + Int64.ofNat chunk.length)
      chunk fin
    apply Nat.lt_of_add_lt_add_right
    rw [sum_left_set (o := { o with budget := o.budget - Int64.ofNat chunk.length }), hleft]
    dsimp only
    omega
  | @cross i chunk forward fin hpc =>
    have hleft : (o.pump i).pc.left = 4 := by rw [hpc]; rfl
    apply Nat.lt_of_add_lt_add_right
    rw [sum_left_set (o := { o with truncated := true }), hleft]
    dsimp only [PumpPc.left]
    omega
  | @sink i chunk forward fin hpc =>
    have hleft : (o.pump i).pc.left = 3 := by rw [hpc]; rfl
    have hle := next_left_le fin
    apply Nat.lt_of_add_lt_add_right
    rw [sum_left_set, hleft]
    dsimp only
    split
    · dsimp only [PumpPc.left]
      omega
    · omega
  | @mark i fin hpc =>
    have hleft : (o.pump i).pc.left = 2 := by rw [hpc]; rfl
    have hle := next_left_le fin
    apply Nat.lt_of_add_lt_add_right
    rw [sum_left_set (o := { o with truncated := true }), hleft]
    dsimp only
    omega

theorem read_left {n : ℕ} {fin : ReadEnd} (h : o.step (.read i n fin) = some o') :
    ∑ j, (o'.pump j).pc.left ≤ ∑ j, (o.pump j).pc.left + 4 ∧
      (n = 0 → fin ≠ .more → ∑ j, (o'.pump j).pc.left < ∑ j, (o.pump j).pc.left) := by
  cases output_branch h with
  | @read i n fin hpc hn hle heof =>
    have hleft : (o.pump i).pc.left = 1 := by rw [hpc]; rfl
    constructor
    · apply Nat.le_of_add_le_add_right
      rw [sum_left_set, hleft]
      have hnext := next_left_le fin
      dsimp only
      split
      · omega
      · dsimp only [PumpPc.left]
        omega
    · rintro rfl hfin
      apply Nat.lt_of_add_lt_add_right
      rw [sum_left_set, hleft, if_pos rfl, ReadEnd.next, if_neg hfin]
      dsimp only [PumpPc.left]
      omega

theorem step_left (hs : Joined reads cap s) (h : s.step fin a = some s') : s'.left < s.left := by
  unfold Relayed.left
  cases parts h with
  | reader hconn =>
    have hlt := (hs.phase.step hconn).2
    dsimp only
    omega
  | transfer hpc hrest hconn houtput =>
    have hlt := (hs.phase.step hconn).2
    have hle := (read_left houtput).1
    dsimp only
    omega
  | @finish i err output hclosed houtput =>
    have hfin : closedEnd err ≠ .more := by cases err <;> nofun
    have hlt := (read_left houtput).2 rfl hfin
    dsimp only
    omega
  | pump houtput =>
    have hlt := go_left houtput
    dsimp only
    omega

theorem exists_pump (fin : ConnEnd) (hreading : (s.output.pump i).pc ≠ .reading)
    (hreturned : ∀ e, (s.output.pump i).pc ≠ .returned e) :
    ∃ a s', s.step fin a = some s' := by
  rcases pump_goes hreturned with hgo | hread
  · obtain ⟨output, houtput⟩ := Option.isSome_iff_exists.mp hgo
    exact ⟨.pump i, { s with output := output }, by simp [Relayed.step, houtput]⟩
  · obtain ⟨output, houtput⟩ := Option.isSome_iff_exists.mp
      (hread 0 .more (Nat.zero_le _) (Nat.zero_le _) nofun)
    exact absurd (read_pump houtput).1 hreading

theorem exists_reader (fin : ConnEnd) {conn : RelayConn}
    (h : s.conn.step fin .go = some conn) : ∃ a s', s.step fin a = some s' :=
  ⟨.reader, { s with conn := conn }, by simp [Relayed.step, h]⟩

theorem read_isSome {n : ℕ} {e : ReadEnd} (hpc : (o.pump i).pc = .reading) (hn : n ≤ readSize)
    (hle : n ≤ (o.pump i).rest.length) (heof : e = .eof → n = (o.pump i).rest.length) :
    ∃ o', o.step (.read i n e) = some o' := by
  simp only [Output.step, Output.read]
  rw [if_pos ⟨hpc, hn, hle, heof⟩]
  exact ⟨_, rfl⟩

theorem exists_relayed_step (fin : ConnEnd) (hs : Joined reads cap s) (hn : ¬ s.Finished) :
    ∃ a s', s.step fin a = some s' := by
  cases hpc : s.conn.pc with
  | next | closeStdout | closeStderr | resolve =>
    exact exists_reader fin (by simp only [RelayConn.step, hpc]; rfl)
  | write out rest =>
    by_cases hrest : rest = []
    · exact exists_reader fin (by simp only [RelayConn.step, hpc, hrest, if_true]; rfl)
    · obtain ⟨i, rfl⟩ := Stream.exists_pipe out
      have hpending := hs.rest_eq (by rw [hpc]; rfl) i
      rw [hpc, Relay.ReaderPc.pending, if_pos rfl] at hpending
      by_cases hreading : (s.output.pump i).pc = .reading
      · have hle : min readSize rest.length ≤ (s.output.pump i).rest.length := by
          rw [hpending, List.length_append]
          omega
        obtain ⟨output, houtput⟩ := read_isSome (e := .more) hreading
          (Nat.min_le_left readSize rest.length) hle (by rintro ⟨⟩)
        have htake : ∃ conn, s.conn.step fin (.take i.pipe (min readSize rest.length - 1)) =
            some conn := by
          simp only [RelayConn.step, hpc, ne_eq, hrest, not_false_eq_true, and_self, if_true]
          exact ⟨_, rfl⟩
        obtain ⟨conn, hconn⟩ := htake
        exact ⟨.transfer i, ⟨conn, output⟩, by simp [Relayed.step, hpc, hrest, hconn, houtput]⟩
      · apply exists_pump fin hreading
        intro e he
        -- a pump that has ended would have nothing left to read
        rcases hs.ended i with ⟨-, hne⟩ | ⟨-, hnil⟩
        · exact hne e he
        · rw [hnil] at hpending
          exact hrest (List.append_eq_nil_iff.mp hpending.symm).1
  | returned =>
    obtain ⟨i, hi⟩ : ∃ i, ∀ e, (s.output.pump i).pc ≠ .returned e := by
      by_contra hall
      push Not at hall
      exact hn ⟨hpc, hall⟩
    by_cases hreading : (s.output.pump i).pc = .reading
    · have hclosed : s.conn.Closed i.pipe := by
        have hphase := hs.phase
        simp only [Phase, hpc] at hphase
        exact hphase.2.1 i.pipe
      obtain ⟨err, herr⟩ := Option.isSome_iff_exists.mp hclosed
      have hnil := hs.rest_of_closed herr
      obtain ⟨output, houtput⟩ := read_isSome (e := closedEnd err) hreading (Nat.zero_le _)
        (Nat.zero_le _) (fun _ => by rw [hnil]; rfl)
      exact ⟨.finish i, { s with output := output }, by simp [Relayed.step, herr, houtput]⟩
    · exact exists_pump fin hreading hi

theorem Joined.forwarded (hs : Joined reads cap s) (hf : s.Finished) :
    Forwarded (relayedSource reads) cap s.output := by
  obtain ⟨hpc, hreturned⟩ := hf
  obtain ⟨log, hlog⟩ := hs.refines
  have hrest : ∀ i, (s.output.pump i).rest = [] := fun i =>
    hs.rest_of_left (by rw [hpc]; rfl)
  apply hlog.forwarded _ _ _ (.inl hrest)
  all_goals
    intro i
    obtain ⟨fin, hfin⟩ := hreturned i
    rw [hfin]
    rfl

/-- Whatever the agent sends, in whatever pieces and however the connection ends, the reader and
the two pumps take a bounded number of steps and always one of them can take the next. In the end
the sinks have got the output of the frames before the first EXIT frame up to the cap, and the exit
channel has one result. -/
theorem relayed_output {outputKb : Int64} {K : ℕ} {as : List RelayedAct}
    (hK : outputKb.toInt = K) (hcap : K * 1024 < 9223372036854775808)
    (hfit : ∑ i, (relayedSource reads i).length ≤ K * 1024 + 9223372036854775808)
    (hr : run (Relayed.step fin) (.start reads outputKb) as = some s) :
    as.length ≤ 10 * reads.flatten.length + 22 ∧
      (¬ s.Finished → ∃ a s', s.step fin a = some s') ∧
      (s.Finished → Forwarded (relayedSource reads) (K * 1024) s.output ∧
        ∃ e, s.conn.exitCh = [e] ∧ e.Fits (framesOf reads)) := by
  have hjoined : Joined reads (K * 1024) s :=
    Reachable.invariant (fun _ _ _ => joined_step hfit) (.start hK hcap) ⟨as, hr⟩
  refine ⟨?_, exists_relayed_step fin hjoined, fun hf => ⟨hjoined.forwarded hf, ?_⟩⟩
  · have hbound := length_le_of_measure (fun _ _ _ => joined_step hfit)
      (fun _ _ _ => step_left) (.start hK hcap) hr
    have hconn : (Relayed.start reads outputKb).conn.left = 2 * reads.flatten.length + 4 := rfl
    have hpumps : ∑ i, ((Relayed.start reads outputKb).output.pump i).pc.left = 2 := rfl
    simp only [Relayed.left] at hbound
    omega
  · have hphase := hjoined.phase
    simp only [Phase, hf.1] at hphase
    obtain ⟨e, hch, hsays⟩ := hphase.2.2.2
    exact ⟨e, hch, hsays.fits⟩

/-- Two bytes of output, a malformed artifact, and a connection that breaks off in a header. -/
def brokenOff : List RelayedAct :=
  [.reader, .transfer .stdout, .pump .stdout, .reader, .pump .stdout, .reader, .reader, .reader,
    .finish .stdout, .reader, .reader, .finish .stderr]

theorem relayed_output_cutStream :
    ∃ s, run (Relayed.step .eof) (.start Relay.cutStream 1) brokenOff = some s ∧ s.Finished ∧
      Forwarded (relayedSource Relay.cutStream) 1024 s.output ∧
      ∃ e, s.conn.exitCh = [e] ∧ e.Fits (framesOf Relay.cutStream) := by
  obtain ⟨s, hr, hf⟩ : ∃ s, run (Relayed.step .eof) (.start Relay.cutStream 1) brokenOff = some s ∧
      s.Finished := ⟨_, rfl, rfl, fun i => by cases i <;> exact ⟨_, rfl⟩⟩
  exact ⟨s, hr, hf, (relayed_output (K := 1) rfl (by decide) (by decide) hr).2.2 hf⟩

end CodeRunner.Session
