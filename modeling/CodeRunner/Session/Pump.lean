import CodeRunner.Lib.Quota
import CodeRunner.Lib.Transition
import CodeRunner.Wire

/-! # The output pumps

The pumps of stdout and stderr draw from one byte budget. Every operation on what they share is
a step of its own: the subtraction, each store to the flag, and each call of a sink.
-/

namespace CodeRunner.Session

open Transition Quota

inductive Stream | stdout | stderr
  deriving DecidableEq, Repr

instance : Fintype Stream := ⟨{.stdout, .stderr}, by intro i; cases i <;> decide⟩

/-- The error of a `Read`: none, `io.EOF`, or another. -/
inductive ReadEnd | more | eof | failed
  deriving DecidableEq, Repr

def readSize : ℕ := 32 * 1024

/-- Inside `Pump.Run`: before the read, before the subtraction of a chunk, before each of the two
stores to the flag, and before the call of the sink with the first `forward` bytes. -/
inductive PumpPc where
  | reading
  | drawing (chunk : List UInt8) (fin : ReadEnd)
  | crossing (chunk : List UInt8) (forward : ℕ) (fin : ReadEnd)
  | sinking (chunk : List UInt8) (forward : ℕ) (fin : ReadEnd)
  | marking (fin : ReadEnd)
  | returned (fin : ReadEnd)
  deriving DecidableEq, Repr

def ReadEnd.next (fin : ReadEnd) : PumpPc := if fin = .more then .reading else .returned fin

def PumpPc.within (remaining : Int64) (chunk : List UInt8) (fin : ReadEnd) : PumpPc :=
  if 0 < remaining then
    if remaining < Int64.ofNat chunk.length then .crossing chunk remaining.toNatClampNeg fin
    else .sinking chunk chunk.length fin
  else .marking fin

structure Pump where
  pc : PumpPc
  rest : List UInt8
  sunk : List UInt8
  deriving DecidableEq, Repr

/-- The two pumps and what they share. -/
structure Output where
  budget : Int64
  truncated : Bool
  pump : Stream → Pump

inductive OutputAct where
  | read (i : Stream) (n : ℕ) (fin : ReadEnd)
  | go (i : Stream)
  deriving DecidableEq, Repr

namespace Output

def start (outputKb : Int64) (src : Stream → List UInt8) : Output where
  budget := outputKb * 1024
  truncated := false
  pump := fun i => ⟨.reading, src i, []⟩

def set (o : Output) (i : Stream) (p : Pump) : Output :=
  { o with pump := Function.update o.pump i p }

/-- A `Read` of `n` bytes. -/
def read (o : Output) (i : Stream) (n : ℕ) (fin : ReadEnd) : Option Output :=
  let p := o.pump i
  if p.pc = .reading ∧ n ≤ readSize ∧ n ≤ p.rest.length ∧ (fin = .eof → n = p.rest.length) then
    some (o.set i
      { p with
        pc := if n = 0 then fin.next else .drawing (p.rest.take n) fin
        rest := p.rest.drop n })
  else none

def go (o : Output) (i : Stream) : Option Output :=
  let p := o.pump i
  match p.pc with
  | .drawing chunk fin =>
    let n := Int64.ofNat chunk.length
    let budget := o.budget - n
    -- the old value before the decrement
    let remaining := budget + n
    some ({ o with budget := budget }.set i { p with pc := .within remaining chunk fin })
  | .crossing chunk forward fin =>
    some ({ o with truncated := true }.set i { p with pc := .sinking chunk forward fin })
  | .sinking chunk forward fin =>
    some (o.set i
      { p with
        pc := if forward < chunk.length then .marking fin else fin.next
        sunk := p.sunk ++ chunk.take forward })
  | .marking fin => some ({ o with truncated := true }.set i { p with pc := fin.next })
  | _ => none

def step (o : Output) : OutputAct → Option Output
  | .read i n fin => o.read i n fin
  | .go i => o.go i

end Output

/-- What the sinks get of two streams under a cap. -/
structure Forwarded (src : Stream → List UInt8) (cap : ℕ) (o : Output) : Prop where
  amount : ∑ i, (o.pump i).sunk.length = min (∑ i, (src i).length) cap
  ordered : ∀ i, (o.pump i).sunk <+: src i
  truncated : o.truncated = true ↔ cap < ∑ i, (src i).length

/-- The same, of two streams that have been pumped to their end. -/
structure Exact (src : Stream → List UInt8) (cap : ℕ) (o : Output) : Prop
    extends Forwarded src cap o where
  consumed : ∀ i, (o.pump i).rest = []

variable {src : Stream → List UInt8} {cap : ℕ} {log : Log Stream UInt8} {o o' : Output}
  {i j : Stream} {p : Pump} {act : OutputAct}

@[simp] theorem set_budget : (o.set i p).budget = o.budget := rfl

@[simp] theorem set_truncated : (o.set i p).truncated = o.truncated := rfl

@[simp] theorem set_pump_self : (o.set i p).pump i = p := Function.update_self _ _ _

theorem set_pump_of_ne (h : j ≠ i) : (o.set i p).pump j = o.pump j :=
  Function.update_of_ne h _ _

theorem forall_set {P : Stream → Pump → Prop} (hi : P i p) (ho : ∀ j, P j (o.pump j)) :
    ∀ j, P j ((o.set i p).pump j) := by
  intro j
  by_cases h : j = i
  · subst h
    rw [set_pump_self]
    exact hi
  · rw [set_pump_of_ne h]
    exact ho j

inductive Output.Branch (o : Output) : OutputAct → Output → Prop
  | read {i : Stream} {n : ℕ} {fin : ReadEnd} (hpc : (o.pump i).pc = .reading)
      (hn : n ≤ readSize) (hle : n ≤ (o.pump i).rest.length)
      (heof : fin = .eof → n = (o.pump i).rest.length) :
      Branch o (.read i n fin)
        (o.set i
          { o.pump i with
            pc := if n = 0 then fin.next else .drawing ((o.pump i).rest.take n) fin
            rest := (o.pump i).rest.drop n })
  | draw {i : Stream} {chunk : List UInt8} {fin : ReadEnd}
      (hpc : (o.pump i).pc = .drawing chunk fin) :
      Branch o (.go i)
        ({ o with budget := o.budget - Int64.ofNat chunk.length }.set i
          { o.pump i with
            pc := .within (o.budget - Int64.ofNat chunk.length + Int64.ofNat chunk.length)
              chunk fin })
  | cross {i : Stream} {chunk : List UInt8} {forward : ℕ} {fin : ReadEnd}
      (hpc : (o.pump i).pc = .crossing chunk forward fin) :
      Branch o (.go i)
        ({ o with truncated := true }.set i { o.pump i with pc := .sinking chunk forward fin })
  | sink {i : Stream} {chunk : List UInt8} {forward : ℕ} {fin : ReadEnd}
      (hpc : (o.pump i).pc = .sinking chunk forward fin) :
      Branch o (.go i)
        (o.set i
          { o.pump i with
            pc := if forward < chunk.length then .marking fin else fin.next
            sunk := (o.pump i).sunk ++ chunk.take forward })
  | mark {i : Stream} {fin : ReadEnd} (hpc : (o.pump i).pc = .marking fin) :
      Branch o (.go i) ({ o with truncated := true }.set i { o.pump i with pc := fin.next })

theorem output_branch (h : o.step act = some o') : o.Branch act o' := by
  cases act with
  | read i n fin =>
    obtain ⟨⟨hpc, hn, hle, heof⟩, ⟨⟩⟩ := Option.ite_none_right_eq_some.mp h
    exact .read hpc hn hle heof
  | go i =>
    simp only [Output.step, Output.go] at h
    split at h
    · next hpc =>
      obtain rfl := Option.some.inj h
      exact .draw hpc
    · next hpc =>
      obtain rfl := Option.some.inj h
      exact .cross hpc
    · next hpc =>
      obtain rfl := Option.some.inj h
      exact .sink hpc
    · next hpc =>
      obtain rfl := Option.some.inj h
      exact .mark hpc
    · cases h

/-- What has been read and not been drawn. -/
def PumpPc.held : PumpPc → List UInt8
  | .drawing chunk _ => chunk
  | _ => []

def PumpPc.granted : PumpPc → List UInt8
  | .crossing chunk forward _ | .sinking chunk forward _ => chunk.take forward
  | _ => []

/-- The pump has been granted less than it has drawn, and has not marked it yet. -/
def PumpPc.exceeds : PumpPc → Bool
  | .crossing _ _ _ | .marking _ => true
  | .sinking chunk forward _ => decide (forward < chunk.length)
  | _ => false

def PumpPc.fin : PumpPc → ReadEnd
  | .reading => .more
  | .drawing _ fin | .crossing _ _ fin | .sinking _ _ fin | .marking fin | .returned fin => fin

@[simp] theorem next_held (fin : ReadEnd) : fin.next.held = [] := by cases fin <;> rfl

@[simp] theorem next_granted (fin : ReadEnd) : fin.next.granted = [] := by cases fin <;> rfl

@[simp] theorem next_exceeds (fin : ReadEnd) : fin.next.exceeds = false := by cases fin <;> rfl

@[simp] theorem next_fin (fin : ReadEnd) : fin.next.fin = fin := by cases fin <;> rfl

theorem next_ne_drawing {chunk : List UInt8} {fin fin' : ReadEnd} :
    fin'.next ≠ .drawing chunk fin := by
  cases fin' <;> nofun

/-- The pump of the stream `i` serves it from the quota. -/
structure Serves (src : Stream → List UInt8) (cap : ℕ) (log : Log Stream UInt8) (i : Stream)
    (p : Pump) : Prop where
  source : drawn i log ++ p.pc.held ++ p.rest = src i
  granted : p.sunk ++ p.pc.granted = served i cap log
  drawing : ∀ chunk fin, p.pc = .drawing chunk fin → 0 < chunk.length ∧ chunk.length ≤ readSize
  finished : p.pc.fin = .eof → p.rest = []

structure Refines (src : Stream → List UInt8) (cap : ℕ) (log : Log Stream UInt8) (o : Output) :
    Prop where
  serves : ∀ i, Serves src cap log i (o.pump i)
  budget : o.budget.toInt = (cap : ℤ) - (total log : ℤ)
  exceeded : cap < total log ↔ o.truncated = true ∨ ∃ i, (o.pump i).pc.exceeds = true

theorem exists_exceeds_set (h : p.pc.exceeds = (o.pump i).pc.exceeds) :
    (∃ j, ((o.set i p).pump j).pc.exceeds = true) ↔ ∃ j, (o.pump j).pc.exceeds = true := by
  have hsame : ∀ j, ((o.set i p).pump j).pc.exceeds = (o.pump j).pc.exceeds := by
    intro j
    by_cases hj : j = i
    · subst hj
      rw [set_pump_self, h]
    · rw [set_pump_of_ne hj]
  simp only [hsame]

theorem Serves.draw (hs : Serves src cap log j p) (hj : j ≠ i) {chunk : List UInt8} :
    Serves src cap (log ++ [(i, chunk)]) j p := by
  constructor
  · rw [drawn_append, drawn_single, if_neg (Ne.symm hj), List.append_nil]
    exact hs.source
  · rw [served_append, if_neg (Ne.symm hj), List.append_nil]
    exact hs.granted
  · exact hs.drawing
  · exact hs.finished

/-- As long as an `int64` holds it, the counter goes down by the chunk, and adding the chunk again
gives the old value. -/
theorem draw_toInt {budget : Int64} {n : ℕ} {old : ℤ} (hb : budget.toInt = old)
    (hn : n ≤ readSize) (hfit : -9223372036854775808 ≤ old - n) :
    (budget - Int64.ofNat n).toInt = old - n ∧
      (budget - Int64.ofNat n + Int64.ofNat n).toInt = old ∧ (Int64.ofNat n).toInt = n := by
  have hlt : budget.toInt < 9223372036854775808 := budget.toInt_lt
  have hsize : readSize = 32768 := rfl
  have hofNat : (Int64.ofNat n).toInt = n := Int64.toInt_ofNat_of_lt (by omega)
  have hsub : (budget - Int64.ofNat n).toInt = old - n := by
    rw [Int64.toInt_sub, hofNat, hb]
    exact Int.bmod_eq_of_le (by omega) (by omega)
  refine ⟨hsub, ?_, hofNat⟩
  rw [Int64.toInt_add, hsub, hofNat]
  rw [Int.sub_add_cancel]
  exact Int.bmod_eq_of_le (by omega) (by omega)

theorem Refines.start {outputKb : Int64} {K : ℕ} (hK : outputKb.toInt = K)
    (hcap : K * 1024 < 9223372036854775808) :
    Refines src (K * 1024) [] (Output.start outputKb src) := by
  constructor
  · intro i
    exact ⟨rfl, rfl, nofun, nofun⟩
  · change (outputKb * 1024).toInt = _
    rw [Int64.toInt_mul, hK, total_nil]
    have h1024 : (1024 : Int64).toInt = 1024 := rfl
    rw [h1024, Int.bmod_eq_of_le (by omega) (by omega)]
    omega
  · constructor
    · intro h
      cases h
    · rintro (h | ⟨i, h⟩) <;> cases h

theorem Refines.read {n : ℕ} {fin : ReadEnd} (hr : Refines src cap log o)
    (hpc : (o.pump i).pc = .reading) (hn : n ≤ readSize) (hle : n ≤ (o.pump i).rest.length)
    (heof : fin = .eof → n = (o.pump i).rest.length) :
    Refines src cap log
      (o.set i
        { o.pump i with
          pc := if n = 0 then fin.next else .drawing ((o.pump i).rest.take n) fin
          rest := (o.pump i).rest.drop n }) := by
  have hs := hr.serves i
  have hpieces : (o.pump i).rest.take n ++ (o.pump i).rest.drop n = (o.pump i).rest :=
    List.take_append_drop n _
  obtain ⟨hsource, hgranted, -, -⟩ := hs
  rw [hpc] at hsource hgranted
  constructor
  · refine forall_set ⟨?_, ?_, ?_, ?_⟩ hr.serves
    · rw [← hsource]
      split
      · next hzero =>
        rw [hzero, next_held]
        rfl
      · change _ ++ (o.pump i).rest.take n ++ (o.pump i).rest.drop n = _ ++ [] ++ _
        rw [List.append_assoc, hpieces, List.append_nil]
    · rw [← hgranted]
      split
      · rw [next_granted]
        rfl
      · rfl
    · intro chunk fin' hpc'
      dsimp only at hpc'
      split at hpc'
      · exact absurd hpc' next_ne_drawing
      · next hne =>
        obtain ⟨rfl, -⟩ := PumpPc.drawing.inj hpc'
        rw [List.length_take]
        omega
    · intro hfin
      have hend : fin = .eof := by
        dsimp only at hfin
        split at hfin
        · rwa [next_fin] at hfin
        · exact hfin
      rw [List.drop_eq_nil_iff, heof hend]
  · exact hr.budget
  · rw [hr.exceeded, exists_exceeds_set]
    · rfl
    · rw [hpc]
      dsimp only
      split
      · exact next_exceeds fin
      · rfl

theorem Refines.total_le (hr : Refines src cap log o) :
    total log + (o.pump i).pc.held.length ≤ ∑ j, (src j).length := by
  have hle : ∀ j, (drawn j log).length + (o.pump j).pc.held.length ≤ (src j).length := by
    intro j
    rw [← (hr.serves j).source, List.length_append, List.length_append]
    exact Nat.le_add_right _ _
  exact total_add_le hle i

structure Grants (left : ℕ) (chunk : List UInt8) (fin : ReadEnd) (pc : PumpPc) : Prop where
  held : pc.held = []
  granted : pc.granted = chunk.take left
  exceeds : pc.exceeds = true ↔ left < chunk.length
  fin : pc.fin = fin
  drawing : ∀ chunk' fin', pc ≠ .drawing chunk' fin'

theorem grants_within {remaining : Int64} {drawn : ℕ} {chunk : List UInt8} (fin : ReadEnd)
    (hr : remaining.toInt = (cap : ℤ) - (drawn : ℤ)) (hpos : 0 < chunk.length)
    (hn : (Int64.ofNat chunk.length).toInt = chunk.length) :
    Grants (cap - drawn) chunk fin (.within remaining chunk fin) := by
  have hopen : 0 < remaining ↔ drawn < cap := by
    rw [Int64.lt_iff_toInt_lt, Int64.toInt_zero, hr]
    omega
  have hshort : remaining < Int64.ofNat chunk.length ↔ (cap : ℤ) - drawn < chunk.length := by
    rw [Int64.lt_iff_toInt_lt, hn, hr]
  unfold PumpPc.within
  split
  · next hlt =>
    have hlt := hopen.mp hlt
    split
    · next hcross =>
      have hcross := hshort.mp hcross
      have hleft : remaining.toNatClampNeg = cap - drawn := by
        change remaining.toInt.toNat = _
        omega
      rw [hleft]
      exact ⟨rfl, rfl, ⟨fun _ => by omega, fun _ => rfl⟩, rfl, nofun⟩
    · next hwhole =>
      have hle : chunk.length ≤ cap - drawn := by
        rw [hshort] at hwhole
        omega
      have htake : chunk.take chunk.length = chunk.take (cap - drawn) := by
        rw [List.take_of_length_le (Nat.le_refl _), List.take_of_length_le hle]
      refine ⟨rfl, htake, ?_, rfl, nofun⟩
      change decide (chunk.length < chunk.length) = true ↔ _
      rw [decide_eq_true_eq]
      omega
  · next hspent =>
    have hleft : cap - drawn = 0 := by
      rw [hopen] at hspent
      omega
    rw [hleft]
    exact ⟨rfl, rfl, ⟨fun _ => hpos, fun _ => rfl⟩, rfl, nofun⟩

theorem Refines.draw {chunk : List UInt8} {fin : ReadEnd} (hr : Refines src cap log o)
    (hpc : (o.pump i).pc = .drawing chunk fin)
    (hfit : ∑ j, (src j).length ≤ cap + 9223372036854775808) :
    Refines src cap (log ++ [(i, chunk)])
      ({ o with budget := o.budget - Int64.ofNat chunk.length }.set i
        { o.pump i with
          pc := .within (o.budget - Int64.ofNat chunk.length + Int64.ofNat chunk.length)
            chunk fin }) := by
  have hle := hr.total_le (i := i)
  obtain ⟨hsource, hgranted, hdrawing, hfinished⟩ := hr.serves i
  rw [hpc] at hsource hgranted hfinished hle
  change total log + chunk.length ≤ _ at hle
  obtain ⟨hpos, hsize⟩ := hdrawing chunk fin hpc
  obtain ⟨hbudget, hold, hn⟩ := draw_toInt hr.budget hsize (by omega)
  have hg := grants_within fin hold hpos hn
  constructor
  · intro j
    by_cases hj : j = i
    · subst hj
      rw [set_pump_self]
      constructor
      · rw [drawn_append, drawn_single, if_pos rfl, hg.held, List.append_nil]
        exact hsource
      · change _ ++ [] = _ at hgranted
        rw [served_append, if_pos rfl, hg.granted, ← hgranted, List.append_nil]
      · exact fun chunk' fin' hpc' => absurd hpc' (hg.drawing chunk' fin')
      · exact fun hfin => hfinished (hg.fin ▸ hfin)
    · rw [set_pump_of_ne hj]
      exact (hr.serves j).draw hj
  · rw [total_append, total_cons, total_nil]
    change (o.budget - Int64.ofNat chunk.length).toInt = _
    rw [hbudget]
    dsimp only
    omega
  · rw [total_append, total_cons, total_nil]
    have hexceeded := hr.exceeded
    have hexceeds := hg.exceeds
    constructor
    · intro hlt
      refine .inr ⟨i, ?_⟩
      rw [set_pump_self, hexceeds]
      dsimp only at hlt
      omega
    · rintro (ht | ⟨j, hj⟩)
      · have hlt := hexceeded.mpr (.inl ht)
        omega
      · by_cases hji : j = i
        · subst hji
          rw [set_pump_self, hexceeds] at hj
          dsimp only
          omega
        · rw [set_pump_of_ne hji] at hj
          have hlt := hexceeded.mpr (.inr ⟨j, hj⟩)
          omega

theorem after_sink (forward n : ℕ) (fin : ReadEnd) {pc : PumpPc}
    (h : pc = if forward < n then .marking fin else fin.next) :
    pc.held = [] ∧ pc.granted = [] ∧ pc.exceeds = decide (forward < n) ∧ pc.fin = fin ∧
      ∀ chunk fin', pc ≠ .drawing chunk fin' := by
  subst h
  split
  · next hlt =>
    rw [decide_eq_true hlt]
    exact ⟨rfl, rfl, rfl, rfl, nofun⟩
  · next hge =>
    rw [decide_eq_false hge]
    exact ⟨next_held fin, next_granted fin, next_exceeds fin, next_fin fin,
      fun _ _ => next_ne_drawing⟩

theorem Refines.cross {chunk : List UInt8} {forward : ℕ} {fin : ReadEnd}
    (hr : Refines src cap log o) (hpc : (o.pump i).pc = .crossing chunk forward fin) :
    Refines src cap log
      ({ o with truncated := true }.set i
        { o.pump i with pc := .sinking chunk forward fin }) := by
  obtain ⟨hsource, hgranted, hdrawing, hfinished⟩ := hr.serves i
  rw [hpc] at hsource hgranted hfinished
  constructor
  · exact forall_set ⟨hsource, hgranted, nofun, hfinished⟩ hr.serves
  · exact hr.budget
  · exact ⟨fun _ => .inl rfl, fun _ => hr.exceeded.mpr (.inr ⟨i, by rw [hpc]; rfl⟩)⟩

theorem Refines.sink {chunk : List UInt8} {forward : ℕ} {fin : ReadEnd}
    (hr : Refines src cap log o) (hpc : (o.pump i).pc = .sinking chunk forward fin) :
    Refines src cap log
      (o.set i
        { o.pump i with
          pc := if forward < chunk.length then .marking fin else fin.next
          sunk := (o.pump i).sunk ++ chunk.take forward }) := by
  obtain ⟨hsource, hgranted, hdrawing, hfinished⟩ := hr.serves i
  rw [hpc] at hsource hgranted hfinished
  obtain ⟨hheld, hgr, hex, hfin, hdr⟩ := after_sink forward chunk.length fin rfl
  constructor
  · refine forall_set ⟨?_, ?_, ?_, ?_⟩ hr.serves
    · rw [hheld]
      exact hsource
    · rw [hgr, List.append_nil]
      exact hgranted
    · exact fun _ _ hpc' => absurd hpc' (hdr _ _)
    · rw [hfin]
      exact hfinished
  · exact hr.budget
  · rw [hr.exceeded, exists_exceeds_set]
    · rfl
    · rw [hpc, hex]
      rfl

theorem Refines.mark {fin : ReadEnd} (hr : Refines src cap log o)
    (hpc : (o.pump i).pc = .marking fin) :
    Refines src cap log
      ({ o with truncated := true }.set i { o.pump i with pc := fin.next }) := by
  obtain ⟨hsource, hgranted, hdrawing, hfinished⟩ := hr.serves i
  rw [hpc] at hsource hgranted hfinished
  constructor
  · refine forall_set ⟨?_, ?_, ?_, ?_⟩ hr.serves
    · rw [next_held]
      exact hsource
    · rw [next_granted]
      exact hgranted
    · exact fun _ _ hpc' => absurd hpc' next_ne_drawing
    · rw [next_fin]
      exact hfinished
  · exact hr.budget
  · exact ⟨fun _ => .inl rfl, fun _ => hr.exceeded.mpr (.inr ⟨i, by rw [hpc]; rfl⟩)⟩

theorem step_refines (hfit : ∑ j, (src j).length ≤ cap + 9223372036854775808)
    (hr : Refines src cap log o) (h : o.step act = some o') : ∃ log', Refines src cap log' o' := by
  cases output_branch h with
  | read hpc hn hle heof => exact ⟨log, hr.read hpc hn hle heof⟩
  | draw hpc => exact ⟨_, hr.draw hpc hfit⟩
  | cross hpc => exact ⟨log, hr.cross hpc⟩
  | sink hpc => exact ⟨log, hr.sink hpc⟩
  | mark hpc => exact ⟨log, hr.mark hpc⟩

theorem run_refines {outputKb : Int64} {K : ℕ} {acts : List OutputAct}
    (hK : outputKb.toInt = K) (hcap : K * 1024 < 9223372036854775808)
    (hfit : ∑ j, (src j).length ≤ K * 1024 + 9223372036854775808)
    (hr : run Output.step (.start outputKb src) acts = some o) :
    ∃ log, Refines src (K * 1024) log o := by
  apply Reachable.invariant (I := fun o => ∃ log, Refines src (K * 1024) log o) _ _ ⟨acts, hr⟩
  · rintro o act o' ⟨log, hr⟩ h
    exact step_refines hfit hr h
  · exact ⟨[], .start hK hcap⟩

/-- When all that has been read has been drawn, handed on and marked, and what has not been read
is beyond the cap, the sinks have got what they should. -/
theorem Refines.forwarded (hr : Refines src cap log o) (hheld : ∀ i, (o.pump i).pc.held = [])
    (hgranted : ∀ i, (o.pump i).pc.granted = []) (hmarked : ∀ i, (o.pump i).pc.exceeds = false)
    (hrest : (∀ i, (o.pump i).rest = []) ∨ o.truncated = true) : Forwarded src cap o := by
  have hdrawn : ∀ i, drawn i log ++ (o.pump i).rest = src i := by
    intro i
    rw [← (hr.serves i).source, hheld, List.append_nil]
  have hsunk : ∀ i, (o.pump i).sunk = served i cap log := by
    intro i
    rw [← (hr.serves i).granted, hgranted, List.append_nil]
  have hexceeded : cap < total log ↔ o.truncated = true := by
    rw [hr.exceeded]
    constructor
    · rintro (ht | ⟨i, hi⟩)
      · exact ht
      · rw [hmarked] at hi
        cases hi
    · exact fun ht => .inl ht
  have htotal : total log ≤ ∑ i, (src i).length ∧
      (total log < ∑ i, (src i).length → cap < total log) := by
    constructor
    · exact Nat.le_trans (Nat.le_add_right _ _) (hr.total_le (i := .stdout))
    · rintro hlt
      rcases hrest with hrest | ht
      · have heq : ∑ i, (src i).length = total log := by
          rw [← sum_drawn]
          exact Finset.sum_congr rfl fun i _ => by rw [← hdrawn, hrest, List.append_nil]
        omega
      · exact hexceeded.mpr ht
  constructor
  · have hsum : ∑ i, (o.pump i).sunk.length = min (total log) cap := by
      rw [← sum_served]
      exact Finset.sum_congr rfl fun i _ => by rw [hsunk]
    omega
  · intro i
    rw [hsunk, ← hdrawn]
    exact served_prefix.trans (List.prefix_append _ _)
  · rw [← hexceeded]
    omega

/-- The step that comes next is enabled; a pump that reads takes whatever its reader hands out. -/
def Output.Goes (o : Output) (i : Stream) : Prop :=
  (o.step (.go i)).isSome = true ∨
    ∀ n fin, n ≤ readSize → n ≤ (o.pump i).rest.length →
      (fin = .eof → n = (o.pump i).rest.length) → (o.step (.read i n fin)).isSome = true

theorem pump_goes (h : ∀ fin, (o.pump i).pc ≠ .returned fin) : o.Goes i := by
  cases hpc : (o.pump i).pc with
  | reading =>
    right
    intro n fin hn hle heof
    simp only [Output.step, Output.read]
    rw [if_pos ⟨hpc, hn, hle, heof⟩]
    rfl
  | returned fin => exact absurd hpc (h fin)
  | drawing | crossing | sinking | marking =>
    left
    simp only [Output.step, Output.go, hpc]
    rfl

/-- As long as an `int64` holds the cap in bytes and the counter, the two pumps share the budget
exactly, and neither stops before the end of its reader. -/
theorem exact_of_fits {outputKb : Int64} {K : ℕ} {acts : List OutputAct}
    (hK : outputKb.toInt = K) (hcap : K * 1024 < 9223372036854775808)
    (hfit : ∑ j, (src j).length ≤ K * 1024 + 9223372036854775808)
    (hr : run Output.step (.start outputKb src) acts = some o) :
    ((∀ i, (o.pump i).pc = .returned .eof) → Exact src (K * 1024) o) ∧
      ∀ i, (∀ fin, (o.pump i).pc ≠ .returned fin) → o.Goes i := by
  refine ⟨fun heof => ?_, fun i => pump_goes⟩
  obtain ⟨log, href⟩ := run_refines hK hcap hfit hr
  have hrest : ∀ i, (o.pump i).rest = [] := by
    intro i
    apply (href.serves i).finished
    rw [heof i]
    rfl
  refine { toForwarded := href.forwarded ?_ ?_ ?_ (.inl hrest), consumed := hrest }
  · intro i
    rw [heof i]
    rfl
  · intro i
    rw [heof i]
    rfl
  · intro i
    rw [heof i]
    rfl

/-- A byte on stdout, and nothing on stderr. -/
def oneByte : Stream → List UInt8
  | .stdout => [120]
  | .stderr => []

def pumpOneByte : List OutputAct :=
  [.read .stdout 1 .eof, .read .stderr 0 .eof, .go .stdout, .go .stdout]

/-- With 2^53 KiB the product with 1024 is a negative `int64`. -/
theorem not_always_exact :
    ¬ ∀ (outputKb : Int64) (K : ℕ) (src : Stream → List UInt8) (o : Output)
      (acts : List OutputAct), outputKb.toInt = K →
        run Output.step (.start outputKb src) acts = some o →
        (∀ i, (o.pump i).pc = .returned .eof) → Exact src (K * 1024) o := by
  intro hall
  obtain ⟨o, hr, heof, htr⟩ :
      ∃ o, run Output.step (.start 9007199254740992 oneByte) pumpOneByte = some o ∧
        (∀ i, (o.pump i).pc = .returned .eof) ∧ o.truncated = true :=
    ⟨_, rfl, by decide, rfl⟩
  have hlt := (hall _ 9007199254740992 oneByte o _ rfl hr heof).truncated.mp htr
  exact absurd hlt (by decide)

def overCap : Stream → List UInt8
  | .stdout => List.replicate 1000 120
  | .stderr => List.replicate 100 121

/-- Both pumps have read when stdout draws, and stderr crosses the cap. -/
def pumpOverCap : List OutputAct :=
  [.read .stderr 100 .more, .read .stdout 1000 .eof, .go .stdout, .go .stderr, .go .stderr,
    .go .stdout, .go .stderr, .go .stderr, .read .stderr 0 .eof]

theorem overCap_exact :
    ∃ o, run Output.step (.start 1 overCap) pumpOverCap = some o ∧ Exact overCap 1024 o ∧
      o.truncated = true := by
  have hrun : ((run Output.step (.start 1 overCap) pumpOverCap).map fun o =>
      decide (∀ i, (o.pump i).pc = .returned .eof)) = some true := by
    decide +kernel
  obtain ⟨o, hr, heof⟩ := Option.map_eq_some_iff.mp hrun
  have hexact : Exact overCap (1 * 1024) o :=
    (exact_of_fits rfl (by decide) (by decide +kernel) hr).1 (of_decide_eq_true heof)
  exact ⟨o, hr, hexact, hexact.truncated.mpr (by decide +kernel)⟩

end CodeRunner.Session
