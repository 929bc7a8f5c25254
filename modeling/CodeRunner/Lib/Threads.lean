import Mathlib.Data.Set.Basic
import Mathlib.Logic.Function.Basic
import CodeRunner.Lib.Transition

/-! # Threads issuing atomic commands on a shared store

Each thread is a sequential program: its local state names the next command, and the reply
gives its next local state. Schedules interleave the commands of any number of threads
with steps of the environment, and a command may fail, with an error reply and no effect.
-/

namespace Threads

open Transition

/-- Commands `C` on a store `S` with replies `R`, issued by programs with local states `L`. -/
structure Program (S C R L E : Type*) where
  exec : S → C → S × R
  fault : R
  next : L → Option C
  resume : L → R → L
  env : S → E → Option S

structure Config (ι S L : Type*) where
  shared : S
  threads : ι → L

inductive Act (ι E : Type*) where
  | cmd (i : ι)
  | fault (i : ι)
  | env (e : E)
  deriving DecidableEq

variable {ι S C R L E : Type*}

def Program.executes (P : Program S C R L E) (c : Config ι S L) : Act ι E → Option C
  | .cmd i => P.next (c.threads i)
  | _ => none

theorem Program.executes_eq_some {P : Program S C R L E} {c : Config ι S L} {a : Act ι E}
    {cmd : C} :
    P.executes c a = some cmd ↔ ∃ i, a = .cmd i ∧ P.next (c.threads i) = some cmd := by
  cases a <;> simp [Program.executes]

variable [DecidableEq ι] (P : Program S C R L E)

def Program.step (c : Config ι S L) : Act ι E → Option (Config ι S L)
  | .cmd i => (P.next (c.threads i)).map fun cmd =>
      ⟨(P.exec c.shared cmd).1,
        Function.update c.threads i (P.resume (c.threads i) (P.exec c.shared cmd).2)⟩
  | .fault i => (P.next (c.threads i)).map fun _ =>
      ⟨c.shared, Function.update c.threads i (P.resume (c.threads i) P.fault)⟩
  | .env e => (P.env c.shared e).map fun s => ⟨s, c.threads⟩

variable {P} {c c' : Config ι S L} {i : ι} {e : E} {cmd : C}

theorem Program.step_cmd_eq_some :
    P.step c (.cmd i : Act ι E) = some c' ↔ ∃ cmd, P.next (c.threads i) = some cmd ∧
      c' = ⟨(P.exec c.shared cmd).1,
        Function.update c.threads i (P.resume (c.threads i) (P.exec c.shared cmd).2)⟩ := by
  simp only [Program.step, Option.map_eq_some_iff, @eq_comm _ c']

theorem Program.step_fault_eq_some :
    P.step c (.fault i : Act ι E) = some c' ↔ ∃ cmd, P.next (c.threads i) = some cmd ∧
      c' = ⟨c.shared, Function.update c.threads i (P.resume (c.threads i) P.fault)⟩ := by
  simp only [Program.step, Option.map_eq_some_iff, @eq_comm _ c']

theorem Program.step_env_eq_some :
    P.step c (.env e : Act ι E) = some c' ↔ ∃ s, P.env c.shared e = some s ∧
      c' = ⟨s, c.threads⟩ := by
  simp only [Program.step, Option.map_eq_some_iff, @eq_comm _ c']

/-- What a step does to the shared store: one command, nothing, or one environment step. -/
theorem Program.step_shared {a : Act ι E} (h : P.step c a = some c') :
    (∃ cmd, P.executes c a = some cmd ∧ c'.shared = (P.exec c.shared cmd).1) ∨
    (P.executes c a = none ∧ c'.shared = c.shared) ∨
    (P.executes c a = none ∧ ∃ e, P.env c.shared e = some c'.shared) := by
  cases a with
  | cmd i =>
    obtain ⟨cmd, hc, rfl⟩ := Program.step_cmd_eq_some.mp h
    exact .inl ⟨cmd, hc, rfl⟩
  | fault i =>
    obtain ⟨cmd, hc, rfl⟩ := Program.step_fault_eq_some.mp h
    exact .inr (.inl ⟨rfl, rfl⟩)
  | env e =>
    obtain ⟨s, hs, rfl⟩ := Program.step_env_eq_some.mp h
    exact .inr (.inr ⟨rfl, e, hs⟩)

variable (J : S → Prop) (K : S → L → Prop) (G : Config ι S L → Act ι E → Prop)

/-- `J` of the shared store, and `K` of the store and each thread's local state. -/
def Inv (c : Config ι S L) : Prop := J c.shared ∧ ∀ i, K c.shared (c.threads i)

variable {J K G}

/-- Invariance rule: each thread's own commands keep the store invariant and its own
assertion, and interfere with no other thread's assertion. -/
theorem Inv.step
    (own : ∀ (c : Config ι S L) i cmd, Inv J K c → G c (.cmd i) → P.next (c.threads i) = some cmd →
      J (P.exec c.shared cmd).1 ∧
        K (P.exec c.shared cmd).1 (P.resume (c.threads i) (P.exec c.shared cmd).2))
    (other : ∀ (c : Config ι S L) i j cmd, Inv J K c → G c (.cmd i) →
      P.next (c.threads i) = some cmd → j ≠ i → K (P.exec c.shared cmd).1 (c.threads j))
    (faulted : ∀ (c : Config ι S L) i cmd, Inv J K c → P.next (c.threads i) = some cmd →
      K c.shared (P.resume (c.threads i) P.fault))
    (outside : ∀ s e s', J s → P.env s e = some s' → J s' ∧ ∀ l, K s l → K s' l)
    {a : Act ι E} (hI : Inv J K c) (hG : G c a) (h : P.step c a = some c') :
    Inv J K c' := by
  cases a with
  | cmd i =>
    obtain ⟨cmd, hc, rfl⟩ := Program.step_cmd_eq_some.mp h
    refine ⟨(own c i cmd hI hG hc).1, fun j => ?_⟩
    by_cases hj : j = i
    · subst hj; simpa using (own c j cmd hI hG hc).2
    · simpa [Function.update_of_ne hj] using other c i j cmd hI hG hc hj
  | fault i =>
    obtain ⟨cmd, hc, rfl⟩ := Program.step_fault_eq_some.mp h
    refine ⟨hI.1, fun j => ?_⟩
    by_cases hj : j = i
    · subst hj; simpa using faulted c j cmd hI hc
    · simpa [Function.update_of_ne hj] using hI.2 j
  | env e =>
    obtain ⟨s, hs, rfl⟩ := Program.step_env_eq_some.mp h
    obtain ⟨hJ, hK⟩ := outside _ e s hI.1 hs
    exact ⟨hJ, fun j => hK _ (hI.2 j)⟩

end Threads
