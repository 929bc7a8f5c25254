import Mathlib.Data.List.Basic
import Mathlib.Tactic.TypeStar

/-! # Tables of file descriptors

The table of a process has an entry for each descriptor, which is free or refers to an open file. A
new descriptor is the lowest free one, and a fork copies the table.
-/

/-- The open files of a process by descriptor; the descriptors beyond the list are free. -/
structure Descriptors (F : Type*) where
  files : List (Option F)
  deriving DecidableEq, Repr

namespace Descriptors

variable {F : Type*}

def get (t : Descriptors F) (fd : ℕ) : Option F := t.files[fd]?.join

def set (t : Descriptors F) (fd : ℕ) (f : Option F) : Descriptors F :=
  ⟨(t.files ++ List.replicate (fd + 1 - t.files.length) none).set fd f⟩

def lowest (t : Descriptors F) : ℕ := t.files.findIdx Option.isNone

def alloc (t : Descriptors F) (f : F) : Descriptors F := t.set t.lowest (some f)

def close (t : Descriptors F) (fd : ℕ) : Descriptors F := t.set fd none

/-- `dup2`, which fails on a descriptor that is not open. -/
def dup2 (t : Descriptors F) (old new : ℕ) : Option (Descriptors F) :=
  (t.get old).map fun f => t.set new (some f)

def fds (t : Descriptors F) : List ℕ :=
  (List.range t.files.length).filter fun fd => (t.get fd).isSome

/-- The descriptors of a list are closed one after the other, but for those to be kept. -/
def closeAll (t : Descriptors F) (keep : ℕ → Bool) (fds : List ℕ) : Descriptors F :=
  fds.foldl (fun t fd => if keep fd then t else t.close fd) t

variable {t t' : Descriptors F} {fd fd' old new : ℕ} {f : F} {o : Option F} {keep : ℕ → Bool}

theorem get_of_length_le (h : t.files.length ≤ fd) : t.get fd = none := by
  rw [get, List.getElem?_eq_none h]
  rfl

theorem lt_length_of_get (h : t.get fd = some f) : fd < t.files.length := by
  by_contra hle
  rw [get_of_length_le (Nat.le_of_not_lt hle)] at h
  cases h

@[simp] theorem get_set_self : (t.set fd o).get fd = o := by
  have hlt : fd < (t.files ++ List.replicate (fd + 1 - t.files.length) none).length := by
    rw [List.length_append, List.length_replicate]
    omega
  rw [get, set, List.getElem?_set_self hlt]
  rfl

theorem get_set_of_ne (h : fd' ≠ fd) : (t.set fd o).get fd' = t.get fd' := by
  rw [get, set, List.getElem?_set_ne h.symm, get]
  by_cases hlt : fd' < t.files.length
  · rw [List.getElem?_append_left hlt]
  · rw [List.getElem?_append_right (Nat.le_of_not_lt hlt), List.getElem?_replicate,
      List.getElem?_eq_none (Nat.le_of_not_lt hlt)]
    split <;> rfl

theorem get_set (t : Descriptors F) (fd fd' : ℕ) (o : Option F) :
    (t.set fd o).get fd' = if fd' = fd then o else t.get fd' := by
  split
  · next h => rw [h, get_set_self]
  · next h => exact get_set_of_ne h

@[simp] theorem get_lowest : t.get t.lowest = none := by
  by_cases hlt : t.lowest < t.files.length
  · have hnone : (t.files[t.lowest]).isNone = true := List.findIdx_getElem (w := hlt)
    rw [get, List.getElem?_eq_getElem hlt]
    exact Option.isNone_iff_eq_none.mp hnone
  · exact get_of_length_le (Nat.le_of_not_lt hlt)

theorem get_alloc_of_some (h : t.get fd = some f) (g : F) : (t.alloc g).get fd = some f := by
  have hne : fd ≠ t.lowest := by
    rintro rfl
    rw [get_lowest] at h
    cases h
  rw [alloc, get_set_of_ne hne, h]

@[simp] theorem get_alloc_lowest : (t.alloc f).get t.lowest = some f := get_set_self

@[simp] theorem get_close_self : (t.close fd).get fd = none := get_set_self

theorem get_close_of_ne (h : fd' ≠ fd) : (t.close fd).get fd' = t.get fd' := get_set_of_ne h

theorem get_close_of_some {g : F} (h : t.get fd' = some f) (hfd : t.get fd = some g)
    (hne : f ≠ g) : (t.close fd).get fd' = some f := by
  rw [get_close_of_ne, h]
  rintro rfl
  exact hne (Option.some.inj (h.symm.trans hfd))

theorem length_set : (t.set fd o).files.length = max t.files.length (fd + 1) := by
  rw [set, List.length_set, List.length_append, List.length_replicate]
  omega

theorem dup2_eq_some : t.dup2 old new = some t' ↔
    ∃ f, t.get old = some f ∧ t' = t.set new (some f) := by
  rw [dup2, Option.map_eq_some_iff]
  simp only [@eq_comm _ t']

theorem mem_fds : fd ∈ t.fds ↔ ∃ f, t.get fd = some f := by
  rw [fds, List.mem_filter, List.mem_range, Option.isSome_iff_exists]
  exact ⟨fun h => h.2, fun ⟨f, h⟩ => ⟨lt_length_of_get h, f, h⟩⟩

theorem get_closeAll (l : List ℕ) :
    (t.closeAll keep l).get fd = if keep fd = false ∧ fd ∈ l then none else t.get fd := by
  induction l generalizing t with
  | nil => simp [closeAll]
  | cons fd' l ih =>
    have hstep : t.closeAll keep (fd' :: l) =
        (if keep fd' then t else t.close fd').closeAll keep l := rfl
    rw [hstep, ih]
    by_cases hfd : fd = fd'
    · subst hfd
      cases hkeep : keep fd <;> simp
    · have hget : (if keep fd' then t else t.close fd').get fd = t.get fd := by
        split
        · rfl
        · exact get_close_of_ne hfd
      simp only [hget, List.mem_cons, hfd, false_or]

end Descriptors
