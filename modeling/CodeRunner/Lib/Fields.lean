import Mathlib.Data.List.Basic
import Mathlib.Data.Nat.Notation

/-! # Fields and lines of a text

The fields of a line are its longest runs without separators, and the lines of a text what stands
in front of its newlines. What is put together of fields or lines is taken apart into the same.
-/

namespace Fields

variable {α : Type*} {sep : α → Bool} {w : List α} {ws : List (List α)} {c : α} {rest : List α}

/-- `str.split()`. -/
def fields (sep : α → Bool) (xs : List α) : List (List α) :=
  (xs.splitOnP sep).filter fun w => !w.isEmpty

def IsField (sep : α → Bool) (w : List α) : Prop := w ≠ [] ∧ ∀ c ∈ w, sep c = false

instance [DecidableEq α] (w : List α) : Decidable (IsField sep w) :=
  inferInstanceAs (Decidable (_ ∧ _))

theorem fields_append (h : IsField sep w) (hc : sep c = true) :
    fields sep (w ++ c :: rest) = w :: fields sep rest := by
  rw [fields, List.splitOnP_append_cons _ _ hc, List.splitOnP_eq_singleton h.2,
    List.singleton_append, List.filter_cons_of_pos (by simpa using h.1), fields]

theorem fields_self (h : IsField sep w) : fields sep w = [w] := by
  rw [fields, List.splitOnP_eq_singleton h.2, List.filter_cons_of_pos (by simpa using h.1),
    List.filter_nil]

theorem fields_intercalate_append {d : α} (h : ∀ w ∈ ws, IsField sep w) (hc : sep c = true)
    (hd : sep d = true) : fields sep ([c].intercalate ws ++ [d]) = ws := by
  induction ws with
  | nil =>
    have hsplit : [d].splitOnP sep = [[], []] := List.splitOnP_append_cons [] [] hd
    change fields sep [d] = []
    rw [fields, hsplit]
    rfl
  | cons w ws ih =>
    have hw : IsField sep w := h w List.mem_cons_self
    cases ws with
    | nil =>
      rw [List.intercalate_singleton, fields_append hw hd]
      rfl
    | cons w' ws =>
      rw [List.intercalate_cons_of_ne_nil (List.cons_ne_nil w' ws), List.append_assoc,
        List.append_assoc, List.singleton_append, fields_append hw hc,
        ih fun w hmem => h w (List.mem_cons_of_mem _ hmem)]

theorem mem_intercalate {d : α} (h : d ∈ [c].intercalate ws) : d = c ∨ ∃ w ∈ ws, d ∈ w := by
  induction ws with
  | nil => cases h
  | cons w ws ih =>
    by_cases hne : ws = []
    · subst hne
      rw [List.intercalate_singleton] at h
      exact .inr ⟨w, List.mem_cons_self, h⟩
    · rw [List.intercalate_cons_of_ne_nil hne, List.mem_append, List.mem_append,
        List.mem_singleton] at h
      rcases h with (h | h) | h
      · exact .inr ⟨w, List.mem_cons_self, h⟩
      · exact .inl h
      · rcases ih h with h | ⟨w', hw', h⟩
        · exact .inl h
        · exact .inr ⟨w', List.mem_cons_of_mem w hw', h⟩

theorem fields_flatMap_append (h : ∀ w ∈ ws, IsField sep w) (hc : sep c = true) :
    fields sep ((ws.flatMap fun w => w ++ [c]) ++ rest) = ws ++ fields sep rest := by
  induction ws with
  | nil => rfl
  | cons w ws ih =>
    rw [List.flatMap_cons, List.append_assoc, List.append_assoc, List.singleton_append,
      fields_append (h w List.mem_cons_self) hc,
      ih fun w hmem => h w (List.mem_cons_of_mem _ hmem), List.cons_append]

variable [DecidableEq α] {nl : α} {ls : List (List α)}

/-- The lines of a text, without their newlines; the last one may lack it. -/
def lines (nl : α) (xs : List α) : List (List α) :=
  let ls := xs.splitOn nl
  if ls.getLast? = some [] then ls.dropLast else ls

theorem lines_append_cons (h : nl ∉ w) : lines nl (w ++ nl :: rest) = w :: lines nl rest := by
  have hsplit : (w ++ nl :: rest).splitOn nl = w :: rest.splitOn nl := by
    rw [List.splitOn_append_cons_self, List.splitOn_eq_singleton h, List.singleton_append]
  have hne : rest.splitOn nl ≠ [] := List.splitOn_ne_nil nl rest
  have hlast : (w :: rest.splitOn nl).getLast? = (rest.splitOn nl).getLast? := by
    rw [← List.singleton_append, List.getLast?_append_of_ne_nil _ hne]
  simp only [lines, hsplit, hlast]
  split
  · rw [List.dropLast_cons_of_ne_nil hne]
  · rfl

theorem lines_flatMap (h : ∀ l ∈ ls, nl ∉ l) : lines nl (ls.flatMap fun l => l ++ [nl]) = ls := by
  induction ls with
  | nil => rfl
  | cons l ls ih =>
    rw [List.flatMap_cons, List.append_assoc, List.singleton_append,
      lines_append_cons (h l List.mem_cons_self),
      ih fun l hmem => h l (List.mem_cons_of_mem _ hmem)]

end Fields
