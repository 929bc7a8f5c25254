import CodeRunner.Publisher.Split
import Mathlib.Data.List.GetD

/-! # Characters and cuts

The splitter backs up to a rune boundary before it cuts a chunk, and halves a piece that is too
large wherever its middle is. Of a chunk of whole characters only the second can cut a character.
-/

namespace CodeRunner.Publisher

open Utf8

variable {b chunk : List UInt8} {n k : ℕ}

def CleanHalves (chunk : List UInt8) : Prop :=
  ∀ b ∈ rounds chunk, crowded b = true → Valid (b.take (half b))

instance : Decidable (CleanHalves chunk) := inferInstanceAs (Decidable (∀ b ∈ _, _ → _))

/-- The loop stops at the start, or before a byte that does not continue a character. -/
theorem backUp_boundary (b : List UInt8) (n : ℕ) : backUp b n = 0 ∨ b.length ≤ backUp b n ∨
    isContinuation (b.getD (backUp b n) 0) = false := by
  induction n with
  | zero => exact .inl rfl
  | succ n ih =>
    rw [backUp]
    split
    · exact ih
    · next h =>
      by_cases hlt : n + 1 < b.length
      · exact .inr (.inr (Bool.eq_false_iff.mpr fun hc => h ⟨hlt, hc⟩))
      · exact .inr (.inl (Nat.le_of_not_lt hlt))

theorem le_backUp (hk : k ≤ n) (hb : isContinuation (b.getD k 0) = false) : k ≤ backUp b n := by
  induction n with
  | zero => exact hk
  | succ n ih =>
    rw [backUp]
    split
    · next h =>
      apply ih
      apply Nat.le_of_not_lt
      intro hlt
      obtain rfl : k = n + 1 := by omega
      rw [hb] at h
      exact Bool.false_ne_true h.2
    · exact hk

/-- Before the byte at `k` a valid byte string can be cut, unless that continues a character. -/
theorem valid_take (h : Valid b) (hk : k = 0 ∨ b.length ≤ k ∨
    isContinuation (b.getD k 0) = false) : Valid (b.take k) := by
  by_cases hlt : k < b.length
  · rcases hk with rfl | hge | hc
    · exact valid_nil
    · omega
    · rw [List.getD_eq_getElem _ _ hlt] at hc
      have hsplit : b = b.take k ++ b[k] :: b.drop (k + 1) := by
        rw [List.getElem_cons_drop, List.take_append_drop]
      rw [hsplit] at h
      exact h.cut hc
  · rw [List.take_of_length_le (by omega)]
    exact h

theorem valid_window (h : Valid b) : Valid (b.take (window b)) := by
  have hmax := maxChunkBytes_eq
  unfold window
  dsimp only
  split
  · next hzero =>
    -- a character has at most three bytes to back up over, so this is the end of the chunk
    have hend : b.length ≤ min maxChunkBytes b.length := by
      apply Nat.le_of_not_lt
      intro hlt
      obtain ⟨k, hpos, hle, hk, hc⟩ := h.exists_lead (by omega)
      have hback : k ≤ backUp b (min maxChunkBytes b.length) := by
        apply le_backUp (by omega)
        rw [List.getD_eq_getElem _ _ hk]
        exact hc
      omega
    exact valid_take h (.inr (.inl hend))
  · exact valid_take h (backUp_boundary _ _)

theorem valid_cut_iff (h : Valid b) :
    Valid (b.take (cut b)) ↔ (crowded b = true → Valid (b.take (half b))) := by
  unfold cut
  cases crowded b with
  | true => exact ⟨fun hv _ => hv, fun hv => hv rfl⟩
  | false => exact ⟨fun _ => nofun, fun _ => valid_window h⟩

theorem valid_drop_iff (hv : Valid (b.take k)) : Valid (b.drop k) ↔ Valid b := by
  have happ : Valid (b.take k ++ b.drop k) ↔ Valid (b.drop k) := hv.append_iff
  rw [List.take_append_drop] at happ
  exact happ.symm

theorem valid_rounds_iff (h : Valid b) :
    (∀ r ∈ roundsFuel n b, Valid (r.take (cut r))) ↔
      ∀ r ∈ roundsFuel n b, crowded r = true → Valid (r.take (half r)) := by
  induction n generalizing b with
  | zero =>
    cases b with
    | nil => exact ⟨nofun, nofun⟩
    | cons => exact ⟨nofun, nofun⟩
  | succ n ih =>
    cases b with
    | nil => exact ⟨nofun, nofun⟩
    | cons x xs =>
      rw [roundsFuel, List.forall_mem_cons, List.forall_mem_cons, valid_cut_iff h]
      apply and_congr_right
      intro hhead
      apply ih
      exact (valid_drop_iff ((valid_cut_iff h).mpr hhead)).mpr h

/-- The pieces of a chunk consist of whole characters exactly if the chunk does, and is halved
between characters. -/
theorem valid_splitChunk_iff :
    (∀ piece ∈ splitChunk chunk, Valid piece) ↔ Valid chunk ∧ CleanHalves chunk := by
  have hflat := flatten_splitChunk chunk
  rcases splitChunk_cases chunk with ⟨hs, hpieces⟩ | ⟨hs, hpieces⟩
  · rw [hpieces, List.forall_mem_singleton, CleanHalves, rounds_of_single hs]
    exact ⟨fun h => ⟨h, nofun⟩, fun h => h.1⟩
  · have hrounds := rounds_of_not_single hs
    constructor
    · intro h
      have hvalid : Valid chunk := hflat ▸ Valid.flatten h
      refine ⟨hvalid, ?_⟩
      rw [hpieces, List.forall_mem_map] at h
      rw [CleanHalves, hrounds]
      rw [hrounds] at h
      exact (valid_rounds_iff hvalid).mp h
    · rintro ⟨hvalid, hclean⟩
      rw [CleanHalves, hrounds] at hclean
      rw [hpieces, List.forall_mem_map, hrounds]
      exact (valid_rounds_iff hvalid).mpr hclean

end CodeRunner.Publisher
