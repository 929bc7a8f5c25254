import Mathlib.Data.List.Induction
import Mathlib.Data.List.Sort
import Mathlib.Tactic.TypeStar

/-! # Keyed buffers

A map that is filled entry by entry, and read in the order of its keys. Entries with increasing
keys come out in order, however they went in.
-/

namespace Buffer

variable {κ β : Type*} [DecidableEq κ]

def get (m : List (κ × β)) (k : κ) : Option β := m.lookup k

/-- The value of a key is replaced in its place; a new key comes last. -/
def set : List (κ × β) → κ → β → List (κ × β)
  | [], k, v => [(k, v)]
  | e :: m, k, v => if e.1 = k then (k, v) :: m else e :: set m k v

def keys (m : List (κ × β)) : List κ := m.map Prod.fst

def fill (es : List (κ × β)) : List (κ × β) := es.foldl (fun m e => set m e.1 e.2) []

variable {m es : List (κ × β)} {k k' : κ} {v v' : β} {e : κ × β}

theorem get_cons : get (e :: m) k = if e.1 = k then some e.2 else get m k := by
  rw [get, List.lookup_cons]
  by_cases h : e.1 = k
  · rw [if_pos h, beq_iff_eq.mpr h.symm]
  · rw [if_neg h, beq_eq_false_iff_ne.mpr (Ne.symm h)]
    rfl

theorem get_set : get (set m k v) k' = if k = k' then some v else get m k' := by
  induction m with
  | nil => exact get_cons
  | cons e m ih =>
    rw [set]
    by_cases he : e.1 = k
    · rw [if_pos he, get_cons, get_cons, he]
      by_cases hk : k = k'
      · rw [if_pos hk, if_pos hk]
      · rw [if_neg hk, if_neg hk, if_neg hk]
    · rw [if_neg he, get_cons, get_cons, ih]
      by_cases hk : k = k'
      · subst hk
        rw [if_neg he, if_pos rfl, if_pos rfl]
      · rw [if_neg hk, if_neg hk]

theorem mem_keys_set : k' ∈ keys (set m k v) ↔ k' = k ∨ k' ∈ keys m := by
  induction m with
  | nil => exact List.mem_cons
  | cons e m ih =>
    rw [set]
    by_cases he : e.1 = k
    · rw [if_pos he, keys, keys, List.map_cons, List.map_cons, List.mem_cons, List.mem_cons, he]
      exact or_self_left.symm
    · rw [if_neg he, keys, keys, List.map_cons, List.map_cons, List.mem_cons, List.mem_cons,
        ← keys, ih, ← keys]
      exact or_left_comm

theorem nodup_keys_set (h : (keys m).Nodup) : (keys (set m k v)).Nodup := by
  induction m with
  | nil => exact List.nodup_singleton k
  | cons e m ih =>
    obtain ⟨hnot, hm⟩ := List.nodup_cons.mp h
    rw [set]
    by_cases he : e.1 = k
    · rw [if_pos he]
      exact List.nodup_cons.mpr ⟨he ▸ hnot, hm⟩
    · rw [if_neg he]
      apply List.nodup_cons.mpr
      refine ⟨fun hmem => ?_, ih hm⟩
      rcases mem_keys_set.mp hmem with hk | hmem
      · exact he hk
      · exact hnot hmem

theorem fill_append : fill (es ++ [e]) = set (fill es) e.1 e.2 := by
  rw [fill, List.foldl_append, ← fill]
  rfl

theorem nodup_keys_fill : (keys (fill es)).Nodup := by
  induction es using List.reverseRecOn with
  | nil => exact List.nodup_nil
  | append_singleton es e ih =>
    rw [fill_append]
    exact nodup_keys_set ih

theorem mem_keys_fill : k ∈ keys (fill es) ↔ ∃ v, (k, v) ∈ es := by
  induction es using List.reverseRecOn with
  | nil => exact ⟨nofun, nofun⟩
  | append_singleton es e ih =>
    rw [fill_append, mem_keys_set, ih]
    constructor
    · rintro (rfl | ⟨v, hv⟩)
      · exact ⟨e.2, List.mem_append_right _ List.mem_cons_self⟩
      · exact ⟨v, List.mem_append_left _ hv⟩
    · rintro ⟨v, hv⟩
      rcases List.mem_append.mp hv with hv | hv
      · exact .inr ⟨v, hv⟩
      · obtain rfl := List.mem_singleton.mp hv
        exact .inl rfl

theorem get_fill (hfun : ∀ e ∈ es, ∀ e' ∈ es, e.1 = e'.1 → e = e') (he : e ∈ es) :
    get (fill es) e.1 = some e.2 := by
  induction es using List.reverseRecOn with
  | nil => cases he
  | append_singleton es e' ih =>
    rw [fill_append, get_set]
    by_cases hk : e'.1 = e.1
    · rw [if_pos hk, hfun e' (List.mem_append_right _ List.mem_cons_self) e he hk]
    · rw [if_neg hk]
      rcases List.mem_append.mp he with he | he
      · apply ih _ he
        intro e₁ h₁ e₂ h₂
        exact hfun e₁ (List.mem_append_left _ h₁) e₂ (List.mem_append_left _ h₂)
      · obtain rfl := List.mem_singleton.mp he
        exact absurd rfl hk

variable {ω : Type*} [LinearOrder ω] {ds ss : List (ω × β)}

theorem fst_inj (hs : (ss.map Prod.fst).Pairwise (· < ·)) :
    ∀ e ∈ ss, ∀ e' ∈ ss, e.1 = e'.1 → e = e' := by
  have hnodup : (ss.map Prod.fst).Nodup := hs.imp ne_of_lt
  exact fun e he e' he' h => List.inj_on_of_nodup_map hnodup he he' h

theorem sort_keys_fill (hs : (ss.map Prod.fst).Pairwise (· < ·))
    (hmem : ∀ e, e ∈ ds ↔ e ∈ ss) :
    (keys (fill ds)).insertionSort (· ≤ ·) = ss.map Prod.fst := by
  have hperm : (keys (fill ds)).Perm (ss.map Prod.fst) := by
    apply (List.perm_ext_iff_of_nodup nodup_keys_fill (hs.imp ne_of_lt)).mpr
    intro k
    rw [mem_keys_fill, List.mem_map]
    constructor
    · rintro ⟨v, hv⟩
      exact ⟨(k, v), (hmem _).mp hv, rfl⟩
    · rintro ⟨e, he, rfl⟩
      exact ⟨e.2, (hmem _).mpr he⟩
  apply List.Perm.eq_of_pairwise' (r := (· ≤ ·))
  · exact List.pairwise_insertionSort _ _
  · exact hs.imp le_of_lt
  · exact (List.perm_insertionSort _ _).trans hperm

/-- What is sent with increasing keys is read back in order from a buffer of what was delivered,
in whatever order and however often. -/
theorem flatMap_fill {γ : Type*} (f : Option β → List γ)
    (hs : (ss.map Prod.fst).Pairwise (· < ·)) (hmem : ∀ e, e ∈ ds ↔ e ∈ ss) :
    ((keys (fill ds)).insertionSort (· ≤ ·)).flatMap (fun k => f (get (fill ds) k)) =
      ss.flatMap fun e => f (some e.2) := by
  have hfun : ∀ e ∈ ds, ∀ e' ∈ ds, e.1 = e'.1 → e = e' := by
    intro e he e' he'
    exact fst_inj hs e ((hmem e).mp he) e' ((hmem e').mp he')
  rw [sort_keys_fill hs hmem, List.flatMap_map]
  apply List.flatMap_congr
  intro e he
  rw [get_fill hfun ((hmem e).mpr he)]

end Buffer
