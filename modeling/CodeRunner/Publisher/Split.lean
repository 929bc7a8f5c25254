import CodeRunner.Publisher.Event
import Mathlib.Data.Nat.Digits.Defs

/-! # Splitting a chunk into events

The publisher splits a chunk into pieces and gives each the next number of its job. An event must
not be longer than the cap.
-/

namespace CodeRunner.Publisher

open Utf8

def maxEventBytes : ℕ := 8 * 1024

def seqOverhead : ℕ := 7

def baseOverhead : ℕ := 18 + seqOverhead + 1 + 2

def escapeBudget : ℕ := maxEventBytes / 10

def maxChunkBytes : ℕ :=
  let maxChunkBytes := maxEventBytes - baseOverhead - escapeBudget
  if maxChunkBytes = 0 then 64 else maxChunkBytes

/-- The largest rune boundary that is not beyond `n`, or 0. -/
def backUp (b : List UInt8) : ℕ → ℕ
  | 0 => 0
  | n + 1 =>
    if n + 1 < b.length ∧ isContinuation (b.getD (n + 1) 0) = true then backUp b n else n + 1

/-- The end of the next piece, before its size is verified. -/
def window (b : List UInt8) : ℕ :=
  let n := min maxChunkBytes b.length
  -- without a boundary the data is not UTF-8
  if backUp b n = 0 then n else backUp b n

def crowded (b : List UInt8) : Bool :=
  let piece := b.take (window b)
  decide (maxEventBytes < (OutputChunkEvent.marshal ⟨piece, 9999999⟩).length ∧ 1 < piece.length)

def half (b : List UInt8) : ℕ := if window b / 2 = 0 then 1 else window b / 2

/-- The end of the next piece; one that is too large is halved. -/
def cut (b : List UInt8) : ℕ := if crowded b then half b else window b

def splitLoop : ℕ → List UInt8 → List (List UInt8)
  | n + 1, b :: bs =>
    (b :: bs).take (cut (b :: bs)) :: splitLoop n ((b :: bs).drop (cut (b :: bs)))
  | _, _ => []

/-- The chunk is small enough for a single event, with the first seq. -/
def isSingle (chunk : List UInt8) : Bool :=
  decide (chunk.length ≤ maxChunkBytes ∧
    (OutputChunkEvent.marshal ⟨chunk, 1⟩).length ≤ maxEventBytes)

def splitChunk (chunk : List UInt8) : List (List UInt8) :=
  if chunk = [] then [chunk]
  else if isSingle chunk then [chunk]
  else splitLoop chunk.length chunk

/-- The events of a chunk, when `seq` is what `nextSeq` returns for the pieces in turn. -/
def triggerOutput (seq : ℕ → ℕ) (chunk : List UInt8) : List OutputChunkEvent :=
  (splitChunk chunk).mapIdx fun k piece => ⟨piece, seq k⟩

variable {b : List UInt8} {chunk piece : List UInt8} {n k : ℕ} {seq : ℕ → ℕ}

theorem maxChunkBytes_eq : maxChunkBytes = 7345 := by decide

theorem window_pos (h : b ≠ []) : 0 < window b := by
  have hlen : 0 < b.length := List.length_pos_iff.mpr h
  have hmax := maxChunkBytes_eq
  unfold window
  dsimp only
  split <;> omega

theorem half_le (h : b ≠ []) : 0 < half b ∧ half b ≤ window b := by
  have hpos := window_pos h
  unfold half
  split <;> omega

theorem cut_pos (h : b ≠ []) : 0 < cut b := by
  unfold cut
  split
  · exact (half_le h).1
  · exact window_pos h

/-- What is left of a chunk, at the head of each round of the loop. -/
def roundsFuel : ℕ → List UInt8 → List (List UInt8)
  | n + 1, b :: bs => (b :: bs) :: roundsFuel n ((b :: bs).drop (cut (b :: bs)))
  | _, _ => []

def rounds (chunk : List UInt8) : List (List UInt8) :=
  if isSingle chunk then [] else roundsFuel chunk.length chunk

theorem rounds_of_single (hs : isSingle chunk = true) : rounds chunk = [] := by
  rw [rounds, if_pos hs]

theorem rounds_of_not_single (hs : isSingle chunk = false) :
    rounds chunk = roundsFuel chunk.length chunk := by
  rw [rounds, hs, if_neg Bool.false_ne_true]

theorem splitLoop_eq (n : ℕ) (b : List UInt8) :
    splitLoop n b = (roundsFuel n b).map fun b => b.take (cut b) := by
  induction n generalizing b with
  | zero => cases b <;> rfl
  | succ n ih =>
    cases b with
    | nil => rfl
    | cons b bs => rw [splitLoop, roundsFuel, List.map_cons, ih]

theorem flatten_splitLoop (h : b.length ≤ n) : (splitLoop n b).flatten = b := by
  induction n generalizing b with
  | zero =>
    obtain rfl := List.length_eq_zero_iff.mp (Nat.le_zero.mp h)
    rfl
  | succ n ih =>
    cases b with
    | nil => rfl
    | cons b bs =>
      have hpos : 0 < cut (b :: bs) := cut_pos nofun
      rw [splitLoop, List.flatten_cons, ih, List.take_append_drop]
      rw [List.length_drop, List.length_cons]
      rw [List.length_cons] at h
      omega

theorem splitLoop_of_le {m : ℕ} (hn : b.length ≤ n) (hm : b.length ≤ m) :
    splitLoop n b = splitLoop m b := by
  induction n generalizing b m with
  | zero =>
    obtain rfl := List.length_eq_zero_iff.mp (Nat.le_zero.mp hn)
    cases m <;> rfl
  | succ n ih =>
    cases b with
    | nil => cases m <;> rfl
    | cons b bs =>
      cases m with
      | zero => cases hm
      | succ m =>
        have hpos : 0 < cut (b :: bs) := cut_pos nofun
        have hlen : ((b :: bs).drop (cut (b :: bs))).length ≤ bs.length := by
          rw [List.length_drop, List.length_cons]
          omega
        rw [List.length_cons] at hn hm
        have hrest := ih (m := m) (Nat.le_trans hlen (by omega)) (Nat.le_trans hlen (by omega))
        rw [splitLoop, splitLoop, hrest]

theorem flatten_splitChunk (chunk : List UInt8) : (splitChunk chunk).flatten = chunk := by
  unfold splitChunk
  split
  · exact List.append_nil _
  · split
    · exact List.append_nil _
    · exact flatten_splitLoop (Nat.le_refl _)

theorem isSingle_nil : isSingle [] = true := by decide

theorem splitChunk_cases (chunk : List UInt8) :
    (isSingle chunk = true ∧ splitChunk chunk = [chunk]) ∨
      isSingle chunk = false ∧ splitChunk chunk = (rounds chunk).map fun b => b.take (cut b) := by
  unfold splitChunk
  split
  · next h =>
    subst h
    exact .inl ⟨isSingle_nil, rfl⟩
  · cases hs : isSingle chunk with
    | true => exact .inl ⟨rfl, if_pos rfl⟩
    | false =>
      right
      rw [rounds_of_not_single hs, if_neg Bool.false_ne_true]
      exact ⟨rfl, splitLoop_eq _ _⟩

/-- The chunk leaves room for its number. -/
def Fits (piece : List UInt8) (seq : ℕ) : Prop :=
  (escape piece).length + seq.repr.length ≤ 8173

instance : Decidable (Fits piece n) := inferInstanceAs (Decidable (_ ≤ _))

theorem fits_iff : Fits piece n ↔
    (OutputChunkEvent.marshal ⟨piece, n⟩).length ≤ maxEventBytes := by
  have hmax : maxEventBytes = 8192 := rfl
  rw [length_marshal, Fits, hmax]
  dsimp only
  omega

theorem Fits.mono {m : ℕ} (h : Fits piece n) (hle : m.repr.length ≤ n.repr.length) :
    Fits piece m := by
  unfold Fits at h ⊢
  omega

theorem backUp_le (b : List UInt8) (n : ℕ) : backUp b n ≤ n := by
  induction n with
  | zero => exact Nat.le_refl _
  | succ n ih =>
    rw [backUp]
    split
    · exact Nat.le_succ_of_le ih
    · exact Nat.le_refl _

theorem window_le (b : List UInt8) : window b ≤ min maxChunkBytes b.length := by
  unfold window
  dsimp only
  split
  · exact Nat.le_refl _
  · exact backUp_le b _

theorem length_take_window (b : List UInt8) : (b.take (window b)).length = window b :=
  List.length_take_of_le ((window_le b).trans (Nat.min_le_right _ _))

theorem crowded_iff : crowded b = true ↔ 8166 < (escape (b.take (window b))).length := by
  have hmax : maxEventBytes = 8192 := rfl
  have hseven : (Nat.repr 9999999).length = 7 := by decide
  have hle := length_escape_le (b.take (window b))
  rw [crowded, decide_eq_true_eq, length_marshal, hmax]
  dsimp only
  rw [hseven]
  omega

def RoundsFit (seq : ℕ → ℕ) (n : ℕ) (b : List UInt8) : Prop :=
  ∀ k r, (roundsFuel n b)[k]? = some r → Fits (r.take (cut r)) (seq k)

theorem roundsFit_nil : RoundsFit seq n [] := by
  intro k r hk
  cases n <;> cases hk

theorem roundsFit_succ (hb : b ≠ []) :
    RoundsFit seq (n + 1) b ↔
      Fits (b.take (cut b)) (seq 0) ∧ RoundsFit (fun k => seq (k + 1)) n (b.drop (cut b)) := by
  cases b with
  | nil => exact absurd rfl hb
  | cons x xs =>
    constructor
    · exact fun h => ⟨h 0 _ rfl, fun k r hk => h (k + 1) r hk⟩
    · rintro ⟨hhead, hrest⟩ k r hk
      cases k with
      | zero => exact Option.some.inj hk ▸ hhead
      | succ k => exact hrest k r hk

theorem forall_events {P : OutputChunkEvent → Prop} :
    (∀ ev ∈ triggerOutput seq chunk, P ev) ↔
      ∀ k piece, (splitChunk chunk)[k]? = some piece → P ⟨piece, seq k⟩ := by
  constructor
  · intro h k piece hk
    apply h
    apply List.mem_of_getElem? (i := k)
    rw [triggerOutput, List.getElem?_mapIdx, hk]
    rfl
  · intro h ev hev
    obtain ⟨k, hk⟩ := List.mem_iff_getElem?.mp hev
    rw [triggerOutput, List.getElem?_mapIdx, Option.map_eq_some_iff] at hk
    obtain ⟨piece, hpiece, rfl⟩ := hk
    exact h k piece hpiece

theorem within_cap_single (hs : isSingle chunk = true) :
    (∀ ev ∈ triggerOutput seq chunk, ev.marshal.length ≤ maxEventBytes) ↔ Fits chunk (seq 0) := by
  have hpieces : splitChunk chunk = [chunk] := by
    rcases splitChunk_cases chunk with h | h
    · exact h.2
    · exact absurd (hs.symm.trans h.1) (by decide)
  rw [forall_events, hpieces]
  simp only [← fits_iff]
  constructor
  · exact fun h => h 0 chunk rfl
  · intro h k piece hk
    cases k with
    | zero => exact Option.some.inj hk ▸ h
    | succ k => cases hk

theorem within_cap_rounds (hs : isSingle chunk = false) :
    (∀ ev ∈ triggerOutput seq chunk, ev.marshal.length ≤ maxEventBytes) ↔
      RoundsFit seq chunk.length chunk := by
  have hpieces : splitChunk chunk =
      (roundsFuel chunk.length chunk).map fun r => r.take (cut r) := by
    rcases splitChunk_cases chunk with h | h
    · exact absurd (h.1.symm.trans hs) (by decide)
    · rw [h.2, rounds_of_not_single hs]
  rw [forall_events, hpieces]
  simp only [← fits_iff]
  constructor
  · intro h k r hr
    apply h k
    rw [List.getElem?_map, hr]
    rfl
  · intro h k piece hk
    rw [List.getElem?_map, Option.map_eq_some_iff] at hk
    obtain ⟨r, hr, rfl⟩ := hk
    exact h k r hr

/-- Every stretch of the size of a piece leaves room for a number of `n` digits, or, where it is
too large even for one of seven, its first half does. -/
def Sparse (n : ℕ) (chunk : List UInt8) : Prop :=
  ∀ w, w <:+: chunk → w.length ≤ maxChunkBytes →
    ((escape w).length ≤ 8166 → (escape w).length + n ≤ 8173) ∧
      (8166 < (escape w).length → (escape (w.take (w.length / 2))).length + n ≤ 8173)

theorem take_half (hc : crowded b = true) :
    b.take (half b) = (b.take (window b)).take (window b / 2) := by
  have hle := length_escape_le (b.take (window b))
  have hlong := crowded_iff.mp hc
  have hlen := length_take_window b
  rw [List.take_take, half, if_neg (by omega), Nat.min_eq_left (Nat.div_le_self _ _)]

theorem Sparse.fits_cut (h : Sparse n chunk) (hb : b <:+ chunk) {m : ℕ}
    (hm : m.repr.length ≤ n) : Fits (b.take (cut b)) m := by
  have hlen := length_take_window b
  have hinfix : b.take (window b) <:+: chunk :=
    (List.take_prefix _ _).isInfix.trans hb.isInfix
  have hmax : (b.take (window b)).length ≤ maxChunkBytes := by
    rw [hlen]
    exact (window_le b).trans (Nat.min_le_left _ _)
  obtain ⟨hwhole, hhalf⟩ := h _ hinfix hmax
  unfold Fits
  cases hc : crowded b with
  | true =>
    rw [hlen] at hhalf
    rw [cut, hc, if_pos rfl, take_half hc]
    have hfits := hhalf (crowded_iff.mp hc)
    omega
  | false =>
    have hle : (escape (b.take (window b))).length ≤ 8166 := by
      apply Nat.le_of_not_lt
      intro hlt
      exact Bool.false_ne_true (hc.symm.trans (crowded_iff.mpr hlt))
    have hfits := hwhole hle
    rw [cut, hc, if_neg Bool.false_ne_true]
    omega

theorem Sparse.roundsFit {m : ℕ} (h : Sparse n chunk) (hb : b <:+ chunk)
    (hseq : ∀ k < m, (seq k).repr.length ≤ n) : RoundsFit seq m b := by
  induction m generalizing b seq with
  | zero =>
    intro k r hk
    cases b <;> cases hk
  | succ m ih =>
    by_cases hnil : b = []
    · exact hnil ▸ roundsFit_nil
    · rw [roundsFit_succ hnil]
      refine ⟨h.fits_cut hb (hseq 0 (Nat.succ_pos m)), ?_⟩
      exact ih ((List.drop_suffix _ _).trans hb) fun k hk => hseq (k + 1) (Nat.succ_lt_succ hk)

def front (b : List UInt8) : List UInt8 := b.take (b.length / 2)

def back (b : List UInt8) : List UInt8 := b.drop (b.length / 2)

/-- The chunk leaves room for its number; or it is too large, and its first half does, and so do
its second half or, where that is too large in turn, the halves of that. -/
def Halves (seq : ℕ → ℕ) (chunk : List UInt8) : Prop :=
  if (escape chunk).length ≤ 8172 then Fits chunk (seq 0)
  else Fits (front chunk) (seq 0) ∧
    if (escape (back chunk)).length ≤ 8166 then Fits (back chunk) (seq 1)
    else Fits (front (back chunk)) (seq 1) ∧
      ((escape (back (back chunk))).length ≤ 8166 → Fits (back (back chunk)) (seq 2))

theorem window_of_le (h : b.length ≤ maxChunkBytes) : window b = b.length := by
  have hback : backUp b b.length = b.length := by
    cases hlen : b.length with
    | zero => rfl
    | succ m =>
      rw [backUp, if_neg]
      rintro ⟨hlt, -⟩
      omega
  rw [window, Nat.min_eq_right h, hback]
  exact ite_self _

theorem isSingle_iff (h : b.length ≤ maxChunkBytes) :
    isSingle b = true ↔ (escape b).length ≤ 8172 := by
  have hone : (Nat.repr 1).length = 1 := by decide
  have hmax : maxEventBytes = 8192 := rfl
  rw [isSingle, decide_eq_true_eq, length_marshal, hmax]
  dsimp only
  omega

theorem crowded_iff_of_le (h : b.length ≤ maxChunkBytes) :
    crowded b = true ↔ 8166 < (escape b).length := by
  rw [crowded_iff, window_of_le h, List.take_length]

theorem roundsFit_calm (h : b.length ≤ maxChunkBytes) (hb : b ≠ [])
    (hcalm : (escape b).length ≤ 8166) : RoundsFit seq (n + 1) b ↔ Fits b (seq 0) := by
  have hc : crowded b = false :=
    Bool.eq_false_iff.mpr fun hc => Nat.not_lt.mpr hcalm ((crowded_iff_of_le h).mp hc)
  have hcut : cut b = b.length := by
    rw [cut, hc, if_neg Bool.false_ne_true, window_of_le h]
  rw [roundsFit_succ hb, hcut, List.take_length, List.drop_length]
  exact and_iff_left roundsFit_nil

theorem roundsFit_crowded (h : b.length ≤ maxChunkBytes) (hc : 8166 < (escape b).length) :
    RoundsFit seq (n + 1) b ↔
      Fits (front b) (seq 0) ∧ RoundsFit (fun k => seq (k + 1)) n (back b) := by
  have hle := length_escape_le b
  have hne : b ≠ [] := by
    rintro rfl
    rw [List.length_nil] at hle
    omega
  have hcut : cut b = b.length / 2 := by
    rw [cut, (crowded_iff_of_le h).mpr hc, if_pos rfl, half, window_of_le h, if_neg (by omega)]
  rw [roundsFit_succ hne, hcut]
  rfl

theorem roundsFit_quarter (hlen : b.length ≤ 1837) (hc : 8166 < (escape b).length)
    (hseq : ∀ k < 2, (seq k).repr.length ≤ 19) : RoundsFit seq (n + 2) b := by
  have hmax := maxChunkBytes_eq
  have hle := length_escape_le b
  have hfront := length_escape_le (front b)
  have hback := length_escape_le (back b)
  have hfrontLen : (front b).length ≤ 918 := by
    rw [front, List.length_take]
    omega
  have hbackLen : (back b).length = b.length - b.length / 2 := List.length_drop
  have hne : back b ≠ [] := by
    rw [← List.length_pos_iff]
    omega
  have hzero := hseq 0 (by decide)
  have hone := hseq 1 (by decide)
  rw [roundsFit_crowded (by omega) hc, roundsFit_calm (by omega) hne (by omega)]
  unfold Fits
  rw [Nat.zero_add]
  omega

theorem halves_iff (hlen : chunk.length ≤ maxChunkBytes)
    (hseq : ∀ k ≤ chunk.length, (seq k).repr.length ≤ 19) :
    (∀ ev ∈ triggerOutput seq chunk, ev.marshal.length ≤ maxEventBytes) ↔ Halves seq chunk := by
  unfold Halves
  split
  · next hfits => exact within_cap_single ((isSingle_iff hlen).mpr hfits)
  · next hlarge =>
    have hmax := maxChunkBytes_eq
    have hle := length_escape_le chunk
    have hback : (back chunk).length = chunk.length - chunk.length / 2 := List.length_drop
    obtain ⟨m, hm⟩ : ∃ m, chunk.length = m + 4 := ⟨chunk.length - 4, by omega⟩
    have hs : isSingle chunk = false :=
      Bool.eq_false_iff.mpr fun hs => hlarge ((isSingle_iff hlen).mp hs)
    have hne : back chunk ≠ [] := by
      rw [← List.length_pos_iff]
      omega
    rw [within_cap_rounds hs, hm, roundsFit_crowded hlen (by omega)]
    apply and_congr_right'
    split
    · next hcalm => exact roundsFit_calm (by omega) hne hcalm
    · next hcrowded =>
      have hle' := length_escape_le (back chunk)
      have hback' : (back (back chunk)).length = (back chunk).length - (back chunk).length / 2 :=
        List.length_drop
      have hne' : back (back chunk) ≠ [] := by
        rw [← List.length_pos_iff]
        omega
      rw [roundsFit_crowded (by omega) (by omega)]
      apply and_congr_right'
      by_cases hcalm : (escape (back (back chunk))).length ≤ 8166
      · rw [roundsFit_calm (by omega) hne' hcalm, imp_iff_right hcalm]
      · refine iff_of_true (roundsFit_quarter (by omega) (by omega) fun k hk => ?_)
          fun hle => absurd hle hcalm
        exact hseq (k + 1 + 1) (by omega)

/-- A chunk that may be a single event leaves room by itself or by its halves, a longer one by
every stretch of it. -/
def Roomy (n : ℕ) (seq : ℕ → ℕ) (chunk : List UInt8) : Prop :=
  if chunk.length ≤ maxChunkBytes then Halves seq chunk else Sparse n chunk

/-- However densely it has to be escaped, a chunk of at most 1361 bytes is a single event within
the cap, with any number of at most seven digits. -/
theorem within_cap_of_short (hlen : chunk.length ≤ 1361) (hseq : (seq 0).repr.length ≤ 7) :
    ∀ ev ∈ triggerOutput seq chunk, ev.marshal.length ≤ maxEventBytes := by
  have hle := length_escape_le chunk
  have hmax := maxChunkBytes_eq
  refine (within_cap_single ((isSingle_iff (by omega)).mpr (by omega))).mpr ?_
  unfold Fits
  omega

theorem length_escape_control (n : ℕ) : (escape (List.replicate n 0x01)).length = 6 * n := by
  induction n with
  | zero => rfl
  | succ n ih =>
    have hrune : (escapeRune '\x01').length = 6 := by decide
    have hhead : List.replicate (n + 1) (0x01 : UInt8) =
        String.utf8EncodeChar '\x01' ++ List.replicate n 0x01 := rfl
    rw [hhead, escape, scan_rune, List.length_append, ← escape, ih, hrune]
    omega

/-- From 2726 bytes on a chunk of control bytes is halved, and the half still takes 8178 bytes. -/
theorem not_halves_control (hlong : 2726 ≤ n) :
    ¬ Halves seq (List.replicate n (0x01 : UInt8)) := by
  intro hhalves
  rw [Halves, if_neg (by rw [length_escape_control]; omega)] at hhalves
  obtain ⟨hfront, -⟩ := hhalves
  rw [Fits, front, List.take_replicate, length_escape_control, List.length_replicate] at hfront
  omega

theorem not_within_cap_control (hlong : 2726 ≤ n) (hn : n ≤ maxChunkBytes)
    (hseq : ∀ k ≤ n, (seq k).repr.length ≤ 19) :
    ¬ ∀ ev ∈ triggerOutput seq (List.replicate n 0x01), ev.marshal.length ≤ maxEventBytes := by
  have hlen : (List.replicate n (0x01 : UInt8)).length = n := List.length_replicate
  rw [halves_iff (hlen.symm ▸ hn) (hlen.symm ▸ hseq)]
  exact not_halves_control hlong

end CodeRunner.Publisher
