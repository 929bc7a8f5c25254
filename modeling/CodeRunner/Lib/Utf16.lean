import CodeRunner.Lib.Utf8
import Mathlib.Algebra.GroupWithZero.Nat
import Mathlib.Data.List.Basic
import Mathlib.Order.Basic

/-! # Strings of 16-bit units

A string of units is read from the left: a high surrogate and a low one after it are one
character, and a surrogate without its other half is none. As text each of these becomes U+FFFD.
-/

namespace Utf16

inductive Point where
  | char (c : Char)
  | lone (u : UInt16)
  deriving DecidableEq, Repr

def isHigh (u : UInt16) : Bool := 0xD800 ≤ u.toNat && u.toNat < 0xDC00

def isLow (u : UInt16) : Bool := 0xDC00 ≤ u.toNat && u.toNat < 0xE000

def unit (u : UInt16) : Point := if isHigh u || isLow u then .lone u else .char (.ofNat u.toNat)

def pair (hi lo : UInt16) : Char :=
  .ofNat (0x10000 + (hi.toNat - 0xD800) * 0x400 + (lo.toNat - 0xDC00))

def points : List UInt16 → List Point
  | hi :: lo :: us =>
    if isHigh hi && isLow lo then .char (pair hi lo) :: points us else unit hi :: points (lo :: us)
  | [u] => [unit u]
  | [] => []

def Point.decode : Point → Char
  | .char c => c
  | .lone _ => '\uFFFD'

def decode (us : List UInt16) : List Char := (points us).map Point.decode

/-- How many bytes the string has in UTF-8; a surrogate without its other half has three. -/
def byteLength (us : List UInt16) : ℕ :=
  ((points us).map fun | .char c => c.utf8Size | .lone _ => 3).sum

def ascii (cs : List Char) : List UInt16 := cs.map fun c => .ofNat c.toNat

variable {u hi lo : UInt16} {us vs : List UInt16} {c : Char} {cs : List Char}

@[simp] theorem decode_nil : decode [] = [] := rfl

theorem byteLength_eq (us : List UInt16) : byteLength us = (Utf8.encode (decode us)).length := by
  rw [Utf8.encode, List.length_flatMap, decode, List.map_map, byteLength]
  congr 1
  apply List.map_congr_left
  intro p _
  cases p with
  | char c => exact (String.length_utf8EncodeChar c).symm
  | lone u => rfl

theorem toNat_ofNat {n : ℕ} (h : n.isValidChar) : (Char.ofNat n).toNat = n := by
  rw [Char.ofNat, dif_pos h]
  rfl

theorem pair_toNat (hhi : isHigh hi) (hlo : isLow lo) :
    (pair hi lo).toNat = 0x10000 + (hi.toNat - 0xD800) * 0x400 + (lo.toNat - 0xDC00) := by
  simp only [isHigh, isLow, Bool.and_eq_true, decide_eq_true_eq] at hhi hlo
  rw [pair, toNat_ofNat]
  exact .inr ⟨by omega, by omega⟩

theorem unit_toNat (hhi : isHigh u = false) (hlo : isLow u = false) :
    unit u = .char (.ofNat u.toNat) ∧ (Char.ofNat u.toNat).toNat = u.toNat := by
  refine ⟨by rw [unit, hhi, hlo]; rfl, ?_⟩
  have hu := u.toNat_lt
  simp only [isHigh, isLow, Bool.and_eq_false_iff, decide_eq_false_iff_not] at hhi hlo
  apply toNat_ofNat
  rw [Nat.isValidChar]
  omega

theorem points_cons (h : ¬(isHigh hi ∧ ∃ lo ∈ us.head?, isLow lo)) :
    points (hi :: us) = unit hi :: points us := by
  cases us with
  | nil => rfl
  | cons lo us =>
    rw [points, if_neg]
    intro hpair
    obtain ⟨hhi, hlo⟩ := Bool.and_eq_true_iff.mp hpair
    exact h ⟨hhi, lo, rfl, hlo⟩

theorem points_append (hhi : isHigh u = false) (hlo : isLow u = false) :
    points (us ++ u :: vs) = points us ++ .char (.ofNat u.toNat) :: points vs := by
  have hu : points (u :: vs) = .char (.ofNat u.toNat) :: points vs := by
    rw [points_cons (by simp [hhi]), (unit_toNat hhi hlo).1]
  induction us using points.induct with
  | case1 hi lo us hpair ih =>
    rw [List.cons_append, List.cons_append, points, if_pos hpair, ih, points, if_pos hpair]
    rfl
  | case2 hi lo us hpair ih =>
    rw [List.cons_append, List.cons_append, points, if_neg hpair, ← List.cons_append, ih, points,
      if_neg hpair]
    rfl
  | case3 v =>
    rw [List.singleton_append, points_cons (by simp [hlo]), hu]
    rfl
  | case4 => exact hu

theorem not_surrogate (h : u.toNat < 0x80) : isHigh u = false ∧ isLow u = false := by
  simp only [isHigh, isLow, Bool.and_eq_false_iff, decide_eq_false_iff_not]
  omega

theorem decode_append (h : u.toNat < 0x80) :
    decode (us ++ u :: vs) = decode us ++ .ofNat u.toNat :: decode vs := by
  obtain ⟨hhi, hlo⟩ := not_surrogate h
  rw [decode, points_append hhi hlo, List.map_append, List.map_cons]
  rfl

theorem decode_cons (h : u.toNat < 0x80) : decode (u :: us) = .ofNat u.toNat :: decode us := by
  rw [← List.nil_append (u :: us), decode_append h]
  rfl

theorem toNat_ascii (h : c.toNat < 0x80) : (UInt16.ofNat c.toNat).toNat = c.toNat :=
  UInt16.toNat_ofNat_of_lt (Nat.lt_trans h (by decide))

theorem decode_eq_cons (hc : c.toNat < 0x80) (h : decode us = c :: cs) :
    ∃ vs, us = .ofNat c.toNat :: vs ∧ decode vs = cs := by
  have hunit : ∀ u : UInt16, (unit u).decode = c → u = .ofNat c.toNat := by
    intro u hu
    unfold unit at hu
    split at hu
    · subst hu
      exact absurd (show '\uFFFD'.toNat < 0x80 from hc) (by decide)
    · next hsurrogate =>
      rw [Bool.not_eq_true, Bool.or_eq_false_iff] at hsurrogate
      rw [← (show Char.ofNat u.toNat = c from hu), (unit_toNat hsurrogate.1 hsurrogate.2).2,
        UInt16.ofNat_toNat]
  unfold decode at h
  cases us using points.induct with
  | case1 hi lo us hpair =>
    rw [points, if_pos hpair, List.map_cons, List.cons.injEq] at h
    obtain ⟨hhi, hlo⟩ := Bool.and_eq_true_iff.mp hpair
    have hge := pair_toNat hhi hlo
    rw [show pair hi lo = c from h.1] at hge
    omega
  | case2 hi lo us hpair =>
    rw [points, if_neg hpair, List.map_cons, List.cons.injEq] at h
    exact ⟨lo :: us, by rw [hunit hi h.1], h.2⟩
  | case3 u =>
    rw [points, List.map_singleton, List.cons.injEq] at h
    exact ⟨[], by rw [hunit u h.1], h.2⟩
  | case4 => cases h

theorem decode_eq_nil : decode us = [] ↔ us = [] := by
  constructor
  · intro h
    cases us using points.induct with
    | case1 hi lo us hpair =>
      rw [decode, points, if_pos hpair] at h
      cases h
    | case2 hi lo us hpair =>
      rw [decode, points, if_neg hpair] at h
      cases h
    | case3 u => cases h
    | case4 => rfl
  · rintro rfl
    rfl

theorem decode_eq_ascii (h : ∀ c ∈ cs, c.toNat < 0x80) : decode us = cs ↔ us = ascii cs := by
  induction cs generalizing us with
  | nil => exact decode_eq_nil
  | cons c cs ih =>
    obtain ⟨hc, hcs⟩ := List.forall_mem_cons.mp h
    constructor
    · intro heq
      obtain ⟨vs, rfl, hvs⟩ := decode_eq_cons hc heq
      rw [(ih hcs).mp hvs]
      rfl
    · rintro rfl
      have hdecode : decode (ascii cs) = cs := (ih hcs).mpr rfl
      rw [ascii, List.map_cons, ← ascii, decode_cons (by rwa [toNat_ascii hc]), hdecode,
        toNat_ascii hc, Char.ofNat_toNat]

theorem ascii_of_forall {alphabet : List Char} (h : ∀ u ∈ us, u ∈ ascii alphabet) :
    ∃ cs, (∀ c ∈ cs, c ∈ alphabet) ∧ us = ascii cs := by
  induction us with
  | nil => exact ⟨[], nofun, rfl⟩
  | cons u us ih =>
    obtain ⟨hu, hus⟩ := List.forall_mem_cons.mp h
    obtain ⟨c, hc, rfl⟩ := List.mem_map.mp hu
    obtain ⟨cs, hcs, rfl⟩ := ih hus
    exact ⟨c :: cs, List.forall_mem_cons.mpr ⟨hc, hcs⟩, rfl⟩

theorem mem_decode (hc : c.toNat < 0x80) : c ∈ decode us ↔ UInt16.ofNat c.toNat ∈ us := by
  constructor
  · intro h
    induction us using points.induct with
    | case1 hi lo us hpair ih =>
      rw [decode, points, if_pos hpair, List.map_cons, List.mem_cons] at h
      rcases h with h | h
      · obtain ⟨hhi, hlo⟩ := Bool.and_eq_true_iff.mp hpair
        have hge := pair_toNat hhi hlo
        rw [← show c = pair hi lo from h] at hge
        omega
      · exact List.mem_cons_of_mem _ (List.mem_cons_of_mem _ (ih h))
    | case2 hi lo us hpair ih =>
      rw [decode, points, if_neg hpair, List.map_cons, List.mem_cons] at h
      rcases h with h | h
      · have hone : decode [hi] = [c] := congrArg (· :: []) h.symm
        obtain ⟨vs, hvs, -⟩ := decode_eq_cons hc hone
        rw [List.cons_eq_cons.mp hvs |>.1]
        exact List.mem_cons_self
      · exact List.mem_cons_of_mem _ (ih h)
    | case3 u =>
      have hone : decode [u] = [c] := congrArg (· :: []) (List.mem_singleton.mp h).symm
      obtain ⟨vs, hvs, -⟩ := decode_eq_cons hc hone
      rw [List.cons_eq_cons.mp hvs |>.1]
      exact List.mem_cons_self
    | case4 => cases h
  · intro h
    obtain ⟨us, vs, rfl⟩ := List.append_of_mem h
    rw [decode_append (by rwa [toNat_ascii hc]), toNat_ascii hc, Char.ofNat_toNat]
    exact List.mem_append_right _ List.mem_cons_self

theorem splitOn_decode (hc : c.toNat < 0x80) (us : List UInt16) :
    (decode us).splitOn c = (us.splitOn (.ofNat c.toNat)).map decode := by
  induction hn : us.length using Nat.strongRecOn generalizing us with
  | ind n ih =>
    by_cases hmem : UInt16.ofNat c.toNat ∈ us
    · obtain ⟨seg, rest, rfl, hseg⟩ := List.eq_append_cons_of_mem hmem
      have hseg' : c ∉ decode seg := mt (mem_decode hc).mp hseg
      rw [decode_append (by rwa [toNat_ascii hc]), toNat_ascii hc, Char.ofNat_toNat,
        List.splitOn_append_cons_self_of_not_mem hseg',
        List.splitOn_append_cons_self_of_not_mem hseg, List.map_cons]
      rw [List.length_append, List.length_cons] at hn
      rw [ih rest.length (by omega) rest rfl]
    · rw [List.splitOn_eq_singleton (mt (mem_decode hc).mp hmem), List.splitOn_eq_singleton hmem]
      rfl

theorem decode_intercalate (hc : c.toNat < 0x80) (segs : List (List UInt16)) :
    decode ([.ofNat c.toNat].intercalate segs) = [c].intercalate (segs.map decode) := by
  induction segs with
  | nil => rfl
  | cons s segs ih =>
    cases segs with
    | nil => simp
    | cons t segs =>
      rw [List.intercalate_cons_cons, List.append_assoc, List.singleton_append,
        decode_append (by rwa [toNat_ascii hc]), toNat_ascii hc, Char.ofNat_toNat, ih]
      simp

end Utf16
