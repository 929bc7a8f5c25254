import Mathlib.Data.Nat.Notation
import Mathlib.Tactic.NormNum

/-! # Bytes as text

Base64 with the standard alphabet and padding, and lowercase hexadecimal. The base64 decoder
passes over line breaks, wants the padding, and takes a last digit whose low bits are not zero.
-/

namespace Base64

def alphabet : List Char :=
  "ABCDEFGHIJKLMNOPQRSTUVWXYZabcdefghijklmnopqrstuvwxyz0123456789+/".toList

def digit (n : ℕ) : Char := alphabet.getD n '='

def value (c : Char) : Option ℕ := alphabet.idxOf? c

def encode : List UInt8 → List Char
  | [] => []
  | [a] =>
    let n := a.toNat * 65536
    [digit (n / 262144), digit (n / 4096 % 64), '=', '=']
  | [a, b] =>
    let n := a.toNat * 65536 + b.toNat * 256
    [digit (n / 262144), digit (n / 4096 % 64), digit (n / 64 % 64), '=']
  | a :: b :: c :: rest =>
    let n := a.toNat * 65536 + b.toNat * 256 + c.toNat
    digit (n / 262144) :: digit (n / 4096 % 64) :: digit (n / 64 % 64) :: digit (n % 64) ::
      encode rest

def decodeGroups : List Char → Option (List UInt8)
  | [] => some []
  | [p, q, '=', '='] => do
    let n := (← value p) * 262144 + (← value q) * 4096
    return [.ofNat (n / 65536)]
  | [p, q, r, '='] => do
    let n := (← value p) * 262144 + (← value q) * 4096 + (← value r) * 64
    return [.ofNat (n / 65536), .ofNat (n / 256)]
  | p :: q :: r :: s :: rest => do
    let n := (← value p) * 262144 + (← value q) * 4096 + (← value r) * 64 + (← value s)
    return .ofNat (n / 65536) :: .ofNat (n / 256) :: .ofNat n :: (← decodeGroups rest)
  | _ => none

def isLineBreak (c : Char) : Bool := c = '\n' || c = '\r'

def decode (text : List Char) : Option (List UInt8) :=
  decodeGroups (text.filter fun c => !isLineBreak c)

theorem digit_spec : ∀ n < 64, value (digit n) = some n ∧ digit n ≠ '=' ∧
    isLineBreak (digit n) = false := by
  decide

theorem value_digit {n : ℕ} (h : n < 64) : value (digit n) = some n := (digit_spec n h).1

theorem digit_ne_pad {n : ℕ} (h : n < 64) : digit n ≠ '=' := (digit_spec n h).2.1

theorem ofNat_eq_of_mod {n : ℕ} (a : UInt8) (h : n % 256 = a.toNat) : UInt8.ofNat n = a := by
  apply UInt8.toNat_inj.mp
  rw [UInt8.toNat_ofNat']
  exact h

theorem decodeGroups_digits {p q r s : ℕ} (rest : List Char) (hp : p < 64) (hq : q < 64)
    (hr : r < 64) (hs : s < 64) :
    decodeGroups (digit p :: digit q :: digit r :: digit s :: rest) =
      let n := p * 262144 + q * 4096 + r * 64 + s
      (decodeGroups rest).map fun bs =>
        .ofNat (n / 65536) :: .ofNat (n / 256) :: .ofNat n :: bs := by
  rw [decodeGroups.eq_4]
  · rw [value_digit hp, value_digit hq, value_digit hr, value_digit hs]
    cases decodeGroups rest <;> rfl
  · rintro - h
    exact absurd h (digit_ne_pad hs)
  · rintro h
    exact absurd h (digit_ne_pad hs)

theorem decodeGroups_pad {p q r : ℕ} (hp : p < 64) (hq : q < 64) (hr : r < 64) :
    decodeGroups [digit p, digit q, digit r, '='] =
      let n := p * 262144 + q * 4096 + r * 64
      some [.ofNat (n / 65536), .ofNat (n / 256)] := by
  rw [decodeGroups.eq_3]
  · rw [value_digit hp, value_digit hq, value_digit hr]
    rfl
  · intro h
    exact absurd h (digit_ne_pad hr)

theorem decodeGroups_pad_pad {p q : ℕ} (hp : p < 64) (hq : q < 64) :
    decodeGroups [digit p, digit q, '=', '='] =
      some [.ofNat ((p * 262144 + q * 4096) / 65536)] := by
  rw [decodeGroups, value_digit hp, value_digit hq]
  rfl

theorem decodeGroups_encode (bs : List UInt8) : decodeGroups (encode bs) = some bs := by
  induction bs using encode.induct with
  | case1 => rfl
  | case2 a =>
    have ha := a.toNat_lt
    rw [encode, decodeGroups_pad_pad (by omega) (by omega), ofNat_eq_of_mod a (by omega)]
  | case3 a b =>
    have ha := a.toNat_lt
    have hb := b.toNat_lt
    rw [encode, decodeGroups_pad (by omega) (by omega) (by omega)]
    dsimp only
    rw [ofNat_eq_of_mod a (by omega), ofNat_eq_of_mod b (by omega)]
  | case4 a b c rest ih =>
    have ha := a.toNat_lt
    have hb := b.toNat_lt
    have hc := c.toNat_lt
    rw [encode, decodeGroups_digits _ (by omega) (by omega) (by omega) (by omega), ih,
      Option.map_some, ofNat_eq_of_mod a (by omega), ofNat_eq_of_mod b (by omega),
      ofNat_eq_of_mod c (by omega)]

theorem alphabet_eq : alphabet = (List.range 64).map digit := by
  decide

theorem exists_digit {c : Char} (h : c ∈ alphabet) : ∃ n < 64, digit n = c := by
  rw [alphabet_eq] at h
  obtain ⟨n, hn, rfl⟩ := List.mem_map.mp h
  exact ⟨n, List.mem_range.mp hn, rfl⟩

theorem exists_decodeGroups {k : ℕ} (hk : k ≤ 2) : ∀ {digits : List Char},
    (∀ c ∈ digits, c ∈ alphabet) → (digits.length + k) % 4 = 0 →
      ∃ bs, decodeGroups (digits ++ List.replicate k '=') = some bs ∧
        bs.length = digits.length * 3 / 4
  | [], _, hlen => by
    obtain rfl : k = 0 := by simp only [List.length_nil] at hlen; omega
    exact ⟨[], rfl, rfl⟩
  | [a], _, hlen => by simp only [List.length_singleton] at hlen; omega
  | [a, b], hdigits, hlen => by
    obtain rfl : k = 2 := by simp only [List.length_cons, List.length_nil] at hlen; omega
    obtain ⟨p, hp, rfl⟩ := exists_digit (hdigits a (by simp))
    obtain ⟨q, hq, rfl⟩ := exists_digit (hdigits b (by simp))
    exact ⟨_, decodeGroups_pad_pad hp hq, by simp⟩
  | [a, b, c], hdigits, hlen => by
    obtain rfl : k = 1 := by simp only [List.length_cons, List.length_nil] at hlen; omega
    obtain ⟨p, hp, rfl⟩ := exists_digit (hdigits a (by simp))
    obtain ⟨q, hq, rfl⟩ := exists_digit (hdigits b (by simp))
    obtain ⟨r, hr, rfl⟩ := exists_digit (hdigits c (by simp))
    exact ⟨_, decodeGroups_pad hp hq hr, by simp⟩
  | a :: b :: c :: d :: rest, hdigits, hlen => by
    obtain ⟨p, hp, rfl⟩ := exists_digit (hdigits a (by simp))
    obtain ⟨q, hq, rfl⟩ := exists_digit (hdigits b (by simp))
    obtain ⟨r, hr, rfl⟩ := exists_digit (hdigits c (by simp))
    obtain ⟨s, hs, rfl⟩ := exists_digit (hdigits d (by simp))
    have hrest : ∀ c ∈ rest, c ∈ alphabet := fun c hc => hdigits c (by simp [hc])
    simp only [List.length_cons] at hlen
    obtain ⟨bs, hbs, hbytes⟩ := exists_decodeGroups hk hrest (by omega)
    have hgroup := decodeGroups_digits (rest ++ List.replicate k '=') hp hq hr hs
    rw [hbs] at hgroup
    refine ⟨_, hgroup, ?_⟩
    simp only [List.length_cons, hbytes]
    omega

theorem exists_decode {digits : List Char} {k : ℕ} (hdigits : ∀ c ∈ digits, c ∈ alphabet)
    (hk : k ≤ 2) (hlen : (digits.length + k) % 4 = 0) :
    ∃ bs, decode (digits ++ List.replicate k '=') = some bs ∧
      bs.length = digits.length * 3 / 4 := by
  have hall : ∀ c ∈ digits ++ List.replicate k '=', (!isLineBreak c) = true := by
    intro c hc
    rcases List.mem_append.mp hc with hc | hc
    · obtain ⟨n, hn, rfl⟩ := exists_digit (hdigits c hc)
      rw [(digit_spec n hn).2.2, Bool.not_false]
    · obtain rfl := List.eq_of_mem_replicate hc
      rfl
  rw [decode, List.filter_eq_self.mpr hall]
  exact exists_decodeGroups hk hdigits hlen

theorem isLineBreak_of_mem_encode {c : Char} {bs : List UInt8} (h : c ∈ encode bs) :
    isLineBreak c = false := by
  have hdigit : ∀ n < 64, isLineBreak (digit n) = false := fun n hn => (digit_spec n hn).2.2
  induction bs using encode.induct with
  | case1 => cases h
  | case2 a =>
    have ha := a.toNat_lt
    simp only [encode, List.mem_cons, List.not_mem_nil, or_false] at h
    rcases h with rfl | rfl | rfl | rfl
    · exact hdigit _ (by omega)
    · exact hdigit _ (by omega)
    · rfl
    · rfl
  | case3 a b =>
    have ha := a.toNat_lt
    have hb := b.toNat_lt
    simp only [encode, List.mem_cons, List.not_mem_nil, or_false] at h
    rcases h with rfl | rfl | rfl | rfl
    · exact hdigit _ (by omega)
    · exact hdigit _ (by omega)
    · exact hdigit _ (by omega)
    · rfl
  | case4 a b c rest ih =>
    have ha := a.toNat_lt
    have hb := b.toNat_lt
    have hc := c.toNat_lt
    simp only [encode, List.mem_cons] at h
    rcases h with rfl | rfl | rfl | rfl | h
    · exact hdigit _ (by omega)
    · exact hdigit _ (by omega)
    · exact hdigit _ (by omega)
    · exact hdigit _ (by omega)
    · exact ih h

theorem decode_encode (bs : List UInt8) : decode (encode bs) = some bs := by
  have hall : ∀ c ∈ encode bs, (!isLineBreak c) = true := by
    intro c hc
    rw [isLineBreak_of_mem_encode hc, Bool.not_false]
  rw [decode, List.filter_eq_self.mpr hall, decodeGroups_encode]

end Base64

namespace Hex

def digit (n : ℕ) : Char := "0123456789abcdef".toList.getD n '0'

def encode (bs : List UInt8) : List Char :=
  bs.flatMap fun b => [digit (b.toNat / 16), digit (b.toNat % 16)]

theorem digit_inj : ∀ m < 16, ∀ n < 16, digit m = digit n → m = n := by
  decide

theorem encode_cons (b : UInt8) (bs : List UInt8) :
    encode (b :: bs) = digit (b.toNat / 16) :: digit (b.toNat % 16) :: encode bs :=
  rfl

theorem encode_injective : Function.Injective encode := by
  intro bs
  induction bs with
  | nil =>
    intro bs' h
    cases bs' with
    | nil => rfl
    | cons b' bs' => cases h
  | cons b bs ih =>
    intro bs' h
    cases bs' with
    | nil => cases h
    | cons b' bs' =>
      simp only [encode_cons, List.cons.injEq] at h
      obtain ⟨hhigh, hlow, h⟩ := h
      have hb := b.toNat_lt
      have hb' := b'.toNat_lt
      have hdiv := digit_inj _ (by omega) _ (by omega) hhigh
      have hmod := digit_inj _ (by omega) _ (by omega) hlow
      rw [ih h, UInt8.toNat_inj.mp (by omega : b.toNat = b'.toNat)]

end Hex
