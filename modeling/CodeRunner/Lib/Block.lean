import Mathlib.Data.Option.Basic
import CodeRunner.Lib.Incremental

/-! # Length-prefixed blocks

A block is its length as a 32-bit big-endian number followed by its bytes. Reading a block
back off the front of a buffer inverts writing it, for every block below 4 GiB.
-/

namespace Block

def be32 (n : ℕ) : List UInt8 :=
  [UInt8.ofNat (n / 16777216), UInt8.ofNat (n / 65536), UInt8.ofNat (n / 256), UInt8.ofNat n]

def ofBe32 (b₀ b₁ b₂ b₃ : UInt8) : ℕ :=
  b₀.toNat * 16777216 + b₁.toNat * 65536 + b₂.toNat * 256 + b₃.toNat

def get : List UInt8 → Option (List UInt8 × List UInt8)
  | b₀ :: b₁ :: b₂ :: b₃ :: bs =>
    if bs.length < ofBe32 b₀ b₁ b₂ b₃ then none
    else some (bs.take (ofBe32 b₀ b₁ b₂ b₃), bs.drop (ofBe32 b₀ b₁ b₂ b₃))
  | _ => none

def put (data : List UInt8) : List UInt8 := be32 data.length ++ data

variable {bs data rest : List UInt8}

theorem ofBe32_be32 {n : ℕ} (h : n < 4294967296) :
    ofBe32 (UInt8.ofNat (n / 16777216)) (UInt8.ofNat (n / 65536)) (UInt8.ofNat (n / 256))
      (UInt8.ofNat n) = n := by
  simp only [ofBe32, UInt8.toNat_ofNat']
  omega

theorem length_put : (put data).length = 4 + data.length := by
  simp only [put, be32, List.length_append, List.length_cons, List.length_nil]

theorem get_put (h : data.length < 4294967296) : get (put data ++ rest) = some (data, rest) := by
  simp [put, be32, get, ofBe32_be32 h]

theorem get_eq_some : get bs = some (data, rest) ↔
    ∃ b₀ b₁ b₂ b₃ tl, bs = b₀ :: b₁ :: b₂ :: b₃ :: tl ∧ ofBe32 b₀ b₁ b₂ b₃ ≤ tl.length ∧
      data = tl.take (ofBe32 b₀ b₁ b₂ b₃) ∧ rest = tl.drop (ofBe32 b₀ b₁ b₂ b₃) := by
  constructor
  · intro h
    unfold get at h
    split at h
    · next b₀ b₁ b₂ b₃ tl =>
      split at h
      · cases h
      · next hlen =>
        simp only [Option.some.injEq, Prod.mk.injEq] at h
        exact ⟨b₀, b₁, b₂, b₃, tl, rfl, by omega, h.1.symm, h.2.symm⟩
    · cases h
  · rintro ⟨b₀, b₁, b₂, b₃, tl, rfl, hlen, rfl, rfl⟩
    simp [get, hlen]

theorem get_shorter (h : get bs = some (data, rest)) : rest.length < bs.length := by
  obtain ⟨b₀, b₁, b₂, b₃, tl, rfl, hlen, rfl, rfl⟩ := get_eq_some.mp h
  simp only [List.length_drop, List.length_cons]
  omega

theorem get_stable (more : List UInt8) (h : get bs = some (data, rest)) :
    get (bs ++ more) = some (data, rest ++ more) := by
  obtain ⟨b₀, b₁, b₂, b₃, tl, rfl, hlen, rfl, rfl⟩ := get_eq_some.mp h
  refine get_eq_some.mpr ⟨b₀, b₁, b₂, b₃, tl ++ more, rfl, ?_, ?_, ?_⟩
  · rw [List.length_append]; omega
  · rw [List.take_append_of_le_length hlen]
  · rw [List.drop_append_of_le_length hlen]

end Block
