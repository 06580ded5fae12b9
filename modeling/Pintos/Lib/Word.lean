import Mathlib.Data.Nat.Bitwise

/-!
# Fields of a 32-bit word

Page-table code packs an address and flag bits into one `uint32_t` and takes
them apart with shifts and masks. On the value of the word as a number these are
arithmetic: a mask of the low `k` bits is the remainder by `2 ^ k`, its
complement rounds down to a multiple of `2 ^ k`, a right shift divides, and an
OR of a multiple of `2 ^ k` with something below `2 ^ k` is a sum. The lemmas
below state this once, for masks given by their values, so that facts about
packed entries become goals for `omega`.
-/

namespace Pintos.Lib

/-- Masking with `2 ^ k - 1` keeps the low `k` bits. -/
theorem toNat_and_low {x m : UInt32} {k : Nat} (hm : m.toNat = 2 ^ k - 1) :
    (x &&& m).toNat = x.toNat % 2 ^ k := by
  rw [UInt32.toNat_and, hm, Nat.and_two_pow_sub_one_eq_mod]

/-- Masking with the complement of `2 ^ k - 1` clears the low `k` bits. -/
theorem toNat_and_not_low {x m : UInt32} {k : Nat} (hm : m.toNat = 2 ^ k - 1) (hk : k ≤ 32) :
    (x &&& ~~~m).toNat = x.toNat / 2 ^ k * 2 ^ k := by
  -- the complement is the bits from `k` up to `32`
  have hpow : 2 ^ k ≤ 2 ^ 32 := Nat.pow_le_pow_right Nat.two_pos hk
  have hnot : (~~~m).toNat = (2 ^ (32 - k) - 1) * 2 ^ k := by
    have hsize : UInt32.size = 2 ^ 32 := rfl
    have hone : 1 ≤ 2 ^ k := Nat.one_le_two_pow
    rw [UInt32.toNat_not, hm, hsize, Nat.sub_mul, ← Nat.pow_add, Nat.sub_add_cancel hk, one_mul]
    omega
  rw [UInt32.toNat_and, hnot]
  apply Nat.eq_of_testBit_eq
  intro i
  rw [Nat.testBit_and, Nat.testBit_mul_two_pow, Nat.testBit_mul_two_pow, Nat.testBit_div_two_pow,
    Nat.testBit_two_pow_sub_one]
  by_cases hki : k ≤ i
  · rw [Nat.sub_add_cancel hki]
    by_cases hi : i < 32
    · simp [hki, show i - k < 32 - k by omega]
    · -- bits from `32` up are zero in a 32-bit word
      have hx : x.toNat < 2 ^ i :=
        lt_of_lt_of_le x.toNat_lt (Nat.pow_le_pow_right Nat.two_pos (by omega))
      simp [Nat.testBit_lt_two_pow hx]
  · simp [hki]

/-- An OR of a multiple of `2 ^ k` with a value below `2 ^ k` is their sum. -/
theorem toNat_or_of_dvd {x f : UInt32} {k : Nat} (hx : x.toNat % 2 ^ k = 0)
    (hf : f.toNat < 2 ^ k) : (x ||| f).toNat = x.toNat + f.toNat := by
  have hsplit : x.toNat = (x.toNat / 2 ^ k) <<< k := by
    rw [Nat.shiftLeft_eq]
    exact (Nat.div_mul_cancel (Nat.dvd_of_mod_eq_zero hx)).symm
  rw [UInt32.toNat_or, hsplit, ← Nat.shiftLeft_add_eq_or_of_lt hf]

/-- A right shift by less than the width divides. -/
theorem toNat_shiftRight_of_lt {x s : UInt32} (hs : s.toNat < 32) :
    (x >>> s).toNat = x.toNat / 2 ^ s.toNat := by
  rw [UInt32.toNat_shiftRight, Nat.mod_eq_of_lt hs, Nat.shiftRight_eq_div_pow]

theorem and_or_distrib_right (x y z : UInt32) : (x ||| y) &&& z = (x &&& z) ||| (y &&& z) := by
  apply UInt32.toBitVec_inj.mp
  simp only [UInt32.toBitVec_and, UInt32.toBitVec_or, BitVec.and_or_distrib_right]

end Pintos.Lib
