import Mathlib.Data.Nat.Bitwise

/-!
# Clearing the lowest set bit

`x &&& (x - 1)` is `x` with its lowest set bit turned off. It is `0` for a power of two
(`two_pow_land_sub_one`), and a nonzero number for which it is `0` is one
(`eq_two_pow_log2`). On any other number it keeps the highest set bit
(`log2_land_sub_one`), so clearing lowest bits until a power of two is left rounds a
number down to `2 ^ log2 x`.
-/

namespace PowerOfTwo

theorem land_sub_one_lt {x : Nat} (hx : x ≠ 0) : x &&& (x - 1) < x :=
  Nat.lt_of_le_of_lt Nat.and_le_right (by omega)

theorem two_pow_land_sub_one (k : Nat) : 2 ^ k &&& (2 ^ k - 1) = 0 := by
  rw [Nat.and_two_pow_sub_one_eq_mod, Nat.mod_self]

/-- A number in `[2 ^ k, 2 ^ (k + 1))` has bit `k` set. -/
theorem testBit_of_two_pow_le {y k : Nat} (h₁ : 2 ^ k ≤ y) (h₂ : y < 2 ^ (k + 1)) :
    y.testBit k = true := by
  have hy : y = 2 ^ k + (y - 2 ^ k) := by omega
  have hlow : y - 2 ^ k < 2 ^ k := by
    rw [Nat.pow_succ] at h₂
    omega
  rw [hy, Nat.testBit_two_pow_add_eq, Nat.testBit_lt_two_pow hlow]
  rfl

/-- Off a power of two, `x - 1` still has the highest bit of `x`, so the conjunction
keeps it. -/
theorem two_pow_log2_le_land_sub_one {x : Nat} (hx : 2 ^ x.log2 < x) :
    2 ^ x.log2 ≤ x &&& (x - 1) := by
  have hlt : x < 2 ^ (x.log2 + 1) := Nat.lt_log2_self
  apply Nat.ge_two_pow_of_testBit
  rw [Nat.testBit_and, testBit_of_two_pow_le hx.le hlt,
    testBit_of_two_pow_le (by omega) (by omega)]
  rfl

/-- A nonzero number whose lowest set bit is its only one is a power of two. -/
theorem eq_two_pow_log2 {x : Nat} (hx : x ≠ 0) (h : x &&& (x - 1) = 0) : x = 2 ^ x.log2 := by
  have hle : 2 ^ x.log2 ≤ x := Nat.log2_self_le hx
  refine ((Nat.eq_or_lt_of_le hle).resolve_right fun hlt => ?_).symm
  have hkeep := two_pow_log2_le_land_sub_one hlt
  rw [h] at hkeep
  exact absurd hkeep (Nat.two_pow_pos _).not_ge

/-- Off a power of two, clearing the lowest set bit keeps `log2`. -/
theorem log2_land_sub_one {x : Nat} (hx : 2 ^ x.log2 < x) : (x &&& (x - 1)).log2 = x.log2 := by
  have hkeep := two_pow_log2_le_land_sub_one hx
  have hne : x &&& (x - 1) ≠ 0 := by
    have := Nat.two_pow_pos x.log2
    omega
  have hlt : x &&& (x - 1) < 2 ^ (x.log2 + 1) :=
    Nat.lt_trans (land_sub_one_lt (Nat.ne_zero_of_lt hx)) Nat.lt_log2_self
  exact (Nat.log2_eq_iff hne).mpr ⟨hkeep, hlt⟩

end PowerOfTwo
