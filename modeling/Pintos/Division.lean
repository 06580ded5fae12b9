import Mathlib.Tactic.Ring
import Mathlib.Tactic.Linarith
import Mathlib.Tactic.Positivity

/-!
# Quotients of a long division

Two facts about natural-number quotients that a double-word division by a
single-word divisor rests on. A dividend `b * n₁ + n₀` is divided by `d` in two
steps, the high word first; the remainder of the first step is carried into the
second. And a divisor of `31 + t` to `32 + t` bits, rounded down to a multiple of
`2 ^ t`, gives an estimate of a 64-bit quotient that is exact or one too large
(the normalised-divisor step of Hacker's Delight, section 9-5).
-/

namespace Division

/-- Dividing `b * n₁ + n₀` by `d` one word at a time. -/
theorem div_two_step (b n₁ n₀ d : Nat) :
    (b * n₁ + n₀) / d = b * (n₁ / d) + (b * (n₁ % d) + n₀) / d := by
  rcases Nat.eq_zero_or_pos d with rfl | hd
  · simp
  have hsplit : b * n₁ + n₀ = (b * (n₁ % d) + n₀) + d * (b * (n₁ / d)) := by
    have := Nat.mod_add_div n₁ d
    calc b * n₁ + n₀ = b * (n₁ % d + d * (n₁ / d)) + n₀ := by rw [this]
      _ = (b * (n₁ % d) + n₀) + d * (b * (n₁ / d)) := by ring
  rw [hsplit, Nat.add_mul_div_left _ _ hd, Nat.add_comm]

/-- The second step of `div_two_step` has a quotient below the word base. -/
theorem carry_div_lt {b r n₀ d : Nat} (hr : r < d) (hn₀ : n₀ < b) : (b * r + n₀) / d < b := by
  rw [Nat.div_lt_iff_lt_mul (by omega)]
  calc b * r + n₀ < b * r + b := by omega
    _ = b * (r + 1) := by ring
    _ ≤ b * d := Nat.mul_le_mul_left b hr

/-- The divisor rounded down to a multiple of `2 ^ t` is `2 ^ t * (d / 2 ^ t)`. -/
theorem sub_mod_eq (d t : Nat) : d - d % 2 ^ t = 2 ^ t * (d / 2 ^ t) := by
  have := Nat.mod_add_div d (2 ^ t)
  omega

/-- Rounding the divisor down does not make the quotient smaller. -/
theorem div_le_div_round {n d t : Nat} (hd : 2 ^ t ≤ d) : n / d ≤ n / (d - d % 2 ^ t) := by
  have hmod : d % 2 ^ t < 2 ^ t := Nat.mod_lt _ (Nat.two_pow_pos t)
  exact Nat.div_le_div_left (Nat.sub_le _ _) (by omega)

/-- With a divisor of at least `31 + t` bits and a dividend below `2 ^ 64`, rounding the
divisor down to a multiple of `2 ^ t` makes the quotient at most one larger. -/
theorem div_round_le_succ {n d t : Nat} (hn : n < 2 ^ 64) (hd : 2 ^ (31 + t) ≤ d) :
    n / (d - d % 2 ^ t) ≤ n / d + 1 := by
  have hpow : 2 ^ (31 + t) = 2 ^ 31 * 2 ^ t := Nat.pow_add 2 31 t
  have hpt : 0 < 2 ^ t := Nat.two_pow_pos t
  have he : d % 2 ^ t < 2 ^ t := Nat.mod_lt _ hpt
  have hd₀ : 0 < d := lt_of_lt_of_le (Nat.two_pow_pos _) hd
  have hD : d - d % 2 ^ t = 2 ^ t * (d / 2 ^ t) := sub_mod_eq d t
  -- the rounded divisor is `2 ^ t` times a number of at least 31 bits
  have hv : 2 ^ 31 ≤ d / 2 ^ t := (Nat.le_div_iff_mul_le hpt).mpr (by rw [← hpow]; exact hd)
  by_contra hlt
  obtain ⟨Q, hQ⟩ : ∃ Q, Q = n / d := ⟨_, rfl⟩
  obtain ⟨e, hemod⟩ : ∃ e, e = d % 2 ^ t := ⟨_, rfl⟩
  obtain ⟨v, hvdef⟩ : ∃ v, v = d / 2 ^ t := ⟨_, rfl⟩
  rw [← hQ, ← hemod] at hlt
  rw [← hemod] at he hD
  rw [← hvdef] at hD hv
  have hge : (Q + 2) * (2 ^ t * v) ≤ n :=
    (Nat.le_div_iff_mul_le (by positivity)).mp (by rw [← hD]; omega)
  have hlt' : n < d * (Q + 1) := hQ ▸ Nat.lt_mul_div_succ n hd₀
  have hdv : d = 2 ^ t * v + e := by omega
  -- so `2 ^ t * v < (Q + 1) * e ≤ (Q + 1) * 2 ^ t`, and `Q` has at least 31 bits
  have hDe : 2 ^ t * v < (Q + 1) * e := by
    rw [hdv] at hlt'
    nlinarith
  have hvQ : v < Q + 1 := by
    have : (Q + 1) * e ≤ (Q + 1) * 2 ^ t := Nat.mul_le_mul_left _ he.le
    have : 2 ^ t * v < 2 ^ t * (Q + 1) := by rw [Nat.mul_comm (2 ^ t) (Q + 1)]; omega
    exact Nat.lt_of_mul_lt_mul_left this
  have hQd : Q * d ≤ n := hQ ▸ Nat.div_mul_le_self n d
  -- a quotient of 31 bits by a divisor of `31 + t` bits stays below `2 ^ 64` only for `t ≤ 1`
  have ht : t ≤ 1 := by
    by_contra ht
    have h62 : 2 ^ 64 ≤ 2 ^ 31 * 2 ^ (31 + t) := by
      rw [← Nat.pow_add]
      exact Nat.pow_le_pow_right (by decide) (by omega)
    have : 2 ^ 31 * 2 ^ (31 + t) ≤ Q * d := Nat.mul_le_mul (by omega) hd
    omega
  -- for `t = 0` nothing is rounded off
  have ht0 : t ≠ 0 := by
    rintro rfl
    simp only [pow_zero, Nat.mod_one] at hemod
    rw [hemod, Nat.mul_zero] at hDe
    omega
  obtain rfl : t = 1 := by omega
  -- for `t = 1`, `e ≤ 1` gives `d ≤ Q + 1`; then `Q * d < 2 ^ 64` forces `d = 2 ^ 32`, which is even
  have hdQ : d ≤ Q + 1 := by
    have : (Q + 1) * e ≤ (Q + 1) * 1 := Nat.mul_le_mul_left _ (by omega)
    omega
  have hd32 : d ≤ 2 ^ 32 := by
    by_contra hd32
    have : 2 ^ 32 * (2 ^ 32 + 1) ≤ Q * d := Nat.mul_le_mul (by omega) (by omega)
    omega
  have hdeq : d = 2 ^ 32 := by omega
  rw [hdeq] at hemod
  rw [hemod] at hDe
  norm_num at hDe

end Division
