import Mathlib.Tactic.Common

/-!
# Memory as a map, and `memcpy`

A buffer or a disk sector is a map from offsets to bytes. `copy dst d src s n` is
`memcpy (dst + d, src + s, n)`: the `n` places of `dst` from `d` on take the values of
`src` from `s` on, and every other place keeps its value. A loop that copies a range in
chunks is one copy of the whole range (`copy_append`), and a copy reads its source only
in the range it copies (`copy_congr`).
-/

namespace ByteMap

variable {α : Type*}

/-- `memcpy (dst + d, src + s, n)`. -/
def copy (dst : Nat → α) (d : Nat) (src : Nat → α) (s n : Nat) : Nat → α :=
  fun i => if d ≤ i ∧ i < d + n then src (s + (i - d)) else dst i

variable {dst src src' : Nat → α} {d s s' n m i : Nat}

theorem copy_apply_of_mem (h₁ : d ≤ i) (h₂ : i < d + n) : copy dst d src s n i = src (s + (i - d)) :=
  if_pos ⟨h₁, h₂⟩

theorem copy_apply_of_not_mem (h : ¬(d ≤ i ∧ i < d + n)) : copy dst d src s n i = dst i :=
  if_neg h

@[simp] theorem copy_zero : copy dst d src s 0 = dst := by
  funext i
  exact copy_apply_of_not_mem (by omega)

/-- Two copies of adjacent ranges from adjacent sources are one copy. -/
theorem copy_append :
    copy (copy dst d src s m) (d + m) src (s + m) n = copy dst d src s (m + n) := by
  funext i
  by_cases h₁ : d + m ≤ i ∧ i < d + m + n
  · rw [copy_apply_of_mem h₁.1 h₁.2, copy_apply_of_mem (by omega) (by omega)]
    congr 1
    omega
  · rw [copy_apply_of_not_mem h₁]
    by_cases h₂ : d ≤ i ∧ i < d + m
    · rw [copy_apply_of_mem h₂.1 h₂.2, copy_apply_of_mem (by omega) (by omega)]
    · rw [copy_apply_of_not_mem h₂, copy_apply_of_not_mem (by omega)]

/-- A copy reads its source only in the range it copies. -/
theorem copy_congr (h : ∀ j, j < n → src (s + j) = src' (s' + j)) :
    copy dst d src s n = copy dst d src' s' n := by
  funext i
  by_cases hi : d ≤ i ∧ i < d + n
  · rw [copy_apply_of_mem hi.1 hi.2, copy_apply_of_mem hi.1 hi.2]
    exact h _ (by omega)
  · rw [copy_apply_of_not_mem hi, copy_apply_of_not_mem hi]

end ByteMap
