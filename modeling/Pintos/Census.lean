import Mathlib.Algebra.BigOperators.Group.Finset.Piecewise
import Mathlib.Data.Fintype.Card

/-!
# Counting the agents in a class of states

`count f P` is the number of agents `i` of a finite type whose state `f i` is in
the class `P`. A step of one agent changes one value of `f`, and `count_update`
says how every count changes with it: the one agent leaves the class of its old
state and enters that of its new one. Invariants stated as equations between
counts and shared variables are then kept by arithmetic alone.
-/

namespace Census

open Finset

variable {ι π : Type*} [Fintype ι]

/-- The number of agents whose state is in `P`. -/
def count (f : ι → π) (P : π → Bool) : Nat := #(univ.filter fun i => P (f i) = true)

variable {f : ι → π} {P Q : π → Bool}

theorem count_eq_sum : count f P = ∑ i, (P (f i)).toNat := by
  rw [count, card_filter]
  exact sum_congr rfl fun i _ => by cases P (f i) <;> rfl

/-- One agent changes its state from `f i` to `p`. -/
theorem count_update [DecidableEq ι] (i : ι) (p : π) :
    count (Function.update f i p) P + (P (f i)).toNat = count f P + (P p).toNat := by
  have hrest : ∑ j ∈ univ.erase i, (P (Function.update f i p j)).toNat =
      ∑ j ∈ univ.erase i, (P (f j)).toNat :=
    sum_congr rfl fun j hj => by rw [Function.update_of_ne (ne_of_mem_erase hj)]
  have hnew := add_sum_erase univ (fun j => (P (Function.update f i p j)).toNat) (mem_univ i)
  have hold := add_sum_erase univ (fun j => (P (f j)).toNat) (mem_univ i)
  rw [count_eq_sum, count_eq_sum, ← hnew, ← hold, hrest, Function.update_self]
  omega

theorem count_eq_zero : count f P = 0 ↔ ∀ i, P (f i) = false := by
  simp [count, filter_eq_empty_iff]

theorem count_pos : 0 < count f P ↔ ∃ i, P (f i) = true := by
  simp [count, card_pos, filter_nonempty_iff]

theorem count_mono (h : ∀ p, P p = true → Q p = true) : count f P ≤ count f Q :=
  card_le_card fun i hi => by
    rw [mem_filter] at hi ⊢
    exact ⟨hi.1, h _ hi.2⟩

/-- An agent in a class that holds at most one agent is alone in it. -/
theorem eq_of_count_le_one (h : count f P ≤ 1) {i j : ι} (hi : P (f i) = true)
    (hj : P (f j) = true) : i = j :=
  card_le_one.mp h i (by simp [hi]) j (by simp [hj])

/-- The agents of a subclass of a class that `i` has to itself: `i` or none. -/
theorem count_of_alone [DecidableEq ι] (hQ : ∀ p, Q p = true → P p = true) (h : count f P ≤ 1) {i : ι}
    (hi : P (f i) = true) : count f Q = (Q (f i)).toNat := by
  have hrest : ∀ j, j ≠ i → Q (f j) = false := by
    intro j hj
    by_contra hq
    exact hj (eq_of_count_le_one h (hQ _ (by simpa using hq)) hi)
  rw [count_eq_sum, ← add_sum_erase univ _ (mem_univ i)]
  have hzero : ∑ j ∈ univ.erase i, (Q (f j)).toNat = 0 :=
    sum_eq_zero fun j hj => by rw [hrest j (ne_of_mem_erase hj)]; rfl
  rw [hzero, Nat.add_zero]

end Census
