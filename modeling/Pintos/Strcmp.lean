import Mathlib.Order.Defs.Unbundled
import Mathlib.Data.List.Pairwise

/-!
# `strcmp`-style comparisons

A comparison `cmp : α → α → Int` in the manner of `strcmp` answers negative, zero or
positive. It orders `α` as a total preorder when it is negative exactly when the other
way round is positive and "at most zero" is transitive (`TotalPreorder`). Then
`fun a b => cmp a b ≤ 0` is total and transitive, "negative" is the strict order that
goes with it, and a search of an array sorted by `cmp` can set aside every entry on the
far side of one it compared with (`lt_of_sorted`, `gt_of_sorted`).
-/

namespace Strcmp

variable {α : Type*}

/-- `cmp` is a `strcmp`-style comparison for a total preorder. -/
structure TotalPreorder (cmp : α → α → Int) : Prop where
  neg_iff : ∀ a b, cmp a b < 0 ↔ 0 < cmp b a
  le_trans : ∀ a b c, cmp a b ≤ 0 → cmp b c ≤ 0 → cmp a c ≤ 0

namespace TotalPreorder

variable {cmp : α → α → Int} (h : TotalPreorder cmp)
include h

/-- Negative one way is "not at most zero" the other way. -/
theorem lt_iff_not_le (a b : α) : cmp a b < 0 ↔ ¬cmp b a ≤ 0 := by
  rw [h.neg_iff, Int.not_le]

theorem le_of_not_le {a b : α} (hab : ¬cmp a b ≤ 0) : cmp b a ≤ 0 :=
  Int.le_of_lt ((h.lt_iff_not_le b a).mpr hab)

theorem le_total (a b : α) : cmp a b ≤ 0 ∨ cmp b a ≤ 0 := by
  by_cases hab : cmp a b ≤ 0
  · exact Or.inl hab
  · exact Or.inr (h.le_of_not_le hab)

theorem le_refl (a : α) : cmp a a ≤ 0 := (h.le_total a a).elim id id

theorem lt_of_lt_of_le {a b c : α} (hab : cmp a b < 0) (hbc : cmp b c ≤ 0) : cmp a c < 0 := by
  rw [h.lt_iff_not_le] at hab ⊢
  intro hca
  exact hab (h.le_trans b c a hbc hca)

theorem lt_of_le_of_lt {a b c : α} (hab : cmp a b ≤ 0) (hbc : cmp b c < 0) : cmp a c < 0 := by
  rw [h.lt_iff_not_le] at hbc ⊢
  intro hca
  exact hbc (h.le_trans c a b hca hab)

/-- "At most zero" is transitive and total. -/
theorem isTrans : IsTrans α fun a b => cmp a b ≤ 0 := ⟨h.le_trans⟩

theorem total : Std.Total fun a b : α => cmp a b ≤ 0 := ⟨h.le_total⟩

/-- A key below an entry of an array sorted on `[0, n)` is below every later entry. -/
theorem lt_of_sorted {E : Nat → α} {n : Nat} (hs : ∀ i j, i < j → j < n → cmp (E i) (E j) ≤ 0)
    {key : α} {i j : Nat} (hij : i ≤ j) (hj : j < n) (hi : cmp key (E i) < 0) :
    cmp key (E j) < 0 := by
  rcases Nat.lt_or_eq_of_le hij with hlt | rfl
  · exact h.lt_of_lt_of_le hi (hs i j hlt hj)
  · exact hi

/-- A key above an entry of an array sorted on `[0, n)` is above every earlier entry. -/
theorem gt_of_sorted {E : Nat → α} {n : Nat} (hs : ∀ i j, i < j → j < n → cmp (E i) (E j) ≤ 0)
    {key : α} {i j : Nat} (hij : i ≤ j) (hj : j < n) (hj' : 0 < cmp key (E j)) :
    0 < cmp key (E i) := by
  rw [← h.neg_iff] at hj' ⊢
  rcases Nat.lt_or_eq_of_le hij with hlt | rfl
  · exact h.lt_of_le_of_lt (hs i j hlt hj) hj'
  · exact hj'

end TotalPreorder

/-- In a search of `E 0, …, E (n - 1)` for `key`, every match lies in `[f, l)`: the
entries before `f` are below `key` and those from `l` on above it. -/
structure Bracket (cmp : α → α → Int) (key : α) (E : Nat → α) (n f l : Nat) : Prop where
  le : l ≤ n
  below : ∀ k < f, 0 < cmp key (E k)
  above : ∀ k, l ≤ k → k < n → cmp key (E k) < 0

namespace Bracket

variable {cmp : α → α → Int} {key : α} {E : Nat → α} {n f l : Nat}

theorem initial : Bracket cmp key E n 0 n where
  le := Nat.le_refl n
  below _ hk := absurd hk (Nat.not_lt_zero _)
  above _ hk hkn := absurd hkn (Nat.not_lt.mpr hk)

/-- An empty bracket holds no match. -/
theorem no_match (hb : Bracket cmp key E n f l) (hlf : l ≤ f) : ∀ k < n, cmp key (E k) ≠ 0 := by
  intro k hk
  by_cases hkf : k < f
  · exact Int.ne_of_gt (hb.below k hkf)
  · exact Int.ne_of_lt (hb.above k (by omega) hk)

variable (hc : TotalPreorder cmp) (hs : ∀ i j, i < j → j < n → cmp (E i) (E j) ≤ 0)
include hc hs

/-- In a sorted array, a key below the entry at `m` has its matches before `m`. -/
theorem lower (hb : Bracket cmp key E n f l) {m : Nat} (hml : m < l) (hm : cmp key (E m) < 0) :
    Bracket cmp key E n f m where
  le := by have := hb.le; omega
  below := hb.below
  above k hmk hk := hc.lt_of_sorted hs hmk hk hm

/-- In a sorted array, a key above the entry at `m` has its matches after `m`. -/
theorem upper (hb : Bracket cmp key E n f l) {m : Nat} (hml : m < l) (hm : 0 < cmp key (E m)) :
    Bracket cmp key E n (m + 1) l where
  le := hb.le
  below k hk := hc.gt_of_sorted hs (Nat.le_of_lt_succ hk) (by have := hb.le; omega) hm
  above := hb.above

end Bracket

/-- The entries `E 0, …, E (n - 1)` are in order for `R` exactly when every earlier one is
related to every later one. -/
theorem pairwise_map_range_iff {R : α → α → Prop} {E : Nat → α} {n : Nat} :
    ((List.range n).map E).Pairwise R ↔ ∀ i j, i < j → j < n → R (E i) (E j) := by
  rw [List.pairwise_map, List.pairwise_iff_getElem]
  constructor
  · intro hp i j hij hj
    have := hp i j (by simp; omega) (by simpa using hj) hij
    simpa using this
  · intro hp i j hi hj hij
    simp only [List.getElem_range]
    exact hp i j hij (by simpa using hj)

end Strcmp
