import Mathlib.Logic.Equiv.Basic
import Mathlib.Order.Defs.Unbundled
import Mathlib.Data.List.Perm.Basic
import Mathlib.Data.List.Nodup

/-!
# Binary heaps in an array, and heapsort

A binary heap on the entries `0, …, n - 1` of an array `A : Nat → α`: the children of `p`
are `2 p + 1` and `2 p + 2`, and every parent is at least its children for a relation `r`
(`r a b`: `a` is at most `b`) that is transitive and total.

A sift down from `i` moves an entry down by exchanges (`A ∘ Equiv.swap j m`). While it
goes, the array is a heap from `i` except at the moving entry's place `j`, whose children
are at most `j`'s parent (`SiftAt`): one exchange with the larger child moves that down
(`SiftAt.swap`), and where no child is larger the array is a heap from `i`
(`SiftAt.finish`).

Heapsort keeps a heap on `[0, m)` below a sorted run `[m, n)` (`SortInv`). Exchanging
the root, a largest entry, with entry `m - 1`, and sifting the new root down in
`[0, m - 1)`, makes the run one longer (`SortInv.step`). Exchanges permute the entries
(`perm_swap`).
-/

namespace BinaryHeap

open scoped List

variable {α : Type*} (r : α → α → Prop)

/-- `c` is a child of `p`. -/
def IsChild (c p : Nat) : Prop := 0 < c ∧ (c - 1) / 2 = p

theorem IsChild.lt {c p : Nat} (h : IsChild c p) : p < c := by
  unfold IsChild at h
  omega

/-- Every parent from `i` on is at least its children below `n`. -/
def HeapFrom (A : Nat → α) (n i : Nat) : Prop :=
  ∀ c p, IsChild c p → c < n → i ≤ p → r (A c) (A p)

/-- A heap from `i` except at `j`, whose children are at most `j`'s parent. -/
structure SiftAt (A : Nat → α) (n i j : Nat) : Prop where
  except : ∀ c p, IsChild c p → c < n → i ≤ p → p ≠ j → r (A c) (A p)
  grand : ∀ q, IsChild j q → i ≤ q → ∀ c, IsChild c j → c < n → r (A c) (A q)
  le : i ≤ j

/-- A heap on `[0, m)` below a run `[m, n)` that is sorted and at least every entry of the
heap. -/
structure SortInv (A : Nat → α) (n m : Nat) : Prop where
  heap : HeapFrom r A m 0
  sorted : ∀ a b, m ≤ a → a < b → b < n → r (A a) (A b)
  above : ∀ a b, a < m → m ≤ b → b < n → r (A a) (A b)

variable {r} {A : Nat → α} {n i j m : Nat}

/-- No parent from `n / 2` on has a child below `n`. -/
theorem heapFrom_half : HeapFrom r A n (n / 2) := by
  intro c p hc hcn hp
  unfold IsChild at hc
  omega

/-- A heap from `i + 1` is one from `i` except at `i`. -/
theorem HeapFrom.siftAt (h : HeapFrom r A n (i + 1)) : SiftAt r A n i i where
  except c p hc hcn hip hpi := h c p hc hcn (by omega)
  grand q hq hiq := absurd hq.lt (by omega)
  le := Nat.le_refl i

/-- Where no child of `j` is larger than `j`, the sift is over. -/
theorem SiftAt.finish (h : SiftAt r A n i j) (hmax : ∀ c, IsChild c j → c < n → r (A c) (A j)) :
    HeapFrom r A n i := by
  intro c p hc hcn hip
  by_cases hpj : p = j
  · subst hpj
    exact hmax c hc hcn
  · exact h.except c p hc hcn hip hpj

/-- Exchanging `j` with a child `m` that is at least `j` and its other children moves the
sift down to `m`. -/
theorem SiftAt.swap (h : SiftAt r A n i j) (hm : IsChild m j) (hmn : m < n)
    (hjm : r (A j) (A m)) (hmax : ∀ c, IsChild c j → c < n → r (A c) (A m)) :
    SiftAt r (A ∘ Equiv.swap j m) n i m := by
  have hjm_ne : j ≠ m := (Nat.ne_of_lt hm.lt)
  constructor
  · intro c p hc hcn hip hpm
    by_cases hpj : p = j
    · -- a child of `j`: `m`, which now holds `A j`, or its sibling
      subst hpj
      simp only [Function.comp_apply, Equiv.swap_apply_left]
      by_cases hcm : c = m
      · subst hcm
        rw [Equiv.swap_apply_right]
        exact hjm
      · rw [Equiv.swap_apply_of_ne_of_ne (Nat.ne_of_gt hc.lt) hcm]
        exact hmax c hc hcn
    · simp only [Function.comp_apply, Equiv.swap_apply_of_ne_of_ne hpj hpm]
      by_cases hcj : c = j
      · -- `j` itself, which now holds `A m`: `j`'s parent is at least `m`
        subst hcj
        rw [Equiv.swap_apply_left]
        exact h.grand p hc hip m hm hmn
      · have hcm : c ≠ m := fun hcm => hpj (by rw [← hm.2, ← hcm, hc.2])
        rw [Equiv.swap_apply_of_ne_of_ne hcj hcm]
        exact h.except c p hc hcn hip hpj
  · intro q hq _ c hc hcn
    have hqj : q = j := hq.2.symm.trans hm.2
    subst hqj
    have hcm := hc.lt
    have hqm := hm.lt
    simp only [Function.comp_apply, Equiv.swap_apply_left,
      Equiv.swap_apply_of_ne_of_ne (by omega : c ≠ q) (by omega : c ≠ m)]
    exact h.except c m hc hcn (by have := h.le; have := hm.lt; omega) (Ne.symm hjm_ne)
  · have := h.le
    have := hm.lt
    omega

/-- With the whole array a heap, the sorted run is empty. -/
theorem HeapFrom.sortInv (h : HeapFrom r A n 0) : SortInv r A n n where
  heap := h
  sorted _ b _ _ hb := absurd hb (by omega)
  above _ _ _ hb hbn := absurd hbn (by omega)

/-- Once the root has gone to `m`, the rest of the heap is one except at the root. -/
theorem HeapFrom.siftAt_swap_root (h : HeapFrom r A (m + 1) 0) :
    SiftAt r (A ∘ Equiv.swap 0 m) m 0 0 where
  except c p hc hcn _ hp0 := by
    have := hc.lt
    simp only [Function.comp_apply,
      Equiv.swap_apply_of_ne_of_ne (by omega : c ≠ 0) (by omega : c ≠ m),
      Equiv.swap_apply_of_ne_of_ne hp0 (by omega : p ≠ m)]
    exact h c p hc (by omega) (Nat.zero_le p)
  grand _ hq := absurd hq.1 (Nat.lt_irrefl 0)
  le := Nat.le_refl 0

/-- With at most one entry left in the heap, the whole array is sorted. -/
theorem SortInv.sorted_all (h : SortInv r A n m) (hm : m ≤ 1) :
    ∀ a b, a < b → b < n → r (A a) (A b) := by
  intro a b hab hb
  rcases Nat.eq_zero_or_pos a with rfl | ha
  · rcases Nat.eq_zero_or_pos m with rfl | hm0
    · exact h.sorted 0 b (Nat.le_refl 0) hab hb
    · exact h.above 0 b hm0 (by omega) hb
  · exact h.sorted a b (by omega) hab hb

section Order

variable [IsTrans α r] [Std.Total r]

omit [IsTrans α r] in
theorem refl_of_total (a : α) : r a a := (total_of r a a).elim id id

/-- The root of a heap is at least every entry. -/
theorem HeapFrom.le_root (h : HeapFrom r A n 0) : ∀ k < n, r (A k) (A 0) := by
  intro k
  induction k using Nat.strongRecOn with
  | ind k ih =>
    intro hk
    rcases Nat.eq_zero_or_pos k with rfl | hpos
    · exact refl_of_total _
    · -- `k`'s parent is at least `k`, and the root at least the parent
      have hc : IsChild k ((k - 1) / 2) := ⟨hpos, rfl⟩
      exact trans_of r (h k _ hc hk (Nat.zero_le _)) (ih _ hc.lt (by omega))

/-- Exchanging the root with `m` and sifting down in `[0, m)`, by any permutation of
`[0, m)` that leaves the rest, makes the sorted run one longer. -/
theorem SortInv.step (h : SortInv r A n (m + 1)) {B : Nat → α} (hheap : HeapFrom r B m 0)
    (hperm : (List.range m).map B ~ (List.range m).map (A ∘ Equiv.swap 0 m))
    (hframe : ∀ k, m ≤ k → B k = A (Equiv.swap 0 m k)) : SortInv r B n m where
  heap := hheap
  sorted a b ha hab hb := by
    rw [hframe a ha, hframe b (by omega),
      Equiv.swap_apply_of_ne_of_ne (by omega : b ≠ 0) (by omega : b ≠ m)]
    rcases Nat.lt_or_eq_of_le ha with ha | rfl
    · rw [Equiv.swap_apply_of_ne_of_ne (by omega : a ≠ 0) (by omega : a ≠ m)]
      exact h.sorted a b ha hab hb
    · -- the old root, now at `m`, is below the run
      rw [Equiv.swap_apply_right]
      exact h.above 0 b (by omega) hab hb
  above a b ha hb hbn := by
    -- `B a` was an entry of the heap
    have hmem : B a ∈ (List.range m).map (A ∘ Equiv.swap 0 m) :=
      hperm.subset (List.mem_map_of_mem (List.mem_range.mpr ha))
    obtain ⟨a', ha', heq⟩ := List.mem_map.mp hmem
    rw [List.mem_range] at ha'
    have hk : Equiv.swap 0 m a' < m + 1 := by
      simp only [Equiv.swap_apply_def]
      split_ifs <;> omega
    rw [← heq, Function.comp_apply, hframe b hb]
    rcases Nat.lt_or_eq_of_le hb with hb' | rfl
    · rw [Equiv.swap_apply_of_ne_of_ne (by omega : b ≠ 0) (by omega : b ≠ m)]
      exact h.above _ b hk (by omega) hbn
    · rw [Equiv.swap_apply_right]
      exact h.heap.le_root _ hk

end Order

/-- Exchanging two entries below `n` permutes the entries below `n`. -/
theorem perm_swap (hi : i < n) (hj : j < n) (A : Nat → α) :
    (List.range n).map (A ∘ Equiv.swap i j) ~ (List.range n).map A := by
  rw [← List.map_map]
  refine List.Perm.map A ((List.perm_ext_iff_of_nodup ?_ List.nodup_range).mpr fun k => ?_)
  · exact List.Nodup.map (Equiv.injective _) List.nodup_range
  · simp only [List.mem_map, List.mem_range]
    constructor
    · rintro ⟨k', hk', rfl⟩
      simp only [Equiv.swap_apply_def]
      split_ifs <;> omega
    · intro hk
      refine ⟨Equiv.swap i j k, ?_, Equiv.swap_apply_self i j k⟩
      simp only [Equiv.swap_apply_def]
      split_ifs <;> omega

/-- A permutation of the entries below `m` that leaves the others permutes the entries
below any `n ≥ m`. -/
theorem perm_of_prefix {B : Nat → α} (hmn : m ≤ n)
    (hp : (List.range m).map B ~ (List.range m).map A) (hf : ∀ k, m ≤ k → B k = A k) :
    (List.range n).map B ~ (List.range n).map A := by
  obtain ⟨d, rfl⟩ := Nat.exists_eq_add_of_le hmn
  rw [List.range_add, List.map_append, List.map_append, List.map_map, List.map_map]
  refine hp.append (List.Perm.of_eq (List.map_congr_left fun k _ => ?_))
  exact hf _ (Nat.le_add_right m k)

end BinaryHeap
