import Pintos.Strcmp
import Pintos.BinaryHeap
import Mathlib.Data.Nat.Digits.Defs

/-!
# `atoi`, `sort`, `qsort`, `binary_search` and `bsearch` of `lib/stdlib.c`

`atoi` reads a string given as its characters, with `int` arithmetic in `Int32`. It
accumulates the digits negatively (`value * 10 - (*s - '0')`), so that a run of digits whose
signed value fits in `int`, `INT_MIN` included, never wraps (`atoi_digits_value`).

An array of `cnt` elements of `size` bytes is a byte map `array : Nat → UInt8` from the
array's first byte; element `k` (from 0) is the block of `size` bytes at `k * size`
(`elem`). `COMPARE` is a function of the two elements' bytes with a `strcmp`-style
result, and `aux` is left out. `size_t` arithmetic is `Nat`: no index or offset of an
array smaller than 2 GB reaches `SIZE_MAX`.

`sort` is heapsort over 1-based indices: `do_swap` exchanges two elements byte by byte,
which is an exchange of entries of the element view (`elem_do_swap`), and `heapify`
sifts element `i` down, which `BinaryHeap.SiftAt` describes with the code's element `i`
at heap position `i - 1`. `binary_search` narrows a range `[first, last)` of byte
offsets that stay multiples of `size` and hold every match.
-/

namespace Pintos.Lib

open scoped List
open BinaryHeap Strcmp

/-- The `size` bytes of `array` from byte `p` on. -/
def block (array : Nat → UInt8) (p size : Nat) : List UInt8 :=
  (List.range size).map fun j => array (p + j)

/-- Element `k`, counted from 0. -/
def elem (array : Nat → UInt8) (size k : Nat) : List UInt8 := block array (k * size) size

/-- `do_swap (array, a_idx, b_idx, size)`: `t = a[i]; a[i] = b[i]; b[i] = t` for each byte. -/
def do_swap (array : Nat → UInt8) (a_idx b_idx size : Nat) : Nat → UInt8 :=
  let a := (a_idx - 1) * size
  let b := (b_idx - 1) * size
  (List.range size).foldl (fun array i =>
    let t := array (a + i)
    Function.update (Function.update array (a + i) (array (b + i))) (b + i) t) array

/-- `do_compare (array, a_idx, b_idx, size, compare, aux)`. -/
def do_compare (array : Nat → UInt8) (a_idx b_idx size : Nat)
    (compare : List UInt8 → List UInt8 → Int) : Int :=
  compare (elem array size (a_idx - 1)) (elem array size (b_idx - 1))

/-- `max` in a pass of `heapify`: the largest of element `i` and its children. -/
def heap_max (array : Nat → UInt8) (i cnt size : Nat) (compare : List UInt8 → List UInt8 → Int) :
    Nat :=
  let left := 2 * i
  let right := 2 * i + 1
  let max := if left ≤ cnt ∧ do_compare array left i size compare > 0 then left else i
  if right ≤ cnt ∧ do_compare array right max size compare > 0 then right else max

theorem heap_max_cases (array : Nat → UInt8) (i cnt size : Nat)
    (compare : List UInt8 → List UInt8 → Int) :
    heap_max array i cnt size compare = i ∨
      heap_max array i cnt size compare = 2 * i ∧ 2 * i ≤ cnt ∨
      heap_max array i cnt size compare = 2 * i + 1 ∧ 2 * i + 1 ≤ cnt := by
  dsimp only [heap_max]
  split_ifs <;> omega

/-- `heapify (array, i, cnt, size, compare, aux)`: the `for (;;)` loop. -/
def heapify (array : Nat → UInt8) (i cnt size : Nat) (compare : List UInt8 → List UInt8 → Int) :
    Nat → UInt8 :=
  let max := heap_max array i cnt size compare
  if max = i then array
  else heapify (do_swap array i max size) max cnt size compare
termination_by cnt + 1 - i
decreasing_by
  have := heap_max_cases array i cnt size compare
  omega

/-- `for (i = cnt / 2; i > 0; i--) heapify (array, i, cnt, ...)`, from `i` down. -/
def build_heap (array : Nat → UInt8) (cnt size : Nat) (compare : List UInt8 → List UInt8 → Int) :
    Nat → Nat → UInt8
  | 0 => array
  | i + 1 => build_heap (heapify array (i + 1) cnt size compare) cnt size compare i

/-- `for (i = cnt; i > 1; i--) { do_swap (array, 1, i, size); heapify (array, 1, i - 1, ...); }`,
from `i` down. -/
def sort_heap (array : Nat → UInt8) (size : Nat) (compare : List UInt8 → List UInt8 → Int) :
    Nat → Nat → UInt8
  | 0 => array
  | 1 => array
  | i + 2 => sort_heap (heapify (do_swap array 1 (i + 2) size) 1 (i + 1) size compare) size compare
      (i + 1)

/-- `sort (array, cnt, size, compare, aux)`; `none` where `ASSERT (size > 0)` fails. -/
def sort (array : Nat → UInt8) (cnt size : Nat) (compare : List UInt8 → List UInt8 → Int) :
    Option (Nat → UInt8) :=
  if size > 0 then some (sort_heap (build_heap array cnt size compare (cnt / 2)) size compare cnt)
  else none

/-- `compare_thunk (a, b, aux)`, where `aux` points to `compare`. -/
def compare_thunk (compare : List UInt8 → List UInt8 → Int) (a b : List UInt8) : Int := compare a b

/-- `qsort (array, cnt, size, compare)`. -/
def qsort (array : Nat → UInt8) (cnt size : Nat) (compare : List UInt8 → List UInt8 → Int) :
    Option (Nat → UInt8) :=
  sort array cnt size (compare_thunk compare)

/-- The midpoint of a nonempty range lies in it. -/
theorem middle_lt {first last size : Nat} (h : first < last) (hs : 0 < size) :
    first + (last - first) / size / 2 * size < last := by
  have hq : (last - first) / size * size ≤ last - first := Nat.div_mul_le_self _ _
  rcases Nat.eq_zero_or_pos ((last - first) / size) with h0 | hpos
  · rw [h0]
    simpa using h
  · have hlt : (last - first) / size / 2 * size < (last - first) / size * size :=
      Nat.mul_lt_mul_of_pos_right (Nat.div_lt_self hpos (by decide)) hs
    omega

/-- The loop of `binary_search (key, array, cnt, size, compare, aux)` over the byte offsets
`[first, last)`. -/
def binary_search_loop (key : List UInt8) (array : Nat → UInt8) (size : Nat) (hs : 0 < size)
    (compare : List UInt8 → List UInt8 → Int) (first last : Nat) : Option Nat :=
  if _ : first < last then
    let range := (last - first) / size
    let middle := first + (range / 2) * size
    let cmp := compare key (block array middle size)
    if cmp < 0 then binary_search_loop key array size hs compare first middle
    else if cmp > 0 then binary_search_loop key array size hs compare (middle + size) last
    else some middle
  else none
termination_by last - first
decreasing_by
  · have := middle_lt ‹first < last› hs
    omega
  · omega

/-- `binary_search (key, array, cnt, size, compare, aux)`: the offset of a match, or `none`
for `NULL`. With `size = 0` the range is empty. -/
def binary_search (key : List UInt8) (array : Nat → UInt8) (cnt size : Nat)
    (compare : List UInt8 → List UInt8 → Int) : Option Nat :=
  if hs : 0 < size then binary_search_loop key array size hs compare 0 (size * cnt) else none

/-- `bsearch (key, array, cnt, size, compare)`. -/
def bsearch (key : List UInt8) (array : Nat → UInt8) (cnt size : Nat)
    (compare : List UInt8 → List UInt8 → Int) : Option Nat :=
  binary_search key array cnt size (compare_thunk compare)

/-! ## `do_swap` exchanges two elements -/

/-- The byte that `do_swap` moves to `x`: the blocks of `size` bytes at `a` and `b` trade
places. -/
def swap_blocks (a b size x : Nat) : Nat :=
  if a ≤ x ∧ x < a + size then b + (x - a) else if b ≤ x ∧ x < b + size then a + (x - b) else x

/-- A byte `d < size` into element `k` lies in element `m`'s block only for `m = k`. -/
theorem mem_block_iff {k m d size : Nat} (hd : d < size) :
    (m * size ≤ k * size + d ∧ k * size + d < m * size + size) ↔ k = m := by
  constructor
  · rintro ⟨h₁, h₂⟩
    rcases Nat.lt_trichotomy k m with hkm | rfl | hmk
    · have := Nat.mul_le_mul_right size (Nat.succ_le_of_lt hkm)
      rw [Nat.succ_mul] at this
      omega
    · rfl
    · have := Nat.mul_le_mul_right size (Nat.succ_le_of_lt hmk)
      rw [Nat.succ_mul] at this
      omega
  · rintro rfl
    omega

/-- Two elements' blocks are the same or apart. -/
theorem blocks_apart (i j size : Nat) :
    i * size + size ≤ j * size ∨ j * size + size ≤ i * size ∨ i * size = j * size := by
  rcases Nat.lt_trichotomy i j with hij | rfl | hji
  · have := Nat.mul_le_mul_right size (Nat.succ_le_of_lt hij)
    rw [Nat.succ_mul] at this
    exact Or.inl this
  · exact Or.inr (Or.inr rfl)
  · have := Nat.mul_le_mul_right size (Nat.succ_le_of_lt hji)
    rw [Nat.succ_mul] at this
    exact Or.inr (Or.inl this)

/-- After `k` rounds of `do_swap`'s loop the first `k` bytes of the two blocks have traded
places. -/
theorem do_swap_loop {a b size : Nat} (hab : a + size ≤ b ∨ b + size ≤ a ∨ a = b)
    (array : Nat → UInt8) :
    ∀ k ≤ size, (List.range k).foldl (fun array i =>
      let t := array (a + i)
      Function.update (Function.update array (a + i) (array (b + i))) (b + i) t) array =
      fun x => array (swap_blocks a b k x) := by
  intro k
  induction k with
  | zero =>
    intro _
    funext x
    simp only [List.range_zero, List.foldl_nil]
    congr 1
    unfold swap_blocks
    split_ifs <;> omega
  | succ k ih =>
    intro hk
    rw [List.range_succ, List.foldl_append, ih (by omega)]
    funext x
    simp only [List.foldl_cons, List.foldl_nil, Function.update_apply]
    split_ifs with hb ha <;> congr 1 <;> unfold swap_blocks <;> split_ifs <;> omega

theorem do_swap_eq (array : Nat → UInt8) (a_idx b_idx size : Nat) :
    do_swap array a_idx b_idx size =
      fun x => array (swap_blocks ((a_idx - 1) * size) ((b_idx - 1) * size) size x) :=
  do_swap_loop (blocks_apart _ _ _) array size (Nat.le_refl size)

theorem swap_blocks_elem {i j k d size : Nat} (hd : d < size) :
    swap_blocks (i * size) (j * size) size (k * size + d) = Equiv.swap i j k * size + d := by
  simp only [swap_blocks, mem_block_iff hd, Equiv.swap_apply_def]
  split_ifs <;> subst_vars <;> omega

/-- `do_swap` exchanges elements `a_idx` and `b_idx`, counted from 1. -/
theorem elem_do_swap (array : Nat → UInt8) (a_idx b_idx size : Nat) :
    elem (do_swap array a_idx b_idx size) size =
      elem array size ∘ Equiv.swap (a_idx - 1) (b_idx - 1) := by
  funext k
  simp only [elem, block, do_swap_eq, Function.comp_apply]
  apply List.map_congr_left
  intro d hd
  rw [swap_blocks_elem (List.mem_range.mp hd)]

/-- The bytes after element `cnt - 1` stay where they are. -/
theorem swap_blocks_of_ge {i j cnt size x : Nat} (hi : i < cnt) (hj : j < cnt)
    (hx : cnt * size ≤ x) : swap_blocks (i * size) (j * size) size x = x := by
  have hi' := Nat.mul_le_mul_right size (Nat.succ_le_of_lt hi)
  have hj' := Nat.mul_le_mul_right size (Nat.succ_le_of_lt hj)
  rw [Nat.succ_mul] at hi' hj'
  unfold swap_blocks
  split_ifs <;> omega

/-! ## Rearrangements -/

/-- `array'` holds the first `cnt` elements of `array` in some order, and every byte after
them as it was. -/
structure Rearranges (size cnt : Nat) (array array' : Nat → UInt8) : Prop where
  perm : (List.range cnt).map (elem array' size) ~ (List.range cnt).map (elem array size)
  frame : ∀ x, cnt * size ≤ x → array' x = array x

theorem elem_of_frame {size cnt k : Nat} {array array' : Nat → UInt8}
    (h : ∀ x, cnt * size ≤ x → array' x = array x) (hk : cnt ≤ k) :
    elem array' size k = elem array size k := by
  apply List.map_congr_left
  intro d _
  have := Nat.mul_le_mul_right size hk
  exact h _ (by omega)

namespace Rearranges

variable {size cnt : Nat} {array array' array'' : Nat → UInt8}

theorem refl (array : Nat → UInt8) : Rearranges size cnt array array :=
  ⟨List.Perm.refl _, fun _ _ => rfl⟩

theorem trans (h : Rearranges size cnt array array') (h' : Rearranges size cnt array' array'') :
    Rearranges size cnt array array'' :=
  ⟨h'.perm.trans h.perm, fun x hx => (h'.frame x hx).trans (h.frame x hx)⟩

/-- A rearrangement of a prefix is one of every longer prefix. -/
theorem mono {cnt' : Nat} (h : Rearranges size cnt array array') (hc : cnt ≤ cnt') :
    Rearranges size cnt' array array' where
  perm := perm_of_prefix hc h.perm fun _ hk => elem_of_frame h.frame hk
  frame x hx := h.frame x (Nat.le_trans (Nat.mul_le_mul_right size hc) hx)

theorem do_swap {a_idx b_idx : Nat} (ha : a_idx - 1 < cnt) (hb : b_idx - 1 < cnt)
    (array : Nat → UInt8) : Rearranges size cnt array (do_swap array a_idx b_idx size) where
  perm := by
    rw [elem_do_swap]
    exact perm_swap ha hb _
  frame x hx := by
    simp only [do_swap_eq, swap_blocks_of_ge ha hb hx]

end Rearranges

/-! ## `heapify` and `sort` -/

theorem heapify_of_max_eq {array : Nat → UInt8} {i cnt size : Nat}
    {compare : List UInt8 → List UInt8 → Int} (h : heap_max array i cnt size compare = i) :
    heapify array i cnt size compare = array := by
  rw [heapify]
  simp only [h, if_true]

theorem heapify_of_max_ne {array : Nat → UInt8} {i cnt size : Nat}
    {compare : List UInt8 → List UInt8 → Int} (h : heap_max array i cnt size compare ≠ i) :
    heapify array i cnt size compare =
      heapify (do_swap array i (heap_max array i cnt size compare) size)
        (heap_max array i cnt size compare) cnt size compare := by
  rw [heapify]
  simp only [h, if_false]

section Heap

variable {compare : List UInt8 → List UInt8 → Int} (hc : TotalPreorder compare)
include hc

/-- One comparison of `heapify`: the element it keeps is at least the one it held and the
candidate `c`. -/
theorem le_max_step (array : Nat → UInt8) (c cur cnt size : Nat) :
    let m := if c ≤ cnt ∧ do_compare array c cur size compare > 0 then c else cur
    compare (elem array size (cur - 1)) (elem array size (m - 1)) ≤ 0 ∧
      (c ≤ cnt → compare (elem array size (c - 1)) (elem array size (m - 1)) ≤ 0) := by
  intro m
  by_cases hm : c ≤ cnt ∧ do_compare array c cur size compare > 0
  · simp only [m, if_pos hm]
    exact ⟨hc.le_of_not_le (Int.not_le.mpr hm.2), fun _ => hc.le_refl _⟩
  · simp only [m, if_neg hm]
    refine ⟨hc.le_refl _, fun hcn => ?_⟩
    exact Int.not_lt.mp fun hlt => hm ⟨hcn, hlt⟩

/-- `heap_max` picks an element at least element `i` and each of its children, in heap
positions from 0. -/
theorem heap_max_spec (array : Nat → UInt8) {i : Nat} (hi : 0 < i) (cnt size : Nat) :
    compare (elem array size (i - 1))
        (elem array size (heap_max array i cnt size compare - 1)) ≤ 0 ∧
      ∀ c, IsChild c (i - 1) → c < cnt →
        compare (elem array size c) (elem array size (heap_max array i cnt size compare - 1)) ≤ 0 := by
  -- the left child is compared with `i`, the right one with the winner of that
  obtain ⟨hl₁, hl₂⟩ := le_max_step hc array (2 * i) i cnt size
  obtain ⟨hr₁, hr₂⟩ := le_max_step hc array (2 * i + 1)
    (if 2 * i ≤ cnt ∧ do_compare array (2 * i) i size compare > 0 then 2 * i else i) cnt size
  refine ⟨hc.le_trans _ _ _ hl₁ hr₁, fun c hcp hcn => ?_⟩
  unfold IsChild at hcp
  rcases (by omega : c = 2 * i - 1 ∨ c = 2 * i) with rfl | rfl
  · exact hc.le_trans _ _ _ (hl₂ (by omega)) hr₁
  · have hr := hr₂ (by omega)
    rwa [Nat.add_sub_cancel] at hr

/-- `heapify` from a place where the array is a heap from `start` but for element `i` ends
with a heap from `start`, having only rearranged the first `cnt` elements. -/
theorem heapify_spec {cnt size start : Nat} (array : Nat → UInt8) (i : Nat) (hi : 0 < i)
    (h : SiftAt (fun a b => compare a b ≤ 0) (elem array size) cnt start (i - 1)) :
    HeapFrom (fun a b => compare a b ≤ 0) (elem (heapify array i cnt size compare) size) cnt start ∧
      Rearranges size cnt array (heapify array i cnt size compare) := by
  induction array, i using heapify.induct cnt size compare with
  | case1 array i max hmax =>
    have hm : heap_max array i cnt size compare = i := hmax
    rw [heapify_of_max_eq hm]
    have hspec := (heap_max_spec hc array hi cnt size).2
    rw [hm] at hspec
    exact ⟨h.finish hspec, Rearranges.refl array⟩
  | case2 array i max hmax ih =>
    rw [heapify_of_max_ne hmax]
    obtain ⟨hjm, hchild⟩ := heap_max_spec hc array hi cnt size
    -- `max` is a child of `i` in the array
    have hcases := heap_max_cases array i cnt size compare
    have hm : IsChild (heap_max array i cnt size compare - 1) (i - 1) := by
      unfold IsChild
      omega
    have hmn : heap_max array i cnt size compare - 1 < cnt := by omega
    have hsift := h.swap hm hmn hjm hchild
    rw [← elem_do_swap] at hsift
    obtain ⟨hheap, hre⟩ := ih (by omega) hsift
    exact ⟨hheap, (Rearranges.do_swap (by omega) (by omega) array).trans hre⟩

/-- The first loop of `sort`, from element `i` down to element 1, makes a heap. -/
theorem build_heap_spec {cnt size : Nat} :
    ∀ (i : Nat) (array : Nat → UInt8),
      HeapFrom (fun a b => compare a b ≤ 0) (elem array size) cnt i →
      HeapFrom (fun a b => compare a b ≤ 0) (elem (build_heap array cnt size compare i) size) cnt 0 ∧
        Rearranges size cnt array (build_heap array cnt size compare i) := by
  intro i
  induction i with
  | zero =>
    intro array h
    exact ⟨h, Rearranges.refl array⟩
  | succ i ih =>
    intro array h
    obtain ⟨hheap, hre⟩ := heapify_spec hc array (i + 1)
      (Nat.succ_pos i) h.siftAt
    obtain ⟨hheap', hre'⟩ := ih _ hheap
    exact ⟨hheap', hre.trans hre'⟩

/-- The second loop of `sort`, from element `i` down to element 2, takes the heap's largest
element to the end of the heap and restores the heap on the rest. -/
theorem sort_heap_spec {cnt size : Nat} (array : Nat → UInt8) (i : Nat) (hi : i ≤ cnt)
    (h : SortInv (fun a b => compare a b ≤ 0) (elem array size) cnt i) :
    (∀ a b, a < b → b < cnt →
      compare (elem (sort_heap array size compare i) size a)
        (elem (sort_heap array size compare i) size b) ≤ 0) ∧
      Rearranges size cnt array (sort_heap array size compare i) := by
  have := hc.isTrans
  have := hc.total
  induction array, i using sort_heap.induct size compare with
  | case1 array => exact ⟨h.sorted_all (Nat.zero_le 1), Rearranges.refl array⟩
  | case2 array => exact ⟨h.sorted_all (Nat.le_refl 1), Rearranges.refl array⟩
  | case3 array i ih =>
    simp only [sort_heap]
    have hswap : elem (do_swap array 1 (i + 2) size) size =
        elem array size ∘ Equiv.swap 0 (i + 1) := elem_do_swap array 1 (i + 2) size
    -- the old root goes to the end and the new one is sifted down in `[0, i + 1)`
    have hsift : SiftAt (fun a b => compare a b ≤ 0) (elem (do_swap array 1 (i + 2) size) size)
        (i + 1) 0 0 := by
      rw [hswap]
      exact h.heap.siftAt_swap_root
    obtain ⟨hheap, hre⟩ := heapify_spec hc _ 1 Nat.one_pos hsift
    have hinv := h.step hheap (by rw [← hswap]; exact hre.perm) fun k hk => by
      rw [elem_of_frame hre.frame hk, hswap]
      rfl
    obtain ⟨hsorted, hre'⟩ := ih (by omega) hinv
    refine ⟨hsorted, ?_⟩
    exact ((Rearranges.do_swap (by omega) (by omega) array).trans (hre.mono (by omega))).trans hre'

/-- `sort` with `size > 0` and a comparison for a total preorder puts the first `cnt`
elements in nondecreasing order, as a permutation of what they were, and leaves every byte
after them; `qsort` is `sort` through `compare_thunk`. -/
theorem sort_permutes_into_order {size : Nat} (hs : 0 < size) (array : Nat → UInt8) (cnt : Nat) :
    (∃ array', sort array cnt size compare = some array' ∧
      (List.range cnt).map (elem array' size) ~ (List.range cnt).map (elem array size) ∧
      ((List.range cnt).map (elem array' size)).Pairwise (fun a b => compare a b ≤ 0) ∧
      ∀ x, cnt * size ≤ x → array' x = array x) ∧
    qsort array cnt size compare = sort array cnt size compare := by
  refine ⟨?_, rfl⟩
  obtain ⟨hheap, hre⟩ := build_heap_spec hc (cnt / 2) array
    (heapFrom_half : HeapFrom _ (elem array size) cnt (cnt / 2))
  obtain ⟨hsorted, hre'⟩ := sort_heap_spec hc _ cnt (Nat.le_refl cnt) hheap.sortInv
  have hall := hre.trans hre'
  exact ⟨_, if_pos hs, hall.perm, pairwise_map_range_iff.mpr hsorted, hall.frame⟩

end Heap

/-- `compare_ints` of `tests/internal/stdlib.c`, on elements of one byte. -/
def compare_bytes (a b : List UInt8) : Int :=
  if (a.headD 0).toNat < (b.headD 0).toNat then -1
  else if (a.headD 0).toNat > (b.headD 0).toNat then 1 else 0

theorem compare_bytes_total : TotalPreorder compare_bytes where
  neg_iff a b := by
    unfold compare_bytes
    split_ifs <;> omega
  le_trans a b c := by
    unfold compare_bytes
    split_ifs <;> omega

theorem sort_permutes_into_order_three :
    0 < 1 ∧ TotalPreorder compare_bytes ∧
      ((∃ array', sort (fun x => [2, 0, 1].getD x 0) 3 1 compare_bytes = some array' ∧
        (List.range 3).map (elem array' 1) ~
          (List.range 3).map (elem (fun x => [2, 0, 1].getD x 0) 1) ∧
        ((List.range 3).map (elem array' 1)).Pairwise (fun a b => compare_bytes a b ≤ 0) ∧
        ∀ x, 3 * 1 ≤ x → array' x = [2, 0, 1].getD x 0) ∧
      qsort (fun x => [2, 0, 1].getD x 0) 3 1 compare_bytes =
        sort (fun x => [2, 0, 1].getD x 0) 3 1 compare_bytes) :=
  ⟨Nat.one_pos, compare_bytes_total,
    sort_permutes_into_order compare_bytes_total Nat.one_pos (fun x => [2, 0, 1].getD x 0) 3⟩

/-! ## `binary_search` -/

section Search

variable {key : List UInt8} {array : Nat → UInt8} {size : Nat} (hs : 0 < size)
  {compare : List UInt8 → List UInt8 → Int}

/-- One round of `binary_search`'s loop over the elements `[f, l)`. -/
theorem binary_search_loop_eq (f l : Nat) :
    binary_search_loop key array size hs compare (f * size) (l * size) =
      if f < l then
        if compare key (elem array size (f + (l - f) / 2)) < 0 then
          binary_search_loop key array size hs compare (f * size) ((f + (l - f) / 2) * size)
        else if compare key (elem array size (f + (l - f) / 2)) > 0 then
          binary_search_loop key array size hs compare ((f + (l - f) / 2 + 1) * size) (l * size)
        else some ((f + (l - f) / 2) * size)
      else none := by
  have hlt : f * size < l * size ↔ f < l := Nat.mul_lt_mul_right hs
  have hrange : (l * size - f * size) / size = l - f := by
    rw [← Nat.sub_mul, Nat.mul_div_cancel _ hs]
  have hmid : f * size + (l - f) / 2 * size = (f + (l - f) / 2) * size :=
    (Nat.add_mul _ _ _).symm
  have hnext : (f + (l - f) / 2) * size + size = (f + (l - f) / 2 + 1) * size :=
    (Nat.succ_mul _ _).symm
  rw [binary_search_loop]
  simp only [hlt, hrange, hmid, hnext, dite_eq_ite]
  rfl

variable {cnt : Nat} (hc : TotalPreorder compare)
  (hsorted : ∀ i j, i < j → j < cnt → compare (elem array size i) (elem array size j) ≤ 0)
include hc hsorted

/-- Over a bracket of the matches of `key`, the loop answers a match, and `NULL` only where
there is none. The induction is on a bound of the bracket's length. -/
theorem binary_search_loop_spec :
    ∀ n f l, l - f < n → Bracket compare key (elem array size) cnt f l →
      (∀ p, binary_search_loop key array size hs compare (f * size) (l * size) = some p →
        ∃ k < cnt, p = k * size ∧ compare key (elem array size k) = 0) ∧
      (binary_search_loop key array size hs compare (f * size) (l * size) = none →
        ∀ k < cnt, compare key (elem array size k) ≠ 0) := by
  intro n
  induction n with
  | zero =>
    intro f l hn
    omega
  | succ n ih =>
    intro f l hn hb
    rw [binary_search_loop_eq hs]
    by_cases hfl : f < l
    · rw [if_pos hfl]
      have hml : f + (l - f) / 2 < l := by omega
      by_cases hlt : compare key (elem array size (f + (l - f) / 2)) < 0
      · rw [if_pos hlt]
        exact ih f _ (by omega) (hb.lower hc hsorted hml hlt)
      · rw [if_neg hlt]
        by_cases hgt : compare key (elem array size (f + (l - f) / 2)) > 0
        · rw [if_pos hgt]
          exact ih _ l (by omega) (hb.upper hc hsorted hml hgt)
        · -- the middle element matches
          rw [if_neg hgt]
          have hle := hb.le
          refine ⟨fun p hp => ⟨f + (l - f) / 2, by omega, (Option.some.inj hp).symm, by omega⟩,
            fun hnone => ?_⟩
          cases hnone
    · rw [if_neg hfl]
      refine ⟨fun p hp => ?_, fun _ => hb.no_match (by omega)⟩
      cases hp

end Search

/-- `binary_search` over an array of `size > 0` sorted by a comparison for a total preorder
answers the offset of an element that matches `key`, and `NULL` exactly when none does;
`bsearch` is `binary_search` through `compare_thunk`. -/
theorem binary_search_finds_match {key : List UInt8} {array : Nat → UInt8} {cnt size : Nat}
    {compare : List UInt8 → List UInt8 → Int} (hs : 0 < size) (hc : TotalPreorder compare)
    (hsorted : ((List.range cnt).map (elem array size)).Pairwise (fun a b => compare a b ≤ 0)) :
    (∀ p, binary_search key array cnt size compare = some p →
      ∃ k < cnt, p = k * size ∧ compare key (elem array size k) = 0) ∧
    (binary_search key array cnt size compare = none ↔
      ∀ k < cnt, compare key (elem array size k) ≠ 0) ∧
    bsearch key array cnt size compare = binary_search key array cnt size compare := by
  have hloop := binary_search_loop_spec hs hc (pairwise_map_range_iff.mp hsorted)
    (cnt + 1) 0 cnt (by omega)
    (Bracket.initial : Bracket compare key (elem array size) cnt 0 cnt)
  have heq : binary_search key array cnt size compare =
      binary_search_loop key array size hs compare (0 * size) (cnt * size) := by
    rw [binary_search, dif_pos hs, Nat.zero_mul, Nat.mul_comm]
  refine ⟨?_, ?_, rfl⟩
  · rw [heq]
    exact hloop.1
  · rw [heq]
    refine ⟨hloop.2, fun hnone => ?_⟩
    -- a match found would contradict `hnone`
    cases hr : binary_search_loop key array size hs compare (0 * size) (cnt * size) with
    | none => rfl
    | some p =>
      obtain ⟨k, hk, -, hk0⟩ := hloop.1 p hr
      exact absurd hk0 (hnone k hk)

theorem binary_search_finds_match_three :
    0 < 1 ∧ TotalPreorder compare_bytes ∧
      ((List.range 3).map (elem (fun x => [0, 1, 2].getD x 0) 1)).Pairwise
        (fun a b => compare_bytes a b ≤ 0) ∧
      ((∀ p, binary_search [1] (fun x => [0, 1, 2].getD x 0) 3 1 compare_bytes = some p →
        ∃ k < 3, p = k * 1 ∧ compare_bytes [1] (elem (fun x => [0, 1, 2].getD x 0) 1 k) = 0) ∧
      (binary_search [1] (fun x => [0, 1, 2].getD x 0) 3 1 compare_bytes = none ↔
        ∀ k < 3, compare_bytes [1] (elem (fun x => [0, 1, 2].getD x 0) 1 k) ≠ 0) ∧
      bsearch [1] (fun x => [0, 1, 2].getD x 0) 3 1 compare_bytes =
        binary_search [1] (fun x => [0, 1, 2].getD x 0) 3 1 compare_bytes) :=
  ⟨Nat.one_pos, compare_bytes_total, by decide,
    binary_search_finds_match Nat.one_pos compare_bytes_total (by decide)⟩

/-! ## `atoi` -/

/-- `isspace (c)` of `lib/ctype.h`: `' '`, `'\f'`, `'\n'`, `'\r'`, `'\t'` or `'\v'`. -/
def isspace (c : UInt8) : Bool := c == 32 || c == 12 || c == 10 || c == 13 || c == 9 || c == 11

/-- `isdigit (c)` of `lib/ctype.h`. -/
def isdigit (c : UInt8) : Bool := 48 ≤ c && c ≤ 57

/-- `while (isspace ((unsigned char) *s)) s++;` -/
def skip_space : List UInt8 → List UInt8
  | c :: s => if isspace c then skip_space s else c :: s
  | [] => []

/-- `for (value = 0; isdigit (*s); s++) value = value * 10 - (*s - '0');`, from `value`. -/
def atoi_digits (value : Int32) : List UInt8 → Int32
  | c :: s => if isdigit c then atoi_digits (value * 10 - (Int32.ofNat c.toNat - 48)) s else value
  | [] => value

/-- `atoi (s)`, over the characters from `s` on; past them the string reads as its
terminator. -/
def atoi (s : List UInt8) : Int32 :=
  let s := skip_space s
  -- the sign: `'+'` or `'-'`
  let (negative, s) : Bool × List UInt8 := match s with
    | c :: s' => if c = 43 then (false, s') else if c = 45 then (true, s') else (false, c :: s')
    | [] => (false, [])
  let value := atoi_digits 0 s
  if !negative then -value else value

/-- The number a run of decimal digit characters writes, most significant first. -/
def decimal_value (ds : List UInt8) : Nat := Nat.ofDigits 10 (ds.map fun c => c.toNat - 48).reverse

theorem decimal_value_cons (c : UInt8) (ds : List UInt8) :
    decimal_value (c :: ds) = decimal_value ds + 10 ^ ds.length * (c.toNat - 48) := by
  simp [decimal_value, Nat.ofDigits_append, Nat.ofDigits_singleton]

theorem skip_space_append {ws rest : List UInt8} (hws : ∀ c ∈ ws, isspace c = true)
    (hrest : ∀ c ∈ rest.head?, isspace c = false) : skip_space (ws ++ rest) = rest := by
  induction ws with
  | nil =>
    cases rest with
    | nil => rfl
    | cons c rest => simp [skip_space, hrest c rfl]
  | cons c ws ih =>
    rw [List.cons_append, skip_space, if_pos (hws c List.mem_cons_self)]
    exact ih fun c hc => hws c (List.mem_cons_of_mem _ hc)

/-- One round of `atoi`'s digit loop, in `int`, while the value stays in range. -/
theorem toInt_mul_ten_sub {value : Int32} {c : UInt8} (hc : isdigit c = true)
    (hlo : -2 ^ 31 ≤ value.toInt * 10 - (c.toNat - 48)) (hhi : value.toInt ≤ 0) :
    (value * 10 - (Int32.ofNat c.toNat - 48)).toInt = value.toInt * 10 - (c.toNat - 48) := by
  have hc' : 48 ≤ c.toNat ∧ c.toNat ≤ 57 := by
    simp [isdigit, UInt8.le_iff_toNat_le] at hc
    exact hc
  have h10 : (10 : Int32).toInt = 10 := by decide
  have h48 : (48 : Int32).toInt = 48 := by decide
  simp only [Int32.toInt_sub, Int32.toInt_mul, Int32.toInt_ofNat', Int32.size, h10, h48,
    Int.bmod_sub_bmod, Int.sub_bmod_bmod]
  exact Int.bmod_eq_of_le (by omega) (by omega)

/-- The digit loop of `atoi` over a run of digits followed by a non-digit, from a value
`-a`, ends at minus the number the digits continue `a` to, while that is at least
`INT_MIN`. The induction is on the run. -/
theorem atoi_digits_value {rest : List UInt8} (hrest : ∀ c ∈ rest.head?, isdigit c = false) :
    ∀ (ds : List UInt8) (value : Int32) (a : Nat), (∀ c ∈ ds, isdigit c = true) →
      value.toInt = -a → a * 10 ^ ds.length + decimal_value ds ≤ 2 ^ 31 →
      (atoi_digits value (ds ++ rest)).toInt = -((a * 10 ^ ds.length + decimal_value ds : Nat) : Int) := by
  intro ds
  induction ds with
  | nil =>
    intro value a _ hv _
    cases rest with
    | nil => simp [atoi_digits, hv, decimal_value]
    | cons c rest => simp [atoi_digits, hrest c rfl, hv, decimal_value]
  | cons c ds ih =>
    intro value a hds hv hfit
    have hc := hds c List.mem_cons_self
    have hd : c.toNat - 48 < 10 := by
      simp [isdigit, UInt8.le_iff_toNat_le] at hc
      omega
    have hd48 : 48 ≤ c.toNat := by
      simp [isdigit, UInt8.le_iff_toNat_le] at hc
      omega
    rw [decimal_value_cons] at hfit ⊢
    -- the digit moves into `a`: `a * 10 + d`, which is at most `2 ^ 31` as well
    have hpow : 1 ≤ 10 ^ ds.length := Nat.one_le_pow _ _ (by decide)
    have hstep : (a * 10 + (c.toNat - 48)) * 10 ^ ds.length + decimal_value ds =
        a * 10 ^ (ds.length + 1) + (decimal_value ds + 10 ^ ds.length * (c.toNat - 48)) := by
      rw [Nat.pow_succ]
      ring
    have hle : a * 10 + (c.toNat - 48) ≤ 2 ^ 31 := by
      have := Nat.le_mul_of_pos_right (a * 10 + (c.toNat - 48)) hpow
      rw [List.length_cons] at hfit
      omega
    have hval : (value * 10 - (Int32.ofNat c.toNat - 48)).toInt = -↑(a * 10 + (c.toNat - 48)) := by
      rw [toInt_mul_ten_sub hc (by rw [hv]; push_cast; omega) (by rw [hv]; omega), hv]
      push_cast
      omega
    rw [List.cons_append, atoi_digits, if_pos hc,
      ih _ _ (fun c hc => hds c (List.mem_cons_of_mem _ hc)) hval (by rw [List.length_cons] at hfit; omega),
      hstep, List.length_cons]

theorem toInt_neg_of_lt {v : Int32} (hlo : -2 ^ 31 < v.toInt) (hhi : v.toInt ≤ 0) :
    (-v).toInt = -v.toInt := by
  rw [Int32.toInt_neg]
  exact Int.bmod_eq_of_le (by omega) (by omega)

/-- Without a sign after the whitespace, `atoi` negates what the digit loop reads. -/
theorem atoi_of_unsigned {s t : List UInt8} (hs : skip_space s = t)
    (ht : ∀ c ∈ t.head?, c ≠ 43 ∧ c ≠ 45) : atoi s = -atoi_digits 0 t := by
  unfold atoi
  rw [hs]
  cases t with
  | nil => rfl
  | cons c t =>
    obtain ⟨h43, h45⟩ := ht c rfl
    simp [h43, h45]

theorem atoi_of_plus {s t : List UInt8} (hs : skip_space s = 43 :: t) :
    atoi s = -atoi_digits 0 t := by
  unfold atoi
  simp [hs]

theorem atoi_of_minus {s t : List UInt8} (hs : skip_space s = 45 :: t) :
    atoi s = atoi_digits 0 t := by
  unfold atoi
  simp [hs]

/-- `atoi` reads whitespace, an optional sign and a run of digits whose signed value fits in
`int`, and stops at the first non-digit after them. Each part is as long as it can be: what
follows the whitespace is not whitespace, and what follows no sign is not a sign. -/
theorem atoi_reads {ws sign ds rest : List UInt8} (hws : ∀ c ∈ ws, isspace c = true)
    (hsign : sign = [] ∨ sign = [43] ∨ sign = [45]) (hds : ∀ c ∈ ds, isdigit c = true)
    (hrest : ∀ c ∈ rest.head?, isdigit c = false)
    (hspace : ∀ c ∈ (sign ++ ds ++ rest).head?, isspace c = false)
    (hnosign : sign = [] → ∀ c ∈ (ds ++ rest).head?, c ≠ 43 ∧ c ≠ 45)
    (hfit : if sign = [45] then decimal_value ds ≤ 2 ^ 31 else decimal_value ds < 2 ^ 31) :
    (atoi (ws ++ sign ++ ds ++ rest)).toInt =
      if sign = [45] then -(decimal_value ds : Int) else decimal_value ds := by
  have hskip : skip_space (ws ++ sign ++ ds ++ rest) = sign ++ ds ++ rest := by
    rw [List.append_assoc, List.append_assoc, ← List.append_assoc sign]
    exact skip_space_append hws hspace
  have hle : decimal_value ds ≤ 2 ^ 31 := by split_ifs at hfit <;> omega
  -- the digit loop from 0 ends at minus the run's value
  have hdigits : (atoi_digits 0 (ds ++ rest)).toInt = -(decimal_value ds : Int) := by
    simpa using atoi_digits_value hrest ds 0 0 hds (by decide) (by simpa using hle)
  rcases hsign with rfl | rfl | rfl
  · have hpos : decimal_value ds < 2 ^ 31 := by simpa using hfit
    rw [atoi_of_unsigned (by simpa using hskip) (hnosign rfl),
      toInt_neg_of_lt (by omega) (by omega), hdigits]
    simp
  · have hpos : decimal_value ds < 2 ^ 31 := by simpa using hfit
    rw [atoi_of_plus (by simpa using hskip), toInt_neg_of_lt (by omega) (by omega), hdigits]
    simp
  · rw [atoi_of_minus (by simpa using hskip), hdigits]
    simp

end Pintos.Lib
