import Mathlib
import Pintos.StableMerge

/-!
# `list_sort`

`list_sort` of `lib/kernel/list.c` on the sequence a list stands for. It is a natural
merge sort done in place. Each pass of its outer `do … while` loop walks the list, cuts it
into runs with `find_end_of_run` and merges each pair of adjacent runs with
`inplace_merge`, which splices single elements of the second run in front of the first;
the loop stops after a pass that output at most one run. The pointer moves are followed
on the sequence: `list_splice` of one element moves it in the sequence
(`Pintos.Lib.ListLinks`).

The loop of `inplace_merge` is core's `List.merge` for the preorder "not `less` the other
way round", ties going to the first run (`inplace_merge_eq_merge`). A pass keeps the
elements tied with any `x` in their order (`sort_pass_ties`) and outputs at most half as
many runs as it reads, plus one (`two_mul_sort_pass_le`). For a strict weak order each
merge gives a run (`descents_sort_pass_le`), so the loop stops within `log₂ n + 2` passes
(`list_sort_stops`), with one run that is a stable permutation of the list.
-/

namespace Pintos.Lib

open StableMerge

variable {α : Type*}

section Model

variable (less : α → α → Bool)

/-- `is_sorted (a, b, less, aux)` on the range `a … b`: no element is `less` than the one
before it. -/
def is_sorted : List α → Bool
  | a :: b :: l => !less b a && is_sorted (b :: l)
  | _ => true

/-- `find_end_of_run (a, b, less, aux)` on the range whose first element is `a` and whose
other elements are `l`: the run that starts at `a`, each element not `less` than the one
before it, and the rest of the range, which starts at the returned end. -/
def find_end_of_run (a : α) : List α → List α × List α
  | [] => ([a], [])
  | b :: l =>
    if less b a then ([a], b :: l)
    else
      let r := find_end_of_run b l
      (a :: r.1, r.2)

/-- The loop of `inplace_merge (a0, a1b0, b1, less, aux)` on the runs `a0 … a1b0` and
`a1b0 … b1`: while both are nonempty, the front of the first run stays in place when the
front of the second is not `less` than it, and otherwise the front of the second is
spliced in before it. -/
def inplace_merge : List α → List α → List α
  | [], ys => ys
  | xs, [] => xs
  | x :: xs, y :: ys =>
    if !less y x then x :: inplace_merge xs (y :: ys)
    else y :: inplace_merge (x :: xs) ys
termination_by xs ys => xs.length + ys.length

theorem length_find_end_of_run_snd (a : α) (l : List α) :
    (find_end_of_run less a l).2.length ≤ l.length := by
  induction l generalizing a with
  | nil => simp [find_end_of_run]
  | cons b l ih =>
    rw [find_end_of_run]
    split
    · exact le_refl _
    · exact Nat.le_succ_of_le (ih b)

/-- One pass of the outer loop of `list_sort` over the elements from `a0` on: the list its
`for` loop leaves, and the number of runs it output (`output_run_cnt`). Each iteration cuts
off the run `a0 … a1b0`; when that run reaches the end of the list the loop stops, and
otherwise it cuts off the next run `a1b0 … b1`, merges the two and goes on from `b1`. -/
def sort_pass : List α → List α × Nat
  | [] => ([], 0)
  | a0 :: l =>
    match hrest : (find_end_of_run less a0 l).2 with
    | [] => ((find_end_of_run less a0 l).1, 1)
    | a1b0 :: l' =>
      let r := sort_pass (find_end_of_run less a1b0 l').2
      (inplace_merge less (find_end_of_run less a0 l).1 (find_end_of_run less a1b0 l').1 ++ r.1,
        r.2 + 1)
termination_by l => l.length
decreasing_by
  have h₁ := length_find_end_of_run_snd less a1b0 l'
  have h₂ := length_find_end_of_run_snd less a0 l
  rw [hrest] at h₂
  simp only [List.length_cons] at h₂ ⊢
  omega

/-- `list_sort (list, less, aux)`: its `do … while` loop run for at most `fuel` passes,
`none` when it has not stopped by then. A pass that output more than one run is followed
by another. -/
def list_sort : Nat → List α → Option (List α)
  | 0, _ => none
  | fuel + 1, l =>
    if 1 < (sort_pass less l).2 then list_sort fuel (sort_pass less l).1
    else some (sort_pass less l).1

end Model

section Runs

variable (less : α → α → Bool)

/-- `is_sorted` holds of the lists without descents. -/
theorem is_sorted_eq_true_iff (l : List α) : is_sorted less l = true ↔ descents less l = 0 := by
  induction l with
  | nil => simp [is_sorted]
  | cons a l ih =>
    cases l with
    | nil => simp [is_sorted]
    | cons b l =>
      rw [is_sorted, descents_cons_cons, Bool.and_eq_true, ih]
      cases less b a <;> simp

/-- The run and the rest are the range again. -/
@[simp] theorem find_end_of_run_append (a : α) (l : List α) :
    (find_end_of_run less a l).1 ++ (find_end_of_run less a l).2 = a :: l := by
  induction l generalizing a with
  | nil => rfl
  | cons b l ih =>
    rw [find_end_of_run]
    split
    · rfl
    · simp only [List.cons_append, ih b]

theorem find_end_of_run_fst_head (a : α) (l : List α) :
    ∃ t, (find_end_of_run less a l).1 = a :: t := by
  cases l with
  | nil => exact ⟨[], rfl⟩
  | cons b l =>
    rw [find_end_of_run]
    split
    · exact ⟨[], rfl⟩
    · exact ⟨_, rfl⟩

/-- The run that `find_end_of_run` cuts off has no descent. -/
theorem descents_find_end_of_run_fst (a : α) (l : List α) :
    descents less (find_end_of_run less a l).1 = 0 := by
  induction l generalizing a with
  | nil => rfl
  | cons b l ih =>
    rw [find_end_of_run]
    split
    case isTrue => rfl
    case isFalse hba =>
      -- the run from `b` goes on after `a`, which `b` is not below
      obtain ⟨t, ht⟩ := find_end_of_run_fst_head less b l
      dsimp only
      rw [ht, descents_cons_cons, ← ht, ih b, if_neg hba]

/-- The descents of a range are those of what is left after its first run, and one more
where that run ends, if anything is left. -/
theorem descents_find_end_of_run (a : α) (l : List α) :
    descents less (a :: l) =
      (if (find_end_of_run less a l).2 = [] then 0 else 1) +
        descents less (find_end_of_run less a l).2 := by
  induction l generalizing a with
  | nil => rfl
  | cons b l ih =>
    rw [find_end_of_run, descents_cons_cons]
    split
    case isTrue => simp
    case isFalse => simp [ih b]

example : find_end_of_run (fun a b : Nat => decide (a < b)) 1 [2, 2, 1, 3] = ([1, 2, 2], [1, 3]) :=
  rfl

end Runs

section Merge

variable (less : α → α → Bool)

/-- The loop of `inplace_merge` is the merge of core for the preorder "not `less` the
other way round": on a tie the element of the first run goes first. -/
theorem inplace_merge_eq_merge (xs ys : List α) :
    inplace_merge less xs ys = xs.merge ys fun a b => !less b a := by
  fun_induction inplace_merge less xs ys with
  | case1 ys => simp
  | case2 xs hxs => simp
  | case3 x xs y ys hyx ih => rw [List.cons_merge_cons, if_pos hyx, ih]
  | case4 x xs y ys hyx ih => rw [List.cons_merge_cons, if_neg hyx, ih]

variable [IsStrictWeakOrder α fun a b => less a b = true]

/-- A run is sorted for "not `less` the other way round". -/
theorem pairwise_of_run {l : List α} (h : descents less l = 0) :
    l.Pairwise fun a b => (!less b a) = true :=
  pairwise_of_descents_eq_zero (fun _ _ _ => not_less_trans) h

/-- Merging two runs gives a run. -/
theorem descents_inplace_merge {xs ys : List α} (hxs : descents less xs = 0)
    (hys : descents less ys = 0) : descents less (inplace_merge less xs ys) = 0 := by
  rw [inplace_merge_eq_merge]
  have hsorted := List.pairwise_merge (fun _ _ _ => not_less_trans)
    (fun a b => not_less_total a b) xs ys (pairwise_of_run less hxs) (pairwise_of_run less hys)
  exact (descents_eq_zero_iff less).mpr hsorted.isChain

/-- Merging runs keeps the elements tied with `x` in their order, those of the first run
first. -/
theorem ties_inplace_merge (x : α) {xs : List α} (hxs : descents less xs = 0) (ys : List α) :
    ties (fun a b => !less b a) x (inplace_merge less xs ys) =
      ties (fun a b => !less b a) x xs ++ ties (fun a b => !less b a) x ys := by
  rw [inplace_merge_eq_merge]
  exact ties_merge (fun _ _ _ => not_less_trans) x (pairwise_of_run less hxs)

end Merge

section Pass

variable (less : α → α → Bool)

@[simp] theorem sort_pass_nil : sort_pass less [] = ([], 0) := by
  rw [sort_pass]

/-- The iteration that finds its first run reaching the end of the list is the last. -/
theorem sort_pass_of_snd_eq_nil {a0 : α} {l : List α} (h : (find_end_of_run less a0 l).2 = []) :
    sort_pass less (a0 :: l) = ((find_end_of_run less a0 l).1, 1) := by
  rw [sort_pass]
  split
  · rfl
  · simp_all

/-- An iteration that finds a second run merges the two and goes on after it. -/
theorem sort_pass_of_snd_eq_cons {a0 a1b0 : α} {l l' : List α}
    (h : (find_end_of_run less a0 l).2 = a1b0 :: l') :
    sort_pass less (a0 :: l) =
      (inplace_merge less (find_end_of_run less a0 l).1 (find_end_of_run less a1b0 l').1 ++
        (sort_pass less (find_end_of_run less a1b0 l').2).1,
        (sort_pass less (find_end_of_run less a1b0 l').2).2 + 1) := by
  rw [sort_pass]
  split
  · simp_all
  · rename_i hrest
    rw [h, List.cons.injEq] at hrest
    obtain ⟨rfl, rfl⟩ := hrest
    rfl

/-- A pass over a nonempty list outputs a run. -/
theorem sort_pass_count_pos {l : List α} (hl : l ≠ []) : 0 < (sort_pass less l).2 := by
  obtain ⟨a0, l, rfl⟩ := List.exists_cons_of_ne_nil hl
  cases hrest : (find_end_of_run less a0 l).2 with
  | nil => rw [sort_pass_of_snd_eq_nil less hrest]; exact Nat.one_pos
  | cons a1b0 l' => rw [sort_pass_of_snd_eq_cons less hrest]; omega

/-- A pass outputs at most half as many runs as the list has, rounded up: each iteration
but the last consumes two runs, so two descents. -/
theorem two_mul_sort_pass_le (l : List α) : 2 * (sort_pass less l).2 ≤ descents less l + 2 := by
  induction l using sort_pass.induct less with
  | case1 => simp
  | case2 a0 l hrest => rw [sort_pass_of_snd_eq_nil less hrest]; omega
  | case3 a0 l a1b0 l' hrest ih =>
    rw [sort_pass_of_snd_eq_cons less hrest, descents_find_end_of_run less a0 l, hrest,
      descents_find_end_of_run less a1b0 l']
    by_cases hrest' : (find_end_of_run less a1b0 l').2 = []
    · -- the second run reaches the end: this is the last iteration
      rw [hrest', sort_pass_nil]
      simp
    · rw [if_neg hrest']
      simp only [List.cons_ne_nil, if_false]
      omega

variable [IsStrictWeakOrder α fun a b => less a b = true]

/-- Every element a pass outputs starts a run or is not `less` than the one before it, but
where one merged pair of runs meets the next. -/
theorem descents_sort_pass_le (l : List α) :
    descents less (sort_pass less l).1 ≤ (sort_pass less l).2 - 1 := by
  induction l using sort_pass.induct less with
  | case1 => simp
  | case2 a0 l hrest =>
    rw [sort_pass_of_snd_eq_nil less hrest, descents_find_end_of_run_fst]
    exact Nat.zero_le _
  | case3 a0 l a1b0 l' hrest ih =>
    rw [sort_pass_of_snd_eq_cons less hrest]
    have hmerge := descents_inplace_merge less (descents_find_end_of_run_fst less a0 l)
      (descents_find_end_of_run_fst less a1b0 l')
    by_cases hrest' : (find_end_of_run less a1b0 l').2 = []
    · rw [hrest', sort_pass_nil, List.append_nil, hmerge]
      exact Nat.zero_le _
    · have hpos := sort_pass_count_pos less hrest'
      have happ := descents_append_le less
        (inplace_merge less (find_end_of_run less a0 l).1 (find_end_of_run less a1b0 l').1)
        (sort_pass less (find_end_of_run less a1b0 l').2).1
      dsimp only
      omega

/-- A pass keeps the elements tied with `x` in their order. -/
theorem sort_pass_ties (x : α) (l : List α) :
    ties (fun a b => !less b a) x (sort_pass less l).1 = ties (fun a b => !less b a) x l := by
  induction l using sort_pass.induct less with
  | case1 => simp
  | case2 a0 l hrest =>
    rw [sort_pass_of_snd_eq_nil less hrest]
    conv_rhs => rw [← find_end_of_run_append less a0 l, hrest, List.append_nil]
  | case3 a0 l a1b0 l' hrest ih =>
    rw [sort_pass_of_snd_eq_cons less hrest, ties_append,
      ties_inplace_merge less x (descents_find_end_of_run_fst less a0 l), ih]
    -- the list is the first run, the second run and what follows
    conv_rhs => rw [← find_end_of_run_append less a0 l, hrest,
      ← find_end_of_run_append less a1b0 l']
    simp only [ties_append, List.append_assoc]

end Pass

section Loop

variable (less : α → α → Bool)

/-- More fuel does not change what a loop that has stopped returns. -/
theorem list_sort_add_fuel {fuel : Nat} {l out : List α} (h : list_sort less fuel l = some out)
    (k : Nat) : list_sort less (fuel + k) l = some out := by
  induction fuel generalizing l with
  | zero => simp [list_sort] at h
  | succ fuel ih =>
    rw [Nat.add_right_comm, list_sort]
    rw [list_sort] at h
    split at h
    case isTrue hmore => rw [if_pos hmore]; exact ih h
    case isFalse hlast => rw [if_neg hlast]; exact h

variable [IsStrictWeakOrder α fun a b => less a b = true]

/-- The loop stops within `k + 1` passes when the list has fewer than `2 ^ k` descents: a
pass that another one follows leaves at most half of them. -/
theorem list_sort_stops (k : Nat) (l : List α) (hl : descents less l < 2 ^ k) :
    ∃ out, list_sort less (k + 1) l = some out := by
  induction k generalizing l with
  | zero =>
    -- no descent: the pass outputs at most one run
    have hcount := two_mul_sort_pass_le less l
    rw [Nat.pow_zero] at hl
    rw [list_sort, if_neg (by omega)]
    exact ⟨_, rfl⟩
  | succ k ih =>
    rw [list_sort]
    split
    case isTrue hmore =>
      apply ih
      have hout := descents_sort_pass_le less l
      have hcount := two_mul_sort_pass_le less l
      rw [Nat.pow_succ] at hl
      omega
    case isFalse => exact ⟨_, rfl⟩

/-- What the loop returns once it stops passes the final `ASSERT (is_sorted (…))` of
`list_sort`, and holds the elements tied with any `x` in their order in the list. -/
theorem list_sort_spec {fuel : Nat} {l out : List α} (h : list_sort less fuel l = some out) :
    is_sorted less out = true ∧
      ∀ x, ties (fun a b => !less b a) x out = ties (fun a b => !less b a) x l := by
  induction fuel generalizing l with
  | zero => simp [list_sort] at h
  | succ fuel ih =>
    rw [list_sort] at h
    split at h
    case isTrue =>
      obtain ⟨hsorted, hties⟩ := ih h
      exact ⟨hsorted, fun x => (hties x).trans (sort_pass_ties less x l)⟩
    case isFalse hlast =>
      -- the last pass output at most one run
      cases h
      have hout := descents_sort_pass_le less l
      exact ⟨(is_sorted_eq_true_iff less _).mpr (by omega), fun x => sort_pass_ties less x l⟩

theorem list_sort_stable_sort (l : List α) :
    ∃ out, (∀ fuel, Nat.log 2 l.length + 2 ≤ fuel → list_sort less fuel l = some out) ∧
      out.Perm l ∧ out.IsChain (fun a b => (!less b a) = true) ∧
      ∀ x, out.filter (fun y => !less y x && !less x y) =
        l.filter (fun y => !less y x && !less x y) := by
  -- a list of `n` elements has fewer than `2 ^ (log₂ n + 1)` descents
  have hlt : descents less l < 2 ^ (Nat.log 2 l.length + 1) :=
    lt_of_le_of_lt (descents_le_length less l) (Nat.lt_pow_succ_log_self (by decide) _)
  obtain ⟨out, hout⟩ := list_sort_stops less _ l hlt
  obtain ⟨hsorted, hties⟩ := list_sort_spec less hout
  refine ⟨out, fun fuel hfuel => ?_, perm_of_ties not_less_refl hties,
    (descents_eq_zero_iff less).mp ((is_sorted_eq_true_iff less out).mp hsorted), hties⟩
  obtain ⟨k, rfl⟩ := Nat.exists_eq_add_of_le hfuel
  exact list_sort_add_fuel less hout k

theorem list_sort_stable_sort_nat :
    ∃ out, (∀ fuel, Nat.log 2 [3, 1, 2].length + 2 ≤ fuel →
        list_sort (fun a b : Nat => decide (a < b)) fuel [3, 1, 2] = some out) ∧
      out.Perm [3, 1, 2] ∧ out.IsChain (fun a b => (!decide (b < a)) = true) ∧
      ∀ x, out.filter (fun y => !decide (y < x) && !decide (x < y)) =
        [3, 1, 2].filter (fun y => !decide (y < x) && !decide (x < y)) :=
  @list_sort_stable_sort Nat (fun a b => decide (a < b))
    { irrefl := fun a => by simp
      trans := fun a b c => by simp only [decide_eq_true_eq]; exact Nat.lt_trans
      incomp_trans := fun a b c => by simp only [decide_eq_true_eq]; omega } [3, 1, 2]

end Loop

end Pintos.Lib
