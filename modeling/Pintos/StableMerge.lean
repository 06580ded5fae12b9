import Mathlib.Data.List.Chain
import Mathlib.Order.Defs.Unbundled

/-!
# Stable merging

What makes a merge sort stable, for a total preorder `le` given as a test. Stability is
stated through `ties le x l`: the elements of `l` that tie with `x` (each is `le` the
other), in their order in `l`. A sort is stable when it keeps `ties le x` for every `x`.

Merging keeps the ties of its two inputs, those of the left input first (`ties_merge`),
and a list that keeps every tie of another is a permutation of it (`perm_of_ties`). The
preorder comes from a strict weak order `less` as "not `less` the other way round", which
is transitive and total (`not_less_trans`, `not_less_total`). A list in which no element
is `less` than the one before it is a run; `descents` counts where runs end.
-/

namespace StableMerge

variable {α : Type*}

section Ties

variable (le : α → α → Bool)

/-- The elements of `l` that tie with `x` under `le`, in their order in `l`. -/
def ties (x : α) (l : List α) : List α := l.filter fun y => le x y && le y x

@[simp] theorem ties_nil (x : α) : ties le x [] = [] := rfl

@[simp] theorem ties_append (x : α) (l₁ l₂ : List α) :
    ties le x (l₁ ++ l₂) = ties le x l₁ ++ ties le x l₂ :=
  List.filter_append ..

variable {le}

/-- A list below an element tied with `x` holds nothing tied with `x` but what is also
below it: in particular nothing tied with `x` when its head is not below that element. -/
theorem ties_eq_nil_of_not_le (trans : ∀ a b c, le a b → le b c → le a c) {x y a : α}
    {l : List α} (hl : (a :: l).Pairwise (fun a b => le a b)) (hxy : le x y = true)
    (hay : le a y = false) : ties le x (a :: l) = [] := by
  refine List.filter_eq_nil_iff.mpr fun z hz htie => ?_
  obtain ⟨-, hzx⟩ := Bool.and_eq_true_iff.mp htie
  -- `a` is below `z`, which is below `x`, which is below `y`
  have hax : le a x = true := by
    rcases List.mem_cons.mp hz with rfl | hz
    · exact hzx
    · exact trans _ _ _ (List.rel_of_pairwise_cons hl hz) hzx
  have := trans _ _ _ hax hxy
  simp [hay] at this

/-- Merging keeps the ties of its inputs, those of the left one first. Only the left input
need be sorted: an element of the right one overtakes a tied element of the left one only
when the front of the left input is above it, and the front is below the tied element. -/
theorem ties_merge (trans : ∀ a b c, le a b → le b c → le a c) (x : α) {xs ys : List α}
    (hxs : xs.Pairwise (fun a b => le a b)) :
    ties le x (xs.merge ys le) = ties le x xs ++ ties le x ys := by
  induction xs generalizing ys with
  | nil => simp
  | cons a xs ih =>
    induction ys with
    | nil => simp
    | cons y ys ihy =>
      rw [List.cons_merge_cons]
      by_cases hay : le a y = true
      · -- the front of the left input goes first
        rw [if_pos hay]
        simp only [ties, List.filter_cons] at ih ⊢
        rw [ih (List.pairwise_cons.mp hxs).2]
        split <;> simp [List.filter_cons]
      · -- `y` overtakes the whole left input, which then holds nothing tied with `y`
        rw [if_neg hay]
        rw [Bool.not_eq_true] at hay
        simp only [ties] at ihy ⊢
        rw [List.filter_cons, ihy]
        by_cases htie : (le x y && le y x) = true
        · have hnil := ties_eq_nil_of_not_le trans hxs (Bool.and_eq_true_iff.mp htie).1 hay
          simp only [ties] at hnil
          simp [htie, hnil]
        · simp [htie, List.filter_cons]

/-- A list that keeps the ties of another with every element is a permutation of it, as
each element ties with itself. -/
theorem perm_of_ties (refl : ∀ a, le a a) {l l' : List α} (h : ∀ x, ties le x l' = ties le x l) :
    l'.Perm l := by
  classical
  refine List.perm_iff_count.mpr fun a => ?_
  have hcount := congrArg (List.count a) (h a)
  have hself : (le a a && le a a) = true := by simp [refl a]
  have hl : (l.filter fun y => le a y && le y a).count a = l.count a := List.count_filter hself
  have hl' : (l'.filter fun y => le a y && le y a).count a = l'.count a := List.count_filter hself
  rwa [ties, ties, hl, hl'] at hcount

end Ties

section StrictWeakOrder

variable {less : α → α → Bool} [IsStrictWeakOrder α fun a b => less a b = true]

/-- "Not `less` the other way round" is transitive: with `c` below `a`, the element `b`
would be incomparable with both, which a strict weak order forbids. -/
theorem not_less_trans {a b c : α} (hab : (!less b a) = true) (hbc : (!less c b) = true) :
    (!less c a) = true := by
  simp only [Bool.not_eq_true'] at hab hbc ⊢
  by_contra hca
  rw [Bool.not_eq_false] at hca
  have hba : ¬less a b = true := fun h => by
    simp [IsTrans.trans (r := fun a b => less a b = true) _ _ _ hca h] at hbc
  have hcb : ¬less b c = true := fun h => by
    simp [IsTrans.trans (r := fun a b => less a b = true) _ _ _ h hca] at hab
  have hinc := @IsStrictWeakOrder.incomp_trans _ (fun a b => less a b = true) _ c b a
    ⟨by simp [hbc], hcb⟩ ⟨by simp [hab], hba⟩
  exact hinc.1 hca

theorem not_less_refl (a : α) : (!less a a) = true := by
  simpa using Std.Irrefl.irrefl (r := fun a b => less a b = true) a

/-- Of two elements, at least one is not `less` than the other. -/
theorem not_less_total (a b : α) : ((!less b a) || (!less a b)) = true := by
  by_contra h
  simp only [Bool.or_eq_true, Bool.not_eq_true', not_or, Bool.not_eq_false] at h
  exact Std.Irrefl.irrefl (r := fun a b => less a b = true) a
    (IsTrans.trans (r := fun a b => less a b = true) _ _ _ h.2 h.1)

end StrictWeakOrder

section Descents

variable (lt : α → α → Bool)

/-- The number of neighbours in `l` whose second is `lt` its first: the places where a run
of `l` ends and the next one begins. -/
def descents : List α → Nat
  | a :: b :: l => (if lt b a then 1 else 0) + descents (b :: l)
  | _ => 0

@[simp] theorem descents_nil : descents lt [] = 0 := rfl

@[simp] theorem descents_singleton (a : α) : descents lt [a] = 0 := rfl

theorem descents_cons_cons (a b : α) (l : List α) :
    descents lt (a :: b :: l) = (if lt b a then 1 else 0) + descents lt (b :: l) := rfl

/-- A list without descents is one run: no element is `lt` the one before it. -/
theorem descents_eq_zero_iff {l : List α} :
    descents lt l = 0 ↔ l.IsChain fun a b => (!lt b a) = true := by
  induction l with
  | nil => simp
  | cons a l ih =>
    cases l with
    | nil => simp
    | cons b l =>
      rw [descents_cons_cons, List.isChain_cons_cons, ← ih]
      cases lt b a <;> simp

variable {lt} in
/-- A run is sorted for "not `lt` the other way round" when that is transitive. -/
theorem pairwise_of_descents_eq_zero
    (trans : ∀ a b c, (!lt b a) = true → (!lt c b) = true → (!lt c a) = true) {l : List α}
    (h : descents lt l = 0) : l.Pairwise fun a b => (!lt b a) = true := by
  have : Trans (fun a b => (!lt b a) = true) (fun a b => (!lt b a) = true)
      (fun a b => (!lt b a) = true) := ⟨fun h₁ h₂ => trans _ _ _ h₁ h₂⟩
  exact ((descents_eq_zero_iff lt).mp h).pairwise

theorem descents_le_length (l : List α) : descents lt l ≤ l.length := by
  induction l with
  | nil => simp
  | cons a l ih =>
    cases l with
    | nil => simp
    | cons b l =>
      rw [descents_cons_cons, List.length_cons]
      split <;> omega

/-- Joining two lists adds at most the one descent where they meet. -/
theorem descents_append_le (l₁ l₂ : List α) :
    descents lt (l₁ ++ l₂) ≤ descents lt l₁ + 1 + descents lt l₂ := by
  induction l₁ with
  | nil => simp
  | cons a l₁ ih =>
    cases l₁ with
    | nil =>
      cases l₂ with
      | nil => simp
      | cons b l₂ =>
        rw [List.singleton_append, descents_cons_cons]
        split <;> simp
    | cons b l₁ =>
      rw [List.cons_append, List.cons_append, descents_cons_cons, descents_cons_cons,
        ← List.cons_append]
      omega

end Descents

end StableMerge
