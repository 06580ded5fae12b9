import Mathlib.Data.List.Sort
import Mathlib.Data.List.Destutter

/-!
# The sequences of `lib/kernel/list.c`

A `struct list` stands for the sequence of the elements between its head and
its tail. This module gives the operations of `list.c` that the kernel's
ordered lists use, on that sequence: `list_insert_ordered` is the loop of the
source, which stops at the first element the new one is `less` than.

Two facts carry the ordered lists of the kernel. Insertion keeps a list
`Pairwise` ordered when the order agrees with `less` (`pairwise_list_insert_ordered`),
and in such a list the elements that pass a test closed downwards form a prefix,
so a loop that pops the front while the test holds removes exactly them
(`takeWhile_eq_filter`).
-/

namespace Pintos.Lib

variable {α : Type*}

/-- `for (e = list_begin (list); e != list_end (list); e = list_next (e))
if (less (elem, e, aux)) break; list_insert (e, elem);` -/
def list_insert_ordered (less : α → α → Bool) (elem : α) : List α → List α
  | [] => [elem]
  | e :: l => if less elem e then elem :: e :: l else e :: list_insert_ordered less elem l

theorem list_insert_ordered_eq_orderedInsert (less : α → α → Bool) (elem : α) (l : List α) :
    list_insert_ordered less elem l = l.orderedInsert (fun a b => less a b = true) elem := by
  induction l with
  | nil => rfl
  | cons e l ih =>
    simp only [list_insert_ordered, List.orderedInsert, ih]

theorem mem_list_insert_ordered {less : α → α → Bool} {elem a : α} {l : List α} :
    a ∈ list_insert_ordered less elem l ↔ a = elem ∨ a ∈ l := by
  rw [list_insert_ordered_eq_orderedInsert, List.mem_orderedInsert]

/-- The loop stops at the first element `elem` is `less` than: `elem` goes after the
front run of those it is not `less` than. -/
theorem list_insert_ordered_eq_takeWhile (less : α → α → Bool) (elem : α) (l : List α) :
    list_insert_ordered less elem l =
      l.takeWhile (fun e => !less elem e) ++ elem :: l.dropWhile (fun e => !less elem e) := by
  induction l with
  | nil => rfl
  | cons e l ih =>
    cases h : less elem e
    · simp [list_insert_ordered, h, ih]
    · simp [list_insert_ordered, h]

/-- Insertion keeps a list ordered by `R` when `elem` is related to the elements
it stops before and the ones it passes are related to it, and `less elem` is
closed upwards along `R`. -/
theorem pairwise_list_insert_ordered {less : α → α → Bool} {R : α → α → Prop} {elem : α}
    {l : List α} (hl : l.Pairwise R) (hpass : ∀ a ∈ l, less elem a = false → R a elem)
    (hstop : ∀ a ∈ l, less elem a = true → R elem a)
    (hup : ∀ a b, R a b → less elem a = true → less elem b = true) :
    (list_insert_ordered less elem l).Pairwise R := by
  induction l with
  | nil => exact List.pairwise_singleton R elem
  | cons e l ih =>
    have he := List.pairwise_cons.mp hl
    simp only [list_insert_ordered]
    split
    case isTrue hless =>
      -- `elem` goes in front: it is below `e`, and so below everything after `e`
      refine List.Pairwise.cons (fun a ha => ?_) hl
      rcases List.mem_cons.mp ha with rfl | ha
      · exact hstop a List.mem_cons_self hless
      · exact hstop a (List.mem_cons_of_mem e ha) (hup e a (he.1 a ha) hless)
    case isFalse hless =>
      refine List.Pairwise.cons (fun a ha => ?_) (ih he.2
        (fun a ha => hpass a (List.mem_cons_of_mem e ha))
        (fun a ha => hstop a (List.mem_cons_of_mem e ha)))
      rcases mem_list_insert_ordered.mp ha with rfl | ha
      · exact hpass e List.mem_cons_self (Bool.of_not_eq_true hless)
      · exact he.1 a ha

/-- In a list ordered by `R`, a test that holds of `b` holds of everything `R`-below
`b`: the front run of elements that pass it are all the elements that do. -/
theorem takeWhile_eq_filter {R : α → α → Prop} {p : α → Bool} {l : List α}
    (hl : l.Pairwise R) (hdown : ∀ a b, R a b → p b = true → p a = true) :
    l.takeWhile p = l.filter p ∧ l.dropWhile p = l.filter (fun a => !p a) := by
  induction l with
  | nil => exact ⟨rfl, rfl⟩
  | cons e l ih =>
    have he := List.pairwise_cons.mp hl
    cases hp : p e
    case true =>
      obtain ⟨htake, hdrop⟩ := ih he.2
      simp [hp, htake, hdrop]
    case false =>
      -- the front fails, so everything after it fails too
      have hnone : ∀ a ∈ l, p a = false := fun a ha =>
        Bool.eq_false_iff.mpr fun hpa => by simp [hdown e a (he.1 a ha) hpa] at hp
      have hfilter : l.filter p = [] := List.filter_eq_nil_iff.mpr fun a ha => by simp [hnone a ha]
      have hkeep : l.filter (fun a => !p a) = l := List.filter_eq_self.mpr fun a ha => by
        simp [hnone a ha]
      simp [hp, hfilter, hkeep]

/-- The loop of `list_unique` from the element `elem` it keeps: each element after
it that is equal to it (neither is `less` than the other) is removed, and the first
one that is not is the next one kept. The elements kept, and those removed in order. -/
def unique_from (less : α → α → Bool) : α → List α → List α × List α
  | elem, [] => ([elem], [])
  | elem, next :: l =>
    if !less elem next && !less next elem then
      ((unique_from less elem l).1, next :: (unique_from less elem l).2)
    else
      (elem :: (unique_from less next l).1, (unique_from less next l).2)

/-- `list_unique` on the sequence: the elements kept and, in order, those removed. -/
def list_unique (less : α → α → Bool) : List α → List α × List α
  | [] => ([], [])
  | elem :: l => unique_from less elem l

theorem unique_from_fst (less : α → α → Bool) (elem : α) (l : List α) :
    (unique_from less elem l).1 = l.destutter' (fun a b => (less a b || less b a) = true) elem := by
  induction l generalizing elem with
  | nil => rfl
  | cons next l ih =>
    rw [List.destutter'_cons]
    cases h₁ : less elem next <;> cases h₂ : less next elem <;> simp [unique_from, h₁, h₂, ih]

/-- What `list_unique` keeps is what `List.destutter` keeps for the relation "one
is `less` than the other": the first of each run of adjacent equal elements. -/
theorem list_unique_fst (less : α → α → Bool) (l : List α) :
    (list_unique less l).1 = l.destutter (fun a b => (less a b || less b a) = true) := by
  cases l with
  | nil => rfl
  | cons elem l => exact unique_from_fst less elem l

/-- Nothing is lost: the kept and the removed elements are the elements of the list. -/
theorem unique_from_perm (less : α → α → Bool) (elem : α) (l : List α) :
    ((unique_from less elem l).1 ++ (unique_from less elem l).2).Perm (elem :: l) := by
  induction l generalizing elem with
  | nil => exact List.Perm.refl _
  | cons next l ih =>
    by_cases h : (!less elem next && !less next elem) = true
    · rw [unique_from, if_pos h]
      refine List.perm_middle.trans ?_
      exact ((ih elem).cons next).trans (List.Perm.swap elem next l)
    · rw [unique_from, if_neg h, List.cons_append]
      exact (ih next).cons elem

/-- What `list_unique` keeps and what it removes are, between them, the list. -/
theorem list_unique_perm (less : α → α → Bool) (l : List α) :
    ((list_unique less l).1 ++ (list_unique less l).2).Perm l := by
  cases l with
  | nil => exact List.Perm.refl _
  | cons elem l => exact unique_from_perm less elem l

/-- What a slot holds after `set`: the new value at the slot set, when it is in range,
and the old one elsewhere. -/
theorem getElem?_set_eq_some {l : List α} {i j : Nat} {a b : α} :
    (l.set i a)[j]? = some b ↔ j = i ∧ i < l.length ∧ a = b ∨ j ≠ i ∧ l[j]? = some b := by
  rw [List.getElem?_set]
  by_cases hij : i = j
  · subst hij
    by_cases hi : i < l.length
    · simp [hi]
    · simp [hi]
  · simp [hij, Ne.symm hij]

end Pintos.Lib
