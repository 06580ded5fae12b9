import Mathlib.Order.Comparable
import Mathlib.Data.Finset.Filter
import Mathlib.Data.Finset.Dedup
import Mathlib.Data.Finset.Erase
import Mathlib.Data.Finset.Insert
import Mathlib.Data.List.Pairwise

/-!
# Finite sets modulo the equivalence of a strict weak order

Two elements that a strict weak order `lt` cannot tell apart (`IncompRel lt`) are
equivalent. A finite set in which no two elements are equivalent (`Reps`) holds at most
one representative of each class, so it is a finite set modulo the equivalence.

Its operations name an element `e` and act on the class of `e`. `insert` leaves the set
unchanged when it already has an element equivalent to `e`. `replace` puts `e` in place
of that element. `erase` removes it. A search may answer with an element equivalent to
`e`, or with nothing when there is none (`Found`); in a set of representatives, erasing
the class of a found `x` removes `x` alone (`Reps.erase_eq`).
-/

namespace WeakOrderSet

variable {α : Type*} (lt : α → α → Prop)

/-- No two elements of `S` are equivalent. -/
def Reps (S : Finset α) : Prop := ∀ x ∈ S, ∀ y ∈ S, IncompRel lt x y → x = y

/-- `o` answers a search for `e` in `S`: an element of `S` equivalent to `e`, or nothing
when `S` has no such element. -/
def Found (S : Finset α) (e : α) : Option α → Prop
  | none => ∀ x ∈ S, ¬IncompRel lt x e
  | some x => x ∈ S ∧ IncompRel lt x e

section Operations

variable [DecidableRel lt]

/-- Insert `e` unless `S` already has an element equivalent to it. -/
def insert [DecidableEq α] (S : Finset α) (e : α) : Finset α :=
  if ∃ x ∈ S, IncompRel lt x e then S else Insert.insert e S

/-- Remove the elements equivalent to `e`. -/
def erase (S : Finset α) (e : α) : Finset α := S.filter fun x => ¬IncompRel lt x e

/-- Put `e` in the place of the elements equivalent to it. -/
def replace [DecidableEq α] (S : Finset α) (e : α) : Finset α := Insert.insert e (erase lt S e)

end Operations

variable {lt} {S : Finset α} {e x y : α}

theorem incompRel_trans [IsStrictWeakOrder α lt] (h₁ : IncompRel lt x e)
    (h₂ : IncompRel lt e y) : IncompRel lt x y :=
  IsStrictWeakOrder.incomp_trans x e y h₁ h₂

/-- A list in which no two entries are equivalent lists a set of representatives. -/
theorem reps_toFinset [DecidableEq α] {l : List α}
    (h : l.Pairwise fun x y => ¬IncompRel lt x y) : Reps lt l.toFinset := by
  have : Std.Symm fun x y => ¬IncompRel lt x y := ⟨fun _ _ hxy hyx => hxy hyx.symm⟩
  intro x hx y hy hxy
  by_contra hne
  exact h.forall (List.mem_toFinset.mp hx) (List.mem_toFinset.mp hy) hne hxy

section Equivalence

variable [IsStrictWeakOrder α lt]

/-- In a set of representatives, at most one element is equivalent to `e`. -/
theorem Reps.eq_of_incompRel (h : Reps lt S) (hx : x ∈ S) (hy : y ∈ S)
    (hxe : IncompRel lt x e) (hye : IncompRel lt y e) : x = y :=
  h x hx y hy (incompRel_trans hxe hye.symm)

end Equivalence

section Operations

variable [DecidableRel lt]

@[simp] theorem mem_erase : x ∈ erase lt S e ↔ x ∈ S ∧ ¬IncompRel lt x e :=
  Finset.mem_filter

theorem insert_of_found_some [DecidableEq α] (h : Found lt S e (some x)) : insert lt S e = S :=
  if_pos ⟨x, h⟩

theorem insert_of_found_none [DecidableEq α] (h : Found lt S e none) : insert lt S e = Insert.insert e S :=
  if_neg fun ⟨x, hx, hxe⟩ => h x hx hxe

/-- With no representative of its class, erasing the class of `e` changes nothing. -/
theorem erase_of_found_none (h : Found lt S e none) : erase lt S e = S :=
  Finset.filter_true_of_mem fun y hy => h y hy

/-- Erasing the class of `e` removes its one representative `x`. -/
theorem Reps.erase_eq [DecidableEq α] [IsStrictWeakOrder α lt] (h : Reps lt S) (hx : Found lt S e (some x)) :
    WeakOrderSet.erase lt S e = S.erase x := by
  ext y
  rw [mem_erase, Finset.mem_erase]
  constructor
  · rintro ⟨hy, hye⟩
    exact ⟨fun hyx => hye (hyx ▸ hx.2), hy⟩
  · rintro ⟨hyx, hy⟩
    exact ⟨hy, fun hye => hyx (h.eq_of_incompRel hy hx.1 hye hx.2)⟩

end Operations

end WeakOrderSet
