import Mathlib.Data.Nat.Digits.Defs

/-!
# Digit separators

Positional notation with separators between groups of digits, as `printf`'s grouping flag
writes it: a separator between every `g` digits counted from the least significant one.
Over digits listed least significant first (as `Nat.digits` lists them), `groups g sep`
cuts the list into groups of `g` from its start and puts `sep` between them.

A printing loop that produces the digits least significant first and pushes `sep` before
each digit whose index satisfies a test writes `sepPush`; with the test "a positive
multiple of `g`" that is `groups g sep` (`sepPush_eq_groups`), and with a test that never
holds it is the digits alone (`sepPush_of_forall`).
-/

namespace Positional

variable {α : Type*}

/-- `l` with `sep` before each element whose index, counted from `k`, passes `p`. -/
def sepPush (p : Nat → Bool) (sep : α) : Nat → List α → List α
  | _, [] => []
  | k, a :: l => (if p k then [sep] else []) ++ a :: sepPush p sep (k + 1) l

/-- `l` cut into groups of `g` from its start, with `sep` between the groups. -/
def groups (g : Nat) (sep : α) (l : List α) : List α :=
  if _ : l.length ≤ g ∨ g = 0 then l else l.take g ++ sep :: groups g sep (l.drop g)
termination_by l.length
decreasing_by
  simp only [List.length_drop]
  omega

variable {p : Nat → Bool} {sep : α}

@[simp] theorem groups_nil (g : Nat) : groups g sep ([] : List α) = [] := by
  rw [groups]
  exact dif_pos (Or.inl (Nat.zero_le g))

theorem groups_of_lt {g : Nat} {l : List α} (hg : 0 < g) (h : g < l.length) :
    groups g sep l = l.take g ++ sep :: groups g sep (l.drop g) := by
  rw [groups, dif_neg (by omega)]

theorem sepPush_append (k : Nat) (l₁ l₂ : List α) :
    sepPush p sep k (l₁ ++ l₂) = sepPush p sep k l₁ ++ sepPush p sep (k + l₁.length) l₂ := by
  induction l₁ generalizing k with
  | nil => rfl
  | cons a l₁ ih =>
    simp only [List.cons_append, sepPush, ih, List.append_assoc, List.length_cons]
    rw [Nat.add_assoc, Nat.add_comm 1]

/-- Where the test fails at every index, no separator is pushed. -/
theorem sepPush_of_forall {k : Nat} {l : List α} (h : ∀ j < l.length, p (k + j) = false) :
    sepPush p sep k l = l := by
  induction l generalizing k with
  | nil => rfl
  | cons a l ih =>
    have hk : p k = false := by simpa using h 0 (Nat.succ_pos _)
    rw [sepPush, hk, if_neg Bool.false_ne_true, List.nil_append,
      ih fun j hj => by simpa [Nat.add_assoc, Nat.add_comm 1] using h (j + 1) (by simp; omega)]

/-- At most one separator per element. -/
theorem length_sepPush_le (k : Nat) (l : List α) : (sepPush p sep k l).length ≤ 2 * l.length := by
  induction l generalizing k with
  | nil => simp [sepPush]
  | cons a l ih =>
    have := ih (k + 1)
    simp only [sepPush, List.length_append, List.length_cons]
    split <;> simp <;> omega

theorem length_le_length_sepPush (k : Nat) (l : List α) : l.length ≤ (sepPush p sep k l).length := by
  induction l generalizing k with
  | nil => simp [sepPush]
  | cons a l ih =>
    have := ih (k + 1)
    simp only [sepPush, List.length_append, List.length_cons]
    omega

/-- The separator test of grouping by `g`. -/
def groupTest (g : Nat) (j : Nat) : Bool := decide (0 < j ∧ j % g = 0)

/-- At most one group's worth of digits from a multiple of `g` on takes a separator in
front only. -/
theorem sepPush_group_short {g k : Nat} (hk : k % g = 0) {a : α} {l : List α}
    (hl : l.length < g) :
    sepPush (groupTest g) sep k (a :: l) = (if 0 < k then [sep] else []) ++ a :: l := by
  have hrest : sepPush (groupTest g) sep (k + 1) l = l := by
    apply sepPush_of_forall
    intro j hj
    simp only [groupTest, decide_eq_false_iff_not, not_and]
    intro _
    rw [Nat.add_assoc, Nat.add_mod, hk, Nat.zero_add, Nat.mod_mod,
      Nat.mod_eq_of_lt (by omega : 1 + j < g)]
    omega
  rw [sepPush, hrest]
  congr 1
  simp [groupTest, hk]

/-- From a multiple of `g` on, pushing separators before every multiple of `g` writes the
groups, with a separator in front unless it starts at the first digit. -/
theorem sepPush_groups {g : Nat} (hg : 0 < g) (l : List α) :
    ∀ k, k % g = 0 → sepPush (groupTest g) sep k l =
      (if 0 < k ∧ l ≠ [] then [sep] else []) ++ groups g sep l := by
  induction l using groups.induct g with
  | case1 l hshort =>
    intro k hk
    rw [groups, dif_pos hshort]
    cases l with
    | nil => simp [sepPush]
    | cons a l =>
      rw [sepPush_group_short hk (by simp at hshort; omega)]
      simp
  | case2 l hlong ih =>
    intro k hk
    have hlen : g < l.length := by omega
    -- the first group, then the rest from `k + g`
    have hsplit : sepPush (groupTest g) sep k l =
        sepPush (groupTest g) sep k (l.take g) ++ sepPush (groupTest g) sep (k + g) (l.drop g) := by
      conv_lhs => rw [← List.take_append_drop g l]
      rw [sepPush_append, List.length_take_of_le (by omega)]
    have hfirst : sepPush (groupTest g) sep k (l.take g) = (if 0 < k then [sep] else []) ++ l.take g := by
      obtain ⟨a, t, ht⟩ : ∃ a t, l.take g = a :: t :=
        List.exists_cons_of_ne_nil (List.ne_nil_of_length_pos (by rw [List.length_take]; omega))
      have htlen : t.length < g := by
        have := congrArg List.length ht
        simp at this
        omega
      rw [ht, sepPush_group_short hk htlen]
    have hdrop : l.drop g ≠ [] := by simp; omega
    rw [hsplit, hfirst, ih (k + g) (by simp [hk]), groups_of_lt hg hlen,
      if_pos (show 0 < k + g ∧ l.drop g ≠ [] from ⟨by omega, hdrop⟩)]
    have hne : l ≠ [] := by
      rintro rfl
      simp at hlen
    by_cases hk0 : 0 < k <;> simp [hk0, hne]

/-- Pushing separators from the first digit on writes the groups. -/
theorem sepPush_eq_groups {g : Nat} (hg : 0 < g) (l : List α) :
    sepPush (groupTest g) sep 0 l = groups g sep l := by
  simpa using sepPush_groups hg l 0 (Nat.zero_mod g)

theorem length_le_length_groups {g : Nat} (hg : 0 < g) (l : List α) :
    l.length ≤ (groups g sep l).length := by
  rw [← sepPush_eq_groups hg]
  exact length_le_length_sepPush 0 l

end Positional
