import Mathlib.Logic.Function.Basic
import Mathlib.Tactic.SplitIfs

/-!
# Ring buffers

A buffer of `n` slots with a write index `head` and a read index `tail`, both below `n`,
that go round at `n`. It holds the `count n head tail` slots from `tail` up to `head`,
oldest first (`contents`), and keeps one slot free to tell a full buffer from an empty
one. Writing at `head` and moving it on appends to the contents (`contents_push`);
moving `tail` on takes the oldest element off (`contents_pop`).

Every index is a sum below `2 * n`, which goes round at most once (`mod_eq_ite`); the
lemmas rewrite with it and leave the rest to `omega`.
-/

namespace RingBuffer

variable {α : Type*}

/-- A sum below `2 * n` goes round at most once. -/
theorem mod_eq_ite {a n : Nat} (h : a < 2 * n) : a % n = if a < n then a else a - n := by
  split_ifs with ha
  · exact Nat.mod_eq_of_lt ha
  · rw [Nat.mod_eq_sub_mod (by omega), Nat.mod_eq_of_lt (by omega)]

/-- The next index goes round to 0 at `n`. -/
theorem succ_mod_eq_ite {a n : Nat} (h : a < n) : (a + 1) % n = if a + 1 < n then a + 1 else 0 := by
  rw [mod_eq_ite (by omega)]
  split_ifs <;> omega

variable (n : Nat)

/-- The `c` slots of `buf` from `tail` on, going round at `n`. -/
def window (buf : Nat → α) (tail : Nat) : Nat → List α
  | 0 => []
  | c + 1 => window buf tail c ++ [buf ((tail + c) % n)]

/-- The number of slots from `tail` up to `head`. -/
def count (head tail : Nat) : Nat := (head + n - tail) % n

/-- The elements in the buffer, oldest first. -/
def contents (buf : Nat → α) (head tail : Nat) : List α := window n buf tail (count n head tail)

variable {n} {buf : Nat → α} {head tail : Nat}

@[simp] theorem length_window (tail c : Nat) : (window n buf tail c).length = c := by
  induction c with
  | zero => rfl
  | succ c ih => simp [window, ih]

@[simp] theorem length_contents : (contents n buf head tail).length = count n head tail :=
  length_window _ _

/-- Writing a slot outside the window leaves it as it was. -/
theorem window_update_of_ne {i : Nat} {b : α} {c : Nat} (h : ∀ k < c, (tail + k) % n ≠ i) :
    window n (Function.update buf i b) tail c = window n buf tail c := by
  induction c with
  | zero => rfl
  | succ c ih =>
    simp only [window]
    rw [ih fun k hk => h k (by omega), Function.update_of_ne (h c (by omega))]

/-- The window starts with the slot at `tail`, and the rest is the window from the next
slot. -/
theorem window_succ (tail c : Nat) :
    window n buf tail (c + 1) = buf (tail % n) :: window n buf ((tail + 1) % n) c := by
  induction c with
  | zero => simp [window]
  | succ c ih =>
    rw [window, ih, window, List.cons_append, Nat.mod_add_mod,
      show tail + 1 + c = tail + (c + 1) by omega]

section Indices

variable (hh : head < n) (ht : tail < n)
include hh ht

omit hh in
theorem count_lt : count n head tail < n := Nat.mod_lt _ (by omega)

/-- Unless the buffer is full, a write makes it one longer. -/
theorem count_push (hfull : (head + 1) % n ≠ tail) :
    count n ((head + 1) % n) tail = count n head tail + 1 := by
  unfold count
  rw [succ_mod_eq_ite hh] at hfull ⊢
  split_ifs at hfull ⊢
  · rw [mod_eq_ite (by omega), mod_eq_ite (by omega)]
    split_ifs <;> omega
  · rw [mod_eq_ite (by omega), mod_eq_ite (by omega)]
    split_ifs <;> omega

/-- Unless the buffer is empty, a read makes it one shorter. -/
theorem count_pop (hne : head ≠ tail) :
    count n head tail = count n head ((tail + 1) % n) + 1 := by
  unfold count
  rw [succ_mod_eq_ite ht]
  split_ifs
  · rw [mod_eq_ite (by omega), mod_eq_ite (by omega)]
    split_ifs <;> omega
  · rw [mod_eq_ite (by omega), mod_eq_ite (by omega)]
    split_ifs <;> omega

/-- The slot after the contents is `head`. -/
theorem index_count : (tail + count n head tail) % n = head := by
  unfold count
  rw [mod_eq_ite (a := head + n - tail) (by omega)]
  split_ifs
  · rw [mod_eq_ite (by omega)]
    split_ifs <;> omega
  · rw [mod_eq_ite (by omega)]
    split_ifs <;> omega

/-- No slot of the contents is `head`. -/
theorem index_ne_head {k : Nat} (hk : k < count n head tail) : (tail + k) % n ≠ head := by
  have hc : count n head tail < n := count_lt ht
  have hkn : tail + k < 2 * n := by omega
  unfold count at hk
  rw [mod_eq_ite (a := head + n - tail) (by omega)] at hk
  rw [mod_eq_ite hkn]
  split_ifs at hk ⊢ <;> omega

/-- Unless the buffer is full, writing at `head` and moving it on appends to the
contents. -/
theorem contents_push (hfull : (head + 1) % n ≠ tail) (b : α) :
    contents n (Function.update buf head b) ((head + 1) % n) tail =
      contents n buf head tail ++ [b] := by
  unfold contents
  rw [count_push hh ht hfull, window, index_count hh ht, Function.update_self,
    window_update_of_ne fun k hk => index_ne_head hh ht hk]

/-- Unless the buffer is empty, moving `tail` on takes off the oldest element, the one
at `tail`. -/
theorem contents_pop (hne : head ≠ tail) :
    contents n buf head tail = buf tail :: contents n buf head ((tail + 1) % n) := by
  unfold contents
  rw [count_pop hh ht hne, window_succ, Nat.mod_eq_of_lt ht]

end Indices

end RingBuffer
