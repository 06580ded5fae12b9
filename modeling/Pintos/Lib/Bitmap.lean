import Mathlib.Logic.Basic

/-!
# Bitmaps

The part of `lib/kernel/bitmap.c` that the free map uses, over a list of bits:
the scan for a run of equal bits that `free_map_allocate` flips, and the range
operations of `free_map_release`. A bit past the end reads as `false`; the
functions that the code guards with an assertion on the range are called only
inside it.
-/

namespace Pintos.Lib

/-- `bitmap_mark (b, idx)`. -/
def bitmap_mark (b : List Bool) (idx : Nat) : List Bool := b.set idx true

/-- `bitmap_set_multiple (b, start, cnt, value)`. -/
def bitmap_set_multiple (b : List Bool) (start cnt : Nat) (value : Bool) : List Bool :=
  b.mapIdx fun i x => if start ≤ i ∧ i < start + cnt then value else x

/-- `bitmap_contains (b, start, cnt, value)`: some bit of the range is `value`. -/
def bitmap_contains (b : List Bool) (start cnt : Nat) (value : Bool) : Bool :=
  (List.range cnt).any fun i => b.getD (start + i) false == value

/-- `bitmap_all (b, start, cnt)`: every bit of the range is set. -/
def bitmap_all (b : List Bool) (start cnt : Nat) : Bool := !bitmap_contains b start cnt false

/-- `bitmap_scan (b, start, cnt, value)`: the first `i` from `start` to
`bit_cnt - cnt` where the `cnt` bits are all `value`, and `BITMAP_ERROR` as `none`. -/
def bitmap_scan (b : List Bool) (start cnt : Nat) (value : Bool) : Option Nat :=
  if cnt ≤ b.length then
    (List.range' start (b.length - cnt + 1 - start)).find? fun i => !bitmap_contains b i cnt (!value)
  else none

/-- `bitmap_scan_and_flip (b, start, cnt, value)`: the scan, and the bitmap with
the run found flipped. -/
def bitmap_scan_and_flip (b : List Bool) (start cnt : Nat) (value : Bool) :
    Option Nat × List Bool :=
  match bitmap_scan b start cnt value with
  | some i => (some i, bitmap_set_multiple b i cnt (!value))
  | none => (none, b)

/-! ## Reading bits back -/

variable {b : List Bool} {start cnt i : Nat} {value : Bool}

@[simp] theorem length_bitmap_set_multiple :
    (bitmap_set_multiple b start cnt value).length = b.length :=
  List.length_mapIdx

theorem getElem?_bitmap_set_multiple (i : Nat) : (bitmap_set_multiple b start cnt value)[i]? =
    b[i]?.map fun x => if start ≤ i ∧ i < start + cnt then value else x :=
  List.getElem?_mapIdx

theorem getElem?_bitmap_set_multiple_of_mem (h1 : start ≤ i) (h2 : i < start + cnt)
    (hi : i < b.length) : (bitmap_set_multiple b start cnt value)[i]? = some value := by
  rw [getElem?_bitmap_set_multiple, List.getElem?_eq_getElem hi, Option.map_some, if_pos ⟨h1, h2⟩]

theorem getElem?_bitmap_set_multiple_of_not_mem (h : ¬ (start ≤ i ∧ i < start + cnt)) :
    (bitmap_set_multiple b start cnt value)[i]? = b[i]? := by
  rw [getElem?_bitmap_set_multiple]
  cases b[i]? with
  | none => rfl
  | some x => rw [Option.map_some, if_neg h]

@[simp] theorem bitmap_set_multiple_zero : bitmap_set_multiple b start 0 value = b := by
  refine List.ext_getElem? fun i => ?_
  rw [getElem?_bitmap_set_multiple, Nat.add_zero]
  cases b[i]? with
  | none => rfl
  | some x => rw [Option.map_some, if_neg (by omega)]

theorem bitmap_contains_eq_false :
    bitmap_contains b start cnt value = false ↔ ∀ k < cnt, b.getD (start + k) false ≠ value := by
  simp [bitmap_contains, List.any_eq_false]

theorem bitmap_all_iff : bitmap_all b start cnt = true ↔ ∀ k < cnt, b[start + k]? = some true := by
  rw [bitmap_all, Bool.not_eq_true', bitmap_contains_eq_false]
  refine forall₂_congr fun k _ => ?_
  rw [List.getD_eq_getElem?_getD]
  cases b[start + k]? with
  | none => simp
  | some x => cases x <;> simp

/-- What `bitmap_scan` finds: `cnt` bits equal to `value`, inside the map, from `start` on. -/
theorem bitmap_scan_run (h : bitmap_scan b start cnt value = some i) :
    start ≤ i ∧ i + cnt ≤ b.length ∧ ∀ k < cnt, b[i + k]? = some value := by
  unfold bitmap_scan at h
  split at h
  · obtain ⟨hfree, hmem, -⟩ := List.find?_range'_eq_some.mp h
    obtain ⟨j, hj, rfl⟩ := List.mem_range'.mp hmem
    rw [Nat.one_mul]
    have hin : start + j + cnt ≤ b.length := by omega
    refine ⟨by omega, hin, fun k hk => ?_⟩
    have hbit := (bitmap_contains_eq_false.mp (by simpa using hfree)) k hk
    rw [List.getD_eq_getElem?_getD, List.getElem?_eq_getElem (by omega)] at hbit
    rw [List.getElem?_eq_getElem (by omega)]
    cases value <;> simpa using hbit
  · cases h

theorem bitmap_set_multiple_succ :
    bitmap_set_multiple b start (cnt + 1) value =
      (bitmap_set_multiple b start cnt value).set (start + cnt) value := by
  refine List.ext_getElem? fun i => ?_
  rw [List.getElem?_set, getElem?_bitmap_set_multiple, getElem?_bitmap_set_multiple,
    length_bitmap_set_multiple]
  by_cases hi : start + cnt = i
  · subst hi
    by_cases hlt : start + cnt < b.length
    · rw [List.getElem?_eq_getElem hlt]
      simp [hlt]
    · rw [List.getElem?_eq_none (by omega)]
      simp [hlt]
  · rw [if_neg hi]
    cases b[i]? with
    | none => rfl
    | some x =>
      simp only [Option.map_some]
      congr 1
      by_cases hin : start ≤ i ∧ i < start + cnt
      · rw [if_pos hin, if_pos ⟨hin.1, by omega⟩]
      · rw [if_neg hin, if_neg (by omega)]

/-! ## What `bitmap_scan` is for -/

/-- The `cnt` bits from `i` on are all `value`, inside the map, and `i` is at or
after `start`: a group that `bitmap_scan` may return. -/
def Fits (b : List Bool) (start cnt : Nat) (value : Bool) (i : Nat) : Prop :=
  start ≤ i ∧ i + cnt ≤ b.length ∧ ∀ k < cnt, b[i + k]? = some value

/-- Inside the map, no bit of the range is `!value` exactly when all are `value`. -/
theorem bitmap_contains_not_eq_false (h : i + cnt ≤ b.length) :
    bitmap_contains b i cnt (!value) = false ↔ ∀ k < cnt, b[i + k]? = some value := by
  rw [bitmap_contains_eq_false]
  refine forall₂_congr fun k hk => ?_
  rw [List.getD_eq_getElem?_getD, List.getElem?_eq_getElem (by omega)]
  cases value <;> simp

/-- `bitmap_scan` returns the least group from `start` on, and `none` when
there is no group. -/
theorem bitmap_scan_eq_some_iff :
    bitmap_scan b start cnt value = some i ↔
      Fits b start cnt value i ∧ ∀ j < i, ¬ Fits b start cnt value j := by
  unfold bitmap_scan
  split
  · rename_i hcnt
    rw [List.find?_range'_eq_some]
    constructor
    · rintro ⟨hfree, hmem, hleast⟩
      obtain ⟨j, hj, rfl⟩ := List.mem_range'.mp hmem
      simp only [Nat.one_mul] at hleast ⊢
      have hin : start + j + cnt ≤ b.length := by omega
      refine ⟨⟨by omega, hin, (bitmap_contains_not_eq_false hin).mp (by simpa using hfree)⟩, ?_⟩
      rintro j' hj' ⟨hs, hin', hrun⟩
      have hnot := hleast j' hs hj'
      rw [Bool.not_not, (bitmap_contains_not_eq_false hin').mpr hrun] at hnot
      cases hnot
    · rintro ⟨⟨hs, hin, hrun⟩, hleast⟩
      refine ⟨by simpa using (bitmap_contains_not_eq_false hin).mpr hrun,
        List.mem_range'.mpr ⟨i - start, by omega, by omega⟩, fun j hsj hji => ?_⟩
      have hjin : j + cnt ≤ b.length := by omega
      rw [Bool.not_not]
      cases hc : bitmap_contains b j cnt (!value) with
      | true => rfl
      | false => exact absurd ⟨hsj, hjin, (bitmap_contains_not_eq_false hjin).mp hc⟩ (hleast j hji)
  · rename_i hcnt
    simp only [reduceCtorEq, false_iff, not_and, not_forall, not_not]
    intro ⟨_, hin, _⟩
    omega

theorem bitmap_scan_eq_none_iff :
    bitmap_scan b start cnt value = none ↔ ∀ i, ¬ Fits b start cnt value i := by
  constructor
  · rintro h i ⟨hs, hin, hrun⟩
    unfold bitmap_scan at h
    rw [if_pos (by omega), List.find?_eq_none] at h
    have hfree := (bitmap_contains_not_eq_false hin).mpr hrun
    exact h i (List.mem_range'.mpr ⟨i - start, by omega, by omega⟩) (by simp [hfree])
  · intro h
    cases hs : bitmap_scan b start cnt value with
    | none => rfl
    | some i => exact absurd ((bitmap_scan_eq_some_iff.mp hs).1) (h i)

/-- Flipping one bit and flipping it back, around a change of a range that
misses it, is the change of the range alone. -/
theorem bitmap_set_multiple_restore {h d n : Nat} {v w : Bool} (hb : b[h]? = some v)
    (hh : ¬ (d ≤ h ∧ h < d + n)) :
    bitmap_set_multiple (bitmap_set_multiple (bitmap_set_multiple b h 1 (!v)) d n w) h 1 v =
      bitmap_set_multiple b d n w := by
  refine List.ext_getElem? fun i => ?_
  simp only [getElem?_bitmap_set_multiple, Option.map_map]
  by_cases hi : i = h
  · subst hi
    simp [hb, hh]
  · have hi' : ¬ (h ≤ i ∧ i < h + 1) := by omega
    simp only [if_neg hi']
    rfl

/-- `bitmap_file_size`, that is `byte_cnt (bit_cnt)`: whole 32-bit `unsigned long`
elements. -/
def bitmap_file_size (bit_cnt : Nat) : Nat := 4 * ((bit_cnt + 32 - 1) / 32)

end Pintos.Lib
