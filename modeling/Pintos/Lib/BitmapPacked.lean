import Mathlib
import Pintos.Lib.Bitmap

/-!
# The word-packed bitmap of `lib/kernel/bitmap.c`

A `struct bitmap` is `bit_cnt` and an array of `elem_type` words, 32 bits each on
the 80x86; bit `i` is bit `i % ELEM_BITS` of word `i / ELEM_BITS`. The functions
below are the code's, on that representation. The `ASSERT`s on the range
(`idx < bit_cnt`, `start + cnt <= bit_cnt`, `start <= bit_cnt`) are the
hypotheses of the theorems, and the loops of `bitmap_set_multiple`,
`bitmap_count` and `bitmap_contains` call `bitmap_set` and `bitmap_test` inside
the range that the outer assertion checked.

`Bitmap.toBools` reads the array of `bit_cnt` booleans the words stand for. Each
operation refines the one of `Pintos.Lib.Bitmap` on that array, and
`bitmap_refines_bools` collects the refinement: the single-bit writes change
the addressed bit only, the reads agree with the array, and `bitmap_scan` finds
the least fitting group.
-/

namespace Pintos.Lib.Packed

open Pintos.Lib

/-- `elem_type`: an `unsigned long`. -/
abbrev elem_type := BitVec 32

def ELEM_BITS : Nat := 32

def elem_idx (bit_idx : Nat) : Nat := bit_idx / ELEM_BITS

def bit_mask (bit_idx : Nat) : elem_type := 1#32 <<< (bit_idx % ELEM_BITS)

/-- `DIV_ROUND_UP (bit_cnt, ELEM_BITS)`. -/
def elem_cnt (bit_cnt : Nat) : Nat := (bit_cnt + ELEM_BITS - 1) / ELEM_BITS

/-- `BITMAP_ERROR`, that is `SIZE_MAX`. -/
def BITMAP_ERROR : Nat := 2 ^ 32 - 1

structure Bitmap where
  bit_cnt : Nat
  bits : List elem_type
  bits_length : bits.length = elem_cnt bit_cnt

namespace Bitmap

/-- `b->bits[idx]`. -/
def elem (b : Bitmap) (idx : Nat) : elem_type := b.bits.getD idx 0

/-- `b->bits[idx] = f (b->bits[idx])`. -/
def update (b : Bitmap) (idx : Nat) (f : elem_type → elem_type) : Bitmap :=
  ⟨b.bit_cnt, b.bits.set idx (f (b.elem idx)), by rw [List.length_set, b.bits_length]⟩

/-- Bit `i` as the words hold it. -/
def bit (b : Bitmap) (i : Nat) : Bool := (b.elem (elem_idx i)).getLsbD (i % ELEM_BITS)

/-- The array of booleans the bitmap stands for. -/
def toBools (b : Bitmap) : List Bool := (List.range b.bit_cnt).map b.bit

end Bitmap

def bitmap_mark (b : Bitmap) (bit_idx : Nat) : Bitmap :=
  b.update (elem_idx bit_idx) (· ||| bit_mask bit_idx)

def bitmap_reset (b : Bitmap) (bit_idx : Nat) : Bitmap :=
  b.update (elem_idx bit_idx) (· &&& ~~~bit_mask bit_idx)

def bitmap_flip (b : Bitmap) (bit_idx : Nat) : Bitmap :=
  b.update (elem_idx bit_idx) (· ^^^ bit_mask bit_idx)

def bitmap_test (b : Bitmap) (idx : Nat) : Bool :=
  (b.elem (elem_idx idx) &&& bit_mask idx) != 0

def bitmap_set (b : Bitmap) (idx : Nat) (value : Bool) : Bitmap :=
  if value then bitmap_mark b idx else bitmap_reset b idx

/-- `for (i = 0; i < cnt; i++) bitmap_set (b, start + i, value);` -/
def bitmap_set_multiple (b : Bitmap) (start cnt : Nat) (value : Bool) : Bitmap :=
  (List.range cnt).foldl (fun b i => bitmap_set b (start + i) value) b

def bitmap_count (b : Bitmap) (start cnt : Nat) (value : Bool) : Nat :=
  (List.range cnt).foldl (fun value_cnt i =>
    if bitmap_test b (start + i) = value then value_cnt + 1 else value_cnt) 0

def bitmap_contains (b : Bitmap) (start cnt : Nat) (value : Bool) : Bool :=
  (List.range cnt).any fun i => bitmap_test b (start + i) == value

def bitmap_any (b : Bitmap) (start cnt : Nat) : Bool := bitmap_contains b start cnt true

def bitmap_none (b : Bitmap) (start cnt : Nat) : Bool := !bitmap_contains b start cnt true

def bitmap_all (b : Bitmap) (start cnt : Nat) : Bool := !bitmap_contains b start cnt false

/-- `for (i = start; i <= last; i++)` with `last = bit_cnt - cnt`. -/
def bitmap_scan (b : Bitmap) (start cnt : Nat) (value : Bool) : Nat :=
  if cnt ≤ b.bit_cnt then
    let last := b.bit_cnt - cnt
    ((List.range' start (last + 1 - start)).find? fun i =>
      !bitmap_contains b i cnt (!value)).getD BITMAP_ERROR
  else BITMAP_ERROR

def bitmap_scan_and_flip (b : Bitmap) (start cnt : Nat) (value : Bool) : Nat × Bitmap :=
  let idx := bitmap_scan b start cnt value
  if idx ≠ BITMAP_ERROR then (idx, bitmap_set_multiple b idx cnt (!value)) else (idx, b)

/-! ## Words and bits -/

theorem bit_mask_getLsbD (bit_idx j : Nat) :
    (bit_mask bit_idx).getLsbD j = decide (bit_idx % ELEM_BITS = j) := by
  have hlt : bit_idx % ELEM_BITS < 32 := Nat.mod_lt _ (by decide)
  rw [bit_mask, ← BitVec.twoPow_eq, BitVec.getLsbD_twoPow]
  simp [hlt]

theorem bitmap_test_eq_bit (b : Bitmap) (idx : Nat) : bitmap_test b idx = b.bit idx := by
  have hlt : idx % ELEM_BITS < 32 := Nat.mod_lt _ (by decide)
  rw [bitmap_test, bit_mask, ← BitVec.twoPow_eq, BitVec.and_twoPow, Bitmap.bit]
  cases h : (b.elem (elem_idx idx)).getLsbD (idx % ELEM_BITS)
  · simp
  · -- the mask itself is not zero: its bit `idx % ELEM_BITS` is set
    simp only [if_true, bne_iff_ne, ne_eq]
    intro hz
    have hbit := congrArg (fun v => v.getLsbD (idx % ELEM_BITS)) hz
    simp [hlt] at hbit

theorem length_toBools (b : Bitmap) : b.toBools.length = b.bit_cnt := by
  simp [Bitmap.toBools]

theorem getElem?_toBools (b : Bitmap) (i : Nat) :
    b.toBools[i]? = if i < b.bit_cnt then some (b.bit i) else none := by
  rw [Bitmap.toBools, List.getElem?_map]
  split
  · rw [List.getElem?_range (by assumption)]
    rfl
  · rw [List.getElem?_eq_none (by simp; omega)]
    rfl

/-- The words of a bit inside the bitmap exist. -/
theorem elem_idx_lt (b : Bitmap) {i : Nat} (hi : i < b.bit_cnt) : elem_idx i < b.bits.length := by
  rw [b.bits_length, elem_idx, elem_cnt, ELEM_BITS]
  omega

theorem elem_update (b : Bitmap) {idx : Nat} (hidx : idx < b.bits.length)
    (f : elem_type → elem_type) (j : Nat) :
    (b.update idx f).elem j = if idx = j then f (b.elem idx) else b.elem j := by
  simp only [Bitmap.update, Bitmap.elem, List.getD_eq_getElem?_getD, List.getElem?_set]
  by_cases h : idx = j
  · subst h
    simp [hidx]
  · simp [h]

/-- A write to the word of bit `idx` that changes its bit `idx % ELEM_BITS` to
`x` and no other bit changes bit `idx` of the bitmap to `x` and no other bit. -/
theorem bit_update {b : Bitmap} {idx : Nat} (hidx : idx < b.bit_cnt) {f : elem_type → elem_type}
    {x : Bool} (hf : ∀ j, (f (b.elem (elem_idx idx))).getLsbD j =
      if idx % ELEM_BITS = j then x else (b.elem (elem_idx idx)).getLsbD j) (i : Nat) :
    (b.update (elem_idx idx) f).bit i = if i = idx then x else b.bit i := by
  rw [Bitmap.bit, elem_update b (elem_idx_lt b hidx)]
  by_cases hw : elem_idx idx = elem_idx i
  · rw [if_pos hw, hf]
    have hsame : idx % ELEM_BITS = i % ELEM_BITS ↔ i = idx := by
      simp only [elem_idx, ELEM_BITS] at hw ⊢
      omega
    by_cases hi : i = idx
    · rw [if_pos (hsame.mpr hi), if_pos hi]
    · rw [if_neg (mt hsame.mp hi), if_neg hi, hw]
      rfl
  · have hi : i ≠ idx := fun h => hw (h ▸ rfl)
    rw [if_neg hw, if_neg hi]
    rfl

theorem toBools_update {b : Bitmap} {idx : Nat} (hidx : idx < b.bit_cnt)
    {f : elem_type → elem_type} {x : Bool}
    (hf : ∀ j, (f (b.elem (elem_idx idx))).getLsbD j =
      if idx % ELEM_BITS = j then x else (b.elem (elem_idx idx)).getLsbD j) :
    (b.update (elem_idx idx) f).toBools = b.toBools.set idx x := by
  refine List.ext_getElem? fun i => ?_
  rw [getElem?_toBools, List.getElem?_set, getElem?_toBools, length_toBools, bit_update hidx hf]
  show (if i < b.bit_cnt then _ else _) = _
  by_cases hi : i = idx
  · subst hi
    simp [hidx]
  · simp [hi, Ne.symm hi]

/-! ## The operations on the array of bits -/

section Ops

variable {b : Bitmap} {idx : Nat}

theorem toBools_mark (hidx : idx < b.bit_cnt) :
    (bitmap_mark b idx).toBools = b.toBools.set idx true :=
  toBools_update hidx fun j => by
    rw [BitVec.getLsbD_or, bit_mask_getLsbD]
    by_cases h : idx % ELEM_BITS = j <;> simp [h]

theorem toBools_reset (hidx : idx < b.bit_cnt) :
    (bitmap_reset b idx).toBools = b.toBools.set idx false :=
  toBools_update hidx fun j => by
    rw [BitVec.getLsbD_and, BitVec.getLsbD_not, bit_mask_getLsbD]
    by_cases h : idx % ELEM_BITS = j
    · simp [h]
    · by_cases hj : j < 32
      · simp [h, hj]
      · simp [h, hj, BitVec.getLsbD_of_ge _ _ (Nat.le_of_not_lt hj)]

theorem toBools_flip (hidx : idx < b.bit_cnt) :
    (bitmap_flip b idx).toBools = b.toBools.set idx (!b.bit idx) :=
  toBools_update hidx fun j => by
    rw [BitVec.getLsbD_xor, bit_mask_getLsbD]
    by_cases h : idx % ELEM_BITS = j
    · subst h
      simp [Bitmap.bit]
    · simp [h]

theorem toBools_set (hidx : idx < b.bit_cnt) (value : Bool) :
    (bitmap_set b idx value).toBools = b.toBools.set idx value := by
  cases value
  · exact toBools_reset hidx
  · exact toBools_mark hidx

@[simp] theorem bit_cnt_set (value : Bool) : (bitmap_set b idx value).bit_cnt = b.bit_cnt := by
  cases value <;> rfl

theorem bitmap_set_multiple_succ (start cnt : Nat) (value : Bool) :
    bitmap_set_multiple b start (cnt + 1) value =
      bitmap_set (bitmap_set_multiple b start cnt value) (start + cnt) value := by
  rw [bitmap_set_multiple, List.range_succ, List.foldl_append]
  rfl

@[simp] theorem bit_cnt_set_multiple (start cnt : Nat) (value : Bool) :
    (bitmap_set_multiple b start cnt value).bit_cnt = b.bit_cnt := by
  induction cnt with
  | zero => rfl
  | succ cnt ih => rw [bitmap_set_multiple_succ, bit_cnt_set, ih]

theorem toBools_set_multiple {start cnt : Nat} (h : start + cnt ≤ b.bit_cnt) (value : Bool) :
    (bitmap_set_multiple b start cnt value).toBools =
      Lib.bitmap_set_multiple b.toBools start cnt value := by
  induction cnt with
  | zero => simp [bitmap_set_multiple]
  | succ cnt ih =>
    rw [bitmap_set_multiple_succ, toBools_set (by rw [bit_cnt_set_multiple]; omega),
      ih (by omega), Lib.bitmap_set_multiple_succ]

theorem bitmap_test_eq (hidx : idx < b.bit_cnt) : bitmap_test b idx = b.toBools[idx]?.getD false := by
  rw [getElem?_toBools, if_pos hidx, Option.getD_some, bitmap_test_eq_bit]

theorem bitmap_contains_eq {start cnt : Nat} (h : start + cnt ≤ b.bit_cnt) (value : Bool) :
    bitmap_contains b start cnt value = Lib.bitmap_contains b.toBools start cnt value := by
  unfold bitmap_contains Lib.bitmap_contains
  rw [Bool.eq_iff_iff, List.any_eq_true, List.any_eq_true]
  refine exists_congr fun i => and_congr_right fun hi => ?_
  rw [bitmap_test_eq (by have := List.mem_range.mp hi; omega), List.getD_eq_getElem?_getD]

theorem bitmap_contains_iff {start cnt : Nat} (h : start + cnt ≤ b.bit_cnt) (value : Bool) :
    bitmap_contains b start cnt value = true ↔ ∃ k < cnt, b.toBools[start + k]? = some value := by
  rw [bitmap_contains, List.any_eq_true]
  constructor
  · rintro ⟨k, hk, hv⟩
    have hk' := List.mem_range.mp hk
    rw [beq_iff_eq, bitmap_test_eq (by omega), getElem?_toBools, if_pos (by omega)] at hv
    refine ⟨k, hk', ?_⟩
    rw [getElem?_toBools, if_pos (by omega), ← hv]
    rfl
  · rintro ⟨k, hk, hv⟩
    refine ⟨k, List.mem_range.mpr hk, ?_⟩
    rw [beq_iff_eq, bitmap_test_eq (by omega), hv]
    rfl

theorem bitmap_count_eq {start cnt : Nat} (h : start + cnt ≤ b.bit_cnt) (value : Bool) :
    bitmap_count b start cnt value = ((b.toBools.drop start).take cnt).count value := by
  induction cnt with
  | zero => simp [bitmap_count]
  | succ cnt ih =>
    have hnext : (b.toBools.drop start)[cnt]? = some (b.bit (start + cnt)) := by
      rw [List.getElem?_drop, getElem?_toBools, if_pos (by omega)]
    rw [bitmap_count, List.range_succ, List.foldl_append, List.foldl_cons, List.foldl_nil,
      ← bitmap_count, ih (by omega), List.take_add_one, hnext, Option.toList_some,
      List.count_append, List.count_singleton, bitmap_test_eq_bit]
    by_cases hv : b.bit (start + cnt) = value
    · simp [hv]
    · simp [hv]

end Ops

/-! ## `bitmap_scan` -/

theorem find?_congr {α : Type} {p q : α → Bool} {l : List α} (h : ∀ x ∈ l, p x = q x) :
    l.find? p = l.find? q := by
  induction l with
  | nil => rfl
  | cons a l ih =>
    rw [List.find?_cons, List.find?_cons, h a List.mem_cons_self,
      ih fun x hx => h x (List.mem_cons_of_mem _ hx)]

/-- The scan of the words is the scan of the array, with `BITMAP_ERROR` for `none`. -/
theorem bitmap_scan_eq (b : Bitmap) (start cnt : Nat) (value : Bool) :
    bitmap_scan b start cnt value =
      (Lib.bitmap_scan b.toBools start cnt value).getD BITMAP_ERROR := by
  unfold bitmap_scan Lib.bitmap_scan
  rw [length_toBools]
  split
  · rename_i hcnt
    dsimp only
    congr 1
    refine find?_congr fun i hi => ?_
    have hin : i + cnt ≤ b.bit_cnt := by
      have := List.mem_range'_1.mp hi
      omega
    rw [bitmap_contains_eq hin]
  · rfl

/-- `bitmap_scan` returns the least group of `cnt` bits equal to `value` at or
after `start`, and `BITMAP_ERROR` when there is none. -/
theorem bitmap_scan_spec (b : Bitmap) (start cnt : Nat) (value : Bool) :
    ((∃ i, Fits b.toBools start cnt value i) →
      Fits b.toBools start cnt value (bitmap_scan b start cnt value) ∧
        ∀ j < bitmap_scan b start cnt value, ¬ Fits b.toBools start cnt value j) ∧
    ((∀ i, ¬ Fits b.toBools start cnt value i) → bitmap_scan b start cnt value = BITMAP_ERROR) := by
  rw [bitmap_scan_eq]
  constructor
  · rintro ⟨i, hi⟩
    cases hs : Lib.bitmap_scan b.toBools start cnt value with
    | none => exact absurd hi (bitmap_scan_eq_none_iff.mp hs i)
    | some j => exact bitmap_scan_eq_some_iff.mp hs
  · intro h
    rw [bitmap_scan_eq_none_iff.mpr h]
    rfl

/-- `bitmap_scan_and_flip` returns the scan and flips exactly the group found. -/
theorem bitmap_scan_and_flip_spec (b : Bitmap) (start cnt : Nat) (value : Bool) :
    (bitmap_scan_and_flip b start cnt value).1 = bitmap_scan b start cnt value ∧
    ∀ j, (bitmap_scan_and_flip b start cnt value).2.toBools[j]? =
      if bitmap_scan b start cnt value ≠ BITMAP_ERROR ∧ bitmap_scan b start cnt value ≤ j ∧
          j < bitmap_scan b start cnt value + cnt then
        b.toBools[j]?.map (!·)
      else b.toBools[j]? := by
  unfold bitmap_scan_and_flip
  dsimp only
  refine ⟨by split <;> rfl, fun j => ?_⟩
  by_cases herr : bitmap_scan b start cnt value = BITMAP_ERROR
  · simp [herr]
  · -- the scan found a group: it fits, so its bits were `value`
    obtain ⟨i, hi⟩ : ∃ i, Lib.bitmap_scan b.toBools start cnt value = some i := by
      cases hs : Lib.bitmap_scan b.toBools start cnt value with
      | none => rw [bitmap_scan_eq, hs] at herr; exact absurd rfl herr
      | some i => exact ⟨i, rfl⟩
    have hidx : bitmap_scan b start cnt value = i := by rw [bitmap_scan_eq, hi]; rfl
    obtain ⟨⟨-, hin, hrun⟩, -⟩ := bitmap_scan_eq_some_iff.mp hi
    rw [length_toBools] at hin
    rw [if_pos herr, hidx, toBools_set_multiple hin, getElem?_bitmap_set_multiple]
    by_cases hj : i ≤ j ∧ j < i + cnt
    · have hbit := hrun (j - i) (by omega)
      rw [Nat.add_sub_cancel' hj.1] at hbit
      have hne : i ≠ BITMAP_ERROR := hidx ▸ herr
      simp [hj, hbit, hne]
    · simp [hj]

/-- The packed bitmap refines the array of `bit_cnt` booleans. -/
theorem bitmap_refines_bools (b : Bitmap) :
    (∀ idx value, idx < b.bit_cnt →
      (bitmap_set b idx value).toBools = b.toBools.set idx value ∧
      (bitmap_mark b idx).toBools = b.toBools.set idx true ∧
      (bitmap_reset b idx).toBools = b.toBools.set idx false ∧
      (bitmap_flip b idx).toBools = b.toBools.set idx (!b.toBools[idx]?.getD false) ∧
      bitmap_test b idx = b.toBools[idx]?.getD false) ∧
    (∀ start cnt value, start + cnt ≤ b.bit_cnt →
      (bitmap_set_multiple b start cnt value).toBools =
        Lib.bitmap_set_multiple b.toBools start cnt value ∧
      bitmap_count b start cnt value = ((b.toBools.drop start).take cnt).count value ∧
      (bitmap_contains b start cnt value = true ↔ ∃ k < cnt, b.toBools[start + k]? = some value) ∧
      (bitmap_any b start cnt = true ↔ ∃ k < cnt, b.toBools[start + k]? = some true) ∧
      (bitmap_none b start cnt = true ↔ ∀ k < cnt, b.toBools[start + k]? ≠ some true) ∧
      (bitmap_all b start cnt = true ↔ ∀ k < cnt, b.toBools[start + k]? ≠ some false)) ∧
    (∀ start cnt value,
      ((∃ i, Fits b.toBools start cnt value i) →
        Fits b.toBools start cnt value (bitmap_scan b start cnt value) ∧
          ∀ j < bitmap_scan b start cnt value, ¬ Fits b.toBools start cnt value j) ∧
      ((∀ i, ¬ Fits b.toBools start cnt value i) →
        bitmap_scan b start cnt value = BITMAP_ERROR) ∧
      (bitmap_scan_and_flip b start cnt value).1 = bitmap_scan b start cnt value ∧
      ∀ j, (bitmap_scan_and_flip b start cnt value).2.toBools[j]? =
        if bitmap_scan b start cnt value ≠ BITMAP_ERROR ∧ bitmap_scan b start cnt value ≤ j ∧
            j < bitmap_scan b start cnt value + cnt then
          b.toBools[j]?.map (!·)
        else b.toBools[j]?) := by
  refine ⟨fun idx value hidx => ?_, fun start cnt value h => ?_, fun start cnt value =>
    ⟨(bitmap_scan_spec b start cnt value).1, (bitmap_scan_spec b start cnt value).2,
      bitmap_scan_and_flip_spec b start cnt value⟩⟩
  · have hbit : b.bit idx = b.toBools[idx]?.getD false := by
      rw [← bitmap_test_eq_bit, bitmap_test_eq hidx]
    exact ⟨toBools_set hidx value, toBools_mark hidx, toBools_reset hidx,
      hbit ▸ toBools_flip hidx, bitmap_test_eq hidx⟩
  · refine ⟨toBools_set_multiple h value, bitmap_count_eq h value, bitmap_contains_iff h value,
      bitmap_contains_iff h true, ?_, ?_⟩
    · rw [bitmap_none, Bool.not_eq_true', ← Bool.not_eq_true, bitmap_contains_iff h true]
      simp
    · rw [bitmap_all, Bool.not_eq_true', ← Bool.not_eq_true, bitmap_contains_iff h false]
      simp

/-- Forty bits over two words, the low sixteen set. -/
def low_sixteen : Bitmap := ⟨40, [0xFFFF#32, 0#32], rfl⟩

/-- There `bitmap_scan` for three clear bits answers 16, the least place that fits, and
`bitmap_set_multiple` across the boundary of the words at bit 32 sets the array's bits. -/
theorem bitmap_refines_bools_low_sixteen :
    bitmap_scan low_sixteen 0 3 false = 16 ∧
      Fits low_sixteen.toBools 0 3 false (bitmap_scan low_sixteen 0 3 false) ∧
      (∀ j < bitmap_scan low_sixteen 0 3 false, ¬ Fits low_sixteen.toBools 0 3 false j) ∧
      (bitmap_set_multiple low_sixteen 30 4 true).toBools =
        Lib.bitmap_set_multiple low_sixteen.toBools 30 4 true := by
  obtain ⟨-, hrange, hscan⟩ := bitmap_refines_bools low_sixteen
  have hfits : Fits low_sixteen.toBools 0 3 false 16 := ⟨by decide, by decide, by decide⟩
  obtain ⟨hleast, hnone⟩ := (hscan 0 3 false).1 ⟨16, hfits⟩
  exact ⟨by decide, hleast, hnone, (hrange 30 4 true (by decide)).1⟩

end Pintos.Lib.Packed
