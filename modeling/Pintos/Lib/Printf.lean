import Pintos.Lib.Stdio
import Pintos.ByteMap
import Mathlib.Data.List.GetD

/-!
# What `printf`'s integer conversions output, and what `vsnprintf` stores

`IntConversion.render` is the rendering a conversion `%[flags][width][.precision][length]c`
asks for, as the C standard describes it: a sign, `0x` or `0X`, the digits of the value's
magnitude with their precision zeros or `,` separators, a `0` in front for `#` in octal, and
padding to the field width, on the right under `-` (or a negative `*` width), with `0`s after
the sign and prefix under `0` without a precision, and with spaces in front otherwise.

`format_integer` outputs that for every conversion with its width and precision in range
(`IntConversion.InScope`) except one: `0` with a width from a negative `*` and neither `-`
nor a precision. `parse_conversion` clears `ZERO` for `-` before it reads the width, so the
`MINUS` that the negative width sets comes too late, and the padding is output twice, as
`0`s after the sign and as spaces at the end (`vprintf_zero_left_star`).

`vsnprintf` stores the first `buf_size - 1` characters of the output and a terminator, and
returns the output's length (`vsnprintf_eq`). Printed with `%d`, `%+d`, `% d` or a width,
every `int` reads back through `atoi`.
-/

namespace Pintos.Lib

open Positional

namespace IntConversion

variable (s : IntConversion)

/-- The sign: `-` for a negative value, else `+` under `+` or a space under space; none for
an unsigned conversion. -/
def sign_text (v : Int) : List UInt8 :=
  if s.is_signed then
    if s.value v < 0 then [45] else if 43 ∈ s.flags then [43] else if 32 ∈ s.flags then [32]
    else []
  else []

/-- `0x` for `x` and `0X` for `X` under `#`, for a nonzero value. -/
def prefix_text (v : Int) : List UInt8 :=
  if 35 ∈ s.flags ∧ (s.conv = 120 ∨ s.conv = 88) ∧ s.value v ≠ 0 then [48, s.conv] else []

/-- The digits of the value's magnitude, most significant first: under `'` with `,` between
the groups, and otherwise with `0`s in front up to the precision (1 when none is given);
under `#` in octal with a `0` in front unless they start with one. -/
def digits_body (v : Int) : List UInt8 :=
  let m := (s.value v).natAbs
  let ds := (Nat.digits s.base.base m).map s.base.digit
  let precision := s.precision.precision_value
  let body :=
    if 39 ∈ s.flags then (if m = 0 then [48] else (groups s.base.group 44 ds).reverse)
    else List.replicate ((if precision < 0 then 1 else precision).toNat - ds.length) 48 ++ ds.reverse
  if 35 ∈ s.flags ∧ s.conv = 111 ∧ body.head? ≠ some 48 then 48 :: body else body

/-- What the field width leaves over the sign, the prefix and the digits. -/
def pad_length (v : Int) : Nat :=
  s.width.value.natAbs - (s.sign_text v ++ s.prefix_text v ++ s.digits_body v).length

/-- The rendering of the argument `v`: padded on the right under `-` or a negative width,
with `0`s after the sign and prefix under `0` without a precision, and with spaces in front
otherwise. -/
def render (v : Int) : List UInt8 :=
  if 45 ∈ s.flags ∨ s.width.value < 0 then
    s.sign_text v ++ s.prefix_text v ++ s.digits_body v ++ List.replicate (s.pad_length v) 32
  else if 48 ∈ s.flags ∧ s.precision.precision_value < 0 then
    s.sign_text v ++ s.prefix_text v ++ List.replicate (s.pad_length v) 48 ++ s.digits_body v
  else List.replicate (s.pad_length v) 32 ++ s.sign_text v ++ s.prefix_text v ++ s.digits_body v

/-- The conversions the rendering is stated for: a field width in `[-INT_MAX, INT_MAX]`, a
precision from an `int`, at most 63, and `'` only without a precision. -/
structure InScope : Prop where
  width_lt : |s.width.value| < 2 ^ 31
  precision_fits : s.precision.Fits
  precision_le : s.precision.precision_value ≤ 63
  group_only : 39 ∈ s.flags → s.precision.precision_value < 0

/-- `0` with a width from a negative `*`, and neither `-` nor a precision. -/
def ZeroLeftStar : Prop :=
  48 ∈ s.flags ∧ 45 ∉ s.flags ∧ s.width.value < 0 ∧ s.precision.precision_value < 0

end IntConversion

/-! ## The parts of `format_integer`'s output -/

section Parts

variable (s : IntConversion) (v : Int)

theorem sign_char_text :
    (if sign_char s.is_signed (decide (s.value v < 0)) s.flags_after != 0 then
      [sign_char s.is_signed (decide (s.value v < 0)) s.flags_after] else []) = s.sign_text v := by
  unfold sign_char IntConversion.sign_text IntConversion.flags_after
  by_cases hs : s.is_signed <;> by_cases hv : s.value v < 0 <;>
    by_cases h43 : 43 ∈ s.flags <;> by_cases h32 : 32 ∈ s.flags <;> simp [hs, hv, h43, h32]

theorem x_char_text :
    (if x_char s.base s.flags_after (s.value v).natAbs != 0 then
      [48, x_char s.base s.flags_after (s.value v).natAbs] else []) = s.prefix_text v := by
  unfold x_char IntConversion.prefix_text IntConversion.flags_after IntConversion.base
  rcases s.conv_ok with h | h | h | h | h | h <;>
    by_cases h35 : 35 ∈ s.flags <;> by_cases hv : s.value v = 0 <;> simp [h, h35, hv] <;> rfl

theorem precision_toInt (hs : s.InScope) :
    (if Int32.ofInt s.precision.precision_value < 0 then (1 : Int32)
      else Int32.ofInt s.precision.precision_value).toInt =
      if s.precision.precision_value < 0 then 1 else s.precision.precision_value := by
  obtain ⟨hlo, hhi⟩ := Given.fits_precision_value hs.precision_fits
  have h0 : (0 : Int32).toInt = 0 := rfl
  have hlt : Int32.ofInt s.precision.precision_value < 0 ↔ s.precision.precision_value < 0 := by
    rw [Int32.lt_iff_toInt_lt, toInt_ofInt_of_fits hlo hhi, h0]
  by_cases hp : s.precision.precision_value < 0
  · rw [if_pos (hlt.mpr hp), if_pos hp]
    rfl
  · rw [if_neg (mt hlt.mp hp), if_neg hp, toInt_ofInt_of_fits hlo hhi]

/-- Under `'` the digit loop pushes a `,` before every group; otherwise none. -/
theorem sepPush_flags_after (ds : List UInt8) :
    sepPush (fun j => s.flags_after.GROUP && decide (j > 0) && j % s.base.group == 0) 44 0 ds =
      if 39 ∈ s.flags then groups s.base.group 44 ds else ds := by
  by_cases h39 : 39 ∈ s.flags
  · rw [if_pos h39, ← sepPush_eq_groups s.base.group_pos]
    congr 1
    funext j
    rw [Bool.eq_iff_iff]
    simp [IntConversion.flags_after, h39, groupTest]
  · rw [if_neg h39]
    exact sepPush_of_forall fun j _ => by simp [IntConversion.flags_after, h39]

/-- `#` in octal: a `0` in front unless there is one. -/
theorem pound_octal_iff (buf : List UInt8) :
    (s.flags_after.POUND && s.base.base == 8 && (buf.isEmpty || buf.head? != some 48)) = true ↔
      35 ∈ s.flags ∧ s.conv = 111 ∧ buf.head? ≠ some 48 := by
  have hbase : s.base.base = 8 ↔ s.conv = 111 := by
    unfold IntConversion.base
    rcases s.conv_ok with h | h | h | h | h | h <;> rw [h] <;> decide
  have hhead : (buf.isEmpty || buf.head? != some 48) = true ↔ buf.head? ≠ some 48 := by
    cases buf <;> simp
  simp only [Bool.and_eq_true, hhead, beq_iff_eq, hbase, IntConversion.flags_after,
    decide_eq_true_eq, and_assoc]

/-- The precision loop after the digit loop: `0`s up to the precision, or under `'` (never
with a precision) a single `0` for the value 0. -/
theorem precision_body (hs : s.InScope) {ds : List UInt8}
    (hnil : ds = [] ↔ (s.value v).natAbs = 0) :
    output_dup 48 (min (if s.precision.precision_value < 0 then 1 else s.precision.precision_value) 63 -
        ((if 39 ∈ s.flags then groups s.base.group 44 ds else ds).reverse.length : Int)).toNat ++
      (if 39 ∈ s.flags then groups s.base.group 44 ds else ds).reverse =
    if 39 ∈ s.flags then (if (s.value v).natAbs = 0 then [48] else (groups s.base.group 44 ds).reverse)
    else List.replicate ((if s.precision.precision_value < 0 then 1
      else s.precision.precision_value).toNat - ds.length) 48 ++ ds.reverse := by
  have hP := hs.precision_le
  by_cases h39 : 39 ∈ s.flags
  · simp only [if_pos h39, if_pos (hs.group_only h39), List.length_reverse]
    by_cases hm : (s.value v).natAbs = 0
    · rw [if_pos hm, hnil.mpr hm, groups_nil]
      rfl
    · have hlen : 1 ≤ (groups s.base.group 44 ds).length := by
        have : ds.length ≤ (groups s.base.group 44 ds).length :=
          length_le_length_groups s.base.group_pos ds
        have : ds ≠ [] := mt hnil.mp hm
        have := List.length_pos_of_ne_nil this
        omega
      rw [if_neg hm, show (min (1 : Int) 63 - ((groups s.base.group 44 ds).length : Int)).toNat = 0 by
        omega]
      rfl
  · simp only [if_neg h39, List.length_reverse, output_dup]
    congr 2
    split_ifs <;> omega

theorem digits_text_body (hs : s.InScope) :
    digits_text s.base s.flags_after (Int32.ofInt s.precision.precision_value) (s.value v).natAbs =
      s.digits_body v := by
  have hnil : List.map s.base.digit (s.base.base.digits (s.value v).natAbs) = [] ↔
      (s.value v).natAbs = 0 := by
    rw [List.map_eq_nil_iff, Nat.digits_eq_nil_iff_eq_zero]
  dsimp only [digits_text, IntConversion.digits_body]
  rw [sepPush_flags_after, precision_toInt s hs, precision_body s v hs hnil]
  simp only [pound_octal_iff]
theorem natAbs_value_lt : (s.value v).natAbs < 2 ^ 64 := by
  have hb : s.type.bits ≤ 64 := by cases s.type <;> decide
  have hm : 2 ^ s.type.bits ≤ 2 ^ 64 := Nat.pow_le_pow_right (by decide) hb
  have hpos : 0 < 2 ^ s.type.bits := Nat.two_pow_pos _
  unfold IntConversion.value
  split_ifs
  · -- a signed value lies in `[-2 ^ (bits - 1), 2 ^ (bits - 1))`
    have hlo := Int.le_bmod (x := v) hpos
    have hhi := Int.bmod_lt (x := v) hpos
    omega
  · have hlo := Int.emod_nonneg v (by positivity : (2 : Int) ^ s.type.bits ≠ 0)
    have hhi := Int.emod_lt_of_pos v (by positivity : (0 : Int) < 2 ^ s.type.bits)
    have hm' : (2 : Int) ^ s.type.bits ≤ 2 ^ 64 := by exact_mod_cast hm
    omega

/-- At most 64 digits, a separator each, and a `0` in front. -/
theorem digits_body_length_le (hs : s.InScope) : (s.digits_body v).length ≤ 2 ^ 30 := by
  have hds : (Nat.digits s.base.base (s.value v).natAbs).length ≤ 64 := by
    rw [Nat.digits_length_le_iff s.base.base_gt]
    calc (s.value v).natAbs < 2 ^ 64 := natAbs_value_lt s v
      _ ≤ s.base.base ^ 64 := Nat.pow_le_pow_left s.base.base_gt 64
  have hgroups : (groups s.base.group 44
      ((Nat.digits s.base.base (s.value v).natAbs).map s.base.digit)).length ≤
      2 * (Nat.digits s.base.base (s.value v).natAbs).length := by
    rw [← sepPush_eq_groups s.base.group_pos, ← List.length_map s.base.digit]
    exact length_sepPush_le 0 _
  have hP := hs.precision_le
  unfold IntConversion.digits_body
  dsimp only
  split_ifs <;> simp only [List.length_cons, List.length_nil, List.length_append,
    List.length_replicate, List.length_reverse, List.length_map] <;> omega

/-- The padding `format_integer` outputs is what the width leaves. -/
theorem pad_count_length (hs : s.InScope) :
    (pad_count (Int32.ofInt |s.width.value|) (s.digits_body v).length
      (x_char s.base s.flags_after (s.value v).natAbs)
      (sign_char s.is_signed (decide (s.value v < 0)) s.flags_after)).toInt.toNat =
      s.pad_length v := by
  have hW := hs.width_lt
  have hw : (Int32.ofInt |s.width.value|).toInt = |s.width.value| :=
    toInt_ofInt_of_fits (by have := abs_nonneg s.width.value; omega) hW
  rw [pad_count_toNat _ _ (by rw [hw]; exact abs_nonneg _) (digits_body_length_le s v hs), hw]
  have hsign := congrArg List.length (sign_char_text s v)
  have hx := congrArg List.length (x_char_text s v)
  unfold IntConversion.pad_length
  rw [List.length_append, List.length_append, ← hsign, ← hx, Int.abs_eq_natAbs]
  split_ifs <;> simp only [List.length_cons, List.length_nil] <;> omega

/-- `format_integer` outputs the sign, the prefix and the digits of the rendering, with the
padding where its flags put it. -/
theorem format_integer_parts (hs : s.InScope) :
    format_integer (s.value v).natAbs s.is_signed (decide (s.value v < 0)) s.base s.conversion =
      (if !(s.flags_after.MINUS || s.flags_after.ZERO) then List.replicate (s.pad_length v) 32
        else []) ++
      s.sign_text v ++ s.prefix_text v ++
      (if s.flags_after.ZERO then List.replicate (s.pad_length v) 48 else []) ++
      s.digits_body v ++
      (if s.flags_after.MINUS then List.replicate (s.pad_length v) 32 else []) := by
  rw [format_integer_eq]
  simp only [IntConversion.conversion]
  rw [digits_text_body s v hs]
  unfold output_integer
  rw [sign_char_text, x_char_text, pad_count_length s v hs]
  rfl

end Parts

theorem IntConversion.InScope.width_fits {s : IntConversion} (hs : s.InScope) : s.width.Fits := by
  have h := hs.width_lt
  cases hw : s.width with
  | none => trivial
  | digits n =>
    rw [hw, Given.value] at h
    show n < 2 ^ 31
    have : ((n : Int)) < 2 ^ 31 := by rw [abs_of_nonneg (by omega)] at h; exact h
    omega
  | star w =>
    rw [hw, Given.value, abs_lt] at h
    exact ⟨by omega, h.2⟩

section Render

variable (s : IntConversion) (v : Int) (hs : s.InScope)
include hs

/-- Outside `0` with a negative `*` width, `format_integer` outputs the rendering. -/
theorem format_integer_render (hd : ¬s.ZeroLeftStar) :
    format_integer (s.value v).natAbs s.is_signed (decide (s.value v < 0)) s.base s.conversion =
      s.render v := by
  rw [format_integer_parts s v hs]
  unfold IntConversion.render
  unfold IntConversion.ZeroLeftStar at hd
  simp only [IntConversion.flags_after]
  by_cases h45 : 45 ∈ s.flags <;> by_cases hW : s.width.value < 0 <;>
    by_cases h48 : 48 ∈ s.flags <;> by_cases hP : s.precision.precision_value < 0 <;>
    simp [h45, hW, h48, hP] at hd ⊢

/-- With `0` and a negative `*` width, but neither `-` nor a precision, `format_integer`
pads twice: with `0`s after the sign and prefix, and with spaces at the end. -/
theorem format_integer_zero_left_star (hd : s.ZeroLeftStar) :
    format_integer (s.value v).natAbs s.is_signed (decide (s.value v < 0)) s.base s.conversion =
      s.sign_text v ++ s.prefix_text v ++ List.replicate (s.pad_length v) 48 ++ s.digits_body v ++
        List.replicate (s.pad_length v) 32 := by
  obtain ⟨h48, h45, hW, hP⟩ := hd
  rw [format_integer_parts s v hs]
  simp [IntConversion.flags_after, h48, h45, hW, hP]

theorem vprintf_render (hd : ¬s.ZeroLeftStar) (rest : List UInt8) (args : List Arg) :
    __vprintf (s.text ++ rest) (s.args v ++ args) = s.render v ++ __vprintf rest args := by
  rw [vprintf_int_conversion s hs.width_fits hs.precision_fits, format_integer_render s v hs hd]

theorem vprintf_zero_left_star (hd : s.ZeroLeftStar) (rest : List UInt8) (args : List Arg) :
    __vprintf (s.text ++ rest) (s.args v ++ args) =
      s.sign_text v ++ s.prefix_text v ++ List.replicate (s.pad_length v) 48 ++ s.digits_body v ++
        List.replicate (s.pad_length v) 32 ++ __vprintf rest args := by
  rw [vprintf_int_conversion s hs.width_fits hs.precision_fits,
    format_integer_zero_left_star s v hs hd]

end Render

/-! ## `vsnprintf` -/

section Vsnprintf

variable (mem : Nat → UInt8) (buffer : Nat)

/-- `vsnprintf` after the output `out`, with room for `M` characters: the first
`min out.length M` of them stored from `buffer` on, and all of them counted. -/
def vsnprintf_state (M : Nat) (out : List UInt8) : (Nat → UInt8) × vsnprintf_aux :=
  (ByteMap.copy mem buffer (fun i => out.getD i 0) 0 (min out.length M),
    ⟨buffer + min out.length M, Int32.ofNat out.length, Int32.ofNat M⟩)

/-- One character more: stored while there is room, counted always. -/
theorem vsnprintf_helper_state {M : Nat} (hM : M < 2 ^ 31) {out : List UInt8}
    (hlen : out.length + 1 < 2 ^ 31) (c : UInt8) :
    vsnprintf_helper (vsnprintf_state mem buffer M out).1 (vsnprintf_state mem buffer M out).2 c =
      vsnprintf_state mem buffer M (out ++ [c]) := by
  have hget : ∀ j < out.length, (out ++ [c]).getD j 0 = out.getD j 0 := fun j hj =>
    List.getD_append out [c] 0 j hj
  unfold vsnprintf_helper vsnprintf_state
  dsimp only
  rw [List.length_append, List.length_singleton, Int32.ofNat_add]
  by_cases hroom : out.length < M
  · rw [if_pos ((Int32.ofNat_lt_iff_lt (by omega) hM).mpr hroom), Nat.min_eq_left hroom.le,
      Nat.min_eq_left (by omega : out.length + 1 ≤ M)]
    congr 1
    · funext x
      by_cases hx : x = buffer + out.length
      · subst hx
        rw [Function.update_self, ByteMap.copy_apply_of_mem (by omega) (by omega),
          Nat.zero_add, Nat.add_sub_cancel_left, List.getD_append_right _ _ _ _ (Nat.le_refl _),
          Nat.sub_self]
        rfl
      · rw [Function.update_of_ne hx]
        by_cases hin : buffer ≤ x ∧ x < buffer + out.length
        · rw [ByteMap.copy_apply_of_mem hin.1 hin.2, ByteMap.copy_apply_of_mem hin.1 (by omega),
            hget _ (by omega)]
        · rw [ByteMap.copy_apply_of_not_mem hin, ByteMap.copy_apply_of_not_mem (by omega)]
  · rw [if_neg (mt (Int32.ofNat_lt_iff_lt (by omega) hM).mp hroom), Nat.min_eq_right (by omega),
      Nat.min_eq_right (by omega : M ≤ out.length + 1)]
    congr 1
    exact ByteMap.copy_congr fun j hj => by rw [Nat.zero_add, hget j (by omega)]

/-- The output run through `vsnprintf_helper`. The induction is on the output, from its end. -/
theorem foldl_vsnprintf_helper {M : Nat} (hM : M < 2 ^ 31) (out : List UInt8)
    (hlen : out.length < 2 ^ 31) :
    out.foldl (fun r ch => vsnprintf_helper r.1 r.2 ch) (mem, ⟨buffer, 0, Int32.ofNat M⟩) =
      vsnprintf_state mem buffer M out := by
  induction out using List.reverseRecOn with
  | nil => simp [vsnprintf_state]
  | append_singleton out c ih =>
    rw [List.length_append, List.length_singleton] at hlen
    rw [List.foldl_append, ih (by omega), List.foldl_cons, List.foldl_nil,
      vsnprintf_helper_state mem buffer hM hlen c]

/-- `vsnprintf` stores the first `buf_size - 1` characters of the output and a terminator
after them, and returns the output's length. -/
theorem vsnprintf_eq {buf_size : Nat} (format : List UInt8) (args : List Arg)
    (hsize : buf_size ≤ 2 ^ 31) (hlen : (__vprintf format args).length < 2 ^ 31) :
    vsnprintf mem buffer buf_size format args =
      ((if 0 < buf_size then
        Function.update (ByteMap.copy mem buffer (fun i => (__vprintf format args).getD i 0) 0
          (min (__vprintf format args).length (buf_size - 1)))
          (buffer + min (__vprintf format args).length (buf_size - 1)) 0
      else mem), Int32.ofNat (__vprintf format args).length) := by
  have hM : (if buf_size > 0 then Int32.ofNat (buf_size - 1) else 0) = Int32.ofNat (buf_size - 1) := by
    split_ifs with h
    · rfl
    · rw [show buf_size - 1 = 0 by omega]
      rfl
  unfold vsnprintf
  dsimp only
  rw [hM, foldl_vsnprintf_helper mem buffer (by omega) _ hlen]
  by_cases h0 : 0 < buf_size
  · simp [h0, vsnprintf_state]
  · simp [h0, vsnprintf_state, show buf_size - 1 = 0 by omega]

/-- Read back up to the length `vsnprintf` returns, a buffer with room for the output and its
terminator holds the output. -/
theorem read_vsnprintf_state {M : Nat} {out : List UInt8} (hroom : out.length ≤ M) :
    (List.range out.length).map
      (fun i => Function.update (vsnprintf_state mem buffer M out).1
        (buffer + min out.length M) 0 (buffer + i)) = out := by
  apply List.ext_getElem (by simp)
  intro i hi _
  rw [List.length_map, List.length_range] at hi
  simp only [vsnprintf_state, List.getElem_map, List.getElem_range, Nat.min_eq_left hroom]
  rw [Function.update_of_ne (by omega), ByteMap.copy_apply_of_mem (by omega) (by omega),
    Nat.zero_add, Nat.add_sub_cancel_left, List.getD_eq_getElem _ _ hi]

end Vsnprintf

/-! ## `%d` read back by `atoi` -/

theorem base_d_digit {d : Nat} (hd : d < 10) : base_d.digit d = UInt8.ofNat (48 + d) := by
  have h : ∀ d < 10, base_d.digit d = UInt8.ofNat (48 + d) := by decide
  exact h d hd

/-- The decimal digits `%d` writes are `decimal_text`. -/
theorem decimal_digits_text (m : Nat) :
    ((Nat.digits 10 m).map base_d.digit).reverse = decimal_text m := by
  rw [decimal_text, List.map_congr_left fun d hd => base_d_digit (Nat.digits_lt_base (by decide) hd)]

theorem decimal_value_zeros (k : Nat) (t : List UInt8) :
    decimal_value (List.replicate k 48 ++ t) = decimal_value t := by
  induction k with
  | zero => rfl
  | succ k ih =>
    rw [List.replicate_succ, List.cons_append, decimal_value_cons, ih]
    rfl

theorem isspace_of_isdigit {c : UInt8} (hc : isdigit c = true) : isspace c = false := by
  have : 48 ≤ c.toNat ∧ c.toNat ≤ 57 := by
    simpa [isdigit, UInt8.le_iff_toNat_le] using hc
  simp only [isspace, Bool.or_eq_false_iff, beq_eq_false_iff_ne, ne_eq, ← UInt8.toNat_inj]
  simp only [UInt8.reduceToNat]
  omega

/-- The rendering is as long as the field width, or as its sign, prefix and digits where
they are longer. -/
theorem render_length (s : IntConversion) (v : Int) :
    (s.render v).length =
      max s.width.value.natAbs (s.sign_text v ++ s.prefix_text v ++ s.digits_body v).length := by
  unfold IntConversion.render IntConversion.pad_length
  split_ifs <;> simp only [List.length_append, List.length_replicate] <;> omega

/-- `%d` with `+`, space or no flag, a field width from digits or none, and neither a
precision nor a length modifier. -/
structure IntConversion.PlainD (s : IntConversion) : Prop where
  flags_eq : s.flags = [] ∨ s.flags = [43] ∨ s.flags = [32]
  width_nonneg : 0 ≤ s.width.value
  precision_eq : s.precision = .none
  type_eq : s.type = .INT
  conv_eq : s.conv = 100

section PlainD

variable {s : IntConversion} (hd : s.PlainD) (v : Int32)
include hd

theorem IntConversion.PlainD.is_signed : s.is_signed = true := by
  simp [IntConversion.is_signed, hd.conv_eq]

/-- An `int` is its own value. -/
theorem IntConversion.PlainD.value : s.value v.toInt = v.toInt := by
  have hlo := v.le_toInt
  have hhi := v.toInt_lt
  simp only [IntConversion.value, hd.is_signed, hd.type_eq, ConvType.bits]
  exact Int.bmod_eq_of_le (by omega) (by omega)

/-- The digits of `|v|`, or `0`. -/
theorem IntConversion.PlainD.digits_body : s.digits_body v.toInt =
    List.replicate (1 - (decimal_text v.toInt.natAbs).length) 48 ++ decimal_text v.toInt.natAbs := by
  have h39 : 39 ∉ s.flags := by rcases hd.flags_eq with h | h | h <;> simp [h]
  have h35 : 35 ∉ s.flags := by rcases hd.flags_eq with h | h | h <;> simp [h]
  have hbase : s.base = base_d := by simp [IntConversion.base, hd.conv_eq]
  simp [IntConversion.digits_body, h39, h35, hbase, hd.value, hd.precision_eq, Given.precision_value,
    ← decimal_digits_text, base_d]

/-- Spaces, the sign and the digits. -/
theorem IntConversion.PlainD.render : s.render v.toInt =
    List.replicate (s.pad_length v.toInt) 32 ++ s.sign_text v.toInt ++ s.digits_body v.toInt := by
  have h45 : 45 ∉ s.flags := by rcases hd.flags_eq with h | h | h <;> simp [h]
  have h48 : 48 ∉ s.flags := by rcases hd.flags_eq with h | h | h <;> simp [h]
  have hprefix : s.prefix_text v.toInt = [] := by
    rcases hd.flags_eq with h | h | h <;> simp [IntConversion.prefix_text, h]
  simp [IntConversion.render, h45, h48, hprefix, Int.not_lt.mpr hd.width_nonneg]

/-- At most a sign and ten digits, or the field width. -/
theorem IntConversion.PlainD.render_length_le : (s.render v.toInt).length ≤ max s.width.value.natAbs 11 := by
  have hsign : (s.sign_text v.toInt).length ≤ 1 := by
    unfold IntConversion.sign_text
    split_ifs <;> simp
  have hprefix : s.prefix_text v.toInt = [] := by
    rcases hd.flags_eq with h | h | h <;> simp [IntConversion.prefix_text, h]
  have hlen : (decimal_text v.toInt.natAbs).length ≤ 10 := by
    have hlo := v.le_toInt
    have hhi := v.toInt_lt
    rw [decimal_text, List.length_reverse, List.length_map, Nat.digits_length_le_iff (by decide)]
    omega
  rw [render_length, hprefix, hd.digits_body]
  simp only [List.length_append, List.length_nil, List.length_replicate]
  omega

/-- `%d` read back by `atoi`, which takes the padding and a space sign for whitespace. -/
theorem IntConversion.PlainD.atoi_render : atoi (s.render v.toInt) = v := by
  have hdigits : ∀ c ∈ s.digits_body v.toInt, isdigit c = true := by
    rw [hd.digits_body]
    intro c hc
    rcases List.mem_append.mp hc with hc | hc
    · rw [List.eq_of_mem_replicate hc]
      rfl
    · exact isdigit_of_mem_decimal_text hc
  have hvalue_body : decimal_value (s.digits_body v.toInt) = v.toInt.natAbs := by
    rw [hd.digits_body, decimal_value_zeros, decimal_value_decimal_text]
  have hnosign : ∀ c ∈ (s.digits_body v.toInt ++ []).head?, c ≠ 43 ∧ c ≠ 45 := by
    intro c hc
    have hd := hdigits c (by simpa using List.mem_of_mem_head? hc)
    constructor <;> rintro rfl <;> exact absurd hd (by decide)
  have hspace : ∀ c ∈ (s.digits_body v.toInt ++ []).head?, isspace c = false := fun c hc =>
    isspace_of_isdigit (hdigits c (by simpa using List.mem_of_mem_head? hc))
  have hlo := v.le_toInt
  have hhi := v.toInt_lt
  rw [← Int32.toInt_inj, hd.render]
  by_cases hneg : v.toInt < 0
  · -- `-` and the digits of `|v|`, at most `2 ^ 31`
    have hsign : s.sign_text v.toInt = [45] := by
      simp [IntConversion.sign_text, hd.is_signed, hd.value, hneg]
    rw [hsign, ← List.append_nil (_ ++ s.digits_body v.toInt),
      @atoi_reads (List.replicate (s.pad_length v.toInt) 32) [45] (s.digits_body v.toInt) []
        (by simp [isspace]) (by simp) hdigits (by simp) (by simp [isspace]) (by simp)
        (by rw [if_pos rfl, hvalue_body]; omega),
      if_pos rfl, hvalue_body]
    omega
  · have hfit : decimal_value (s.digits_body v.toInt) < 2 ^ 31 := by rw [hvalue_body]; omega
    rcases hd.flags_eq with h | h | h
    · have hsign : s.sign_text v.toInt = [] := by simp [IntConversion.sign_text, hd.value, hneg, h]
      rw [hsign, List.append_nil, ← List.append_nil (_ ++ s.digits_body v.toInt),
        ← List.append_nil (List.replicate _ 32),
        @atoi_reads (List.replicate (s.pad_length v.toInt) 32) [] (s.digits_body v.toInt) []
          (by simp [isspace]) (by simp) hdigits (by simp) hspace (fun _ => hnosign)
          (by simpa using hfit), if_neg (by simp), hvalue_body]
      omega
    · have hsign : s.sign_text v.toInt = [43] := by
        simp [IntConversion.sign_text, hd.is_signed, hd.value, hneg, h]
      rw [hsign, ← List.append_nil (_ ++ s.digits_body v.toInt),
        @atoi_reads (List.replicate (s.pad_length v.toInt) 32) [43] (s.digits_body v.toInt) []
          (by simp [isspace]) (by simp) hdigits (by simp) (by simp [isspace]) (by simp)
          (by simpa using hfit), if_neg (by simp), hvalue_body]
      omega
    · -- a space sign is whitespace to `atoi`
      have hsign : s.sign_text v.toInt = [32] := by
        simp [IntConversion.sign_text, hd.is_signed, hd.value, hneg, h]
      rw [hsign, ← List.append_nil (_ ++ s.digits_body v.toInt),
        ← List.append_nil (List.replicate _ 32 ++ [32]),
        @atoi_reads (List.replicate (s.pad_length v.toInt) 32 ++ [32]) [] (s.digits_body v.toInt) []
          (fun c hc => by
            have h32 : c = 32 := by
              rcases List.mem_append.mp hc with hc | hc
              · exact List.eq_of_mem_replicate hc
              · exact List.mem_singleton.mp hc
            rw [h32]
            rfl)
          (by simp) hdigits (by simp) hspace (fun _ => hnosign)
          (by simpa using hfit), if_neg (by simp), hvalue_body]
      omega

end PlainD

/-! ## `printf`'s integer conversions -/

instance (s : IntConversion) : Decidable s.ZeroLeftStar :=
  inferInstanceAs (Decidable (_ ∧ _ ∧ _ ∧ _))

/-- `%0*d`: the `0` flag and a width from `*`, here -5. -/
def zero_star_d : IntConversion :=
  ⟨[48], .star (-5), .none, .INT, 100, fun c hc => by rw [List.mem_singleton.mp hc]; decide,
    Or.inl rfl⟩

theorem vprintf_integer_conversions :
    (∀ s : IntConversion, s.InScope → ¬s.ZeroLeftStar → ∀ v rest args,
      __vprintf (s.text ++ rest) (s.args v ++ args) = s.render v ++ __vprintf rest args) ∧
    (∀ s : IntConversion, s.InScope → s.ZeroLeftStar → ∀ v rest args,
      __vprintf (s.text ++ rest) (s.args v ++ args) =
        s.sign_text v ++ s.prefix_text v ++ List.replicate (s.pad_length v) 48 ++ s.digits_body v ++
          List.replicate (s.pad_length v) 32 ++ __vprintf rest args) ∧
    (∀ (mem : Nat → UInt8) (buffer buf_size : Nat) (format : List UInt8) (args : List Arg),
      buf_size ≤ 2 ^ 31 → (__vprintf format args).length < 2 ^ 31 →
      vsnprintf mem buffer buf_size format args =
        ((if 0 < buf_size then
          Function.update (ByteMap.copy mem buffer (fun i => (__vprintf format args).getD i 0) 0
            (min (__vprintf format args).length (buf_size - 1)))
            (buffer + min (__vprintf format args).length (buf_size - 1)) 0
        else mem), Int32.ofNat (__vprintf format args).length)) ∧
    zero_star_d.text = "%0*d".toList.map Char.toUInt8 ∧ zero_star_d.InScope ∧
      zero_star_d.ZeroLeftStar ∧
      __vprintf zero_star_d.text (zero_star_d.args 1) = "00001    ".toList.map Char.toUInt8 ∧
      zero_star_d.render 1 = "1    ".toList.map Char.toUInt8 :=
  ⟨fun s hs hd v rest args => vprintf_render s v hs hd rest args,
    fun s hs hd v rest args => vprintf_zero_left_star s v hs hd rest args,
    fun mem buffer _ format args hsize hlen => vsnprintf_eq mem buffer format args hsize hlen,
    by decide, ⟨by decide, trivial, by decide, by decide⟩, by decide, by decide +kernel,
    by decide +kernel⟩

theorem atoi_reads_printed_int :
    (∀ ws sign ds rest : List UInt8, (∀ c ∈ ws, isspace c = true) →
      (sign = [] ∨ sign = [43] ∨ sign = [45]) → (∀ c ∈ ds, isdigit c = true) →
      (∀ c ∈ rest.head?, isdigit c = false) → (∀ c ∈ (sign ++ ds ++ rest).head?, isspace c = false) →
      (sign = [] → ∀ c ∈ (ds ++ rest).head?, c ≠ 43 ∧ c ≠ 45) →
      (if sign = [45] then decimal_value ds ≤ 2 ^ 31 else decimal_value ds < 2 ^ 31) →
      (atoi (ws ++ sign ++ ds ++ rest)).toInt =
        if sign = [45] then -(decimal_value ds : Int) else decimal_value ds) ∧
    ∀ (flags : List UInt8) (width : Nat) (v : Int32) (mem : Nat → UInt8) (buffer buf_size : Nat),
      (flags = [] ∨ flags = [43] ∨ flags = [32]) → width < 2 ^ 31 → max width 11 < buf_size →
      buf_size ≤ 2 ^ 31 →
      atoi ((List.range (snprintf mem buffer buf_size (37 :: (flags ++ decimal_text width ++ [100]))
          [.int v.toInt]).2.toInt.toNat).map fun i =>
        (snprintf mem buffer buf_size (37 :: (flags ++ decimal_text width ++ [100]))
          [.int v.toInt]).1 (buffer + i)) = v := by
  refine ⟨fun ws sign ds rest => atoi_reads, ?_⟩
  intro flags width v mem buffer buf_size hflags hwidth hroom hsize
  -- the format is one conversion: `%`, the flag, the width and `d`
  let s : IntConversion := ⟨flags, .digits width, .none, .INT, 100, fun c hc => by
    rcases hflags with rfl | rfl | rfl <;> simp at hc <;> subst hc <;> decide, Or.inl rfl⟩
  have hd : s.PlainD := ⟨hflags, by simp [s, Given.value], rfl, rfl, rfl⟩
  have hs : s.InScope := ⟨by simp [s, Given.value]; omega, trivial, by simp [s, Given.precision_value],
    fun h => by rcases hflags with rfl | rfl | rfl <;> simp [s] at h⟩
  have hz : ¬s.ZeroLeftStar := fun h => by
    rcases hflags with rfl | rfl | rfl <;> simp [s, IntConversion.ZeroLeftStar] at h
  have hout : __vprintf (37 :: (flags ++ decimal_text width ++ [100])) [.int v.toInt] =
      s.render v.toInt := by
    simpa [s, IntConversion.text, IntConversion.args, Given.text, Given.precision_text,
      ConvType.text, Given.args, __vprintf] using vprintf_render s v.toInt hs hz [] []
  have hlen : (s.render v.toInt).length < buf_size := by
    have := hd.render_length_le v
    have hw : s.width.value.natAbs = width := by simp [s, Given.value]
    omega
  unfold snprintf
  rw [vsnprintf_eq mem buffer _ _ hsize (by rw [hout]; omega), hout,
    if_pos (by omega : 0 < buf_size), Int32.toInt_ofNat_of_lt (by omega), Int.toNat_natCast]
  have hread := read_vsnprintf_state mem buffer
    (show (s.render v.toInt).length ≤ buf_size - 1 by omega)
  simp only [vsnprintf_state] at hread
  rw [hread]
  exact hd.atoi_render v

/-- `atoi ("  -42x")` takes the spaces, the sign and the digits `42`; and `INT_MIN`,
printed by `snprintf` with `"%+12d"` into a buffer of 16 bytes, reads back. -/
theorem atoi_reads_printed_int_min :
    (atoi ([32, 32] ++ [45] ++ [52, 50] ++ [120])).toInt = -(decimal_value [52, 50] : Int) ∧
      atoi ((List.range (snprintf (fun _ => 0) 0 16 (37 :: ([43] ++ decimal_text 12 ++ [100]))
          [.int Int32.minValue.toInt]).2.toInt.toNat).map fun i =>
        (snprintf (fun _ => 0) 0 16 (37 :: ([43] ++ decimal_text 12 ++ [100]))
          [.int Int32.minValue.toInt]).1 (0 + i)) = Int32.minValue := by
  obtain ⟨hread, hprint⟩ := atoi_reads_printed_int
  -- the membership tests by the kernel: with all of Mathlib in scope the elaborator's
  -- evaluation of the bounded `∀` instance runs out of depth
  have hneg := hread [32, 32] [45] [52, 50] [120] (by decide +kernel) (by decide)
    (by decide +kernel) (by decide +kernel) (by decide +kernel) (by decide) (by decide)
  rw [if_pos rfl] at hneg
  exact ⟨hneg, hprint [43] 12 Int32.minValue (fun _ => 0) 0 16 (by decide) (by decide) (by decide)
    (by decide)⟩

end Pintos.Lib
