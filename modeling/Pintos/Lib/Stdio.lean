import Pintos.Lib.Stdlib
import Pintos.Positional
import Mathlib.Data.Nat.Digits.Lemmas

/-!
# `printf` of `lib/stdio.c`

`__vprintf` walks the format, copies what is not a conversion, and for each conversion
calls `parse_conversion` for its flags, field width, precision and length modifier, reads
its argument with `va_arg` and formats it. The model gives the characters `__vprintf`
passes to its `output` function, in order; `vsnprintf` stores them through
`vsnprintf_helper`. Arguments are the values the caller passed (`Arg`), read at the type
the conversion names: `int`, `long`, `size_t` and `ptrdiff_t` have 32 bits on the 80x86,
`intmax_t` and `long long` 64.

`format_integer` stores the digits least significant first in `buf`, with a `','` before
every `group`-th, then pads to the precision with `'0'`s and outputs the buffer backwards;
the model keeps the buffer as the list of what was stored, the last first. The `int`
variables (`width`, `precision`, `pad_cnt`, `aux->length`) are `Int32`.

Not modelled: the floating-point conversions and `%n`, which `__vprintf` only reports, are
kept as that report; a format ending in `%` makes `__vprintf` step past the terminator,
where the model stops.
-/

namespace Pintos.Lib

open Positional

/-- An argument of a `va_list`: an integer as the caller passed it, or a pointer with the
string at it. -/
inductive Arg
  | int (v : Int)
  | ptr (addr : Nat) (s : List UInt8)

/-- The argument as an integer: a pointer reads as its address. -/
def Arg.value : Arg → Int
  | .int v => v
  | .ptr addr _ => addr

/-- The string `%s` prints for the argument: `"(null)"` for a null pointer. An integer
other than 0 read as a pointer gives no string here. -/
def Arg.string : Arg → List UInt8
  | .ptr addr s => if addr = 0 then ['(', 'n', 'u', 'l', 'l', ')'].map Char.toUInt8 else s
  | .int v => if v = 0 then ['(', 'n', 'u', 'l', 'l', ')'].map Char.toUInt8 else []

/-- `va_arg (args, ...)`: the next argument and the rest. Reading past the last argument
is undefined; here it reads 0. -/
def next_arg : List Arg → Arg × List Arg
  | a :: args => (a, args)
  | [] => (.int 0, [])

/-- The value a signed integer type of `bits` bits gives to `v`. -/
def signed_of (bits : Nat) (v : Int) : Int := v.bmod (2 ^ bits)

/-- The value an unsigned integer type of `bits` bits gives to `v`. -/
def unsigned_of (bits : Nat) (v : Int) : Nat := (v % 2 ^ bits).toNat

/-- The flag bits of `struct printf_conversion`. -/
structure Flags where
  MINUS : Bool
  PLUS : Bool
  SPACE : Bool
  POUND : Bool
  ZERO : Bool
  GROUP : Bool
deriving DecidableEq

/-- The type of the argument, from the length modifier. -/
inductive ConvType
  | CHAR | SHORT | INT | INTMAX | LONG | LONGLONG | PTRDIFFT | SIZET
deriving DecidableEq

/-- `struct printf_conversion`. -/
structure printf_conversion where
  flags : Flags
  width : Int32
  precision : Int32
  type : ConvType

/-- `struct integer_base`, with what `format_integer` relies on: a base of at least 2, a
digit for each value below it, and a positive group size. -/
structure integer_base where
  base : Nat
  digits : List UInt8
  x : UInt8
  group : Nat
  base_gt : 1 < base
  digits_length : digits.length = base
  group_pos : 0 < group

/-- The digit character for `d`. -/
def integer_base.digit (b : integer_base) (d : Nat) : UInt8 := b.digits.getD d 0

def base_d : integer_base :=
  ⟨10, "0123456789".toList.map Char.toUInt8, 0, 3, by decide, by decide, by decide⟩

def base_o : integer_base :=
  ⟨8, "01234567".toList.map Char.toUInt8, 0, 3, by decide, by decide, by decide⟩

def base_x : integer_base :=
  ⟨16, "0123456789abcdef".toList.map Char.toUInt8, 120, 4, by decide, by decide, by decide⟩

def base_X : integer_base :=
  ⟨16, "0123456789ABCDEF".toList.map Char.toUInt8, 88, 4, by decide, by decide, by decide⟩

/-! ## `parse_conversion` -/

/-- The flag loop of `parse_conversion`: `-`, `+`, space, `#`, `0` and `'`. -/
def parse_flags (flags : Flags) : List UInt8 → Flags × List UInt8
  | 45 :: format => parse_flags { flags with MINUS := true } format
  | 43 :: format => parse_flags { flags with PLUS := true } format
  | 32 :: format => parse_flags { flags with SPACE := true } format
  | 35 :: format => parse_flags { flags with POUND := true } format
  | 48 :: format => parse_flags { flags with ZERO := true } format
  | 39 :: format => parse_flags { flags with GROUP := true } format
  | format => (flags, format)

/-- `for (; isdigit (*format); format++) n = n * 10 + *format - '0';` -/
def parse_digits (n : Int32) : List UInt8 → Int32 × List UInt8
  | c :: format =>
    if isdigit c then parse_digits (n * 10 + Int32.ofNat c.toNat - 48) format else (n, c :: format)
  | [] => (n, [])

/-- A field width or a precision: `*` reads the next `int` argument, and otherwise the
digits give it. -/
def parse_star (format : List UInt8) (args : List Arg) : Int32 × List UInt8 × List Arg :=
  match format with
  | 42 :: format => (Int32.ofInt (next_arg args).1.value, format, (next_arg args).2)
  | format => ((parse_digits 0 format).1, (parse_digits 0 format).2, args)

/-- The length modifier: `hh`, `h`, `j`, `l`, `ll`, `t` or `z`. -/
def parse_type : List UInt8 → ConvType × List UInt8
  | 104 :: 104 :: format => (.CHAR, format)
  | 104 :: format => (.SHORT, format)
  | 106 :: format => (.INTMAX, format)
  | 108 :: 108 :: format => (.LONGLONG, format)
  | 108 :: format => (.LONG, format)
  | 116 :: format => (.PTRDIFFT, format)
  | 122 :: format => (.SIZET, format)
  | format => (.INT, format)

/-- The precision: after a `.`, `*` or digits, where a negative one means none (-1); none
without a `.`. -/
def parse_precision (format : List UInt8) (args : List Arg) : Int32 × List UInt8 × List Arg :=
  match format with
  | 46 :: format =>
    let r := parse_star format args
    ((if r.1 < 0 then -1 else r.1), r.2.1, r.2.2)
  | format => (-1, format, args)

/-- `parse_conversion (format, c, args)`: the conversion, the format from its conversion
character on, and the arguments left. -/
def parse_conversion (format : List UInt8) (args : List Arg) :
    printf_conversion × List UInt8 × List Arg :=
  let f := parse_flags ⟨false, false, false, false, false, false⟩ format
  let flags := if f.1.MINUS then { f.1 with ZERO := false } else f.1
  let flags := if flags.PLUS then { flags with SPACE := false } else flags
  let w := parse_star f.2 args
  -- a negative width from `*` means `-`
  let width := if w.1 < 0 then -w.1 else w.1
  let flags := if w.1 < 0 then { flags with MINUS := true } else flags
  let p := parse_precision w.2.1 w.2.2
  let flags := if p.1 ≥ 0 then { flags with ZERO := false } else flags
  let t := parse_type p.2.1
  (⟨flags, width, p.1, t.1⟩, t.2, p.2.2)

/-! ## `format_integer` -/

/-- `output_dup (ch, cnt, ...)`. -/
def output_dup (ch : UInt8) (cnt : Nat) : List UInt8 := List.replicate cnt ch

/-- The digit loop of `format_integer`, from `digit_cnt` digits stored in `buf`: a `','`
before every `b.group`-th digit under `GROUP`, then the digit. -/
def format_digits (b : integer_base) (group : Bool) (value digit_cnt : Nat) (buf : List UInt8) :
    List UInt8 :=
  if _ : value > 0 then
    let buf := if group && digit_cnt > 0 && digit_cnt % b.group == 0 then 44 :: buf else buf
    format_digits b group (value / b.base) (digit_cnt + 1) (b.digit (value % b.base) :: buf)
  else buf
termination_by value
decreasing_by exact Nat.div_lt_self ‹_› b.base_gt

/-- `while (cp - buf < precision && cp < buf + sizeof buf - 1) *cp++ = '0';`, with
`char buf[64]`. -/
def pad_precision (precision : Int32) (buf : List UInt8) : List UInt8 :=
  if _ : (buf.length : Int) < precision.toInt ∧ buf.length < 64 - 1 then
    pad_precision precision (48 :: buf)
  else buf
termination_by 64 - 1 - buf.length

/-- The sign character of `format_integer`, 0 for none: an unsigned conversion has none,
whatever its flags. -/
def sign_char (is_signed negative : Bool) (flags : Flags) : UInt8 :=
  if is_signed then
    if flags.PLUS then (if negative then 45 else 43)
    else if flags.SPACE then (if negative then 45 else 32)
    else if negative then 45 else 0
  else 0

/-- The `x` of `0x` or `0X`, 0 for none: `#`, a nonzero value and a base that has one. -/
def x_char (b : integer_base) (flags : Flags) (value : Nat) : UInt8 :=
  if flags.POUND && value != 0 then b.x else 0

/-- `pad_cnt = c->width - (cp - buf) - (x ? 2 : 0) - (sign != 0);`, and 0 if negative. -/
def pad_count (width : Int32) (len : Nat) (x sign : UInt8) : Int32 :=
  let pad_cnt := width - Int32.ofNat len - (if x != 0 then 2 else 0) - (if sign != 0 then 1 else 0)
  if pad_cnt < 0 then 0 else pad_cnt

/-- The output of `format_integer`: padding, sign, `0x`, zero padding, the buffer from its
last character stored, padding. -/
def output_integer (flags : Flags) (sign x : UInt8) (buf : List UInt8) (pad_cnt : Int32) :
    List UInt8 :=
  (if !(flags.MINUS || flags.ZERO) then output_dup 32 pad_cnt.toInt.toNat else []) ++
    (if sign != 0 then [sign] else []) ++
    (if x != 0 then [48, x] else []) ++
    (if flags.ZERO then output_dup 48 pad_cnt.toInt.toNat else []) ++
    buf ++
    (if flags.MINUS then output_dup 32 pad_cnt.toInt.toNat else [])

/-- `format_integer (value, is_signed, negative, b, c, output, aux)`. -/
def format_integer (value : Nat) (is_signed negative : Bool) (b : integer_base)
    (c : printf_conversion) : List UInt8 :=
  let sign := sign_char is_signed negative c.flags
  let x := x_char b c.flags value
  let buf := format_digits b c.flags.GROUP value 0 []
  let precision : Int32 := if c.precision < 0 then 1 else c.precision
  let buf := pad_precision precision buf
  -- `#` in octal: the result begins with `'0'`
  let buf := if c.flags.POUND && b.base == 8 && (buf.isEmpty || buf.head? != some 48) then 48 :: buf
    else buf
  output_integer c.flags sign x buf (pad_count c.width buf.length x sign)

/-- `format_string (string, length, c, output, aux)`. -/
def format_string (string : List UInt8) (length : Int32) (c : printf_conversion) : List UInt8 :=
  (if c.width > length && !c.flags.MINUS then output_dup 32 (c.width - length).toInt.toNat
    else []) ++
    string.take length.toInt.toNat ++
    (if c.width > length && c.flags.MINUS then output_dup 32 (c.width - length).toInt.toNat
      else [])

/-! ## `__vprintf` -/

/-- The `intmax_t` value of `%d` and `%i`, read at the type of the length modifier. -/
def signed_value (type : ConvType) (a : Arg) : Int :=
  match type with
  | .CHAR => signed_of 8 (signed_of 32 a.value)
  | .SHORT => signed_of 16 (signed_of 32 a.value)
  | .INT => signed_of 32 a.value
  | .INTMAX => signed_of 64 a.value
  | .LONG => signed_of 32 a.value
  | .LONGLONG => signed_of 64 a.value
  | .PTRDIFFT => signed_of 32 a.value
  | .SIZET =>
    -- `if (value > SIZE_MAX / 2) value = value - SIZE_MAX - 1;`
    let value : Int := unsigned_of 32 a.value
    if value > (2 ^ 32 - 1) / 2 then value - (2 ^ 32 - 1) - 1 else value

/-- The `uintmax_t` value of `%o`, `%u`, `%x` and `%X`, read at the type of the length
modifier. -/
def unsigned_value (type : ConvType) (a : Arg) : Nat :=
  match type with
  | .CHAR => unsigned_of 8 (unsigned_of 32 a.value)
  | .SHORT => unsigned_of 16 (unsigned_of 32 a.value)
  | .INT => unsigned_of 32 a.value
  | .INTMAX => unsigned_of 64 a.value
  | .LONG => unsigned_of 32 a.value
  | .LONGLONG => unsigned_of 64 a.value
  -- `value &= ((uintmax_t) PTRDIFF_MAX << 1) | 1;`
  | .PTRDIFFT => unsigned_of 64 (signed_of 32 a.value) &&& ((2 ^ 31 - 1) <<< 1 ||| 1)
  | .SIZET => unsigned_of 32 a.value

/-- What `__printf ("<<no %%%c in kernel>>", ...)` (for `kernel`) or
`__printf ("<<no %%%c conversion>>", ...)` outputs for the character `ch`. -/
def no_conversion (ch : UInt8) (kernel : Bool) : List UInt8 :=
  "<<no %".toList.map Char.toUInt8 ++ [ch] ++
    (if kernel then " in kernel>>" else " conversion>>").toList.map Char.toUInt8

/-- The `switch (*format)` of `__vprintf`: the output of the conversion with character
`ch`, and the arguments left. -/
def convert (c : printf_conversion) (ch : UInt8) (args : List Arg) : List UInt8 × List Arg :=
  match ch with
  | 100 | 105 =>
    let value := signed_value c.type (next_arg args).1
    -- `value < 0 ? -value : value`, converted to `uintmax_t`
    (format_integer (if value < 0 then -value else value).toNat true (decide (value < 0)) base_d c,
      (next_arg args).2)
  | 111 => (format_integer (unsigned_value c.type (next_arg args).1) false false base_o c,
      (next_arg args).2)
  | 117 => (format_integer (unsigned_value c.type (next_arg args).1) false false base_d c,
      (next_arg args).2)
  | 120 => (format_integer (unsigned_value c.type (next_arg args).1) false false base_x c,
      (next_arg args).2)
  | 88 => (format_integer (unsigned_value c.type (next_arg args).1) false false base_X c,
      (next_arg args).2)
  | 99 =>
    -- `char ch = va_arg (args, int);`
    (format_string [UInt8.ofInt (next_arg args).1.value] 1 c, (next_arg args).2)
  | 115 =>
    -- `strnlen (s, c.precision)`, whose `size_t` bound is `SIZE_MAX` for -1
    let s := (next_arg args).1.string
    (format_string s (Int32.ofNat (min s.length (unsigned_of 32 c.precision.toInt))) c,
      (next_arg args).2)
  | 112 =>
    -- `c.flags = POUND;` and `%#x` of `(uintptr_t) p`
    (format_integer (unsigned_of 32 (next_arg args).1.value) false false base_x
      { c with flags := ⟨false, false, false, true, false, false⟩ }, (next_arg args).2)
  | 102 | 101 | 69 | 103 | 71 | 110 => (no_conversion ch true, args)
  | _ => (no_conversion ch false, args)

theorem parse_flags_length_le (flags : Flags) (format : List UInt8) :
    (parse_flags flags format).2.length ≤ format.length := by
  fun_induction parse_flags flags format <;> simp_all <;> omega

theorem parse_digits_length_le (n : Int32) (format : List UInt8) :
    (parse_digits n format).2.length ≤ format.length := by
  induction format generalizing n with
  | nil => simp [parse_digits]
  | cons c format ih =>
    unfold parse_digits
    split_ifs
    · exact Nat.le_succ_of_le (ih _)
    · exact Nat.le_refl _

theorem parse_star_length_le (format : List UInt8) (args : List Arg) :
    (parse_star format args).2.1.length ≤ format.length := by
  unfold parse_star
  split
  · simp
  · exact parse_digits_length_le 0 _

theorem parse_type_length_le (format : List UInt8) : (parse_type format).2.length ≤ format.length := by
  unfold parse_type
  split <;> simp <;> omega

theorem parse_precision_length_le (format : List UInt8) (args : List Arg) :
    (parse_precision format args).2.1.length ≤ format.length := by
  unfold parse_precision
  split
  · exact Nat.le_succ_of_le (parse_star_length_le _ _)
  · exact Nat.le_refl _

/-- `parse_conversion` moves the format on, never back. -/
theorem parse_conversion_length_le (format : List UInt8) (args : List Arg) :
    (parse_conversion format args).2.1.length ≤ format.length :=
  calc (parse_conversion format args).2.1.length
    _ ≤ _ := parse_type_length_le _
    _ ≤ _ := parse_precision_length_le _ _
    _ ≤ _ := parse_star_length_le _ _
    _ ≤ format.length := parse_flags_length_le _ _

set_option linter.style.nameCheck false in
/-- `__vprintf (format, args, output, aux)`: what it passes to `output`, in order. -/
def __vprintf (format : List UInt8) (args : List Arg) : List UInt8 :=
  match format with
  | [] => []
  | 37 :: 37 :: format => 37 :: __vprintf format args
  | 37 :: format =>
    match _ : parse_conversion format args with
    | (c, ch :: format', args') => (convert c ch args').1 ++ __vprintf format' (convert c ch args').2
    -- the terminator as conversion character; the loop then steps past it
    | (_, [], _) => no_conversion 0 false
  | ch :: format => ch :: __vprintf format args
termination_by format.length
decreasing_by
  all_goals simp only [List.length_cons]
  · omega
  · have := parse_conversion_length_le format args
    rw [‹parse_conversion format args = _›] at this
    simp only [List.length_cons] at this
    omega
  · omega

/-! ## The loops of `format_integer` -/

/-- The digit loop stores the digits least significant first, each after the `','` its
index calls for; read back from the last stored, the separators stand between groups. -/
theorem format_digits_eq (b : integer_base) (group : Bool) :
    ∀ value digit_cnt buf, format_digits b group value digit_cnt buf =
      (sepPush (fun j => group && decide (j > 0) && j % b.group == 0) 44 digit_cnt
        ((Nat.digits b.base value).map b.digit)).reverse ++ buf := by
  intro value
  induction value using Nat.strongRecOn with
  | ind value ih =>
    intro digit_cnt buf
    rw [format_digits]
    by_cases hv : value > 0
    · rw [dif_pos hv, ih _ (Nat.div_lt_self hv b.base_gt), Nat.digits_def' b.base_gt hv,
        List.map_cons, sepPush]
      by_cases hsep : (group && decide (digit_cnt > 0) && digit_cnt % b.group == 0) = true
      · simp [hsep]
      · simp [hsep]
    · rw [dif_neg hv, Nat.eq_zero_of_not_pos hv, Nat.digits_zero]
      rfl

/-- The precision loop puts `'0'`s in front up to the precision, at most 63 characters. -/
theorem pad_precision_eq (precision : Int32) (buf : List UInt8) :
    pad_precision precision buf =
      output_dup 48 (min precision.toInt 63 - buf.length).toNat ++ buf := by
  induction buf using pad_precision.induct precision with
  | case1 buf hlt ih =>
    rw [pad_precision, dif_pos hlt, ih, output_dup, output_dup, List.length_cons]
    have hn : (min precision.toInt 63 - buf.length).toNat =
        (min precision.toInt 63 - ↑(buf.length + 1)).toNat + 1 := by omega
    rw [hn, List.replicate_succ', List.append_assoc, List.singleton_append]
  | case2 buf hge =>
    rw [pad_precision, dif_neg hge]
    have hn : (min precision.toInt 63 - buf.length).toNat = 0 := by omega
    rw [hn]
    rfl

/-- The buffer `format_integer` outputs: the digits most significant first with their
separators, the `'0'`s of the precision in front, and the `'0'` of `#` in octal. -/
def digits_text (b : integer_base) (flags : Flags) (precision : Int32) (value : Nat) :
    List UInt8 :=
  let buf := (sepPush (fun j => flags.GROUP && decide (j > 0) && j % b.group == 0) 44 0
    ((Nat.digits b.base value).map b.digit)).reverse
  let precision : Int32 := if precision < 0 then 1 else precision
  let buf := output_dup 48 (min precision.toInt 63 - buf.length).toNat ++ buf
  if flags.POUND && b.base == 8 && (buf.isEmpty || buf.head? != some 48) then 48 :: buf else buf

theorem format_integer_eq (value : Nat) (is_signed negative : Bool) (b : integer_base)
    (c : printf_conversion) :
    format_integer value is_signed negative b c =
      output_integer c.flags (sign_char is_signed negative c.flags) (x_char b c.flags value)
        (digits_text b c.flags c.precision value)
        (pad_count c.width (digits_text b c.flags c.precision value).length (x_char b c.flags value)
          (sign_char is_signed negative c.flags)) := by
  simp only [format_integer, format_digits_eq, pad_precision_eq, List.append_nil]
  rfl

/-- Without overflow, `pad_cnt` is what the width leaves over the output's other parts. -/
theorem pad_count_toNat {width : Int32} {len : Nat} (x sign : UInt8) (hw : 0 ≤ width.toInt)
    (hlen : len ≤ 2 ^ 30) :
    (pad_count width len x sign).toInt.toNat =
      (width.toInt - (len + (if x != 0 then 2 else 0) + (if sign != 0 then 1 else 0))).toNat := by
  have hlen' : (Int32.ofNat len).toInt = len := by
    rw [Int32.toInt_ofNat']
    exact Int.bmod_eq_of_le (by unfold Int32.size; omega) (by unfold Int32.size; omega)
  have hw' := width.toInt_lt
  have hx : (if x != 0 then (2 : Int32) else 0).toInt = if x != 0 then 2 else 0 := by
    split <;> rfl
  have hs : (if sign != 0 then (1 : Int32) else 0).toInt = if sign != 0 then 1 else 0 := by
    split <;> rfl
  unfold pad_count
  dsimp only
  set d := width - Int32.ofNat len - (if x != 0 then 2 else 0) - (if sign != 0 then 1 else 0)
  -- the difference stays above `INT_MIN`
  have hd : d.toInt = width.toInt - len - (if x != 0 then 2 else 0) - (if sign != 0 then 1 else 0) := by
    simp only [d, Int32.toInt_sub, hlen', hx, hs, Int.bmod_sub_bmod]
    apply Int.bmod_eq_of_le <;> split_ifs <;> simp <;> omega
  have h0 : (0 : Int32).toInt = 0 := rfl
  by_cases hneg : d < 0
  · rw [if_pos hneg, h0]
    rw [Int32.lt_iff_toInt_lt, hd, h0] at hneg
    split_ifs at hneg ⊢ <;> omega
  · rw [if_neg hneg, hd]
    rw [Int32.lt_iff_toInt_lt, hd, h0] at hneg
    split_ifs at hneg ⊢ <;> omega

/-! ## The argument's value -/

/-- The width of the argument type, in bits. -/
def ConvType.bits : ConvType → Nat
  | .CHAR => 8
  | .SHORT => 16
  | .INT => 32
  | .INTMAX => 64
  | .LONG => 32
  | .LONGLONG => 64
  | .PTRDIFFT => 32
  | .SIZET => 32

/-- A signed conversion reads the value the argument has as the signed type of the length
modifier; for `%zd`, `size_t` read as signed. -/
theorem signed_value_int (t : ConvType) (v : Int) :
    signed_value t (.int v) = v.bmod (2 ^ t.bits) := by
  cases t with
  | CHAR => exact Int.bmod_bmod_of_dvd (by decide)
  | SHORT => exact Int.bmod_bmod_of_dvd (by decide)
  | SIZET =>
    -- `value - SIZE_MAX - 1` is the balanced remainder
    have hr : 0 ≤ v % 2 ^ 32 := Int.emod_nonneg _ (by decide)
    have hr' : v % 2 ^ 32 < 2 ^ 32 := Int.emod_lt_of_pos _ (by decide)
    simp only [signed_value, unsigned_of, Arg.value, ConvType.bits, Int.toNat_of_nonneg hr,
      Int.bmod_def]
    split_ifs <;> omega
  | _ => rfl

/-- An unsigned conversion reads the value the argument has as the unsigned type of the
length modifier; for `%td`, the mask keeps the low 32 bits of `ptrdiff_t`. -/
theorem unsigned_value_int (t : ConvType) (v : Int) :
    unsigned_value t (.int v) = (v % 2 ^ t.bits).toNat := by
  have h32 : 0 ≤ v % 2 ^ 32 := Int.emod_nonneg _ (by decide)
  cases t with
  | CHAR =>
    simp only [unsigned_value, unsigned_of, Arg.value, ConvType.bits, Int.toNat_of_nonneg h32]
    rw [Int.emod_emod_of_dvd _ (by decide)]
  | SHORT =>
    simp only [unsigned_value, unsigned_of, Arg.value, ConvType.bits, Int.toNat_of_nonneg h32]
    rw [Int.emod_emod_of_dvd _ (by decide)]
  | PTRDIFFT =>
    have hmask : ((2 ^ 31 - 1) <<< 1 ||| 1 : Nat) = 2 ^ 32 - 1 := by decide
    have h64 : 0 ≤ (v.bmod (2 ^ 32)) % 2 ^ 64 := Int.emod_nonneg _ (by decide)
    simp only [unsigned_value, unsigned_of, signed_of, Arg.value, ConvType.bits, hmask,
      Nat.and_two_pow_sub_one_eq_mod]
    have key : (v.bmod (2 ^ 32) % 2 ^ 64) % 2 ^ 32 = v % 2 ^ 32 := by
      rw [Int.emod_emod_of_dvd _ (by decide)]
      exact_mod_cast @Int.bmod_emod v (2 ^ 32)
    omega
  | _ => rfl

/-! ## Parsing a conversion as a format writes it -/

/-- A flag character: `-`, `+`, space, `#`, `0` or `'`. -/
def IsFlag (c : UInt8) : Prop := c = 45 ∨ c = 43 ∨ c = 32 ∨ c = 35 ∨ c = 48 ∨ c = 39

instance : DecidablePred IsFlag := fun c =>
  inferInstanceAs (Decidable (c = 45 ∨ c = 43 ∨ c = 32 ∨ c = 35 ∨ c = 48 ∨ c = 39))

/-- The flags `F` with those the characters `fl` set. -/
def Flags.add (F : Flags) (fl : List UInt8) : Flags :=
  ⟨F.MINUS || decide (45 ∈ fl), F.PLUS || decide (43 ∈ fl), F.SPACE || decide (32 ∈ fl),
    F.POUND || decide (35 ∈ fl), F.ZERO || decide (48 ∈ fl), F.GROUP || decide (39 ∈ fl)⟩

theorem parse_flags_of_not_flag (F : Flags) {c : UInt8} (hc : ¬IsFlag c) (format : List UInt8) :
    parse_flags F (c :: format) = (F, c :: format) := by
  unfold parse_flags
  split <;> simp_all [IsFlag]

/-- The flag loop reads the flag characters, in any order and number, up to the first
other character. -/
theorem parse_flags_append {fl rest : List UInt8} (hfl : ∀ c ∈ fl, IsFlag c)
    (hrest : ∀ c ∈ rest.head?, ¬IsFlag c) : ∀ F, parse_flags F (fl ++ rest) = (F.add fl, rest) := by
  induction fl with
  | nil =>
    intro F
    have hF : F.add [] = F := by
      cases F
      simp [Flags.add]
    rw [hF, List.nil_append]
    cases rest with
    | nil => rfl
    | cons c rest => exact parse_flags_of_not_flag F (hrest c rfl) rest
  | cons c fl ih =>
    intro F
    have ih' := ih fun c hc => hfl c (List.mem_cons_of_mem _ hc)
    rcases hfl c List.mem_cons_self with rfl | rfl | rfl | rfl | rfl | rfl <;>
    · simp only [List.cons_append, parse_flags, ih']
      cases F
      simp [Flags.add]

/-- The decimal digits of `n`, most significant first; none for 0. -/
def decimal_text (n : Nat) : List UInt8 :=
  ((Nat.digits 10 n).map fun d => UInt8.ofNat (48 + d)).reverse

theorem toNat_digit_char {d : Nat} (hd : d < 10) : (UInt8.ofNat (48 + d)).toNat = 48 + d := by
  rw [UInt8.toNat_ofNat']
  omega

theorem isdigit_of_mem_decimal_text {n : Nat} {c : UInt8} (hc : c ∈ decimal_text n) :
    isdigit c = true := by
  simp only [decimal_text, List.mem_reverse, List.mem_map] at hc
  obtain ⟨d, hd, rfl⟩ := hc
  have hd10 := Nat.digits_lt_base (by decide) hd
  simp only [isdigit, UInt8.le_iff_toNat_le, toNat_digit_char hd10, Bool.and_eq_true,
    decide_eq_true_eq]
  exact ⟨by simp, by simp; omega⟩

theorem decimal_value_decimal_text (n : Nat) : decimal_value (decimal_text n) = n := by
  have hmap : ((Nat.digits 10 n).map fun d => UInt8.ofNat (48 + d)).map (fun c => c.toNat - 48) =
      Nat.digits 10 n := by
    rw [List.map_map]
    conv_rhs => rw [← List.map_id (Nat.digits 10 n)]
    apply List.map_congr_left
    intro d hd
    simp only [Function.comp_apply, id]
    rw [toNat_digit_char (Nat.digits_lt_base (by decide) hd)]
    simp
  rw [decimal_value, decimal_text, List.map_reverse, List.reverse_reverse, hmap,
    Nat.ofDigits_digits]

/-- The most significant digit of a positive number is not `'0'`. -/
theorem decimal_text_head {n : Nat} (hn : n ≠ 0) :
    ∃ c t, decimal_text n = c :: t ∧ c ≠ 48 := by
  have hne : Nat.digits 10 n ≠ [] := Nat.digits_ne_nil_iff_ne_zero.mpr hn
  have hlast := Nat.getLast_digit_ne_zero 10 hn
  have hd : (Nat.digits 10 n).getLast hne < 10 := Nat.digits_lt_base (by decide) (List.getLast_mem hne)
  refine ⟨UInt8.ofNat (48 + (Nat.digits 10 n).getLast hne),
    (((Nat.digits 10 n).dropLast).map fun d => UInt8.ofNat (48 + d)).reverse, ?_, ?_⟩
  · conv_lhs => rw [decimal_text, ← List.dropLast_append_getLast hne]
    simp
  · intro h
    have := congrArg UInt8.toNat h
    rw [toNat_digit_char hd] at this
    simp at this
    omega

/-- One round of the digit loop of `parse_conversion`, while the number stays below
`2 ^ 31`. -/
theorem toInt_mul_ten_add {n : Int32} {c : UInt8} (hc : isdigit c = true) (hn : 0 ≤ n.toInt)
    (hhi : n.toInt * 10 + (c.toNat - 48) < 2 ^ 31) :
    (n * 10 + Int32.ofNat c.toNat - 48).toInt = n.toInt * 10 + (c.toNat - 48) := by
  have hc' : 48 ≤ c.toNat ∧ c.toNat ≤ 57 := by
    simp [isdigit, UInt8.le_iff_toNat_le] at hc
    exact hc
  have h10 : (10 : Int32).toInt = 10 := by decide
  have h48 : (48 : Int32).toInt = 48 := by decide
  simp only [Int32.toInt_sub, Int32.toInt_add, Int32.toInt_mul, Int32.toInt_ofNat', Int32.size,
    h10, h48, Int.bmod_sub_bmod, Int.add_bmod_bmod, Int.bmod_add_bmod]
  rw [Int.bmod_eq_of_le (by omega) (by omega)]
  omega

/-- The digit loop reads a run of digits up to the first non-digit, while the number stays
below `2 ^ 31`. -/
theorem parse_digits_value {rest : List UInt8} (hrest : ∀ c ∈ rest.head?, isdigit c = false) :
    ∀ (ds : List UInt8) (n : Int32) (a : Nat), (∀ c ∈ ds, isdigit c = true) → n.toInt = a →
      a * 10 ^ ds.length + decimal_value ds < 2 ^ 31 →
      (parse_digits n (ds ++ rest)).1.toInt = ((a * 10 ^ ds.length + decimal_value ds : Nat) : Int) ∧
        (parse_digits n (ds ++ rest)).2 = rest := by
  intro ds
  induction ds with
  | nil =>
    intro n a _ hn _
    cases rest with
    | nil => simp [parse_digits, hn, decimal_value]
    | cons c rest => simp [parse_digits, hrest c rfl, hn, decimal_value]
  | cons c ds ih =>
    intro n a hds hn hfit
    have hc := hds c List.mem_cons_self
    have hd : 48 ≤ c.toNat ∧ c.toNat - 48 < 10 := by
      simp [isdigit, UInt8.le_iff_toNat_le] at hc
      omega
    rw [decimal_value_cons, List.length_cons] at hfit ⊢
    have hpow : 1 ≤ 10 ^ ds.length := Nat.one_le_pow _ _ (by decide)
    have hstep : (a * 10 + (c.toNat - 48)) * 10 ^ ds.length + decimal_value ds =
        a * 10 ^ (ds.length + 1) + (decimal_value ds + 10 ^ ds.length * (c.toNat - 48)) := by
      rw [Nat.pow_succ]
      ring
    have hlt : a * 10 + (c.toNat - 48) < 2 ^ 31 := by
      have := Nat.le_mul_of_pos_right (a * 10 + (c.toNat - 48)) hpow
      omega
    have hval : (n * 10 + Int32.ofNat c.toNat - 48).toInt = ↑(a * 10 + (c.toNat - 48)) := by
      rw [toInt_mul_ten_add hc (by omega) (by rw [hn]; push_cast; omega), hn]
      push_cast
      omega
    rw [List.cons_append, parse_digits, if_pos hc, ← hstep]
    exact ih _ _ (fun c hc => hds c (List.mem_cons_of_mem _ hc)) hval (by omega)

/-- How a conversion gives its field width or its precision: not at all, as decimal digits,
or as `*` with the `int` argument for it. -/
inductive Given
  | none
  | digits (n : Nat)
  | star (v : Int)

namespace Given

/-- What the format writes for it. -/
def text : Given → List UInt8
  | .none => []
  | .digits n => decimal_text n
  | .star _ => [42]

/-- The arguments it takes. -/
def args : Given → List Arg
  | .star v => [.int v]
  | _ => []

/-- The field width it gives. -/
def value : Given → Int
  | .none => 0
  | .digits n => n
  | .star v => v

/-- What the format writes for it as a precision: a `.` in front unless it is not given. -/
def precision_text : Given → List UInt8
  | .none => []
  | g => 46 :: g.text

/-- The precision it gives: -1, none, when it is not given or negative. -/
def precision_value : Given → Int
  | .none => -1
  | .digits n => n
  | .star v => if v < 0 then -1 else v

/-- An `int` holds it. -/
def Fits : Given → Prop
  | .none => True
  | .digits n => n < 2 ^ 31
  | .star v => -2 ^ 31 ≤ v ∧ v < 2 ^ 31

end Given

theorem toInt_ofInt_of_fits {v : Int} (hlo : -2 ^ 31 ≤ v) (hhi : v < 2 ^ 31) :
    (Int32.ofInt v).toInt = v := by
  rw [Int32.toInt_ofInt]
  exact Int.bmod_eq_of_le (by unfold Int32.size; omega) (by unfold Int32.size; omega)

theorem parse_digits_of_not_digit (n : Int32) {rest : List UInt8}
    (hrest : ∀ c ∈ rest.head?, isdigit c = false) : parse_digits n rest = (n, rest) := by
  cases rest with
  | nil => rfl
  | cons c rest => simp [parse_digits, hrest c rfl]

/-- A field width as the format writes it reads as the width it gives. -/
theorem parse_star_given {g : Given} (hg : g.Fits) {rest : List UInt8}
    (hrest : ∀ c ∈ rest.head?, isdigit c = false ∧ c ≠ 42) (args : List Arg) :
    parse_star (g.text ++ rest) (g.args ++ args) = (Int32.ofInt g.value, rest, args) := by
  have hrest' : ∀ c ∈ rest.head?, isdigit c = false := fun c hc => (hrest c hc).1
  cases g with
  | none =>
    have hnot : parse_star rest args = ((parse_digits 0 rest).1, (parse_digits 0 rest).2, args) := by
      unfold parse_star
      split
      · exact absurd rfl (hrest 42 (by simp_all)).2
      · rfl
    simp only [Given.text, Given.args, List.nil_append, hnot, parse_digits_of_not_digit 0 hrest',
      Given.value]
    rfl
  | digits n =>
    have hn : n < 2 ^ 31 := hg
    obtain ⟨hv, hr⟩ := parse_digits_value hrest' (decimal_text n) 0 0
      (fun c hc => isdigit_of_mem_decimal_text hc) rfl
      (by simpa [decimal_value_decimal_text] using hn)
    have hstar : parse_star (decimal_text n ++ rest) args =
        ((parse_digits 0 (decimal_text n ++ rest)).1,
          (parse_digits 0 (decimal_text n ++ rest)).2, args) := by
      unfold parse_star
      split
      · rename_i format heq
        -- a `*` can be neither a digit nor what follows the digits
        cases hd : decimal_text n with
        | nil => rw [hd] at heq; exact absurd rfl (hrest 42 (by simp_all)).2
        | cons c t =>
          rw [hd] at heq
          have hc := isdigit_of_mem_decimal_text (hd ▸ List.mem_cons_self : c ∈ decimal_text n)
          simp only [List.cons_append, List.cons.injEq] at heq
          rw [heq.1] at hc
          exact absurd hc (by decide)
      · rfl
    simp only [Given.text, Given.args, List.nil_append, hstar, hr, Given.value]
    congr 1
    rw [← Int32.toInt_inj, hv, toInt_ofInt_of_fits (v := n) (by omega) (by exact_mod_cast hn)]
    simp [decimal_value_decimal_text]
  | star v => rfl

/-- A precision as the format writes it reads as the precision it gives. -/
theorem parse_precision_given {g : Given} (hg : g.Fits) {rest : List UInt8}
    (hrest : ∀ c ∈ rest.head?, isdigit c = false ∧ c ≠ 42 ∧ c ≠ 46) (args : List Arg) :
    parse_precision (g.precision_text ++ rest) (g.args ++ args) =
      (Int32.ofInt g.precision_value, rest, args) := by
  have hrest' : ∀ c ∈ rest.head?, isdigit c = false ∧ c ≠ 42 := fun c hc =>
    ⟨(hrest c hc).1, (hrest c hc).2.1⟩
  cases g with
  | none =>
    cases rest with
    | nil => rfl
    | cons c rest =>
      have h46 := (hrest c rfl).2.2
      unfold parse_precision
      split
      · rename_i heq
        simp only [Given.precision_text, List.nil_append, List.cons.injEq] at heq
        exact absurd heq.1 h46
      · rfl
  | digits n =>
    have hp := parse_star_given (g := .digits n) hg hrest' args
    simp only [Given.precision_text, Given.args, List.cons_append, List.nil_append] at hp ⊢
    simp only [parse_precision, hp, Given.value, Given.precision_value]
    have hn : n < 2 ^ 31 := hg
    have h0 : (0 : Int32).toInt = 0 := rfl
    have hnn : ¬Int32.ofInt n < 0 := by
      rw [Int32.lt_iff_toInt_lt, toInt_ofInt_of_fits (v := n) (by omega) (by exact_mod_cast hn), h0]
      omega
    rw [if_neg hnn]
  | star v =>
    have hp := parse_star_given (g := .star v) hg hrest' args
    simp only [Given.precision_text, Given.args, List.cons_append, List.nil_append] at hp ⊢
    simp only [parse_precision, hp, Given.value, Given.precision_value]
    obtain ⟨hlo, hhi⟩ := hg
    have h0 : (0 : Int32).toInt = 0 := rfl
    by_cases hv : v < 0
    · rw [if_pos (by rw [Int32.lt_iff_toInt_lt, toInt_ofInt_of_fits hlo hhi, h0]; exact hv),
        if_pos hv]
      rfl
    · rw [if_neg (by rw [Int32.lt_iff_toInt_lt, toInt_ofInt_of_fits hlo hhi, h0]; exact hv),
        if_neg hv]

/-- The length modifier of a type. -/
def ConvType.text : ConvType → List UInt8
  | .CHAR => [104, 104]
  | .SHORT => [104]
  | .INT => []
  | .INTMAX => [106]
  | .LONG => [108]
  | .LONGLONG => [108, 108]
  | .PTRDIFFT => [116]
  | .SIZET => [122]

/-- The conversion character of an integer conversion: `d`, `i`, `o`, `u`, `x` or `X`. -/
def IsIntConv (c : UInt8) : Prop := c = 100 ∨ c = 105 ∨ c = 111 ∨ c = 117 ∨ c = 120 ∨ c = 88

theorem parse_type_text (t : ConvType) {c : UInt8} (hc : IsIntConv c) (rest : List UInt8) :
    parse_type (t.text ++ c :: rest) = (t, c :: rest) := by
  rcases hc with rfl | rfl | rfl | rfl | rfl | rfl <;> cases t <;> rfl

/-- An integer conversion as a format writes it: `%`, flag characters, a field width, a
precision, a length modifier and the conversion character. -/
structure IntConversion where
  flags : List UInt8
  width : Given
  precision : Given
  type : ConvType
  conv : UInt8
  flags_ok : ∀ c ∈ flags, IsFlag c
  conv_ok : IsIntConv conv

namespace IntConversion

variable (s : IntConversion)

/-- The conversion's text in the format. -/
def text : List UInt8 :=
  37 :: (s.flags ++ s.width.text ++ s.precision.precision_text ++ s.type.text ++ [s.conv])

/-- The arguments it takes: those of `*`, then the value. -/
def args (v : Int) : List Arg := s.width.args ++ s.precision.args ++ [.int v]

/-- The flags `parse_conversion` leaves: `-` clears `0`, `+` clears space, a negative
width sets `-`, and a precision clears `0`. -/
def flags_after : Flags :=
  ⟨decide (45 ∈ s.flags) || decide (s.width.value < 0), decide (43 ∈ s.flags),
    decide (32 ∈ s.flags) && !decide (43 ∈ s.flags), decide (35 ∈ s.flags),
    decide (48 ∈ s.flags) && !decide (45 ∈ s.flags) && !decide (0 ≤ s.precision.precision_value),
    decide (39 ∈ s.flags)⟩

/-- The conversion `parse_conversion` reads. -/
def conversion : printf_conversion :=
  ⟨s.flags_after, Int32.ofInt |s.width.value|, Int32.ofInt s.precision.precision_value, s.type⟩

end IntConversion

theorem not_flag_of_isdigit {c : UInt8} (hc : isdigit c = true) (h48 : c ≠ 48) : ¬IsFlag c := by
  have : 48 ≤ c.toNat ∧ c.toNat ≤ 57 := by
    simpa [isdigit, UInt8.le_iff_toNat_le] using hc
  rintro (h | h | h | h | h | h) <;> subst h <;> simp_all

/-- What follows a length modifier cannot continue a flag, a number or a precision. -/
theorem head_after_type (t : ConvType) {c : UInt8} (hc : IsIntConv c) (rest : List UInt8) :
    ∀ x ∈ (t.text ++ c :: rest).head?, ¬IsFlag x ∧ isdigit x = false ∧ x ≠ 42 ∧ x ≠ 46 := by
  intro x hx
  cases t <;> simp only [ConvType.text, List.cons_append, List.nil_append, List.head?_cons,
    Option.mem_def, Option.some.injEq] at hx <;> subst hx
  all_goals first
    | decide
    | rcases hc with rfl | rfl | rfl | rfl | rfl | rfl <;> decide

/-- What follows a precision cannot continue a flag or a field width. -/
theorem head_after_precision (g : Given) {rest : List UInt8}
    (hrest : ∀ x ∈ rest.head?, ¬IsFlag x ∧ isdigit x = false ∧ x ≠ 42 ∧ x ≠ 46) :
    ∀ x ∈ (g.precision_text ++ rest).head?, ¬IsFlag x ∧ isdigit x = false ∧ x ≠ 42 := by
  intro x hx
  cases g with
  | none => exact ⟨(hrest x hx).1, (hrest x hx).2.1, (hrest x hx).2.2.1⟩
  | _ =>
    simp only [Given.precision_text, List.cons_append, List.head?_cons, Option.mem_def,
      Option.some.injEq] at hx
    subst hx
    decide

/-- What follows the flags is not a flag: a field width does not start with `'0'`. -/
theorem head_after_flags (g : Given) {rest : List UInt8}
    (hrest : ∀ x ∈ rest.head?, ¬IsFlag x ∧ isdigit x = false ∧ x ≠ 42) :
    ∀ x ∈ (g.text ++ rest).head?, ¬IsFlag x := by
  intro x hx
  cases g with
  | none => exact (hrest x hx).1
  | digits n =>
    by_cases hn : n = 0
    · subst hn
      exact (hrest x hx).1
    · obtain ⟨c, t, hct, hc48⟩ := decimal_text_head hn
      simp only [Given.text, hct, List.cons_append, List.head?_cons, Option.mem_def,
        Option.some.injEq] at hx
      subst hx
      exact not_flag_of_isdigit (isdigit_of_mem_decimal_text (hct ▸ List.mem_cons_self)) hc48
  | star v =>
    simp only [Given.text, List.cons_append, List.nil_append, List.head?_cons, Option.mem_def,
      Option.some.injEq] at hx
    subst hx
    decide

/-- A negative width read from `*` turns into its absolute value. -/
theorem abs_width {w : Int} (hlo : -2 ^ 31 ≤ w) (hhi : w < 2 ^ 31) :
    (if Int32.ofInt w < 0 then -Int32.ofInt w else Int32.ofInt w) = Int32.ofInt |w| := by
  have h0 : (0 : Int32).toInt = 0 := rfl
  rw [← Int32.toInt_inj]
  split_ifs with hneg
  · rw [Int32.lt_iff_toInt_lt, toInt_ofInt_of_fits hlo hhi, h0] at hneg
    rw [Int32.toInt_neg, toInt_ofInt_of_fits hlo hhi, Int32.toInt_ofInt, abs_of_neg hneg]
  · rw [Int32.lt_iff_toInt_lt, toInt_ofInt_of_fits hlo hhi, h0] at hneg
    rw [abs_of_nonneg (by omega)]

theorem Given.fits_value {g : Given} (hg : g.Fits) : -2 ^ 31 ≤ g.value ∧ g.value < 2 ^ 31 := by
  cases g with
  | none => exact ⟨by decide, by decide⟩
  | digits n =>
    have hn : n < 2 ^ 31 := hg
    simp only [Given.value]
    exact ⟨by omega, by exact_mod_cast hn⟩
  | star v => exact hg

theorem Given.fits_precision_value {g : Given} (hg : g.Fits) :
    -2 ^ 31 ≤ g.precision_value ∧ g.precision_value < 2 ^ 31 := by
  cases g with
  | none => exact ⟨by decide, by decide⟩
  | digits n =>
    have hn : n < 2 ^ 31 := hg
    simp only [Given.precision_value]
    exact ⟨by omega, by exact_mod_cast hn⟩
  | star v =>
    obtain ⟨hlo, hhi⟩ : -2 ^ 31 ≤ v ∧ v < 2 ^ 31 := hg
    simp only [Given.precision_value]
    split_ifs <;> omega

/-- `parse_conversion` reads a conversion as the format writes it, up to its conversion
character, and takes the arguments of its `*`s. -/
theorem parse_conversion_text (s : IntConversion) (hw : s.width.Fits) (hp : s.precision.Fits)
    (v : Int) (rest : List UInt8) (args : List Arg) :
    parse_conversion (s.text.tail ++ rest) (s.args v ++ args) =
      (s.conversion, s.conv :: rest, .int v :: args) := by
  have h3 := head_after_type s.type s.conv_ok rest
  have h2 := head_after_precision s.precision h3
  have h1 := head_after_flags s.width h2
  have hformat : s.text.tail ++ rest = s.flags ++ (s.width.text ++
      (s.precision.precision_text ++ (s.type.text ++ s.conv :: rest))) := by
    simp [IntConversion.text]
  have hargs : s.args v ++ args = s.width.args ++ (s.precision.args ++ (.int v :: args)) := by
    simp [IntConversion.args]
  rw [hformat, hargs]
  unfold parse_conversion
  simp only [parse_flags_append s.flags_ok h1, parse_star_given hw (fun x hx => (h2 x hx).2),
    parse_precision_given hp (fun x hx => (h3 x hx).2), parse_type_text s.type s.conv_ok,
    abs_width (Given.fits_value hw).1 (Given.fits_value hw).2]
  -- the flags: `-` clears `0`, `+` clears space, a negative width sets `-`, a precision clears `0`
  have h0 : (0 : Int32).toInt = 0 := rfl
  have hwneg : Int32.ofInt s.width.value < 0 ↔ s.width.value < 0 := by
    rw [Int32.lt_iff_toInt_lt, toInt_ofInt_of_fits (Given.fits_value hw).1 (Given.fits_value hw).2, h0]
  have hpnn : Int32.ofInt s.precision.precision_value ≥ 0 ↔ 0 ≤ s.precision.precision_value := by
    rw [ge_iff_le, Int32.le_iff_toInt_le, toInt_ofInt_of_fits (Given.fits_precision_value hp).1
      (Given.fits_precision_value hp).2, h0]
  simp only [IntConversion.conversion, IntConversion.flags_after, Flags.add, hwneg, hpnn,
    Bool.false_or, Prod.mk.injEq, and_true, printf_conversion.mk.injEq]
  split_ifs <;> simp_all

/-! ## Integer conversions -/

namespace IntConversion

variable (s : IntConversion)

/-- `d` and `i` are the signed conversions. -/
def is_signed : Bool := s.conv == 100 || s.conv == 105

/-- The base of the conversion character: `o` octal, `x` and `X` hexadecimal, `d`, `i`
and `u` decimal. -/
def base : integer_base :=
  if s.conv = 111 then base_o else if s.conv = 120 then base_x else if s.conv = 88 then base_X
  else base_d

/-- The argument `v` as the conversion's type holds it: signed or unsigned, with the width
of the length modifier. -/
def value (v : Int) : Int :=
  if s.is_signed then v.bmod (2 ^ s.type.bits) else v % 2 ^ s.type.bits

/-- No character of the conversion after its `%` is a `%`. -/
theorem ne_percent_of_mem_tail {x : UInt8} (hx : x ∈ s.text.tail) : x ≠ 37 := by
  simp only [text, List.tail_cons, List.mem_append, List.mem_singleton] at hx
  rcases hx with (((hx | hx) | hx) | hx) | rfl
  · rcases s.flags_ok x hx with rfl | rfl | rfl | rfl | rfl | rfl <;> decide
  · -- a field width is digits or `*`
    cases hw : s.width <;> simp only [hw, Given.text, List.not_mem_nil, List.mem_singleton] at hx
    · have h := isdigit_of_mem_decimal_text hx
      rintro rfl
      exact absurd h (by decide)
    · rw [hx]
      decide
  · -- a precision is `.` and digits or `*`
    cases hp : s.precision <;> simp only [hp, Given.precision_text, Given.text, List.not_mem_nil,
      List.mem_cons, or_false] at hx
    · rcases hx with rfl | hx
      · decide
      · have h := isdigit_of_mem_decimal_text hx
        rintro rfl
        exact absurd h (by decide)
    · rcases hx with rfl | rfl <;> decide
  · -- a length modifier is one of `h`, `j`, `l`, `t` and `z`
    have ht : x ∈ [104, 106, 108, 116, 122] := by
      cases ht : s.type <;> simp only [ht, ConvType.text] at hx <;> simp_all
    simp only [List.mem_cons, List.not_mem_nil, or_false] at ht
    rcases ht with rfl | rfl | rfl | rfl | rfl <;> decide
  · rcases s.conv_ok with h | h | h | h | h | h <;> rw [h] <;> decide

end IntConversion

theorem toNat_abs_eq_natAbs (x : Int) : (if x < 0 then -x else x).toNat = x.natAbs := by
  split_ifs <;> omega

/-- An integer conversion formats its argument as its type holds it, signed for `d` and `i`
and in the base of its character. -/
theorem convert_int (s : IntConversion) {c : printf_conversion} (hc : c.type = s.type) (v : Int)
    (args : List Arg) :
    convert c s.conv (.int v :: args) =
      (format_integer (s.value v).natAbs s.is_signed (decide (s.value v < 0)) s.base c, args) := by
  obtain ⟨fl, w, p, t, conv, hfl, hconv⟩ := s
  dsimp only at hc
  subst hc
  -- an unsigned value is its own absolute value
  have hnn : ∀ b : Nat, 0 ≤ v % 2 ^ b := fun b => Int.emod_nonneg v (by positivity)
  have habs : ∀ b : Nat, (v % 2 ^ b).natAbs = (v % 2 ^ b).toNat := fun b => by
    have := hnn b
    omega
  have hneg : ∀ b : Nat, ¬v % 2 ^ b < 0 := fun b => Int.not_lt.mpr (hnn b)
  rcases hconv with rfl | rfl | rfl | rfl | rfl | rfl
  all_goals simp only [convert, next_arg, signed_value_int, unsigned_value_int, IntConversion.value,
    IntConversion.is_signed, IntConversion.base, toNat_abs_eq_natAbs]
  all_goals simp [habs, hneg]

/-- An integer conversion in the format outputs its argument formatted, and takes the
arguments of its `*`s and its value. -/
theorem vprintf_int_conversion (s : IntConversion) (hw : s.width.Fits) (hp : s.precision.Fits)
    (v : Int) (rest : List UInt8) (args : List Arg) :
    __vprintf (s.text ++ rest) (s.args v ++ args) =
      format_integer (s.value v).natAbs s.is_signed (decide (s.value v < 0)) s.base s.conversion ++
        __vprintf rest args := by
  -- the conversion is not `%%`
  have hnot : ∀ format, s.text.tail ++ rest = 37 :: format → False := by
    intro format h
    cases ht : s.text.tail with
    | nil => simp [IntConversion.text] at ht
    | cons c t =>
      rw [ht, List.cons_append, List.cons.injEq] at h
      exact s.ne_percent_of_mem_tail (ht ▸ List.mem_cons_self) h.1
  rw [show s.text ++ rest = 37 :: (s.text.tail ++ rest) from rfl, __vprintf.eq_3 _ _ hnot]
  split
  · rename_i c ch format' args' heq
    rw [parse_conversion_text s hw hp] at heq
    simp only [Prod.mk.injEq, List.cons.injEq] at heq
    obtain ⟨rfl, ⟨rfl, rfl⟩, rfl⟩ := heq
    rw [convert_int s rfl]
  · rename_i heq
    rw [parse_conversion_text s hw hp] at heq
    simp at heq

/-! ## `vsnprintf` -/

/-- `struct vsnprintf_aux`, with the output position `p` an address. -/
structure vsnprintf_aux where
  p : Nat
  length : Int32
  max_length : Int32

/-- `vsnprintf_helper (ch, aux)`: store `ch` while there is room, and count it. -/
def vsnprintf_helper (mem : Nat → UInt8) (aux : vsnprintf_aux) (ch : UInt8) :
    (Nat → UInt8) × vsnprintf_aux :=
  if aux.length < aux.max_length then
    (Function.update mem aux.p ch, { aux with p := aux.p + 1, length := aux.length + 1 })
  else (mem, { aux with length := aux.length + 1 })

/-- `vsnprintf (buffer, buf_size, format, args)` on the memory `mem`: the memory after it,
and what it returns. -/
def vsnprintf (mem : Nat → UInt8) (buffer buf_size : Nat) (format : List UInt8)
    (args : List Arg) : (Nat → UInt8) × Int32 :=
  let aux : vsnprintf_aux := ⟨buffer, 0, if buf_size > 0 then Int32.ofNat (buf_size - 1) else 0⟩
  let r := (__vprintf format args).foldl (fun r ch => vsnprintf_helper r.1 r.2 ch) (mem, aux)
  -- the terminator
  ((if buf_size > 0 then Function.update r.1 r.2.p 0 else r.1), r.2.length)

/-- `snprintf (buffer, buf_size, format, ...)`. -/
def snprintf (mem : Nat → UInt8) (buffer buf_size : Nat) (format : List UInt8)
    (args : List Arg) : (Nat → UInt8) × Int32 :=
  vsnprintf mem buffer buf_size format args

end Pintos.Lib
