import Mathlib.Algebra.Order.BigOperators.Group.List
import Pintos.ByteMap
import Pintos.OctalText

/-!
# ustar headers

`lib/ustar.c`: `ustar_make_header` composes the 512-byte header of a file in a tar
archive and `ustar_parse_header` reads one back. A header is the buffer
`char header[USTAR_HEADER_SIZE]`, a map from offsets to bytes that `struct ustar_header`
lays out in fields (`UstarField`, with the offsets of the `PACKED` structure). A C string
is the list of its bytes before the terminator. `snprintf` writes the text of its format
as `strlcpy` copies a string (`put_string`), and `%0*o` is `OctalText.encode` of the
argument as an `unsigned`. On the 80x86 `unsigned long` has 32 bits.

`strip_antisocial_prefixes` drops leading `/`, `./` and `../` and turns an empty name or
`..` into `.`; what it returns it leaves as it is (`strip_antisocial_prefixes_idem`), which
is why the parser may strip the name again.

Not modelled: the `printf` of a name that is too long.
-/

namespace Pintos.Lib.Ustar

open ByteMap OctalText

/-- `USTAR_HEADER_SIZE`. -/
def USTAR_HEADER_SIZE : Nat := 512

/-- `INT_MAX` of `lib/limits.h`. -/
def INT_MAX : Nat := 2 ^ 31 - 1

/-- `ULONG_MAX` of `lib/limits.h`. -/
def ULONG_MAX : Nat := 2 ^ 32 - 1

/-- `enum ustar_type`. -/
inductive UstarType
  | REGULAR
  | DIRECTORY
  | EOF
  deriving DecidableEq, Repr

/-- The value of a type: the byte `'0'` or `'5'` of the header, and `-1`. -/
def UstarType.toInt : UstarType → Int
  | .REGULAR => 48
  | .DIRECTORY => 53
  | .EOF => -1

/-- The fields of `struct ustar_header`. -/
inductive UstarField
  | name | mode | uid | gid | size | mtime | chksum | typeflag | linkname | magic | version
  | uname | gname | devmajor | devminor | prefix_ | padding
  deriving DecidableEq, Repr

/-- `offsetof (struct ustar_header, field)`. -/
def UstarField.offset : UstarField → Nat
  | name => 0 | mode => 100 | uid => 108 | gid => 116 | size => 124 | mtime => 136
  | chksum => 148 | typeflag => 156 | linkname => 157 | magic => 257 | version => 263
  | uname => 265 | gname => 297 | devmajor => 329 | devminor => 337 | prefix_ => 345
  | padding => 500

/-- `sizeof h->field`. -/
def UstarField.sizeof : UstarField → Nat
  | name => 100 | mode => 8 | uid => 8 | gid => 8 | size => 12 | mtime => 12 | chksum => 8
  | typeflag => 1 | linkname => 100 | magic => 6 | version => 2 | uname => 32 | gname => 32
  | devmajor => 8 | devminor => 8 | prefix_ => 155 | padding => 12

/-- The bytes of a field of the header. -/
def field (h : Nat → UInt8) (f : UstarField) : List UInt8 :=
  (List.range f.sizeof).map fun i => h (f.offset + i)

/-- `strlcpy (dst + ofs, src, size)` for `size > 0`, and the bytes that
`snprintf (dst + ofs, size, ...)` writes of its text `src`: as much of `src` as fits
before a null byte. -/
def put_string (dst : Nat → UInt8) (ofs : Nat) (src : List UInt8) (size : Nat) :
    Nat → UInt8 :=
  let n := min src.length (size - 1)
  Function.update (copy dst ofs (fun i => src.getD i 0) 0 n) (ofs + n) 0

/-- `"ustar"` and its terminator, as `memcmp (h->magic, "ustar", 6)` compares them. -/
def USTAR_MAGIC : List UInt8 := [117, 115, 116, 97, 114, 0]

/-! ## Names -/

/-- The loop of `strip_antisocial_prefixes`: while the name starts with `/`, `./` or `../`,
go past the first `/`, which in each case is the last byte of that prefix. -/
def strip_loop : List UInt8 → List UInt8
  | 47 :: s => strip_loop s
  | 46 :: 47 :: s => strip_loop s
  | 46 :: 46 :: 47 :: s => strip_loop s
  | s => s

/-- `strip_antisocial_prefixes (file_name)`. -/
def strip_antisocial_prefixes (file_name : List UInt8) : List UInt8 :=
  let s := strip_loop file_name
  if s = [] ∨ s = [46, 46] then [46] else s

/-! ## Composing a header -/

/-- `calculate_chksum (h)`: the sum of the header's bytes with the `chksum` field read as
spaces. It is at most `512 * 255`, so the `unsigned int` does not wrap. -/
def calculate_chksum (h : Nat → UInt8) : Nat :=
  ((List.range USTAR_HEADER_SIZE).map fun i =>
    let chksum_start := UstarField.chksum.offset
    let chksum_end := chksum_start + UstarField.chksum.sizeof
    if chksum_start ≤ i ∧ i < chksum_end then 32 else (h i).toNat).sum

/-- `snprintf (h->field, size, "%0*o", width, v)` of an `unsigned` value. -/
def put_octal (h : Nat → UInt8) (f : UstarField) (size width v : Nat) : Nat → UInt8 :=
  put_string h f.offset (encode width (v % 2 ^ 32)) size

/-- `ustar_make_header (file_name, type, size, header)`: `none` where an `ASSERT` fails,
and otherwise what it returns with the header it leaves. -/
def ustar_make_header (file_name : List UInt8) (type : UstarType) (size : Int)
    (header : Nat → UInt8) : Option (Bool × (Nat → UInt8)) :=
  if type ≠ .REGULAR ∧ type ≠ .DIRECTORY then none
  else
    let file_name := strip_antisocial_prefixes file_name
    if file_name.length > 99 then some (false, header)
    else
      let h := copy header 0 (fun _ => 0) 0 USTAR_HEADER_SIZE
      let h := put_string h UstarField.name.offset file_name UstarField.name.sizeof
      let h := put_octal h .mode UstarField.mode.sizeof 7
        (if type = .REGULAR then 0o644 else 0o755)
      let h := put_string h UstarField.uid.offset [48, 48, 48, 48, 48, 48, 48]
        UstarField.uid.sizeof
      let h := put_string h UstarField.gid.offset [48, 48, 48, 48, 48, 48, 48]
        UstarField.gid.sizeof
      let h := put_octal h .size UstarField.size.sizeof 11 (size % 2 ^ 32).toNat
      -- `sizeof h->size` for the `mtime` field, of the same size
      let h := put_octal h .mtime UstarField.size.sizeof 11 1136102400
      let h := Function.update h UstarField.typeflag.offset
        (UInt8.ofNat (type.toInt % 256).toNat)
      let h := put_string h UstarField.magic.offset [117, 115, 116, 97, 114]
        UstarField.magic.sizeof
      let h := Function.update h UstarField.version.offset 48
      let h := Function.update h (UstarField.version.offset + 1) 48
      let h := put_string h UstarField.gname.offset [114, 111, 111, 116] UstarField.gname.sizeof
      let h := put_string h UstarField.uname.offset [114, 111, 111, 116] UstarField.uname.sizeof
      let h := put_octal h .chksum UstarField.chksum.sizeof 7 (calculate_chksum h)
      some (true, h)

/-! ## Parsing a header -/

/-- The loop of `parse_octal_field` over the bytes from `ofs` on, with `value` read so far. -/
def parse_octal_loop : List UInt8 → Nat → Nat → Option Nat
  | [], _, _ => none
  | c :: cs, ofs, value =>
    if IsDigit c then
      -- overflow
      if value > ULONG_MAX / 8 then none
      else parse_octal_loop cs (ofs + 1) ((c.toNat - 48) + value * 8)
    else if c = 32 ∨ c = 0 then
      -- end of the field; an empty one is refused
      if ofs > 0 then some value else none
    else none

/-- `parse_octal_field (h->field, sizeof h->field, &value)`: the value, or `none` where it
returns false. -/
def parse_octal_field (h : Nat → UInt8) (f : UstarField) : Option Nat :=
  parse_octal_loop (field h f) 0 0

/-- `is_all_zeros (block, cnt)`. -/
def is_all_zeros (block : Nat → UInt8) (cnt : Nat) : Bool :=
  (List.range cnt).all fun i => block i = 0

/-- `ustar_parse_header (header, &file_name, &type, &size)`: the error message, or the name
(`none` for `NULL`), the type and the size. The name is the string in the `name` field,
whose last byte has been checked to be a null byte. -/
def ustar_parse_header (h : Nat → UInt8) :
    Except String (Option (List UInt8) × UstarType × Int) :=
  if is_all_zeros h USTAR_HEADER_SIZE then .ok (none, .EOF, 0)
  else if field h .magic ≠ USTAR_MAGIC then .error "not a ustar archive"
  else if h UstarField.version.offset ≠ 48 ∨ h (UstarField.version.offset + 1) ≠ 48 then
    .error "invalid ustar version"
  else match parse_octal_field h .chksum with
    | none => .error "corrupt chksum field"
    | some chksum =>
      if chksum ≠ calculate_chksum h then .error "checksum mismatch"
      else if h (UstarField.name.offset + 99) ≠ 0 ∨ h UstarField.prefix_.offset ≠ 0 then
        .error "file name too long"
      else if h UstarField.typeflag.offset ≠ 48 ∧ h UstarField.typeflag.offset ≠ 53 then
        .error "unimplemented file type"
      else
        let type : UstarType := if h UstarField.typeflag.offset = 48 then .REGULAR else .DIRECTORY
        let size_ul : Except String Nat :=
          if type = .REGULAR then
            match parse_octal_field h .size with
            | none => .error "corrupt file size field"
            | some size_ul => if size_ul > INT_MAX then .error "file too large" else .ok size_ul
          else .ok 0
        size_ul.map fun size_ul =>
          (some (strip_antisocial_prefixes ((field h .name).takeWhile (· ≠ 0))), type, size_ul)

/-! ## Names -/

section Names

/-- The loop leaves a suffix of the name. -/
theorem strip_loop_suffix (s : List UInt8) : strip_loop s <:+ s := by
  induction s using strip_loop.induct with
  | case1 s ih =>
    rw [strip_loop]
    exact ih.trans (List.suffix_cons _ s)
  | case2 s ih =>
    rw [strip_loop]
    exact ih.trans ((List.suffix_cons _ _).trans (List.suffix_cons _ _))
  | case3 s ih =>
    rw [strip_loop]
    exact ih.trans ((List.suffix_cons _ _).trans ((List.suffix_cons _ _).trans
      (List.suffix_cons _ _)))
  | case4 s h₁ h₂ h₃ => rw [strip_loop.eq_4 s h₁ h₂ h₃]

/-- The loop stops where none of its prefixes is left, so a second run does nothing. -/
theorem strip_loop_idem (s : List UInt8) : strip_loop (strip_loop s) = strip_loop s := by
  induction s using strip_loop.induct with
  | case1 s ih => rwa [strip_loop]
  | case2 s ih => rwa [strip_loop]
  | case3 s ih => rwa [strip_loop]
  | case4 s h₁ h₂ h₃ => rw [strip_loop.eq_4 s h₁ h₂ h₃, strip_loop.eq_4 s h₁ h₂ h₃]

/-- A stripped name is left as it is by a second strip: the parser may strip it again. -/
theorem strip_antisocial_prefixes_idem (s : List UInt8) :
    strip_antisocial_prefixes (strip_antisocial_prefixes s) = strip_antisocial_prefixes s := by
  by_cases h : strip_loop s = [] ∨ strip_loop s = [46, 46]
  · -- the name became `.`, which has no prefix to drop
    simp only [strip_antisocial_prefixes, if_pos h]
    decide
  · simp only [strip_antisocial_prefixes, if_neg h, strip_loop_idem]

/-- Stripping brings in no null byte. -/
theorem zero_not_mem_strip {s : List UInt8} (hs : 0 ∉ s) : 0 ∉ strip_antisocial_prefixes s := by
  simp only [strip_antisocial_prefixes]
  split
  · decide
  · exact fun h => hs ((strip_loop_suffix s).subset h)

end Names

/-! ## Fields -/

section Fields

variable {dst h : Nat → UInt8}

@[simp] theorem length_field (h : Nat → UInt8) (f : UstarField) :
    (field h f).length = f.sizeof := by
  simp [field]

theorem getElem_field (h : Nat → UInt8) (f : UstarField) {i : Nat} (hi : i < (field h f).length) :
    (field h f)[i] = h (f.offset + i) := by
  simp [field]

theorem put_string_apply (dst : Nat → UInt8) (ofs : Nat) (src : List UInt8) (size i : Nat) :
    put_string dst ofs src size i =
      if i = ofs + min src.length (size - 1) then 0
      else if ofs ≤ i ∧ i < ofs + min src.length (size - 1) then src.getD (i - ofs) 0
      else dst i := by
  rw [put_string, Function.update_apply]
  split
  · rfl
  · by_cases hi : ofs ≤ i ∧ i < ofs + min src.length (size - 1)
    · rw [copy_apply_of_mem hi.1 hi.2, if_pos hi, Nat.zero_add]
    · rw [copy_apply_of_not_mem hi, if_neg hi]

/-- A string put into `size` bytes writes nothing outside them. -/
theorem put_string_of_not_mem {ofs size i : Nat} (hsize : 0 < size)
    (hi : i < ofs ∨ ofs + size ≤ i) (src : List UInt8) : put_string dst ofs src size i = dst i := by
  rw [put_string_apply, if_neg (by omega), if_neg (by omega)]

/-- Past a string that fits, its null byte, and then what was there. -/
theorem put_string_of_le {ofs size i : Nat} {src : List UInt8} (hlen : src.length < size)
    (hi : ofs + src.length ≤ i) :
    put_string dst ofs src size i = if i = ofs + src.length then 0 else dst i := by
  have hmin : min src.length (size - 1) = src.length := by omega
  rw [put_string_apply, hmin]
  by_cases hend : i = ofs + src.length
  · rw [if_pos hend, if_pos hend]
  · rw [if_neg hend, if_neg hend, if_neg (by omega)]

theorem field_put_string_of_disjoint {ofs size : Nat} {f : UstarField} (hsize : 0 < size)
    (hd : f.offset + f.sizeof ≤ ofs ∨ ofs + size ≤ f.offset) (src : List UInt8) :
    field (put_string dst ofs src size) f = field dst f := by
  refine List.map_congr_left fun i hi => put_string_of_not_mem hsize ?_ src
  rw [List.mem_range] at hi
  omega

theorem field_update_of_disjoint {p : Nat} {f : UstarField}
    (hp : p < f.offset ∨ f.offset + f.sizeof ≤ p) (b : UInt8) :
    field (Function.update dst p b) f = field dst f := by
  refine List.map_congr_left fun i hi => Function.update_of_ne ?_ _ _
  rw [List.mem_range] at hi
  omega

/-- A string shorter than a field, put into it, is followed there by a null byte. -/
theorem field_put_string {f : UstarField} {src : List UInt8} (hlen : src.length < f.sizeof) :
    field (put_string dst f.offset src f.sizeof) f =
      src ++ 0 :: (field dst f).drop (src.length + 1) := by
  apply List.ext_getElem
  · simp only [length_field, List.length_append, List.length_cons, List.length_drop]
    omega
  · intro i h₁ h₂
    have hi : i < f.sizeof := by simpa using h₁
    have hmin : min src.length (f.sizeof - 1) = src.length := by omega
    rw [getElem_field, put_string_apply, hmin]
    rcases Nat.lt_trichotomy i src.length with hlt | rfl | hgt
    · -- a byte of the string
      rw [if_neg (by omega), if_pos (by omega), List.getElem_append_left hlt,
        Nat.add_sub_cancel_left, ← List.getElem_eq_getD]
    · -- its null byte
      simp
    · -- what was there before
      rw [if_neg (by omega), if_neg (by omega)]
      rw [List.getElem_append_right (Nat.le_of_lt hgt), List.getElem_cons, dif_neg (by omega),
        List.getElem_drop, getElem_field]
      congr 1
      omega

/-- A string one byte shorter than a field fills it, with its null byte. -/
theorem field_put_string_fill {f : UstarField} {src : List UInt8}
    (hlen : src.length + 1 = f.sizeof) :
    field (put_string dst f.offset src f.sizeof) f = src ++ [0] := by
  rw [field_put_string (by omega), List.drop_eq_nil_of_le (by simp only [length_field]; omega)]

end Fields

/-! ## Octal fields and the checksum -/

section Octal

/-- The checksum reads the header outside its own field only. -/
theorem calculate_chksum_congr {h h' : Nat → UInt8}
    (heq : ∀ i, i < UstarField.chksum.offset ∨
      UstarField.chksum.offset + UstarField.chksum.sizeof ≤ i → h i = h' i) :
    calculate_chksum h = calculate_chksum h' := by
  unfold calculate_chksum
  refine congrArg List.sum (List.map_congr_left fun i _ => ?_)
  dsimp only
  split
  · rfl
  · rw [heq i (by omega)]

theorem calculate_chksum_le (h : Nat → UInt8) : calculate_chksum h ≤ 512 * 255 := by
  have hle := List.sum_le_card_nsmul ((List.range USTAR_HEADER_SIZE).map fun i =>
    let chksum_start := UstarField.chksum.offset
    let chksum_end := chksum_start + UstarField.chksum.sizeof
    if chksum_start ≤ i ∧ i < chksum_end then 32 else (h i).toNat) 255 (by
      simp only [List.mem_map]
      rintro _ ⟨i, -, rfl⟩
      split
      · decide
      · exact Nat.le_of_lt_succ (UInt8.toNat_lt _))
  simpa [calculate_chksum, USTAR_HEADER_SIZE] using hle

/-- Octal digits up to a space or a null byte: their value, when it does not overflow. -/
theorem parse_octal_loop_digits {ds : List UInt8} {t : UInt8} (rest : List UInt8)
    (hds : ∀ c ∈ ds, IsDigit c) (ht : t = 32 ∨ t = 0) {ofs acc : Nat}
    (hpos : 0 < ofs + ds.length) (hv : value acc ds ≤ ULONG_MAX) :
    parse_octal_loop (ds ++ t :: rest) ofs acc = some (value acc ds) := by
  induction ds generalizing ofs acc with
  | nil =>
    have hdigit : ¬ IsDigit t := by rcases ht with rfl | rfl <;> decide
    rw [List.nil_append, parse_octal_loop, if_neg hdigit, if_pos ht, if_pos (by simpa using hpos)]
    rfl
  | cons c ds ih =>
    -- what is read so far is at most the value, so `value * 8` does not overflow
    have hle := le_value ((c.toNat - 48) + acc * 8) ds
    have hv' : value ((c.toNat - 48) + acc * 8) ds ≤ ULONG_MAX := hv
    rw [List.cons_append, parse_octal_loop, if_pos (hds c List.mem_cons_self),
      if_neg (by simp only [ULONG_MAX] at hv' ⊢; omega)]
    exact ih (fun d hd => hds d (List.mem_cons_of_mem c hd)) (by omega) hv'

/-- A field that holds the octal text of `v` and a null byte reads as `v`. -/
theorem parse_octal_field_encode {h : Nat → UInt8} {f : UstarField} {w v : Nat}
    (hf : field h f = encode w v ++ [0]) (hv : v ≤ ULONG_MAX) :
    parse_octal_field h f = some v := by
  have hpos : 0 < (encode w v).length := List.length_pos_iff.mpr (encode_ne_nil w v)
  rw [parse_octal_field, hf, parse_octal_loop_digits [] (fun c hc => isDigit_of_mem_encode hc)
    (Or.inr rfl) (by omega) (by rwa [value_encode]), value_encode]

end Octal

/-! ## The round trip -/

/-- What `ustar_make_header` writes for a name, a type and the size `v`, as far as
`ustar_parse_header` reads it. -/
structure Composed (h : Nat → UInt8) (name : List UInt8) (type : UstarType) (v : Nat) :
    Prop where
  magic : field h .magic = USTAR_MAGIC
  version : h UstarField.version.offset = 48 ∧ h (UstarField.version.offset + 1) = 48
  chksum : field h .chksum = encode 7 (calculate_chksum h) ++ [0]
  name : (field h .name).takeWhile (· ≠ 0) = name
  name_end : h (UstarField.name.offset + 99) = 0
  prefix_ : h UstarField.prefix_.offset = 0
  typeflag : h UstarField.typeflag.offset = UInt8.ofNat (type.toInt % 256).toNat
  size : field h .size = encode 11 v ++ [0]

section Parse

variable {h : Nat → UInt8} {name : List UInt8} {type : UstarType} {v : Nat}

/-- A composed header is not the end of the archive: its magic is not zero. -/
theorem Composed.not_all_zeros (hc : Composed h name type v) :
    is_all_zeros h USTAR_HEADER_SIZE = false := by
  have hu : h UstarField.magic.offset = 117 := by
    have h0 : (field h .magic)[0]? = some 117 := by
      rw [hc.magic]
      rfl
    simpa [field, UstarField.sizeof] using h0
  rw [is_all_zeros, List.all_eq_false]
  exact ⟨UstarField.magic.offset, List.mem_range.mpr (by decide), by simp [hu]⟩

/-- `ustar_parse_header` of a composed header: the name stripped once more, the type, and
the size for a regular file. -/
theorem ustar_parse_header_of_composed (hc : Composed h name type v)
    (htype : type = .REGULAR ∨ type = .DIRECTORY) (hv : v ≤ INT_MAX) :
    ustar_parse_header h =
      .ok (some (strip_antisocial_prefixes name), type, if type = .REGULAR then v else 0) := by
  have hchksum : parse_octal_field h .chksum = some (calculate_chksum h) :=
    parse_octal_field_encode hc.chksum
      (Nat.le_trans (calculate_chksum_le h) (by decide))
  have hsize : parse_octal_field h .size = some v :=
    parse_octal_field_encode hc.size (Nat.le_trans hv (by decide))
  rw [ustar_parse_header, if_neg (by rw [hc.not_all_zeros]; decide), if_neg (not_not.mpr hc.magic),
    if_neg (by rw [hc.version.1, hc.version.2]; decide), hchksum]
  dsimp only
  rw [if_neg (not_not.mpr rfl), if_neg (by rw [hc.name_end, hc.prefix_]; decide), hc.name]
  rcases htype with rfl | rfl
  · -- a regular file: its size is read back
    rw [hc.typeflag, if_neg (by decide), if_pos (by decide), if_pos rfl, hsize]
    dsimp only
    rw [if_neg (by simpa using hv)]
    rfl
  · rw [hc.typeflag, if_neg (by decide), if_neg (by decide)]
    rfl

end Parse

section Make

/-- The checksum `ustar_make_header` writes last is that of the header it leaves. -/
theorem field_put_chksum (h : Nat → UInt8) :
    let h' := put_octal h .chksum UstarField.chksum.sizeof 7 (calculate_chksum h)
    field h' .chksum = encode 7 (calculate_chksum h') ++ [0] := by
  intro h'
  have hsame : calculate_chksum h' = calculate_chksum h :=
    calculate_chksum_congr fun i hi => put_string_of_not_mem (by decide) hi _
  have hle := calculate_chksum_le h
  have hmod : calculate_chksum h % 2 ^ 32 = calculate_chksum h := Nat.mod_eq_of_lt (by omega)
  rw [hsame]
  simp only [h', put_octal]
  rw [hmod, field_put_string_fill (by rw [length_encode (by decide) (by omega)]; rfl)]

/-- For a name that fits, `ustar_make_header` returns true and composes the header. -/
theorem ustar_make_header_composed {file_name : List UInt8} (hnul : 0 ∉ file_name)
    {type : UstarType} (htype : type = .REGULAR ∨ type = .DIRECTORY) (size : Int)
    (hlen : (strip_antisocial_prefixes file_name).length ≤ 99) (header : Nat → UInt8) :
    ∃ h, ustar_make_header file_name type size header = some (true, h) ∧
      Composed h (strip_antisocial_prefixes file_name) type (size % 2 ^ 32).toNat := by
  have hassert : ¬(type ≠ .REGULAR ∧ type ≠ .DIRECTORY) := by
    rcases htype with rfl | rfl <;> decide
  simp only [ustar_make_header, if_neg hassert, if_neg (Nat.not_lt.mpr hlen)]
  refine ⟨_, rfl, ?_⟩
  -- each field is read where the writes after it have left it alone
  constructor
  case magic =>
    simp (disch := decide) only [put_octal, field_put_string_of_disjoint, field_update_of_disjoint]
    rw [field_put_string_fill (by decide)]
    rfl
  case size =>
    simp (disch := decide) only [put_octal, field_put_string_of_disjoint, field_update_of_disjoint]
    have hv : (size % 2 ^ 32).toNat % 2 ^ 32 = (size % 2 ^ 32).toNat := Nat.mod_eq_of_lt (by omega)
    rw [hv, field_put_string_fill (by rw [length_encode (by decide) (by omega)]; rfl)]
  case chksum => exact field_put_chksum _
  case name =>
    simp (disch := decide) only [put_octal, field_put_string_of_disjoint, field_update_of_disjoint]
    -- the name, then its null byte
    have hname := zero_not_mem_strip hnul
    rw [field_put_string (by simp only [UstarField.sizeof]; omega),
      List.takeWhile_append_of_pos fun c hc => by
        simp only [ne_eq, decide_eq_true_eq]
        rintro rfl
        exact hname hc,
      List.takeWhile_cons_of_neg (by simp), List.append_nil]
  case name_end =>
    simp (disch := decide) only [put_octal, put_string_of_not_mem, Function.update_of_ne]
    rw [put_string_of_le (by simp only [UstarField.sizeof]; omega)
      (by simp only [UstarField.offset]; omega)]
    split
    · rfl
    · exact copy_apply_of_mem (Nat.zero_le _) (by decide)
  case prefix_ =>
    simp (disch := decide) only [put_octal, put_string_of_not_mem, Function.update_of_ne]
    exact copy_apply_of_mem (Nat.zero_le _) (by decide)
  case typeflag =>
    simp (disch := decide) only [put_octal, put_string_of_not_mem, Function.update_of_ne,
      Function.update_self]
  case version =>
    simp (disch := decide) only [put_octal, put_string_of_not_mem, Function.update_of_ne,
      Function.update_self]
    decide

end Make

/-- `ustar_parse_header` undoes `ustar_make_header`. For a name without a null byte, a regular
file or a directory and a size from 0 to `INT_MAX`, the header is made exactly when the
stripped name has at most 99 bytes. Such a header reads back as the stripped name, the type
and the size, which is 0 for a directory. -/
theorem ustar_parse_make_header (file_name : List UInt8) (hnul : 0 ∉ file_name)
    (type : UstarType) (htype : type = .REGULAR ∨ type = .DIRECTORY) (size : Int)
    (hsize : 0 ≤ size ∧ size ≤ INT_MAX) (header : Nat → UInt8) :
    (ustar_make_header file_name type size header).map Prod.fst =
        some (decide ((strip_antisocial_prefixes file_name).length ≤ 99)) ∧
      ∀ h, ustar_make_header file_name type size header = some (true, h) →
        ustar_parse_header h = .ok (some (strip_antisocial_prefixes file_name), type,
          if type = .REGULAR then size else 0) := by
  have hassert : ¬(type ≠ .REGULAR ∧ type ≠ .DIRECTORY) := by
    rcases htype with rfl | rfl <;> decide
  have hint : 0 ≤ size ∧ size < 2 ^ 31 := by
    simp only [INT_MAX] at hsize
    omega
  by_cases hlen : (strip_antisocial_prefixes file_name).length ≤ 99
  · obtain ⟨h, hmake, hc⟩ := ustar_make_header_composed hnul htype size hlen header
    refine ⟨by rw [hmake, decide_eq_true hlen]; rfl, fun h' hmake' => ?_⟩
    rw [hmake, Option.some.injEq, Prod.mk.injEq] at hmake'
    obtain rfl := hmake'.2
    -- the size goes through `%011o` unchanged, and the name is stripped a second time
    have hv : ((size % 2 ^ 32).toNat : Int) = size := by omega
    rw [ustar_parse_header_of_composed hc htype (by simp only [INT_MAX]; omega),
      strip_antisocial_prefixes_idem, hv]
  · -- a name that is too long: false, and the header as it was
    have hmake : ustar_make_header file_name type size header = some (false, header) := by
      simp only [ustar_make_header, if_neg hassert, if_pos (Nat.lt_of_not_le hlen)]
    refine ⟨by rw [hmake, decide_eq_false hlen]; rfl, fun h hmake' => ?_⟩
    rw [hmake, Option.some.injEq, Prod.mk.injEq] at hmake'
    exact absurd hmake'.1 Bool.false_ne_true

theorem ustar_parse_make_header_dotdot :
    (0 : UInt8) ∉ [46, 46, 47, 97] ∧
      (UstarType.REGULAR = .REGULAR ∨ UstarType.REGULAR = .DIRECTORY) ∧
      ((0 : Int) ≤ 100 ∧ (100 : Int) ≤ INT_MAX) ∧
      (ustar_make_header [46, 46, 47, 97] .REGULAR 100 fun _ => 0).map Prod.fst =
          some (decide ((strip_antisocial_prefixes [46, 46, 47, 97]).length ≤ 99)) ∧
        ∀ h, ustar_make_header [46, 46, 47, 97] .REGULAR 100 (fun _ => 0) = some (true, h) →
          ustar_parse_header h = .ok (some (strip_antisocial_prefixes [46, 46, 47, 97]),
            .REGULAR, if UstarType.REGULAR = .REGULAR then 100 else 0) :=
  ⟨by decide, Or.inl rfl, by decide,
    ustar_parse_make_header [46, 46, 47, 97] (by decide) .REGULAR (Or.inl rfl) 100 (by decide)
      fun _ => 0⟩

end Pintos.Lib.Ustar
