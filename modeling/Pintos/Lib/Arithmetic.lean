import Pintos.Division
import Mathlib.Data.BitVec

/-!
# 64-bit division on a 32-bit machine: `lib/arithmetic.c`

GCC calls `__udivdi3`, `__umoddi3`, `__divdi3` and `__moddi3` for 64-bit division
and remainder. `udiv64` does the unsigned division with the one x86 instruction
that divides a 64-bit dividend by a 32-bit divisor, `divl`, which traps with a
divide error when the quotient does not fit in 32 bits. A divisor of one word is
handled by dividing the high word first; a longer divisor is normalised so that
its top word has its high bit set, and the quotient of the top words, one too
large at most, is corrected by one multiplication.

The fixed-width types are the code's: `uint64_t` is `UInt64`, `int64_t` is `Int64`
and so on, with C's conversions between them. `divl` returns `none` for the
divide error. `umod64` and `smod64` are declared to return 32-bit values, and their
results are converted as the declarations say.
-/

set_option linter.style.nameCheck false

namespace Pintos.Lib.Arithmetic

/-- `divl (n, d)`: `divl` on `edx:eax = n`, giving the quotient, or the divide
error when `d` is zero or the quotient does not fit in 32 bits. -/
def divl (n : UInt64) (d : UInt32) : Option UInt32 :=
  if d = 0 ∨ 2 ^ 32 ≤ n.toNat / d.toNat then none
  else some (n.toNat / d.toNat).toUInt32

/-- One test of `nlz`: `if (x <= lim) { n += k; x <<= k; }`. -/
def nlz_step (lim : UInt32) (k : Nat) (p : Nat × UInt32) : Nat × UInt32 :=
  if p.2 ≤ lim then (p.1 + k, p.2 <<< k.toUInt32) else p

/-- `nlz (x)`: the number of leading zero bits of `x`, by binary search. -/
def nlz (x : UInt32) : Nat :=
  let p := nlz_step 0x3FFFFFFF 2 (nlz_step 0x0FFFFFFF 4 (nlz_step 0x00FFFFFF 8
    (nlz_step 0x0000FFFF 16 (0, x))))
  if p.2 ≤ 0x7FFFFFFF then p.1 + 1 else p.1

/-- `udiv64 (n, d)`. -/
def udiv64 (n d : UInt64) : Option UInt64 :=
  if d >>> 32 = 0 then
    let b : UInt64 := (1 : UInt64) <<< 32
    let n1 : UInt32 := (n >>> 32).toUInt32
    let n0 : UInt32 := n.toUInt32
    let d0 : UInt32 := d.toUInt32
    (divl (b * (n1 % d0).toUInt64 + n0.toUInt64) d0).map fun q =>
      q.toUInt64 + b * (n1 / d0).toUInt64
  else if n < d then some 0
  else
    let d1 : UInt32 := (d >>> 32).toUInt32
    let s := nlz d1
    (divl (n >>> 1) ((d <<< s.toUInt64) >>> 32).toUInt32).map fun q₀ =>
      let q : UInt64 := (q₀ >>> (31 - s).toUInt32).toUInt64
      if n - (q - 1) * d < d then q - 1 else q

/-- `umod64 (n, d)`, whose result is a `uint32_t`. -/
def umod64 (n d : UInt64) : Option UInt32 :=
  (udiv64 n d).map fun q => (n - d * q).toUInt32

/-- `sdiv64 (n, d)`. -/
def sdiv64 (n d : Int64) : Option Int64 :=
  let n_abs : UInt64 := if n ≥ 0 then n.toUInt64 else -n.toUInt64
  let d_abs : UInt64 := if d ≥ 0 then d.toUInt64 else -d.toUInt64
  (udiv64 n_abs d_abs).map fun q_abs =>
    if decide (n < 0) = decide (d < 0) then q_abs.toInt64 else -q_abs.toInt64

/-- `smod64 (n, d)`, whose result is an `int32_t`. -/
def smod64 (n d : Int64) : Option Int32 :=
  (sdiv64 n d).map fun q => (n - d * q).toInt32

def __divdi3 (n d : Int64) : Option Int64 := sdiv64 n d

def __moddi3 (n d : Int64) : Option Int64 := (smod64 n d).map Int32.toInt64

def __udivdi3 (n d : UInt64) : Option UInt64 := udiv64 n d

def __umoddi3 (n d : UInt64) : Option UInt64 := (umod64 n d).map UInt32.toUInt64

/-! ## `divl` and `nlz` -/

theorem divl_eq {n : UInt64} {d : UInt32} (hd : d ≠ 0) (hq : n.toNat / d.toNat < 2 ^ 32) :
    divl n d = some (n.toNat / d.toNat).toUInt32 := by
  rw [divl, if_neg]
  rintro (h | h)
  · exact hd h
  · omega

/-- One test of `nlz` shifts a value of at least `32 - 2k` bits to one of at least
`32 - k` bits, keeping it `x * 2 ^ n`. -/
theorem nlz_step_spec {m : UInt32} {k x : Nat} {p : Nat × UInt32} (hk : k ≤ 16)
    (hm : m.toNat + 1 = 2 ^ (32 - k)) (hp : p.2.toNat = x * 2 ^ p.1)
    (hlo : 2 ^ (32 - 2 * k) ≤ p.2.toNat) :
    (nlz_step m k p).2.toNat = x * 2 ^ (nlz_step m k p).1 ∧
      2 ^ (32 - k) ≤ (nlz_step m k p).2.toNat := by
  unfold nlz_step
  split
  · rename_i hle
    rw [UInt32.le_iff_toNat_le] at hle
    -- the shift does not overflow: the value is below `2 ^ (32 - k)`
    have hsh : (p.2 <<< k.toUInt32).toNat = p.2.toNat * 2 ^ k := by
      rw [UInt32.toNat_shiftLeft, Nat.shiftLeft_eq]
      have hk' : k.toUInt32.toNat % 32 = k := by simp [Nat.toUInt32]; omega
      rw [hk', Nat.mod_eq_of_lt]
      calc p.2.toNat * 2 ^ k < 2 ^ (32 - k) * 2 ^ k := Nat.mul_lt_mul_of_pos_right (by omega)
            (Nat.two_pow_pos k)
        _ = 2 ^ 32 := by rw [← Nat.pow_add]; congr 1; omega
    refine ⟨by rw [hsh, hp, Nat.pow_add, Nat.mul_assoc], ?_⟩
    rw [hsh]
    calc 2 ^ (32 - k) = 2 ^ (32 - 2 * k) * 2 ^ k := by rw [← Nat.pow_add]; congr 1; omega
      _ ≤ p.2.toNat * 2 ^ k := Nat.mul_le_mul_right _ hlo
  · rename_i hgt
    rw [UInt32.le_iff_toNat_le] at hgt
    exact ⟨hp, by omega⟩

/-- `nlz` shifts a nonzero `x` to have its high bit set. -/
theorem nlz_spec {x : UInt32} (hx : x ≠ 0) :
    2 ^ 31 ≤ x.toNat * 2 ^ nlz x ∧ x.toNat * 2 ^ nlz x < 2 ^ 32 := by
  have hx0 : 1 ≤ x.toNat := by
    have : x.toNat ≠ 0 := fun h => hx (UInt32.toNat_inj.mp (by simpa using h))
    omega
  have h₁ := nlz_step_spec (m := 0x0000FFFF) (k := 16) (x := x.toNat) (p := (0, x)) (by decide)
    (by decide)
    (by simp) (by simpa using hx0)
  have h₂ := nlz_step_spec (m := 0x00FFFFFF) (k := 8) (by decide) (by decide) h₁.1 h₁.2
  have h₃ := nlz_step_spec (m := 0x0FFFFFFF) (k := 4) (by decide) (by decide) h₂.1 h₂.2
  have h₄ := nlz_step_spec (m := 0x3FFFFFFF) (k := 2) (by decide) (by decide) h₃.1 h₃.2
  unfold nlz
  generalize nlz_step 0x3FFFFFFF 2 (nlz_step 0x0FFFFFFF 4 (nlz_step 0x00FFFFFF 8
    (nlz_step 0x0000FFFF 16 (0, x)))) = p at h₄ ⊢
  obtain ⟨hp, hlo⟩ := h₄
  have hhi := p.2.toNat_lt
  -- the last test shifts by one more bit exactly when the high bit is still clear
  by_cases hle : p.2 ≤ 0x7FFFFFFF
  · simp only [hle, if_true]
    rw [UInt32.le_iff_toNat_le] at hle
    have hshift : x.toNat * 2 ^ (p.1 + 1) = p.2.toNat * 2 := by
      rw [hp, Nat.pow_succ, Nat.mul_assoc]
    rw [hshift]
    constructor <;> simp at hle hlo ⊢ <;> omega
  · simp only [hle, if_false]
    rw [UInt32.le_iff_toNat_le] at hle
    rw [← hp]
    constructor <;> simp at hle ⊢ <;> omega

/-! ## `udiv64` -/

section Udiv

variable {n d : UInt64}

theorem toNat_shiftRight_32 (x : UInt64) : (x >>> 32).toNat = x.toNat / 2 ^ 32 := by
  rw [UInt64.toNat_shiftRight, Nat.shiftRight_eq_div_pow]
  rfl

theorem toNat_high_word (x : UInt64) : (x >>> 32).toUInt32.toNat = x.toNat / 2 ^ 32 := by
  rw [UInt64.toNat_toUInt32, toNat_shiftRight_32, Nat.mod_eq_of_lt]
  have := x.toNat_lt
  omega

/-- A one-word divisor: the high word is divided first, and its remainder is carried
into the division of the low word. -/
theorem udiv64_small (hd : d ≠ 0) (hd32 : d.toNat < 2 ^ 32) : udiv64 n d = some (n / d) := by
  have hd0 : 0 < d.toNat := Nat.pos_of_ne_zero fun h => hd (UInt64.toNat_inj.mp (by simpa using h))
  have hcond : d >>> 32 = 0 := UInt64.toNat_inj.mp (by rw [toNat_shiftRight_32]; simp; omega)
  have hn := n.toNat_lt
  have hd0' : d.toUInt32.toNat = d.toNat := by rw [UInt64.toNat_toUInt32, Nat.mod_eq_of_lt hd32]
  have hn1 := toNat_high_word n
  have hn0 : n.toUInt32.toNat = n.toNat % 2 ^ 32 := UInt64.toNat_toUInt32 n
  have hb : ((1 : UInt64) <<< 32).toNat = 2 ^ 32 := rfl
  have hr : n.toNat / 2 ^ 32 % d.toNat < d.toNat := Nat.mod_lt _ hd0
  -- the carried dividend `b * (n1 % d0) + n0` does not overflow
  have hx : ((1 : UInt64) <<< 32 * ((n >>> 32).toUInt32 % d.toUInt32).toUInt64 +
      n.toUInt32.toUInt64).toNat = 2 ^ 32 * (n.toNat / 2 ^ 32 % d.toNat) + n.toNat % 2 ^ 32 := by
    rw [UInt64.toNat_add, UInt64.toNat_mul, hb, UInt32.toNat_toUInt64, UInt32.toNat_mod, hn1, hd0',
      UInt32.toNat_toUInt64, hn0]
    have : 2 ^ 32 * (n.toNat / 2 ^ 32 % d.toNat) ≤ 2 ^ 32 * (2 ^ 32 - 1) :=
      Nat.mul_le_mul_left _ (by omega)
    rw [Nat.mod_eq_of_lt (by omega), Nat.mod_eq_of_lt (by omega)]
  have hcarry := Division.carry_div_lt (b := 2 ^ 32) hr (Nat.mod_lt n.toNat (by decide))
  have hd32' : d.toUInt32 ≠ 0 := fun h => by
    have := congrArg UInt32.toNat h
    rw [hd0'] at this
    simp at this
    omega
  have hsplit := Division.div_two_step (2 ^ 32) (n.toNat / 2 ^ 32) (n.toNat % 2 ^ 32) d.toNat
  rw [Nat.div_add_mod] at hsplit
  simp only [udiv64, hcond, if_true]
  rw [divl_eq hd32' (by rw [hx, hd0']; exact hcarry), Option.map_some]
  congr 1
  apply UInt64.toNat_inj.mp
  have hq : n.toNat / d.toNat < 2 ^ 64 := lt_of_le_of_lt (Nat.div_le_self _ _) hn
  rw [UInt64.toNat_div, UInt64.toNat_add, UInt64.toNat_mul, hb, UInt32.toNat_toUInt64,
    UInt32.toNat_toUInt64, UInt32.toNat_div, hn1, hd0', UInt32.toNat_ofNat', hx,
    Nat.mod_eq_of_lt hcarry]
  -- the two parts add up to the quotient, which fits
  have hhigh : 2 ^ 32 * (n.toNat / 2 ^ 32 / d.toNat) ≤ n.toNat / d.toNat := by
    rw [hsplit]
    exact Nat.le_add_right _ _
  rw [Nat.mod_eq_of_lt (show 2 ^ 32 * (n.toNat / 2 ^ 32 / d.toNat) < 2 ^ 64 by omega),
    Nat.add_comm, ← hsplit, Nat.mod_eq_of_lt hq]

/-- The last step of the normalised branch: an estimate `q` that is the quotient or
one more is corrected with one multiplication, without overflow. -/
theorem correct_step {q : UInt64} (hd : d ≠ 0) (hnd : d ≤ n)
    (hlo : n.toNat / d.toNat ≤ q.toNat) (hhi : q.toNat ≤ n.toNat / d.toNat + 1) :
    (if n - (q - 1) * d < d then q - 1 else q) = n / d := by
  have hd0 : 0 < d.toNat := Nat.pos_of_ne_zero fun h => hd (UInt64.toNat_inj.mp (by simpa using h))
  have hnd' : d.toNat ≤ n.toNat := UInt64.le_iff_toNat_le.mp hnd
  have hn := n.toNat_lt
  generalize hQ : n.toNat / d.toNat = Q at hlo hhi
  have hQ1 : 1 ≤ Q := hQ ▸ Nat.div_pos hnd' hd0
  have hQd : Q * d.toNat ≤ n.toNat := hQ ▸ Nat.div_mul_le_self _ _
  have hmod : n.toNat - Q * d.toNat < d.toNat := by
    have := Nat.mod_lt n.toNat hd0
    rw [Nat.mod_eq_sub_mul_div, hQ, Nat.mul_comm] at this
    exact this
  -- `q - 1`, `(q - 1) * d` and `n - (q - 1) * d` are computed without wrapping
  have hq1 : (q - 1).toNat = q.toNat - 1 := UInt64.toNat_sub_of_le _ _
    (UInt64.le_iff_toNat_le.mpr (by simp; omega))
  have hmul : (q.toNat - 1) * d.toNat ≤ Q * d.toNat := Nat.mul_le_mul_right _ (by omega)
  have hprod : ((q - 1) * d).toNat = (q.toNat - 1) * d.toNat := by
    rw [UInt64.toNat_mul, hq1, Nat.mod_eq_of_lt (by omega)]
  have hsub : (n - (q - 1) * d).toNat = n.toNat - (q.toNat - 1) * d.toNat := by
    rw [UInt64.toNat_sub_of_le _ _ (UInt64.le_iff_toNat_le.mpr (by rw [hprod]; omega)), hprod]
  have hdiv : (n / d).toNat = Q := by rw [UInt64.toNat_div, hQ]
  rcases Nat.eq_or_lt_of_le hhi with hq | hq
  · -- the estimate was one too large
    have hlt : n - (q - 1) * d < d := by
      rw [UInt64.lt_iff_toNat_lt, hsub, hq, Nat.add_sub_cancel]
      exact hmod
    rw [if_pos hlt]
    exact UInt64.toNat_inj.mp (by rw [hq1, hdiv]; omega)
  · -- the estimate was exact
    have hqQ : q.toNat = Q := by omega
    have hge : ¬ n - (q - 1) * d < d := by
      rw [UInt64.lt_iff_toNat_lt, hsub, hqQ, Nat.sub_mul, Nat.one_mul]
      omega
    rw [if_neg hge]
    exact UInt64.toNat_inj.mp (by rw [hdiv, hqQ])

/-- A divisor of more than one word: `d` shifted left by `nlz (d1)` has its high bit
set, the quotient of `n / 2` by its top word, shifted back, is the quotient of `n`
by `d` rounded down to a multiple of `2 ^ (32 - s)`, and `divl` does not trap. -/
theorem udiv64_large (hd32 : 2 ^ 32 ≤ d.toNat) (hnd : d ≤ n) : udiv64 n d = some (n / d) := by
  have hn := n.toNat_lt
  have hdn := d.toNat_lt
  have hcond : d >>> 32 ≠ 0 := fun h => by
    have := congrArg UInt64.toNat h
    rw [toNat_shiftRight_32] at this
    simp at this
    omega
  have hlt : ¬ n < d := fun h => absurd hnd (UInt64.not_le.mpr h)
  -- the top word of `d` and its leading zeros
  have hd1 := toNat_high_word d
  have hd1ne : (d >>> 32).toUInt32 ≠ 0 := fun h => by
    have := congrArg UInt32.toNat h
    rw [hd1] at this
    simp at this
    omega
  obtain ⟨hslo, hshi⟩ := nlz_spec hd1ne
  rw [hd1] at hslo hshi
  generalize hs : nlz (d >>> 32).toUInt32 = s at hslo hshi
  have hd1pos : 1 ≤ d.toNat / 2 ^ 32 := (Nat.le_div_iff_mul_le (by decide)).mpr (by simpa using hd32)
  have hs31 : s ≤ 31 := by
    by_contra h
    have : 2 ^ 32 ≤ d.toNat / 2 ^ 32 * 2 ^ s :=
      calc 2 ^ 32 ≤ 1 * 2 ^ s := by rw [Nat.one_mul]; exact Nat.pow_le_pow_right (by decide) (by omega)
        _ ≤ d.toNat / 2 ^ 32 * 2 ^ s := Nat.mul_le_mul_right _ hd1pos
    omega
  obtain ⟨t, ht⟩ : ∃ t, t = 32 - s := ⟨_, rfl⟩
  have h32 : 2 ^ 32 = 2 ^ s * 2 ^ t := by rw [← Nat.pow_add]; congr 1; omega
  -- `d` has `31 + t` to `32 + t` bits, so the shift by `s` does not overflow
  have hdlo : 2 ^ (31 + t) ≤ d.toNat :=
    calc 2 ^ (31 + t) = 2 ^ 31 * 2 ^ t := Nat.pow_add 2 31 t
      _ ≤ d.toNat / 2 ^ 32 * 2 ^ s * 2 ^ t := Nat.mul_le_mul_right _ hslo
      _ = d.toNat / 2 ^ 32 * 2 ^ 32 := by rw [h32, Nat.mul_assoc]
      _ ≤ d.toNat := Nat.div_mul_le_self _ _
  have hdhi : d.toNat * 2 ^ s < 2 ^ 64 := by
    have hD1 : d.toNat / 2 ^ 32 + 1 ≤ 2 ^ t := by
      have : d.toNat / 2 ^ 32 * 2 ^ s < 2 ^ t * 2 ^ s := by rw [Nat.mul_comm (2 ^ t), ← h32]; exact hshi
      have := Nat.lt_of_mul_lt_mul_right this
      omega
    calc d.toNat * 2 ^ s < 2 ^ 32 * (d.toNat / 2 ^ 32 + 1) * 2 ^ s :=
          Nat.mul_lt_mul_of_pos_right (Nat.lt_mul_div_succ _ (by decide)) (Nat.two_pow_pos s)
      _ ≤ 2 ^ 32 * 2 ^ t * 2 ^ s := Nat.mul_le_mul_right _ (Nat.mul_le_mul_left _ hD1)
      _ = 2 ^ 64 := by rw [Nat.mul_assoc, Nat.mul_comm (2 ^ t), ← h32, ← Nat.pow_add]
  have hsh : s.toUInt64.toNat % 64 = s := by
    rw [UInt64.toNat_ofNat', Nat.mod_eq_of_lt (show s < 2 ^ 64 by omega),
      Nat.mod_eq_of_lt (show s < 64 by omega)]
  have hshl : (d <<< s.toUInt64).toNat = d.toNat * 2 ^ s := by
    rw [UInt64.toNat_shiftLeft, Nat.shiftLeft_eq, hsh, Nat.mod_eq_of_lt hdhi]
  -- the top word of the shifted divisor is `d / 2 ^ t`, of 32 bits with the high one set
  have hv : ((d <<< s.toUInt64) >>> 32).toUInt32.toNat = d.toNat / 2 ^ t := by
    rw [toNat_high_word, hshl, h32, Nat.mul_comm (2 ^ s), Nat.mul_div_mul_right _ _ (Nat.two_pow_pos s)]
  have hvlo : 2 ^ 31 ≤ d.toNat / 2 ^ t :=
    (Nat.le_div_iff_mul_le (Nat.two_pow_pos t)).mpr (by rw [← Nat.pow_add]; exact hdlo)
  have hvne : ((d <<< s.toUInt64) >>> 32).toUInt32 ≠ 0 := fun h => by
    have := congrArg UInt32.toNat h
    rw [hv, UInt32.toNat_zero] at this
    omega
  have hhalf : (n >>> 1).toNat = n.toNat / 2 := by
    rw [UInt64.toNat_shiftRight, Nat.shiftRight_eq_div_pow]
    rfl
  have hq₀ : n.toNat / 2 / (d.toNat / 2 ^ t) < 2 ^ 32 := by
    rw [Nat.div_lt_iff_lt_mul (by omega)]
    calc n.toNat / 2 < 2 ^ 63 := by omega
      _ = 2 ^ 32 * 2 ^ 31 := by norm_num
      _ ≤ 2 ^ 32 * (d.toNat / 2 ^ t) := Nat.mul_le_mul_left _ hvlo
  simp only [udiv64, hcond, if_false, hlt, hs]
  rw [divl_eq hvne (by rw [hhalf, hv]; exact hq₀), Option.map_some]
  congr 1
  -- the estimate is `n` divided by `d` rounded down to a multiple of `2 ^ t`
  have hest : ((n.toNat / 2 / (d.toNat / 2 ^ t)).toUInt32 >>> (31 - s).toUInt32).toUInt64.toNat =
      n.toNat / (d.toNat - d.toNat % 2 ^ t) := by
    rw [UInt32.toNat_toUInt64, UInt32.toNat_shiftRight, UInt32.toNat_ofNat', UInt32.toNat_ofNat',
      Nat.mod_eq_of_lt hq₀, Nat.mod_eq_of_lt (by omega), Nat.mod_eq_of_lt (by omega),
      Nat.shiftRight_eq_div_pow, Nat.div_div_eq_div_mul, Nat.div_div_eq_div_mul, Division.sub_mod_eq]
    have h2t : 2 ^ t = 2 * 2 ^ (31 - s) := by
      rw [show t = 31 - s + 1 by omega, Nat.pow_succ']
    have hmul : 2 * (d.toNat / 2 ^ t * 2 ^ (31 - s)) = 2 ^ t * (d.toNat / 2 ^ t) := by
      rw [h2t]
      ring
    rw [hmul]
  have hlo := Division.div_le_div_round (n := n.toNat)
    (show 2 ^ t ≤ d.toNat from le_trans (Nat.pow_le_pow_right (by decide) (by omega)) hdlo)
  have hhi := Division.div_round_le_succ hn hdlo
  rw [hv, hhalf]
  exact correct_step (q := _) (fun h => by simp [h] at hd32) hnd (hest ▸ hlo) (hest ▸ hhi)

theorem udiv64_eq (hd : d ≠ 0) : udiv64 n d = some (n / d) := by
  by_cases hd32 : d.toNat < 2 ^ 32
  · exact udiv64_small hd hd32
  by_cases hnd : n < d
  · -- `n < d` with a divisor of more than one word: the quotient is zero
    have hcond : d >>> 32 ≠ 0 := fun h => by
      have := congrArg UInt64.toNat h
      rw [toNat_shiftRight_32] at this
      simp at this
      omega
    simp only [udiv64, hcond, if_false, hnd, if_true]
    congr 1
    exact UInt64.toNat_inj.mp (by rw [UInt64.toNat_div, Nat.div_eq_of_lt (UInt64.lt_iff_toNat_lt.mp hnd)]; rfl)
  · exact udiv64_large (by omega) (UInt64.not_lt.mp hnd)

end Udiv

/-- `__udivdi3 (n, d)` is the quotient `n / d`, and no `divl` that it executes traps. -/
theorem udivdi3_exact (n d : UInt64) (hd : d ≠ 0) : __udivdi3 n d = some (n / d) :=
  udiv64_eq hd

theorem udivdi3_exact_at : (0x100000003 : UInt64) ≠ 0 ∧
    __udivdi3 0xFFFFFFFFFFFFFFFF 0x100000003 = some (0xFFFFFFFFFFFFFFFF / 0x100000003) :=
  ⟨by decide, udivdi3_exact 0xFFFFFFFFFFFFFFFF 0x100000003 (by decide)⟩

/-! ## Remainders and signed division -/

theorem sub_mul_div_eq_mod {n d : UInt64} : n - d * (n / d) = n % d := by
  have hle : d.toNat * (n.toNat / d.toNat) ≤ n.toNat := Nat.mul_div_le _ _
  have hmul : (d * (n / d)).toNat = d.toNat * (n.toNat / d.toNat) := by
    rw [UInt64.toNat_mul, UInt64.toNat_div, Nat.mod_eq_of_lt (lt_of_le_of_lt hle n.toNat_lt)]
  apply UInt64.toNat_inj.mp
  rw [UInt64.toNat_sub_of_le _ _ (UInt64.le_iff_toNat_le.mpr (by rw [hmul]; exact hle)), hmul,
    UInt64.toNat_mod, Nat.mod_eq_sub_mul_div]

/-- `umod64` computes the remainder and returns its low 32 bits. -/
theorem umod64_eq {n d : UInt64} (hd : d ≠ 0) : umod64 n d = some (n % d).toUInt32 := by
  rw [umod64, udiv64_eq hd, Option.map_some, sub_mul_div_eq_mod]

/-- `__umoddi3 (n, d)` is `n % d` with the bits from 32 up cleared. -/
theorem umoddi3_eq {n d : UInt64} (hd : d ≠ 0) :
    __umoddi3 n d = some (n % d).toUInt32.toUInt64 := by
  rw [__umoddi3, umod64_eq hd, Option.map_some]

theorem decide_lt_zero (x : Int64) : decide (x < 0) = x.toBitVec.msb := by
  rw [BitVec.msb_eq_toInt, Int64.toInt_toBitVec]
  simp [Int64.lt_iff_toInt_lt]

/-- The absolute value `sdiv64` computes, as bits. -/
theorem abs_toBitVec (x : Int64) :
    (if x ≥ 0 then x.toUInt64 else -x.toUInt64).toBitVec =
      if x.toBitVec.msb then -x.toBitVec else x.toBitVec := by
  have h := decide_lt_zero x
  by_cases hx : x < 0
  · rw [if_neg (Int64.not_le.mpr hx)]
    simp [hx] at h
    simp [h]
  · rw [if_pos (Int64.not_lt.mp hx)]
    simp [hx] at h
    simp [← h]

/-- `sdiv64` divides the absolute values and puts the sign back: it is the division
of `Int64`, which truncates toward zero. -/
theorem sdiv64_eq {n d : Int64} (hd : d ≠ 0) : sdiv64 n d = some (n / d) := by
  have hdabs : (if d ≥ 0 then d.toUInt64 else -d.toUInt64) ≠ 0 := by
    intro h
    apply hd
    have := congrArg UInt64.toBitVec h
    rw [abs_toBitVec] at this
    apply Int64.toBitVec_inj.mp
    split at this
    · simpa using this
    · simpa using this
  unfold sdiv64
  dsimp only
  rw [udiv64_eq hdabs, Option.map_some]
  congr 1
  apply Int64.toBitVec_inj.mp
  -- both are the division of the magnitudes with the sign put back, case by case on the signs
  rw [Int64.toBitVec_div, decide_lt_zero, decide_lt_zero]
  unfold BitVec.sdiv
  have hq : ∀ a b : UInt64, (a / b).toInt64.toBitVec = a.toBitVec / b.toBitVec := fun a b => by
    rw [UInt64.toBitVec_toInt64, UInt64.toBitVec_div]
  cases hmn : n.toBitVec.msb <;> cases hmd : d.toBitVec.msb <;>
    simp [hq, Int64.toBitVec_neg, abs_toBitVec, hmn, hmd, BitVec.udiv_eq]

theorem divdi3_eq {n d : Int64} (hd : d ≠ 0) : __divdi3 n d = some (n / d) :=
  sdiv64_eq hd

/-- `__moddi3 (n, d)` is `n - d * (n / d)` cut to its low 32 bits and sign-extended. -/
theorem moddi3_eq {n d : Int64} (hd : d ≠ 0) :
    __moddi3 n d = some (n - d * (n / d)).toInt32.toInt64 := by
  rw [__moddi3, smod64, sdiv64_eq hd, Option.map_some, Option.map_some]

/-- The remainders lose their high bits: `2 ^ 32 mod (2 ^ 32 + 1)` is `2 ^ 32`, but
`__umoddi3` and `__moddi3` return 0, while `__divdi3` returns the quotient 0. -/
theorem umoddi3_moddi3_truncate :
    __umoddi3 0x100000000 0x100000001 = some 0 ∧
      (0x100000000 : UInt64) % 0x100000001 = 0x100000000 ∧
    __divdi3 0x100000000 0x100000001 = some 0 ∧ __moddi3 0x100000000 0x100000001 = some 0 := by
  rw [umoddi3_eq (by decide), divdi3_eq (by decide), moddi3_eq (by decide)]
  decide

end Pintos.Lib.Arithmetic
