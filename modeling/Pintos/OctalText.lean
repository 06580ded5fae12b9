import Mathlib.Data.Nat.Digits.Lemmas

/-!
# Numbers as octal text

Octal numbers written with the ASCII digits `0` to `7`, most significant digit first, as
`printf ("%0*o", width, v)` writes them: the digits of `v` (one `0` for zero), padded on
the left with `0` to at least `width` digits (`encode`). `value acc cs` reads digits after
a number `acc` already read. Reading back what `encode` wrote gives the number
(`value_encode`), a number below `8 ^ width` takes exactly `width` digits
(`length_encode`), and reading never goes down (`le_value`).
-/

namespace OctalText

/-- The ASCII digit of `d`. -/
def digit (d : Nat) : UInt8 := UInt8.ofNat (48 + d)

/-- An ASCII octal digit, `'0' <= c && c <= '7'`. -/
def IsDigit (c : UInt8) : Prop := 48 ≤ c ∧ c ≤ 55

instance (c : UInt8) : Decidable (IsDigit c) := inferInstanceAs (Decidable (_ ∧ _))

/-- The base-8 digits of `v`, most significant first; `0` has the one digit `0`. -/
def digits (v : Nat) : List Nat := if v = 0 then [0] else (Nat.digits 8 v).reverse

/-- `printf ("%0*o", width, v)`. -/
def encode (width v : Nat) : List UInt8 :=
  List.replicate (width - (digits v).length) (digit 0) ++ (digits v).map digit

/-- The number `acc` followed by the octal digits `cs`: `acc = c - '0' + acc * 8` for each. -/
def value (acc : Nat) : List UInt8 → Nat
  | [] => acc
  | c :: cs => value ((c.toNat - 48) + acc * 8) cs

theorem digits_lt {v d : Nat} (h : d ∈ digits v) : d < 8 := by
  unfold digits at h
  split at h
  · simp_all
  · exact Nat.digits_lt_base (by decide) (List.mem_reverse.mp h)

theorem digits_ne_nil (v : Nat) : digits v ≠ [] := by
  unfold digits
  split
  · exact List.cons_ne_nil 0 []
  · rename_i hv
    exact List.reverse_ne_nil_iff.mpr (Nat.digits_ne_nil_iff_ne_zero.mpr hv)

theorem length_digits_le {w v : Nat} (hw : 0 < w) (h : v < 8 ^ w) : (digits v).length ≤ w := by
  unfold digits
  split
  · simp only [List.length_singleton]
    exact hw
  · rw [List.length_reverse]
    exact (Nat.digits_length_le_iff (by decide) v).mpr h

theorem isDigit_digit {d : Nat} (h : d < 8) : IsDigit (digit d) := by
  unfold IsDigit digit
  constructor <;> rw [UInt8.le_iff_toNat_le, UInt8.toNat_ofNat'] <;> simp <;> omega

theorem toNat_digit {d : Nat} (h : d < 8) : (digit d).toNat - 48 = d := by
  simp only [digit, UInt8.toNat_ofNat']
  omega

theorem isDigit_of_mem_encode {w v : Nat} {c : UInt8} (h : c ∈ encode w v) : IsDigit c := by
  rcases List.mem_append.mp h with h | h
  · rw [List.eq_of_mem_replicate h]
    exact isDigit_digit (by decide)
  · obtain ⟨d, hd, rfl⟩ := List.mem_map.mp h
    exact isDigit_digit (digits_lt hd)

theorem length_encode {w v : Nat} (hw : 0 < w) (h : v < 8 ^ w) : (encode w v).length = w := by
  have hle := length_digits_le hw h
  simp only [encode, List.length_append, List.length_replicate, List.length_map]
  omega

/-- There is always a digit. -/
theorem encode_ne_nil (w v : Nat) : encode w v ≠ [] := by
  simp only [encode, ne_eq, List.append_eq_nil_iff, List.map_eq_nil_iff, not_and]
  exact fun _ => digits_ne_nil v

theorem value_append (acc : Nat) (cs ds : List UInt8) :
    value acc (cs ++ ds) = value (value acc cs) ds := by
  induction cs generalizing acc with
  | nil => rfl
  | cons c cs ih => exact ih _

/-- Reading digits never makes the number smaller. -/
theorem le_value (acc : Nat) (cs : List UInt8) : acc ≤ value acc cs := by
  induction cs generalizing acc with
  | nil => exact Nat.le_refl acc
  | cons c cs ih =>
    have := ih ((c.toNat - 48) + acc * 8)
    simp only [value]
    omega

/-- Digits read most significant first are the little-endian `Nat.ofDigits` of their
reversal, after the number already read. -/
theorem value_map_digit (acc : Nat) {ds : List Nat} (hds : ∀ d ∈ ds, d < 8) :
    value acc (ds.map digit) = Nat.ofDigits 8 ds.reverse + acc * 8 ^ ds.length := by
  induction ds generalizing acc with
  | nil => simp [value]
  | cons d ds ih =>
    have hd := hds d List.mem_cons_self
    rw [List.map_cons, value, toNat_digit hd, ih _ fun e he => hds e (List.mem_cons_of_mem d he),
      List.reverse_cons, Nat.ofDigits_append, List.length_reverse, List.length_cons,
      Nat.ofDigits_singleton, Nat.pow_succ]
    ring

theorem value_replicate_zero (n : Nat) : value 0 (List.replicate n (digit 0)) = 0 := by
  induction n with
  | zero => rfl
  | succ n ih => exact ih

/-- Reading back what `encode` wrote gives the number. -/
theorem value_encode (w v : Nat) : value 0 (encode w v) = v := by
  rw [encode, value_append, value_replicate_zero, value_map_digit 0 fun d hd => digits_lt hd]
  unfold digits
  split
  · simp_all
  · simp [Nat.ofDigits_digits]

end OctalText
