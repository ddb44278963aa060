import NatcpSpec.Base.Decimal
import Mathlib.Data.Int.Log
import Mathlib.Data.List.DropRight

/-!
# Printing numbers

The conversions `%.pf` and `%.Pg` of the C library on rational numbers, and `%d` on integers.
The first two round to the nearest decimal of their precision, ties to even.
-/

namespace NatcpSpec.Base

/-! ### Rounding -/

/-- The nearest integer, ties to even. -/
def roundEven (q : ℚ) : ℤ :=
  if q - ⌊q⌋ < 1 / 2 then ⌊q⌋
  else if 1 / 2 < q - ⌊q⌋ then ⌊q⌋ + 1
  else if ⌊q⌋ % 2 = 0 then ⌊q⌋ else ⌊q⌋ + 1

/-- Integers are not moved. -/
@[simp]
theorem roundEven_intCast (n : ℤ) : roundEven n = n := by
  simp [roundEven]

/-- Zero is not moved. -/
@[simp]
theorem roundEven_zero : roundEven 0 = 0 := by
  simpa using roundEven_intCast 0

/-- Rounding moves by at most one half. -/
theorem abs_roundEven_sub_le (q : ℚ) : |(roundEven q : ℚ) - q| ≤ 1 / 2 := by
  have hle := Int.floor_le q
  have hlt := Int.lt_floor_add_one q
  unfold roundEven
  split_ifs <;> rw [abs_le] <;> push_cast <;> constructor <;> linarith

/-- Rounding keeps the sign of what is not negative. -/
theorem roundEven_nonneg {q : ℚ} (h : 0 ≤ q) : 0 ≤ roundEven q := by
  have hf : 0 ≤ ⌊q⌋ := Int.floor_nonneg.mpr h
  unfold roundEven
  split_ifs <;> omega

/-- Rounding stays within a bound by an integer. -/
theorem roundEven_le {q : ℚ} {n : ℤ} (h : q ≤ n) : roundEven q ≤ n := by
  by_contra hlt
  have hle : ((n : ℚ) + 1) ≤ roundEven q := by exact_mod_cast not_le.mp hlt
  have := (abs_le.mp (abs_roundEven_sub_le q)).2
  linarith

/-! ### Fixed precision -/

/-- The last `p` digits of a number, with leading zeros. -/
def fixedDigits : ℕ → ℕ → Text
  | 0, _ => []
  | p + 1, m => fixedDigits p (m / 10) ++ [digitByte (m % 10)]

/-- Digits before and behind a point, which is left out when nothing follows it. -/
def withPoint (whole frac : Text) : Text := if frac = [] then whole else whole ++ 46 :: frac

/-- The number of `10 ^ -p` units that a number is rounded to. -/
def units (p : ℕ) (q : ℚ) : ℕ := (roundEven (|q| * 10 ^ p)).toNat

/-- The sign of a number. -/
def signText (q : ℚ) : Text := if q < 0 then [45] else []

/-- The conversion `%.pf`. -/
def fixed (p : ℕ) (q : ℚ) : Text :=
  signText q ++ withPoint (decimal (units p q / 10 ^ p)) (fixedDigits p (units p q))

/-- A field of at least `w` bytes, filled with blanks on the left. -/
def leftPad (w : ℕ) (t : Text) : Text := List.replicate (w - t.length) 32 ++ t

/-- The last `p` digits are `p` many. -/
@[simp]
theorem length_fixedDigits (p m : ℕ) : (fixedDigits p m).length = p := by
  induction p generalizing m with
  | zero => rfl
  | succ p ih => rw [fixedDigits, List.length_append, ih, List.length_singleton]

/-- The last digits are digits. -/
theorem isDigit_of_mem_fixedDigits {p m : ℕ} {b : UInt8} (h : b ∈ fixedDigits p m) :
    isDigit b = true := by
  induction p generalizing m with
  | zero => simp [fixedDigits] at h
  | succ p ih =>
    rw [fixedDigits, List.mem_append, List.mem_singleton] at h
    rcases h with h | rfl
    · exact ih h
    · exact isDigit_digitByte (Nat.mod_lt m (by norm_num))

/-- The last digits are a residue. -/
theorem digitsVal_fixedDigits (p m : ℕ) : digitsVal (fixedDigits p m) = m % 10 ^ p := by
  induction p generalizing m with
  | zero => simp [fixedDigits, Nat.mod_one]
  | succ p ih =>
    have hlast : digitsVal [digitByte (m % 10)] = m % 10 := by
      simp [digitsVal, digitVal_digitByte (Nat.mod_lt m (by norm_num : 0 < 10))]
    rw [fixedDigits, digitsVal_append, ih, hlast, List.length_singleton, pow_one,
      pow_succ', Nat.mod_mul]
    ring

/-! ### Significant digits -/

/-- The conversion `%.Pg` of a number that is not zero, rounded to `m` units of its last
significant digit and of decimal exponent `x`: fixed notation for exponents from `-4` up to
the precision, scientific notation otherwise, and no zeros at the end of the fraction. -/
def generalAt (P : ℕ) (m : ℕ) (x : ℤ) : Text :=
  if -4 ≤ x ∧ x < P then
    let p := (P - 1 - x).toNat
    withPoint (decimal (m / 10 ^ p)) ((fixedDigits p m).rdropWhile (· == 48))
  else
    withPoint (decimal (m / 10 ^ (P - 1))) ((fixedDigits (P - 1) m).rdropWhile (· == 48)) ++
      101 :: (if x < 0 then 45 else 43) ::
        (if x.natAbs < 10 then fixedDigits 2 x.natAbs else decimal x.natAbs)

/-- A number as `m` units of its `P`-th significant digit. -/
def significant (P : ℕ) (q : ℚ) (x : ℤ) : ℕ := (roundEven (|q| * 10 ^ (P - 1 - x))).toNat

/-- The conversion `%.Pg`; a number that rounds up to a power of ten has its exponent. -/
def general (P : ℕ) (q : ℚ) : Text :=
  if q = 0 then [48]
  else
    let x := Int.log 10 |q|
    signText q ++
      if significant P q x = 10 ^ P then generalAt P (10 ^ (P - 1)) (x + 1)
      else generalAt P (significant P q x) x

/-! ### Printed text -/

/-- Bytes past the blank: no blanks, line ends or terminators. -/
def Graphic (t : Text) : Prop := ∀ b ∈ t, 32 < b

section Graphic

variable {t u : Text}

/-- The empty text is graphic. -/
@[simp]
theorem graphic_nil : Graphic [] := by simp [Graphic]

/-- A text is graphic byte by byte. -/
@[simp]
theorem graphic_cons {b : UInt8} : Graphic (b :: t) ↔ 32 < b ∧ Graphic t := by simp [Graphic]

/-- A text is graphic piece by piece. -/
@[simp]
theorem graphic_append : Graphic (t ++ u) ↔ Graphic t ∧ Graphic u := by
  simp [Graphic, or_imp, forall_and]

/-- Digits are graphic. -/
theorem graphic_of_digits (h : ∀ b ∈ t, isDigit b = true) : Graphic t := by
  intro b hb
  have hd := h b hb
  simp only [isDigit, Bool.and_eq_true, decide_eq_true_eq] at hd
  grind

/-- Numerals are graphic. -/
@[simp]
theorem graphic_decimal (n : ℕ) : Graphic (decimal n) :=
  graphic_of_digits (fun _ hb ↦ isDigit_of_mem_decimal hb)

/-- Digits with leading zeros are graphic. -/
@[simp]
theorem graphic_fixedDigits (p m : ℕ) : Graphic (fixedDigits p m) :=
  graphic_of_digits (fun _ hb ↦ isDigit_of_mem_fixedDigits hb)

/-- A sign is graphic. -/
@[simp]
theorem graphic_signText (q : ℚ) : Graphic (signText q) := by
  unfold signText
  split <;> simp

/-- A point is graphic. -/
theorem graphic_withPoint (ht : Graphic t) (hu : Graphic u) : Graphic (withPoint t u) := by
  unfold withPoint
  split
  · exact ht
  · simp [ht, hu]

/-- Numbers in fixed notation are graphic. -/
theorem graphic_fixed (p : ℕ) (q : ℚ) : Graphic (fixed p q) := by
  rw [fixed, graphic_append]
  exact ⟨graphic_signText q, graphic_withPoint (graphic_decimal _) (graphic_fixedDigits _ _)⟩

private theorem graphic_trimmed (p m : ℕ) :
    Graphic ((fixedDigits p m).rdropWhile (· == 48)) :=
  fun b hb ↦ graphic_fixedDigits p m b ((List.rdropWhile_prefix _ _).subset hb)

private theorem graphic_generalAt (P m : ℕ) (x : ℤ) : Graphic (generalAt P m x) := by
  unfold generalAt
  split
  · exact graphic_withPoint (graphic_decimal _) (graphic_trimmed _ _)
  · rw [graphic_append, graphic_cons, graphic_cons]
    refine ⟨graphic_withPoint (graphic_decimal _) (graphic_trimmed _ _), by decide, ?_, ?_⟩
    · split <;> decide
    · split <;> simp

/-- Numbers in general notation are graphic. -/
theorem graphic_general (P : ℕ) (q : ℚ) : Graphic (general P q) := by
  unfold general
  split
  · simp
  · rw [graphic_append]
    refine ⟨graphic_signText q, ?_⟩
    split <;> exact graphic_generalAt _ _ _

end Graphic

private theorem withPoint_decimal_ne_nil (n : ℕ) (t : Text) : withPoint (decimal n) t ≠ [] := by
  unfold withPoint
  split <;> simp [decimal_ne_nil]

/-- Numbers in fixed notation are never empty. -/
theorem fixed_ne_nil (p : ℕ) (q : ℚ) : fixed p q ≠ [] := by
  simp [fixed, withPoint_decimal_ne_nil]

/-- Numbers in general notation are never empty. -/
theorem general_ne_nil (P : ℕ) (q : ℚ) : general P q ≠ [] := by
  have hat (m : ℕ) (x : ℤ) : generalAt P m x ≠ [] := by
    unfold generalAt
    split <;> simp [withPoint_decimal_ne_nil]
  unfold general
  split
  · simp
  · simp only [ne_eq, List.append_eq_nil_iff, not_and]
    intro _
    split <;> exact hat _ _

/-- Length of a number in fixed notation by the digits before its point. -/
theorem length_fixed_le {p k : ℕ} {q : ℚ} (h : |q| ≤ 10 ^ k) :
    (fixed p q).length ≤ p + k + 3 := by
  have hunits : units p q ≤ 10 ^ k * 10 ^ p := by
    have hle : |q| * 10 ^ p ≤ ((10 ^ k * 10 ^ p : ℤ) : ℚ) := by
      push_cast
      gcongr
    rw [units, Int.toNat_le]
    exact_mod_cast roundEven_le hle
  have hwhole : (decimal (units p q / 10 ^ p)).length ≤ k + 1 := by
    apply length_decimal_le (Nat.succ_pos k)
    calc units p q / 10 ^ p ≤ 10 ^ k := by
          apply Nat.div_le_of_le_mul
          rwa [mul_comm]
      _ < 10 ^ (k + 1) := Nat.pow_lt_pow_right (by norm_num) (Nat.lt_succ_self k)
  have hsign : (signText q).length ≤ 1 := by
    unfold signText
    split <;> simp
  unfold fixed withPoint
  split <;> simp <;> omega

/-! ### Integers -/

/-- `%d`. -/
def signedDecimal (n : ℤ) : Text := (if n < 0 then [45] else []) ++ decimal n.natAbs

/-- `strtol` reads the sign and the digits of a numeral back. -/
theorem strtol_signedDecimal {n : ℤ} (h : InInt32 n) : strtol (signedDecimal n) = n := by
  have hdigits : (decimal n.natAbs).takeWhile isDigit = decimal n.natAbs :=
    List.takeWhile_eq_self_iff.mpr (fun b hb ↦ isDigit_of_mem_decimal hb)
  have hsign : signAndRest (signedDecimal n) = (decide (n < 0), decimal n.natAbs) := by
    unfold signedDecimal
    by_cases hn : n < 0
    · simp [hn, signAndRest, sign, isSpace]
    · cases hd : decimal n.natAbs with
      | nil => exact absurd hd (decimal_ne_nil _)
      | cons b r =>
        have hb : isDigit b = true := isDigit_of_mem_decimal (hd ▸ List.mem_cons_self)
        rw [if_neg hn, List.nil_append, signAndRest_of_isDigit hb]
        simp [hn]
  unfold strtol
  rw [hsign]
  dsimp only
  rw [hdigits, digitsVal_decimal]
  unfold InInt32 at h
  by_cases hn : n < 0
  · rw [if_pos (decide_eq_true hn)]
    omega
  · rw [if_neg (by simpa using hn)]
    omega

/-- `atoi` reads an `int` back. -/
theorem atoi_signedDecimal {n : ℤ} (h : InInt32 n) : atoi (signedDecimal n) = n := by
  rw [atoi, strtol_signedDecimal h, int32_of_inInt32 h]

/-- An `int` has at most eleven characters. -/
theorem length_signedDecimal_le {n : ℤ} (h : InInt32 n) : (signedDecimal n).length ≤ 11 := by
  have hlen : (decimal n.natAbs).length ≤ 10 := by
    apply length_decimal_le (by norm_num)
    unfold InInt32 at h
    omega
  unfold signedDecimal
  split
  · rw [List.length_append, List.length_singleton]
    omega
  · rw [List.nil_append]
    omega

end NatcpSpec.Base
