import NatcpSpec.Base.Machine
import Mathlib.Data.List.TakeWhile
import Mathlib.Data.Nat.Digits.Lemmas

/-!
# Decimal numerals

Text is a list of bytes. Numerals are printed from `Nat.digits` and read back with the
value `Nat.ofDigits` gives them; the C conversions `strtol`, `atoi` and `strtoull` read
the numeral at the start of a string, after blanks and a sign.
-/

namespace NatcpSpec.Base

/-- The bytes of a file, or of a C string without its terminator. -/
abbrev Text := List UInt8

/-- The bytes of a text in a source. -/
def ascii (s : String) : Text := s.toUTF8.toList

/-- Bytes `0` to `9`. -/
def isDigit (b : UInt8) : Bool := 48 ≤ b && b ≤ 57

/-- Blanks of the C locale. -/
def isSpace (b : UInt8) : Bool := b == 32 || (9 ≤ b && b ≤ 13)

/-- The byte of a digit. -/
def digitByte (d : ℕ) : UInt8 := UInt8.ofNat (48 + d)

/-- The digit a byte stands for. -/
def digitVal (b : UInt8) : ℕ := b.toNat - 48

/-- Value of a string of digits, the most significant first. -/
def digitsVal (l : Text) : ℕ := Nat.ofDigits 10 (l.map digitVal).reverse

/-- The numeral of a number, as `%u` prints it. -/
def decimal (n : ℕ) : Text := if n = 0 then [48] else ((Nat.digits 10 n).map digitByte).reverse

/-! ### Values of digit strings -/

/-- The byte of a digit is a digit byte. -/
theorem isDigit_digitByte {d : ℕ} (h : d < 10) : isDigit (digitByte d) = true := by
  interval_cases d <;> rfl

/-- A digit is read back from its byte. -/
theorem digitVal_digitByte {d : ℕ} (h : d < 10) : digitVal (digitByte d) = d := by
  interval_cases d <;> rfl

/-- The empty string has value zero. -/
@[simp]
theorem digitsVal_nil : digitsVal [] = 0 := rfl

/-- Appending digits shifts the value of those before them. -/
theorem digitsVal_append (l r : Text) :
    digitsVal (l ++ r) = digitsVal l * 10 ^ r.length + digitsVal r := by
  simp only [digitsVal, List.map_append, List.reverse_append, Nat.ofDigits_append,
    List.length_reverse, List.length_map]
  ring

/-- A numeral has the value it was printed from. -/
@[simp]
theorem digitsVal_decimal (n : ℕ) : digitsVal (decimal n) = n := by
  unfold decimal
  split
  · next h => rw [h]; rfl
  · have hmap : ((Nat.digits 10 n).map digitByte).map digitVal = Nat.digits 10 n := by
      rw [List.map_map, List.map_congr_left (g := id) ?_, List.map_id]
      intro d hd
      exact digitVal_digitByte (Nat.digits_lt_base (by norm_num) hd)
    rw [digitsVal, List.map_reverse, List.reverse_reverse, hmap, Nat.ofDigits_digits]

/-- Numerals are made of digits. -/
theorem isDigit_of_mem_decimal {n : ℕ} {b : UInt8} (h : b ∈ decimal n) : isDigit b = true := by
  unfold decimal at h
  split at h
  · rw [List.mem_singleton.mp h]
    rfl
  · rw [List.mem_reverse, List.mem_map] at h
    rcases h with ⟨d, hd, rfl⟩
    exact isDigit_digitByte (Nat.digits_lt_base (by norm_num) hd)

/-- No numeral is empty. -/
theorem decimal_ne_nil (n : ℕ) : decimal n ≠ [] := by
  unfold decimal
  split
  · simp
  · next h => simpa [Nat.digits_eq_nil_iff_eq_zero] using h

/-- A number below a power of ten has at most as many digits. -/
theorem length_decimal_le {n k : ℕ} (hk : 0 < k) (h : n < 10 ^ k) : (decimal n).length ≤ k := by
  unfold decimal
  split
  · exact hk
  · rw [List.length_reverse, List.length_map]
    exact (Nat.digits_length_le_iff (by norm_num) n).mpr h

private theorem digitVal_head_decimal {n : ℕ} (hn : n ≠ 0) :
    digitVal ((decimal n).head (decimal_ne_nil n)) ≠ 0 := by
  have hdig : Nat.digits 10 n ≠ [] := Nat.digits_ne_nil_iff_ne_zero.mpr hn
  have hlt := Nat.digits_lt_base (b := 10) (by norm_num) (List.getLast_mem hdig)
  simp only [decimal, hn, ↓reduceIte, List.head_reverse, List.getLast_map]
  rw [digitVal_digitByte hlt]
  exact Nat.getLast_digit_ne_zero 10 hn

/-- A numeral cut short, but not to nothing, has a smaller value. -/
theorem digitsVal_take_decimal_lt {n j : ℕ} (h0 : 0 < j) (hj : j < (decimal n).length) :
    digitsVal ((decimal n).take j) < n := by
  have hn : n ≠ 0 := by
    intro h
    rw [h, show decimal 0 = [48] from rfl, List.length_singleton] at hj
    omega
  -- The cut keeps the first digit, which is not zero, and loses at least one other.
  have hpos : 0 < digitsVal ((decimal n).take j) := by
    rw [← List.cons_head_tail (decimal_ne_nil n), show j = (j - 1) + 1 by omega,
      List.take_succ_cons, ← List.singleton_append, digitsVal_append]
    have hhead : digitsVal [(decimal n).head (decimal_ne_nil n)] =
        digitVal ((decimal n).head (decimal_ne_nil n)) := by simp [digitsVal]
    rw [hhead]
    have := Nat.pos_of_ne_zero (digitVal_head_decimal hn)
    positivity
  have hpow : 10 ^ 1 ≤ 10 ^ ((decimal n).drop j).length :=
    Nat.pow_le_pow_right (by norm_num) (by rw [List.length_drop]; omega)
  calc digitsVal ((decimal n).take j)
      < digitsVal ((decimal n).take j) * 10 ^ ((decimal n).drop j).length := by nlinarith
    _ ≤ digitsVal ((decimal n).take j ++ (decimal n).drop j) := by
        rw [digitsVal_append]
        exact Nat.le_add_right _ _
    _ = n := by rw [List.take_append_drop, digitsVal_decimal]

/-! ### Conversions of the C library -/

/-- A sign at the start of a numeral: whether it is negative, and the rest. -/
def sign : Text → Bool × Text
  | [] => (false, [])
  | b :: r => if b = 45 then (true, r) else if b = 43 then (false, r) else (false, b :: r)

/-- Blanks and a sign at the start of a numeral. -/
def signAndRest (s : Text) : Bool × Text := sign (s.dropWhile isSpace)

/-- `strtol` in base ten on a 64-bit `long`; out of range it saturates. -/
def strtol (s : Text) : ℤ :=
  let v : ℤ := digitsVal ((signAndRest s).2.takeWhile isDigit)
  max (-2 ^ 63) (min (2 ^ 63 - 1) (if (signAndRest s).1 then -v else v))

/-- `atoi`, the `int` that a `strtol` result is converted to. -/
def atoi (s : Text) : ℤ := int32 (strtol s)

/-- `strtoull` in base ten; out of range it saturates, and a sign negates in 64 bits. -/
def strtoull (s : Text) : ℕ :=
  let v := digitsVal ((signAndRest s).2.takeWhile isDigit)
  if 2 ^ 64 ≤ v then 2 ^ 64 - 1 else if (signAndRest s).1 then (2 ^ 64 - v) % 2 ^ 64 else v

/-- Digits are neither blanks nor signs. -/
theorem not_blank_or_sign_of_isDigit {b : UInt8} (h : isDigit b = true) :
    isSpace b = false ∧ b ≠ 45 ∧ b ≠ 43 := by
  simp only [isDigit, Bool.and_eq_true, decide_eq_true_eq] at h
  simp only [isSpace]
  grind

/-- A numeral that starts with a digit has no sign. -/
theorem signAndRest_of_isDigit {b : UInt8} {r : Text} (h : isDigit b = true) :
    signAndRest (b :: r) = (false, b :: r) := by
  have hb := not_blank_or_sign_of_isDigit h
  simp [signAndRest, sign, hb]

/-- `strtoull` on a string of digits within its range. -/
theorem strtoull_of_digits {l : Text} (h : ∀ b ∈ l, isDigit b = true)
    (hl : digitsVal l < 2 ^ 64) : strtoull l = digitsVal l := by
  cases l with
  | nil => rfl
  | cons b r =>
    unfold strtoull
    rw [signAndRest_of_isDigit (h b List.mem_cons_self), List.takeWhile_eq_self_iff.mpr h]
    simp only [Nat.not_le.mpr hl, ↓reduceIte, Bool.false_eq_true]

/-- `strtoull` reads a numeral back. -/
theorem strtoull_decimal {n : ℕ} (hn : n < 2 ^ 64) : strtoull (decimal n) = n := by
  rw [strtoull_of_digits (fun b hb ↦ isDigit_of_mem_decimal hb), digitsVal_decimal]
  rwa [digitsVal_decimal]

/-- A numeral cut short, but not to nothing, is read back only if nothing was cut. -/
theorem strtoull_take_decimal {n j : ℕ} (hn : n < 2 ^ 64) (h0 : 0 < j) :
    strtoull ((decimal n).take j) = n ↔ (decimal n).length ≤ j := by
  constructor
  · intro h
    by_contra hj
    have hlt := digitsVal_take_decimal_lt h0 (Nat.lt_of_not_le hj)
    rw [strtoull_of_digits (fun b hb ↦ isDigit_of_mem_decimal (List.mem_of_mem_take hb))
      (by omega)] at h
    omega
  · intro hj
    rw [List.take_of_length_le hj, strtoull_decimal hn]

end NatcpSpec.Base
