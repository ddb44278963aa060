import NatcpSpec.Base.Printf

/-!
# Reading numbers and lines

Decimal numerals at the start of a text, the lines that repeated calls of `fgets` return and the
records of a text. A printed number is read back as the decimal it was rounded to.
-/

namespace NatcpSpec.Base

/-! ### Numbers -/

/-- Value of digits before and behind a point. -/
def pointVal (whole frac : Text) : ℚ := digitsVal (whole ++ frac) / 10 ^ frac.length

/-- Digits with an optional point among them: their value, and the rest. -/
def scanMantissa (s : Text) : Option (ℚ × Text) :=
  let whole := s.takeWhile isDigit
  let rest := s.dropWhile isDigit
  let frac := if rest.head? = some 46 then rest.tail.takeWhile isDigit else []
  if whole = [] ∧ frac = [] then none
  else some (pointVal whole frac,
    if rest.head? = some 46 then rest.tail.dropWhile isDigit else rest)

/-- An exponent, or none: its value, and the rest. -/
def scanExponent (s : Text) : ℤ × Text :=
  let digits := (sign s.tail).2.takeWhile isDigit
  if (s.head? = some 101 ∨ s.head? = some 69) ∧ digits ≠ [] then
    (if (sign s.tail).1 then -digitsVal digits else digitsVal digits,
      (sign s.tail).2.dropWhile isDigit)
  else (0, s)

/-- The number at the start of a text, after blanks, and the rest; none if there is no number. -/
def scanNumber (s : Text) : Option (ℚ × Text) :=
  (scanMantissa (signAndRest s).2).map (fun m ↦
    ((if (signAndRest s).1 then -m.1 else m.1) * 10 ^ (scanExponent m.2).1,
      (scanExponent m.2).2))

/-- The text is over or goes on with a blank. -/
def Stops (r : Text) : Prop := ∀ b, r.head? = some b → isSpace b = true

section Numbers

variable {l r whole frac : Text}

/-- The end of a text stops a number. -/
@[simp]
theorem stops_nil : Stops [] := by simp [Stops]

/-- A blank stops a number. -/
@[simp]
theorem stops_cons {b : UInt8} : Stops (b :: r) ↔ isSpace b = true := by simp [Stops]

/-- A blank before a number is skipped. -/
theorem signAndRest_cons {b : UInt8} (hb : isSpace b = true) :
    signAndRest (b :: r) = signAndRest r := by
  rw [signAndRest, signAndRest, List.dropWhile_cons_of_pos hb]

/-- Padding before a number is skipped. -/
theorem signAndRest_leftPad (w : ℕ) (t r : Text) :
    signAndRest (leftPad w t ++ r) = signAndRest (t ++ r) := by
  rw [leftPad, List.append_assoc]
  induction w - t.length with
  | zero => rfl
  | succ n ih =>
    rw [List.replicate_succ, List.cons_append, signAndRest_cons (by rfl), ih]

private theorem takeWhile_digits (hl : ∀ b ∈ l, isDigit b = true)
    (hr : ∀ b, r.head? = some b → isDigit b = false) :
    (l ++ r).takeWhile isDigit = l ∧ (l ++ r).dropWhile isDigit = r := by
  rw [List.takeWhile_append_of_pos hl, List.dropWhile_append_of_pos hl]
  cases r with
  | nil => simp
  | cons b r => simp [hr b rfl]

private theorem not_digit_of_stops (hr : Stops r) {b : UInt8} (hb : r.head? = some b) :
    isDigit b = false ∧ b ≠ 46 ∧ b ≠ 101 ∧ b ≠ 69 := by
  have h := hr b hb
  simp only [isSpace, isDigit] at *
  grind

/-- Digits around a point are read to the blank behind them. -/
theorem scanMantissa_withPoint (hne : whole ≠ []) (hw : ∀ b ∈ whole, isDigit b = true)
    (hf : ∀ b ∈ frac, isDigit b = true) (hr : Stops r) :
    scanMantissa (withPoint whole frac ++ r) = some (pointVal whole frac, r) := by
  have hstop := takeWhile_digits hf (fun b hb ↦ (not_digit_of_stops hr hb).1)
  unfold scanMantissa withPoint
  split
  · next hfrac =>
    have hwhole := takeWhile_digits hw (fun b hb ↦ (not_digit_of_stops hr hb).1)
    have hpoint : r.head? ≠ some 46 := fun h ↦ (not_digit_of_stops hr h).2.1 rfl
    simp [hwhole, hpoint, hne, hfrac]
  · next hfrac =>
    have hwhole := takeWhile_digits (r := 46 :: (frac ++ r)) hw (by
      intro b hb
      rw [List.head?_cons, Option.some.injEq] at hb
      rw [← hb]
      rfl)
    rw [List.append_assoc, List.cons_append, hwhole.1, hwhole.2]
    simp [hstop, hne]

/-- A number that stops has no exponent. -/
theorem scanExponent_of_stops (hr : Stops r) : scanExponent r = (0, r) := by
  have h101 : r.head? ≠ some 101 := fun h ↦ (not_digit_of_stops hr h).2.2.1 rfl
  have h69 : r.head? ≠ some 69 := fun h ↦ (not_digit_of_stops hr h).2.2.2 rfl
  simp [scanExponent, h101, h69]

/-- The sign of a printed number. -/
theorem signAndRest_withPoint (q : ℚ) (hne : whole ≠ []) (hw : ∀ b ∈ whole, isDigit b = true) :
    signAndRest (signText q ++ withPoint whole frac ++ r) =
      (decide (q < 0), withPoint whole frac ++ r) := by
  obtain ⟨b, w, rfl⟩ := List.exists_cons_of_ne_nil hne
  have hb := hw b List.mem_cons_self
  have hstart : ∃ t, withPoint (b :: w) frac ++ r = b :: t := by
    unfold withPoint
    split <;> exact ⟨_, rfl⟩
  obtain ⟨t, ht⟩ := hstart
  rw [List.append_assoc, ht]
  unfold signText
  split
  · next hq => simp [signAndRest, sign, hq, isSpace]
  · next hq =>
    rw [List.nil_append, signAndRest_of_isDigit hb]
    simp [hq]

/-- A number printed with a sign and digits around a point is read back. -/
theorem scanNumber_withPoint (q : ℚ) (hne : whole ≠ []) (hw : ∀ b ∈ whole, isDigit b = true)
    (hf : ∀ b ∈ frac, isDigit b = true) (hr : Stops r) :
    scanNumber (signText q ++ withPoint whole frac ++ r) =
      some (if q < 0 then -pointVal whole frac else pointVal whole frac, r) := by
  rw [scanNumber, signAndRest_withPoint q hne hw, scanMantissa_withPoint hne hw hf hr,
    Option.map_some, scanExponent_of_stops hr]
  simp

end Numbers

/-! ### Printed numbers -/

/-- The decimal of `p` places that a number is rounded to. -/
def rounded (p : ℕ) (q : ℚ) : ℚ := if q < 0 then -(units p q / 10 ^ p) else units p q / 10 ^ p

/-- Digits of a number of units before and behind the point. -/
theorem pointVal_units (p m : ℕ) :
    pointVal (decimal (m / 10 ^ p)) (fixedDigits p m) = m / 10 ^ p := by
  rw [pointVal, digitsVal_append, digitsVal_decimal, digitsVal_fixedDigits, length_fixedDigits,
    mul_comm, Nat.div_add_mod]

/-- A number printed with `%.pf` is read back as rounded. -/
theorem scanNumber_fixed (p : ℕ) (q : ℚ) {r : Text} (hr : Stops r) :
    scanNumber (fixed p q ++ r) = some (rounded p q, r) := by
  rw [fixed, scanNumber_withPoint q (decimal_ne_nil _) (fun b hb ↦ isDigit_of_mem_decimal hb)
    (fun b hb ↦ isDigit_of_mem_fixedDigits hb) hr, pointVal_units]
  rfl

/-- A number of `p` decimal places is not rounded. -/
theorem rounded_of_int {p : ℕ} {q : ℚ} {n : ℤ} (h : q * 10 ^ p = n) : rounded p q = q := by
  have hpow : (0 : ℚ) < 10 ^ p := by positivity
  have habs : |q| * 10 ^ p = (|n| : ℤ) := by
    rw [← abs_of_pos hpow, ← abs_mul, h, Int.cast_abs]
  have hunits : (units p q : ℚ) = |q| * 10 ^ p := by
    rw [units, habs, roundEven_intCast]
    exact_mod_cast Int.toNat_of_nonneg (abs_nonneg n)
  unfold rounded
  rw [hunits, mul_div_assoc, div_self hpow.ne', mul_one]
  split
  · next hq => rw [abs_of_neg hq, neg_neg]
  · next hq => rw [abs_of_nonneg (not_lt.mp hq)]

/-- Without decimal places a number that is not negative is read back as an integer. -/
theorem rounded_zero {q : ℚ} (h : 0 ≤ q) : rounded 0 q = roundEven q := by
  rw [rounded, if_neg (not_lt.mpr h), units, abs_of_nonneg h, pow_zero, mul_one, div_one]
  exact_mod_cast Int.toNat_of_nonneg (roundEven_nonneg h)

/-- The number that is written with `P` significant digits. -/
def roundedTo (P : ℕ) (q : ℚ) : ℚ :=
  let x := Int.log 10 |q|
  (if q < 0 then -(significant P q x : ℚ) else significant P q x) * 10 ^ (x - (P - 1))

/-- Significant digits stay within a bound by a power of ten of at most their number. -/
theorem roundedTo_bounds {P k : ℕ} {q : ℚ} (h0 : 0 ≤ q) (hk : q < 10 ^ k) (hP : k ≤ P) :
    0 ≤ roundedTo P q ∧ roundedTo P q ≤ 10 ^ k := by
  rcases h0.eq_or_lt with rfl | hpos
  · simp [roundedTo, significant]
  have hlog : Int.log 10 q < k := by
    rw [← Int.lt_zpow_iff_log_lt (by norm_num) hpos]
    exact_mod_cast hk
  have hround : roundEven (q * 10 ^ ((P : ℤ) - 1 - Int.log 10 q)) ≤
      10 ^ (k + (P - 1 - Int.log 10 q)).toNat := by
    apply roundEven_le
    push_cast
    rw [← zpow_natCast, Int.toNat_of_nonneg (by omega), zpow_add₀ (by norm_num), zpow_natCast]
    gcongr
  have hm : ((significant P q (Int.log 10 q) : ℕ) : ℚ) ≤
      10 ^ ((k : ℤ) + (P - 1 - Int.log 10 q)) := by
    have hle : (significant P q (Int.log 10 q) : ℤ) ≤
        10 ^ (k + (P - 1 - Int.log 10 q)).toNat := by
      unfold significant
      rw [abs_of_pos hpos]
      have : (0 : ℤ) ≤ 10 ^ (k + (P - 1 - Int.log 10 q)).toNat := by positivity
      omega
    have hcast : ((significant P q (Int.log 10 q) : ℕ) : ℚ) ≤
        10 ^ (k + (P - 1 - Int.log 10 q)).toNat := by exact_mod_cast hle
    rwa [← zpow_natCast, Int.toNat_of_nonneg (by omega)] at hcast
  simp only [roundedTo, abs_of_pos hpos, if_neg (not_lt.mpr h0)]
  refine ⟨by positivity, ?_⟩
  calc ((significant P q (Int.log 10 q) : ℕ) : ℚ) * 10 ^ (Int.log 10 q - ((P : ℤ) - 1))
      ≤ 10 ^ ((k : ℤ) + (P - 1 - Int.log 10 q)) * 10 ^ (Int.log 10 q - ((P : ℤ) - 1)) := by
        gcongr
    _ = 10 ^ k := by
        rw [← zpow_add₀ (by norm_num), ← zpow_natCast]
        congr 1
        ring

/-- Zeros at the end of a fraction have no value. -/
theorem pointVal_rdropWhile (whole frac : Text) :
    pointVal whole (frac.rdropWhile (· == 48)) = pointVal whole frac := by
  induction frac using List.reverseRecOn with
  | nil => rfl
  | append_singleton l b ih =>
    rw [List.rdropWhile_concat]
    split
    · next hb =>
      have hzero : digitsVal (whole ++ (l ++ [48])) = digitsVal (whole ++ l) * 10 := by
        rw [← List.append_assoc, digitsVal_append]
        rfl
      rw [ih, eq_of_beq hb, pointVal, pointVal, hzero, List.length_append,
        List.length_singleton, pow_succ]
      push_cast
      rw [mul_div_mul_right _ _ (by norm_num)]
    · rfl

/-- Fixed notation with as many significant digits as a number has is read back exactly. -/
theorem scanNumber_general {P m : ℕ} {q : ℚ} (hq : 0 < q) (hlow : -4 ≤ Int.log 10 q)
    (hhigh : Int.log 10 q < P) (hm : q * 10 ^ (P - 1 - Int.log 10 q) = m) {r : Text}
    (hr : Stops r) : scanNumber (general P q ++ r) = some (q, r) := by
  have hsig : significant P q (Int.log 10 q) = m := by
    rw [significant, abs_of_pos hq, hm]
    exact_mod_cast congrArg Int.toNat (roundEven_intCast m)
  have hlt : m ≠ 10 ^ P := by
    have hup := Int.lt_zpow_succ_log_self (b := 10) (by norm_num) q
    have hpow : (0 : ℚ) < 10 ^ (P - 1 - Int.log 10 q) := by positivity
    have : (m : ℚ) < 10 ^ P := by
      rw [← hm]
      calc q * 10 ^ (P - 1 - Int.log 10 q)
          < 10 ^ (Int.log 10 q + 1) * 10 ^ (P - 1 - Int.log 10 q) := by
            exact mul_lt_mul_of_pos_right (by exact_mod_cast hup) hpow
        _ = 10 ^ P := by
            rw [← zpow_add₀ (by norm_num), ← zpow_natCast]
            congr 1
            ring
    exact_mod_cast this.ne
  have hval : pointVal (decimal (m / 10 ^ (P - 1 - Int.log 10 q).toNat))
      (fixedDigits (P - 1 - Int.log 10 q).toNat m) = q := by
    rw [pointVal_units, ← hm, ← zpow_natCast, Int.toNat_of_nonneg (by omega)]
    field_simp
  unfold general
  rw [if_neg hq.ne', abs_of_pos hq]
  simp only [hsig, hlt, ↓reduceIte, generalAt, hlow, hhigh, and_self]
  rw [scanNumber_withPoint q (decimal_ne_nil _) (fun b hb ↦ isDigit_of_mem_decimal hb) ?_ hr,
    pointVal_rdropWhile, hval, if_neg (not_lt.mpr hq.le)]
  intro b hb
  exact isDigit_of_mem_fixedDigits ((List.rdropWhile_prefix _ _).subset hb)

/-! ### Lines -/

/-- Records of a text, ended by line ends or by the end of the text. -/
def records : Text → List Text
  | [] => []
  | b :: r =>
    if b = 10 then [] :: records r
    else
      match records r with
      | [] => [[b]]
      | l :: ls => (b :: l) :: ls

/-- The lines that calls of `fgets` with a buffer of `n` bytes return until the end of the
file, with `k` bytes of the current line already read. -/
def fgetsLines (n : ℕ) : ℕ → Text → List Text
  | _, [] => []
  | k, b :: r =>
    if b = 10 ∨ k + 2 = n then [b] :: fgetsLines n 0 r
    else
      match fgetsLines n (k + 1) r with
      | [] => [[b]]
      | l :: ls => (b :: l) :: ls

/-- A line is the first record. -/
theorem records_append_cons {l : Text} (hl : 10 ∉ l) (r : Text) :
    records (l ++ 10 :: r) = l :: records r := by
  induction l with
  | nil => simp [records]
  | cons b l ih =>
    rw [List.mem_cons, not_or] at hl
    rw [List.cons_append, records, if_neg (Ne.symm hl.1), ih hl.2]

/-- A line that fits the buffer is returned whole. -/
theorem fgetsLines_append_cons {n k : ℕ} {l : Text} (hl : 10 ∉ l) (hn : k + l.length + 2 ≤ n)
    (r : Text) : fgetsLines n k (l ++ 10 :: r) = (l ++ [10]) :: fgetsLines n 0 r := by
  induction l generalizing k with
  | nil => simp [fgetsLines]
  | cons b l ih =>
    rw [List.mem_cons, not_or] at hl
    rw [List.length_cons] at hn
    rw [List.cons_append, fgetsLines, if_neg (not_or.mpr ⟨Ne.symm hl.1, by omega⟩),
      ih hl.2 (by omega)]
    rfl

end NatcpSpec.Base
