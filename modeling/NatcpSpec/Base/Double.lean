import NatcpSpec.Base.Printf

/-!
# Double arithmetic

Rounding of an exact result to a double of 53 significant bits, ties to even. It is meant
for results that are zero or in the normal range; overflow to infinity and the loss of bits
below the normal range are left out.
-/

namespace NatcpSpec.Base

/-- The nearest double, ties to even. -/
def roundDouble (q : ℚ) : ℚ :=
  let e := Int.log 2 |q| - 52
  roundEven (q / 2 ^ e) * 2 ^ e

/-! ### Rounding to an integer -/

/-- Rounding goes to one of the two neighbours. -/
theorem floor_le_roundEven (q : ℚ) : ⌊q⌋ ≤ roundEven q ∧ roundEven q ≤ ⌊q⌋ + 1 := by
  unfold roundEven
  split_ifs <;> omega

/-- A value closer than one half to an integer is rounded to it. -/
theorem roundEven_eq_of_abs_lt {q : ℚ} {n : ℤ} (h : |q - n| < 1 / 2) : roundEven q = n := by
  have hr := abs_roundEven_sub_le q
  rw [abs_lt] at h
  rw [abs_le] at hr
  have hlo : (-1 : ℚ) < (roundEven q : ℚ) - n := by linarith
  have hhi : (roundEven q : ℚ) - n < 1 := by linarith
  have hlo' : -1 < roundEven q - n := by exact_mod_cast hlo
  have hhi' : roundEven q - n < 1 := by exact_mod_cast hhi
  omega

/-- Half below an even integer is rounded up to it. -/
theorem roundEven_half_below {n : ℤ} (h : n % 2 = 0) : roundEven (n - 1 / 2) = n := by
  have hf : ⌊(n : ℚ) - 1 / 2⌋ = n - 1 := by
    rw [Int.floor_eq_iff]
    push_cast
    constructor <;> linarith
  have hd : (n : ℚ) - 1 / 2 - ((n - 1 : ℤ) : ℚ) = 1 / 2 := by
    push_cast
    ring
  unfold roundEven
  rw [hf, hd, if_neg (lt_irrefl _), if_neg (lt_irrefl _), if_neg (by omega)]
  omega

/-- Rounding keeps order. -/
theorem roundEven_mono {x y : ℚ} (h : x ≤ y) : roundEven x ≤ roundEven y := by
  rcases (Int.floor_le_floor h).lt_or_eq with hlt | heq
  · have hx := (floor_le_roundEven x).2
    have hy := (floor_le_roundEven y).1
    omega
  · unfold roundEven
    rw [heq]
    split_ifs <;> first | omega | (exfalso; linarith)

/-- Rounding is symmetric. -/
theorem roundEven_neg (q : ℚ) : roundEven (-q) = -roundEven q := by
  rcases eq_or_ne (⌊q⌋ : ℚ) q with h | h
  · rw [← h, ← Int.cast_neg, roundEven_intCast, roundEven_intCast]
  -- The fraction of the negation is what is missing to the next integer.
  have hlt : (⌊q⌋ : ℚ) < q := lt_of_le_of_ne (Int.floor_le q) h
  have hf : ⌊-q⌋ = -⌊q⌋ - 1 := by
    have hup := Int.lt_floor_add_one q
    rw [Int.floor_eq_iff]
    push_cast
    constructor <;> linarith
  have hd : -q - ((-⌊q⌋ - 1 : ℤ) : ℚ) = 1 - (q - ⌊q⌋) := by
    push_cast
    ring
  unfold roundEven
  rw [hf, hd]
  split_ifs <;> first | omega | (exfalso; linarith)

/-! ### Rounding to a double -/

section Double

variable {x y : ℚ} {e : ℤ}

/-- Rounding with the exponent given by the two powers around the value. -/
theorem roundDouble_eq (hlo : 2 ^ e ≤ x) (hhi : x < 2 ^ (e + 1)) :
    roundDouble x = roundEven (x / 2 ^ (e - 52)) * 2 ^ (e - 52) := by
  have hpos : 0 < x := lt_of_lt_of_le (by positivity) hlo
  have hlog : Int.log 2 |x| = e := by
    rw [abs_of_pos hpos]
    apply le_antisymm
    · rw [← Int.lt_add_one_iff, ← Int.lt_zpow_iff_log_lt one_lt_two hpos]
      exact_mod_cast hhi
    · rw [← Int.zpow_le_iff_le_log one_lt_two hpos]
      exact_mod_cast hlo
  unfold roundDouble
  rw [hlog]

/-- Every positive value lies between two powers. -/
theorem exists_exponent (h : 0 < x) : ∃ e : ℤ, 2 ^ e ≤ x ∧ x < 2 ^ (e + 1) := by
  refine ⟨Int.log 2 x, ?_, ?_⟩
  · exact_mod_cast Int.zpow_log_le_self one_lt_two h
  · exact_mod_cast Int.lt_zpow_succ_log_self one_lt_two x

/-- Zero is a double. -/
@[simp]
theorem roundDouble_zero : roundDouble 0 = 0 := by
  simp [roundDouble]

private theorem zpow_eq_mul_ulp (e : ℤ) : (2 : ℚ) ^ e = 2 ^ 52 * 2 ^ (e - 52) := by
  rw [← zpow_natCast, ← zpow_add₀ two_ne_zero]
  congr 1
  push_cast
  ring

private theorem zpow_succ_eq_mul_ulp (e : ℤ) : (2 : ℚ) ^ (e + 1) = 2 ^ 53 * 2 ^ (e - 52) := by
  rw [zpow_add_one₀ two_ne_zero, zpow_eq_mul_ulp]
  ring

private theorem div_zpow_bounds (hlo : 2 ^ e ≤ x) (hhi : x < 2 ^ (e + 1)) :
    2 ^ 52 ≤ x / 2 ^ (e - 52) ∧ x / 2 ^ (e - 52) < 2 ^ 53 := by
  have hu : (0 : ℚ) < 2 ^ (e - 52) := by positivity
  rw [le_div_iff₀ hu, div_lt_iff₀ hu, ← zpow_eq_mul_ulp, ← zpow_succ_eq_mul_ulp]
  exact ⟨hlo, hhi⟩

/-- Rounding stays between the powers around the value. -/
theorem roundDouble_bounds (hlo : 2 ^ e ≤ x) (hhi : x < 2 ^ (e + 1)) :
    2 ^ e ≤ roundDouble x ∧ roundDouble x ≤ 2 ^ (e + 1) := by
  have hu : (0 : ℚ) < 2 ^ (e - 52) := by positivity
  obtain ⟨hl, hh⟩ := div_zpow_bounds hlo hhi
  have hl' : 2 ^ 52 ≤ roundEven (x / 2 ^ (e - 52)) := by
    have h := roundEven_mono (show ((2 ^ 52 : ℤ) : ℚ) ≤ x / 2 ^ (e - 52) by exact_mod_cast hl)
    rwa [roundEven_intCast] at h
  have hh' : roundEven (x / 2 ^ (e - 52)) ≤ 2 ^ 53 := by
    apply roundEven_le
    exact_mod_cast hh.le
  rw [roundDouble_eq hlo hhi, zpow_succ_eq_mul_ulp]
  nth_rewrite 1 [zpow_eq_mul_ulp]
  constructor
  · exact mul_le_mul_of_nonneg_right (by exact_mod_cast hl') hu.le
  · exact mul_le_mul_of_nonneg_right (by exact_mod_cast hh') hu.le

/-- Rounding leaves what is positive positive. -/
theorem roundDouble_pos (h : 0 < x) : 0 < roundDouble x := by
  obtain ⟨e, hlo, hhi⟩ := exists_exponent h
  exact lt_of_lt_of_le (by positivity) (roundDouble_bounds hlo hhi).1

/-- Rounding keeps the sign of what is not negative. -/
theorem roundDouble_nonneg (h : 0 ≤ x) : 0 ≤ roundDouble x := by
  rcases h.eq_or_lt with rfl | hpos
  · simp
  · exact (roundDouble_pos hpos).le

/-- Rounding is symmetric. -/
@[simp]
theorem roundDouble_neg (x : ℚ) : roundDouble (-x) = -roundDouble x := by
  simp only [roundDouble]
  rw [abs_neg, neg_div, roundEven_neg, Int.cast_neg, neg_mul]

/-- Only zero is rounded to zero. -/
theorem roundDouble_eq_zero_iff : roundDouble x = 0 ↔ x = 0 := by
  constructor
  · intro h
    rcases lt_trichotomy x 0 with hneg | hzero | hpos
    · have hlt := roundDouble_pos (neg_pos.mpr hneg)
      rw [roundDouble_neg, h, neg_zero] at hlt
      exact absurd hlt (lt_irrefl 0)
    · exact hzero
    · exact absurd h (roundDouble_pos hpos).ne'
  · rintro rfl
    exact roundDouble_zero

private theorem roundDouble_mono_of_nonneg (hx : 0 ≤ x) (h : x ≤ y) :
    roundDouble x ≤ roundDouble y := by
  rcases hx.eq_or_lt with rfl | hpos
  · rw [roundDouble_zero]
    exact roundDouble_nonneg h
  obtain ⟨e, hlo, hhi⟩ := exists_exponent hpos
  obtain ⟨f, hlo', hhi'⟩ := exists_exponent (hpos.trans_le h)
  have hef : e < f + 1 := by
    have hlt : (2 : ℚ) ^ e < 2 ^ (f + 1) := by linarith
    exact (zpow_lt_zpow_iff_right₀ one_lt_two).mp hlt
  rcases (Int.lt_add_one_iff.mp hef).eq_or_lt with rfl | hlt
  · rw [roundDouble_eq hlo hhi, roundDouble_eq hlo' hhi']
    have hu : (0 : ℚ) < 2 ^ (e - 52) := by positivity
    apply mul_le_mul_of_nonneg_right _ hu.le
    exact_mod_cast roundEven_mono (div_le_div_of_nonneg_right h hu.le)
  · calc roundDouble x ≤ 2 ^ (e + 1) := (roundDouble_bounds hlo hhi).2
      _ ≤ 2 ^ f := zpow_le_zpow_right₀ one_le_two (by omega)
      _ ≤ roundDouble y := (roundDouble_bounds hlo' hhi').1

/-- Rounding keeps order. -/
theorem roundDouble_mono (h : x ≤ y) : roundDouble x ≤ roundDouble y := by
  rcases le_total 0 x with hx | hx
  · exact roundDouble_mono_of_nonneg hx h
  rcases le_total 0 y with hy | hy
  · have hneg := roundDouble_nonneg (neg_nonneg.mpr hx)
    rw [roundDouble_neg] at hneg
    exact (neg_nonneg.mp hneg).trans (roundDouble_nonneg hy)
  · have hneg := roundDouble_mono_of_nonneg (neg_nonneg.mpr hy) (neg_le_neg h)
    rwa [roundDouble_neg, roundDouble_neg, neg_le_neg_iff] at hneg

private theorem abs_roundDouble_sub_le_of_nonneg (h : 0 ≤ x) :
    |roundDouble x - x| ≤ x / 2 ^ 53 := by
  rcases h.eq_or_lt with rfl | hpos
  · simp
  obtain ⟨e, hlo, hhi⟩ := exists_exponent hpos
  have hu : (0 : ℚ) < 2 ^ (e - 52) := by positivity
  have hx : x = x / 2 ^ (e - 52) * 2 ^ (e - 52) := by field_simp
  have hl := (div_zpow_bounds hlo hhi).1
  calc |roundDouble x - x|
      = |(roundEven (x / 2 ^ (e - 52)) : ℚ) - x / 2 ^ (e - 52)| * 2 ^ (e - 52) := by
        rw [roundDouble_eq hlo hhi, ← abs_of_pos hu, ← abs_mul, abs_of_pos hu, sub_mul, ← hx]
    _ ≤ 1 / 2 * 2 ^ (e - 52) :=
        mul_le_mul_of_nonneg_right (abs_roundEven_sub_le _) hu.le
    _ ≤ x / 2 ^ (e - 52) / 2 ^ 53 * 2 ^ (e - 52) := by
        apply mul_le_mul_of_nonneg_right _ hu.le
        rw [le_div_iff₀ (by positivity)]
        linarith
    _ = x / 2 ^ 53 := by
        rw [div_mul_eq_mul_div, ← hx]

/-- Rounding moves by at most the share `2 ^ -53` of the value. -/
theorem abs_roundDouble_sub_le (x : ℚ) : |roundDouble x - x| ≤ |x| / 2 ^ 53 := by
  rcases le_total 0 x with h | h
  · rw [abs_of_nonneg h]
    exact abs_roundDouble_sub_le_of_nonneg h
  · have hneg := abs_roundDouble_sub_le_of_nonneg (neg_nonneg.mpr h)
    rwa [roundDouble_neg, ← neg_sub', abs_neg, ← abs_of_nonpos h] at hneg

/-- A multiple of a power of two by less than `2 ^ 53` is a double. -/
theorem roundDouble_natCast_mul_zpow {m : ℕ} (hm : m < 2 ^ 53) (t : ℤ) :
    roundDouble (m * 2 ^ t) = m * 2 ^ t := by
  rcases Nat.eq_zero_or_pos m with rfl | hpos
  · simp
  obtain ⟨e, hlo, hhi⟩ := exists_exponent (show (0 : ℚ) < m by exact_mod_cast hpos)
  have he : e < 53 := by
    have hlt : (2 : ℚ) ^ e < 2 ^ (53 : ℤ) := lt_of_le_of_lt hlo (by exact_mod_cast hm)
    exact (zpow_lt_zpow_iff_right₀ one_lt_two).mp hlt
  obtain ⟨d, hd⟩ : ∃ d : ℕ, e = 52 - (d : ℤ) := ⟨(52 - e).toNat, by omega⟩
  have ht : (0 : ℚ) < 2 ^ t := by positivity
  have hlo' : (2 : ℚ) ^ (e + t) ≤ m * 2 ^ t := by
    rw [zpow_add₀ two_ne_zero]
    exact mul_le_mul_of_nonneg_right hlo ht.le
  have hhi' : (m : ℚ) * 2 ^ t < 2 ^ (e + t + 1) := by
    rw [show e + t + 1 = e + 1 + t by ring, zpow_add₀ two_ne_zero]
    exact mul_lt_mul_of_pos_right hhi ht
  have hz : (m : ℚ) * 2 ^ t / 2 ^ (e + t - 52) = ((m * 2 ^ d : ℤ) : ℚ) := by
    rw [show e + t - 52 = t - d by rw [hd]; ring, zpow_sub₀ two_ne_zero, zpow_natCast]
    push_cast
    field_simp
  rw [roundDouble_eq hlo' hhi', hz, roundEven_intCast, ← hz]
  field_simp

/-- Natural numbers below `2 ^ 53` are doubles. -/
theorem roundDouble_natCast {n : ℕ} (hn : n < 2 ^ 53) : roundDouble n = n := by
  simpa using roundDouble_natCast_mul_zpow hn 0

/-- So are integers. -/
theorem roundDouble_intCast {n : ℤ} (hn : |n| < 2 ^ 53) : roundDouble n = n := by
  obtain ⟨m, rfl | rfl⟩ := n.eq_nat_or_neg
  · rw [Nat.abs_cast] at hn
    exact_mod_cast roundDouble_natCast (by exact_mod_cast hn)
  · rw [abs_neg, Nat.abs_cast] at hn
    rw [Int.cast_neg, roundDouble_neg]
    exact_mod_cast congrArg (- ·) (roundDouble_natCast (by exact_mod_cast hn))

/-- A double that bounds a value from above bounds what it is rounded to. -/
theorem roundDouble_le (h : x ≤ y) (hy : roundDouble y = y) : roundDouble x ≤ y :=
  hy ▸ roundDouble_mono h

/-- A double that bounds a value from below bounds what it is rounded to. -/
theorem le_roundDouble (h : x ≤ y) (hx : roundDouble x = x) : x ≤ roundDouble y := by
  rw [← hx]
  exact roundDouble_mono h

/-- Rounding down loses at most the share `2 ^ -53` of a value that is not negative. -/
theorem sub_le_roundDouble (h : 0 ≤ x) : x - x / 2 ^ 53 ≤ roundDouble x := by
  have hle := (abs_le.mp (abs_roundDouble_sub_le x)).1
  rw [abs_of_nonneg h] at hle
  linarith

/-- Doubles are not moved. -/
theorem roundDouble_roundDouble (h : 0 ≤ x) : roundDouble (roundDouble x) = roundDouble x := by
  rcases h.eq_or_lt with rfl | hpos
  · simp
  obtain ⟨e, hlo, hhi⟩ := exists_exponent hpos
  obtain ⟨hl, hh⟩ := div_zpow_bounds hlo hhi
  have h0 : 0 ≤ roundEven (x / 2 ^ (e - 52)) := roundEven_nonneg (by linarith)
  obtain ⟨m, hm⟩ := Int.eq_ofNat_of_zero_le h0
  have hle : m ≤ 2 ^ 53 := by
    have hle := roundEven_le (n := 2 ^ 53) (show x / 2 ^ (e - 52) ≤ ((2 ^ 53 : ℤ) : ℚ) by
      exact_mod_cast hh.le)
    omega
  rw [roundDouble_eq hlo hhi, hm, Int.cast_natCast]
  rcases hle.lt_or_eq with hlt | rfl
  · exact roundDouble_natCast_mul_zpow hlt _
  · -- Rounded up to the next power of two, where the spacing is twice as wide.
    have hnext : ((2 ^ 53 : ℕ) : ℚ) * 2 ^ (e - 52) = (2 ^ 52 : ℕ) * 2 ^ (e - 51) := by
      rw [show e - 51 = e - 52 + 1 by ring, zpow_add_one₀ two_ne_zero]
      push_cast
      ring
    rw [hnext]
    exact roundDouble_natCast_mul_zpow (by norm_num) _

/-- Rounding of a value scaled down by a power of two. -/
theorem roundDouble_div_pow (s d : ℕ) (hlo : 2 ^ (52 + s) ≤ x) (hhi : x < 2 ^ (53 + s)) :
    roundDouble (x / 2 ^ d) = roundEven (x / 2 ^ s) * 2 ^ s / 2 ^ d := by
  have hd : (0 : ℚ) < 2 ^ d := by positivity
  have hu : (2 : ℚ) ^ (((52 + s : ℕ) : ℤ) - d - 52) = 2 ^ s / 2 ^ d := by
    rw [show ((52 + s : ℕ) : ℤ) - d - 52 = (s : ℤ) - d by push_cast; ring,
      zpow_sub₀ two_ne_zero, zpow_natCast, zpow_natCast]
  have hlo' : (2 : ℚ) ^ (((52 + s : ℕ) : ℤ) - d) ≤ x / 2 ^ d := by
    rw [zpow_sub₀ two_ne_zero, zpow_natCast, zpow_natCast]
    exact div_le_div_of_nonneg_right hlo hd.le
  have hhi' : x / 2 ^ d < (2 : ℚ) ^ (((52 + s : ℕ) : ℤ) - d + 1) := by
    rw [show ((52 + s : ℕ) : ℤ) - d + 1 = ((53 + s : ℕ) : ℤ) - d by push_cast; ring,
      zpow_sub₀ two_ne_zero, zpow_natCast, zpow_natCast]
    exact div_lt_div_of_pos_right hhi hd
  rw [roundDouble_eq hlo' hhi', hu, div_div_div_cancel_right₀ hd.ne', mul_div_assoc]

end Double

end NatcpSpec.Base
