import NatcpSpec.Server.ReplayClock

/-!
# The bias of the replay

`CntThread`, `src/server.cc:412,435–438`. The time since the client's base timestamp is
taken in wrapping 64-bit arithmetic, divided by a million as a double, multiplied by a
thousand and truncated. The two subtractions of the server's own start cancel. What remains
wraps if the base timestamp is ahead of the clock, and the detour over seconds can end just
below a whole number of milliseconds.
-/

namespace NatcpSpec.Server

open NatcpSpec.Base

/-- `timestamp()`, from the clock and the server's own start; `src/server.cc:119–122`. -/
def timestamp (raw initial : UInt64) : UInt64 := raw - initial

/-- `fct_`: the client's base timestamp after the server's own start; `src/server.cc:412`. -/
def fctStart (startOfClient initial : UInt64) : UInt64 := startOfClient - initial

/-- `setup_time`; `src/server.cc:435`. -/
def setupTime (initial startOfClient raw : UInt64) : UInt64 :=
  timestamp raw initial - fctStart startOfClient initial

/-- `bias_time` in doubles, with `base_timestamp` zero; `src/server.cc:434–437`. -/
def biasTimeDouble (setup : UInt64) : ℚ :=
  roundDouble (roundDouble (roundDouble setup.toNat / 1000000) + roundDouble (0 / 1000000))

/-- The double that is converted to `bias_time_scaled`; `src/server.cc:438`. -/
def biasScaledDouble (setup : UInt64) : ℚ := roundDouble (biasTimeDouble setup * 1000)

/-- The bias is the time elapsed since the client's base timestamp, zero if that is ahead
of the clock, and in whole milliseconds it fits an `int`. -/
structure BiasIsElapsed (c : Arith) (initial startOfClient raw : UInt64) : Prop where
  elapsed : (setupTime initial startOfClient raw).toNat = raw.toNat - startOfClient.toNat
  fits : InInt32 (trunc (biasScaledDouble (setupTime initial startOfClient raw)))
  scaled : c.toInt (biasScaledDouble (setupTime initial startOfClient raw)) =
    ((raw.toNat - startOfClient.toNat) / 1000 : ℕ)

/-- Milliseconds that the detour over seconds takes below themselves: they lie in the upper
part of their binade, and the division by a thousand rounds down by more than the
multiplication makes up for. -/
def TruncatesLow (k : ℕ) : Prop :=
  1000 * 2 ^ Nat.clog 2 k ≤ 1024 * k ∧ 256 < k * 2 ^ (62 - Nat.clog 2 k) % 1000 ∧
    k * 2 ^ (62 - Nat.clog 2 k) % 1000 < 500

instance (k : ℕ) : Decidable (TruncatesLow k) := inferInstanceAs (Decidable (_ ∧ _))

/-! ### The subtractions -/

/-- The server's own start cancels. -/
theorem setupTime_eq (initial startOfClient raw : UInt64) :
    setupTime initial startOfClient raw = raw - startOfClient := by
  unfold setupTime timestamp fctStart
  grind

/-- Elapsed time is measured unless the base timestamp is ahead of the clock. -/
theorem toNat_setupTime_iff (initial startOfClient raw : UInt64) :
    (setupTime initial startOfClient raw).toNat = raw.toNat - startOfClient.toNat ↔
      startOfClient.toNat ≤ raw.toNat := by
  have hr := raw.toNat_lt
  have hs := startOfClient.toNat_lt
  have h := toNat_sub_emod raw startOfClient
  rw [setupTime_eq]
  omega

/-! ### The detour over seconds -/

section Doubles

variable {setup : UInt64} {k : ℕ}

/-- The sum with the zero base changes nothing. -/
theorem biasTimeDouble_eq (setup : UInt64) :
    biasTimeDouble setup = roundDouble (roundDouble setup.toNat / 1000000) := by
  have h0 : 0 ≤ roundDouble (setup.toNat : ℚ) := roundDouble_nonneg (Nat.cast_nonneg _)
  unfold biasTimeDouble
  rw [zero_div, roundDouble_zero, add_zero, roundDouble_roundDouble (by positivity)]

/-- Times of less than `2 ^ 53` microseconds enter the division as they are. -/
theorem biasScaledDouble_eq (h : setup.toNat < 2 ^ 53) :
    biasScaledDouble setup = roundDouble (roundDouble (setup.toNat / 1000000) * 1000) := by
  rw [biasScaledDouble, biasTimeDouble_eq, roundDouble_natCast h]

-- Two roundings move the quotient by less than a thousandth.
private theorem abs_biasScaledDouble_sub_lt (h : setup.toNat < 2147483648000) :
    |biasScaledDouble setup - setup.toNat / 1000| < 1 / 1000 := by
  have hD : (setup.toNat : ℚ) ≤ 2147483648000 := by exact_mod_cast h.le
  have h0 : (0 : ℚ) ≤ setup.toNat / 1000000 := by positivity
  have hb0 := roundDouble_nonneg h0
  have hc0 : 0 ≤ roundDouble (setup.toNat / 1000000) * 1000 := by positivity
  have hb := abs_le.mp (abs_roundDouble_sub_le ((setup.toNat : ℚ) / 1000000))
  have hc := abs_le.mp (abs_roundDouble_sub_le (roundDouble (setup.toNat / 1000000) * 1000))
  rw [abs_of_nonneg h0] at hb
  rw [abs_of_nonneg hc0] at hc
  rw [biasScaledDouble_eq (by omega), abs_lt]
  norm_num at hb hc ⊢
  constructor <;> linarith

private theorem trunc_biasScaledDouble_of_not_dvd {r : ℕ} (h : setup.toNat < 2147483648000)
    (hk : setup.toNat = 1000 * k + r) (h0 : 0 < r) (hr : r < 1000) :
    trunc (biasScaledDouble setup) = k := by
  have hd : (setup.toNat : ℚ) / 1000 = k + r / 1000 := by
    rw [hk]
    push_cast
    ring
  have h1 : (1 : ℚ) ≤ r := by exact_mod_cast h0
  have h2 : (r : ℚ) ≤ 999 := by exact_mod_cast Nat.le_of_lt_succ hr
  have hk0 : (0 : ℚ) ≤ k := Nat.cast_nonneg k
  have hv := abs_lt.mp (abs_biasScaledDouble_sub_lt h)
  rw [hd] at hv
  rw [trunc_of_nonneg (by linarith), Int.floor_eq_iff, Int.cast_natCast]
  constructor <;> linarith

/-- A whole number of milliseconds comes back from the detour, or one less. -/
theorem trunc_biasScaledDouble_of_mul (h : setup.toNat < 2147483648000)
    (hk : setup.toNat = 1000 * k) :
    trunc (biasScaledDouble setup) = k ↔ (k : ℚ) ≤ biasScaledDouble setup := by
  have hv := abs_lt.mp (abs_biasScaledDouble_sub_lt h)
  have hd : (setup.toNat : ℚ) / 1000 = k := by
    rw [hk]
    push_cast
    ring
  rw [hd] at hv
  have hn : 0 ≤ biasScaledDouble setup := by
    rw [biasScaledDouble_eq (by omega)]
    exact roundDouble_nonneg (mul_nonneg (roundDouble_nonneg (by positivity)) (by norm_num))
  rw [trunc_of_nonneg hn, Int.floor_eq_iff]
  constructor
  · rintro ⟨hle, -⟩
    exact_mod_cast hle
  · intro hle
    refine ⟨by exact_mod_cast hle, ?_⟩
    push_cast
    linarith

/-! ### Whole milliseconds -/

-- The quotient by a thousand, scaled up to the 53 bits it is rounded to.
private theorem roundDouble_div_thousand {d : ℕ} (hlo : 1000 * 2 ^ 52 ≤ k * 2 ^ d)
    (hhi : k * 2 ^ d < 1000 * 2 ^ 53) :
    roundDouble (k / 1000) * 1000 =
      (1000 * roundEven ((k * 2 ^ d : ℕ) / 1000) : ℤ) / 2 ^ d := by
  have hd : (0 : ℚ) < 2 ^ d := by positivity
  have hx : (k : ℚ) / 1000 = (k * 2 ^ d : ℕ) / 1000 / 2 ^ d := by
    push_cast
    field_simp
  have hlo' : 2 ^ (52 + 0) ≤ ((k * 2 ^ d : ℕ) : ℚ) / 1000 := by
    rw [le_div_iff₀ (by norm_num)]
    exact_mod_cast (by omega : 2 ^ 52 * 1000 ≤ k * 2 ^ d)
  have hhi' : ((k * 2 ^ d : ℕ) : ℚ) / 1000 < 2 ^ (53 + 0) := by
    rw [div_lt_iff₀ (by norm_num)]
    exact_mod_cast (by omega : k * 2 ^ d < 2 ^ 53 * 1000)
  rw [hx, roundDouble_div_pow 0 d hlo' hhi', pow_zero, div_one, mul_one]
  push_cast
  ring

private theorem roundEven_div_thousand {n q : ℕ} (hlo : 1000 * q < n + 500)
    (hhi : n < 1000 * q + 500) : roundEven (n / 1000) = q := by
  have h0 : (1000 * q : ℚ) < n + 500 := by exact_mod_cast hlo
  have h1 : (n : ℚ) < 1000 * q + 500 := by exact_mod_cast hhi
  apply roundEven_eq_of_abs_lt
  rw [Int.cast_natCast, abs_lt]
  constructor <;> linarith

-- Rounded up by the division, milliseconds cannot get below themselves.
private theorem le_of_rounded_up (hk : k < 2 ^ 53) {d : ℕ} (hlo : 1000 * 2 ^ 52 ≤ k * 2 ^ d)
    (hhi : k * 2 ^ d < 1000 * 2 ^ 53) (h : 500 < k * 2 ^ d % 1000) :
    (k : ℚ) ≤ roundDouble (roundDouble (k / 1000) * 1000) := by
  have hd : (0 : ℚ) < 2 ^ d := by positivity
  nth_rewrite 1 [← roundDouble_natCast hk]
  apply roundDouble_mono
  rw [roundDouble_div_thousand hlo hhi,
    roundEven_div_thousand (q := k * 2 ^ d / 1000 + 1) (by omega) (by omega), le_div_iff₀ hd]
  exact_mod_cast (by omega : k * 2 ^ d ≤ 1000 * (k * 2 ^ d / 1000 + 1))

-- Rounded down by the division, milliseconds come back if the multiplication rounds up.
private theorem le_iff_of_rounded_down {d s m : ℕ} (hlo : 1000 * 2 ^ 52 ≤ k * 2 ^ d)
    (hhi : k * 2 ^ d < 1000 * 2 ^ 53) (h : k * 2 ^ d % 1000 < 500)
    (hs : 2 ^ (52 + s) ≤ k * 2 ^ d - k * 2 ^ d % 1000) (hs' : k * 2 ^ d < 2 ^ (53 + s))
    (hm : k * 2 ^ d = m * 2 ^ s) :
    (k : ℚ) ≤ roundDouble (roundDouble (k / 1000) * 1000) ↔
      (m : ℤ) ≤ roundEven (m - (k * 2 ^ d % 1000 : ℕ) / 2 ^ s) := by
  have hd : (0 : ℚ) < 2 ^ d := by positivity
  have hp : (0 : ℚ) < 2 ^ s := by positivity
  have hy : 1000 * (k * 2 ^ d / 1000) = k * 2 ^ d - k * 2 ^ d % 1000 := by omega
  have hyq : ((1000 * ((k * 2 ^ d / 1000 : ℕ) : ℤ) : ℤ) : ℚ) =
      ((k * 2 ^ d - k * 2 ^ d % 1000 : ℕ) : ℚ) := by
    rw [← hy]
    simp only [Int.cast_mul, Int.cast_natCast, Nat.cast_mul, Int.cast_ofNat, Nat.cast_ofNat]
  rw [roundDouble_div_thousand hlo hhi,
    roundEven_div_thousand (q := k * 2 ^ d / 1000) (by omega) (by omega), hyq,
    roundDouble_div_pow s d (by exact_mod_cast hs)
    (by exact_mod_cast (by omega : k * 2 ^ d - k * 2 ^ d % 1000 < 2 ^ (53 + s)))]
  have hx : ((k * 2 ^ d - k * 2 ^ d % 1000 : ℕ) : ℚ) / 2 ^ s =
      m - (k * 2 ^ d % 1000 : ℕ) / 2 ^ s := by
    rw [Nat.cast_sub (by omega), hm]
    push_cast
    field_simp
  rw [hx, le_div_iff₀ hd]
  have hkm : (k : ℚ) * 2 ^ d = m * 2 ^ s := by exact_mod_cast hm
  rw [hkm, mul_le_mul_iff_left₀ hp]
  exact_mod_cast Iff.rfl

private theorem le_roundEven_sub_iff {m r : ℕ} (hm : m % 2 = 0) (hr : r < 500) :
    (m : ℤ) ≤ roundEven (m - r / 2 ^ 9) ↔ r ≤ 256 := by
  have h0 : (0 : ℚ) ≤ r := Nat.cast_nonneg r
  rcases lt_trichotomy r 256 with h | rfl | h
  · have hlt : (r : ℚ) < 256 := by exact_mod_cast h
    have he : roundEven ((m : ℚ) - r / 2 ^ 9) = m := by
      apply roundEven_eq_of_abs_lt
      rw [Int.cast_natCast, abs_lt]
      constructor <;> linarith
    exact iff_of_true he.ge h.le
  · have he : roundEven ((m : ℚ) - (256 : ℕ) / 2 ^ 9) = m := by
      rw [← roundEven_half_below (n := m) (by omega)]
      norm_num
    exact iff_of_true he.ge le_rfl
  · refine iff_of_false ?_ (by omega)
    have hlt : (256 : ℚ) < r := by exact_mod_cast h
    have hv := (abs_le.mp (abs_roundEven_sub_le ((m : ℚ) - r / 2 ^ 9))).2
    intro hle
    have hle' : (m : ℚ) ≤ roundEven ((m : ℚ) - r / 2 ^ 9) := by exact_mod_cast hle
    linarith

private theorem le_roundEven_sub_of_lt {m r : ℕ} (hr : r < 500) :
    (m : ℤ) ≤ roundEven (m - r / 2 ^ 10) := by
  have h0 : (0 : ℚ) ≤ r := Nat.cast_nonneg r
  have h1 : (r : ℚ) < 500 := by exact_mod_cast hr
  apply le_of_eq
  symm
  apply roundEven_eq_of_abs_lt
  rw [Int.cast_natCast, abs_lt]
  constructor <;> linarith

-- The upper part of a binade, where the quotient by a thousand has one exponent more.
private theorem le_iff_upper {j : ℕ} (hj : j ≤ 31) (hk : k ≤ 2 ^ j)
    (hup : 1000 * 2 ^ j ≤ 1024 * k) :
    (k : ℚ) ≤ roundDouble (roundDouble (k / 1000) * 1000) ↔
      ¬(256 < k * 2 ^ (62 - j) % 1000 ∧ k * 2 ^ (62 - j) % 1000 < 500) := by
  have hpow : 2 ^ j * 2 ^ (62 - j) = 2 ^ 62 := by
    rw [← pow_add, Nat.add_sub_cancel' (by omega)]
  have hd : 2 ^ (62 - j) = 2 ^ 10 * 2 ^ (52 - j) := by
    rw [← pow_add]
    congr 1
    omega
  have hm : k * 2 ^ (62 - j) = k * 2 ^ (52 - j) * 2 * 2 ^ 9 := by
    rw [hd]
    ring
  have hlo := Nat.mul_le_mul_right (2 ^ (62 - j)) hup
  have hhi := Nat.mul_le_mul_right (2 ^ (62 - j)) hk
  rw [mul_assoc, mul_assoc, hpow] at hlo
  rw [hpow] at hhi
  have hk53 : k < 2 ^ 53 :=
    hk.trans_lt (Nat.pow_lt_pow_right (by norm_num) (by omega))
  rcases lt_trichotomy (k * 2 ^ (62 - j) % 1000) 500 with h | h | h
  · have hlt : k * 2 ^ (62 - j) < 2 ^ 62 := by
      refine lt_of_le_of_ne hhi (fun he ↦ ?_)
      rw [he] at h
      norm_num at h
    rw [le_iff_of_rounded_down (s := 9) (by omega) (by omega) h (by omega) (by omega) hm,
      le_roundEven_sub_iff (by omega) h]
    omega
  · omega
  · refine iff_of_true (le_of_rounded_up hk53 (by omega) (by omega) h) (by omega)

-- The lower part of a binade, where the multiplication makes up for any rounding.
private theorem le_of_lower {j : ℕ} (hj : j ≤ 31) (hk : 2 ^ j < 2 * k)
    (hlow : 1024 * k < 1000 * 2 ^ j) :
    (k : ℚ) ≤ roundDouble (roundDouble (k / 1000) * 1000) := by
  have hpow : 2 ^ j * 2 ^ (63 - j) = 2 ^ 63 := by
    rw [← pow_add, Nat.add_sub_cancel' (by omega)]
  have hd : 2 ^ (63 - j) = 2 ^ 10 * 2 ^ (53 - j) := by
    rw [← pow_add]
    congr 1
    omega
  have hm : k * 2 ^ (63 - j) = k * 2 ^ (53 - j) * 2 ^ 10 := by
    rw [hd]
    ring
  have hbig : 2 ^ 32 ≤ 2 ^ (63 - j) := Nat.pow_le_pow_right (by norm_num) (by omega)
  have hlo := Nat.mul_le_mul_right (2 ^ (63 - j)) (Nat.succ_le_of_lt hk)
  have hhi := Nat.mul_lt_mul_of_pos_right hlow (show 0 < 2 ^ (63 - j) by positivity)
  rw [Nat.succ_mul, mul_assoc, hpow] at hlo
  rw [mul_assoc, mul_assoc, hpow] at hhi
  have hk53 : k < 2 ^ 53 := by
    have hle : 2 ^ j ≤ 2 ^ 31 := Nat.pow_le_pow_right (by norm_num) hj
    omega
  rcases lt_trichotomy (k * 2 ^ (63 - j) % 1000) 500 with h | h | h
  · rw [le_iff_of_rounded_down (s := 10) (by omega) (by omega) h (by omega) (by omega) hm]
    exact le_roundEven_sub_of_lt h
  · omega
  · exact le_of_rounded_up hk53 (by omega) (by omega) h

/-- Which whole milliseconds are not taken below themselves. -/
theorem le_milliseconds_iff (hk : k < 2 ^ 31) :
    (k : ℚ) ≤ roundDouble (roundDouble (k / 1000) * 1000) ↔ ¬TruncatesLow k := by
  rcases Nat.eq_zero_or_pos k with rfl | hpos
  · simp [TruncatesLow]
  have hj : Nat.clog 2 k ≤ 31 := Nat.clog_le_of_le_pow hk.le
  have hle : k ≤ 2 ^ Nat.clog 2 k := Nat.le_pow_clog one_lt_two k
  unfold TruncatesLow
  by_cases hup : 1000 * 2 ^ Nat.clog 2 k ≤ 1024 * k
  · rw [le_iff_upper hj hle hup]
    simp only [hup, true_and]
  · refine iff_of_true (le_of_lower hj ?_ (not_le.mp hup)) (fun h ↦ hup h.1)
    have h1 : 1 < k := by
      by_contra h1
      have hk1 : k = 1 := by omega
      rw [hk1] at hup
      simp at hup
    have hlt := Nat.pow_pred_clog_lt_self one_lt_two h1
    have hclog : 0 < Nat.clog 2 k := Nat.clog_pos one_lt_two h1
    calc 2 ^ Nat.clog 2 k = 2 ^ (Nat.clog 2 k).pred * 2 := by
          rw [← pow_succ, ← Nat.succ_eq_add_one, Nat.succ_pred_eq_of_pos hclog]
      _ < 2 * k := by omega

/-- Whole milliseconds are kept exactly if they are not taken below themselves. -/
theorem trunc_biasScaledDouble_iff (h : setup.toNat < 2147483648000)
    (hk : setup.toNat = 1000 * k) :
    trunc (biasScaledDouble setup) = k ↔ ¬TruncatesLow k := by
  have hx : (setup.toNat : ℚ) / 1000000 = k / 1000 := by
    rw [hk]
    push_cast
    ring
  rw [trunc_biasScaledDouble_of_mul h hk, biasScaledDouble_eq (by omega), hx,
    le_milliseconds_iff (by omega)]

/-- Any other time is truncated to its milliseconds. -/
theorem trunc_biasScaledDouble (h : setup.toNat < 2147483648000)
    (hlow : ¬(1000 ∣ setup.toNat ∧ TruncatesLow (setup.toNat / 1000))) :
    trunc (biasScaledDouble setup) = (setup.toNat / 1000 : ℕ) := by
  by_cases hr : setup.toNat % 1000 = 0
  · apply (trunc_biasScaledDouble_iff h (by omega)).mpr
    exact fun hl ↦ hlow ⟨Nat.dvd_of_mod_eq_zero hr, hl⟩
  · exact trunc_biasScaledDouble_of_not_dvd h (Nat.div_add_mod _ _).symm
      (Nat.pos_of_ne_zero hr) (Nat.mod_lt _ (by norm_num))

/-- From `2 ^ 31` milliseconds on the value to be converted does not fit an `int`. -/
theorem not_inInt32_of_le (h : 2147483648000 ≤ setup.toNat) :
    ¬InInt32 (trunc (biasScaledDouble setup)) := by
  have hend : ((2 ^ 31 : ℕ) : ℚ) ≤ roundDouble (roundDouble ((2 ^ 31 : ℕ) / 1000) * 1000) :=
    (le_iff_upper (j := 31) le_rfl le_rfl (by norm_num)).mpr (by norm_num)
  have hd : (2147483648000 : ℕ) ≤ roundDouble (setup.toNat : ℚ) := by
    rw [← roundDouble_natCast (n := 2147483648000) (by norm_num)]
    exact roundDouble_mono (by exact_mod_cast h)
  have hb : roundDouble ((2 ^ 31 : ℕ) / 1000) ≤ biasTimeDouble setup := by
    rw [biasTimeDouble_eq]
    apply roundDouble_mono
    push_cast at hd ⊢
    linarith
  have hle : ((2 ^ 31 : ℤ) : ℚ) ≤ biasScaledDouble setup := by
    exact le_trans (by exact_mod_cast hend)
      (roundDouble_mono (mul_le_mul_of_nonneg_right hb (by norm_num)))
  intro hin
  have ht := trunc_mono hle
  rw [trunc_intCast] at ht
  have := hin.2
  omega

end Doubles

/-- The test of the loop on amd64 is made with this double. -/
theorem biasTimeScaled_amd64 (r : Replay) :
    r.biasTimeScaled .amd64 = Arith.amd64.toInt (biasScaledDouble r.setupTime) := rfl

/-- For which clocks and base timestamps the bias is the elapsed time: the base timestamp
is not ahead of the clock, less than `2 ^ 31` milliseconds have passed, and they are not
a whole number of milliseconds that truncation takes below itself. -/
theorem biasIsElapsed_iff (c : Arith) (initial startOfClient raw : UInt64) :
    BiasIsElapsed c initial startOfClient raw ↔
      startOfClient.toNat ≤ raw.toNat ∧ raw.toNat - startOfClient.toNat < 2147483648000 ∧
      ¬(1000 ∣ raw.toNat - startOfClient.toNat ∧
        TruncatesLow ((raw.toNat - startOfClient.toNat) / 1000)) := by
  constructor
  · intro h
    have hD := h.elapsed
    have hlt : raw.toNat - startOfClient.toNat < 2147483648000 := by
      by_contra hge
      exact not_inInt32_of_le (by omega) h.fits
    refine ⟨(toNat_setupTime_iff initial startOfClient raw).mp hD, hlt, ?_⟩
    rintro ⟨⟨k, hk⟩, hlow⟩
    have hs := h.scaled
    rw [hk, Nat.mul_div_cancel_left k (by norm_num)] at hlow hs
    rw [c.toInt_eq _ h.fits, trunc_biasScaledDouble_iff (by omega) (by omega)] at hs
    exact hs hlow
  · rintro ⟨hle, hlt, hlow⟩
    have hD := (toNat_setupTime_iff initial startOfClient raw).mpr hle
    have htrunc : trunc (biasScaledDouble (setupTime initial startOfClient raw)) =
        ((raw.toNat - startOfClient.toNat) / 1000 : ℕ) := by
      rw [← hD] at hlt hlow ⊢
      exact trunc_biasScaledDouble hlt hlow
    have hfits : InInt32 (trunc (biasScaledDouble (setupTime initial startOfClient raw))) := by
      rw [htrunc]
      exact ⟨by omega, by omega⟩
    exact ⟨hD, hfits, by rw [c.toInt_eq _ hfits, htrunc]⟩

example : TruncatesLow 1001 := by decide

/-- A base timestamp one millisecond ahead of the clock makes the bias as long as a 64-bit
word allows. -/
theorem not_biasIsElapsed_ahead :
    ¬BiasIsElapsed .amd64 1539225833000000 1539225833806000 1539225833805000 := by
  intro h
  exact absurd h.elapsed (by decide)

end NatcpSpec.Server
