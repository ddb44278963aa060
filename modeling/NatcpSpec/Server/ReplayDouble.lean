import NatcpSpec.Server.ReplayBias

/-!
# The replay clock in doubles

`src/server.cc:434–464` on amd64, for which the installation guide sets the server up. The
bias test lets only lines through whose milliseconds fit an `int`. For these the roundings of
a sleep stay below a microsecond, so that a line after the clock is never taken for a late
one. A clock that is far ahead of the lines is lowered by every late line only a little, by
the fraction of a microsecond that truncation drops and by roundings.
-/

namespace NatcpSpec.Server

open NatcpSpec.Base

section Double

variable {r : Replay} {s : CntState} {e : STrace}

/-- A line that passes the bias test lies within 2^31 milliseconds of zero. -/
theorem time_bounds_of_not_skips (h : ¬ r.Skips .amd64 e) :
    -2 ^ 31 - 1 < 1000 * e.time ∧ 1000 * e.time < 2 ^ 31 := by
  have hr : InInt32 (trunc (roundDouble (1000 * e.time))) :=
    Arith.inInt32_of_lt_amd64_toInt (Arith.inInt32_amd64_toInt _).1 (not_le.mp h)
  constructor
  · by_contra hle
    have hround : roundDouble (1000 * e.time) ≤ ((-2 ^ 31 - 1 : ℤ) : ℚ) :=
      roundDouble_le (by push_cast; linarith) (roundDouble_intCast (by norm_num))
    have htrunc := trunc_mono hround
    rw [trunc_intCast] at htrunc
    have hlow := hr.1
    omega
  · by_contra hge
    have hround : ((2 ^ 31 : ℤ) : ℚ) ≤ roundDouble (1000 * e.time) :=
      le_roundDouble (by push_cast; linarith) (roundDouble_intCast (by norm_num))
    have htrunc := trunc_mono hround
    rw [trunc_intCast] at htrunc
    have hhigh := hr.2
    omega

/-- The bias is not negative. -/
theorem biasTime_amd64_nonneg (r : Replay) : 0 ≤ r.biasTime .amd64 := by
  have h0 : 0 ≤ roundDouble (r.setupTime.toNat : ℚ) := roundDouble_nonneg (Nat.cast_nonneg _)
  unfold Replay.biasTime
  simp only [Arith.amd64_round, zero_div, roundDouble_zero, add_zero]
  exact roundDouble_nonneg (roundDouble_nonneg (by positivity))

/-- A late line does not put the trace time before its own. -/
theorem le_preTime_afterLate {o : ℤ} (s : CntState) (ho : o ≤ 0)
    (ht : -2147484 ≤ e.time) : -2147484 ≤ (s.afterLate .amd64 e o).preTime := by
  have hneg : roundDouble (roundDouble o / 1000000) ≤ 0 := by
    have ho' : (o : ℚ) ≤ 0 := by exact_mod_cast ho
    have hround : roundDouble (o : ℚ) ≤ 0 := roundDouble_le ho' roundDouble_zero
    exact roundDouble_le (by linarith) roundDouble_zero
  have hfix : roundDouble ((-2147484 : ℤ) : ℚ) = ((-2147484 : ℤ) : ℚ) :=
    roundDouble_intCast (by norm_num)
  push_cast at hfix
  exact le_roundDouble (by simp only [Arith.amd64_round]; linarith) hfix

/-- A sleep is at most 2^42 microseconds, less what is carried over. -/
theorem offset_le {carried : ℤ} (ht : 1000 * e.time < 2 ^ 31) (hpre : -2147484 ≤ s.preTime)
    (hcarried : (carried : ℚ) ≤ roundDouble s.fct.toNat)
    (hfix : roundDouble ((2 ^ 42 - carried : ℤ) : ℚ) = ((2 ^ 42 - carried : ℤ) : ℚ))
    (hmin : -2 ^ 63 ≤ 2 ^ 42 - carried) : Replay.offset .amd64 s e ≤ 2 ^ 42 - carried := by
  have hdelta : roundDouble (e.time - s.preTime) ≤ ((4294968 : ℤ) : ℚ) :=
    roundDouble_le (by push_cast; linarith) (roundDouble_intCast (by norm_num))
  have hmicros : roundDouble (roundDouble (e.time - s.preTime) * 1000000) ≤
      ((2 ^ 42 : ℤ) : ℚ) :=
    roundDouble_le (by push_cast at hdelta ⊢; linarith) (roundDouble_intCast (by norm_num))
  have hround : roundDouble (roundDouble (roundDouble (e.time - s.preTime) * 1000000)
      - roundDouble s.fct.toNat) ≤ ((2 ^ 42 - carried : ℤ) : ℚ) :=
    roundDouble_le (by push_cast at hmicros ⊢; linarith) hfix
  have htrunc := trunc_mono hround
  rw [trunc_intCast] at htrunc
  change (if InInt64 (trunc (roundDouble (roundDouble (roundDouble (e.time - s.preTime)
    * 1000000) - roundDouble s.fct.toNat))) then _ else -2 ^ 63) ≤ _
  split_ifs
  · exact htrunc
  · exact hmin

/-! ### Lines after the clock -/

-- Both roundings of the distance together stay below half a microsecond.
private theorem distance_gt {t preTime : ℚ} (h0 : 0 ≤ t - preTime)
    (hlt : (t - preTime) * 1000000 < 2 ^ 43) :
    (t - preTime) * 1000000 - 1 / 2 < roundDouble (roundDouble (t - preTime) * 1000000) ∧
      roundDouble (roundDouble (t - preTime) * 1000000) ≤ 2 ^ 44 := by
  have hd := abs_le.mp (abs_roundDouble_sub_le (t - preTime))
  have hd0 := roundDouble_nonneg h0
  have hm := abs_le.mp (abs_roundDouble_sub_le (roundDouble (t - preTime) * 1000000))
  rw [abs_of_nonneg h0] at hd
  rw [abs_of_nonneg (by positivity)] at hm
  norm_num at hd hm hlt ⊢
  constructor <;> linarith

/-- A line that lies after the clock is not late. -/
theorem offset_nonneg_of_clock_lt (ht : 1000 * e.time < 2 ^ 31)
    (hpre : -2147484 ≤ s.preTime) (hlt : s.clock < e.time * 1000000) :
    0 ≤ Replay.offset .amd64 s e := by
  have hfct0 : (0 : ℚ) ≤ s.fct.toNat := Nat.cast_nonneg _
  rw [CntState.clock] at hlt
  have hfct : s.fct.toNat < 2 ^ 53 := by
    have hq : (s.fct.toNat : ℚ) < 9007199254740992 := by linarith
    exact_mod_cast hq
  have hfar : (e.time - s.preTime) * 1000000 < 2 ^ 43 := by
    norm_num at ht ⊢
    linarith
  have hahead : 0 ≤ e.time - s.preTime := by linarith
  obtain ⟨hgt, hle⟩ := distance_gt hahead hfar
  -- What is converted is between minus one half and 2^44.
  have hlow : -1 / 2 ≤ roundDouble (roundDouble (roundDouble (e.time - s.preTime) * 1000000)
      - s.fct.toNat) := by
    refine le_roundDouble (by linarith) ?_
    decide +kernel
  have hhigh : roundDouble (roundDouble (roundDouble (e.time - s.preTime) * 1000000)
      - s.fct.toNat) ≤ ((2 ^ 44 : ℤ) : ℚ) :=
    roundDouble_le (by push_cast; linarith) (roundDouble_intCast (by norm_num))
  have htrunc := trunc_mono hlow
  have htrunc' := trunc_mono hhigh
  rw [trunc_intCast] at htrunc'
  have hhalf : trunc (-1 / 2) = 0 := by decide +kernel
  rw [hhalf] at htrunc
  change 0 ≤ Arith.amd64.toInt64 (roundDouble (roundDouble (roundDouble (e.time - s.preTime)
    * 1000000) - roundDouble s.fct.toNat))
  rw [roundDouble_natCast hfct, Arith.amd64.toInt64_eq _ ⟨by omega, by omega⟩]
  exact htrunc

/-! ### A clock ahead of the lines -/

/-- What the loop computes from a line that many microseconds behind the trace time, when
nothing is carried over. -/
def behind (s : CntState) (e : STrace) : ℚ :=
  roundDouble (roundDouble (s.preTime - e.time) * 1000000)

private theorem behind_ge (hlt : e.time + 1 ≤ s.preTime) :
    (s.preTime - e.time) * 1000000 * (1 - 2 / 2 ^ 53) ≤ behind s e := by
  have h0 : 0 ≤ s.preTime - e.time := by linarith
  have hd0 := roundDouble_nonneg h0
  have hd := sub_le_roundDouble h0
  have hm := sub_le_roundDouble (show 0 ≤ roundDouble (s.preTime - e.time) * 1000000 by positivity)
  unfold behind
  norm_num at hd hm ⊢
  linarith

/-- The sleep before a line that is behind the trace time is the truncated distance, or the
least 64-bit integer where that is out of range. -/
theorem offset_of_behind (hf : s.fct = 0) (hlt : e.time + 1 ≤ s.preTime) :
    Replay.offset .amd64 s e = -(if ⌊behind s e⌋ ≤ 2 ^ 63 then ⌊behind s e⌋ else 2 ^ 63) := by
  have hb := behind_ge hlt
  have hb0 : 0 ≤ behind s e := by
    refine le_trans ?_ hb
    have h1 : 0 ≤ s.preTime - e.time := by linarith
    positivity
  have hneg : roundDouble (roundDouble (roundDouble (e.time - s.preTime) * 1000000)
      - roundDouble s.fct.toNat) = -behind s e := by
    have hflip : e.time - s.preTime = -(s.preTime - e.time) := by ring
    have hidem : roundDouble (behind s e) = behind s e := by
      refine roundDouble_roundDouble (mul_nonneg (roundDouble_nonneg ?_) (by norm_num))
      linarith
    rw [hf, UInt64.toNat_zero, Nat.cast_zero, roundDouble_zero, sub_zero, hflip, roundDouble_neg,
      neg_mul, roundDouble_neg, roundDouble_neg]
    exact congrArg (- ·) hidem
  have htrunc : trunc (-behind s e) = -⌊behind s e⌋ := by
    rw [trunc_neg, trunc_of_nonneg hb0]
  have hfloor : 0 ≤ ⌊behind s e⌋ := Int.floor_nonneg.mpr hb0
  unfold Replay.offset
  simp only [Arith.amd64_round]
  rw [hneg]
  change (if InInt64 (trunc (-behind s e)) then trunc (-behind s e) else -2 ^ 63) = _
  rw [htrunc]
  unfold InInt64
  split_ifs <;> omega

/-- A line that is behind the trace time is late, and the trace time is lowered by at most a
share of `2 ^ -48` and a microsecond. -/
theorem late_of_behind (bound : ℚ) (hf : s.fct = 0) (hlow : -2 ^ 22 ≤ e.time)
    (hlt : e.time + 1 ≤ s.preTime) (h0 : 2 ^ 20 ≤ bound) (hbound : bound ≤ s.preTime)
    (hmax : bound ≤ 2 ^ 43) :
    Replay.offset .amd64 s e < 0 ∧
      bound - (bound / 2 ^ 48 + 1 / 1000000) ≤
        (s.afterLate .amd64 e (Replay.offset .amd64 s e)).preTime := by
  have ho := offset_of_behind hf hlt
  have hb := behind_ge hlt
  have hfloor := Int.lt_floor_add_one (behind s e)
  obtain ⟨n, hn⟩ : ∃ n : ℤ, n = if ⌊behind s e⌋ ≤ 2 ^ 63 then ⌊behind s e⌋ else 2 ^ 63 :=
    ⟨_, rfl⟩
  rw [← hn] at ho
  -- The whole microseconds that the line is behind, or as many as fit.
  have hcount : (behind s e - 1 < n ∨ n = 2 ^ 63) ∧ 1 ≤ n := by
    have hpos : (1 : ℚ) ≤ behind s e := by
      norm_num at hb ⊢
      linarith
    have hone : 1 ≤ ⌊behind s e⌋ := Int.le_floor.mpr (by exact_mod_cast hpos)
    split_ifs at hn with hle
    · refine ⟨Or.inl ?_, by omega⟩
      rw [hn]
      linarith
    · exact ⟨Or.inr hn, by omega⟩
  refine ⟨by omega, ?_⟩
  have hn0 : (0 : ℚ) ≤ n := by exact_mod_cast (show 0 ≤ n by omega)
  have hr0 : 0 ≤ roundDouble (n : ℚ) := roundDouble_nonneg hn0
  have hr := sub_le_roundDouble hn0
  have hw := sub_le_roundDouble (show 0 ≤ roundDouble (n : ℚ) / 1000000 by positivity)
  have hpre : (s.afterLate .amd64 e (Replay.offset .amd64 s e)).preTime =
      roundDouble (e.time + roundDouble (roundDouble n / 1000000)) := by
    rw [ho]
    simp only [CntState.afterLate, Arith.amd64_round, Int.cast_neg, roundDouble_neg, neg_div,
      sub_neg_eq_add]
  have hsum0 : 0 ≤ e.time + roundDouble (roundDouble n / 1000000) := by
    rcases hcount.1 with hc | hc
    · norm_num at hb hr hw h0 hlow hmax ⊢
      linarith
    · rw [hc] at hr hw ⊢
      norm_num at hr hw hlow ⊢
      linarith
  have hlast := sub_le_roundDouble hsum0
  rw [hpre]
  refine le_trans ?_ hlast
  rcases hcount.1 with hc | hc
  · norm_num at hb hr hw h0 hlow hmax ⊢
    linarith
  · rw [hc] at hr hw ⊢
    norm_num at hr hw hlow hmax h0 ⊢
    linarith

end Double

end NatcpSpec.Server
