import Mathlib.Data.Rat.Floor
import Mathlib.Tactic

/-!
# Fixed-width integers and truncation

Integer types are read as integers that are reduced after each operation, or as `UInt64`
where the value is always unsigned. Conversion of a double to an integer truncates toward
zero.
-/

namespace NatcpSpec.Base

/-! ### Ranges and reduction -/

/-- Representable in a signed 32-bit integer. -/
def InInt32 (n : ℤ) : Prop := -2 ^ 31 ≤ n ∧ n < 2 ^ 31

/-- Representable in a signed 64-bit integer. -/
def InInt64 (n : ℤ) : Prop := -2 ^ 63 ≤ n ∧ n < 2 ^ 63

instance (n : ℤ) : Decidable (InInt32 n) := inferInstanceAs (Decidable (_ ∧ _))

instance (n : ℤ) : Decidable (InInt64 n) := inferInstanceAs (Decidable (_ ∧ _))

/-- Two's complement reduction to a signed 32-bit integer. -/
def int32 (n : ℤ) : ℤ := n.bmod (2 ^ 32)

/-- Reduction to an unsigned 32-bit integer. -/
def uint32 (n : ℤ) : ℤ := n % 2 ^ 32

/-- Reduction to an unsigned 64-bit integer. -/
def uint64 (n : ℤ) : UInt64 := UInt64.ofNat (n % 2 ^ 64).toNat

/-- A representable value is its own reduction. -/
theorem int32_of_inInt32 {n : ℤ} (h : InInt32 n) : int32 n = n := by
  apply Int.bmod_eq_of_le
  · have := h.1
    norm_num
    omega
  · have := h.2
    norm_num
    omega

/-- Signed reduction is always representable. -/
theorem inInt32_int32 (n : ℤ) : InInt32 (int32 n) := by
  unfold InInt32 int32
  rw [Int.bmod_def]
  have hl : 0 ≤ n % ((2 ^ 32 : ℕ) : ℤ) := Int.emod_nonneg _ (by norm_num)
  have hu : n % ((2 ^ 32 : ℕ) : ℤ) < ((2 ^ 32 : ℕ) : ℤ) := Int.emod_lt_of_pos _ (by norm_num)
  norm_num at hl hu ⊢
  split <;> omega

/-- Signed and unsigned 32-bit reductions agree modulo the word size. -/
theorem uint32_int32 (n : ℤ) : uint32 (int32 n) = uint32 n := by
  unfold uint32 int32
  exact Int.bmod_emod ..

/-- The unsigned 64-bit value of an integer is its residue. -/
theorem toNat_uint64 (n : ℤ) : ((uint64 n).toNat : ℤ) = n % 2 ^ 64 := by
  have hl : 0 ≤ n % 2 ^ 64 := Int.emod_nonneg _ (by norm_num)
  have hu : n % 2 ^ 64 < 2 ^ 64 := Int.emod_lt_of_pos _ (by norm_num)
  have hn : (n % 2 ^ 64).toNat < 2 ^ 64 := by omega
  rw [uint64, UInt64.toNat_ofNat_of_lt' hn, Int.toNat_of_nonneg hl]

/-- Wrapping subtraction of 64-bit words is the residue of the difference. -/
theorem toNat_sub_emod (a b : UInt64) :
    ((a - b).toNat : ℤ) = ((a.toNat : ℤ) - b.toNat) % 2 ^ 64 := by
  have ha := a.toNat_lt
  have hb := b.toNat_lt
  rw [UInt64.toNat_sub]
  omega

/-! ### Truncation -/

/-- The integer part of an exact rational, dropping the fraction toward zero. -/
def trunc (q : ℚ) : ℤ := q.num.tdiv q.den

/-- Truncation keeps an integer. -/
theorem trunc_intCast (n : ℤ) : trunc n = n := by
  simp [trunc]

/-- Truncation of a nonnegative value is its floor. -/
theorem trunc_of_nonneg {q : ℚ} (h : 0 ≤ q) : trunc q = ⌊q⌋ := by
  rw [trunc, Rat.floor_def', Int.tdiv_eq_ediv_of_nonneg (Rat.num_nonneg.mpr h)]

/-- Truncation commutes with negation. -/
theorem trunc_neg (q : ℚ) : trunc (-q) = -trunc q := by
  rw [trunc, trunc, Rat.num_neg_eq_neg_num, Rat.den_neg_eq_den, Int.neg_tdiv]

/-- Truncation of a nonnegative value is nonnegative. -/
theorem trunc_nonneg {q : ℚ} (h : 0 ≤ q) : 0 ≤ trunc q := by
  rw [trunc_of_nonneg h]
  exact Int.floor_nonneg.mpr h

/-- Truncation moves a value by less than one. -/
theorem abs_sub_trunc_lt (q : ℚ) : |q - trunc q| < 1 := by
  have nonneg (p : ℚ) (hp : 0 ≤ p) : |p - trunc p| < 1 := by
    rw [trunc_of_nonneg hp, Int.self_sub_floor, abs_of_nonneg (Int.fract_nonneg p)]
    exact Int.fract_lt_one p
  rcases le_total 0 q with h | h
  · exact nonneg q h
  · have hn := nonneg (-q) (neg_nonneg.mpr h)
    rw [trunc_neg, Int.cast_neg, ← neg_sub', abs_neg] at hn
    exact hn

/-- Truncation of a value of at most zero is at most zero. -/
theorem trunc_nonpos {q : ℚ} (h : q ≤ 0) : trunc q ≤ 0 := by
  have hn := trunc_nonneg (neg_nonneg.mpr h)
  rw [trunc_neg] at hn
  omega

/-- Truncation preserves order. -/
theorem trunc_mono {p q : ℚ} (h : p ≤ q) : trunc p ≤ trunc q := by
  rcases le_total 0 p with hp | hp
  · rw [trunc_of_nonneg hp, trunc_of_nonneg (hp.trans h)]
    exact Int.floor_le_floor h
  · rcases le_total 0 q with hq | hq
    · exact (trunc_nonpos hp).trans (trunc_nonneg hq)
    · have hf := Int.floor_le_floor (neg_le_neg h)
      rw [← trunc_of_nonneg (neg_nonneg.mpr hq), ← trunc_of_nonneg (neg_nonneg.mpr hp),
        trunc_neg, trunc_neg] at hf
      omega

end NatcpSpec.Base
