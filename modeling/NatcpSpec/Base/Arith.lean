import NatcpSpec.Base.Double

/-!
# Arithmetic on doubles

Doubles are read as rationals. What an operation on them yields, given its exact result, is a
parameter: exact arithmetic keeps the result and amd64 rounds it to the nearest double. So is
the conversion to an integer, which truncates toward zero. The language leaves a truncated
value outside the target type undefined, so a conversion is only fixed on its range.

Infinities and NaNs are no rationals. A program that only converts its results to integers
does not tell them from results that are out of range.
-/

namespace NatcpSpec.Base

/-- What an operation on doubles yields for its exact result, and what converting a double to
`int` and to `int64_t` yields. A truncated value that the target represents is the result; any
other conversion is undefined and left open. -/
structure Arith where
  round : ℚ → ℚ
  toInt : ℚ → ℤ
  toInt64 : ℚ → ℤ
  toInt_eq : ∀ q, InInt32 (trunc q) → toInt q = trunc q
  toInt64_eq : ∀ q, InInt64 (trunc q) → toInt64 q = trunc q

namespace Arith

/-- Exact arithmetic: nothing is rounded and every conversion truncates. -/
def exact : Arith where
  round q := q
  toInt := trunc
  toInt64 := trunc
  toInt_eq _ _ := rfl
  toInt64_eq _ _ := rfl

/-- The instructions of amd64: results are rounded to 53 bits, and a conversion out of range
yields the least value of the type. -/
def amd64 : Arith where
  round := roundDouble
  toInt q := if InInt32 (trunc q) then trunc q else -2 ^ 31
  toInt64 q := if InInt64 (trunc q) then trunc q else -2 ^ 63
  toInt_eq _ h := if_pos h
  toInt64_eq _ h := if_pos h

/-- The conversions of amd64 on results that are not rounded. -/
def amd64Casts : Arith := { amd64 with round := fun q ↦ q }

@[simp] theorem exact_round (q : ℚ) : exact.round q = q := rfl

@[simp] theorem exact_toInt (q : ℚ) : exact.toInt q = trunc q := rfl

@[simp] theorem exact_toInt64 (q : ℚ) : exact.toInt64 q = trunc q := rfl

@[simp] theorem amd64_round (q : ℚ) : amd64.round q = roundDouble q := rfl

/-- An operation yields zero only where its exact result is zero. -/
def KeepsZero (c : Arith) : Prop := ∀ q, c.round q = 0 ↔ q = 0

theorem exact_keepsZero : exact.KeepsZero := fun _ ↦ Iff.rfl

theorem amd64_keepsZero : amd64.KeepsZero := fun _ ↦ roundDouble_eq_zero_iff

/-- An amd64 `int` above the least value comes from a value in range. -/
theorem inInt32_of_lt_amd64_toInt {q : ℚ} {n : ℤ} (hn : -2 ^ 31 ≤ n)
    (h : n < amd64.toInt q) : InInt32 (trunc q) := by
  by_contra hr
  have he : amd64.toInt q = -2 ^ 31 := if_neg hr
  omega

/-- Every amd64 `int` is representable. -/
theorem inInt32_amd64_toInt (q : ℚ) : InInt32 (amd64.toInt q) := by
  by_cases h : InInt32 (trunc q)
  · rw [amd64.toInt_eq q h]
    exact h
  · have he : amd64.toInt q = -2 ^ 31 := if_neg h
    rw [he]
    decide

end Arith
end NatcpSpec.Base
