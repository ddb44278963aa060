import NatcpSpec.Base.Arith
import Mathlib.Data.List.Sort
import Mathlib.Data.Prod.Lex

/-!
# Doubles with infinities

What a text that is read as a double may leave: a rational, an infinity, or a NaN. They are put
in one order with the NaN last. Comparisons of a program are those of the order between numbers,
and none of them holds of a NaN.
-/

namespace NatcpSpec.Base

/-- What a double holds. -/
inductive Number where
  | finite (q : ℚ)
  | inf (neg : Bool)
  | nan
deriving DecidableEq

namespace Number

/-! ### Numerals -/

/-- The magnitude from which on a numeral is rounded to an infinity. -/
def overflow : ℚ := 2 ^ 1024 - 2 ^ 970

/-- The double that a numeral is read as. -/
def ofNumeral (c : Arith) (q : ℚ) : Number :=
  if |q| < overflow then .finite (c.round q) else .inf (q < 0)

/-- A numeral in range is finite. -/
theorem ofNumeral_of_lt (c : Arith) {q : ℚ} (h : |q| < overflow) :
    ofNumeral c q = .finite (c.round q) := if_pos h

/-- The rational, if it is one. -/
def toRat? : Number → Option ℚ
  | .finite q => some q
  | _ => none

@[simp] theorem toRat?_finite (q : ℚ) : (finite q).toRat? = some q := rfl

/-! ### Order -/

private def place : Number → ℕ ×ₗ ℚ
  | .inf true => toLex (0, 0)
  | .finite q => toLex (1, q)
  | .inf false => toLex (2, 0)
  | .nan => toLex (3, 0)

private theorem place_injective : Function.Injective place := by
  intro a b h
  rcases a with a | (_ | _) | _ <;> rcases b with b | (_ | _) | _ <;> simp_all [place]

instance : LinearOrder Number := LinearOrder.lift' place place_injective

@[simp]
theorem finite_le_finite (a b : ℚ) : finite a ≤ finite b ↔ a ≤ b := by
  change place (finite a) ≤ place (finite b) ↔ a ≤ b
  simp [place, Prod.Lex.toLex_le_toLex]

@[simp]
theorem finite_lt_finite (a b : ℚ) : finite a < finite b ↔ a < b := by
  rw [← not_le, finite_le_finite, not_le]

theorem le_nan (a : Number) : a ≤ .nan := by
  change place a ≤ place .nan
  rcases a with a | (_ | _) | _ <;> simp [place, Prod.Lex.toLex_le_toLex]

/-- The comparison `a < b` of a program. -/
def lessThan (a b : Number) : Bool := a < b ∧ b ≠ .nan

/-- The comparison `a >= b` of a program. -/
def atLeast (a b : Number) : Bool := b ≤ a ∧ a ≠ .nan

@[simp]
theorem lessThan_finite (a b : ℚ) : (finite a).lessThan (finite b) = decide (a < b) := by
  simp [lessThan]

@[simp]
theorem atLeast_finite (a b : ℚ) : (finite a).atLeast (finite b) = decide (b ≤ a) := by
  simp [atLeast]

@[simp]
theorem nan_atLeast (a : Number) : nan.atLeast a = false := by
  simp [atLeast]

@[simp]
theorem atLeast_nan (a : Number) : a.atLeast .nan = false := by
  simp only [atLeast, decide_eq_false_iff_not]
  rintro ⟨hle, hne⟩
  exact hne ((le_nan a).antisymm hle)

/-! ### Arithmetic -/

/-- The sum of two doubles. -/
def add (c : Arith) : Number → Number → Number
  | .finite a, .finite b => .finite (c.round (a + b))
  | .nan, _ => .nan
  | _, .nan => .nan
  | .inf s, .inf t => if s = t then .inf s else .nan
  | .inf s, .finite _ => .inf s
  | .finite _, .inf t => .inf t

/-- The opposite of a double. -/
def neg : Number → Number
  | .finite q => .finite (-q)
  | .inf s => .inf !s
  | .nan => .nan

/-- The difference of two doubles. -/
def sub (c : Arith) (a b : Number) : Number := add c a b.neg

/-- A double divided by a count. -/
def divNat (c : Arith) (n : ℕ) : Number → Number
  | .finite q => .finite (c.round (q / n))
  | a => a

@[simp]
theorem add_finite (c : Arith) (a b : ℚ) :
    add c (.finite a) (.finite b) = .finite (c.round (a + b)) := rfl

@[simp]
theorem sub_finite (c : Arith) (a b : ℚ) :
    sub c (.finite a) (.finite b) = .finite (c.round (a - b)) := by
  rw [sub, neg, add_finite, sub_eq_add_neg]

/-- A difference from a rational is only a NaN if a NaN is subtracted. -/
theorem eq_nan_of_sub (c : Arith) {a : ℚ} {b : Number} (h : sub c (.finite a) b = .nan) :
    b = .nan := by
  rcases b with b | s | _
  · rw [sub_finite] at h
    cases h
  · cases h
  · rfl

@[simp]
theorem divNat_finite (c : Arith) (n : ℕ) (q : ℚ) :
    divNat c n (.finite q) = .finite (c.round (q / n)) := rfl

/-- The sum of rationals is exact in exact arithmetic. -/
theorem foldl_add_exact (a : ℚ) (qs : List ℚ) :
    (qs.map finite).foldl (add .exact) (.finite a) = .finite (a + qs.sum) := by
  induction qs generalizing a with
  | nil => simp
  | cons q qs ih =>
    rw [List.map_cons, List.foldl_cons, add_finite, Arith.exact_round, ih, List.sum_cons, add_assoc]

end Number

/-! ### Sorting -/

/-- A numerical sort. With a NaN among the numbers, which is neither less than another number nor
greater, nothing is known of the order that it leaves them in. -/
structure NumberSort where
  sort : List Number → List Number
  perm : ∀ xs, (sort xs).Perm xs
  sorted : ∀ xs, .nan ∉ xs → (sort xs).Pairwise (· ≤ ·)

namespace NumberSort

/-- The sort that puts every NaN last. -/
def insertion : NumberSort where
  sort xs := xs.insertionSort (· ≤ ·)
  perm xs := List.perm_insertionSort (· ≤ ·) xs
  sorted xs _ := List.pairwise_insertionSort (· ≤ ·) xs

/-- Numbers in order are in the only order there is. -/
theorem sort_eq (s : NumberSort) {xs : List Number} (h : .nan ∉ xs) :
    s.sort xs = xs.insertionSort (· ≤ ·) := by
  refine List.Perm.eq_of_pairwise' (s.sorted xs h) (List.pairwise_insertionSort _ _) ?_
  exact (s.perm xs).trans (List.perm_insertionSort _ _).symm

/-- Of two lists of the same numbers the sort leaves the same. -/
theorem sort_perm (s : NumberSort) {xs ys : List Number} (hperm : xs.Perm ys) (h : .nan ∉ xs) :
    s.sort xs = s.sort ys := by
  refine List.Perm.eq_of_pairwise' (s.sorted xs h)
    (s.sorted ys (fun hy ↦ h (hperm.mem_iff.mpr hy))) ?_
  exact (s.perm xs).trans (hperm.trans (s.perm ys).symm)

end NumberSort

end NatcpSpec.Base
