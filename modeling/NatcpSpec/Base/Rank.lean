import Mathlib.Data.List.Sort
import Mathlib.Tactic

/-!
# Percentiles

An element of a sorted list by its index, and what it says about the list in any order: how
many elements are below it and how many are not above it.
-/

namespace NatcpSpec.Base

variable {α : Type} [LinearOrder α]

/-- The element at `p` hundredths of a list in order. -/
def percentile? (p : ℕ) (xs : List α) : Option α :=
  (xs.insertionSort (· ≤ ·))[p * xs.length / 100]?

/-- At most `p` hundredths of the elements are below an element of the list, and more than
that are not above it. -/
structure IsPercentile (p : ℕ) (xs : List α) (x : α) : Prop where
  mem : x ∈ xs
  below : 100 * xs.countP (· < x) ≤ p * xs.length
  upTo : p * xs.length < 100 * xs.countP (· ≤ x)

private theorem countP_lt_getElem {xs : List α} (h : xs.SortedLE) {i : ℕ} (hi : i < xs.length) :
    xs.countP (· < xs[i]) ≤ i := by
  have hrest : (xs.drop i).countP (· < xs[i]) = 0 := by
    rw [List.countP_eq_zero]
    intro x hx
    obtain ⟨j, hj, rfl⟩ := List.getElem_of_mem hx
    rw [List.getElem_drop, decide_eq_true_eq, not_lt]
    exact h.getElem_le_getElem_of_le (Nat.le_add_right i j)
  calc xs.countP (· < xs[i])
      = (xs.take i).countP (· < xs[i]) + (xs.drop i).countP (· < xs[i]) := by
        rw [← List.countP_append, List.take_append_drop]
    _ ≤ (xs.take i).length := by
        rw [hrest, Nat.add_zero]
        exact List.countP_le_length
    _ ≤ i := List.length_take_le i xs

private theorem lt_countP_getElem {xs : List α} (h : xs.SortedLE) {i : ℕ} (hi : i < xs.length) :
    i < xs.countP (· ≤ xs[i]) := by
  have hfirst : (xs.take (i + 1)).countP (· ≤ xs[i]) = (xs.take (i + 1)).length := by
    rw [List.countP_eq_length]
    intro x hx
    obtain ⟨j, hj, rfl⟩ := List.getElem_of_mem hx
    rw [List.length_take] at hj
    rw [List.getElem_take, decide_eq_true_eq]
    exact h.getElem_le_getElem_of_le (by omega)
  have hle := (List.take_sublist (i + 1) xs).countP_le (p := (· ≤ xs[i]))
  rw [hfirst, List.length_take] at hle
  omega

/-- What is found is a percentile. -/
theorem isPercentile_of_percentile? {p : ℕ} {xs : List α} {x : α}
    (h : percentile? p xs = some x) : IsPercentile p xs x := by
  have hperm := List.perm_insertionSort (· ≤ ·) xs
  have hsorted : (xs.insertionSort (· ≤ ·)).SortedLE := List.sortedLE_insertionSort
  obtain ⟨hi, rfl⟩ := List.getElem?_eq_some_iff.mp h
  have hbelow := countP_lt_getElem hsorted hi
  have hupTo := lt_countP_getElem hsorted hi
  rw [hperm.countP_eq] at hbelow hupTo
  refine ⟨hperm.mem_iff.mp (List.getElem_mem hi), ?_, ?_⟩
  · omega
  · omega

/-- Below a hundred, there is one in every list that is not empty. -/
theorem exists_percentile? {p : ℕ} (hp : p < 100) {xs : List α} (h : xs ≠ []) :
    ∃ x, percentile? p xs = some x := by
  have hpos := List.length_pos_iff.mpr h
  refine ⟨_, List.getElem?_eq_getElem ?_⟩
  rw [List.length_insertionSort, Nat.div_lt_iff_lt_mul (by decide), mul_comm]
  exact Nat.mul_lt_mul_of_pos_left hp hpos

end NatcpSpec.Base
