import Mathlib.Data.List.AList

/-!
# Tallies

A hash of counts that are only ever added to. A key is present from its first addition on,
also if nothing but zeros was added.
-/

namespace NatcpSpec.Base

/-- Counts by key. -/
abbrev Tally (κ : Type) := AList (fun _ : κ ↦ ℕ)

namespace Tally

variable {κ : Type} [DecidableEq κ]

/-- The count of a key, zero where it is absent. -/
def count (h : Tally κ) (k : κ) : ℕ := (h.lookup k).getD 0

/-- Add to the count of a key. -/
def add (h : Tally κ) (k : κ) (n : ℕ) : Tally κ := h.insert k (h.count k + n)

/-- An addition counts for its key. -/
theorem count_add (h : Tally κ) (k j : κ) (n : ℕ) :
    (h.add k n).count j = h.count j + if k = j then n else 0 := by
  unfold add
  by_cases hkj : k = j
  · subst hkj
    rw [count, AList.lookup_insert, if_pos rfl]
    rfl
  · rw [count, AList.lookup_insert_ne (Ne.symm hkj), if_neg hkj, Nat.add_zero]
    rfl

/-- An addition makes its key present. -/
theorem mem_keys_add (h : Tally κ) (k j : κ) (n : ℕ) :
    j ∈ (h.add k n).keys ↔ k = j ∨ j ∈ h.keys := by
  rw [← AList.mem_keys, ← AList.mem_keys, add, AList.mem_insert, eq_comm]

end Tally

end NatcpSpec.Base
