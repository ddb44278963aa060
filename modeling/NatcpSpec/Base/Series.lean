import Mathlib.Data.List.AList
import Mathlib.Order.Bounds.Basic
import Mathlib.Tactic

/-!
# Series with holes

A hash of values by time. Values are entered in any order, the least one of a time is kept,
and afterwards the holes are filled one after the other, each from another entry.
-/

namespace NatcpSpec.Base

/-- Values by key. -/
abbrev Series (κ α : Type) := AList (fun _ : κ ↦ α)

namespace Series

variable {κ α : Type} [DecidableEq κ]

/-! ### Least values -/

section Least

variable [LinearOrder α]

/-- Enter a value; the lesser one is kept where there is one already. -/
def lower (s : Series κ α) (k : κ) (v : α) : Series κ α :=
  s.insert k ((s.lookup k).elim v (min v))

/-- The series of some entries. -/
def ofEntries (xs : List (κ × α)) : Series κ α := xs.foldl (fun s x ↦ s.lower x.1 x.2) ∅

private theorem ofEntries_snoc (xs : List (κ × α)) (k : κ) (v : α) :
    ofEntries (xs ++ [(k, v)]) = (ofEntries xs).lower k v := by
  rw [ofEntries, List.foldl_append]
  rfl

private theorem ofEntries_spec (xs : List (κ × α)) (k : κ) :
    ((ofEntries xs).lookup k).elim (∀ w, (k, w) ∉ xs) (IsLeast { w | (k, w) ∈ xs }) := by
  induction xs using List.reverseRecOn with
  | nil => simp [ofEntries]
  | append_singleton xs x ih =>
    obtain ⟨j, w⟩ := x
    rw [ofEntries_snoc, lower]
    by_cases hkj : k = j
    · subst hkj
      have hset : { u | (k, u) ∈ xs ++ [(k, w)] } = insert w { u | (k, u) ∈ xs } := by
        ext u
        simp [or_comm]
      rw [AList.lookup_insert, Option.elim_some, hset]
      cases hlookup : (ofEntries xs).lookup k with
      | none =>
        rw [hlookup, Option.elim_none] at ih
        have hempty : { u | (k, u) ∈ xs } = ∅ := Set.eq_empty_of_forall_notMem ih
        rw [hempty, Option.elim_none, insert_empty_eq]
        exact isLeast_singleton
      | some u =>
        rw [hlookup, Option.elim_some] at ih
        exact ih.insert w
    · rw [AList.lookup_insert_ne hkj]
      simpa [hkj] using ih

/-- Each key has the least of its values. -/
theorem lookup_ofEntries_eq_some (xs : List (κ × α)) (k : κ) (v : α) :
    (ofEntries xs).lookup k = some v ↔ IsLeast { w | (k, w) ∈ xs } v := by
  have hspec := ofEntries_spec xs k
  cases hlookup : (ofEntries xs).lookup k with
  | none =>
    rw [hlookup, Option.elim_none] at hspec
    exact iff_of_false (by simp) (fun h ↦ hspec v h.1)
  | some u =>
    rw [hlookup, Option.elim_some] at hspec
    rw [Option.some.injEq]
    exact ⟨fun h ↦ h ▸ hspec, fun h ↦ hspec.unique h⟩

/-- A key is absent if it has no value. -/
theorem lookup_ofEntries_eq_none (xs : List (κ × α)) (k : κ) :
    (ofEntries xs).lookup k = none ↔ ∀ w, (k, w) ∉ xs := by
  have hspec := ofEntries_spec xs k
  cases hlookup : (ofEntries xs).lookup k with
  | none =>
    rw [hlookup, Option.elim_none] at hspec
    exact iff_of_true rfl hspec
  | some u =>
    rw [hlookup, Option.elim_some] at hspec
    exact iff_of_false (by simp) (fun h ↦ h u hspec.1)

/-- The keys are those of the entries. -/
theorem mem_keys_ofEntries (xs : List (κ × α)) (k : κ) :
    k ∈ (ofEntries xs).keys ↔ ∃ w, (k, w) ∈ xs := by
  rw [← AList.mem_keys, ← not_iff_not, ← AList.lookup_eq_none, lookup_ofEntries_eq_none]
  push Not
  rfl

end Least

/-! ### Holes -/

section Holes

variable (next : Option α → α)

/-- Fill the hole at a key from the entry of another key. -/
def fillStep (s : Series κ α) (k above : κ) : Series κ α :=
  if (s.lookup k).isSome then s else s.insert k (next (s.lookup above))

/-- Fill the holes at some keys one after the other. With each key goes the one that it is
filled from. -/
def fill (ks : List (κ × κ)) (s : Series κ α) : Series κ α :=
  ks.foldl (fun s k ↦ fillStep next s k.1 k.2) s

private theorem lookup_fillStep_of_ne {k j : κ} (h : j ≠ k) (above : κ) (s : Series κ α) :
    (fillStep next s k above).lookup j = s.lookup j := by
  unfold fillStep
  split
  · rfl
  · exact AList.lookup_insert_ne h

private theorem lookup_fillStep (k above : κ) (s : Series κ α) :
    (fillStep next s k above).lookup k = some ((s.lookup k).getD (next (s.lookup above))) := by
  unfold fillStep
  cases hk : s.lookup k with
  | none => simp
  | some v => simp [hk]

/-- Other keys stay as they are. -/
theorem lookup_fill_of_ne {ks : List (κ × κ)} {j : κ} (h : ∀ k ∈ ks, j ≠ k.1) (s : Series κ α) :
    (fill next ks s).lookup j = s.lookup j := by
  induction ks generalizing s with
  | nil => rfl
  | cons k ks ih =>
    rw [List.forall_mem_cons] at h
    rw [fill, List.foldl_cons, ← fill, ih h.2, lookup_fillStep_of_ne next h.1]

/-- What is filled in follows from the entry that it is filled from, if no key comes twice and
none is filled from a key that comes later. -/
theorem lookup_fill {ks : List (κ × κ)}
    (h : ks.Pairwise (fun x y ↦ x.1 ≠ y.1 ∧ x.2 ≠ y.1)) {k above : κ} (hmem : (k, above) ∈ ks)
    (hne : above ≠ k) (s : Series κ α) :
    (fill next ks s).lookup k =
      some ((s.lookup k).getD (next ((fill next ks s).lookup above))) := by
  obtain ⟨before, after, rfl⟩ := List.append_of_mem hmem
  rw [List.pairwise_append, List.pairwise_cons] at h
  obtain ⟨-, ⟨hafter, -⟩, hbefore⟩ := h
  have hsplit : fill next (before ++ (k, above) :: after) s =
      fill next after (fillStep next (fill next before s) k above) := by
    rw [fill, List.foldl_append]
    rfl
  have hkept : (fill next before s).lookup k = s.lookup k := by
    apply lookup_fill_of_ne
    intro x hx
    exact (hbefore x hx (k, above) List.mem_cons_self).1.symm
  rw [hsplit, lookup_fill_of_ne next (fun x hx ↦ (hafter x hx).1),
    lookup_fill_of_ne next (fun x hx ↦ (hafter x hx).2), lookup_fillStep_of_ne next hne,
    lookup_fillStep, hkept]

end Holes

end Series

end NatcpSpec.Base
