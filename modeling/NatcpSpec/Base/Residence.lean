import Mathlib.Algebra.BigOperators.Group.List.Basic
import Mathlib.Tactic

/-!
# Residence

Items that enter at a time and may leave at a later one, with a weight. What is present at a
time is what has entered before it less what has left before it, and over whole numbers the
weights present at all times add up to the weights times the lengths of stay.
-/

namespace NatcpSpec.Base

/-- One item: when it enters, when it leaves, if it does, and its weight. -/
structure Stay (τ : Type) [LinearOrder τ] where
  entered : τ
  left : Option τ
  weight : ℕ
  causal : ∀ t ∈ left, entered ≤ t

namespace Stay

variable {τ : Type} [LinearOrder τ]

/-- The item has left before a time. -/
def leftBefore (s : Stay τ) (t : τ) : Bool := s.left.any (· < t)

/-- The item has entered before a time and not left before it. -/
def present (s : Stay τ) (t : τ) : Bool := s.entered < t && !s.leftBefore t

/-- The weight of some of the items. -/
def weightWhere (p : Stay τ → Bool) (ss : List (Stay τ)) : ℕ := ((ss.filter p).map weight).sum

/-- The weight of the items that are present. -/
def weightAt (ss : List (Stay τ)) (t : τ) : ℕ := weightWhere (present · t) ss

/-- One item more. -/
theorem weightWhere_cons (p : Stay τ → Bool) (s : Stay τ) (ss : List (Stay τ)) :
    weightWhere p (s :: ss) = (if p s then s.weight else 0) + weightWhere p ss := by
  unfold weightWhere
  by_cases h : p s = true
  · simp [h]
  · simp [h]

/-- What has left has entered. -/
theorem entered_lt_of_leftBefore {s : Stay τ} {t : τ} (h : s.leftBefore t = true) :
    s.entered < t := by
  rcases hleft : s.left with _ | l
  · simp [leftBefore, hleft] at h
  · have hlt : l < t := by simpa [leftBefore, hleft] using h
    exact (s.causal l hleft).trans_lt hlt

/-- What has entered is what has left and what is present. -/
theorem weightWhere_entered (ss : List (Stay τ)) (t : τ) :
    weightWhere (fun s ↦ s.entered < t) ss = weightWhere (leftBefore · t) ss + weightAt ss t := by
  induction ss with
  | nil => rfl
  | cons s ss ih =>
    rw [weightAt, weightWhere_cons, weightWhere_cons, weightWhere_cons, ih, weightAt]
    by_cases hleft : s.leftBefore t = true
    · simp [present, hleft, entered_lt_of_leftBefore hleft]
      omega
    · by_cases hlt : s.entered < t
      · simp [present, hleft, hlt]
        omega
      · simp [present, hleft, hlt]

/-! ### Whole numbers -/

private theorem sum_present (s : Stay ℤ) {l a : ℤ} (hl : s.left = some l) (ha : a ≤ s.entered)
    (n : ℕ) :
    ((List.range n).map (fun i : ℕ ↦ if s.present (a + i + 1) then s.weight else 0)).sum =
      s.weight * (min l (a + n) - s.entered).toNat := by
  have hcausal := s.causal l hl
  induction n with
  | zero =>
    have hzero : (min l (a + (0 : ℕ)) - s.entered).toNat = 0 := by omega
    rw [hzero]
    rfl
  | succ n ih =>
    rw [List.range_succ, List.map_append, List.sum_append, ih, List.map_singleton,
      List.sum_singleton]
    by_cases hp : s.entered < a + n + 1 ∧ a + n + 1 ≤ l
    · have hpresent : s.present (a + n + 1) = true := by
        simp only [present, leftBefore, hl, Option.any_some, Bool.and_eq_true, Bool.not_eq_true',
          decide_eq_true_eq, decide_eq_false_iff_not]
        omega
      have hstep : (min l (a + (n + 1 : ℕ)) - s.entered).toNat =
          (min l (a + n) - s.entered).toNat + 1 := by
        push_cast
        omega
      rw [if_pos hpresent, hstep, Nat.mul_succ]
    · have hpresent : s.present (a + n + 1) = false := by
        simp only [present, leftBefore, hl, Option.any_some, Bool.and_eq_false_iff,
          Bool.not_eq_false', decide_eq_true_eq, decide_eq_false_iff_not]
        omega
      have hstep : (min l (a + (n + 1 : ℕ)) - s.entered).toNat =
          (min l (a + n) - s.entered).toNat := by
        push_cast
        omega
      rw [if_neg (by simp [hpresent]), hstep, Nat.add_zero]

/-- The weights present at the times after `a`, up to one by which all items have left, add
up to the weights times the lengths of stay. -/
theorem sum_weightAt (ss : List (Stay ℤ)) (a : ℤ) (n : ℕ)
    (h : ∀ s ∈ ss, ∃ l, s.left = some l ∧ a ≤ s.entered ∧ l ≤ a + n) :
    ((List.range n).map (fun i : ℕ ↦ weightAt ss (a + i + 1))).sum =
      (ss.map (fun s ↦ s.weight * (s.left.getD s.entered - s.entered).toNat)).sum := by
  induction ss with
  | nil => simp [weightAt, weightWhere]
  | cons s ss ih =>
    obtain ⟨l, hl, ha, hn⟩ := h s List.mem_cons_self
    have hrest := ih (fun s' hs' ↦ h s' (List.mem_cons_of_mem _ hs'))
    have hsplit : (fun i : ℕ ↦ weightAt (s :: ss) (a + i + 1)) =
        fun i : ℕ ↦ (if s.present (a + i + 1) then s.weight else 0) + weightAt ss (a + i + 1) := by
      funext i
      exact weightWhere_cons _ s ss
    rw [hsplit, List.sum_map_add, sum_present s hl ha, hrest, List.map_cons, List.sum_cons, hl,
      Option.getD_some, min_eq_left hn]

end Stay

end NatcpSpec.Base
