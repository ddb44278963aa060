import Mathlib.Data.Nat.Notation

/-!
# Runs of labelled transitions

A system is a relation between states, with an action on every step. A run has the actions
of its steps in order; any interleaving of several threads is a run of the union of their
steps.
-/

namespace NatcpSpec.Base

variable {σ α : Type}

/-- Steps one after the other, from one state to another. -/
inductive Run (step : σ → α → σ → Prop) : σ → List α → σ → Prop where
  | nil (s : σ) : Run step s [] s
  | cons {s t u : σ} {a : α} {as : List α} (h : step s a t) (run : Run step t as u) :
      Run step s (a :: as) u

namespace Run

variable {step : σ → α → σ → Prop} {s t u : σ} {as bs : List α}

/-- One step is a run. -/
theorem single {a : α} (h : step s a t) : Run step s [a] t := .cons h (.nil t)

/-- A run goes on where another one ends. -/
theorem append (h : Run step s as t) (h' : Run step t bs u) : Run step s (as ++ bs) u := by
  induction h with
  | nil s => exact h'
  | cons hstep _ ih => exact .cons hstep (ih h')

/-- A run of a system is a run of any system with more steps. -/
theorem mono {step' : σ → α → σ → Prop} (hstep : ∀ s a t, step s a t → step' s a t)
    (h : Run step s as t) : Run step' s as t := by
  induction h with
  | nil s => exact .nil s
  | cons hs _ ih => exact .cons (hstep _ _ _ hs) ih

/-- Every action of a run is a step from a state where the invariant holds. -/
theorem exists_step (inv : σ → Prop) (hstep : ∀ s a t, inv s → step s a t → inv t)
    (h0 : inv s) (h : Run step s as t) {a : α} (ha : a ∈ as) :
    ∃ s' t', inv s' ∧ step s' a t' := by
  induction h with
  | nil s => cases ha
  | @cons s t u b bs hb _ ih =>
    rcases List.mem_cons.mp ha with rfl | ha
    · exact ⟨s, t, h0, hb⟩
    · exact ih (hstep s b t h0 hb) ha

/-- What holds of the actions made so far and the state they led to, if every step keeps it. -/
theorem history (inv : List α → σ → Prop) (h0 : inv [] s)
    (hstep : ∀ as s a t, inv as s → step s a t → inv (as ++ [a]) t) (h : Run step s as t) :
    inv as t := by
  have hafter : ∀ bs, inv bs s → inv (bs ++ as) t := by
    clear h0
    induction h with
    | nil s =>
      intro bs hb
      rwa [List.append_nil]
    | @cons s t u a as hs _ ih =>
      intro bs hb
      rw [← List.singleton_append, ← List.append_assoc]
      exact ih _ (hstep bs s a t hb hs)
  exact hafter [] h0

/-- A run of actions in two parts passes through a state between them. -/
theorem of_append (h : Run step s (as ++ bs) u) : ∃ t, Run step s as t ∧ Run step t bs u := by
  induction as generalizing s with
  | nil => exact ⟨s, .nil s, h⟩
  | cons a as ih =>
    cases h with
    | cons hs run =>
      obtain ⟨t, hfirst, hsecond⟩ := ih run
      exact ⟨t, .cons hs hfirst, hsecond⟩

/-- A test of the actions that the state keeps account of, from states of the invariant. -/
theorem any_eq (inv : σ → Prop) (hinv : ∀ s a t, inv s → step s a t → inv t) (f : α → Bool)
    (p : σ → Bool) (hstep : ∀ s a t, inv s → step s a t → p t = (p s || f a)) (h0 : inv s)
    (hp : p s = false) (h : Run step s as t) : as.any f = p t := by
  have hboth : inv t ∧ as.any f = p t := by
    refine h.history (fun as t ↦ inv t ∧ as.any f = p t) ⟨h0, hp.symm⟩ ?_
    rintro as s a t ⟨hs, hany⟩ hst
    refine ⟨hinv s a t hs hst, ?_⟩
    rw [List.any_append, hany, hstep s a t hs hst]
    simp
  exact hboth.2

/-- A run is no longer than a measure that pays for every step from a state of the
invariant. -/
theorem length_le (inv : σ → Prop) (measure : σ → ℕ)
    (hstep : ∀ s a t, inv s → step s a t → inv t ∧ measure t < measure s)
    (h0 : inv s) (h : Run step s as t) : as.length + measure t ≤ measure s := by
  induction h with
  | nil s => simp
  | @cons s t u a as hs _ ih =>
    obtain ⟨ht, hlt⟩ := hstep s a t h0 hs
    have := ih ht
    simp only [List.length_cons]
    omega

end Run

end NatcpSpec.Base
