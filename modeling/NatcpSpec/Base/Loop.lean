import Mathlib.Algebra.BigOperators.Group.List.Basic
import Mathlib.Tactic

/-!
# Loops driven by an environment

A loop body reads the environment through the number of the pass it is in. It
answers `none` when the loop condition fails at the head of a pass; otherwise it
leaves a record and either goes on from a new state or leaves the loop for good.
Passes are kept with the state at their head, so that an invariant of every head
and a quantity summed over a stretch of passes are both statements about one list.
-/

namespace NatcpSpec.Base

/-- One completed pass: the state at its head, what it recorded, and the state the
loop goes on from, absent when the body left the loop. -/
structure Pass (σ ρ : Type) where
  head : σ
  out : ρ
  next : Option σ

variable {σ ρ : Type}

/-- The passes of a loop from pass number `k` in state `s`, at most `fuel` of them. -/
def passes (body : ℕ → σ → Option (ρ × Option σ)) : ℕ → ℕ → σ → List (Pass σ ρ)
  | 0, _, _ => []
  | fuel + 1, k, s =>
    match body k s with
    | none => []
    | some (out, none) => [⟨s, out, none⟩]
    | some (out, some s') => ⟨s, out, some s'⟩ :: passes body fuel (k + 1) s'

/-- Whether the loop is over within `fuel` tests of its condition. -/
def ended (body : ℕ → σ → Option (ρ × Option σ)) : ℕ → ℕ → σ → Bool
  | 0, _, _ => false
  | fuel + 1, k, s =>
    match body k s with
    | none => true
    | some (_, none) => true
    | some (_, some s') => ended body fuel (k + 1) s'

section Rules

variable {body : ℕ → σ → Option (ρ × Option σ)} {fuel k : ℕ} {s : σ}

/-- The first pass starts in the given state. -/
theorem passes_head {p : Pass σ ρ} (h : (passes body fuel k s)[0]? = some p) : p.head = s := by
  cases fuel with
  | zero => simp [passes] at h
  | succ fuel =>
    rw [passes] at h
    split at h
    · simp at h
    · simp only [List.getElem?_cons_zero, Option.some.injEq] at h
      rw [← h]
    · simp only [List.getElem?_cons_zero, Option.some.injEq] at h
      rw [← h]

/-- Every pass is a run of the body at its own number and head. -/
theorem passes_body {i : ℕ} {p : Pass σ ρ} (h : (passes body fuel k s)[i]? = some p) :
    body (k + i) p.head = some (p.out, p.next) := by
  induction fuel generalizing k s i with
  | zero => simp [passes] at h
  | succ fuel ih =>
    rw [passes] at h
    split at h
    · simp at h
    · next out hb =>
      cases i with
      | zero =>
        simp only [List.getElem?_cons_zero, Option.some.injEq] at h
        rw [← h]
        exact hb
      | succ i => simp at h
    · next out s' hb =>
      cases i with
      | zero =>
        simp only [List.getElem?_cons_zero, Option.some.injEq] at h
        rw [← h]
        exact hb
      | succ i =>
        rw [List.getElem?_cons_succ] at h
        have hi := ih h
        rwa [show k + 1 + i = k + (i + 1) by omega] at hi

/-- A pass goes on exactly to the head of the one after it. -/
theorem passes_next {i : ℕ} {p p' : Pass σ ρ} (h : (passes body fuel k s)[i]? = some p)
    (h' : (passes body fuel k s)[i + 1]? = some p') : p.next = some p'.head := by
  induction fuel generalizing k s i with
  | zero => simp [passes] at h
  | succ fuel ih =>
    rw [passes] at h h'
    split at h
    · simp at h
    · next out hb => simp [hb] at h'
    · next out s' hb =>
      simp only [hb, List.getElem?_cons_succ] at h'
      cases i with
      | zero =>
        simp only [List.getElem?_cons_zero, Option.some.injEq] at h
        rw [← h, passes_head h']
      | succ i =>
        rw [List.getElem?_cons_succ] at h
        exact ih h h'

/-- A loop whose condition holds at the start makes a first pass. -/
theorem passes_zero {out : ρ} {next : Option σ} (hb : body k s = some (out, next))
    (hf : 0 < fuel) : (passes body fuel k s)[0]? = some ⟨s, out, next⟩ := by
  cases fuel with
  | zero => omega
  | succ fuel =>
    rw [passes]
    cases next with
    | none => simp [hb]
    | some s' => simp [hb]

/-- A pass that goes on to a state where the condition holds is followed by another. -/
theorem passes_succ {i : ℕ} {p : Pass σ ρ} {t : σ} {out : ρ} {next : Option σ}
    (h : (passes body fuel k s)[i]? = some p) (hn : p.next = some t)
    (hb : body (k + (i + 1)) t = some (out, next)) (hf : i + 1 < fuel) :
    (passes body fuel k s)[i + 1]? = some ⟨t, out, next⟩ := by
  induction fuel generalizing k s i with
  | zero => omega
  | succ fuel ih =>
    rw [passes] at h ⊢
    split at h
    · simp at h
    · next out' hs =>
      cases i with
      | zero =>
        simp only [List.getElem?_cons_zero, Option.some.injEq] at h
        rw [← h] at hn
        cases hn
      | succ i => simp at h
    · next out' s' hs =>
      rw [List.getElem?_cons_succ]
      cases i with
      | zero =>
        simp only [List.getElem?_cons_zero, Option.some.injEq] at h
        rw [← h, Option.some.injEq] at hn
        rw [hn]
        exact passes_zero hb (by omega)
      | succ i =>
        rw [List.getElem?_cons_succ] at h
        exact ih h (by rwa [show k + 1 + (i + 1) = k + (i + 1 + 1) by omega]) (by omega)

/-- Every pass before a pass of the list is in the list. -/
theorem passes_before {i j : ℕ} {p : Pass σ ρ} (hij : i ≤ j)
    (h : (passes body fuel k s)[j]? = some p) :
    ∃ q, (passes body fuel k s)[i]? = some q := by
  obtain ⟨hj, -⟩ := List.getElem?_eq_some_iff.mp h
  exact ⟨_, List.getElem?_eq_getElem (by omega)⟩

/-- What holds at the start and survives every pass that goes on holds at every head.
The passes already known to be in the list may be used to show that it survives. -/
theorem passes_invariant (inv : ℕ → σ → Prop) (h0 : inv k s)
    (hstep : ∀ i p s', (passes body fuel k s)[i]? = some p → p.next = some s' →
      inv (k + i) p.head → inv (k + i + 1) s')
    {i : ℕ} {p : Pass σ ρ} (h : (passes body fuel k s)[i]? = some p) : inv (k + i) p.head := by
  induction i generalizing p with
  | zero =>
    rw [passes_head h]
    exact h0
  | succ i ih =>
    obtain ⟨q, hq⟩ := passes_before (Nat.le_succ i) h
    exact hstep i q p.head hq (passes_next hq h) (ih hq)

/-- A quantity that each pass of a stretch moves by its own amount has moved by the
sum of these amounts between the heads at the two ends. -/
theorem passes_sum {M : Type} [AddMonoid M] (f : σ → M) (g : Pass σ ρ → M) {i j : ℕ}
    (hij : i ≤ j)
    (hstep : ∀ l p s', i ≤ l → l < j → (passes body fuel k s)[l]? = some p →
      p.next = some s' → f s' = f p.head + g p)
    {p p' : Pass σ ρ} (hp : (passes body fuel k s)[i]? = some p)
    (hp' : (passes body fuel k s)[j]? = some p') :
    f p'.head = f p.head + ((((passes body fuel k s).take j).drop i).map g).sum := by
  induction j, hij using Nat.le_induction generalizing p' with
  | base =>
    have he : p' = p := Option.some.inj (hp'.symm.trans hp)
    rw [List.drop_of_length_le (by simp), he]
    simp
  | succ j hij ih =>
    obtain ⟨q, hq⟩ := passes_before (Nat.le_succ j) hp'
    have hs := hstep j q p'.head hij (Nat.lt_succ_self j) hq (passes_next hq hp')
    have hi := ih (fun l p s' hl hlj ↦ hstep l p s' hl (by omega)) hq
    have hlen : j < (passes body fuel k s).length := (List.getElem?_eq_some_iff.mp hq).1
    rw [List.take_add_one, hq, Option.toList_some, List.drop_append_of_le_length (by
      rw [List.length_take]; omega), List.map_append, List.sum_append, ← add_assoc, ← hi, hs]
    simp

/-- A loop is over if every pass from here on keeps an invariant and decreases a natural
number. -/
theorem ended_of_variant (inv : σ → Prop) (variant : σ → ℕ)
    (hdec : ∀ i, k ≤ i → ∀ t out t', inv t → body i t = some (out, some t') →
      inv t' ∧ variant t' < variant t)
    (hinv : inv s) (hfuel : variant s < fuel) : ended body fuel k s = true := by
  induction fuel generalizing k s with
  | zero => omega
  | succ fuel ih =>
    rw [ended]
    split
    · rfl
    · rfl
    · next out s' hb =>
      have hnext := hdec k le_rfl s out s' hinv hb
      exact ih (fun i hi ↦ hdec i (by omega)) hnext.1 (by omega)

/-- A loop that is over makes the same passes with more fuel. -/
theorem passes_of_ended (h : ended body fuel k s = true) (n : ℕ) :
    passes body (fuel + n) k s = passes body fuel k s := by
  induction fuel generalizing k s with
  | zero => simp [ended] at h
  | succ fuel ih =>
    rw [Nat.succ_add_eq_add_succ, Nat.add_succ, passes, passes]
    rw [ended] at h
    rcases hb : body k s with _ | ⟨out, _ | s'⟩
    · rfl
    · rfl
    · rw [hb] at h
      dsimp only
      rw [ih h]

/-- A loop that is over is over with more fuel. -/
theorem ended_add (h : ended body fuel k s = true) (n : ℕ) :
    ended body (fuel + n) k s = true := by
  induction fuel generalizing k s with
  | zero => simp [ended] at h
  | succ fuel ih =>
    rw [Nat.succ_add_eq_add_succ, Nat.add_succ, ended]
    rw [ended] at h
    rcases hb : body k s with _ | ⟨out, _ | s'⟩
    · rfl
    · rfl
    · rw [hb] at h
      exact ih h

end Rules

/-! ### Stretches of passes -/

/-- The loop makes these passes from pass number `k` in state `s`, and goes on from `t`. -/
inductive Passed (body : ℕ → σ → Option (ρ × Option σ)) (k : ℕ) (s : σ) :
    List (Pass σ ρ) → σ → Prop where
  | nil : Passed body k s [] s
  | snoc {ps : List (Pass σ ρ)} {t t' : σ} {out : ρ} (h : Passed body k s ps t)
      (hb : body (k + ps.length) t = some (out, some t')) :
      Passed body k s (ps ++ [⟨t, out, some t'⟩]) t'

namespace Passed

variable {body body' : ℕ → σ → Option (ρ × Option σ)} {k : ℕ} {s t : σ} {ps : List (Pass σ ρ)}

/-- All passes of the loop are those of the stretch and those made after it. -/
theorem passes_eq (h : Passed body k s ps t) (fuel : ℕ) :
    passes body (ps.length + fuel) k s = ps ++ passes body fuel (k + ps.length) t := by
  induction h generalizing fuel with
  | nil => simp
  | @snoc ps t t' out h hb ih =>
    rw [List.length_append, List.length_singleton, add_assoc, ih (1 + fuel), Nat.add_comm 1 fuel,
      passes, hb]
    simp [add_assoc]

/-- The loop is over when it is over after the stretch. -/
theorem ended_eq (h : Passed body k s ps t) (fuel : ℕ) :
    ended body (ps.length + fuel) k s = ended body fuel (k + ps.length) t := by
  induction h generalizing fuel with
  | nil => simp
  | @snoc ps t t' out h hb ih =>
    rw [List.length_append, List.length_singleton, add_assoc, ih (1 + fuel), Nat.add_comm 1 fuel,
      ended, hb]
    simp [add_assoc]

/-- A stretch does not depend on what the body does after it. -/
theorem congr (h : Passed body k s ps t)
    (hb : ∀ j, k ≤ j → j < k + ps.length → body j = body' j) : Passed body' k s ps t := by
  induction h with
  | nil => exact .nil
  | @snoc ps t t' out h hbody ih =>
    simp only [List.length_append, List.length_singleton] at hb
    refine .snoc (ih (fun j hk hj ↦ hb j hk (by omega))) ?_
    rw [← hb _ (by omega) (by omega)]
    exact hbody

end Passed

/-! ### Lists of fallible steps -/

section Fallible

variable {ε τ β γ : Type}

/-- Two folds over related items that go on alike end alike. -/
theorem foldlM_map {f : σ → β → Except ε σ} {g : τ → γ → Except ε τ} (φ : σ → τ)
    {Q : β → γ → Prop} (hstep : ∀ s b c, Q b c → g (φ s) c = (f s b).map φ) {bs : List β}
    {cs : List γ} (hQ : List.Forall₂ Q bs cs) (s : σ) :
    cs.foldlM g (φ s) = (bs.foldlM f s).map φ := by
  induction hQ generalizing s with
  | nil => rfl
  | @cons b c bs cs hbc hQ ih =>
    rw [List.foldlM_cons, List.foldlM_cons, hstep s b c hbc]
    cases hf : f s b with
    | error e => rfl
    | ok s' => exact ih s'

/-- A list that is mapped to its end: each item has its result, and each result its item. -/
theorem mapM_mem {f : β → Except ε γ} {bs : List β} {cs : List γ} (h : bs.mapM f = .ok cs) :
    (∀ b ∈ bs, ∃ c ∈ cs, f b = .ok c) ∧ ∀ c ∈ cs, ∃ b ∈ bs, f b = .ok c := by
  induction bs generalizing cs with
  | nil =>
    cases h
    simp
  | cons b bs ih =>
    rw [List.mapM_cons] at h
    cases hb : f b with
    | error e =>
      rw [hb] at h
      cases h
    | ok c =>
      cases hbs : bs.mapM f with
      | error e =>
        rw [hb, hbs] at h
        cases h
      | ok cs' =>
        rw [hb, hbs] at h
        cases h
        obtain ⟨hitems, hresults⟩ := ih hbs
        constructor
        · rintro b' (_ | ⟨_, hb'⟩)
          · exact ⟨c, List.mem_cons_self, hb⟩
          · obtain ⟨c', hc', hf⟩ := hitems b' hb'
            exact ⟨c', List.mem_cons_of_mem c hc', hf⟩
        · rintro c' (_ | ⟨_, hc'⟩)
          · exact ⟨b, List.mem_cons_self, hb⟩
          · obtain ⟨b', hb', hf⟩ := hresults c' hc'
            exact ⟨b', List.mem_cons_of_mem b hb', hf⟩

/-- A result that can be looked at is a success. -/
theorem exists_ok_of_map {x : Except ε β} {f : β → γ} {v : γ} (h : x.toOption.map f = some v) :
    ∃ b, x = .ok b ∧ f b = v := by
  cases x with
  | error e => cases h
  | ok b => exact ⟨b, rfl, Option.some.inj h⟩

end Fallible

end NatcpSpec.Base
