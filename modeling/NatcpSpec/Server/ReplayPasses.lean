import NatcpSpec.Server.Replay

/-!
# The replay loop pass by pass

`src/server.cc:442–498`. The loop of `cntThread` in one piece against the loop one pass at a
time: to which states it gets, whatever the clocks and the calls answer, and that the passes
made so far are the first ones of the loop in one piece.
-/

namespace NatcpSpec.Server

open NatcpSpec.Base

/-- The loop applies a line for some time since the base timestamp, some readings of the clock
and some results of the calls. -/
def MayApply (c : Arith) (g : Settings) (trace : List STrace) : Prop :=
  ∃ (setup : UInt64) (env : ℕ → IterEnv) (inForce : SockOpt → ℤ) (i : ℕ)
    (p : Pass CntState Iteration) (o : ℤ),
    (cntThread c ⟨g, trace, setup⟩ env inForce)[i]? = some p ∧ p.out.visit = .applied o

section Reached

variable {c : Arith} {r : Replay} {t t' : CntState} {e : STrace}
  {ps : List (Pass CntState Iteration)}

/-- The loop of `cntThread` can make these passes and test its condition again in this
state. -/
def Reached (c : Arith) (r : Replay) (ps : List (Pass CntState Iteration)) (t : CntState) : Prop :=
  ∃ (env : ℕ → IterEnv) (inForce : SockOpt → ℤ),
    Passed (cntBody c r env) 0 (cntStart inForce) ps t

/-- An iteration on the line of the state, with what the system answers. -/
def passOf (c : Arith) (r : Replay) (t : CntState) (e : STrace) (x : IterEnv) :
    Pass CntState Iteration :=
  ⟨t, ⟨e, x, (iterate c r x e t).1⟩, (iterate c r x e t).2⟩

private theorem passed_it {env : ℕ → IterEnv} {inForce : SockOpt → ℤ}
    (h : Passed (cntBody c r env) 0 (cntStart inForce) ps t) :
    t.it = ps.length ∧ ps.length ≤ r.trace.length := by
  induction h with
  | nil => exact ⟨rfl, Nat.zero_le _⟩
  | @snoc ps t t' out h hb ih =>
    rw [cntBody] at hb
    split at hb
    · cases hb
    · next e he =>
      obtain ⟨hlt, -⟩ := List.getElem?_eq_some_iff.mp he
      obtain ⟨-, hn⟩ := Prod.mk.inj (Option.some.inj hb)
      have hit : t'.it = t.it + 1 := by
        rcases iterate_cases c r (env (0 + ps.length)) e t with ⟨-, hi⟩ | ⟨-, -, hi⟩ | ⟨-, -, hi⟩
        · rw [hi] at hn
          cases hn
          rfl
        · rw [hi] at hn
          cases hn
          rfl
        · rw [hi] at hn
          dsimp only at hn
          split at hn
          · cases hn
          · cases hn
            rfl
      rw [List.length_append, List.length_singleton, hit]
      omega

/-- The passes before a state are as many as lines were taken. -/
theorem Reached.it (h : Reached c r ps t) : t.it = ps.length ∧ ps.length ≤ r.trace.length := by
  obtain ⟨env, inForce, h⟩ := h
  exact passed_it h

-- Whatever the system answers next, the passes that were made stay as they are.
private theorem Reached.answer (h : Reached c r ps t) (x : IterEnv) :
    ∃ (env : ℕ → IterEnv) (inForce : SockOpt → ℤ),
      Passed (cntBody c r env) 0 (cntStart inForce) ps t ∧ env ps.length = x := by
  obtain ⟨env, inForce, h⟩ := h
  refine ⟨fun k ↦ if k < ps.length then env k else x, inForce, h.congr ?_, by simp⟩
  intro j _ hj
  funext s
  simp only [cntBody, if_pos (show j < ps.length by omega)]

private theorem cntBody_of_line (c : Arith) (env : ℕ → IterEnv) (k : ℕ)
    (he : r.trace[t.it]? = some e) : cntBody c r env k t =
      some ((passOf c r t e (env k)).out, (passOf c r t e (env k)).next) := by
  simp only [cntBody, he]
  rfl

/-- The loop gets to every state that an iteration leads to. -/
theorem Reached.next (h : Reached c r ps t) (he : r.trace[t.it]? = some e) {x : IterEnv}
    (hi : (iterate c r x e t).2 = some t') : Reached c r (ps ++ [passOf c r t e x]) t' := by
  obtain ⟨env, inForce, h, hx⟩ := h.answer x
  refine ⟨env, inForce, ?_⟩
  have hb := cntBody_of_line c env (0 + ps.length) he
  rw [Nat.zero_add, hx, show (passOf c r t e x).next = some t' from hi] at hb
  have hpass : passOf c r t e x = ⟨t, (passOf c r t e x).out, some t'⟩ := by
    rw [← hi]
    rfl
  rw [hpass]
  exact .snoc h (by rwa [Nat.zero_add])

/-- A loop that gets to a state with a line makes a pass on it. -/
theorem Reached.exists_pass (h : Reached c r ps t) (he : r.trace[t.it]? = some e) (x : IterEnv) :
    ∃ (env : ℕ → IterEnv) (inForce : SockOpt → ℤ) (more : List (Pass CntState Iteration)),
      cntThread c r env inForce = ps ++ passOf c r t e x :: more ∧
      ((iterate c r x e t).2 = none → more = []) := by
  obtain ⟨hlt, -⟩ := List.getElem?_eq_some_iff.mp he
  have hit := h.it
  obtain ⟨env, inForce, h, hx⟩ := h.answer x
  obtain ⟨fuel, hfuel⟩ : ∃ fuel, r.trace.length + 1 = ps.length + (fuel + 1) :=
    ⟨r.trace.length - ps.length, by omega⟩
  have hb := cntBody_of_line c env (0 + ps.length) he
  rw [Nat.zero_add, hx] at hb
  refine ⟨env, inForce, ?_⟩
  rw [cntThread, hfuel, h.passes_eq, passes, Nat.zero_add, hb]
  rcases hn : (iterate c r x e t).2 with _ | t'
  · have hnext : (passOf c r t e x).next = none := hn
    refine ⟨[], ?_, fun _ ↦ rfl⟩
    rw [hnext]
    simp only [passOf, hn]
  · have hnext : (passOf c r t e x).next = some t' := hn
    refine ⟨passes (cntBody c r env) fuel (ps.length + 1) t', ?_, (by rintro ⟨⟩)⟩
    rw [hnext]
    simp only [passOf, hn]

/-- A loop that gets to a state without a line is over. -/
theorem Reached.exists_end (h : Reached c r ps t) (he : r.trace[t.it]? = none) :
    ∃ (env : ℕ → IterEnv) (inForce : SockOpt → ℤ), cntThread c r env inForce = ps := by
  have hit := h.it
  have hge := List.getElem?_eq_none_iff.mp he
  obtain ⟨env, inForce, h⟩ := h
  refine ⟨env, inForce, ?_⟩
  have hnone : cntBody c r env (0 + ps.length) t = none := by
    simp only [cntBody, he]
  rw [cntThread, show r.trace.length + 1 = ps.length + 1 by omega, h.passes_eq, passes, hnone,
    List.append_nil]

/-- Passes that were made are the first ones of the loop in one piece. -/
theorem Reached.exists_thread (h : Reached c r ps t) :
    ∃ (env : ℕ → IterEnv) (inForce : SockOpt → ℤ), ps <+: cntThread c r env inForce := by
  rcases he : r.trace[t.it]? with _ | e
  · obtain ⟨env, inForce, heq⟩ := h.exists_end he
    exact ⟨env, inForce, by rw [heq]⟩
  · obtain ⟨env, inForce, more, heq, -⟩ := h.exists_pass he ⟨0, 0, fun _ ↦ true⟩
    exact ⟨env, inForce, by rw [heq]; exact List.prefix_append _ _⟩

/-- The loop applies a line if it gets to a state in which it would. -/
theorem Reached.mayApply (h : Reached c r ps t) (he : r.trace[t.it]? = some e)
    (hs : ¬ r.Skips c e) (ho : 0 ≤ Replay.offset c t e) : MayApply c r.settings r.trace := by
  obtain ⟨env, inForce, more, hthread, -⟩ := h.exists_pass he ⟨0, 0, fun _ ↦ true⟩
  refine ⟨r.setupTime, env, inForce, ps.length, passOf c r t e ⟨0, 0, fun _ ↦ true⟩,
    Replay.offset c t e, ?_, ?_⟩
  · rw [hthread, List.getElem?_append_right le_rfl, Nat.sub_self]
    rfl
  simp only [passOf, iterate, if_neg hs, if_neg (not_lt.mpr ho)]
  split <;> rfl

end Reached

end NatcpSpec.Server
