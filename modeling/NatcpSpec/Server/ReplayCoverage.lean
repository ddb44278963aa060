import NatcpSpec.Server.ReplayClock

/-!
# Which lines are applied

`CntThread`, `src/server.cc:442–498`. The loop takes the lines of the trace one after the
other. In exact arithmetic a line is left out only if the client was past it when the loop
was entered, or if the replay clock is past it when the loop comes to it.
-/

namespace NatcpSpec.Server

open NatcpSpec.Base

section Coverage

variable {r : Replay} {env : ℕ → IterEnv} {inForce : SockOpt → ℤ}

/-! ### How the loop ends -/

private theorem cntBody_next_it {c : Arith} {k : ℕ} {s t : CntState} {out : Iteration}
    (h : cntBody c r env k s = some (out, some t)) :
    s.it < r.trace.length ∧ t.it = s.it + 1 := by
  unfold cntBody at h
  split at h
  · cases h
  · next e he =>
    obtain ⟨-, hn⟩ := Prod.mk.inj (Option.some.inj h)
    refine ⟨(List.getElem?_eq_some_iff.mp he).1, ?_⟩
    rcases iterate_cases c r (env k) e s with ⟨-, hi⟩ | ⟨-, -, hi⟩ | ⟨-, -, hi⟩
    · rw [hi, Option.some.injEq] at hn
      rw [← hn]
      rfl
    · rw [hi, Option.some.injEq] at hn
      rw [← hn]
      rfl
    · rw [hi] at hn
      dsimp only at hn
      split at hn
      · cases hn
      · rw [Option.some.injEq] at hn
        rw [← hn]
        rfl

/-- The loop ends, whatever the clock reads and whatever the calls return. -/
theorem cntThread_ended (c : Arith) (r : Replay) (env : ℕ → IterEnv) (inForce : SockOpt → ℤ) :
    ended (cntBody c r env) (r.trace.length + 1) 0 (cntStart inForce) = true := by
  apply ended_of_variant (fun _ ↦ True) (fun s ↦ r.trace.length - s.it) _ trivial
  · change r.trace.length - 0 < _
    omega
  · intro i _ t out t' _ hb
    obtain ⟨hlt, hit⟩ := cntBody_next_it hb
    exact ⟨trivial, by omega⟩

/-- There are no more iterations than lines. -/
theorem length_cntThread_le {c : Arith} :
    (cntThread c r env inForce).length ≤ r.trace.length := by
  by_contra hlt
  have hp := List.getElem?_eq_getElem (l := cntThread c r env inForce) (not_le.mp hlt)
  have he := cntThread_entry hp
  rw [List.getElem?_eq_none le_rfl] at he
  cases he

/-- An iteration that does not go on had a call fail. -/
theorem fails_of_next_eq_none {c : Arith} {i : ℕ} {p : Pass CntState Iteration}
    (h : (cntThread c r env inForce)[i]? = some p) (hn : p.next = none) :
    feedbackFails r.settings p.out.env.ok = true := by
  obtain ⟨-, -, ⟨-, -, hc⟩ | ⟨-, -, -, hc⟩ | ⟨-, -, -, hc⟩⟩ := cntThread_cases h
  · rw [hc] at hn
    cases hn
  · rw [hc] at hn
    cases hn
  · rw [hc] at hn
    by_contra hf
    rw [if_neg hf] at hn
    cases hn

/-- The lines are visited to the last one, unless a failed call ends the loop before. -/
theorem length_cntThread {c : Arith} :
    (cntThread c r env inForce).length = r.trace.length ∨
    ∃ p, (cntThread c r env inForce).getLast? = some p ∧ p.next = none ∧
      feedbackFails r.settings p.out.env.ok = true := by
  rcases length_cntThread_le.eq_or_lt with h | hlt
  · exact Or.inl h
  right
  rcases hlen : (cntThread c r env inForce).length with _ | m
  · obtain ⟨p, hp⟩ : ∃ p, (cntThread c r env inForce)[0]? = some p :=
      cntThread_zero (by omega)
    have hl := (List.getElem?_eq_some_iff.mp hp).1
    omega
  · -- The line after the last iteration was not visited, so that this one did not go on.
    obtain ⟨p, hp⟩ : ∃ p, (cntThread c r env inForce)[m]? = some p :=
      ⟨_, List.getElem?_eq_getElem (by omega)⟩
    have hn : p.next = none := by
      cases hn : p.next with
      | none => rfl
      | some s =>
        obtain ⟨q, hq, -⟩ := cntThread_succ hp hn (by omega)
        have hl := (List.getElem?_eq_some_iff.mp hq).1
        omega
    refine ⟨p, ?_, hn, fails_of_next_eq_none hp hn⟩
    rw [List.getLast?_eq_getElem?, hlen, Nat.add_sub_cancel]
    exact hp

/-! ### Skipped, late and applied lines -/

/-- In exact arithmetic the bias test compares whole milliseconds, rounded down. -/
theorem not_skips_exact_iff (r : Replay) (e : STrace) :
    ¬ r.Skips .exact e ↔ r.biasTimeScaled .exact < ⌊1000 * e.time⌋ := by
  have hb : 0 ≤ r.biasTimeScaled .exact := by
    rw [biasTimeScaled_exact]
    exact Int.natCast_nonneg _
  unfold Replay.Skips Replay.timeScaled
  rw [Arith.exact_toInt, Arith.exact_round, not_le]
  rcases le_or_gt 0 (1000 * e.time) with h | h
  · rw [trunc_of_nonneg h]
  · -- Truncation and floor differ on negative times, all of which are skipped.
    have ht := trunc_nonpos h.le
    have hf := Int.floor_nonpos h.le
    omega

/-- An unskipped line is applied exactly if the clock has not passed it. -/
theorem applied_exact_iff (hw : ∀ e ∈ r.trace, WholeMicros e.time) {i : ℕ}
    {p : Pass CntState Iteration} (h : (cntThread .exact r env inForce)[i]? = some p) :
    (∃ o, p.out.visit = .applied o) ↔
      ¬ r.Skips .exact p.out.entry ∧ p.head.clock ≤ p.out.entry.time * 1000000 := by
  have hoff := offset_exact hw h
  have hiff : 0 ≤ Replay.offset .exact p.head p.out.entry ↔
      p.head.clock ≤ p.out.entry.time * 1000000 := by
    rw [← sub_nonneg (b := p.head.clock), ← hoff, Int.cast_nonneg_iff]
  obtain ⟨-, -, ⟨hs, hv, -⟩ | ⟨hs, ho, hv, -⟩ | ⟨hs, ho, hv, -⟩⟩ := cntThread_cases h
  · rw [hv]
    exact iff_of_false (fun ⟨_, ho⟩ ↦ by cases ho) (fun hc ↦ hc.1 hs)
  · rw [hv]
    exact iff_of_false (fun ⟨_, ho⟩ ↦ by cases ho) (fun hc ↦ absurd (hiff.mpr hc.2) (by omega))
  · exact iff_of_true ⟨_, hv⟩ ⟨hs, hiff.mp ho⟩

/-- In exact arithmetic the lines are visited in order to the last one, only lines before
the bias or behind the clock are left out, the former at the beginning of the trace, and
no sleep is negative. -/
theorem cntThread_drops_only_past (r : Replay) (env : ℕ → IterEnv) (inForce : SockOpt → ℤ)
    (hmono : r.trace.Pairwise (fun a b ↦ a.time ≤ b.time))
    (hw : ∀ e ∈ r.trace, WholeMicros e.time) :
    (∀ (i : ℕ) (p : Pass CntState Iteration), (cntThread .exact r env inForce)[i]? = some p →
      p.head.it = i ∧ r.trace[i]? = some p.out.entry) ∧
    ended (cntBody .exact r env) (r.trace.length + 1) 0 (cntStart inForce) = true ∧
    ((cntThread .exact r env inForce).length = r.trace.length ∨
      ∃ p, (cntThread .exact r env inForce).getLast? = some p ∧ p.next = none ∧
        feedbackFails r.settings p.out.env.ok = true) ∧
    (∀ p ∈ cntThread .exact r env inForce, (∃ o, p.out.visit = .applied o) ↔
      r.biasTimeScaled .exact < ⌊1000 * p.out.entry.time⌋ ∧
      p.head.clock ≤ p.out.entry.time * 1000000) ∧
    (∀ (i j : ℕ) (p q : Pass CntState Iteration), i ≤ j →
      (cntThread .exact r env inForce)[i]? = some p →
      (cntThread .exact r env inForce)[j]? = some q →
      q.out.visit = .skipped → p.out.visit = .skipped) ∧
    (∀ p ∈ cntThread .exact r env inForce, ∀ o, p.out.visit = .applied o → 0 ≤ o) := by
  refine ⟨?_, cntThread_ended .exact r env inForce, length_cntThread, ?_, ?_, ?_⟩
  · intro i p hp
    exact ⟨cntThread_it hp, cntThread_entry hp⟩
  · intro p hp
    obtain ⟨i, hi⟩ := List.mem_iff_getElem?.mp hp
    rw [applied_exact_iff hw hi, not_skips_exact_iff]
  · intro i j p q hij hp hq hskip
    have hsq := skips_of_skipped hq hskip
    obtain ⟨-, -, ⟨-, hv, -⟩ | ⟨hs, -⟩ | ⟨hs, -⟩⟩ := cntThread_cases hp
    · exact hv
    · exact absurd hsq (not_skips_of_le hmono hij hp hq hs)
    · exact absurd hsq (not_skips_of_le hmono hij hp hq hs)
  · intro p hp o hv
    obtain ⟨i, hi⟩ := List.mem_iff_getElem?.mp hp
    exact (applied_spec hi hv).2.2.1

end Coverage

/-- Three lines for a client that connects half a second into the trace. -/
def lateClient : Replay := ⟨⟨5, 1, 1, 2⟩, [⟨1 / 4, 1, 1⟩, ⟨1, 1, 1⟩, ⟨2, 1, 1⟩], 500000⟩

/-- The line before the connection is skipped, and all three lines are visited. -/
theorem cntThread_drops_only_past_lateClient :
    (cntThread .exact lateClient overrunEnv (fun _ ↦ 0)).map (fun p ↦ p.out.visit) =
      [.skipped, .applied 500000, .applied 200000] ∧
    ∀ p ∈ cntThread .exact lateClient overrunEnv (fun _ ↦ 0),
      ∀ o, p.out.visit = .applied o → 0 ≤ o := by
  have hmono : lateClient.trace.Pairwise (fun a b ↦ a.time ≤ b.time) := by
    decide +kernel
  have hw : ∀ e ∈ lateClient.trace, WholeMicros e.time := by
    intro e he
    simp only [lateClient, List.mem_cons, List.not_mem_nil, or_false] at he
    rcases he with rfl | rfl | rfl
    · exact ⟨250000, by norm_num⟩
    · exact ⟨1000000, by norm_num⟩
    · exact ⟨2000000, by norm_num⟩
  refine ⟨by decide +kernel, ?_⟩
  exact (cntThread_drops_only_past lateClient overrunEnv (fun _ ↦ 0) hmono hw).2.2.2.2.2

end NatcpSpec.Server
