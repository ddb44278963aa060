import NatcpSpec.Server.ReplayDouble
import NatcpSpec.Server.ReplayPasses

/-!
# Traces with a line that can be applied

`src/server.cc:434–464` on amd64, whatever the clocks read. A client that has just started is
behind every line of a millisecond or more, and the first of these is applied. Lines before
that are skipped, unless the base timestamp is ahead of the clock: the elapsed time then wraps,
the bias does not fit an `int` and is converted to the least one. In this case the loop starts
at trace time zero, and a line is applied if it is not a microsecond behind the trace time. A
line that does not fit an `int` either is skipped still, and puts the trace time out of reach
of the lines after it.
-/

namespace NatcpSpec.Server

open NatcpSpec.Base

/-- The sleep before a line from a trace time, when nothing is carried over;
`src/server.cc:455–456`. -/
def sleepFrom (preTime : ℚ) (e : STrace) : ℤ :=
  Replay.offset .amd64 ⟨0, preTime, 0, fun _ ↦ 0⟩ e

/-- The trace time that a late line moves the loop to; `src/server.cc:459`. -/
def lateFrom (preTime : ℚ) (e : STrace) : ℚ :=
  (CntState.afterLate .amd64 e (sleepFrom preTime e) ⟨0, preTime, 0, fun _ ↦ 0⟩).preTime

/-- Of the lines before the first whose milliseconds do not fit an `int`, one is not behind the
trace time, which every line that is behind moves on. -/
def DueAhead (preTime : ℚ) : List STrace → Prop
  | [] => False
  | e :: es => -2 ^ 31 < Replay.timeScaled .amd64 e ∧
      (0 ≤ sleepFrom preTime e ∨ DueAhead (lateFrom preTime e) es)

/-- The trace has a line of a millisecond or more, or one that is due from time zero. -/
def Applicable (trace : List STrace) : Prop :=
  (∃ e ∈ trace, 0 < Replay.timeScaled .amd64 e) ∨ DueAhead 0 trace

instance decidableDueAhead : (preTime : ℚ) → (es : List STrace) → Decidable (DueAhead preTime es)
  | _, [] => inferInstanceAs (Decidable False)
  | preTime, e :: es =>
    have := decidableDueAhead (lateFrom preTime e) es
    inferInstanceAs (Decidable (_ ∧ (_ ∨ _)))

instance (trace : List STrace) : Decidable (Applicable trace) :=
  inferInstanceAs (Decidable (_ ∨ _))

section Bias

variable {r : Replay} {e : STrace}

/-- The bias is counted from zero, or it is out of reach and its milliseconds are converted to
the least `int`. -/
theorem biasTimeScaled_cases (r : Replay) :
    0 ≤ r.biasTimeScaled .amd64 ∨
      r.biasTimeScaled .amd64 = -2 ^ 31 ∧ 2147483 ≤ r.biasTime .amd64 := by
  have h0 : 0 ≤ trunc (roundDouble (r.biasTime .amd64 * 1000)) :=
    trunc_nonneg (roundDouble_nonneg (mul_nonneg (biasTime_amd64_nonneg r) (by norm_num)))
  by_cases hin : InInt32 (trunc (roundDouble (r.biasTime .amd64 * 1000)))
  · left
    rw [Replay.biasTimeScaled, Arith.amd64_round, Arith.amd64.toInt_eq _ hin]
    exact h0
  · right
    refine ⟨if_neg hin, ?_⟩
    by_contra hlt
    have hround : roundDouble (r.biasTime .amd64 * 1000) ≤ ((2147483000 : ℤ) : ℚ) :=
      roundDouble_le (by push_cast; linarith) (roundDouble_intCast (by norm_num))
    have htrunc := trunc_mono hround
    rw [trunc_intCast] at htrunc
    exact hin ⟨by omega, by omega⟩

private theorem timeScaled_nonpos (h : e.time ≤ 0) : Replay.timeScaled .amd64 e ≤ 0 := by
  have hround : roundDouble (1000 * e.time) ≤ 0 := roundDouble_le (by linarith) roundDouble_zero
  have htrunc := trunc_nonpos hround
  change (if InInt32 (trunc (roundDouble (1000 * e.time)))
    then trunc (roundDouble (1000 * e.time)) else -2 ^ 31) ≤ 0
  split_ifs <;> omega

private theorem time_lt_of_timeScaled (hs : ¬ r.Skips .amd64 e)
    (h : Replay.timeScaled .amd64 e ≤ 0) : e.time < 1 / 1000 := by
  by_contra hge
  have hr : InInt32 (trunc (roundDouble (1000 * e.time))) :=
    Arith.inInt32_of_lt_amd64_toInt (Arith.inInt32_amd64_toInt _).1 (not_le.mp hs)
  have hround : ((1 : ℤ) : ℚ) ≤ roundDouble (1000 * e.time) :=
    le_roundDouble (by push_cast; linarith) (roundDouble_intCast (by norm_num))
  have htrunc := trunc_mono hround
  rw [trunc_intCast] at htrunc
  rw [Replay.timeScaled, Arith.amd64_round, Arith.amd64.toInt_eq _ hr] at h
  omega

private theorem offset_eq_sleepFrom {s : CntState} (hf : s.fct = 0) :
    Replay.offset .amd64 s e = sleepFrom s.preTime e := by
  unfold sleepFrom Replay.offset
  rw [hf]

end Bias

/-! ### Traces whose lines are applied -/

section Applied

variable {g : Settings} {es : List STrace}

/-- The first line of a millisecond or more is applied for a client that has just started. -/
theorem mayApply_of_timeScaled_pos {e : STrace} (he : e ∈ es)
    (hpos : 0 < Replay.timeScaled .amd64 e) : MayApply .amd64 g es := by
  classical
  have hz : Replay.biasTime .amd64 ⟨g, es, 0⟩ = 0 := by
    simp [Replay.biasTime]
  have hbias : Replay.biasTimeScaled .amd64 ⟨g, es, 0⟩ = 0 := by
    rw [Replay.biasTimeScaled, hz, zero_mul, Arith.amd64_round, roundDouble_zero]
    decide +kernel
  obtain ⟨i, hi⟩ := List.getElem?_of_mem he
  have hex : ∃ (j : ℕ) (e : STrace), es[j]? = some e ∧ 0 < Replay.timeScaled .amd64 e :=
    ⟨i, e, hi, hpos⟩
  obtain ⟨e', he', hpos'⟩ := Nat.find_spec hex
  have hall : ∀ j e, j < Nat.find hex → es[j]? = some e →
      Replay.Skips .amd64 ⟨g, es, 0⟩ e := by
    intro j e hj he
    unfold Replay.Skips
    rw [hbias]
    exact not_lt.mp (fun hlt ↦ Nat.find_min hex hj ⟨e, he, hlt⟩)
  have hlt : Nat.find hex < es.length := (List.getElem?_eq_some_iff.mp he').1
  obtain ⟨p, hp⟩ : ∃ p, (cntThread .amd64 ⟨g, es, 0⟩ (fun _ ↦ ⟨0, 0, fun _ ↦ true⟩)
      (fun _ ↦ 0))[Nat.find hex]? = some p := exists_of_all_skipped hlt hall
  obtain ⟨hf, hpre⟩ := head_of_all_skipped hp hall
  obtain rfl : p.out.entry = e' := Option.some.inj ((cntThread_entry hp).symm.trans he')
  have hs : ¬Replay.Skips .amd64 ⟨g, es, 0⟩ p.out.entry := by
    unfold Replay.Skips
    rw [hbias]
    exact not_le.mpr hpos'
  have htime : 0 < p.out.entry.time := by
    by_contra hle
    exact absurd (timeScaled_nonpos (not_lt.mp hle)) (not_le.mpr hpos')
  have hzero : p.head.preTime = 0 := by
    rw [hpre, hz, ite_self]
  have ho : 0 ≤ Replay.offset .amd64 p.head p.out.entry := by
    refine offset_nonneg_of_clock_lt (time_bounds_of_not_skips hs).2 ?_ ?_
    · rw [hzero]
      norm_num
    · rw [CntState.clock, hzero, hf]
      simpa using htime
  obtain ⟨-, -, ⟨hc, -⟩ | ⟨-, hneg, -⟩ | ⟨-, -, hv, -⟩⟩ := cntThread_cases hp
  · exact absurd hc hs
  · omega
  · exact ⟨0, _, _, _, p, _, hp, hv⟩

-- With the bias at the least `int` no line that fits one is skipped.
private theorem mayApply_of_reached {r : Replay} (hbias : r.biasTimeScaled .amd64 = -2 ^ 31)
    {ps : List (Pass CntState Iteration)} {s : CntState} (h : Reached .amd64 r ps s)
    (hf : s.fct = 0) (hdue : DueAhead s.preTime (r.trace.drop s.it)) :
    MayApply .amd64 r.settings r.trace := by
  induction hes : r.trace.drop s.it generalizing ps s with
  | nil =>
    rw [hes] at hdue
    exact hdue.elim
  | cons e es ih =>
    rw [hes] at hdue
    obtain ⟨hrange, hdue⟩ := hdue
    have he : r.trace[s.it]? = some e := by
      rw [← List.head?_drop, hes]
      rfl
    have hs : ¬ r.Skips .amd64 e := by
      unfold Replay.Skips
      rw [hbias]
      exact not_le.mpr hrange
    by_cases ho : 0 ≤ Replay.offset .amd64 s e
    · exact h.mayApply he hs ho
    · have hlate : Replay.offset .amd64 s e < 0 := not_le.mp ho
      rw [offset_eq_sleepFrom hf] at ho
      have hdrop : r.trace.drop (s.it + 1) = es := by
        rw [← List.drop_drop, hes]
        rfl
      have hnext : (iterate .amd64 r ⟨0, 0, fun _ ↦ true⟩ e s).2 =
          some (s.afterLate .amd64 e (Replay.offset .amd64 s e)) := by
        simp [iterate, hs, hlate]
      refine ih (h.next he hnext) rfl ?_ hdrop
      change DueAhead _ (r.trace.drop (s.it + 1))
      rw [hdrop, offset_eq_sleepFrom hf]
      exact hdue.resolve_left ho

/-- A line that is due from time zero is applied when the base timestamp is ahead of the
clock. -/
theorem mayApply_of_dueAhead (h : DueAhead 0 es) : MayApply .amd64 g es := by
  have hbias : Replay.biasTimeScaled .amd64 ⟨g, es, 2147483648000⟩ = -2 ^ 31 := by
    rw [biasTimeScaled_amd64]
    exact if_neg (not_inInt32_of_le le_rfl)
  have hstart : Reached .amd64 ⟨g, es, 2147483648000⟩ [] (cntStart (fun _ ↦ 0)) :=
    ⟨fun _ ↦ ⟨0, 0, fun _ ↦ true⟩, _, .nil⟩
  exact mayApply_of_reached hbias hstart rfl h

end Applied

/-! ### Other traces -/

section Never

variable {r : Replay} {env : ℕ → IterEnv} {inForce : SockOpt → ℤ}

-- A line of the first millisecond is late when the trace time is about the bias, of which it
-- takes less than two microseconds.
private theorem late_of_ahead {e : STrace} {s : CntState} {j : ℕ} (hs : ¬r.Skips .amd64 e)
    (hearly : Replay.timeScaled .amd64 e ≤ 0) (hj : j < 2 ^ 31) (hf : s.fct = 0)
    (hahead : 2147483 - (j : ℚ) * (2 / 1000000) ≤ s.preTime) :
    Replay.offset .amd64 s e < 0 ∧
      2147483 - ((j + 1 : ℕ) : ℚ) * (2 / 1000000) ≤
        (s.afterLate .amd64 e (Replay.offset .amd64 s e)).preTime := by
  have hj0 : (0 : ℚ) ≤ j := Nat.cast_nonneg j
  have hj1 : (j : ℚ) ≤ 2147483648 := by exact_mod_cast hj.le
  have htime := time_lt_of_timeScaled hs hearly
  obtain ⟨hlow, -⟩ := time_bounds_of_not_skips hs
  obtain ⟨hlate, hle⟩ := late_of_behind (2147483 - (j : ℚ) * (2 / 1000000)) hf (by linarith)
    (by linarith) (by linarith) hahead (by linarith)
  refine ⟨hlate, le_trans ?_ hle⟩
  push_cast
  linarith

-- A skipped line puts the trace time at the bias, which late lines lower by less than two
-- microseconds each; without one, the lines so far were those that `DueAhead` went through.
private theorem ahead_of_not_applied (hbias : r.biasTimeScaled .amd64 = -2 ^ 31)
    (hfar : 2147483 ≤ r.biasTime .amd64) (hlen : r.trace.length < 2 ^ 31)
    (hearly : ∀ e ∈ r.trace, Replay.timeScaled .amd64 e ≤ 0) {j : ℕ}
    {q : Pass CntState Iteration} (hq : (cntThread .amd64 r env inForce)[j]? = some q)
    (hfirst : ∀ k m o, k < j → (cntThread .amd64 r env inForce)[k]? = some m →
      m.out.visit ≠ .applied o) :
    q.head.fct = 0 ∧
      ((DueAhead q.head.preTime (r.trace.drop j) → DueAhead 0 r.trace) ∨
        2147483 - (j : ℚ) * (2 / 1000000) ≤ q.head.preTime) := by
  induction j generalizing q with
  | zero =>
    rw [passes_head hq]
    exact ⟨rfl, Or.inl id⟩
  | succ j ih =>
    obtain ⟨p, hp⟩ := passes_before (Nat.le_succ j) hq
    obtain ⟨hf, hcases⟩ := ih hp (fun k m o hk ↦ hfirst k m o (by omega))
    have hnext := passes_next hp hq
    obtain ⟨-, -, ⟨-, -, hn⟩ | ⟨hs, ho, -, hn⟩ | ⟨-, -, hv, -⟩⟩ := cntThread_cases hp
    · rw [hnext, Option.some.injEq] at hn
      rw [hn]
      refine ⟨hf, Or.inr ?_⟩
      change _ ≤ r.biasTime .amd64
      have hj0 : (0 : ℚ) ≤ (j + 1 : ℕ) := Nat.cast_nonneg _
      linarith
    · rw [hnext, Option.some.injEq] at hn
      rw [hn]
      refine ⟨rfl, ?_⟩
      obtain ⟨hlt, he⟩ := List.getElem?_eq_some_iff.mp (cntThread_entry hp)
      rcases hcases with hdue | hahead
      · left
        intro h
        apply hdue
        rw [List.drop_eq_getElem_cons hlt, he]
        refine ⟨?_, Or.inr ?_⟩
        · rw [← hbias]
          exact not_le.mp hs
        · rw [offset_eq_sleepFrom hf] at h
          exact h
      · right
        have hmem := List.mem_of_getElem? (cntThread_entry hp)
        exact (late_of_ahead hs (hearly _ hmem) (hlt.trans hlen) hf hahead).2
    · exact absurd hv (hfirst j p _ (Nat.lt_succ_self j) hp)

end Never

/-- Which traces have a line that the loop can apply. The number of lines is an `int`. -/
theorem mayApply_amd64_iff (g : Settings) {es : List STrace} (hlen : es.length < 2 ^ 31) :
    MayApply .amd64 g es ↔ Applicable es := by
  constructor
  · rintro ⟨setup, env, inForce, i, p, o, hp, hv⟩
    by_contra hno
    unfold Applicable at hno
    push Not at hno
    obtain ⟨hearly, hdue⟩ := hno
    classical
    have hex : ∃ (j : ℕ) (q : Pass CntState Iteration) (o : ℤ),
        (cntThread .amd64 ⟨g, es, setup⟩ env inForce)[j]? = some q ∧ q.out.visit = .applied o :=
      ⟨i, p, o, hp, hv⟩
    obtain ⟨q, o', hq, hv'⟩ := Nat.find_spec hex
    have hfirst : ∀ k m o, k < Nat.find hex →
        (cntThread .amd64 ⟨g, es, setup⟩ env inForce)[k]? = some m → m.out.visit ≠ .applied o :=
      fun k m o hk hm hvm ↦ Nat.find_min hex hk ⟨m, o, hm, hvm⟩
    obtain ⟨hs, ho, h0, -⟩ := applied_spec hq hv'
    have hmem := List.mem_of_getElem? (cntThread_entry hq)
    rcases biasTimeScaled_cases ⟨g, es, setup⟩ with hnonneg | ⟨hbias, hfar⟩
    · exact hs ((hearly _ hmem).trans hnonneg)
    obtain ⟨hlt, he⟩ := List.getElem?_eq_some_iff.mp (cntThread_entry hq)
    obtain ⟨hf, hcases⟩ := ahead_of_not_applied hbias hfar hlen hearly hq hfirst
    rcases hcases with hback | hahead
    · apply hdue
      apply hback
      rw [List.drop_eq_getElem_cons hlt, he]
      refine ⟨?_, Or.inl ?_⟩
      · rw [← hbias]
        exact not_le.mp hs
      · rw [← offset_eq_sleepFrom hf, ← ho]
        exact h0
    · obtain ⟨hneg, -⟩ := late_of_ahead hs (hearly _ hmem) (hlt.trans hlen) hf hahead
      omega
  · rintro (⟨e, he, hpos⟩ | hdue)
    · exact mayApply_of_timeScaled_pos he hpos
    · exact mayApply_of_dueAhead hdue

end NatcpSpec.Server
