import NatcpSpec.Server.Replay

/-!
# The replay clock

The clock of `CntState.clock` is what the loop believes to be the current trace time.
In exact arithmetic an applied line moves it by the time the iteration took and a late
line leaves it, so wake-up instants keep the spacing of the trace however long the
iterations take. Where the clock starts depends on whether a line was skipped.
-/

namespace NatcpSpec.Server

open NatcpSpec.Base

/-- A time in seconds that is a whole number of microseconds. -/
def WholeMicros (t : ℚ) : Prop := ∃ n : ℤ, t * 1000000 = n

/-- Time an iteration adds to the replay clock: all of it when a line was applied. -/
def clockStep (p : Pass CntState Iteration) : ℚ :=
  match p.out.visit with
  | .applied _ => p.out.env.timestampEnd.toNat
  | _ => 0

/-- The sleep an iteration requests, in microseconds. -/
def requested (p : Pass CntState Iteration) : ℤ :=
  match p.out.visit with
  | .applied offset => offset
  | _ => 0

/-- An iteration that reached `timestamp_end()` took at least the sleep it asked for. -/
def Measured (p : Pass CntState Iteration) : Prop :=
  p.next.isSome → requested p ≤ p.out.env.timestampEnd.toNat

instance (p : Pass CntState Iteration) : Decidable (Measured p) :=
  inferInstanceAs (Decidable (_ → _))

/-! ### One iteration -/

/-- The bias in exact arithmetic. -/
theorem biasTime_exact (r : Replay) : r.biasTime .exact = (r.setupTime.toNat : ℚ) / 1000000 := by
  simp [Replay.biasTime]

/-- In exact arithmetic the loop compares with the elapsed milliseconds, rounded down. -/
theorem biasTimeScaled_exact (r : Replay) :
    r.biasTimeScaled .exact = (r.setupTime.toNat / 1000 : ℕ) := by
  have hx : r.biasTime .exact * 1000 = (r.setupTime.toNat : ℚ) / 1000 := by
    rw [biasTime_exact]
    ring
  rw [Replay.biasTimeScaled, Arith.exact_toInt, Arith.exact_round, hx,
    trunc_of_nonneg (by positivity)]
  exact_mod_cast Rat.floor_natCast_div_natCast r.setupTime.toNat 1000

/-- The sleep in exact arithmetic is the line's distance from the clock, truncated. -/
theorem offset_eq (s : CntState) (e : STrace) :
    Replay.offset .exact s e = trunc (e.time * 1000000 - s.clock) := by
  have hd : (e.time - s.preTime) * 1000000 - s.fct.toNat = e.time * 1000000 - s.clock := by
    rw [CntState.clock]
    ring
  rw [← hd]
  rfl

/-- A late line puts the clock at the line minus the computed sleep. -/
theorem clock_afterLate (s : CntState) (e : STrace) (o : ℤ) :
    (s.afterLate .exact e o).clock = e.time * 1000000 - o := by
  have hz : ((0 : UInt64).toNat : ℚ) = 0 := by simp
  unfold CntState.clock CntState.afterLate
  simp only [Arith.exact_round]
  rw [hz]
  ring

/-- The overrun stored after an applied line is the residue of what the iteration took
beyond its sleep. -/
theorem fct_afterApply (c : Arith) (g : Settings) (x : IterEnv) (e : STrace) (o : ℤ)
    (s : CntState) :
    ((s.afterApply c g x e o).fct.toNat : ℤ) = (x.elapsed - o) % 2 ^ 64 := by
  change ((x.finished - x.begun - uint64 o).toNat : ℤ) = _
  rw [toNat_sub_emod, toNat_sub_emod, toNat_uint64, IterEnv.elapsed]
  omega

/-- When the measured time covers the sleep, nothing wraps. -/
theorem fct_afterApply_of_le (c : Arith) (g : Settings) (x : IterEnv) (e : STrace) (o : ℤ)
    (s : CntState) (h0 : 0 ≤ o) (h : o ≤ x.timestampEnd.toNat) :
    ((s.afterApply c g x e o).fct.toNat : ℤ) = x.timestampEnd.toNat - o := by
  change ((x.timestampEnd - uint64 o).toNat : ℤ) = _
  have hlt := x.timestampEnd.toNat_lt
  rw [toNat_sub_emod, toNat_uint64]
  omega

/-! ### Whole microseconds -/

private theorem wholeMicros_bias (r : Replay) : WholeMicros (r.biasTime .exact) := by
  refine ⟨r.setupTime.toNat, ?_⟩
  rw [biasTime_exact]
  push_cast
  ring

private theorem wholeMicros_afterLate {s : CntState} {e : STrace} (o : ℤ)
    (he : WholeMicros e.time) : WholeMicros (s.afterLate .exact e o).preTime := by
  obtain ⟨n, hn⟩ := he
  refine ⟨n - o, ?_⟩
  change (e.time - (o : ℚ) / 1000000) * 1000000 = _
  push_cast
  rw [← hn]
  ring

section Exact

variable {r : Replay} {env : ℕ → IterEnv} {inForce : SockOpt → ℤ}

/-- The trace time kept by the loop is always a whole number of microseconds. -/
theorem wholeMicros_preTime (hw : ∀ e ∈ r.trace, WholeMicros e.time) {i : ℕ}
    {p : Pass CntState Iteration} (h : (cntThread .exact r env inForce)[i]? = some p) :
    WholeMicros p.head.preTime := by
  apply passes_invariant (fun _ s ↦ WholeMicros s.preTime) ⟨0, by simp [cntStart]⟩ _ h
  intro j q s hq hn _
  have he : WholeMicros q.out.entry.time :=
    hw _ (List.mem_of_getElem? (cntThread_entry hq))
  obtain ⟨-, -, ⟨-, -, hc⟩ | ⟨-, -, -, hc⟩ | ⟨-, -, hv, -⟩⟩ := cntThread_cases hq
  · rw [hc, Option.some.injEq] at hn
    rw [← hn]
    exact wholeMicros_bias r
  · rw [hc, Option.some.injEq] at hn
    rw [← hn]
    exact wholeMicros_afterLate _ he
  · rw [applied_next hq hv hn]
    exact he

/-- A line's distance from the clock is a whole number of microseconds. -/
theorem distance_whole (hw : ∀ e ∈ r.trace, WholeMicros e.time) {i : ℕ}
    {p : Pass CntState Iteration} (h : (cntThread .exact r env inForce)[i]? = some p) :
    ∃ n : ℤ, p.out.entry.time * 1000000 - p.head.clock = n := by
  obtain ⟨m, hm⟩ := wholeMicros_preTime hw h
  obtain ⟨n, hn⟩ := hw _ (List.mem_of_getElem? (cntThread_entry h))
  refine ⟨n - m - p.head.fct.toNat, ?_⟩
  rw [CntState.clock, hm, hn]
  push_cast
  ring

/-- In exact arithmetic the sleep is the line's distance from the clock. -/
theorem offset_exact (hw : ∀ e ∈ r.trace, WholeMicros e.time) {i : ℕ}
    {p : Pass CntState Iteration} (h : (cntThread .exact r env inForce)[i]? = some p) :
    (Replay.offset .exact p.head p.out.entry : ℚ) =
      p.out.entry.time * 1000000 - p.head.clock := by
  obtain ⟨n, hn⟩ := distance_whole hw h
  rw [offset_eq, hn, trunc_intCast]

/-- Later iterations have later lines. -/
theorem entry_time_le {c : Arith} (hmono : r.trace.Pairwise (fun a b ↦ a.time ≤ b.time))
    {i j : ℕ} {p q : Pass CntState Iteration} (hij : i ≤ j)
    (hp : (cntThread c r env inForce)[i]? = some p)
    (hq : (cntThread c r env inForce)[j]? = some q) :
    p.out.entry.time ≤ q.out.entry.time := by
  rcases hij.eq_or_lt with he | hlt
  · subst he
    rw [Option.some.inj (hp.symm.trans hq)]
  · obtain ⟨hi, hpi⟩ := List.getElem?_eq_some_iff.mp (cntThread_entry hp)
    obtain ⟨hj, hqj⟩ := List.getElem?_eq_some_iff.mp (cntThread_entry hq)
    rw [← hpi, ← hqj]
    exact List.pairwise_iff_getElem.mp hmono i j hi hj hlt

/-- In exact arithmetic no line after an unskipped one is skipped. -/
theorem not_skips_of_le (hmono : r.trace.Pairwise (fun a b ↦ a.time ≤ b.time)) {i j : ℕ}
    {p q : Pass CntState Iteration} (hij : i ≤ j)
    (hp : (cntThread .exact r env inForce)[i]? = some p)
    (hq : (cntThread .exact r env inForce)[j]? = some q)
    (hs : ¬ r.Skips .exact p.out.entry) : ¬ r.Skips .exact q.out.entry := by
  have hle := entry_time_le hmono hij hp hq
  unfold Replay.Skips Replay.timeScaled at hs ⊢
  have ht : trunc (1000 * p.out.entry.time) ≤ trunc (1000 * q.out.entry.time) :=
    trunc_mono (by linarith)
  rw [Arith.exact_round, Arith.exact_toInt] at hs ⊢
  omega

/-- An applied line moves the clock by the measured time. -/
theorem clock_applied (hw : ∀ e ∈ r.trace, WholeMicros e.time) {i : ℕ}
    {p : Pass CntState Iteration} {o : ℤ} {s : CntState}
    (h : (cntThread .exact r env inForce)[i]? = some p) (hm : Measured p)
    (hv : p.out.visit = .applied o) (hn : p.next = some s) :
    s.clock = p.head.clock + p.out.env.timestampEnd.toNat := by
  obtain ⟨-, ho, h0, -⟩ := applied_spec h hv
  have hle : o ≤ p.out.env.timestampEnd.toNat := by
    simpa [requested, hv] using hm (by rw [hn]; rfl)
  have hf := fct_afterApply_of_le .exact r.settings p.out.env p.out.entry o p.head h0 hle
  have hfq : ((p.head.afterApply .exact r.settings p.out.env p.out.entry o).fct.toNat : ℚ) =
      p.out.env.timestampEnd.toNat - o := by exact_mod_cast hf
  have hoff := offset_exact hw h
  rw [← ho] at hoff
  rw [applied_next h hv hn, CntState.clock, hfq, hoff]
  change p.out.entry.time * 1000000 + _ = _
  ring

/-- A late line leaves the clock where it is. -/
theorem clock_late (hw : ∀ e ∈ r.trace, WholeMicros e.time) {i : ℕ}
    {p : Pass CntState Iteration} {o : ℤ} {s : CntState}
    (h : (cntThread .exact r env inForce)[i]? = some p)
    (hv : p.out.visit = .late o) (hn : p.next = some s) : s.clock = p.head.clock := by
  obtain ⟨-, ho, -, hc⟩ := late_spec h hv
  rw [hc, Option.some.injEq] at hn
  have hoff := offset_exact hw h
  rw [← ho] at hoff
  rw [← hn, clock_afterLate, hoff]
  ring

/-- In exact arithmetic the replay clock grows by the measured time of every applied line
and rests on late ones. Wake-up instants of applied lines are as far apart as their times,
and the clock between them has advanced by exactly what was measured. -/
theorem cntThread_no_drift (r : Replay) (env : ℕ → IterEnv) (inForce : SockOpt → ℤ)
    (hmono : r.trace.Pairwise (fun a b ↦ a.time ≤ b.time))
    (hw : ∀ e ∈ r.trace, WholeMicros e.time)
    (hm : ∀ p ∈ cntThread .exact r env inForce, Measured p) :
    (∀ p ∈ cntThread .exact r env inForce, ∀ o s, p.out.visit = .applied o →
      p.next = some s → s.clock = p.head.clock + p.out.env.timestampEnd.toNat) ∧
    (∀ p ∈ cntThread .exact r env inForce, ∀ o s, p.out.visit = .late o →
      p.next = some s → s.clock = p.head.clock) ∧
    (∀ (i j : ℕ) (p q : Pass CntState Iteration) (a b : ℤ), i < j →
      (cntThread .exact r env inForce)[i]? = some p →
      (cntThread .exact r env inForce)[j]? = some q → p.out.visit = .applied a →
      q.out.visit = .applied b →
      (q.head.clock + b) - (p.head.clock + a) =
        (q.out.entry.time - p.out.entry.time) * 1000000 ∧
      q.head.clock = p.head.clock +
        ((((cntThread .exact r env inForce).take j).drop i).map clockStep).sum) := by
  refine ⟨?_, ?_, ?_⟩
  · intro p hp o s hv hn
    obtain ⟨i, hi⟩ := List.mem_iff_getElem?.mp hp
    exact clock_applied hw hi (hm p hp) hv hn
  · intro p hp o s hv hn
    obtain ⟨i, hi⟩ := List.mem_iff_getElem?.mp hp
    exact clock_late hw hi hv hn
  · intro i j p q a b hij hp hq hpa hqb
    obtain ⟨hs, ha, -, -⟩ := applied_spec hp hpa
    obtain ⟨-, hb, -, -⟩ := applied_spec hq hqb
    constructor
    · have hoa := offset_exact hw hp
      have hob := offset_exact hw hq
      rw [← ha] at hoa
      rw [← hb] at hob
      rw [hoa, hob]
      ring
    · apply passes_sum CntState.clock clockStep hij.le _ hp hq
      intro l m s hil hlj hl hn
      -- Between two applied lines nothing is skipped, so the clock is never reset.
      have hns := not_skips_of_le hmono hil hp hl hs
      cases hv : m.out.visit with
      | skipped => exact absurd (skips_of_skipped hl hv) hns
      | late o =>
        rw [clock_late hw hl hv hn, clockStep, hv]
        simp
      | applied o =>
        rw [clock_applied hw hl (hm m (List.mem_of_getElem? hl)) hv hn, clockStep, hv]

end Exact

/-- Four lines, replayed by iterations of which the first overruns the next two. -/
def overrunReplay : Replay :=
  ⟨⟨5, 1, 1, 2⟩, [⟨1, 1, 1⟩, ⟨2, 1, 1⟩, ⟨5 / 2, 1, 1⟩, ⟨4, 1, 1⟩], 0⟩

/-- Clock readings of that replay. -/
def overrunEnv (k : ℕ) : IterEnv := ⟨0, if k = 0 then 2700000 else 1300000, fun _ ↦ true⟩

/-- The last line wakes up three seconds after the first although two lines were dropped. -/
theorem cntThread_no_drift_overrun :
    (cntThread .exact overrunReplay overrunEnv (fun _ ↦ 0)).map (fun p ↦ p.out.visit) =
      [.applied 1000000, .late (-700000), .late (-200000), .applied 1300000] ∧
    ∀ p q, (cntThread .exact overrunReplay overrunEnv (fun _ ↦ 0))[0]? = some p →
      (cntThread .exact overrunReplay overrunEnv (fun _ ↦ 0))[3]? = some q →
      (q.head.clock + 1300000) - (p.head.clock + 1000000) = 3000000 := by
  have hv : (cntThread .exact overrunReplay overrunEnv (fun _ ↦ 0)).map (fun p ↦ p.out.visit) =
      [.applied 1000000, .late (-700000), .late (-200000), .applied 1300000] := by
    decide +kernel
  have hmono : overrunReplay.trace.Pairwise (fun a b ↦ a.time ≤ b.time) := by
    decide +kernel
  have hw : ∀ e ∈ overrunReplay.trace, WholeMicros e.time := by
    intro e he
    simp only [overrunReplay, List.mem_cons, List.not_mem_nil, or_false] at he
    rcases he with rfl | rfl | rfl | rfl
    · exact ⟨1000000, by norm_num⟩
    · exact ⟨2000000, by norm_num⟩
    · exact ⟨2500000, by norm_num⟩
    · exact ⟨4000000, by norm_num⟩
  have hm : ∀ p ∈ cntThread .exact overrunReplay overrunEnv (fun _ ↦ 0), Measured p := by
    decide +kernel
  refine ⟨hv, ?_⟩
  intro p q hp hq
  have hpv : p.out.visit = .applied 1000000 := (Option.some.inj (visit_of_map hv hp)).symm
  have hqv : q.out.visit = .applied 1300000 := (Option.some.inj (visit_of_map hv hq)).symm
  have hpe : p.out.entry = ⟨1, 1, 1⟩ := (Option.some.inj (cntThread_entry hp)).symm
  have hqe : q.out.entry = ⟨4, 1, 1⟩ := (Option.some.inj (cntThread_entry hq)).symm
  have h := ((cntThread_no_drift overrunReplay overrunEnv (fun _ ↦ 0) hmono hw hm).2.2
    0 3 p q 1000000 1300000 (by norm_num) hp hq hpv hqv).1
  rw [hpe, hqe] at h
  norm_num at h ⊢
  exact h

/-! ### Where the clock starts -/

/-- The first applied line is scheduled for its own time on a clock that reads the bias
when the loop is entered: the sleeps requested so far add up to the difference. -/
def Aligned (c : Arith) (r : Replay) (env : ℕ → IterEnv) (inForce : SockOpt → ℤ) : Prop :=
  ∀ (k : ℕ) (p : Pass CntState Iteration) (o : ℤ),
    (cntThread c r env inForce)[k]? = some p → p.out.visit = .applied o →
    (∀ j q o', j < k → (cntThread c r env inForce)[j]? = some q →
      q.out.visit ≠ .applied o') →
    (((((cntThread c r env inForce).take (k + 1)).map requested).sum : ℤ) : ℚ) =
      (p.out.entry.time - r.biasTime c) * 1000000

section Start

variable {c : Arith} {r : Replay} {env : ℕ → IterEnv} {inForce : SockOpt → ℤ}

private theorem requested_sum_first {k : ℕ} {p : Pass CntState Iteration} {o : ℤ}
    (hp : (cntThread c r env inForce)[k]? = some p) (hv : p.out.visit = .applied o)
    (hfirst : ∀ j q o', j < k → (cntThread c r env inForce)[j]? = some q →
      q.out.visit ≠ .applied o') :
    (((cntThread c r env inForce).take (k + 1)).map requested).sum = o := by
  have hz : (((cntThread c r env inForce).take k).map requested).sum = 0 := by
    apply List.sum_eq_zero
    intro x hx
    obtain ⟨q, hq, rfl⟩ := List.mem_map.mp hx
    obtain ⟨j, hj⟩ := List.mem_iff_getElem?.mp hq
    rw [List.getElem?_take] at hj
    split at hj
    · next hjk =>
      have hne := hfirst j q
      cases hvq : q.out.visit with
      | skipped => simp [requested, hvq]
      | late o' => simp [requested, hvq]
      | applied o' => exact absurd hvq (hne o' hjk hj)
    · cases hj
  rw [List.take_add_one, hp, Option.toList_some, List.map_append, List.sum_append, hz]
  simp [requested, hv]

/-- While every line so far was skipped, the clock is at zero before the first of them and at
the bias after it. -/
theorem head_of_all_skipped {k : ℕ} {p : Pass CntState Iteration}
    (hp : (cntThread c r env inForce)[k]? = some p)
    (hall : ∀ j e, j < k → r.trace[j]? = some e → r.Skips c e) :
    p.head.fct = 0 ∧ p.head.preTime = if k = 0 then 0 else r.biasTime c := by
  induction k generalizing p with
  | zero =>
    rw [passes_head hp]
    exact ⟨rfl, rfl⟩
  | succ k ih =>
    obtain ⟨q, hq⟩ := passes_before (Nat.le_succ k) hp
    obtain ⟨hf, -⟩ := ih hq (fun j e hj ↦ hall j e (by omega))
    have hs := hall k _ (Nat.lt_succ_self k) (cntThread_entry hq)
    obtain ⟨-, -, ⟨-, -, hc⟩ | ⟨hns, -⟩ | ⟨hns, -⟩⟩ := cntThread_cases hq
    · have hn := passes_next hq hp
      rw [hc, Option.some.injEq] at hn
      rw [← hn]
      exact ⟨hf, rfl⟩
    · exact absurd hs hns
    · exact absurd hs hns

/-- A line before which every line is skipped is visited. -/
theorem exists_of_all_skipped {k : ℕ} (hk : k < r.trace.length)
    (hall : ∀ j e, j < k → r.trace[j]? = some e → r.Skips c e) :
    ∃ p, (cntThread c r env inForce)[k]? = some p := by
  induction k with
  | zero => exact cntThread_zero hk
  | succ k ih =>
    obtain ⟨q, hq⟩ := ih (by omega) (fun j e hj ↦ hall j e (by omega))
    have hs := hall k _ (Nat.lt_succ_self k) (cntThread_entry hq)
    obtain ⟨-, -, ⟨-, -, hc⟩ | ⟨hns, -⟩ | ⟨hns, -⟩⟩ := cntThread_cases hq
    · obtain ⟨p, hp, -⟩ := cntThread_succ hq hc hk
      exact ⟨p, hp⟩
    · exact absurd hs hns
    · exact absurd hs hns

private theorem biasTime_nonneg (r : Replay) : 0 ≤ r.biasTime .exact := by
  rw [biasTime_exact]
  positivity

private theorem biasTime_lt_of_not_skips {e : STrace} (h : ¬ r.Skips .exact e) :
    r.biasTime .exact < e.time := by
  by_contra hle
  apply h
  unfold Replay.Skips Replay.timeScaled Replay.biasTimeScaled
  rw [Arith.exact_toInt, Arith.exact_toInt, Arith.exact_round, Arith.exact_round]
  exact trunc_mono (by linarith)

/-- In exact arithmetic the first line that is not skipped is applied, after a sleep
counted from zero or, when a line was skipped before it, from the bias. -/
theorem first_unskipped_applied {k : ℕ} {p : Pass CntState Iteration}
    (hp : (cntThread .exact r env inForce)[k]? = some p)
    (hall : ∀ j e, j < k → r.trace[j]? = some e → r.Skips .exact e)
    (hs : ¬ r.Skips .exact p.out.entry) :
    p.out.visit = .applied
      (trunc ((p.out.entry.time - if k = 0 then 0 else r.biasTime .exact) * 1000000)) := by
  obtain ⟨hf, hpre⟩ := head_of_all_skipped hp hall
  have hb := biasTime_lt_of_not_skips hs
  have hb0 := biasTime_nonneg r
  have ho : Replay.offset .exact p.head p.out.entry =
      trunc ((p.out.entry.time - if k = 0 then 0 else r.biasTime .exact) * 1000000) := by
    unfold Replay.offset
    rw [hf, hpre]
    simp
  have hnn : 0 ≤ Replay.offset .exact p.head p.out.entry := by
    rw [ho]
    apply trunc_nonneg
    split <;> linarith
  obtain ⟨-, -, ⟨hc, -⟩ | ⟨-, hneg, -⟩ | ⟨-, -, hv, -⟩⟩ := cntThread_cases hp
  · exact absurd hc hs
  · omega
  · rw [hv, ho]

private theorem all_skipped_of_first {k : ℕ} {p : Pass CntState Iteration}
    (hp : (cntThread .exact r env inForce)[k]? = some p)
    (hfirst : ∀ j q o', j < k → (cntThread .exact r env inForce)[j]? = some q →
      q.out.visit ≠ .applied o') :
    ∀ j e, j < k → r.trace[j]? = some e → r.Skips .exact e := by
  intro j
  induction j using Nat.strongRecOn with
  | ind j ih =>
    intro e hj he
    obtain ⟨q, hq⟩ := passes_before hj.le hp
    have hqe : q.out.entry = e := Option.some.inj ((cntThread_entry hq).symm.trans he)
    by_contra hs
    rw [← hqe] at hs
    exact hfirst j q _ hj hq
      (first_unskipped_applied hq (fun i e hi ↦ ih i hi e (by omega)) hs)

private theorem find_unskipped_iff {k : ℕ} {e : STrace} (hk : r.trace[k]? = some e)
    (hs : ¬ r.Skips c e) (hall : ∀ j e, j < k → r.trace[j]? = some e → r.Skips c e) :
    r.trace.find? (fun e ↦ decide (¬ r.Skips c e)) = some e := by
  obtain ⟨hlt, he⟩ := List.getElem?_eq_some_iff.mp hk
  refine List.find?_eq_some_iff_getElem.mpr ⟨decide_eq_true hs, k, hlt, he, ?_⟩
  intro j hj
  have := hall j _ hj (List.getElem?_eq_getElem (by omega))
  simpa using this

private theorem head_skips_iff {k : ℕ} {e : STrace} (hk : r.trace[k]? = some e)
    (hs : ¬ r.Skips c e) (hall : ∀ j e, j < k → r.trace[j]? = some e → r.Skips c e) :
    (∃ e₀, r.trace.head? = some e₀ ∧ r.Skips c e₀) ↔ k ≠ 0 := by
  rw [List.head?_eq_getElem?]
  constructor
  · rintro ⟨e₀, he₀, hs₀⟩ rfl
    rw [hk, Option.some.injEq] at he₀
    exact hs (he₀ ▸ hs₀)
  · intro hk0
    have h0 : 0 < r.trace.length := by
      have := (List.getElem?_eq_some_iff.mp hk).1
      omega
    have he₀ := List.getElem?_eq_getElem h0
    exact ⟨r.trace[0], he₀, hall 0 _ (by omega) he₀⟩

-- The first sleep ends at the time of its line on a clock that reads the bias exactly when that
-- time is a whole microsecond and the sleep is counted from the bias.
private theorem first_sleep_iff (r : Replay) (t : ℚ) (k : ℕ) :
    (trunc ((t - if k = 0 then 0 else r.biasTime .exact) * 1000000) : ℚ) =
        (t - r.biasTime .exact) * 1000000 ↔
      WholeMicros t ∧ (r.setupTime = 0 ∨ k ≠ 0) := by
  have hbias : r.biasTime .exact * 1000000 = r.setupTime.toNat := by
    rw [biasTime_exact]
    ring
  constructor
  · intro h
    constructor
    · refine ⟨trunc ((t - if k = 0 then 0 else r.biasTime .exact) * 1000000)
        + r.setupTime.toNat, ?_⟩
      push_cast
      rw [h, ← hbias]
      ring
    · by_contra hc
      rw [not_or, not_not] at hc
      rw [if_pos hc.2, sub_zero] at h
      have hlt := abs_sub_trunc_lt (t * 1000000)
      rw [h, sub_mul, sub_sub_cancel, hbias, Nat.abs_cast] at hlt
      have hzero : r.setupTime.toNat < 1 := by exact_mod_cast hlt
      exact hc.1 (UInt64.toNat_inj.mp (by simpa using hzero))
  · rintro ⟨⟨n, hn⟩, hstart⟩
    have hpre : (if k = 0 then 0 else r.biasTime .exact) = r.biasTime .exact := by
      rcases hstart with hz | hk
      · simp [biasTime_exact, hz]
      · rw [if_neg hk]
    have hd : (t - r.biasTime .exact) * 1000000 = ((n - r.setupTime.toNat : ℤ) : ℚ) := by
      rw [sub_mul, hn, hbias]
      push_cast
      rfl
    rw [hpre, hd, trunc_intCast]

end Start

/-- In exact arithmetic the replay starts aligned if and only if the first line past the
bias, if there is one, lies on a whole microsecond and the bias is zero or the trace
begins with a line that is skipped. -/
theorem aligned_iff (r : Replay) (env : ℕ → IterEnv) (inForce : SockOpt → ℤ) :
    Aligned .exact r env inForce ↔
      ∀ e, r.trace.find? (fun e ↦ decide (¬ r.Skips .exact e)) = some e →
        WholeMicros e.time ∧
          (r.setupTime = 0 ∨ ∃ e₀, r.trace.head? = some e₀ ∧ r.Skips .exact e₀) := by
  constructor
  · intro ha e he
    obtain ⟨hs, k, hk, hke, hbefore⟩ := List.find?_eq_some_iff_getElem.mp he
    have hall : ∀ j e, j < k → r.trace[j]? = some e → r.Skips .exact e := by
      intro j e' hj he'
      obtain ⟨hj', rfl⟩ := List.getElem?_eq_some_iff.mp he'
      simpa using hbefore j hj
    obtain ⟨p, hp⟩ := exists_of_all_skipped (c := .exact) hk hall
    have hpe : p.out.entry = e := by
      have h := cntThread_entry hp
      rw [List.getElem?_eq_getElem hk, Option.some.injEq] at h
      rw [← h, hke]
    have hns : ¬ r.Skips .exact p.out.entry := by
      rw [hpe]
      exact of_decide_eq_true hs
    have hv := first_unskipped_applied hp hall hns
    have hfirst : ∀ j q o', j < k → (cntThread .exact r env inForce)[j]? = some q →
        q.out.visit ≠ .applied o' := by
      intro j q o' hj hq hqv
      exact (applied_spec hq hqv).1 (hall j _ hj (cntThread_entry hq))
    have hsum := ha k p _ hp hv hfirst
    rw [requested_sum_first hp hv hfirst, first_sleep_iff, hpe] at hsum
    rwa [head_skips_iff (cntThread_entry hp) hns hall]
  · intro hc k p o hp hv hfirst
    have hall := all_skipped_of_first hp hfirst
    have hs := (applied_spec hp hv).1
    have hstart := hc _ (find_unskipped_iff (cntThread_entry hp) hs hall)
    have ho := first_unskipped_applied hp hall hs
    rw [hv, Visit.applied.injEq] at ho
    rw [head_skips_iff (cntThread_entry hp) hs hall] at hstart
    rw [requested_sum_first hp hv hfirst, ho, first_sleep_iff]
    exact hstart

/-- A trace that begins half a second after the bias is replayed half a second late. -/
theorem not_aligned_late_start :
    ([⟨1, 1, 1⟩, ⟨2, 1, 1⟩] : List STrace).Pairwise (fun a b ↦ a.time ≤ b.time) ∧
    ¬ Aligned .exact ⟨⟨5, 1, 1, 2⟩, [⟨1, 1, 1⟩, ⟨2, 1, 1⟩], 500000⟩
      (fun _ ↦ ⟨0, 1000000, fun _ ↦ true⟩) (fun _ ↦ 0) := by
  refine ⟨by decide +kernel, ?_⟩
  intro ha
  obtain ⟨p, hp⟩ := cntThread_zero (c := .exact)
    (r := ⟨⟨5, 1, 1, 2⟩, [⟨1, 1, 1⟩, ⟨2, 1, 1⟩], 500000⟩) (by decide)
  have hpe : p.out.entry = ⟨1, 1, 1⟩ := (Option.some.inj (cntThread_entry hp)).symm
  have hv := first_unskipped_applied hp (fun j _ hj ↦ absurd hj (Nat.not_lt_zero j))
    (by rw [hpe]; decide +kernel)
  have hfirst := ha 0 p _ hp hv (fun j _ _ hj ↦ absurd hj (Nat.not_lt_zero j))
  rw [requested_sum_first hp hv (fun j _ _ hj ↦ absurd hj (Nat.not_lt_zero j)), hpe] at hfirst
  revert hfirst
  decide +kernel

end NatcpSpec.Server
