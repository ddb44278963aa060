import NatcpSpec.Server.ReplayCoverage

/-!
# The schedule of the replay

`CntThread`, `src/server.cc:434–498`, in exact arithmetic. The loop knows the time only from
what it measures: where the client was when the clock was read, and how long every applied
line took. Between the reading and the loop the thread sleeps for `lag_time`, which it does not
measure. When the first line is skipped, or the client is at zero, these times add up to the
instants at which the lines are applied, and each is the time of its line and the lag. Lines
that are further apart than an iteration overruns its sleep are all applied.
-/

namespace NatcpSpec.Server

open NatcpSpec.Base

/-- When the iteration at a place wakes up, in microseconds on the clock that `setup_time` is
read from: the reading, `src/server.cc:434`, what the sleep of line 440 took, what the applied
lines before it took, and its own sleep. -/
def wakeUp (r : Replay) (lag : ℕ) (ps : List (Pass CntState Iteration)) (i : ℕ) : ℚ :=
  r.setupTime.toNat + lag + ((ps.take i).map clockStep).sum + (ps[i]?.elim 0 requested : ℤ)

/-- The iteration at a place wakes up at an instant and leaves a rate in force. -/
def PutsInForce (r : Replay) (lag : ℕ) (ps : List (Pass CntState Iteration)) (i : ℕ) (rate : ℤ)
    (instant : ℚ) : Prop :=
  ∃ p s o, ps[i]? = some p ∧ p.out.visit = .applied o ∧ p.next = some s ∧
    s.inForce .tcpBbrBwval = rate ∧ wakeUp r lag ps i = instant

/-- The iteration handed its line to the kernel. -/
def Visit.isApplied : Visit → Bool
  | .applied _ => true
  | _ => false

/-- An iteration that, if it applied its line, was not stopped by the calls, slept for as long
as it asked to and took less than a given time more. -/
def Prompt (g : Settings) (gap : ℕ) (p : Pass CntState Iteration) : Prop :=
  p.out.visit.isApplied = true → feedbackFails g p.out.env.ok = false ∧
    requested p ≤ p.out.env.timestampEnd.toNat ∧ p.out.env.timestampEnd.toNat < requested p + gap

instance (g : Settings) (gap : ℕ) (p : Pass CntState Iteration) : Decidable (Prompt g gap p) :=
  inferInstanceAs (Decidable (_ → _))

/-- The clock starts where the client is: at zero, or at the bias because of a skipped line. -/
def StartsAligned (r : Replay) : Prop :=
  r.setupTime = 0 ∨ ∃ e₀, r.trace.head? = some e₀ ∧ r.Skips .exact e₀

section Schedule

variable {r : Replay} {env : ℕ → IterEnv} {inForce : SockOpt → ℤ} {gap : ℕ}

/-- What is known of a prompt iteration that applied its line. -/
theorem Prompt.of_applied {g : Settings} {p : Pass CntState Iteration} {o : ℤ}
    (h : Prompt g gap p) (hv : p.out.visit = .applied o) :
    feedbackFails g p.out.env.ok = false ∧ o ≤ p.out.env.timestampEnd.toNat ∧
      p.out.env.timestampEnd.toNat < o + gap := by
  have happlied := h (by rw [hv]; rfl)
  rwa [requested, hv] at happlied

/-- A prompt iteration took at least the sleep it asked for. -/
theorem Prompt.measured {g : Settings} {p : Pass CntState Iteration} (h : Prompt g gap p) :
    Measured p := by
  intro _
  cases hv : p.out.visit with
  | skipped => simp [requested, hv]
  | late o => simp [requested, hv]
  | applied o =>
    rw [requested, hv]
    exact (h.of_applied hv).2.1

/-! ### Wake-up instants -/

private theorem clock_of_not_skips (hw : ∀ e ∈ r.trace, WholeMicros e.time) {i : ℕ}
    {p : Pass CntState Iteration} {s : CntState}
    (h : (cntThread .exact r env inForce)[i]? = some p) (hm : Measured p)
    (hs : ¬ r.Skips .exact p.out.entry) (hn : p.next = some s) :
    s.clock = p.head.clock + clockStep p := by
  cases hv : p.out.visit with
  | skipped => exact absurd (skips_of_skipped h hv) hs
  | late o =>
    rw [clock_late hw h hv hn, clockStep, hv]
    simp
  | applied o => rw [clock_applied hw h hm hv hn, clockStep, hv]

private theorem clock_first (hw : ∀ e ∈ r.trace, WholeMicros e.time) (hstart : StartsAligned r)
    {k : ℕ} {p : Pass CntState Iteration} (hp : (cntThread .exact r env inForce)[k]? = some p)
    (hall : ∀ j e, j < k → r.trace[j]? = some e → r.Skips .exact e)
    (hs : ¬ r.Skips .exact p.out.entry) : p.head.clock = r.setupTime.toNat := by
  have hbias : r.biasTime .exact * 1000000 = r.setupTime.toNat := by
    rw [biasTime_exact]
    ring
  have hpre : (if k = 0 then 0 else r.biasTime .exact) = r.biasTime .exact := by
    rcases hstart with hz | ⟨e₀, he₀, hskip⟩
    · simp [biasTime_exact, hz]
    · rw [if_neg]
      rintro rfl
      rw [List.head?_eq_getElem?, cntThread_entry hp, Option.some.injEq] at he₀
      exact hs (he₀ ▸ hskip)
  have hv := first_unskipped_applied hp hall hs
  have ho := (applied_spec hp hv).2.1
  have hoff := offset_exact hw hp
  obtain ⟨n, hn⟩ := hw _ (List.mem_of_getElem? (cntThread_entry hp))
  have hd : (p.out.entry.time - r.biasTime .exact) * 1000000 =
      ((n - r.setupTime.toNat : ℤ) : ℚ) := by
    rw [sub_mul, hn, hbias]
    push_cast
    rfl
  rw [← ho, hpre, hd, trunc_intCast, hn] at hoff
  push_cast at hoff
  linarith

private theorem exists_first_unskipped {c : Arith} {i : ℕ} {e : STrace}
    (he : r.trace[i]? = some e) (hs : ¬ r.Skips c e) :
    ∃ k ≤ i, (∃ e, r.trace[k]? = some e ∧ ¬ r.Skips c e) ∧
      ∀ j e, j < k → r.trace[j]? = some e → r.Skips c e := by
  classical
  have hex : ∃ k e, r.trace[k]? = some e ∧ ¬ r.Skips c e := ⟨i, e, he, hs⟩
  refine ⟨Nat.find hex, Nat.find_min' hex ⟨e, he, hs⟩, Nat.find_spec hex, ?_⟩
  intro j e hj hje
  by_contra hne
  exact Nat.find_min hex hj ⟨e, hje, hne⟩

private theorem sum_clockStep_of_skips {k : ℕ}
    (hall : ∀ j e, j < k → r.trace[j]? = some e → r.Skips .exact e) :
    (((cntThread .exact r env inForce).take k).map clockStep).sum = 0 := by
  apply List.sum_eq_zero
  intro x hx
  obtain ⟨m, hmem, rfl⟩ := List.mem_map.mp hx
  obtain ⟨j, hj⟩ := List.mem_iff_getElem?.mp hmem
  rw [List.getElem?_take] at hj
  split at hj
  · next hjk =>
    have hskip := hall j _ hjk (cntThread_entry hj)
    obtain ⟨-, -, ⟨-, hv, -⟩ | ⟨hns, -⟩ | ⟨hns, -⟩⟩ := cntThread_cases hj
    · rw [clockStep, hv]
    · exact absurd hskip hns
    · exact absurd hskip hns
  · cases hj

/-- A line past the bias is reached with the clock at the bias and what the applied lines
before it took. -/
theorem clock_eq_sum (hmono : r.trace.Pairwise (fun a b ↦ a.time ≤ b.time))
    (hw : ∀ e ∈ r.trace, WholeMicros e.time) (hstart : StartsAligned r)
    (hm : ∀ p ∈ cntThread .exact r env inForce, Measured p) {i : ℕ} {p : Pass CntState Iteration}
    (hp : (cntThread .exact r env inForce)[i]? = some p) (hs : ¬ r.Skips .exact p.out.entry) :
    p.head.clock = r.setupTime.toNat +
      (((cntThread .exact r env inForce).take i).map clockStep).sum := by
  obtain ⟨k, hki, ⟨e, he, hes⟩, hall⟩ := exists_first_unskipped (cntThread_entry hp) hs
  obtain ⟨q, hq⟩ : ∃ q, (cntThread .exact r env inForce)[k]? = some q := passes_before hki hp
  obtain rfl : q.out.entry = e := Option.some.inj ((cntThread_entry hq).symm.trans he)
  have hsum : p.head.clock = q.head.clock +
      ((((cntThread .exact r env inForce).take i).drop k).map clockStep).sum := by
    apply passes_sum CntState.clock clockStep hki _ hq hp
    intro l m s hkl _ hl hn
    have hns := not_skips_of_le hmono hkl hq hl hes
    exact clock_of_not_skips hw hl (hm m (List.mem_of_getElem? hl)) hns hn
  have hsplit := List.take_append_drop k ((cntThread .exact r env inForce).take i)
  rw [List.take_take, min_eq_left hki] at hsplit
  rw [hsum, clock_first hw hstart hq hall hes, ← hsplit, List.map_append, List.sum_append,
    sum_clockStep_of_skips hall, zero_add, hsplit]

/-- Every applied line wakes up the lag after its own time. -/
theorem wakeUp_eq (lag : ℕ) (hmono : r.trace.Pairwise (fun a b ↦ a.time ≤ b.time))
    (hw : ∀ e ∈ r.trace, WholeMicros e.time) (hstart : StartsAligned r)
    (hm : ∀ p ∈ cntThread .exact r env inForce, Measured p) {i : ℕ} {p : Pass CntState Iteration}
    {o : ℤ} (hp : (cntThread .exact r env inForce)[i]? = some p)
    (hv : p.out.visit = .applied o) :
    wakeUp r lag (cntThread .exact r env inForce) i = p.out.entry.time * 1000000 + lag := by
  obtain ⟨hs, ho, -, -⟩ := applied_spec hp hv
  have hclock := clock_eq_sum hmono hw hstart hm hp hs
  have hoff := offset_exact hw hp
  rw [← ho] at hoff
  rw [wakeUp, hp, Option.elim_some, requested, hv]
  dsimp only
  rw [hoff, hclock]
  ring

/-! ### No line is late -/

private theorem pairwise_of_isChain {es : List STrace}
    (hgap : es.IsChain (fun a b : STrace ↦ a.time * 1000000 + gap ≤ b.time * 1000000)) :
    es.Pairwise (fun a b ↦ a.time ≤ b.time) := by
  have hle : es.IsChain (fun a b ↦ a.time ≤ b.time) := by
    refine hgap.imp ?_
    intro a b hab
    have hnonneg : (0 : ℚ) ≤ gap := Nat.cast_nonneg gap
    linarith
  exact hle.pairwise

private theorem gap_of_isChain {es : List STrace}
    (hgap : es.IsChain (fun a b : STrace ↦ a.time * 1000000 + gap ≤ b.time * 1000000))
    {i : ℕ} {a b : STrace} (ha : es[i]? = some a) (hb : es[i + 1]? = some b) :
    a.time * 1000000 + gap ≤ b.time * 1000000 := by
  obtain ⟨hi, rfl⟩ := List.getElem?_eq_some_iff.mp ha
  obtain ⟨hj, rfl⟩ := List.getElem?_eq_some_iff.mp hb
  exact List.isChain_iff_getElem.mp hgap i hj

private theorem exists_next {i : ℕ} {p : Pass CntState Iteration}
    (hp : (cntThread .exact r env inForce)[i]? = some p) (hprompt : Prompt r.settings gap p) :
    ∃ s, p.next = some s := by
  obtain ⟨-, -, ⟨-, -, hn⟩ | ⟨-, -, -, hn⟩ | ⟨-, -, hv, hn⟩⟩ := cntThread_cases hp
  · exact ⟨_, hn⟩
  · exact ⟨_, hn⟩
  · rw [(hprompt.of_applied hv).1] at hn
    exact ⟨_, hn⟩

/-- When lines are further apart than iterations overrun, every line past the bias is
applied. -/
theorem exists_applied
    (hgap : r.trace.IsChain (fun a b : STrace ↦ a.time * 1000000 + gap ≤ b.time * 1000000))
    (hw : ∀ e ∈ r.trace, WholeMicros e.time)
    (hprompt : ∀ p ∈ cntThread .exact r env inForce, Prompt r.settings gap p) {i : ℕ}
    (hi : i < r.trace.length) :
    ∃ p, (cntThread .exact r env inForce)[i]? = some p ∧
      (¬ r.Skips .exact p.out.entry → ∃ o, p.out.visit = .applied o) := by
  induction i with
  | zero =>
    obtain ⟨p, hp⟩ : ∃ p, (cntThread .exact r env inForce)[0]? = some p := cntThread_zero hi
    exact ⟨p, hp, fun hs ↦ ⟨_, first_unskipped_applied hp (fun j _ hj ↦ by omega) hs⟩⟩
  | succ i ih =>
    obtain ⟨q, hq, happlied⟩ := ih (by omega)
    obtain ⟨s, hn⟩ := exists_next hq (hprompt q (List.mem_of_getElem? hq))
    obtain ⟨p, hp, hhead⟩ := cntThread_succ hq hn hi
    refine ⟨p, hp, fun hs ↦ ?_⟩
    by_cases hskip : r.Skips .exact q.out.entry
    · have hall : ∀ j e, j < i + 1 → r.trace[j]? = some e → r.Skips .exact e := by
        intro j e hj he
        obtain ⟨m, hm⟩ : ∃ m, (cntThread .exact r env inForce)[j]? = some m :=
          passes_before (by omega : j ≤ i) hq
        obtain rfl : m.out.entry = e := Option.some.inj ((cntThread_entry hm).symm.trans he)
        by_contra hne
        exact not_skips_of_le (pairwise_of_isChain hgap) (by omega) hm hq hne hskip
      exact ⟨_, first_unskipped_applied hp hall hs⟩
    · obtain ⟨o, hv⟩ := happlied hskip
      have hmem := hprompt q (List.mem_of_getElem? hq)
      have hlt : (q.out.env.timestampEnd.toNat : ℚ) < o + gap := by
        exact_mod_cast (hmem.of_applied hv).2.2
      have hclock := clock_applied hw hq hmem.measured hv hn
      have hoff := offset_exact hw hq
      rw [← (applied_spec hq hv).2.1] at hoff
      have hspace := gap_of_isChain hgap (cntThread_entry hq) (cntThread_entry hp)
      refine (applied_exact_iff hw hp).mpr ⟨hs, ?_⟩
      rw [hhead, hclock]
      linarith

/-- Every line past the bias is applied the lag after its own time, and its rate is then in
force. -/
theorem applied_on_time (lag : ℕ)
    (hgap : r.trace.IsChain (fun a b : STrace ↦ a.time * 1000000 + gap ≤ b.time * 1000000))
    (hw : ∀ e ∈ r.trace, WholeMicros e.time) (hstart : StartsAligned r)
    (hprompt : ∀ p ∈ cntThread .exact r env inForce, Prompt r.settings gap p) {i : ℕ}
    {e : STrace} (he : r.trace[i]? = some e) (hs : ¬ r.Skips .exact e) :
    PutsInForce r lag (cntThread .exact r env inForce) i (feedbackVals .exact r.settings e).val1
      (e.time * 1000000 + lag) := by
  obtain ⟨p, hp, happlied⟩ := exists_applied hgap hw hprompt (List.getElem?_eq_some_iff.mp he).1
  obtain rfl : p.out.entry = e := Option.some.inj ((cntThread_entry hp).symm.trans he)
  obtain ⟨o, hv⟩ := happlied hs
  have hmem := hprompt p (List.mem_of_getElem? hp)
  obtain ⟨s, hn⟩ := exists_next hp hmem
  refine ⟨p, s, o, hp, hv, hn, ?_, wakeUp_eq lag (pairwise_of_isChain hgap) hw hstart
    (fun q hq ↦ (hprompt q hq).measured) hp hv⟩
  have hok : p.out.env.ok .tcpBbrBwval = true := by
    by_contra hfail
    have hfails := (feedbackFails_iff r.settings p.out.env.ok).mpr
      (Or.inl (by simpa using hfail))
    rw [(hmem.of_applied hv).1] at hfails
    cases hfails
  rw [applied_next hp hv hn]
  exact setOptions_of_mem _ _ _ (feedbackCalls_nodup .exact r.settings p.out.entry)
    (by simp [feedbackCalls]) hok

end Schedule

end NatcpSpec.Server
