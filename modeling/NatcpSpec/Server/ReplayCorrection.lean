import NatcpSpec.Server.ReplayDouble

/-!
# The correction carried to the next line

`src/server.cc:441,456,496–497`. What an iteration took beyond its sleep is kept in an
unsigned word and subtracted from the next line's distance. The word holds the signed
difference exactly when the iteration took at least its sleep. A reading that makes an
iteration look shorter wraps, and no line after it is applied however late it lies.
Arithmetic is that of the amd64 build that the installation guide sets up.
-/

namespace NatcpSpec.Server

open NatcpSpec.Base

/-- Every correction that a line subtracts is the signed difference between elapsed time and
sleep. A line that lies after the clock corrected in this way is slept for and applied. Lines
behind the bias are skipped and subtract nothing. -/
def SignedCorrection (c : Arith) (r : Replay) (env : ℕ → IterEnv) (inForce : SockOpt → ℤ) :
    Prop :=
  ∀ (i j : ℕ) (p q : Pass CntState Iteration) (o : ℤ),
    (cntThread c r env inForce)[i]? = some p → p.out.visit = .applied o →
    (cntThread c r env inForce)[j]? = some q → i < j →
    (∀ k m, i < k → k < j → (cntThread c r env inForce)[k]? = some m →
      m.out.visit = .skipped) →
    ¬ r.Skips c q.out.entry →
    (q.head.fct.toNat : ℤ) = p.out.env.elapsed - o ∧
    (q.head.preTime * 1000000 + (p.out.env.elapsed - o : ℤ) < q.out.entry.time * 1000000 →
      ∃ o', q.out.visit = .applied o')

section Carried

variable {c : Arith} {r : Replay} {env : ℕ → IterEnv} {inForce : SockOpt → ℤ}

-- A skipped line keeps the overrun, so it survives up to the line that subtracts it.
private theorem carried {i j : ℕ} {p q : Pass CntState Iteration} {o : ℤ}
    (hp : (cntThread c r env inForce)[i]? = some p) (hv : p.out.visit = .applied o)
    (hq : (cntThread c r env inForce)[j]? = some q) (hij : i < j)
    (hskip : ∀ k m, i < k → k < j → (cntThread c r env inForce)[k]? = some m →
      m.out.visit = .skipped) :
    (q.head.fct.toNat : ℤ) = (p.out.env.elapsed - o) % 2 ^ 64 := by
  induction j, hij using Nat.le_induction generalizing q with
  | base =>
    rw [applied_next hp hv (passes_next hp hq)]
    exact fct_afterApply _ _ _ _ _ _
  | succ j hij ih =>
    obtain ⟨m, hm⟩ := passes_before (Nat.le_succ j) hq
    have hf := ih hm (fun k m hik hkj ↦ hskip k m hik (by omega))
    have hms := hskip j m hij (Nat.lt_succ_self j) hm
    obtain ⟨-, -, ⟨-, -, hc⟩ | ⟨-, -, hl, -⟩ | ⟨-, -, ha, -⟩⟩ := cntThread_cases hm
    · have hn := passes_next hm hq
      rw [hc, Option.some.injEq] at hn
      rw [← hn]
      exact hf
    · rw [hl] at hms
      cases hms
    · rw [ha] at hms
      cases hms

end Carried

section Amd64

variable {r : Replay} {env : ℕ → IterEnv} {inForce : SockOpt → ℤ}

/-- The trace time never falls far below zero. -/
theorem preTime_low {i : ℕ} {p : Pass CntState Iteration}
    (h : (cntThread .amd64 r env inForce)[i]? = some p) : -2147484 ≤ p.head.preTime := by
  apply passes_invariant (fun _ s ↦ -2147484 ≤ s.preTime) (by simp [cntStart]) _ h
  intro j q s hq hn _
  obtain ⟨-, -, ⟨-, -, hc⟩ | ⟨hs, ho, -, hc⟩ | ⟨hs, -, hv, -⟩⟩ := cntThread_cases hq
  · rw [hc, Option.some.injEq] at hn
    rw [← hn]
    exact le_trans (by norm_num) (biasTime_amd64_nonneg r)
  · rw [hc, Option.some.injEq] at hn
    rw [← hn]
    exact le_preTime_afterLate _ ho.le (by linarith [(time_bounds_of_not_skips hs).1])
  · rw [applied_next hq hv hn]
    change _ ≤ q.out.entry.time
    linarith [(time_bounds_of_not_skips hs).1]

/-- An unskipped line that lies after the clock is slept for and applied. -/
theorem applied_of_clock_lt {i : ℕ} {p : Pass CntState Iteration}
    (h : (cntThread .amd64 r env inForce)[i]? = some p) (hs : ¬ r.Skips .amd64 p.out.entry)
    (hlt : p.head.clock < p.out.entry.time * 1000000) : ∃ o, p.out.visit = .applied o := by
  have ho := offset_nonneg_of_clock_lt (time_bounds_of_not_skips hs).2 (preTime_low h) hlt
  obtain ⟨-, -, ⟨hc, -⟩ | ⟨-, hneg, -⟩ | ⟨-, -, hv, -⟩⟩ := cntThread_cases h
  · exact absurd hc hs
  · omega
  · exact ⟨_, hv⟩

/-! ### After a short iteration -/

/-- A line after an unskipped one is skipped only when its milliseconds leave the range of
`int`, and then so are all lines after it. -/
theorem skips_of_skips (hmono : r.trace.Pairwise (fun a b ↦ a.time ≤ b.time)) {i j k : ℕ}
    {p q m : Pass CntState Iteration} (hij : i ≤ j) (hjk : j ≤ k)
    (hp : (cntThread .amd64 r env inForce)[i]? = some p)
    (hq : (cntThread .amd64 r env inForce)[j]? = some q)
    (hm : (cntThread .amd64 r env inForce)[k]? = some m)
    (hs : ¬ r.Skips .amd64 p.out.entry) (hskip : r.Skips .amd64 q.out.entry) :
    r.Skips .amd64 m.out.entry := by
  have hpr : InInt32 (trunc (roundDouble (1000 * p.out.entry.time))) :=
    Arith.inInt32_of_lt_amd64_toInt (Arith.inInt32_amd64_toInt _).1 (not_le.mp hs)
  have hle : trunc (roundDouble (1000 * p.out.entry.time)) ≤
      trunc (roundDouble (1000 * q.out.entry.time)) :=
    trunc_mono (roundDouble_mono (by linarith [entry_time_le hmono hij hp hq]))
  have hle' : trunc (roundDouble (1000 * q.out.entry.time)) ≤
      trunc (roundDouble (1000 * m.out.entry.time)) :=
    trunc_mono (roundDouble_mono (by linarith [entry_time_le hmono hjk hq hm]))
  -- In range the skipped line would lie behind the unskipped one.
  have hqr : ¬InInt32 (trunc (roundDouble (1000 * q.out.entry.time))) := by
    intro hqr
    apply hs
    unfold Replay.Skips Replay.timeScaled at hskip ⊢
    rw [Arith.amd64_round, Arith.amd64.toInt_eq _ hqr] at hskip
    rw [Arith.amd64_round, Arith.amd64.toInt_eq _ hpr]
    omega
  have hmr : ¬InInt32 (trunc (roundDouble (1000 * m.out.entry.time))) := by
    unfold InInt32 at hpr hqr ⊢
    omega
  have hleast : Replay.timeScaled .amd64 m.out.entry = -2 ^ 31 := if_neg hmr
  unfold Replay.Skips
  rw [hleast]
  exact (Arith.inInt32_amd64_toInt _).1

-- The wrapped correction takes the sleep of the next line out of range.
private theorem after_short {i : ℕ} {p q : Pass CntState Iteration} {o : ℤ}
    (hp : (cntThread .amd64 r env inForce)[i]? = some p) (hv : p.out.visit = .applied o)
    (hshort : p.out.env.elapsed < o) (hback : -2 ^ 62 ≤ p.out.env.elapsed)
    (hq : (cntThread .amd64 r env inForce)[i + 1]? = some q)
    (hs : ¬ r.Skips .amd64 q.out.entry) :
    Replay.offset .amd64 q.head q.out.entry < 0 ∧
      2 ^ 41 ≤ (q.head.afterLate .amd64 q.out.entry
        (Replay.offset .amd64 q.head q.out.entry)).preTime := by
  obtain ⟨hps, ho, h0, -⟩ := applied_spec hp hv
  have hb := time_bounds_of_not_skips hs
  have hle : o ≤ 2 ^ 42 - 0 := by
    rw [ho]
    refine offset_le (time_bounds_of_not_skips hps).2 (preTime_low hp) ?_ ?_ (by norm_num)
    · exact_mod_cast roundDouble_nonneg (Nat.cast_nonneg p.head.fct.toNat)
    · decide +kernel
  have hfct : 2 ^ 63 ≤ (q.head.fct.toNat : ℤ) := by
    rw [applied_next hp hv (passes_next hp hq), fct_afterApply]
    omega
  have hcarried : ((2 ^ 63 : ℤ) : ℚ) ≤ roundDouble q.head.fct.toNat := by
    refine le_roundDouble (by exact_mod_cast hfct) ?_
    decide +kernel
  have hoff := offset_le hb.2 (preTime_low hq) hcarried (by decide +kernel) (by norm_num)
  refine ⟨by omega, ?_⟩
  have hsecs : roundDouble (roundDouble (Replay.offset .amd64 q.head q.out.entry : ℚ) / 1000000) ≤
      ((-2 ^ 42 : ℤ) : ℚ) := by
    have hround : roundDouble (Replay.offset .amd64 q.head q.out.entry : ℚ) ≤
        ((2 ^ 42 - 2 ^ 63 : ℤ) : ℚ) :=
      roundDouble_le (by exact_mod_cast hoff) (by decide +kernel)
    refine roundDouble_le ?_ (roundDouble_intCast (by norm_num))
    push_cast at hround ⊢
    linarith
  change (2 ^ 41 : ℚ) ≤ roundDouble (q.out.entry.time
    - roundDouble (roundDouble (Replay.offset .amd64 q.head q.out.entry : ℚ) / 1000000))
  refine le_roundDouble ?_ (by decide +kernel)
  push_cast at hsecs
  linarith [hb.1]

-- From the line after the short one on, every unskipped line is late and leaves the trace time
-- far ahead.
private theorem late_after_short (hmono : r.trace.Pairwise (fun a b ↦ a.time ≤ b.time))
    (hlen : r.trace.length < 2 ^ 31) {i k : ℕ} {p m : Pass CntState Iteration} {o : ℤ}
    (hp : (cntThread .amd64 r env inForce)[i]? = some p) (hv : p.out.visit = .applied o)
    (hshort : p.out.env.elapsed < o) (hback : -2 ^ 62 ≤ p.out.env.elapsed) (hik : i + 1 ≤ k)
    (hm : (cntThread .amd64 r env inForce)[k]? = some m) (hs : ¬ r.Skips .amd64 m.out.entry) :
    Replay.offset .amd64 m.head m.out.entry < 0 ∧
      2 ^ 41 - (k : ℚ) / 64 ≤ (m.head.afterLate .amd64 m.out.entry
        (Replay.offset .amd64 m.head m.out.entry)).preTime := by
  induction k, hik using Nat.le_induction generalizing m with
  | base =>
    obtain ⟨hneg, hahead⟩ := after_short hp hv hshort hback hm hs
    refine ⟨hneg, le_trans ?_ hahead⟩
    have hk : (0 : ℚ) ≤ ((i + 1 : ℕ) : ℚ) := Nat.cast_nonneg _
    linarith
  | succ k hik ih =>
    obtain ⟨m', hm'⟩ := passes_before (Nat.le_succ k) hm
    have hs' : ¬ r.Skips .amd64 m'.out.entry := fun hskip ↦
      hs (skips_of_skips hmono (by omega) (Nat.le_succ k) hp hm' hm (applied_spec hp hv).1 hskip)
    obtain ⟨hneg, hahead⟩ := ih hm' hs'
    have hhead : m.head = m'.head.afterLate .amd64 m'.out.entry
        (Replay.offset .amd64 m'.head m'.out.entry) := by
      obtain ⟨-, -, ⟨hc, -⟩ | ⟨-, -, -, hn⟩ | ⟨-, hpos, -⟩⟩ := cntThread_cases hm'
      · exact absurd hc hs'
      · rw [passes_next hm' hm, Option.some.injEq] at hn
        exact hn
      · omega
    have hk : (k : ℚ) ≤ 2147483648 := by
      have hlt := (List.getElem?_eq_some_iff.mp (cntThread_entry hm)).1
      exact_mod_cast (show k ≤ 2147483648 by omega)
    have hk0 : (0 : ℚ) ≤ k := Nat.cast_nonneg k
    obtain ⟨hlow, hhigh⟩ := time_bounds_of_not_skips hs
    rw [← hhead] at hahead
    obtain ⟨hneg', hnext⟩ := late_of_behind (s := m.head) (e := m.out.entry)
      (2 ^ 41 - (k : ℚ) / 64) (by rw [hhead]; rfl) (by linarith) (by linarith) (by linarith) hahead
      (by linarith)
    refine ⟨hneg', le_trans ?_ hnext⟩
    push_cast
    linarith

/-- An iteration that is measured shorter than its sleep stops the feedback for good: no line
after it is ever applied. The number of lines is an `int`. -/
theorem not_applied_after_short (hmono : r.trace.Pairwise (fun a b ↦ a.time ≤ b.time))
    (hlen : r.trace.length < 2 ^ 31) {i j : ℕ} {p q : Pass CntState Iteration} {o : ℤ}
    (hp : (cntThread .amd64 r env inForce)[i]? = some p) (hv : p.out.visit = .applied o)
    (hshort : p.out.env.elapsed < o) (hback : -2 ^ 62 ≤ p.out.env.elapsed) (hij : i < j)
    (hq : (cntThread .amd64 r env inForce)[j]? = some q) (o' : ℤ) :
    q.out.visit ≠ .applied o' := by
  intro hqa
  obtain ⟨hqs, ho, h0, -⟩ := applied_spec hq hqa
  have hneg := (late_after_short hmono hlen hp hv hshort hback hij hq hqs).1
  omega

end Amd64

/-- In every run, each correction that is subtracted is the signed difference and no line
after the clock is dropped if and only if every applied line took at least the sleep that its
state at the head asked for, unless all iterations after it skip their lines. -/
theorem signedCorrection_iff (r : Replay) (env : ℕ → IterEnv) (inForce : SockOpt → ℤ) :
    SignedCorrection .amd64 r env inForce ↔
      ∀ (i j : ℕ) (p q : Pass CntState Iteration) (o : ℤ),
        (cntThread .amd64 r env inForce)[i]? = some p → p.out.visit = .applied o →
        (cntThread .amd64 r env inForce)[j]? = some q → i < j →
        ¬ r.Skips .amd64 q.out.entry →
        Replay.offset .amd64 p.head p.out.entry ≤ p.out.env.elapsed := by
  constructor
  · intro h i j p q o hp hv hq hij hs
    classical
    -- The correction is subtracted at the first line that is not skipped.
    have hex : ∃ k m, i < k ∧ (cntThread .amd64 r env inForce)[k]? = some m ∧
        ¬ r.Skips .amd64 m.out.entry := ⟨j, q, hij, hq, hs⟩
    obtain ⟨m, hik, hm, hms⟩ := Nat.find_spec hex
    have hskip : ∀ l n, i < l → l < Nat.find hex →
        (cntThread .amd64 r env inForce)[l]? = some n → n.out.visit = .skipped := by
      intro l n hil hlk hn
      obtain ⟨-, -, ⟨-, hvis, -⟩ | ⟨hns, -⟩ | ⟨hns, -⟩⟩ := cntThread_cases hn
      · exact hvis
      · exact absurd ⟨n, hil, hn, hns⟩ (Nat.find_min hex hlk)
      · exact absurd ⟨n, hil, hn, hns⟩ (Nat.find_min hex hlk)
    have hf := (h i _ p m o hp hv hm hik hskip hms).1
    rw [← (applied_spec hp hv).2.1]
    omega
  · intro h i j p q o hp hv hq hij hskip hs
    have hle := h i j p q o hp hv hq hij hs
    obtain ⟨-, ho, h0, -⟩ := applied_spec hp hv
    rw [← ho] at hle
    have hfct : (q.head.fct.toNat : ℤ) = p.out.env.elapsed - o := by
      have hlt : p.out.env.elapsed < 2 ^ 64 := by
        have := p.out.env.finished.toNat_lt
        unfold IterEnv.elapsed
        omega
      rw [carried hp hv hq hij hskip]
      omega
    refine ⟨hfct, ?_⟩
    intro hlater
    have hfq : ((p.out.env.elapsed - o : ℤ) : ℚ) = q.head.fct.toNat := by
      exact_mod_cast hfct.symm
    rw [hfq] at hlater
    exact applied_of_clock_lt hq hs hlater

/-- Three lines a second apart, the first of which is measured one microsecond short. -/
def shortReplay : Replay :=
  ⟨⟨5, 1, 1, 2⟩, [⟨1, 1, 1⟩, ⟨2, 1, 1⟩, ⟨3, 1, 1⟩], 0⟩

/-- Clock readings of that replay. -/
def shortEnv (_ : ℕ) : IterEnv := ⟨0, 999999, fun _ ↦ true⟩

/-- One microsecond missing from the first sleep drops every line after it. -/
theorem not_signedCorrection_short :
    (cntThread .amd64 shortReplay shortEnv (fun _ ↦ 0)).map (fun p ↦ p.out.visit) =
      [.applied 1000000, .late (-9223372036854775808), .late (-9223372036853775360)] ∧
    ¬ SignedCorrection .amd64 shortReplay shortEnv (fun _ ↦ 0) := by
  have hv : (cntThread .amd64 shortReplay shortEnv (fun _ ↦ 0)).map (fun p ↦ p.out.visit) =
      [.applied 1000000, .late (-9223372036854775808), .late (-9223372036853775360)] := by
    decide +kernel
  refine ⟨hv, ?_⟩
  intro h
  obtain ⟨p, hp⟩ := cntThread_zero (c := .amd64) (r := shortReplay) (by decide)
  have hpv : p.out.visit = .applied 1000000 := (Option.some.inj (visit_of_map hv hp)).symm
  have hpx : p.out.env = shortEnv 0 := (cntThread_cases hp).2.1
  obtain ⟨-, -, -, hn⟩ := applied_spec hp hpv
  rw [hpx] at hn
  obtain ⟨q, hq, -⟩ := cntThread_succ hp hn (by decide)
  have hqe : q.out.entry = ⟨2, 1, 1⟩ := (Option.some.inj (cntThread_entry hq)).symm
  have hf := (h 0 1 p q _ hp hpv hq (by decide) (fun k m hk hk' ↦ absurd hk' (by omega))
    (by rw [hqe]; decide +kernel)).1
  rw [hpx] at hf
  have he : (shortEnv 0).elapsed = 999999 := by decide
  omega

end NatcpSpec.Server
