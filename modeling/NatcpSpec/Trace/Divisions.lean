import NatcpSpec.Trace.Tools

/-!
# Divisions of the trace tools

`feedback/mm-throughput-minrtt:22–24,142–197` and `mm-thr:22–24,146–201`. The size of the
bins divides every event's time as soon as it is read, the duration divides the sums before
the check for departures, and `mm-thr` divides by the average capacity before the check for
a single bin. None of the divisors is looked at before.
-/

namespace NatcpSpec.Trace

open NatcpSpec.Base

/-- A tool gets to its rows or stops at a check of its own. -/
def Proper {α : Type} (r : Except Stop α) : Prop := (∃ a, r = .ok a) ∨ ∃ d, r = .error (.die d)

/-- A tool does so with enough tests of its loop over the signal delays, wherever its sorts leave
a NaN. -/
def EndsProperly {α : Type} (tool : Perl → Except Stop α) : Prop :=
  ∃ n, ∀ p : Perl, n ≤ p.fuel → Proper (tool p)

/-- Neither tool stops at a division by zero, nor goes on for ever: each one gets to its rows or
stops at a check of its own. -/
structure NoZeroDivision (arg : Text) (lines : List Text) : Prop where
  minrtt : EndsProperly (fun p ↦ mmThroughputMinrtt .amd64 p arg lines)
  thr : EndsProperly (fun p ↦ mmThr .amd64 p arg lines)

/-- An event is later than the first one, if there is a first one. -/
def HasDuration (es : List LogEvent) : Prop :=
  ∀ e₀, es.head? = some e₀ → ∃ e ∈ es, e₀.time < e.time

/-- There is capacity if there is a departure. -/
def HasCapacity (es : List LogEvent) : Prop :=
  (∃ e ∈ es, e.kind = .departure) → ∃ e ∈ es, e.kind = .capacity ∧ 0 < e.bits

/-- There is a bin size if there is an event to put into a bin, and a log that is read to
its end has what its tool divides by. -/
def DividesSafely (keep : ℤ → Bool) (needs : List LogEvent → Prop) (ms : ℕ)
    (lines : List Text) : Prop :=
  (ms = 0 → (rawEvents keep none lines).1 = []) ∧
  ∀ es, logEvents .amd64 keep lines = .ok es → needs es

/-! ### Reading -/

/-- A log without events that are kept has no events. -/
theorem eq_nil_of_rawEvents {c : Arith} {keep : ℤ → Bool} {lines : List Text} {es : List LogEvent}
    (h : logEvents c keep lines = .ok es) (hraw : (rawEvents keep none lines).1 = []) :
    es = [] := by
  unfold logEvents at h
  rw [hraw, List.mapM_nil] at h
  generalize (rawEvents keep none lines).2 = rest at h
  cases rest with
  | error d => cases h
  | ok base =>
    cases h
    rfl

/-! ### The loop over the signal delays -/

-- A delay that passes the checks is no more than the time, or no number.
private theorem delay_of_read_amd64 {r : RawEvent} {e : LogEvent} {delay : Number}
    (h : r.read .amd64 = .ok e) (hdelay : e.delay = some delay) :
    delay = .nan ∨ ∃ q : ℚ, delay = .finite q ∧ 0 ≤ q ∧ 0 ≤ roundDouble (e.time - q) := by
  have hchecks : delay.lessThan (.finite 0) = false ∧
      ((Number.finite e.time).sub .amd64 delay).lessThan (.finite 0) = false := by
    unfold RawEvent.read at h
    grind
  rcases delay with q | (_ | _) | _
  · right
    simp only [Number.lessThan_finite, Number.sub_finite, Arith.amd64_round,
      decide_eq_false_iff_not, not_lt] at hchecks
    exact ⟨q, rfl, hchecks⟩
  · exact absurd hchecks.2 (by decide : (Number.inf true).lessThan (.finite 0) ≠ false)
  · exact absurd hchecks.1 (by decide)
  · exact Or.inl rfl

private theorem roundDouble_pow15 : roundDouble (10 ^ 15) = 10 ^ 15 := by
  have h := roundDouble_natCast (n := 10 ^ 15) (by norm_num)
  push_cast at h
  exact h

private theorem pow15_le : (10 ^ 15 : ℚ) ≤ 2 ^ 52 := by norm_num

-- The text of a time of fifteen digits stands for one of them.
private theorem hashKey_bounds {q : ℚ} (h0 : 0 ≤ q) (hq : q ≤ 10 ^ 15) :
    ∃ k : ℚ, hashKey .amd64 (.finite q) = .finite k ∧ 0 ≤ k ∧ k ≤ 2 ^ 52 := by
  refine ⟨_, rfl, ?_⟩
  split
  · exact ⟨h0, hq.trans pow15_le⟩
  · next hden =>
    have hlt : q < 10 ^ 15 := by
      refine lt_of_le_of_ne hq ?_
      rintro rfl
      exact hden (by norm_num)
    obtain ⟨hlow, hhigh⟩ := roundedTo_bounds (P := 15) h0 hlt le_rfl
    exact ⟨roundDouble_nonneg hlow,
      (roundDouble_le hhigh roundDouble_pow15).trans pow15_le⟩

/-- The loop over the signal delays of a log with plain times ends. -/
theorem PlainTimes.measures {keep : ℤ → Bool} {lines : List Text} {es : List LogEvent}
    (h : PlainTimes lines) (hes : logEvents .amd64 keep lines = .ok es) (ms : ℕ) {p : Perl}
    (hfuel : 2 ^ 54 ≤ p.fuel) :
    (measureSignalDelay .amd64 p (totalsOf .amd64 ms es).signalDelay).isSome = true := by
  apply measureSignalDelay_isSome hfuel
  intro k hk
  obtain ⟨e, he, delay, hdelay, rfl⟩ := (mem_keys_signalDelay _ _ _ _).mp hk
  obtain ⟨-, _, -, _, -, _, _, _, _, _, -, -, hread⟩ := exists_line_of_logEvents hes e he
  rcases delay_of_read_amd64 hread hdelay with rfl | ⟨q, rfl, h0, hcreated⟩
  · exact Or.inl rfl
  · right
    have htime : (e.time : ℚ) < 10 ^ 15 := by
      exact_mod_cast (abs_lt.mp (h.abs_time_lt hes e he)).2
    rw [Number.sub_finite, Arith.amd64_round]
    exact hashKey_bounds hcreated (roundDouble_le (by linarith) roundDouble_pow15)

/-! ### Statistics -/

section Statistics

variable {c : Arith} {p : Perl} (ms : ℕ) {es : List LogEvent} {e₀ : LogEvent}

/-- The last time is the first one exactly if no event is later. -/
theorem last_eq_first_iff (h : es.head? = some e₀) :
    (totalsOf c ms es).last.getD e₀.time = e₀.time ↔ ∀ e ∈ es, e.time ≤ e₀.time := by
  have hne : es ≠ [] := by
    rintro rfl
    cases h
  obtain ⟨last, hlast⟩ := last_totalsOf_isSome c ms es hne
  obtain ⟨⟨x, hx, hxlast⟩, hub⟩ := last_totalsOf c ms es hlast
  have h0 := hub ⟨e₀, List.mem_of_head? h, rfl⟩
  rw [hlast, Option.getD_some]
  constructor
  · intro heq e he
    have := hub ⟨e, he, rfl⟩
    omega
  · intro hall
    have := hall x hx
    omega

/-- There are delays exactly if there is a departure. -/
theorem delays_eq_nil_iff : (totalsOf c ms es).delays = [] ↔ ∀ e ∈ es, e.kind ≠ .departure := by
  rw [delays_totalsOf, List.filterMap_eq_nil_iff]
  apply forall₂_congr
  intro e _
  rw [← Option.not_isSome_iff_eq_none, e.delay_isSome]

/-- There is no capacity exactly if no event adds to it. -/
theorem sums_capacity_eq_zero_iff :
    (totalsOf c ms es).sums .capacity = 0 ↔ ∀ e ∈ es, e.kind = .capacity → e.bits = 0 := by
  rw [sums_totalsOf, bitsWhere, List.sum_eq_zero_iff]
  simp only [List.mem_map, List.mem_filter, decide_eq_true_eq]
  constructor
  · intro h e he hk
    exact h _ ⟨e, ⟨he, hk⟩, rfl⟩
  · rintro h _ ⟨e, ⟨he, hk⟩, rfl⟩
    exact h e he hk

/-- Statistics of events by their times and departures. -/
theorem statistics_totalsOf (hc : c.KeepsZero)
    (hsignal : (measureSignalDelay c p (totalsOf c ms es).signalDelay).isSome = true)
    (h : es.head? = some e₀) :
    ((∀ e ∈ es, e.time ≤ e₀.time) ∧
      (totalsOf c ms es).statistics c p = .error .divisionByZero) ∨
    (∃ e ∈ es, e₀.time < e.time) ∧
      ((∀ e ∈ es, e.kind ≠ .departure) ∧
          (totalsOf c ms es).statistics c p = .error (.die .noDeparture) ∨
        (∃ e ∈ es, e.kind = .departure) ∧ ∃ duration, duration ≠ 0 ∧
          (totalsOf c ms es).statistics c p = .ok ((totalsOf c ms es).summary c p duration)) := by
  have hfirst : (totalsOf c ms es).first = some e₀.time := by
    rw [first_totalsOf, h]
    rfl
  have hnone : (measureSignalDelay c p (totalsOf c ms es).signalDelay).isNone = false := by
    rw [← Option.not_isSome, hsignal]
    rfl
  rw [statistics_eq hc _ hfirst, hnone]
  by_cases hlast : (totalsOf c ms es).last.getD e₀.time = e₀.time
  · exact Or.inl ⟨(last_eq_first_iff ms h).mp hlast, if_pos hlast⟩
  right
  rw [if_neg hlast]
  have hlater := mt (last_eq_first_iff ms h).mpr hlast
  push Not at hlater
  refine ⟨hlater, ?_⟩
  by_cases hd : (totalsOf c ms es).delays = []
  · exact Or.inl ⟨(delays_eq_nil_iff ms).mp hd, if_pos hd⟩
  · right
    have hdep := mt (delays_eq_nil_iff ms).mpr hd
    push Not at hdep
    refine ⟨hdep, _, ?_, if_neg hd⟩
    rw [Ne, hc]
    refine div_ne_zero ?_ (by norm_num)
    exact_mod_cast sub_ne_zero.mpr hlast

/-- Rows are printed or refused. -/
theorem proper_rows (t : Totals) : Proper (t.rows c ms) := by
  unfold Totals.rows
  split
  · split
    · exact Or.inr ⟨_, rfl⟩
    · exact Or.inl ⟨_, rfl⟩
  · exact Or.inl ⟨_, rfl⟩

/-- The average capacity is zero exactly if there is none. -/
theorem averageCapacity_eq_zero_iff (hc : c.KeepsZero) {duration : ℚ} (h : duration ≠ 0) :
    ((totalsOf c ms es).summary c p duration).averageCapacity = 0 ↔
      ∀ e ∈ es, e.kind = .capacity → e.bits = 0 := by
  rw [← sums_capacity_eq_zero_iff (c := c) ms, Totals.summary]
  dsimp only
  rw [hc, div_eq_zero_iff, hc]
  simp [h]

end Statistics

/-! ### The tools -/

section Proper

variable {α β : Type}

private theorem not_proper_divisionByZero : ¬Proper (.error .divisionByZero : Except Stop α) := by
  rintro (⟨a, h⟩ | ⟨d, h⟩) <;> cases h

private theorem proper_die (d : Die) : Proper (.error (.die d) : Except Stop α) := Or.inr ⟨d, rfl⟩

private theorem Proper.bind_ok {r : Except Stop α} (h : Proper r) (f : α → β) :
    Proper (r.bind (fun a ↦ .ok (f a))) := by
  rcases h with ⟨a, rfl⟩ | ⟨d, rfl⟩
  · exact Or.inl ⟨f a, rfl⟩
  · exact proper_die d

end Proper

/-- A tool ends properly exactly if its loop does not divide by zero and what follows the loop
does not either. -/
theorem proper_eventLoop_iff {α : Type} (keep : ℤ → Bool) (ms : ℕ) (lines : List Text)
    (after : LogState → Except Stop α) {needs : List LogEvent → Prop} (hnil : needs [])
    (hempty : ∀ base, Proper (after ⟨base, .empty⟩))
    (hafter : ∀ es base, logEvents .amd64 keep lines = .ok es →
      (Proper (after ⟨base, totalsOf .amd64 ms es⟩) ↔ needs es)) :
    Proper ((eventLoop .amd64 keep ms .start lines).bind after) ↔
      DividesSafely keep needs ms lines := by
  unfold DividesSafely
  by_cases hms : ms = 0
  · subst hms
    have hsafe (hraw : (rawEvents keep none lines).1 = []) :
        ∀ es, logEvents .amd64 keep lines = .ok es → needs es := by
      intro es hes
      rw [eq_nil_of_rawEvents hes hraw]
      exact hnil
    rcases eventLoop_zero_start .amd64 keep lines with ⟨hraw, h⟩ | ⟨hraw, ⟨d, h⟩ | ⟨base, h⟩⟩
    · rw [h]
      exact iff_of_false not_proper_divisionByZero (fun hs ↦ hraw (hs.1 rfl))
    · rw [h]
      exact iff_of_true (proper_die d) ⟨fun _ ↦ hraw, hsafe hraw⟩
    · rw [h]
      exact iff_of_true (hempty base) ⟨fun _ ↦ hraw, hsafe hraw⟩
  · rcases eventLoop_start .amd64 keep hms lines with ⟨d, hes, h⟩ | ⟨es, base, hes, -, h⟩
    · rw [h, hes]
      exact iff_of_true (proper_die d) ⟨fun h0 ↦ absurd h0 hms, fun _ he ↦ by cases he⟩
    · rw [h]
      refine (hafter es base hes).trans ?_
      rw [hes]
      simp [hms]

/-- What follows the statistics is reached with a duration and a departure, and matters only
then. -/
theorem proper_statistics_iff {α : Type} {p : Perl} (ms : ℕ) (es : List LogEvent)
    (hsignal :
      (measureSignalDelay .amd64 p (totalsOf .amd64 ms es).signalDelay).isSome = true)
    (after : Statistics → Except Stop α) {safe : Prop}
    (hafter : ∀ duration, duration ≠ 0 →
      (Proper (after ((totalsOf .amd64 ms es).summary .amd64 p duration)) ↔ safe)) :
    Proper (((totalsOf .amd64 ms es).statistics .amd64 p).bind after) ↔
      HasDuration es ∧ ((∃ e ∈ es, e.kind = .departure) → safe) := by
  unfold HasDuration
  cases hhead : es.head? with
  | none =>
    rw [statistics_of_none _ (by rw [first_totalsOf, hhead]; rfl)]
    refine iff_of_true (proper_die _) ⟨(fun e₀ he ↦ by cases he), ?_⟩
    rintro ⟨e, he, -⟩
    rw [List.head?_eq_none_iff.mp hhead] at he
    cases he
  | some e₀ =>
    simp only [Option.some.injEq, forall_eq']
    rcases statistics_totalsOf ms Arith.amd64_keepsZero hsignal hhead with
      ⟨hall, hs⟩ | ⟨hlater, ⟨hnone, hs⟩ | ⟨hdep, duration, hd, hs⟩⟩
    · rw [hs]
      refine iff_of_false not_proper_divisionByZero ?_
      rintro ⟨⟨e, he, hlt⟩, -⟩
      exact absurd (hall e he) (not_le.mpr hlt)
    · rw [hs]
      refine iff_of_true (proper_die _) ⟨hlater, ?_⟩
      rintro ⟨e, he, hk⟩
      exact absurd hk (hnone e he)
    · rw [hs]
      exact (hafter duration hd).trans ⟨fun h ↦ ⟨hlater, fun _ ↦ h⟩, fun h ↦ h.2 hdep⟩

section AfterLoop

variable {p : Perl} {ms : ℕ} {es : List LogEvent}
  (hsignal : (measureSignalDelay .amd64 p (totalsOf .amd64 ms es).signalDelay).isSome = true)
  (base : Option ℕ)

include hsignal

/-- What `mm-throughput-minrtt` divides by after its loop. -/
theorem proper_minrtt_iff :
    Proper (LogState.minrtt .amd64 p ms ⟨base, totalsOf .amd64 ms es⟩) ↔ HasDuration es := by
  have h := proper_statistics_iff ms es hsignal (fun _ ↦ (totalsOf .amd64 ms es).rows .amd64 ms)
    (fun _ _ ↦ iff_true_intro (proper_rows ms _))
  exact h.trans ⟨fun h ↦ h.1, fun h ↦ ⟨h, fun _ ↦ trivial⟩⟩

/-- What `mm-thr` divides by after its loop. -/
theorem proper_report_iff :
    Proper (LogState.report .amd64 p ms ⟨base, totalsOf .amd64 ms es⟩) ↔
      HasDuration es ∧ HasCapacity es := by
  refine proper_statistics_iff ms es hsignal (fun st ↦
    (divide .amd64 (roundDouble (100 * st.averageThroughput)) st.averageCapacity).bind (fun u ↦
      ((totalsOf .amd64 ms es).rows .amd64 ms).bind (fun rows ↦
        .ok (Report.mk st u base (totalsOf .amd64 ms es).last rows)))) ?_
  intro duration hd
  have hcapacity :
      ¬((totalsOf .amd64 ms es).summary .amd64 p duration).averageCapacity = 0 ↔ _ :=
    (averageCapacity_eq_zero_iff ms Arith.amd64_keepsZero hd).not
  push Not at hcapacity
  simp only [Nat.pos_iff_ne_zero, ← hcapacity, divide]
  split
  · next hzero => exact iff_of_false not_proper_divisionByZero (not_not.mpr hzero)
  · next hzero => exact iff_of_true ((proper_rows ms _).bind_ok _) hzero

end AfterLoop

/-- A log with capacity at one time and a departure at a later one. -/
def twoTimes : List Text :=
  [baseHeader ++ [49, 48, 48], [49, 48, 49, 32, 35, 32, 50], [49, 48, 53, 32, 45, 32, 49, 32, 52]]

/-- A log of one departure and nothing else. -/
def oneDeparture : List Text := [baseHeader ++ [49, 48, 48], [49, 48, 49, 32, 45, 32, 49, 32, 49]]

end NatcpSpec.Trace
