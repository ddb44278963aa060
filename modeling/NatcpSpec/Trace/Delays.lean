import NatcpSpec.Base.Rank
import NatcpSpec.Trace.LineOrder
import NatcpSpec.Trace.SignalDelay

/-!
# Delays

`mm-del` reads a log like `mm-thr`, but it looks at departures only: it takes a log with
events of unknown type or with impossible delays, and needs no two different times. On a log
that `mm-thr` reports on, both have the same delays, the same average and the same 95th
percentile.
-/

namespace NatcpSpec.Trace

open NatcpSpec.Base

/-! ### The program -/

/-- The variables of the loop, with what is written to the `.dat` file; `mm-del:16–24`. -/
structure DelState where
  base : Option ℕ
  delays : List Number
  signalDelay : Series Number Number
  dat : Text

/-- The state before the first line. -/
def DelState.start : DelState := ⟨none, [], ∅, []⟩

/-- A double in a string. -/
def numberText : Number → Text
  | .finite q => perlNumber q
  | .inf false => [73, 110, 102]
  | .inf true => [45, 73, 110, 102]
  | .nan => [78, 97, 78]

/-- A line of the `.dat` file: creation in seconds, and the delay as it is in the log;
`mm-del:79–80`. -/
def datLine (c : Arith) (time : ℤ) (delay : Text) : Text :=
  numberText (((Number.finite time).sub c (perlValue c delay)).divNat c 1000) ++ [32] ++ delay ++
    [10]

/-- Account for a departure; `mm-del:76–80`. -/
def DelState.push (c : Arith) (s : DelState) (time : ℤ) (delay : Text) : DelState where
  base := s.base
  delays := s.delays ++ [perlValue c delay]
  signalDelay := noteDelay c s.signalDelay time (perlValue c delay)
  dat := s.dat ++ datLine c time delay

/-- One line of the loop; `mm-del:28–82`. -/
def delStep (c : Arith) (s : DelState) (line : Text) : Except Die DelState :=
  match checkLine keepPositive s.base line with
  | .error d => .error d
  | .ok (base, none) => .ok { s with base := base }
  | .ok (base, some raw) =>
    if raw.eventType = [45] then
      match raw.delay with
      | none => .error .departureFormat
      | some delay => .ok ({ s with base := base }.push c raw.time delay)
    else .ok { s with base := base }

/-- `int`. -/
def perlInt : Number → Number
  | .finite q => .finite (trunc q)
  | a => a

/-- What `mm-del` reports, writes and draws with. -/
structure DelReport where
  avg : Number
  pp95 : Number
  lowerLimit : Number
  signalDelay : Series Number Number
  dat : Text

/-- The numbers for the delays that were collected. The points of the curve that is drawn of the
signal delays are left out; `mm-del:112–156`. -/
def DelState.report (c : Arith) (p : Perl) (s : DelState) : Except Stop DelReport :=
  if s.delays = [] then .error (.die .noDeparture)
  else
    let delays := p.delaySort.sort s.delays
    match measureSignalDelay c p s.signalDelay with
    | none => .error .outOfFuel
    | some table => .ok
      { avg := mean c delays
        pp95 := atFraction c 95 delays
        lowerLimit := min (.finite 30) (perlInt (atFraction c 50 delays))
        signalDelay := table
        dat := s.dat }

/-- `mm-del` on the lines of a log; `mm-del:27–156`. -/
def mmDel (c : Arith) (p : Perl) (lines : List Text) : Except Stop DelReport :=
  match lines.foldlM (delStep c) .start with
  | .error d => .error (.die d)
  | .ok s => s.report c p

/-! ### Against `mm-thr` -/

section Agrees

variable {c : Arith} {p : Perl} {lines : List Text}

-- On events that `mm-thr` can read, the loop collects the delays of the departures.
private theorem foldlM_delStep (s : DelState) (lines : List Text) {es : List LogEvent}
    {base : Option ℕ}
    (hes : (rawEvents keepPositive s.base lines).1.mapM (RawEvent.read c) = .ok es)
    (hbase : (rawEvents keepPositive s.base lines).2 = .ok base) :
    ∃ dat, lines.foldlM (delStep c) s = .ok { base := base
                                              delays := s.delays ++ es.filterMap LogEvent.delay
                                              signalDelay := es.foldl (noteEvent c) s.signalDelay
                                              dat := dat } := by
  induction lines generalizing s es with
  | nil =>
    cases hes
    cases hbase
    exact ⟨s.dat, by simp; rfl⟩
  | cons line lines ih =>
    rw [rawEvents] at hes hbase
    rw [List.foldlM_cons, delStep]
    rcases hline : checkLine keepPositive s.base line with d | ⟨base', _ | raw⟩
    · rw [hline] at hbase
      cases hbase
    · rw [hline] at hes hbase
      exact ih { s with base := base' } hes hbase
    · rw [hline] at hes hbase
      dsimp only at hes hbase
      rw [Option.toList_some, List.singleton_append, List.mapM_cons] at hes
      rcases hread : raw.read c with d | e
      · rw [hread] at hes
        cases hes
      rcases hrest : (rawEvents keepPositive base' lines).1.mapM (RawEvent.read c) with d | es'
      · rw [hread, hrest] at hes
        cases hes
      rw [hread, hrest] at hes
      cases hes
      rcases delay_of_read hread with ⟨htype, delay, hdelay, he, htime⟩ | ⟨htype, he⟩
      · obtain ⟨dat, hdat⟩ := ih ({ s with base := base' }.push c raw.time delay) hrest hbase
        refine ⟨dat, ?_⟩
        simp only [htype, hdelay, if_pos]
        refine hdat.trans ?_
        simp [DelState.push, he, htime, noteEvent]
      · obtain ⟨dat, hdat⟩ := ih { s with base := base' } hrest hbase
        refine ⟨dat, ?_⟩
        simp only [htype, if_neg, not_false_eq_true]
        refine hdat.trans ?_
        simp [he, noteEvent]

-- `mm-del` on a log that `mm-thr` reads to its end.
private theorem mmDel_of_logEvents {es : List LogEvent} {table : Series Number Number}
    (h : logEvents c keepPositive lines = .ok es) (hne : es.filterMap LogEvent.delay ≠ [])
    (htable : measureSignalDelay c p (es.foldl (noteEvent c) ∅) = some table) :
    ∃ r, mmDel c p lines = .ok r ∧
      r.avg = mean c (p.delaySort.sort (es.filterMap LogEvent.delay)) ∧
      r.pp95 = atFraction c 95 (p.delaySort.sort (es.filterMap LogEvent.delay)) ∧
      r.signalDelay = table := by
  unfold logEvents at h
  rcases hread : (rawEvents keepPositive none lines).1.mapM (RawEvent.read c) with d | es'
  · rw [hread] at h
    cases h
  rcases hbase : (rawEvents keepPositive none lines).2 with d | base
  · rw [hread, hbase] at h
    cases h
  rw [hread, hbase] at h
  cases h
  obtain ⟨dat, hloop⟩ := foldlM_delStep .start lines hread hbase
  have hreport : mmDel c p lines =
      DelState.report c p ⟨base, es.filterMap LogEvent.delay, es.foldl (noteEvent c) ∅, dat⟩ := by
    rw [mmDel, hloop]
    rfl
  rw [hreport, DelState.report, if_neg hne]
  simp only [htable]
  exact ⟨_, rfl, rfl, rfl, rfl⟩

private theorem exists_of_mmThr {arg : Text} {report : Report}
    (h : mmThr c p arg lines = .ok report) :
    ∃ ms es, msPerBin arg = .ok ms ∧ ms ≠ 0 ∧ logEvents c keepPositive lines = .ok es := by
  cases harg : msPerBin arg with
  | error stop =>
    rw [mmThr, harg] at h
    cases h
  | ok ms =>
    by_cases hms : ms = 0
    · subst hms
      have hnone := toOption_mmThr_zero (c := c) (p := p) harg lines
      rw [h] at hnone
      cases hnone
    · cases hes : logEvents c keepPositive lines with
      | error d =>
        have hnone := toOption_mmThr_error (p := p) harg hms hes
        rw [h] at hnone
        cases hnone
      | ok es => exact ⟨ms, es, rfl, hms, rfl⟩

end Agrees

/-- On a log that `mm-thr` reports on, `mm-del` has the same average and percentile, from the
same signal delays. -/
theorem mmDel_agrees (c : Arith) (hc : c.KeepsZero) (p : Perl) (arg : Text) (lines : List Text)
    (report : Report) (h : mmThr c p arg lines = .ok report) :
    ∃ r es, mmDel c p lines = .ok r ∧ logEvents c keepPositive lines = .ok es ∧
      r.avg = report.statistics.avg ∧ r.pp95 = report.statistics.pp95 ∧
      measureSignalDelay c p (es.foldl (noteEvent c) ∅) = some r.signalDelay := by
  obtain ⟨ms, es, harg, hms, hes⟩ := exists_of_mmThr h
  obtain ⟨-, -, hdelays, hsignal, duration, hstatistics⟩ :=
    reported_spec hc harg hms hes h
  rw [delays_totalsOf] at hdelays
  rw [signalDelay_totalsOf] at hsignal
  obtain ⟨table, htable⟩ := Option.isSome_iff_exists.mp hsignal
  obtain ⟨r, hr, havg, hpp95, rfl⟩ := mmDel_of_logEvents hes hdelays htable
  refine ⟨r, es, hr, hes, ?_, ?_, htable⟩
  · rw [havg, hstatistics, Totals.summary, delays_totalsOf]
  · rw [hpp95, hstatistics, Totals.summary, delays_totalsOf]

/-- A log of four departures with delays of 1, 2, 3 and 40 ms. -/
def fourDepartures : List Text :=
  [baseHeader ++ [49, 48, 48], [49, 48, 49, 32, 35, 32, 49], [49, 48, 53, 32, 45, 32, 49, 32, 50],
    [49, 53, 48, 32, 45, 32, 49, 32, 52, 48], [49, 53, 49, 32, 45, 32, 49, 32, 49],
    [49, 53, 50, 32, 45, 32, 49, 32, 51]]

private theorem exists_report_four :
    ∃ report, mmThr .exact (.sorted 100) [53] fourDepartures = .ok report ∧
      report.statistics.avg = .finite (23 / 2) ∧ report.statistics.pp95 = .finite 40 := by
  have hreport : (mmThr .exact (.sorted 100) [53] fourDepartures).toOption.map
      (fun r ↦ (r.statistics.avg, r.statistics.pp95)) = some (.finite (23 / 2), .finite 40) := by
    decide +kernel
  obtain ⟨report, h, hpair⟩ := exists_ok_of_map hreport
  exact ⟨report, h, congrArg Prod.fst hpair, congrArg Prod.snd hpair⟩

/-- Both tools have an average of eleven and a half milliseconds. -/
theorem mmDel_agrees_four : ∃ r es, mmDel .exact (.sorted 100) fourDepartures = .ok r ∧
    logEvents .exact keepPositive fourDepartures = .ok es ∧ r.avg = .finite (23 / 2) ∧
      r.pp95 = .finite 40 ∧
      measureSignalDelay .exact (.sorted 100) (noted es) = some r.signalDelay := by
  obtain ⟨report, hreport, havg, hpp95⟩ := exists_report_four
  obtain ⟨r, es, hr, hes, havg', hpp95', hsignal⟩ :=
    mmDel_agrees .exact Arith.exact_keepsZero (.sorted 100) [53] fourDepartures report hreport
  exact ⟨r, es, hr, hes, havg'.trans havg, hpp95'.trans hpp95, hsignal⟩

/-! ### The percentile -/

private theorem isPercentile_atFraction (p : Perl) {percent : ℕ} (hpercent : percent < 100)
    {delays : List Number} (hnan : .nan ∉ delays) (hne : delays ≠ []) :
    IsPercentile percent delays (atFraction .exact percent (p.delaySort.sort delays)) := by
  obtain ⟨x, hx⟩ := exists_percentile? hpercent hne
  have hindex : (trunc (((percent : ℚ) / 100) * (delays.length : ℕ))).toNat =
      percent * delays.length / 100 := by
    have hmul : ((percent : ℚ) / 100) * (delays.length : ℕ) =
        ((percent * delays.length : ℕ) : ℚ) / (100 : ℕ) := by
      push_cast
      ring
    rw [hmul, trunc_of_nonneg (by positivity), Rat.floor_natCast_div_natCast]
    exact Int.toNat_natCast _
  have hat : atFraction .exact percent (p.delaySort.sort delays) = x := by
    rw [atFraction, p.delaySort.sort_eq hnan, Arith.exact_round, Arith.exact_round,
      List.length_insertionSort, hindex, ← percentile?, hx, Option.getD_some]
  rw [hat]
  exact isPercentile_of_percentile? hx

/-- The 95th percentile that `mm-thr` reports is the delay of a packet; at most 95 % of the
packets have a lesser delay, and more than that have no greater one. -/
theorem pp95_isPercentile (p : Perl) (arg : Text) (lines : List Text) (report : Report)
    (h : mmThr .exact p arg lines = .ok report)
    (hnan : ∀ es, logEvents .exact keepPositive lines = .ok es →
      ∀ e ∈ es, e.delay ≠ some .nan) :
    ∃ es, logEvents .exact keepPositive lines = .ok es ∧
      IsPercentile 95 (es.filterMap LogEvent.delay) report.statistics.pp95 := by
  obtain ⟨ms, es, harg, hms, hes⟩ := exists_of_mmThr h
  obtain ⟨-, -, hdelays, -, duration, hstatistics⟩ :=
    reported_spec Arith.exact_keepsZero harg hms hes h
  rw [delays_totalsOf] at hdelays
  refine ⟨es, hes, ?_⟩
  have hnone : .nan ∉ es.filterMap LogEvent.delay := by
    rw [List.mem_filterMap]
    rintro ⟨e, he, hdelay⟩
    exact hnan es hes e he hdelay
  rw [hstatistics, Totals.summary, delays_totalsOf]
  exact isPercentile_atFraction p (by decide) hnone hdelays

/-- Of four delays, the greatest is the 95th percentile. -/
theorem pp95_isPercentile_four : ∃ es, logEvents .exact keepPositive fourDepartures = .ok es ∧
    IsPercentile 95 (es.filterMap LogEvent.delay) (.finite 40) := by
  have hplain : (logEvents .exact keepPositive fourDepartures).toOption.all
      (fun es ↦ es.all (fun e ↦ e.delay ≠ some .nan)) = true := by
    decide +kernel
  obtain ⟨report, hreport, -, hpp95⟩ := exists_report_four
  obtain ⟨es, hes, h⟩ := pp95_isPercentile (.sorted 100) [53] fourDepartures report hreport (by
    intro es hes e he
    rw [hes] at hplain
    simpa using List.all_eq_true.mp hplain e he)
  exact ⟨es, hes, hpp95 ▸ h⟩

end NatcpSpec.Trace
