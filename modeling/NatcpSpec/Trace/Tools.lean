import NatcpSpec.Trace.Log

/-!
# The trace tools

`feedback/mm-throughput-minrtt` and `mm-thr` from their argument and the lines of a log to
their rows; `mm-thr` reports averages on the way. Both compute the statistics before they
look at the bins, so that a division comes before most of the checks on the whole log. The
signal delays that both compute are never printed, but the rows come behind their loop.
-/

namespace NatcpSpec.Trace

open NatcpSpec.Base

/-! ### Statistics -/

/-- The pattern `^\d+$` on the argument, which may end with a line end, and its value;
`mm-throughput-minrtt:16–20`. -/
def msPerBin (arg : Text) : Except Stop ℕ :=
  let digits := if arg.getLast? = some 10 then arg.dropLast else arg
  if isNumeral digits then .ok (digitsVal digits) else .error (.die .usage)

/-- The averages and delays; `mm-throughput-minrtt:142–177`, `mm-thr:146–183`. -/
structure Statistics where
  duration : ℚ
  averageCapacity : ℚ
  averageIngress : ℚ
  averageThroughput : ℚ
  pp95 : Number
  avg : Number

/-- The duration in seconds, if there is an event; `mm-throughput-minrtt:142–147`. -/
def Totals.duration (c : Arith) (t : Totals) : Option ℚ :=
  t.first.map fun first ↦ c.round (((t.last.getD first - first : ℤ) : ℚ) / 1000)

/-- `$delays[ 0.95 * scalar @delays ]`, with the factor in hundredths;
`mm-throughput-minrtt:158`. -/
def atFraction (c : Arith) (percent : ℕ) (delays : List Number) : Number :=
  (delays[(trunc (c.round (c.round (percent / 100) * delays.length))).toNat]?).getD (.finite 0)

/-- The average, summed up from the first delay on; `mm-throughput-minrtt:172–177`. -/
def mean (c : Arith) (delays : List Number) : Number :=
  (delays.foldl (Number.add c) (.finite 0)).divNat c delays.length

/-- The statistics of what was counted; `mm-throughput-minrtt:142–177`. -/
def Totals.statistics (c : Arith) (p : Perl) (t : Totals) : Except Stop Statistics := do
  let some duration := t.duration c | .error (.die .noEvent)
  let averageCapacity ← divide c (t.sums .capacity) duration
  let averageIngress ← divide c (t.sums .arrival) duration
  let averageThroughput ← divide c (t.sums .departure) duration
  if t.delays = [] then .error (.die .noDeparture)
  let delays := p.delaySort.sort t.delays
  if (measureSignalDelay c p t.signalDelay).isNone then .error .outOfFuel
  if delays.length = 0 then .error .divisionByZero
  return ⟨duration, c.round (averageCapacity / 1000000), c.round (averageIngress / 1000000),
    c.round (averageThroughput / 1000000), atFraction c 95 delays, mean c delays⟩

/-! ### Rows -/

/-- `min`; the largest double that it starts from is above every number.
`mm-throughput-minrtt:118–128`. -/
def perlMin (l : List ℤ) : Option ℤ :=
  l.foldl (fun m x ↦ if m.all (x < ·) then some x else m) none

/-- `max`; `mm-throughput-minrtt:130–140`. -/
def perlMax (l : List ℤ) : Option ℤ :=
  l.foldl (fun m x ↦ if m.all (· < x) then some x else m) none

/-- The bins of the three hashes; `mm-throughput-minrtt:180–181`. -/
def Totals.keys (t : Totals) : List ℤ :=
  (t.bins .arrival).keys ++ (t.bins .capacity).keys ++ (t.bins .departure).keys

/-- The bits of a bin, zero where it is absent; `mm-throughput-minrtt:189–191`. -/
def Totals.bits (t : Totals) (kind : Kind) (bin : ℤ) : ℕ := (t.bins kind).count bin

/-- The rows of what was counted; `mm-throughput-minrtt:180–203`. -/
def Totals.rows (c : Arith) (ms : ℕ) (t : Totals) : Except Stop (List Row) :=
  match perlMin t.keys, perlMax t.keys with
  | some earliest, some latest =>
    if earliest = latest then .error (.die .binTooLarge)
    else .ok (rowLoop c ms t.bits (latest + 1 - earliest).toNat earliest 0)
  | _, _ => .ok []

/-! ### The tools -/

/-- Every event is kept. -/
def keepAll (_ : ℤ) : Bool := true

/-- Events behind the base timestamp are kept; `mm-thr:75`. -/
def keepPositive (time : ℤ) : Bool := 0 < time

/-- What `mm-throughput-minrtt` does after its loop; `mm-throughput-minrtt:142–205`. -/
def LogState.minrtt (c : Arith) (p : Perl) (ms : ℕ) (s : LogState) : Except Stop (List Row) := do
  let _ ← s.totals.statistics c p
  s.totals.rows c ms

/-- `mm-throughput-minrtt` on the lines of a log. -/
def mmThroughputMinrtt (c : Arith) (p : Perl) (arg : Text) (lines : List Text) :
    Except Stop (List Row) := do
  let ms ← msPerBin arg
  let s ← eventLoop c keepAll ms .start lines
  s.minrtt c p ms

/-- What `mm-thr` reports and plots. -/
structure Report where
  statistics : Statistics
  utilization : ℚ
  base : Option ℕ
  last : Option ℤ
  rows : List Row

/-- What `mm-thr` does after its loop; `mm-thr:146–247`. -/
def LogState.report (c : Arith) (p : Perl) (ms : ℕ) (s : LogState) : Except Stop Report := do
  let statistics ← s.totals.statistics c p
  let utilization ←
    divide c (c.round (100 * statistics.averageThroughput)) statistics.averageCapacity
  let rows ← s.totals.rows c ms
  return ⟨statistics, utilization, s.base, s.totals.last, rows⟩

/-- `mm-thr` on the lines of a log. -/
def mmThr (c : Arith) (p : Perl) (arg : Text) (lines : List Text) : Except Stop Report := do
  let ms ← msPerBin arg
  let s ← eventLoop c keepPositive ms .start lines
  s.report c p ms

section Tools

variable {c : Arith} {p : Perl}

/-- `mm-throughput-minrtt` with an argument that passes its check. -/
theorem mmThroughputMinrtt_eq {arg : Text} {ms : ℕ} (h : msPerBin arg = .ok ms)
    (lines : List Text) :
    mmThroughputMinrtt c p arg lines =
      (eventLoop c keepAll ms .start lines).bind (LogState.minrtt c p ms) := by
  rw [mmThroughputMinrtt, h]
  rfl

/-- `mm-thr` with an argument that passes its check. -/
theorem mmThr_eq {arg : Text} {ms : ℕ} (h : msPerBin arg = .ok ms) (lines : List Text) :
    mmThr c p arg lines =
      (eventLoop c keepPositive ms .start lines).bind (LogState.report c p ms) := by
  rw [mmThr, h]
  rfl

/-! ### What the statistics need -/

/-- The statistics for a duration that is not zero. -/
def Totals.summary (c : Arith) (p : Perl) (t : Totals) (duration : ℚ) : Statistics where
  duration := duration
  averageCapacity := c.round (c.round (t.sums .capacity / duration) / 1000000)
  averageIngress := c.round (c.round (t.sums .arrival / duration) / 1000000)
  averageThroughput := c.round (c.round (t.sums .departure / duration) / 1000000)
  pp95 := atFraction c 95 (p.delaySort.sort t.delays)
  avg := mean c (p.delaySort.sort t.delays)

/-- Statistics need two different times, a departure and the end of the loop over the signal
delays, in this order. -/
theorem statistics_eq (hc : c.KeepsZero) (t : Totals) {first : ℤ} (h : t.first = some first) :
    t.statistics c p =
      if t.last.getD first = first then .error .divisionByZero
      else if t.delays = [] then .error (.die .noDeparture)
      else if (measureSignalDelay c p t.signalDelay).isNone then .error .outOfFuel
      else .ok (t.summary c p (c.round (((t.last.getD first - first : ℤ) : ℚ) / 1000))) := by
  have hlength : (p.delaySort.sort t.delays).length = 0 ↔ t.delays = [] := by
    rw [(p.delaySort.perm t.delays).length_eq, List.length_eq_zero_iff]
  have hzero : c.round (((t.last.getD first - first : ℤ) : ℚ) / 1000) = 0 ↔
      t.last.getD first = first := by
    rw [hc, div_eq_zero_iff, Int.cast_eq_zero, sub_eq_zero]
    norm_num
  unfold Totals.statistics Totals.summary Totals.duration divide
  simp only [h, Option.map_some, hlength]
  generalize c.round (((t.last.getD first - first : ℤ) : ℚ) / 1000) = duration at hzero ⊢
  by_cases hlast : t.last.getD first = first
  · simp [hlast, hzero.mpr hlast, bind, Except.bind]
  have hne : duration ≠ 0 := fun h0 ↦ hlast (hzero.mp h0)
  by_cases hd : t.delays = []
  · simp [hne, hlast, hd, bind, Except.bind]
  · cases measureSignalDelay c p t.signalDelay <;>
      simp [hne, hlast, hd, bind, Except.bind, pure, Except.pure]

/-- Without an event there are no statistics. -/
theorem statistics_of_none (t : Totals) (h : t.first = none) :
    t.statistics c p = .error (.die .noEvent) := by
  unfold Totals.statistics Totals.duration
  rw [h]
  rfl

/-- The parts of a report. -/
theorem report_eq_ok {ms : ℕ} {s : LogState} {report : Report}
    (h : s.report c p ms = .ok report) :
    s.totals.statistics c p = .ok report.statistics ∧
      divide c (c.round (100 * report.statistics.averageThroughput))
        report.statistics.averageCapacity = .ok report.utilization ∧
      s.totals.rows c ms = .ok report.rows := by
  unfold LogState.report at h
  rcases hstatistics : s.totals.statistics c p with stop | statistics
  · rw [hstatistics] at h
    cases h
  rcases hdivide : divide c (c.round (100 * statistics.averageThroughput))
      statistics.averageCapacity with stop | utilization
  · simp [hstatistics, hdivide, bind, Except.bind] at h
  rcases hrows : s.totals.rows c ms with stop | rows
  · simp [hstatistics, hdivide, hrows, bind, Except.bind] at h
  · simp only [hstatistics, hdivide, hrows, bind, Except.bind, pure, Except.pure,
      Except.ok.injEq] at h
    subst h
    exact ⟨rfl, hdivide, rfl⟩

end Tools

/-! ### The range of the rows -/

private theorem foldl_perlMin (m : ℤ) (l : List ℤ) :
    l.foldl (fun m x ↦ if m.all (x < ·) then some x else m) (some m) = some (l.foldl min m) := by
  induction l generalizing m with
  | nil => rfl
  | cons x l ih =>
    rw [List.foldl_cons, List.foldl_cons, ← ih, min_comm, min_def_lt]
    simp only [Option.all_some, decide_eq_true_eq]
    split <;> rfl

private theorem foldl_perlMax (m : ℤ) (l : List ℤ) :
    l.foldl (fun m x ↦ if m.all (· < x) then some x else m) (some m) = some (l.foldl max m) := by
  induction l generalizing m with
  | nil => rfl
  | cons x l ih =>
    rw [List.foldl_cons, List.foldl_cons, ← ih, max_def_lt]
    simp only [Option.all_some, decide_eq_true_eq]
    split <;> rfl

/-- The handwritten minimum is the minimum. -/
theorem perlMin_eq (l : List ℤ) : perlMin l = l.min? := by
  cases l with
  | nil => rfl
  | cons x l => exact foldl_perlMin x l

/-- The handwritten maximum is the maximum. -/
theorem perlMax_eq (l : List ℤ) : perlMax l = l.max? := by
  cases l with
  | nil => rfl
  | cons x l => exact foldl_perlMax x l

/-- The keys of the hashes are the bins of the events. -/
theorem mem_keys_iff (c : Arith) (ms : ℕ) (es : List LogEvent) (bin : ℤ) :
    bin ∈ (totalsOf c ms es).keys ↔ ∃ e ∈ es, msToBin c ms e.time = bin := by
  simp only [Totals.keys, List.mem_append, mem_keys_totalsOf]
  constructor
  · rintro ((⟨e, he, -, hb⟩ | ⟨e, he, -, hb⟩) | ⟨e, he, -, hb⟩) <;> exact ⟨e, he, hb⟩
  · rintro ⟨e, he, hb⟩
    cases hk : e.kind with
    | arrival => exact Or.inl (Or.inl ⟨e, he, hk, hb⟩)
    | capacity => exact Or.inl (Or.inr ⟨e, he, hk, hb⟩)
    | departure => exact Or.inr ⟨e, he, hk, hb⟩

/-- The rows of events: none if they are all in one bin, otherwise from the least bin to
the greatest. -/
theorem rows_totalsOf (c : Arith) (ms : ℕ) {es : List LogEvent} (hne : es ≠ []) :
    ∃ earliest latest, IsLeast { b | ∃ e ∈ es, msToBin c ms e.time = b } earliest ∧
      IsGreatest { b | ∃ e ∈ es, msToBin c ms e.time = b } latest ∧
      (totalsOf c ms es).rows c ms =
        if earliest = latest then .error (.die .binTooLarge)
        else
          .ok (rowLoop c ms (totalsOf c ms es).bits (latest + 1 - earliest).toNat earliest 0) := by
  have hkeys : (totalsOf c ms es).keys ≠ [] := by
    obtain ⟨e, he⟩ := List.exists_mem_of_ne_nil es hne
    exact List.ne_nil_of_mem ((mem_keys_iff c ms es _).mpr ⟨e, he, rfl⟩)
  obtain ⟨earliest, hmin⟩ := Option.isSome_iff_exists.mp (List.isSome_min?_iff.mpr hkeys)
  obtain ⟨latest, hmax⟩ := Option.isSome_iff_exists.mp (List.isSome_max?_iff.mpr hkeys)
  refine ⟨earliest, latest, ?_, ?_, ?_⟩
  · obtain ⟨hmem, hle⟩ := List.min?_eq_some_iff.mp hmin
    refine ⟨(mem_keys_iff c ms es earliest).mp hmem, ?_⟩
    intro b hb
    exact hle b ((mem_keys_iff c ms es b).mpr hb)
  · obtain ⟨hmem, hle⟩ := List.max?_eq_some_iff.mp hmax
    refine ⟨(mem_keys_iff c ms es latest).mp hmem, ?_⟩
    intro b hb
    exact hle b ((mem_keys_iff c ms es b).mpr hb)
  · rw [Totals.rows, perlMin_eq, perlMax_eq, hmin, hmax]

end NatcpSpec.Trace
