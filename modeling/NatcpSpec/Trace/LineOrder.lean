import NatcpSpec.Trace.Tools

/-!
# Order of the lines

`mm-thr:41–193` on two logs that differ in the order of the lines behind their base
timestamp. Sums, bins and sorted delays do not depend on the order. The last time is the
greatest one, but the first time is that of the event that comes first, whenever it was.
-/

namespace NatcpSpec.Trace

open NatcpSpec.Base

/-- The duration that `mm-thr` divides by, if it gets to the division; `mm-thr:146–154`. -/
def dividesBy (c : Arith) (arg : Text) (lines : List Text) : Option ℚ := do
  let ms ← (msPerBin arg).toOption
  let s ← (eventLoop c keepPositive ms .start lines).toOption
  s.totals.duration c

/-- The times behind the base timestamp in a log that is read to its end. -/
def positiveTimes (c : Arith) (lines : List Text) : Set ℤ :=
  { t | ∃ es, logEvents c keepPositive lines = .ok es ∧ ∃ e ∈ es, e.time = t }

/-- What is divided by is the time between the earliest and the latest event in seconds, as the
nearest double. -/
def DividesByDuration (arg : Text) (lines : List Text) : Prop :=
  ∀ d, dividesBy .amd64 arg lines = some d →
    ∃ least greatest : ℤ, IsLeast (positiveTimes .amd64 lines) least ∧
      IsGreatest (positiveTimes .amd64 lines) greatest ∧
      d = roundDouble (((greatest - least : ℤ) : ℚ) / 1000)

/-- Two orders of the lines behind a header make no difference: there is the same report or
none, and what is divided by is the time between the earliest and the latest event. -/
structure OrderIndependent (p : Perl) (arg header : Text) (lines lines' : List Text) : Prop where
  report : (mmThr .amd64 p arg (header :: lines)).toOption =
    (mmThr .amd64 p arg (header :: lines')).toOption
  duration : DividesByDuration arg (header :: lines)
  duration' : DividesByDuration arg (header :: lines')

/-- In a log that is read to its end with bins of some size, no event behind the base
timestamp is earlier than the one that comes first. -/
def StartsEarliest (arg : Text) (lines : List Text) : Prop :=
  ∀ ms es e₀, msPerBin arg = .ok ms → ms ≠ 0 → logEvents .amd64 keepPositive lines = .ok es →
    es.head? = some e₀ → ∀ e ∈ es, e₀.time ≤ e.time

/-- The bits of a line. -/
def numBits (line : Text) : ℕ :=
  match parseLine line with
  | .ok (.event _ _ numBytes _) => numBytes * 8
  | _ => 0

/-- The delay of a departure is no NaN and has no minus sign. -/
def LogLine.plainDelay : LogLine → Bool
  | .event _ eventType _ (some delay) =>
    eventType ≠ [45] ∨ (perlValue .amd64 delay ≠ .nan ∧ delay.head? ≠ some 45)
  | _ => true

/-- Numbers that Perl adds and sorts in one way only: timestamps and sums of bits have at most
fifteen digits, and there is neither a NaN nor a negative zero among the delays. -/
structure PlainNumbers (lines : List Text) : Prop where
  times : PlainTimes lines
  bits : (lines.map numBits).sum < 10 ^ 15
  delays : ∀ line ∈ lines, (parseLine line).toOption.all LogLine.plainDelay = true

/-! ### Lines behind the base timestamp -/

section Lines

variable (c : Arith) (keep : ℤ → Bool) (base : ℕ)

/-- A line behind the base timestamp by itself: its event, if it has one that is kept. -/
def lineEvent (line : Text) : Except Die (Option LogEvent) :=
  match checkLine keep (some base) line with
  | .error d => .error d
  | .ok (_, none) => .ok none
  | .ok (_, some raw) => (raw.read c).map some

omit c in
/-- The base timestamp does not change. -/
theorem base_of_checkLine {line : Text} {base' : Option ℕ} {raw : Option RawEvent}
    (h : checkLine keep (some base) line = .ok (base', raw)) : base' = some base := by
  unfold checkLine at h
  split at h <;> simp_all

omit c in
/-- It is what is left at the end of the log. -/
theorem base_of_rawEvents {header : Text} (h : parseLine header = .ok (.base base))
    {lines : List Text} {base' : Option ℕ}
    (hend : (rawEvents keep none (header :: lines)).2 = .ok base') : base' = some base := by
  have hcheck : checkLine keep none header = .ok (some base, none) := by
    rw [checkLine, h]
    rfl
  rw [rawEvents, hcheck] at hend
  induction lines with
  | nil =>
    cases hend
    rfl
  | cons line lines ih =>
    dsimp only at hend
    rw [rawEvents] at hend
    rcases hline : checkLine keep (some base) line with d | ⟨next, raw⟩
    · rw [hline] at hend
      cases hend
    · rw [hline, base_of_checkLine keep base hline] at hend
      exact ih hend

private def eventsFrom (lines : List Text) : Except Die (List LogEvent) :=
  match (rawEvents keep (some base) lines).1.mapM (RawEvent.read c),
    (rawEvents keep (some base) lines).2 with
  | .error d, _ => .error d
  | .ok _, .error d => .error d
  | .ok es, .ok _ => .ok es

private theorem eventsFrom_cons (line : Text) (lines : List Text) (es : List LogEvent) :
    eventsFrom c keep base (line :: lines) = .ok es ↔
      ∃ o rest, lineEvent c keep base line = .ok o ∧ eventsFrom c keep base lines = .ok rest ∧
        es = o.toList ++ rest := by
  unfold eventsFrom lineEvent
  rw [rawEvents]
  rcases hc : checkLine keep (some base) line with d | ⟨base', _ | raw⟩
  · simp [pure, Except.pure]
  · rw [base_of_checkLine keep base hc]
    simp
  · rw [base_of_checkLine keep base hc]
    dsimp only
    rw [Option.toList_some, List.singleton_append, List.mapM_cons]
    rcases raw.read c with d | e
    · simp [bind, Except.bind, Except.map]
    · rcases (rawEvents keep (some base) lines).1.mapM (RawEvent.read c) with d | es'
      · simp [bind, Except.bind, Except.map]
      · rcases (rawEvents keep (some base) lines).2 with d | b
        · simp [bind, Except.bind, Except.map, pure, Except.pure]
        · simp [bind, Except.bind, Except.map, pure, Except.pure, eq_comm]

private theorem eventsFrom_eq_ok_iff (lines : List Text) (es : List LogEvent) :
    eventsFrom c keep base lines = .ok es ↔
      (∀ line ∈ lines, (lineEvent c keep base line).isOk = true) ∧
        es = lines.filterMap (fun line ↦ (lineEvent c keep base line).toOption.join) := by
  induction lines generalizing es with
  | nil =>
    rw [show eventsFrom c keep base [] = .ok [] from rfl, Except.ok.injEq, eq_comm]
    simp
  | cons line lines ih =>
    rw [eventsFrom_cons, List.forall_mem_cons]
    simp only [ih]
    rcases hl : lineEvent c keep base line with d | _ | e
    · simp [Except.isOk, Except.toBool]
    · rw [List.filterMap_cons_none (by rw [hl]; rfl)]
      simp [Except.isOk, Except.toBool]
    · rw [List.filterMap_cons_some (by rw [hl]; rfl)]
      simp [Except.isOk, Except.toBool]

/-- Events of a log that starts with its base timestamp: every line is fine by itself, and
the events are those of the lines. -/
theorem logEvents_base_iff {header : Text} (h : parseLine header = .ok (.base base))
    (lines : List Text) (es : List LogEvent) :
    logEvents c keep (header :: lines) = .ok es ↔
      (∀ line ∈ lines, (lineEvent c keep base line).isOk = true) ∧
        es = lines.filterMap (fun line ↦ (lineEvent c keep base line).toOption.join) := by
  rw [← eventsFrom_eq_ok_iff]
  have hcheck : checkLine keep none header = .ok (some base, none) := by
    rw [checkLine, h]
    rfl
  unfold logEvents eventsFrom
  rw [rawEvents, hcheck]
  rfl

/-- In another order the lines hold the same events, in another order. -/
theorem logEvents_perm {header : Text} (h : parseLine header = .ok (.base base))
    {lines lines' : List Text} (hperm : lines.Perm lines') {es : List LogEvent}
    (hes : logEvents c keep (header :: lines) = .ok es) :
    ∃ es', logEvents c keep (header :: lines') = .ok es' ∧ es.Perm es' := by
  obtain ⟨hok, rfl⟩ := (logEvents_base_iff c keep base h lines es).mp hes
  refine ⟨_, (logEvents_base_iff c keep base h lines' _).mpr ⟨?_, rfl⟩, hperm.filterMap _⟩
  intro line hline
  exact hok line (hperm.mem_iff.mpr hline)

end Lines

/-! ### What is counted does not depend on the order -/

section Counted

variable (c : Arith) (p : Perl) (ms : ℕ) {es es' : List LogEvent} (h : es.Perm es')

include h

/-- Bits of events in another order. -/
theorem bitsWhere_perm (p : LogEvent → Bool) : bitsWhere p es = bitsWhere p es' :=
  ((h.filter p).map LogEvent.bits).sum_eq

omit p in
/-- The last time does not depend on the order. -/
theorem last_perm : (totalsOf c ms es).last = (totalsOf c ms es').last := by
  by_cases hnil : es = []
  · subst hnil
    rw [List.nil_perm.mp h]
  · obtain ⟨last, hlast⟩ := last_totalsOf_isSome c ms es hnil
    obtain ⟨last', hlast'⟩ := last_totalsOf_isSome c ms es' (fun h0 ↦ hnil (by simpa [h0] using h))
    have hmax := last_totalsOf c ms es hlast
    have hmax' := last_totalsOf c ms es' hlast'
    simp only [← h.mem_iff] at hmax'
    rw [hlast, hlast', hmax.unique hmax']

omit p in
private theorem delays_perm : ((totalsOf c ms es).delays).Perm (totalsOf c ms es').delays := by
  rw [delays_totalsOf, delays_totalsOf]
  exact h.filterMap _

/-- Averages over a duration do not depend on the order, nor does a percentile. -/
theorem summary_perm (hnan : ∀ e ∈ es, e.delay ≠ some .nan) (duration : ℚ) :
    (totalsOf c ms es).summary c p duration = (totalsOf c ms es').summary c p duration := by
  have hsort : p.delaySort.sort (totalsOf c ms es).delays =
      p.delaySort.sort (totalsOf c ms es').delays := by
    apply p.delaySort.sort_perm (delays_perm c ms h)
    rw [delays_totalsOf, List.mem_filterMap]
    rintro ⟨e, he, hdelay⟩
    exact hnan e he hdelay
  unfold Totals.summary
  simp only [sums_totalsOf, bitsWhere_perm h, hsort]

omit p in
/-- Rows do not depend on the order. -/
theorem rows_perm : (totalsOf c ms es).rows c ms = (totalsOf c ms es').rows c ms := by
  by_cases hnil : es = []
  · subst hnil
    rw [List.nil_perm.mp h]
  · have hnil' : es' ≠ [] := fun h0 ↦ hnil (by simpa [h0] using h)
    obtain ⟨lo, hi, hlo, hhi, hrows⟩ := rows_totalsOf c ms hnil
    obtain ⟨lo', hi', hlo', hhi', hrows'⟩ := rows_totalsOf c ms hnil'
    simp only [← h.mem_iff] at hlo' hhi'
    have hbits : (totalsOf c ms es).bits = (totalsOf c ms es').bits := by
      funext kind bin
      rw [Totals.bits, Totals.bits, count_totalsOf, count_totalsOf, bitsWhere_perm h]
    rw [hrows, hrows', hlo.unique hlo', hhi.unique hhi', hbits]

/-- Whether the loop over the signal delays ends does not depend on the order. -/
theorem measureSignalDelay_perm (hnan : ∀ e ∈ es, e.delay ≠ some .nan) :
    (measureSignalDelay c p (totalsOf c ms es).signalDelay).isSome =
      (measureSignalDelay c p (totalsOf c ms es').signalDelay).isSome := by
  apply measureSignalDelay_isSome_congr
  · rw [List.perm_ext_iff_of_nodup (AList.keys_nodup _) (AList.keys_nodup _)]
    intro k
    rw [mem_keys_signalDelay, mem_keys_signalDelay]
    simp only [h.mem_iff]
  · rw [mem_keys_signalDelay]
    rintro ⟨e, he, delay, hdelay, hkey⟩
    refine hnan e he ?_
    rw [hdelay, Option.some.injEq]
    exact eq_nan_of_hashKey hkey

/-- Of two orders with the same first time there is one report. -/
theorem report_perm (hc : c.KeepsZero) (hnan : ∀ e ∈ es, e.delay ≠ some .nan)
    (hfirst : es.head?.map LogEvent.time = es'.head?.map LogEvent.time) (base : Option ℕ) :
    LogState.report c p ms ⟨base, totalsOf c ms es⟩ =
      LogState.report c p ms ⟨base, totalsOf c ms es'⟩ := by
  have hdelays : (totalsOf c ms es).delays = [] ↔ (totalsOf c ms es').delays = [] := by
    rw [← List.perm_nil, ← List.perm_nil]
    exact (delays_perm c ms h).congr_left _
  have hstatistics : (totalsOf c ms es).statistics c p = (totalsOf c ms es').statistics c p := by
    rw [← first_totalsOf c ms, ← first_totalsOf c ms] at hfirst
    cases hf : (totalsOf c ms es').first with
    | none => rw [statistics_of_none _ hf, statistics_of_none _ (hfirst.trans hf)]
    | some first =>
      rw [statistics_eq hc _ hf, statistics_eq hc _ (hfirst.trans hf), last_perm c ms h,
        ← Option.not_isSome, measureSignalDelay_perm c p ms h hnan, Option.not_isSome]
      simp only [hdelays, summary_perm c p ms h hnan]
  unfold LogState.report
  rw [hstatistics, rows_perm c ms h, last_perm c ms h]

end Counted

/-! ### The report -/

section Report

variable {c : Arith} {p : Perl} {arg : Text} {ms : ℕ} {lines : List Text} {es : List LogEvent}

/-- What is divided by in a log with a first event. -/
theorem dividesBy_eq_some (harg : msPerBin arg = .ok ms) (hms : ms ≠ 0)
    (hes : logEvents c keepPositive lines = .ok es) {e₀ : LogEvent} (hhead : es.head? = some e₀) :
    ∃ greatest, IsGreatest (positiveTimes c lines) greatest ∧
      dividesBy c arg lines = some (c.round (((greatest - e₀.time : ℤ) : ℚ) / 1000)) := by
  have hne : es ≠ [] := by
    rintro rfl
    cases hhead
  have htimes : positiveTimes c lines = { t | ∃ e ∈ es, e.time = t } := by
    simp [positiveTimes, hes]
  obtain ⟨last, hlast⟩ := last_totalsOf_isSome c ms es hne
  obtain ⟨base, -, hloop⟩ := eventLoop_of_logEvents hms hes
  refine ⟨last, htimes ▸ last_totalsOf c ms es hlast, ?_⟩
  simp [dividesBy, harg, hloop, Except.toOption, Totals.duration, first_totalsOf, hhead, hlast]

/-- The division is only reached with an event. -/
theorem exists_of_dividesBy {d : ℚ} (h : dividesBy c arg lines = some d) :
    ∃ ms es e₀, msPerBin arg = .ok ms ∧ ms ≠ 0 ∧ logEvents c keepPositive lines = .ok es ∧
      es.head? = some e₀ := by
  unfold dividesBy at h
  cases harg : msPerBin arg with
  | error stop =>
    rw [harg] at h
    cases h
  | ok ms =>
    simp only [harg, Except.toOption, Option.bind_eq_bind, Option.bind_some] at h
    by_cases hms : ms = 0
    · subst hms
      rcases eventLoop_zero_start c keepPositive lines with
        ⟨-, hloop⟩ | ⟨-, ⟨_, hloop⟩ | ⟨base, hloop⟩⟩ <;> rw [hloop] at h <;> cases h
    · rcases eventLoop_start c keepPositive hms lines with
        ⟨_, -, hloop⟩ | ⟨es, base, hes, -, hloop⟩
      · rw [hloop] at h
        cases h
      · rw [hloop] at h
        cases hhead : es.head? with
        | none =>
          simp [Totals.duration, first_totalsOf, hhead] at h
        | some e₀ => exact ⟨ms, es, e₀, rfl, hms, hes, hhead⟩

-- Durations in milliseconds are told apart by their doubles in seconds.
private theorem eq_of_roundDouble_div {a b : ℤ} (ha : |a| < 2 * 10 ^ 15) (hb : |b| < 2 * 10 ^ 15)
    (h : roundDouble ((a : ℚ) / 1000) = roundDouble ((b : ℚ) / 1000)) : a = b := by
  have hbound : ∀ n : ℤ, |n| < 2 * 10 ^ 15 →
      |roundDouble ((n : ℚ) / 1000) - n / 1000| < 1 / 2000 := by
    intro n hn
    have hcast : |(n : ℚ)| < 2 * 10 ^ 15 := by exact_mod_cast hn
    have herr := abs_roundDouble_sub_le ((n : ℚ) / 1000)
    rw [abs_div, abs_of_pos (by norm_num : (0 : ℚ) < 1000)] at herr
    linarith
  have h1 := abs_lt.mp (hbound a ha)
  have h2 := abs_lt.mp (hbound b hb)
  rw [h] at h1
  have hlow : (-1 : ℚ) < a - b := by linarith
  have hhigh : (a : ℚ) - b < 1 := by linarith
  have hlow' : -1 < a - b := by exact_mod_cast hlow
  have hhigh' : a - b < 1 := by exact_mod_cast hhigh
  omega

/-- The duration is the right one exactly if no event is earlier than the first. -/
theorem duration_iff (arg : Text) (hplain : PlainTimes lines) :
    DividesByDuration arg lines ↔ StartsEarliest arg lines := by
  constructor
  · intro h ms es e₀ harg hms hes hhead e he
    obtain ⟨last, hlast, hd⟩ := dividesBy_eq_some harg hms hes hhead
    obtain ⟨least, greatest, hleast, hgreatest, heq⟩ := h _ hd
    have hbounds : ∀ t ∈ positiveTimes .amd64 lines, |t| < 10 ^ 15 := by
      rintro t ⟨es', hes', e', he', rfl⟩
      exact hplain.abs_time_lt hes' e' he'
    have h0 := abs_lt.mp (hbounds e₀.time ⟨es, hes, e₀, List.mem_of_head? hhead, rfl⟩)
    have h1 := abs_lt.mp (hbounds least hleast.1)
    have h2 := abs_lt.mp (hbounds greatest hgreatest.1)
    rw [hlast.unique hgreatest, Arith.amd64_round] at heq
    have hle : least ≤ e.time := hleast.2 ⟨es, hes, e, he, rfl⟩
    have hsame := eq_of_roundDouble_div (abs_lt.mpr (by omega)) (abs_lt.mpr (by omega)) heq
    omega
  · intro h d hd
    obtain ⟨ms, es, e₀, harg, hms, hes, hhead⟩ := exists_of_dividesBy hd
    obtain ⟨last, hlast, hd'⟩ := dividesBy_eq_some harg hms hes hhead
    refine ⟨e₀.time, last, ⟨⟨es, hes, e₀, List.mem_of_head? hhead, rfl⟩, ?_⟩, hlast, ?_⟩
    · rintro t ⟨es', hes', e, he, rfl⟩
      rw [hes, Except.ok.injEq] at hes'
      subst hes'
      exact h ms es e₀ harg hms hes hhead e he
    · exact Option.some.inj (hd.symm.trans hd')

/-- Without bins there is no report. -/
theorem toOption_mmThr_zero (harg : msPerBin arg = .ok 0) (lines : List Text) :
    (mmThr c p arg lines).toOption = none := by
  rw [mmThr_eq harg]
  rcases eventLoop_zero_start c keepPositive lines with
    ⟨-, hloop⟩ | ⟨-, ⟨d, hloop⟩ | ⟨base, hloop⟩⟩ <;> rw [hloop] <;> rfl

/-- A log that is not read to its end has no report. -/
theorem toOption_mmThr_error (harg : msPerBin arg = .ok ms) (hms : ms ≠ 0) {d : Die}
    (hd : logEvents c keepPositive lines = .error d) : (mmThr c p arg lines).toOption = none := by
  rw [mmThr_eq harg]
  rcases eventLoop_start c keepPositive hms lines with ⟨_, -, hloop⟩ | ⟨es, base, hes, -, -⟩
  · rw [hloop]
    rfl
  · rw [hd] at hes
    cases hes

/-- A log that is read to its end has the report of its events. -/
theorem mmThr_of_logEvents (harg : msPerBin arg = .ok ms) (hms : ms ≠ 0)
    (hes : logEvents c keepPositive lines = .ok es) :
    ∃ base, (rawEvents keepPositive none lines).2 = .ok base ∧
      mmThr c p arg lines = LogState.report c p ms ⟨base, totalsOf c ms es⟩ := by
  obtain ⟨base, hbase, hloop⟩ := eventLoop_of_logEvents hms hes
  refine ⟨base, hbase, ?_⟩
  rw [mmThr_eq harg, hloop]
  rfl

/-- What `mm-thr` reports of the events of a log. -/
theorem reported_spec (hc : c.KeepsZero) {report : Report} (harg : msPerBin arg = .ok ms)
    (hms : ms ≠ 0) (hes : logEvents c keepPositive lines = .ok es)
    (h : mmThr c p arg lines = .ok report) :
    es ≠ [] ∧ (totalsOf c ms es).rows c ms = .ok report.rows ∧ (totalsOf c ms es).delays ≠ [] ∧
      (measureSignalDelay c p (totalsOf c ms es).signalDelay).isSome = true ∧
      ∃ duration, report.statistics = (totalsOf c ms es).summary c p duration := by
  obtain ⟨base, -, heq⟩ := mmThr_of_logEvents (p := p) harg hms hes
  rw [heq] at h
  obtain ⟨hstatistics, -, hrows⟩ := report_eq_ok h
  rcases hfirst : (totalsOf c ms es).first with _ | first
  · rw [statistics_of_none _ hfirst] at hstatistics
    cases hstatistics
  · rw [statistics_eq hc _ hfirst] at hstatistics
    split at hstatistics
    · cases hstatistics
    split at hstatistics
    · cases hstatistics
    split at hstatistics
    · cases hstatistics
    rename_i hdelays hsignal
    refine ⟨?_, hrows, hdelays, ?_, _, (Except.ok.inj hstatistics).symm⟩
    · rintro rfl
      cases hfirst
    · rwa [← Option.not_isSome, Bool.not_eq_true', Bool.not_eq_false] at hsignal

end Report

/-- Two orders that both start with their earliest event have the same first time. -/
theorem head_time_eq {es es' : List LogEvent} (hperm : es.Perm es')
    (h : ∀ e₀, es.head? = some e₀ → ∀ e ∈ es, e₀.time ≤ e.time)
    (h' : ∀ e₀, es'.head? = some e₀ → ∀ e ∈ es', e₀.time ≤ e.time) :
    es.head?.map LogEvent.time = es'.head?.map LogEvent.time := by
  match es, es', hperm with
  | [], es', hperm => rw [List.nil_perm.mp hperm]
  | es, [], hperm => rw [List.perm_nil.mp hperm]
  | e :: es, e' :: es', hperm =>
    have hle := h e rfl e' (hperm.mem_iff.mpr List.mem_cons_self)
    have hle' := h' e' rfl e (hperm.mem_iff.mp List.mem_cons_self)
    simp [le_antisymm hle hle']

/-- No departure of a log of plain numbers has a NaN for its delay. -/
theorem PlainNumbers.delay_ne_nan {keep : ℤ → Bool} {lines : List Text} {es : List LogEvent}
    (h : PlainNumbers lines) (hes : logEvents .amd64 keep lines = .ok es) :
    ∀ e ∈ es, e.delay ≠ some .nan := by
  intro e he hnan
  obtain ⟨-, line, hline, header, hheader, timestamp, eventType, numBytes, delay, value, -, hparse,
    hread⟩ := exists_line_of_logEvents hes e he
  rcases delay_of_read hread with ⟨htype, text, htext, hdelay, -⟩ | ⟨-, hnone⟩
  · obtain rfl : eventType = [45] := htype
    obtain rfl : delay = some text := htext
    rw [hnan, Option.some.injEq] at hdelay
    have hplain := h.delays line hline
    simp [hparse, Except.toOption, LogLine.plainDelay, ← hdelay] at hplain
  · rw [hnone] at hnan
    cases hnan

/-- The base timestamp 100. -/
def hundred : Text := baseHeader ++ [49, 48, 48]

/-- Two bytes of capacity at 101, a departure at 103 and an arrival at 105. -/
def threeLines : List Text :=
  [[49, 48, 49, 32, 35, 32, 50], [49, 48, 51, 32, 45, 32, 49, 32, 49],
    [49, 48, 53, 32, 43, 32, 49]]

end NatcpSpec.Trace
