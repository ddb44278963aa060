import NatcpSpec.Trace.Binning
import NatcpSpec.Trace.Delays
import NatcpSpec.Trace.Divisions

/-!
# Start-up

All three tools correct the times of a log "for startup time variation": they subtract the
base timestamp, `mm-thr:74`, `mm-del:60`, `feedback/mm-throughput-minrtt:74`. What they find
does not depend on when the run was started. They differ in the events up to the base
timestamp, which `mm-thr` and `mm-del` leave out; without such events `mm-thr` draws the rows
that `mm-throughput-minrtt` prints.
-/

namespace NatcpSpec.Trace

open NatcpSpec.Base

/-! ### A later start -/

/-- What a line says in the log of the same run, started `k` milliseconds later. -/
def LogLine.shift (k : ℕ) : LogLine → LogLine
  | .base value => .base (value + k)
  | .comment => .comment
  | .event timestamp eventType numBytes delay => .event (timestamp + k) eventType numBytes delay

/-- A line and the line in the log of the same run, started `k` milliseconds later. -/
def LaterBy (k : ℕ) (line line' : Text) : Prop :=
  parseLine line' = (parseLine line).map (LogLine.shift k)

section Later

variable {k : ℕ} {line line' : Text}

/-- A line is kept, and at the same time after the base timestamp. -/
theorem LaterBy.checkLine_eq (h : LaterBy k line line') (keep : ℤ → Bool) (base : Option ℕ) :
    checkLine keep (base.map (· + k)) line' =
      (checkLine keep base line).map (fun x ↦ (x.1.map (· + k), x.2)) := by
  unfold checkLine
  rw [h]
  rcases parseLine line with d | value | _ | ⟨timestamp, eventType, numBytes, delay⟩
  · rfl
  · cases base <;> rfl
  · rfl
  · cases base with
    | none => rfl
    | some value =>
      have htime : ((timestamp + k : ℕ) : ℤ) - ((value + k : ℕ) : ℤ) = timestamp - value := by
        push_cast
        ring
      simp only [Except.map, LogLine.shift, Option.map_some, htime]

/-- The variables of the loop after a later start. -/
def LogState.shift (k : ℕ) (s : LogState) : LogState := { s with base := s.base.map (· + k) }

/-- A line does the same. -/
theorem LaterBy.step_eq (h : LaterBy k line line') (c : Arith) (keep : ℤ → Bool) (ms : ℕ)
    (s : LogState) :
    step c keep ms (s.shift k) line' = (step c keep ms s line).map (LogState.shift k) := by
  unfold step
  rw [LogState.shift, h.checkLine_eq]
  rcases checkLine keep s.base line with d | ⟨base, _ | raw⟩
  · rfl
  · rfl
  · dsimp only [Except.map]
    split
    · rfl
    · cases raw.read c <;> rfl

/-- The variables of the loop of `mm-del` after a later start. -/
def DelState.shift (k : ℕ) (s : DelState) : DelState := { s with base := s.base.map (· + k) }

/-- A line does the same in `mm-del`. -/
theorem LaterBy.delStep_eq (h : LaterBy k line line') (c : Arith) (s : DelState) :
    delStep c (s.shift k) line' = (delStep c s line).map (DelState.shift k) := by
  unfold delStep
  rw [DelState.shift, h.checkLine_eq]
  rcases checkLine keepPositive s.base line with d | ⟨base, _ | raw⟩
  · rfl
  · rfl
  · dsimp only [Except.map]
    split
    · cases raw.delay <;> rfl
    · rfl

end Later

/-- The report of the same run, started `k` milliseconds later: it names the later base
timestamp. -/
def Report.shift (k : ℕ) (r : Report) : Report := { r with base := r.base.map (· + k) }

private theorem report_shift (c : Arith) (p : Perl) (k ms : ℕ) (s : LogState) :
    LogState.report c p ms (s.shift k) = (s.report c p ms).map (Report.shift k) := by
  unfold LogState.report
  rw [LogState.shift]
  dsimp only
  rcases s.totals.statistics c p with stop | st
  · rfl
  · simp only [bind, Except.bind]
    rcases divide c (c.round (100 * st.averageThroughput)) st.averageCapacity with stop | u
    · rfl
    · rcases s.totals.rows c ms with stop | rows
      · rfl
      · rfl

/-- No tool depends on when the run was started, but for the base timestamp that `mm-thr`
reports. -/
theorem startup_independent (c : Arith) (p : Perl) (k : ℕ) (arg : Text) (lines lines' : List Text)
    (h : List.Forall₂ (LaterBy k) lines lines') :
    mmThr c p arg lines' = (mmThr c p arg lines).map (Report.shift k) ∧
      mmThroughputMinrtt c p arg lines' = mmThroughputMinrtt c p arg lines ∧
      mmDel c p lines' = mmDel c p lines := by
  have hloop : ∀ keep ms, eventLoop c keep ms .start lines' =
      (eventLoop c keep ms .start lines).map (LogState.shift k) := by
    intro keep ms
    exact foldlM_map (LogState.shift k) (fun s _ _ hline ↦ hline.step_eq c keep ms s) h .start
  have hdel : lines'.foldlM (delStep c) .start =
      (lines.foldlM (delStep c) .start).map (DelState.shift k) :=
    foldlM_map (DelState.shift k) (fun s _ _ hline ↦ hline.delStep_eq c s) h .start
  refine ⟨?_, ?_, ?_⟩
  · unfold mmThr
    rcases msPerBin arg with stop | ms
    · rfl
    · change (eventLoop c keepPositive ms .start lines').bind _ =
        ((eventLoop c keepPositive ms .start lines).bind _).map _
      rw [hloop]
      rcases eventLoop c keepPositive ms .start lines with stop | s
      · rfl
      · exact report_shift c p k ms s
  · unfold mmThroughputMinrtt
    rcases msPerBin arg with stop | ms
    · rfl
    · change (eventLoop c keepAll ms .start lines').bind _ =
        (eventLoop c keepAll ms .start lines).bind _
      rw [hloop]
      cases eventLoop c keepAll ms .start lines <;> rfl
  · unfold mmDel
    rw [hdel]
    cases lines.foldlM (delStep c) .start <;> rfl

/-- The log of four departures, started 900 ms later. -/
theorem startup_independent_four : ∃ lines', List.Forall₂ (LaterBy 900) fourDepartures lines' ∧
    lines' ≠ fourDepartures ∧ mmThr .amd64 (.sorted 100) [53] lines' =
      (mmThr .amd64 (.sorted 100) [53] fourDepartures).map (Report.shift 900) := by
  let lines' : List Text :=
    [baseHeader ++ [49, 48, 48, 48], [49, 48, 48, 49, 32, 35, 32, 49],
      [49, 48, 48, 53, 32, 45, 32, 49, 32, 50], [49, 48, 53, 48, 32, 45, 32, 49, 32, 52, 48],
      [49, 48, 53, 49, 32, 45, 32, 49, 32, 49], [49, 48, 53, 50, 32, 45, 32, 49, 32, 51]]
  have hlines : List.Forall₂ (LaterBy 900) fourDepartures lines' := by
    refine .cons rfl (.cons rfl (.cons rfl (.cons rfl (.cons rfl (.cons rfl .nil)))))
  exact ⟨lines', hlines, by decide,
    (startup_independent .amd64 (.sorted 100) 900 [53] _ _ hlines).1⟩

/-! ### Events behind the base timestamp -/

-- A line is treated alike if its event is kept.
private theorem checkLine_of_keepAll {keep : ℤ → Bool} {base base' : Option ℕ} {line : Text}
    {raw : Option RawEvent} (h : checkLine keepAll base line = .ok (base', raw))
    (hkeep : ∀ r ∈ raw, keep r.time = true) : checkLine keep base line = .ok (base', raw) := by
  unfold checkLine at h ⊢
  generalize parseLine line = parsed at h ⊢
  rcases parsed with d | value | _ | ⟨timestamp, eventType, numBytes, delay⟩
  · exact h
  · exact h
  · exact h
  · cases base with
    | none => exact h
    | some value =>
      cases h
      dsimp only
      rw [if_pos (hkeep _ rfl)]
      rfl

private theorem rawEvents_of_keepAll {keep : ℤ → Bool} {base : Option ℕ} {lines : List Text}
    {rest : Option ℕ} (hrest : (rawEvents keepAll base lines).2 = .ok rest)
    (h : ∀ r ∈ (rawEvents keepAll base lines).1, keep r.time = true) :
    rawEvents keep base lines = rawEvents keepAll base lines := by
  induction lines generalizing base with
  | nil => rfl
  | cons line lines ih =>
    rw [rawEvents] at h hrest
    rw [rawEvents, rawEvents]
    rcases hline : checkLine keepAll base line with d | ⟨base', raw⟩
    · rw [hline] at hrest
      cases hrest
    · rw [hline] at h hrest
      have hraw : ∀ r ∈ raw, keep r.time = true := by
        intro r hr
        exact h r (List.mem_append_left _ (Option.mem_toList.mpr hr))
      have heq := ih hrest (fun r hr ↦ h r (List.mem_append_right _ hr))
      rw [checkLine_of_keepAll hline hraw]
      dsimp only
      rw [heq]

/-- `mm-thr` reads what `mm-throughput-minrtt` does if all events are behind the base
timestamp. -/
theorem logEvents_keepPositive {c : Arith} {lines : List Text} {es : List LogEvent}
    (hes : logEvents c keepAll lines = .ok es) (hpos : ∀ e ∈ es, 0 < e.time) :
    logEvents c keepPositive lines = .ok es := by
  have hes' := hes
  unfold logEvents at hes
  rcases hread : (rawEvents keepAll none lines).1.mapM (RawEvent.read c) with d | es'
  · rw [hread] at hes
    cases hes
  rcases hrest : (rawEvents keepAll none lines).2 with d | base
  · rw [hread, hrest] at hes
    cases hes
  rw [hread, hrest] at hes
  cases hes
  have hraw : rawEvents keepPositive none lines = rawEvents keepAll none lines := by
    apply rawEvents_of_keepAll hrest
    intro r hr
    obtain ⟨e, he, hre⟩ := (mapM_mem hread).1 r hr
    rw [← time_of_read hre]
    exact decide_eq_true (hpos e he)
  unfold logEvents at hes' ⊢
  rwa [hraw]

private theorem statistics_ok {c : Arith} {p : Perl} (hc : c.KeepsZero) {ms : ℕ}
    {es : List LogEvent} {st : Statistics} (h : (totalsOf c ms es).statistics c p = .ok st) :
    (∃ e ∈ es, e.kind = .departure) ∧ (st.averageCapacity = 0 ↔
      ∀ e ∈ es, e.kind = .capacity → e.bits = 0) := by
  cases hhead : es.head? with
  | none =>
    rw [statistics_of_none _ (by rw [first_totalsOf, hhead]; rfl)] at h
    cases h
  | some e₀ =>
    have hfirst : (totalsOf c ms es).first = some e₀.time := by
      rw [first_totalsOf, hhead]
      rfl
    have hsignal : (measureSignalDelay c p (totalsOf c ms es).signalDelay).isSome = true := by
      rw [statistics_eq hc _ hfirst] at h
      cases hm : measureSignalDelay c p (totalsOf c ms es).signalDelay with
      | none =>
        rw [hm] at h
        split at h
        · cases h
        · split at h <;> cases h
      | some table => rfl
    rcases statistics_totalsOf ms hc hsignal hhead with
      ⟨-, hs⟩ | ⟨-, ⟨-, hs⟩ | ⟨hdep, duration, hd, hs⟩⟩
    · rw [hs] at h
      cases h
    · rw [hs] at h
      cases h
    · rw [hs] at h
      cases h
      exact ⟨hdep, averageCapacity_eq_zero_iff ms hc hd⟩

private theorem report_rows_iff {c : Arith} (hc : c.KeepsZero) (p : Perl) (ms : ℕ)
    (es : List LogEvent) (base base' : Option ℕ) (rows : List Row) :
    (∃ report, LogState.report c p ms ⟨base, totalsOf c ms es⟩ = .ok report ∧
        report.rows = rows) ↔
      LogState.minrtt c p ms ⟨base', totalsOf c ms es⟩ = .ok rows ∧ HasCapacity es := by
  have hcapacity : ∀ st, (totalsOf c ms es).statistics c p = .ok st →
      (st.averageCapacity ≠ 0 ↔ HasCapacity es) := by
    intro st hst
    obtain ⟨hdep, hiff⟩ := statistics_ok hc hst
    rw [Ne, hiff, HasCapacity]
    push Not
    simp only [hdep, true_imp_iff, Nat.pos_iff_ne_zero]
  constructor
  · rintro ⟨report, hreport, rfl⟩
    obtain ⟨hstatistics, hdivide, hrows⟩ := report_eq_ok hreport
    refine ⟨?_, (hcapacity _ hstatistics).mp ?_⟩
    · rw [LogState.minrtt, hstatistics]
      exact hrows
    · intro hzero
      rw [divide, if_pos hzero] at hdivide
      cases hdivide
  · rintro ⟨hminrtt, hcap⟩
    rw [LogState.minrtt] at hminrtt
    rcases hstatistics : (totalsOf c ms es).statistics c p with stop | st
    · rw [hstatistics] at hminrtt
      cases hminrtt
    rw [hstatistics] at hminrtt
    have hrows : (totalsOf c ms es).rows c ms = .ok rows := hminrtt
    -- With capacity the division is the only step that `mm-thr` has more.
    have hne := (hcapacity st hstatistics).mpr hcap
    refine ⟨⟨st, c.round (c.round (100 * st.averageThroughput) / st.averageCapacity), base,
      (totalsOf c ms es).last, rows⟩, ?_, rfl⟩
    rw [LogState.report, hstatistics]
    simp only [bind, Except.bind, divide, if_neg hne, hrows, pure, Except.pure]

/-- If all events are behind the base timestamp, `mm-thr` draws what `mm-throughput-minrtt`
prints, as soon as there is capacity to relate the throughput to. -/
theorem rows_agree (c : Arith) (hc : c.KeepsZero) (p : Perl) (arg : Text) (lines : List Text)
    (es : List LogEvent) (rows : List Row) (hes : logEvents c keepAll lines = .ok es)
    (hpos : ∀ e ∈ es, 0 < e.time) :
    (∃ report, mmThr c p arg lines = .ok report ∧ report.rows = rows) ↔
      mmThroughputMinrtt c p arg lines = .ok rows ∧ HasCapacity es := by
  have hpositive := logEvents_keepPositive hes hpos
  rcases harg : msPerBin arg with stop | ms
  · unfold mmThr mmThroughputMinrtt
    rw [harg]
    exact iff_of_false (by rintro ⟨_, ⟨⟩, _⟩) (by rintro ⟨⟨⟩, _⟩)
  by_cases hms : ms = 0
  · subst hms
    refine iff_of_false ?_ ?_
    · rintro ⟨report, hreport, -⟩
      have hnone := toOption_mmThr_zero (c := c) (p := p) harg lines
      rw [hreport] at hnone
      cases hnone
    · rintro ⟨hrows, -⟩
      rw [mmThroughputMinrtt_eq harg] at hrows
      rcases eventLoop_zero_start c keepAll lines with
        ⟨-, hloop⟩ | ⟨-, ⟨d, hloop⟩ | ⟨base, hloop⟩⟩ <;> rw [hloop] at hrows <;> cases hrows
  · obtain ⟨base', -, hloop⟩ := eventLoop_of_logEvents hms hes
    obtain ⟨base, -, hreport⟩ := mmThr_of_logEvents (p := p) harg hms hpositive
    rw [hreport, mmThroughputMinrtt_eq harg, hloop]
    exact report_rows_iff hc p ms es base base' rows

/-- Eleven rows for the log of four departures. -/
theorem rows_agree_four :
    ∃ rows, mmThroughputMinrtt .exact (.sorted 100) [53] fourDepartures = .ok rows ∧
      rows.length = 11 ∧
      ∃ report, mmThr .exact (.sorted 100) [53] fourDepartures = .ok report ∧
        report.rows = rows := by
  have hrows : (mmThr .exact (.sorted 100) [53] fourDepartures).toOption.map
      (fun r ↦ r.rows.length) = some 11 := by
    decide +kernel
  have hevents : (logEvents .exact keepAll fourDepartures).toOption.map
      (fun es ↦ es.all (fun e ↦ 0 < e.time)) = some true := by
    decide +kernel
  obtain ⟨es, hes, hall⟩ := exists_ok_of_map hevents
  obtain ⟨report, hreport, hlength⟩ := exists_ok_of_map hrows
  have hpos : ∀ e ∈ es, 0 < e.time := by simpa using hall
  have hagree := (rows_agree .exact Arith.exact_keepsZero (.sorted 100) [53] fourDepartures es
    report.rows hes hpos).mp ⟨report, hreport, rfl⟩
  exact ⟨report.rows, hagree.1, hlength, report, hreport, rfl⟩

end NatcpSpec.Trace
