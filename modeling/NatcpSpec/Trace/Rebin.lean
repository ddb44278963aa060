import NatcpSpec.Trace.Startup

/-!
# Bins of different lengths

The feedback is made from bins of 50 ms, `feedback/trace.to.minrtt.sh:8–9`, and the evaluation
draws bins of 500 ms, `natcp.sh:40,72`. Both programs count the bits of the events in a bin. When
one length is a multiple of the other, the rows of the evaluation therefore summarise those of
the feedback: their rates are averages, and their buffer is that of the last row.
-/

namespace NatcpSpec.Trace

open NatcpSpec.Base

/-- Rows of bins that are `k` bins long summarise the rows of these bins. A bin without a row
counts as zero in the average of a rate. -/
structure Summarises (k : ℕ) (coarse fine : List Row) : Prop where
  covers : ∀ r ∈ fine, ∃ row ∈ coarse, row.bin = r.bin / k
  rate : ∀ row ∈ coarse, ∀ kind, row.rate kind * k =
    ((fine.filter (fun r ↦ r.bin / k = row.bin)).map (fun r ↦ r.rate kind)).sum
  occupancy : ∀ row ∈ coarse, ∃ r ∈ fine, r.bin / k ≤ row.bin ∧
    (∀ r' ∈ fine, r'.bin / k ≤ row.bin → r'.bin ≤ r.bin) ∧ row.occupancy = r.occupancy

section Bits

variable {es : List LogEvent} {ms k : ℕ}

private theorem msToBin_mul {time : ℤ} (h : 0 ≤ time) :
    msToBin .exact (k * ms) time = msToBin .exact ms time / k := by
  rw [msToBin_of_nonneg h, msToBin_of_nonneg h, Int.ediv_ediv_of_nonneg (by positivity)]
  push_cast
  rw [mul_comm]

private theorem bitsWhere_or {p q : LogEvent → Bool} (h : ∀ e ∈ es, ¬(p e = true ∧ q e = true)) :
    bitsWhere (fun e ↦ p e || q e) es = bitsWhere p es + bitsWhere q es := by
  induction es using List.reverseRecOn with
  | nil => rfl
  | append_singleton es e ih =>
    rw [bitsWhere_append_singleton, bitsWhere_append_singleton, bitsWhere_append_singleton,
      ih (fun e' he' ↦ h e' (List.mem_append_left _ he'))]
    have he := h e (by simp)
    cases hp : p e <;> cases hq : q e <;> simp_all <;> omega

private theorem sum_bitsWhere {bins : List ℤ} (hnodup : bins.Nodup) (kind : Kind) :
    (bins.map (fun bin ↦
      bitsWhere (fun e ↦ e.kind = kind ∧ msToBin .exact ms e.time = bin) es)).sum =
      bitsWhere (fun e ↦ e.kind = kind ∧ msToBin .exact ms e.time ∈ bins) es := by
  induction bins with
  | nil => simp [bitsWhere]
  | cons bin bins ih =>
    rw [List.nodup_cons] at hnodup
    rw [List.map_cons, List.sum_cons, ih hnodup.2, ← bitsWhere_or]
    · apply bitsWhere_congr
      intro e _
      by_cases hk : e.kind = kind
      · simp [hk]
      · simp [hk]
    · rintro e - ⟨hbin, hbins⟩
      rw [decide_eq_true_eq] at hbin hbins
      exact hnodup.1 (hbin.2 ▸ hbins.2)

end Bits

section Rows

variable {es : List LogEvent} {ms k : ℕ} {fine coarse : List Row}

private theorem mem_bins_iff {earliest latest bin : ℤ} {rows : List Row}
    (h : rows.map Row.bin =
      (List.range (latest + 1 - earliest).toNat).map (fun i : ℕ ↦ earliest + (i : ℤ))) :
    bin ∈ rows.map Row.bin ↔ earliest ≤ bin ∧ bin ≤ latest := by
  rw [h, List.mem_map]
  constructor
  · rintro ⟨i, hi, rfl⟩
    rw [List.mem_range] at hi
    omega
  · intro hbin
    exact ⟨(bin - earliest).toNat, List.mem_range.mpr (by omega), by omega⟩

private theorem nodup_bins {earliest : ℤ} {n : ℕ} {rows : List Row}
    (h : rows.map Row.bin = (List.range n).map (fun i : ℕ ↦ earliest + (i : ℤ))) :
    (rows.map Row.bin).Nodup := by
  rw [h]
  apply List.nodup_range.map
  intro i j hij
  simpa using hij

-- The rates of the bins in a longer bin add up to the bits of that bin.
private theorem sum_rates_eq_count (hnonneg : ∀ e ∈ es, 0 ≤ e.time) {kind : Kind}
    (hnodup : (fine.map Row.bin).Nodup)
    (hall : ∀ e ∈ es, msToBin .exact ms e.time ∈ fine.map Row.bin)
    (hrates : ∀ r ∈ fine, r.rate kind * ms * 1000 = (totalsOf .exact ms es).bits kind r.bin)
    (bin : ℤ) :
    ((fine.filter (fun r ↦ r.bin / k = bin)).map (fun r ↦ r.rate kind * (ms : ℚ) * 1000)).sum =
      (totalsOf .exact (k * ms) es).bits kind bin := by
  have hfilter : (fine.filter (fun r ↦ r.bin / k = bin)).map
      (fun r ↦ r.rate kind * (ms : ℚ) * 1000) =
      ((fine.map Row.bin).filter (fun b ↦ b / k = bin)).map
        (fun b ↦ ((totalsOf .exact ms es).bits kind b : ℚ)) := by
    rw [List.filter_map, List.map_map]
    apply List.map_congr_left
    intro r hr
    exact hrates r (List.mem_of_mem_filter hr)
  have hsum : (((fine.map Row.bin).filter (fun b ↦ b / k = bin)).map
      (fun b ↦ bitsWhere (fun e ↦ e.kind = kind ∧ msToBin .exact ms e.time = b) es)).sum = _ :=
    sum_bitsWhere (hnodup.filter (fun b ↦ b / k = bin)) kind
  have hbits : bitsWhere (fun e ↦ e.kind = kind ∧ msToBin .exact ms e.time ∈
      (fine.map Row.bin).filter (fun b ↦ b / k = bin)) es =
      bitsWhere (fun e ↦ e.kind = kind ∧ msToBin .exact (k * ms) e.time = bin) es := by
    apply bitsWhere_congr
    intro e he
    simp only [List.mem_filter, hall e he, true_and, decide_eq_true_eq, msToBin_mul (hnonneg e he)]
  rw [hfilter, Totals.bits, count_totalsOf, ← hbits, ← hsum, Nat.cast_list_sum, List.map_map]
  simp only [Totals.bits, count_totalsOf, Function.comp_def]

-- The bits up to a longer bin are those up to the last of its bins.
private theorem bitsUpTo_mul (hk : 0 < k) (hnonneg : ∀ e ∈ es, 0 ≤ e.time) {last : ℤ}
    (hlast : ∀ e ∈ es, msToBin .exact ms e.time ≤ last) (kind : Kind) (bin : ℤ) :
    bitsUpTo (k * ms) es kind bin = bitsUpTo ms es kind (min last ((bin + 1) * k - 1)) := by
  have hpos : (0 : ℤ) < k := by exact_mod_cast hk
  apply bitsWhere_congr
  intro e he
  have hle := hlast e he
  have hiff : msToBin .exact (k * ms) e.time ≤ bin ↔ msToBin .exact ms e.time < (bin + 1) * k := by
    rw [msToBin_mul (hnonneg e he), ← Int.lt_add_one_iff, Int.ediv_lt_iff_lt_mul hpos]
  have hiff' : msToBin .exact ms e.time ≤ min last ((bin + 1) * k - 1) ↔
      msToBin .exact ms e.time < (bin + 1) * k := by omega
  rw [decide_eq_decide, hiff, hiff']

private theorem summarises_of_rows (hms : 0 < ms) (hk : 0 < k) (hne : es ≠ [])
    (hnonneg : ∀ e ∈ es, 0 ≤ e.time) (hfine : (totalsOf .exact ms es).rows .exact ms = .ok fine)
    (hcoarse : (totalsOf .exact (k * ms) es).rows .exact (k * ms) = .ok coarse) :
    Summarises k coarse fine := by
  obtain ⟨first, last, hfirst, hlast, hbins, hfines⟩ := rows_spec hms hne hfine
  obtain ⟨first', last', hfirst', hlast', hbins', hcoarses⟩ :=
    rows_spec (Nat.mul_pos hk hms) hne hcoarse
  have hpos : (0 : ℤ) < k := by exact_mod_cast hk
  have hquotient : ∀ e ∈ es, msToBin .exact (k * ms) e.time = msToBin .exact ms e.time / k :=
    fun e he ↦ msToBin_mul (hnonneg e he)
  have hrange : ∀ e ∈ es, first ≤ msToBin .exact ms e.time ∧ msToBin .exact ms e.time ≤ last :=
    fun e he ↦ ⟨hfirst.2 ⟨e, he, rfl⟩, hlast.2 ⟨e, he, rfl⟩⟩
  refine ⟨?_, ?_, ?_⟩
  · intro r hr
    obtain ⟨hlow, hhigh⟩ := (mem_bins_iff hbins).mp (List.mem_map_of_mem hr)
    obtain ⟨e, he, hefirst⟩ := hfirst.1
    obtain ⟨e', he', helast⟩ := hlast.1
    have hmem : r.bin / k ∈ coarse.map Row.bin := by
      rw [mem_bins_iff hbins']
      constructor
      · calc first' ≤ msToBin .exact (k * ms) e.time := hfirst'.2 ⟨e, he, rfl⟩
          _ = first / k := by rw [hquotient e he, hefirst]
          _ ≤ r.bin / k := Int.ediv_le_ediv hpos hlow
      · calc r.bin / k ≤ last / k := Int.ediv_le_ediv hpos hhigh
          _ = msToBin .exact (k * ms) e'.time := by rw [hquotient e' he', helast]
          _ ≤ last' := hlast'.2 ⟨e', he', rfl⟩
    obtain ⟨row, hrow, hbin⟩ := List.mem_map.mp hmem
    exact ⟨row, hrow, hbin⟩
  · intro row hrow kind
    have hall : ∀ e ∈ es, msToBin .exact ms e.time ∈ fine.map Row.bin :=
      fun e he ↦ (mem_bins_iff hbins).mpr (hrange e he)
    have hsum := sum_rates_eq_count (k := k) hnonneg (nodup_bins hbins) hall
      (fun r hr ↦ (hfines r hr).1 kind) row.bin
    rw [← (hcoarses row hrow).1 kind, List.sum_map_mul_right, List.sum_map_mul_right] at hsum
    have hne' : (ms : ℚ) * 1000 ≠ 0 := by positivity
    apply mul_right_cancel₀ hne'
    rw [← mul_assoc, ← mul_assoc, hsum]
    push_cast
    ring
  · intro row hrow
    obtain ⟨hlow, -⟩ := (mem_bins_iff hbins').mp (List.mem_map_of_mem hrow)
    obtain ⟨e, he, hefirst⟩ := hfirst'.1
    have hbefore : msToBin .exact ms e.time < (row.bin + 1) * k := by
      rw [← Int.ediv_lt_iff_lt_mul hpos, ← hquotient e he, hefirst]
      omega
    have hmem : min last ((row.bin + 1) * k - 1) ∈ fine.map Row.bin := by
      rw [mem_bins_iff hbins]
      have := hrange e he
      omega
    obtain ⟨r, hr, hbin⟩ := List.mem_map.mp hmem
    have hmax : ∀ b, b / k ≤ row.bin ↔ b < (row.bin + 1) * k := by
      intro b
      rw [← Int.ediv_lt_iff_lt_mul hpos, Int.lt_add_one_iff]
    refine ⟨r, hr, ?_, ?_, ?_⟩
    · rw [hmax]
      omega
    · intro r' hr' hle
      have hhigh := ((mem_bins_iff hbins).mp (List.mem_map_of_mem hr')).2
      rw [hmax] at hle
      omega
    · have hup : ∀ kind, bitsUpTo (k * ms) es kind row.bin = bitsUpTo ms es kind r.bin := by
        intro kind
        rw [hbin]
        exact bitsUpTo_mul hk hnonneg (fun e he ↦ (hrange e he).2) kind row.bin
      rw [(hcoarses row hrow).2, (hfines r hr).2, hup, hup]

end Rows

/-- When all events are behind the base timestamp, what `mm-thr` draws with bins of a multiple
length summarises what `mm-throughput-minrtt` prints. -/
theorem report_summarises (p : Perl) (fineArg coarseArg : Text) (ms k : ℕ) (lines : List Text)
    (es : List LogEvent) (rows : List Row) (report : Report)
    (hfine : msPerBin fineArg = .ok ms) (hcoarse : msPerBin coarseArg = .ok (k * ms))
    (hes : logEvents .exact keepAll lines = .ok es) (hpos : ∀ e ∈ es, 0 < e.time)
    (hrows : mmThroughputMinrtt .exact p fineArg lines = .ok rows)
    (hreport : mmThr .exact p coarseArg lines = .ok report) : Summarises k report.rows rows := by
  have hmul : k * ms ≠ 0 := by
    intro hzero
    have hnone := toOption_mmThr_zero (c := .exact) (p := p) (hzero ▸ hcoarse) lines
    rw [hreport] at hnone
    cases hnone
  obtain ⟨hk, hms⟩ := mul_ne_zero_iff.mp hmul
  obtain ⟨es', base, hes', hne, -, hfines⟩ := accepted_spec hfine (Nat.pos_of_ne_zero hms) hrows
  obtain rfl : es' = es := Except.ok.inj (hes'.symm.trans hes)
  obtain ⟨-, hcoarses, -, -, -⟩ :=
    reported_spec Arith.exact_keepsZero hcoarse hmul (logEvents_keepPositive hes hpos) hreport
  exact summarises_of_rows (Nat.pos_of_ne_zero hms) (Nat.pos_of_ne_zero hk) hne
    (fun e he ↦ (hpos e he).le) hfines hcoarses

/-- Six rows of ten milliseconds for eleven rows of five. -/
theorem report_summarises_four : ∃ (rows : List Row) (report : Report),
    mmThroughputMinrtt .exact (.sorted 100) [53] fourDepartures = .ok rows ∧ rows.length = 11 ∧
      mmThr .exact (.sorted 100) [49, 48] fourDepartures = .ok report ∧ report.rows.length = 6 ∧
      Summarises 2 report.rows rows := by
  have hrows : (mmThroughputMinrtt .exact (.sorted 100) [53] fourDepartures).toOption.map
      List.length = some 11 := by
    decide +kernel
  have hreport : (mmThr .exact (.sorted 100) [49, 48] fourDepartures).toOption.map
      (fun r ↦ r.rows.length) = some 6 := by
    decide +kernel
  have hevents : (logEvents .exact keepAll fourDepartures).toOption.map
      (fun es ↦ es.all (fun e ↦ 0 < e.time)) = some true := by
    decide +kernel
  obtain ⟨rows, hrows, hlength⟩ := exists_ok_of_map hrows
  obtain ⟨report, hreport, hlength'⟩ := exists_ok_of_map hreport
  obtain ⟨es, hes, hpos⟩ := exists_ok_of_map hevents
  exact ⟨rows, report, hrows, hlength, hreport, hlength',
    report_summarises (.sorted 100) [53] [49, 48] 5 2 fourDepartures es rows report rfl rfl hes
      (by simpa using hpos) hrows hreport⟩

end NatcpSpec.Trace
