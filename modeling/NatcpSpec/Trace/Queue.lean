import NatcpSpec.Base.Residence
import NatcpSpec.Trace.Binning
import NatcpSpec.Trace.LineOrder

/-!
# The buffer column

`feedback/mm-throughput-minrtt:86–107,180–203`. The last column of a row is computed from the
bits that arrive and depart in each bin. A log says more: the delay of a departure tells when
its packet arrived. For a log that is the record of packets, the column is what was in the
queue at the end of the bin, and over bins of a millisecond it adds up to the delays.
-/

namespace NatcpSpec.Trace

open NatcpSpec.Base

/-- The log is the record of these packets: an arrival for each of them, and a departure with
its delay for each that has left. -/
structure Records (ps : List (Stay ℤ)) (es : List LogEvent) : Prop where
  arrivals : ((es.filter (·.kind = .arrival)).map (fun e ↦ (e.time, e.bits))).Perm
    (ps.map (fun p ↦ (p.entered, p.weight)))
  departures : ((es.filter (·.kind = .departure)).map (fun e ↦ (e.time, e.bits, e.delay))).Perm
    (ps.filterMap (fun p ↦ p.left.map (fun l ↦ (l, p.weight,
      some (.finite ((l - p.entered : ℤ) : ℚ))))))

private theorem bitsWhere_columns {β : Type} (kind : Kind) (t : ℤ) (es : List LogEvent)
    (column : LogEvent → β) (time : β → ℤ) (bits : β → ℕ)
    (htime : ∀ e, time (column e) = e.time) (hbits : ∀ e, bits (column e) = e.bits) :
    bitsWhere (fun e ↦ e.kind = kind ∧ e.time < t) es =
      ((((es.filter (·.kind = kind)).map column).filter (time · < t)).map bits).sum := by
  rw [bitsWhere, List.filter_map, List.map_map, List.filter_filter]
  congr 2
  · funext e
    exact (hbits e).symm
  · apply List.filter_congr
    intro e _
    simp [htime, Bool.and_comm]

section Records

variable {ps : List (Stay ℤ)} {es : List LogEvent}

/-- The bits that have arrived are those of the packets that have. -/
theorem Records.arrived_before (h : Records ps es) (t : ℤ) :
    bitsWhere (fun e ↦ e.kind = .arrival ∧ e.time < t) es =
      Stay.weightWhere (fun p ↦ p.entered < t) ps := by
  rw [bitsWhere_columns .arrival t es (fun e ↦ (e.time, e.bits)) Prod.fst Prod.snd
    (fun _ ↦ rfl) (fun _ ↦ rfl), ((h.arrivals.filter _).map _).sum_eq, List.filter_map,
    List.map_map]
  rfl

/-- The bits that have departed are those of the packets that have left. -/
theorem Records.departed_before (h : Records ps es) (t : ℤ) :
    bitsWhere (fun e ↦ e.kind = .departure ∧ e.time < t) es =
      Stay.weightWhere (Stay.leftBefore · t) ps := by
  rw [bitsWhere_columns .departure t es (fun e ↦ (e.time, e.bits, e.delay)) Prod.fst
    (fun x ↦ x.2.1) (fun _ ↦ rfl) (fun _ ↦ rfl), ((h.departures.filter _).map _).sum_eq]
  clear h
  induction ps with
  | nil => rfl
  | cons p ps ih =>
    rw [Stay.weightWhere_cons, ← ih]
    rcases hl : p.left with _ | l
    · simp [Stay.leftBefore, hl]
    · by_cases hlt : l < t
      · simp [Stay.leftBefore, hl, hlt]
      · simp [Stay.leftBefore, hl, hlt]

/-- What has arrived and not departed is what is in the queue. -/
theorem Records.occupancy_eq (h : Records ps es) (t : ℤ) :
    (bitsWhere (fun e ↦ e.kind = .arrival ∧ e.time < t) es : ℤ) -
      bitsWhere (fun e ↦ e.kind = .departure ∧ e.time < t) es = Stay.weightAt ps t := by
  rw [h.arrived_before, h.departed_before, Stay.weightWhere_entered]
  push_cast
  ring

/-- The delays of a log are the lengths of stay of the packets that have left. -/
theorem Records.delays_perm (h : Records ps es) (ms : ℕ) : (totalsOf .exact ms es).delays.Perm
    (ps.filterMap (fun p ↦ p.left.map (fun l ↦ .finite ((l - p.entered : ℤ) : ℚ)))) := by
  have hperm := h.departures.filterMap (fun x ↦ x.2.2)
  rw [List.filterMap_map, List.filterMap_filterMap] at hperm
  rw [delays_totalsOf]
  refine (List.Perm.of_eq ?_).trans (hperm.trans (List.Perm.of_eq ?_))
  · -- Only departures have a delay.
    rw [List.filterMap_filter]
    apply List.filterMap_congr
    intro e _
    have hdelay := e.delay_isSome
    cases he : e.delay <;> simp_all
  · apply List.filterMap_congr
    intro p _
    cases p.left <;> rfl

/-- The last column of the rows, bin by bin. -/
theorem Records.map_occupancy (h : Records ps es) {ms : ℕ} (hms : 0 < ms) (hne : es ≠ [])
    (hnonneg : ∀ e ∈ es, 0 ≤ e.time) {rows : List Row}
    (hrows : (totalsOf .exact ms es).rows .exact ms = .ok rows) :
    rows.map Row.occupancy =
      (rows.map Row.bin).map (fun bin ↦ (Stay.weightAt ps ((bin + 1) * ms) : ℤ)) := by
  obtain ⟨-, -, -, -, -, hspec⟩ := rows_spec hms hne hrows
  rw [List.map_map]
  apply List.map_congr_left
  intro row hrow
  rw [(hspec row hrow).2, bitsUpTo_eq_before hms hnonneg, bitsUpTo_eq_before hms hnonneg,
    h.occupancy_eq]
  rfl

/-- A packet arrives at the time of an event, and leaves at the time of another. -/
theorem Records.exists_events (h : Records ps es) {p : Stay ℤ} (hp : p ∈ ps) :
    (∃ e ∈ es, e.time = p.entered) ∧ ∀ l, p.left = some l → ∃ e ∈ es, e.time = l := by
  constructor
  · have hmem := h.arrivals.mem_iff.mpr (List.mem_map_of_mem hp)
    obtain ⟨e, he, heq⟩ := List.mem_map.mp hmem
    exact ⟨e, List.mem_of_mem_filter he, congrArg Prod.fst heq⟩
  · intro l hl
    have hmem := h.departures.mem_iff.mpr (List.mem_filterMap.mpr ⟨p, hp, by rw [hl]; rfl⟩)
    obtain ⟨e, he, heq⟩ := List.mem_map.mp hmem
    exact ⟨e, List.mem_of_mem_filter he, congrArg Prod.fst heq⟩

/-- Over bins of a millisecond the column adds up to the bits of the packets times their
lengths of stay, once they have all left. -/
theorem Records.sum_occupancy (h : Records ps es) (hne : es ≠ [])
    (hnonneg : ∀ e ∈ es, 0 ≤ e.time) (hleft : ∀ p ∈ ps, p.left.isSome) {rows : List Row}
    (hrows : (totalsOf .exact 1 es).rows .exact 1 = .ok rows) :
    (rows.map Row.occupancy).sum =
      ((ps.map (fun p ↦ p.weight * (p.left.getD p.entered - p.entered).toNat)).sum : ℕ) := by
  obtain ⟨earliest, latest, hleast, hgreatest, hbins, -⟩ := rows_spec Nat.one_pos hne hrows
  have hbin : ∀ e ∈ es, msToBin .exact 1 e.time = e.time := by
    intro e he
    rw [msToBin_of_nonneg (hnonneg e he), Nat.cast_one, Int.ediv_one]
  have hwithin : ∀ p ∈ ps, ∃ l, p.left = some l ∧ earliest ≤ p.entered ∧
      l ≤ earliest + ((latest + 1 - earliest).toNat : ℕ) := by
    intro p hp
    obtain ⟨l, hl⟩ := Option.isSome_iff_exists.mp (hleft p hp)
    obtain ⟨⟨e, he, hentered⟩, hdeparted⟩ := h.exists_events hp
    obtain ⟨e', he', hl'⟩ := hdeparted l hl
    have hlow : earliest ≤ e.time := hleast.2 ⟨e, he, hbin e he⟩
    have hhigh : e'.time ≤ latest := hgreatest.2 ⟨e', he', hbin e' he'⟩
    refine ⟨l, hl, hentered ▸ hlow, ?_⟩
    omega
  rw [← Stay.sum_weightAt ps earliest _ hwithin, h.map_occupancy Nat.one_pos hne hnonneg hrows,
    hbins, List.map_map, Nat.cast_list_sum, List.map_map]
  simp only [Nat.cast_one, mul_one]
  rfl

end Records

/-! ### The column -/

/-- In a log that is the record of packets, the last column of each row is what is in the
queue at the end of its bin; it is never negative. -/
theorem occupancy_of_records (p : Perl) (arg : Text) (lines : List Text) (ms : ℕ) (rows : List Row)
    (es : List LogEvent) (ps : List (Stay ℤ)) (harg : msPerBin arg = .ok ms) (hms : 0 < ms)
    (haccept : mmThroughputMinrtt .exact p arg lines = .ok rows)
    (hes : logEvents .exact keepAll lines = .ok es) (hnonneg : ∀ e ∈ es, 0 ≤ e.time)
    (hrecords : Records ps es) :
    ∀ row ∈ rows, row.occupancy = Stay.weightAt ps ((row.bin + 1) * ms) := by
  obtain ⟨es', base, hes', hne, -, hrows⟩ := accepted_spec harg hms haccept
  obtain rfl : es' = es := Except.ok.inj (hes'.symm.trans hes)
  have hmap := hrecords.map_occupancy hms hne hnonneg hrows
  rw [List.map_map] at hmap
  exact List.map_inj_left.mp hmap

/-- A log of two packets of a byte that stay for two and for three milliseconds. -/
def twoPackets : List Text :=
  [baseHeader ++ [49, 48, 48], [49, 48, 49, 32, 35, 32, 49], [49, 48, 49, 32, 43, 32, 49],
    [49, 48, 50, 32, 43, 32, 49], [49, 48, 51, 32, 45, 32, 49, 32, 50],
    [49, 48, 53, 32, 45, 32, 49, 32, 51]]

/-- The two packets. -/
def twoStays : List (Stay ℤ) := [⟨1, some 3, 8, by simp⟩, ⟨2, some 5, 8, by simp⟩]

private def twoEvents : List LogEvent := (logEvents .exact keepAll twoPackets).toOption.getD []

private theorem records_twoStays : Records twoStays twoEvents :=
  ⟨by decide +kernel, by decide +kernel⟩

private theorem logEvents_twoPackets : logEvents .exact keepAll twoPackets = .ok twoEvents ∧
    logEvents .exact keepPositive twoPackets = .ok twoEvents := by
  have hall : (logEvents .exact keepAll twoPackets).toOption.map id = some twoEvents := by
    decide +kernel
  have hpositive : (logEvents .exact keepPositive twoPackets).toOption.map id = some twoEvents := by
    decide +kernel
  obtain ⟨es, hes, rfl⟩ := exists_ok_of_map hall
  obtain ⟨es', hes', rfl⟩ := exists_ok_of_map hpositive
  exact ⟨hes, hes'⟩

/-- Five rows are printed; the queue holds one packet, both, one for two milliseconds, and
none. -/
theorem occupancy_of_records_two :
    ∃ rows, mmThroughputMinrtt .exact (.sorted 100) [49] twoPackets = .ok rows ∧
      rows.map Row.occupancy = [8, 16, 8, 8, 0] ∧
      ∀ row ∈ rows, row.occupancy = Stay.weightAt twoStays ((row.bin + 1) * (1 : ℕ)) := by
  have hrows : (mmThroughputMinrtt .exact (.sorted 100) [49] twoPackets).toOption.map
      (List.map Row.occupancy) = some [8, 16, 8, 8, 0] := by
    decide +kernel
  obtain ⟨rows, h, hcolumn⟩ := exists_ok_of_map hrows
  exact ⟨rows, h, hcolumn, occupancy_of_records (.sorted 100) [49] twoPackets 1 rows twoEvents
    twoStays rfl Nat.one_pos h logEvents_twoPackets.1 (by decide +kernel) records_twoStays⟩

private theorem mean_exact (p : Perl) {delays : List Number} {qs : List ℚ}
    (h : delays.Perm (qs.map .finite)) :
    mean .exact (p.delaySort.sort delays) = .finite (qs.sum / qs.length) := by
  have hsort := (p.delaySort.perm delays).trans h
  -- The sorted delays are a list of the same rationals.
  let rs := (p.delaySort.sort delays).filterMap Number.toRat?
  have hrs : p.delaySort.sort delays = rs.map .finite := by
    rw [List.map_filterMap, ← List.filterMap_some (l := p.delaySort.sort delays),
      List.filterMap_filterMap]
    apply List.filterMap_congr
    intro x hx
    obtain ⟨q, -, rfl⟩ := List.mem_map.mp (hsort.mem_iff.mp hx)
    rfl
  have hperm : rs.Perm qs := by
    have hfilter := hsort.filterMap Number.toRat?
    simpa only [List.filterMap_map, Function.comp_def, Number.toRat?_finite, List.filterMap_some]
      using hfilter
  rw [mean, hrs, Number.foldl_add_exact, List.length_map, zero_add, Number.divNat_finite,
    Arith.exact_round, hperm.sum_eq, hperm.length_eq]

/-- Little's law between what `mm-thr` draws and what it reports: over bins of a millisecond,
for packets of one size that have all left, the last column adds up to the bits of the
packets times the average delay. -/
theorem sum_occupancy_eq_delay (p : Perl) (arg : Text) (lines : List Text) (report : Report)
    (es : List LogEvent) (ps : List (Stay ℤ)) (bits : ℕ) (harg : msPerBin arg = .ok 1)
    (haccept : mmThr .exact p arg lines = .ok report)
    (hes : logEvents .exact keepPositive lines = .ok es) (hrecords : Records ps es)
    (hleft : ∀ p ∈ ps, p.left.isSome) (hsize : ∀ p ∈ ps, p.weight = bits) :
    ∃ avg : ℚ, report.statistics.avg = .finite avg ∧
      (((report.rows.map Row.occupancy).sum : ℤ) : ℚ) = bits * ps.length * avg := by
  obtain ⟨hne, hrows, hdelays, -, duration, hstatistics⟩ :=
    reported_spec Arith.exact_keepsZero harg Nat.one_ne_zero hes haccept
  have hnonneg : ∀ e ∈ es, 0 ≤ e.time := by
    intro e he
    have hkeep := (exists_line_of_logEvents hes e he).1
    exact (of_decide_eq_true hkeep).le
  let stays : List ℚ := ps.map (fun p ↦ ((p.left.getD p.entered - p.entered : ℤ) : ℚ))
  have hperm : (totalsOf .exact 1 es).delays.Perm (stays.map .finite) := by
    refine (hrecords.delays_perm 1).trans (List.Perm.of_eq ?_)
    rw [List.map_map, ← List.filterMap_eq_map]
    apply List.filterMap_congr
    intro p hp
    obtain ⟨l, hl⟩ := Option.isSome_iff_exists.mp (hleft p hp)
    simp [hl]
  have hlength : stays.length = ps.length := List.length_map _
  have hpos : (ps.length : ℚ) ≠ 0 := by
    rw [← hlength, Nat.cast_ne_zero, ← List.length_map Number.finite, ← hperm.length_eq]
    exact fun h ↦ hdelays (List.length_eq_zero_iff.mp h)
  have hsum : (((report.rows.map Row.occupancy).sum : ℤ) : ℚ) = bits * stays.sum := by
    rw [hrecords.sum_occupancy hne hnonneg hleft hrows, ← List.sum_map_mul_left,
      Int.cast_natCast, Nat.cast_list_sum, List.map_map]
    congr 1
    apply List.map_congr_left
    intro p hp
    obtain ⟨l, hl⟩ := Option.isSome_iff_exists.mp (hleft p hp)
    have hstay : ((l - p.entered).toNat : ℚ) = ((l - p.entered : ℤ) : ℚ) := by
      rw [← Int.cast_natCast, Int.toNat_of_nonneg (sub_nonneg.mpr (p.causal l hl))]
    simp only [Function.comp_apply, hl, Option.getD_some, hsize p hp, Nat.cast_mul, hstay]
  refine ⟨stays.sum / stays.length, ?_, ?_⟩
  · rw [hstatistics, Totals.summary]
    exact mean_exact p hperm
  · rw [hsum, hlength]
    field_simp

/-- Forty bit milliseconds are two packets of eight bits for an average of two and a half
milliseconds. -/
theorem sum_occupancy_eq_delay_two :
    ∃ report, mmThr .exact (.sorted 100) [49] twoPackets = .ok report ∧
      report.statistics.avg = .finite (5 / 2) ∧
      ∃ avg : ℚ, report.statistics.avg = .finite avg ∧
        (((report.rows.map Row.occupancy).sum : ℤ) : ℚ) = (8 : ℕ) * twoStays.length * avg := by
  have hreport : (mmThr .exact (.sorted 100) [49] twoPackets).toOption.map
      (fun r ↦ r.statistics.avg) = some (.finite (5 / 2)) := by
    decide +kernel
  obtain ⟨report, h, havg⟩ := exists_ok_of_map hreport
  exact ⟨report, h, havg, sum_occupancy_eq_delay (.sorted 100) [49] twoPackets report twoEvents
    twoStays 8 rfl h logEvents_twoPackets.2 records_twoStays (by decide) (by decide)⟩

end NatcpSpec.Trace
