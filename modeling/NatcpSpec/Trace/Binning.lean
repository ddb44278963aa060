import NatcpSpec.Trace.Tools

/-!
# Binning

`feedback/mm-throughput-minrtt:22–28,41–140,179–205`. Three hashes with keys of their own
become rows for every bin between the least and the greatest key. In exact arithmetic every
event of an accepted log is in the row of its bin and in no other, and the last column
carries what has arrived and not departed.
-/

namespace NatcpSpec.Trace

open NatcpSpec.Base

/-- A time in milliseconds lies in a bin. -/
def InBin (ms : ℕ) (bin time : ℤ) : Prop := bin * ms ≤ time ∧ time < (bin + 1) * ms

instance (ms : ℕ) (bin time : ℤ) : Decidable (InBin ms bin time) :=
  inferInstanceAs (Decidable (_ ∧ _))

/-- The rows of events: one for every bin from the first to the last that holds an event,
with the bits of its events as rates over its length, which add up to the sums, and with
the bits that have arrived and not departed by its end. A rate in Mbit/s times
milliseconds is in units of a thousand bits. -/
structure BinsExactly (ms : ℕ) (es : List LogEvent) (sums : Kind → ℕ) (rows : List Row) :
    Prop where
  range : ∃ earliest latest, IsLeast { b | ∃ e ∈ es, InBin ms b e.time } earliest ∧
    IsGreatest { b | ∃ e ∈ es, InBin ms b e.time } latest ∧
    rows.map Row.bin =
      (List.range (latest + 1 - earliest).toNat).map (fun i : ℕ ↦ earliest + (i : ℤ))
  rates : ∀ row ∈ rows, ∀ kind, row.rate kind * ms * 1000 =
    bitsWhere (fun e ↦ e.kind = kind ∧ InBin ms row.bin e.time) es
  total : ∀ kind, (rows.map (fun row ↦ row.rate kind * (ms : ℚ) * 1000)).sum = sums kind
  occupancy : ∀ row ∈ rows, row.occupancy =
    (bitsWhere (fun e ↦ e.kind = .arrival ∧ e.time < (row.bin + 1) * ms) es : ℤ) -
      bitsWhere (fun e ↦ e.kind = .departure ∧ e.time < (row.bin + 1) * ms) es

/-! ### Bins of times -/

section Bins

variable {ms : ℕ} {time bin : ℤ}

/-- Of times that are not negative the bin is the quotient. -/
theorem msToBin_of_nonneg (h : 0 ≤ time) : msToBin .exact ms time = time / ms := by
  have hq : (0 : ℚ) ≤ (time : ℚ) / ms := by
    have ht : (0 : ℚ) ≤ time := by exact_mod_cast h
    positivity
  rw [msToBin, Arith.exact_round, trunc_of_nonneg hq]
  exact Rat.floor_intCast_div_natCast time ms

/-- A time is in its bin and in no other. -/
theorem msToBin_eq_iff (hms : 0 < ms) (h : 0 ≤ time) :
    msToBin .exact ms time = bin ↔ InBin ms bin time := by
  have hpos : (0 : ℤ) < ms := by exact_mod_cast hms
  rw [msToBin_of_nonneg h, InBin, ← Int.le_ediv_iff_mul_le hpos, ← Int.ediv_lt_iff_lt_mul hpos]
  omega

/-- The bins up to one are those of the times before its end. -/
theorem msToBin_le_iff (hms : 0 < ms) (h : 0 ≤ time) :
    msToBin .exact ms time ≤ bin ↔ time < (bin + 1) * ms := by
  have hpos : (0 : ℤ) < ms := by exact_mod_cast hms
  rw [msToBin_of_nonneg h, ← Int.ediv_lt_iff_lt_mul hpos]
  omega

end Bins

/-! ### Bits of events -/

section Bits

variable {es : List LogEvent}

/-- Bits of the same events. -/
theorem bitsWhere_congr {p q : LogEvent → Bool} (h : ∀ e ∈ es, p e = q e) :
    bitsWhere p es = bitsWhere q es := by
  rw [bitsWhere, bitsWhere, List.filter_congr h]

/-- Events up to a bin are those up to the bin before and those in it. -/
theorem bitsWhere_le_succ (ms : ℕ) (kind : Kind) (bin : ℤ) :
    bitsWhere (fun e ↦ e.kind = kind ∧ msToBin .exact ms e.time ≤ bin) es =
      bitsWhere (fun e ↦ e.kind = kind ∧ msToBin .exact ms e.time ≤ bin - 1) es +
        bitsWhere (fun e ↦ e.kind = kind ∧ msToBin .exact ms e.time = bin) es := by
  induction es using List.reverseRecOn with
  | nil => rfl
  | append_singleton es e ih =>
    simp only [bitsWhere_append_singleton, ih, decide_eq_true_eq]
    by_cases hk : e.kind = kind
    · simp only [hk, true_and]
      split_ifs <;> omega
    · simp only [hk, false_and, ↓reduceIte]
      omega

/-- There are no events before the least bin. -/
theorem bitsWhere_lt_earliest {ms : ℕ} {earliest : ℤ} (kind : Kind)
    (h : ∀ e ∈ es, earliest ≤ msToBin .exact ms e.time) :
    bitsWhere (fun e ↦ e.kind = kind ∧ msToBin .exact ms e.time ≤ earliest - 1) es = 0 := by
  have hnone : bitsWhere (fun e ↦ e.kind = kind ∧ msToBin .exact ms e.time ≤ earliest - 1) es =
      bitsWhere (fun _ ↦ false) es := by
    apply bitsWhere_congr
    intro e he
    have hle := h e he
    rw [decide_eq_false_iff_not]
    omega
  rw [hnone]
  simp [bitsWhere]

end Bits

/-! ### The output loop -/

section Rows

variable (ms : ℕ) (es : List LogEvent)

/-- The bits of a kind up to a bin. -/
def bitsUpTo (kind : Kind) (bin : ℤ) : ℕ :=
  bitsWhere (fun e ↦ e.kind = kind ∧ msToBin .exact ms e.time ≤ bin) es

private theorem bitsUpTo_eq_add (kind : Kind) (bin : ℤ) :
    bitsUpTo ms es kind bin =
      bitsUpTo ms es kind (bin - 1) + (totalsOf .exact ms es).bits kind bin := by
  rw [Totals.bits, count_totalsOf]
  exact bitsWhere_le_succ ms kind bin

/-- One row for every bin. -/
theorem map_bin_rowLoop (bits : Kind → ℤ → ℕ) (n : ℕ) (bin occupancy : ℤ) :
    (rowLoop .exact ms bits n bin occupancy).map Row.bin =
      (List.range n).map (fun i : ℕ ↦ bin + (i : ℤ)) := by
  induction n generalizing bin occupancy with
  | zero => rfl
  | succ n ih =>
    rw [rowLoop, List.map_cons, ih, List.range_succ_eq_map, List.map_cons, List.map_map]
    congr 1
    · simp
    · apply List.map_congr_left
      intro i _
      simp only [Function.comp_apply]
      push_cast
      ring

/-- Every row has the counts of its bin, and what has arrived and not departed up to it if
the loop was entered with that. -/
theorem rowLoop_spec (n : ℕ) (bin : ℤ) :
    ∀ row ∈ rowLoop .exact ms (totalsOf .exact ms es).bits n bin
      (bitsUpTo ms es .arrival (bin - 1) - bitsUpTo ms es .departure (bin - 1)),
      row.rate = (fun kind ↦ toRate .exact ms ((totalsOf .exact ms es).bits kind row.bin)) ∧
      row.occupancy =
        (bitsUpTo ms es .arrival row.bin : ℤ) - bitsUpTo ms es .departure row.bin := by
  induction n generalizing bin with
  | zero => simp [rowLoop]
  | succ n ih =>
    have harr := bitsUpTo_eq_add ms es .arrival bin
    have hdep := bitsUpTo_eq_add ms es .departure bin
    have hocc : ((bitsUpTo ms es .arrival (bin - 1) : ℤ) - bitsUpTo ms es .departure (bin - 1) +
        (totalsOf .exact ms es).bits .arrival bin -
        (totalsOf .exact ms es).bits .departure bin) =
        bitsUpTo ms es .arrival bin - bitsUpTo ms es .departure bin := by
      omega
    intro row hrow
    rw [rowLoop, hocc] at hrow
    rcases List.mem_cons.mp hrow with rfl | hrow
    · exact ⟨rfl, rfl⟩
    · have hnext := ih (bin + 1)
      rw [add_sub_cancel_right] at hnext
      exact hnext row hrow

/-- The bits of the bins from the least on add up to the bits up to the last. -/
theorem sum_count_eq_bitsUpTo (kind : Kind) {earliest : ℤ}
    (h : ∀ e ∈ es, earliest ≤ msToBin .exact ms e.time) (n : ℕ) :
    (((List.range n).map (fun i : ℕ ↦
      (totalsOf .exact ms es).bits kind (earliest + i))).sum : ℕ) =
      bitsUpTo ms es kind (earliest + n - 1) := by
  induction n with
  | zero =>
    rw [Nat.cast_zero, add_zero]
    exact (bitsWhere_lt_earliest kind h).symm
  | succ n ih =>
    rw [List.range_succ, List.map_append, List.sum_append, ih, List.map_singleton,
      List.sum_singleton]
    have hlast := bitsUpTo_eq_add ms es kind (earliest + n)
    rw [show earliest + ((n + 1 : ℕ) : ℤ) - 1 = earliest + n by push_cast; ring, hlast]

end Rows

/-- A rate over a bin gives back its bits. -/
theorem toRate_mul {ms : ℕ} (hms : 0 < ms) (bits : ℕ) :
    toRate .exact ms bits * ms * 1000 = bits := by
  have hne : (ms : ℚ) ≠ 0 := by exact_mod_cast hms.ne'
  simp only [toRate, Arith.exact_round]
  field_simp
  norm_num

/-! ### The rows that are printed -/

section Printed

variable {ms : ℕ} {es : List LogEvent} {rows : List Row}

/-- The rows are those of the bins from the least to the greatest; each has the counts of its
bin and what has arrived and not departed up to it. -/
theorem rows_spec (hms : 0 < ms) (hne : es ≠ [])
    (h : (totalsOf .exact ms es).rows .exact ms = .ok rows) :
    ∃ earliest latest, IsLeast { b | ∃ e ∈ es, msToBin .exact ms e.time = b } earliest ∧
      IsGreatest { b | ∃ e ∈ es, msToBin .exact ms e.time = b } latest ∧
      rows.map Row.bin =
        (List.range (latest + 1 - earliest).toNat).map (fun i : ℕ ↦ earliest + (i : ℤ)) ∧
      ∀ row ∈ rows,
        (∀ kind, row.rate kind * ms * 1000 = (totalsOf .exact ms es).bits kind row.bin) ∧
        row.occupancy =
          (bitsUpTo ms es .arrival row.bin : ℤ) - bitsUpTo ms es .departure row.bin := by
  obtain ⟨earliest, latest, hleast, hgreatest, heq⟩ := rows_totalsOf .exact ms hne
  have hlow : ∀ e ∈ es, earliest ≤ msToBin .exact ms e.time := fun e he ↦ hleast.2 ⟨e, he, rfl⟩
  -- Nothing has arrived or departed before the first bin.
  have hzero : (0 : ℤ) = (bitsUpTo ms es .arrival (earliest - 1) : ℤ) -
      bitsUpTo ms es .departure (earliest - 1) := by
    rw [bitsUpTo, bitsUpTo, bitsWhere_lt_earliest .arrival hlow,
      bitsWhere_lt_earliest .departure hlow]
    rfl
  rw [h] at heq
  split at heq
  · cases heq
  rw [Except.ok.injEq, hzero] at heq
  subst heq
  refine ⟨earliest, latest, hleast, hgreatest, map_bin_rowLoop .., ?_⟩
  intro row hrow
  obtain ⟨hrate, hoccupancy⟩ := rowLoop_spec ms es _ earliest row hrow
  refine ⟨fun kind ↦ ?_, hoccupancy⟩
  rw [hrate, toRate_mul hms]

/-- The bits of all rows are the sum of their kind. -/
theorem sum_rates_eq_sums {earliest latest : ℤ}
    (hleast : IsLeast { b | ∃ e ∈ es, msToBin .exact ms e.time = b } earliest)
    (hgreatest : IsGreatest { b | ∃ e ∈ es, msToBin .exact ms e.time = b } latest)
    (hbins : rows.map Row.bin =
      (List.range (latest + 1 - earliest).toNat).map (fun i : ℕ ↦ earliest + (i : ℤ)))
    (kind : Kind) (hrates : ∀ row ∈ rows, row.rate kind * ms * 1000 =
      (totalsOf .exact ms es).bits kind row.bin) :
    (rows.map (fun row ↦ row.rate kind * (ms : ℚ) * 1000)).sum =
      (totalsOf .exact ms es).sums kind := by
  have hle : earliest ≤ latest := hleast.2 hgreatest.1
  have hall : bitsUpTo ms es kind latest = (totalsOf .exact ms es).sums kind := by
    rw [sums_totalsOf]
    apply bitsWhere_congr
    intro e he
    have hhigh : msToBin .exact ms e.time ≤ latest := hgreatest.2 ⟨e, he, rfl⟩
    simp [hhigh]
  have hsum := sum_count_eq_bitsUpTo ms es kind (fun e he ↦ hleast.2 ⟨e, he, rfl⟩)
    (latest + 1 - earliest).toNat
  rw [show earliest + (((latest + 1 - earliest).toNat : ℕ) : ℤ) - 1 = latest by omega,
    hall] at hsum
  have hmap : rows.map (fun row ↦ row.rate kind * (ms : ℚ) * 1000) =
      (rows.map Row.bin).map (fun bin ↦ ((totalsOf .exact ms es).bits kind bin : ℚ)) := by
    rw [List.map_map]
    exact List.map_congr_left hrates
  rw [hmap, hbins, List.map_map, ← hsum, Nat.cast_list_sum, List.map_map]
  rfl

end Printed

/-! ### Events behind the base timestamp -/

section Nonneg

variable {ms : ℕ} {es : List LogEvent} (hms : 0 < ms) (h : ∀ e ∈ es, 0 ≤ e.time)

include hms h

/-- The bins that hold an event. -/
theorem bins_eq_inBin :
    { b | ∃ e ∈ es, msToBin .exact ms e.time = b } = { b | ∃ e ∈ es, InBin ms b e.time } := by
  ext b
  constructor
  · rintro ⟨e, he, hb⟩
    exact ⟨e, he, (msToBin_eq_iff hms (h e he)).mp hb⟩
  · rintro ⟨e, he, hb⟩
    exact ⟨e, he, (msToBin_eq_iff hms (h e he)).mpr hb⟩

/-- A count has the bits of the times in its bin. -/
theorem count_eq_inBin (kind : Kind) (bin : ℤ) : (totalsOf .exact ms es).bits kind bin =
    bitsWhere (fun e ↦ e.kind = kind ∧ InBin ms bin e.time) es := by
  rw [Totals.bits, count_totalsOf]
  apply bitsWhere_congr
  intro e he
  rw [decide_eq_decide, msToBin_eq_iff hms (h e he)]

/-- The bits up to a bin are those of the times before its end. -/
theorem bitsUpTo_eq_before (kind : Kind) (bin : ℤ) : bitsUpTo ms es kind bin =
    bitsWhere (fun e ↦ e.kind = kind ∧ e.time < (bin + 1) * ms) es := by
  apply bitsWhere_congr
  intro e he
  rw [decide_eq_decide, msToBin_le_iff hms (h e he)]

end Nonneg

/-! ### Accepted logs -/

/-- What was counted and which rows there are when a log is accepted. -/
theorem accepted_spec {c : Arith} {p : Perl} {arg : Text} {lines : List Text} {ms : ℕ}
    {rows : List Row} (harg : msPerBin arg = .ok ms) (hms : 0 < ms)
    (haccept : mmThroughputMinrtt c p arg lines = .ok rows) :
    ∃ es base, logEvents c keepAll lines = .ok es ∧ es ≠ [] ∧
      eventLoop c keepAll ms .start lines = .ok ⟨base, totalsOf c ms es⟩ ∧
      (totalsOf c ms es).rows c ms = .ok rows := by
  rw [mmThroughputMinrtt_eq harg] at haccept
  rcases eventLoop_start c keepAll hms.ne' lines with ⟨d, -, h⟩ | ⟨es, base, hes, -, h⟩
  · rw [h] at haccept
    cases haccept
  · rw [h] at haccept
    change ((totalsOf c ms es).statistics c p).bind (fun _ ↦ (totalsOf c ms es).rows c ms) = _
      at haccept
    refine ⟨es, base, hes, ?_, h, ?_⟩
    · rintro rfl
      cases haccept
    · cases hs : (totalsOf c ms es).statistics c p with
      | error stop =>
        rw [hs] at haccept
        cases haccept
      | ok st =>
        rw [hs] at haccept
        exact haccept

/-- Binning neither loses nor misplaces traffic: the rows of an accepted log without events
before its base timestamp are those of its events. -/
theorem mmThroughputMinrtt_binsExactly (p : Perl) (arg : Text) (lines : List Text) (ms : ℕ)
    (rows : List Row) (harg : msPerBin arg = .ok ms) (hms : 0 < ms)
    (haccept : mmThroughputMinrtt .exact p arg lines = .ok rows)
    (hbase : ∀ es, logEvents .exact keepAll lines = .ok es → ∀ e ∈ es, 0 ≤ e.time) :
    ∃ es s, logEvents .exact keepAll lines = .ok es ∧
      eventLoop .exact keepAll ms .start lines = .ok s ∧
      BinsExactly ms es s.totals.sums rows := by
  obtain ⟨es, base, hes, hne, hloop, hrows⟩ := accepted_spec harg hms haccept
  have hnonneg := hbase es hes
  obtain ⟨earliest, latest, hleast, hgreatest, hbins, hspec⟩ := rows_spec hms hne hrows
  have hset := bins_eq_inBin hms hnonneg
  refine ⟨es, _, hes, hloop, ⟨earliest, latest, hset ▸ hleast, hset ▸ hgreatest, hbins⟩, ?_,
    ?_, ?_⟩
  · intro row hrow kind
    rw [(hspec row hrow).1, count_eq_inBin hms hnonneg]
  · intro kind
    exact sum_rates_eq_sums hleast hgreatest hbins kind (fun row hrow ↦ (hspec row hrow).1 kind)
  · intro row hrow
    rw [(hspec row hrow).2, bitsUpTo_eq_before hms hnonneg, bitsUpTo_eq_before hms hnonneg]

/-- A log of five events in three bins of two milliseconds, the middle one without traffic. -/
def threeBins : List Text :=
  [baseHeader ++ [49, 48, 48], [49, 48, 49, 32, 35, 32, 50], [49, 48, 49, 32, 43, 32, 49],
    [49, 48, 53, 32, 35, 32, 49], [49, 48, 53, 32, 45, 32, 49, 32, 52],
    [49, 48, 53, 32, 43, 32, 51]]

/-- Three rows are printed, and they are the rows of the events. -/
theorem mmThroughputMinrtt_binsExactly_three :
    ∃ rows, mmThroughputMinrtt .exact (.sorted 100) [50] threeBins = .ok rows ∧
      rows.map Row.bin = [0, 1, 2] ∧
      ∃ es s, logEvents .exact keepAll threeBins = .ok es ∧
        eventLoop .exact keepAll 2 .start threeBins = .ok s ∧
        BinsExactly 2 es s.totals.sums rows := by
  have hrows : (mmThroughputMinrtt .exact (.sorted 100) [50] threeBins).toOption.map
      (List.map Row.bin) = some [0, 1, 2] := by
    decide +kernel
  have htimes : (logEvents .exact keepAll threeBins).toOption.all
      (fun es ↦ es.all (fun e ↦ 0 ≤ e.time)) = true := by
    decide +kernel
  cases h : mmThroughputMinrtt .exact (.sorted 100) [50] threeBins with
  | error stop =>
    rw [h] at hrows
    cases hrows
  | ok rows =>
    rw [h] at hrows
    refine ⟨rows, rfl, Option.some.inj hrows, ?_⟩
    apply mmThroughputMinrtt_binsExactly (.sorted 100) [50] threeBins 2 rows rfl (by decide) h
    intro es hes e he
    rw [hes] at htimes
    simpa using List.all_eq_true.mp htimes e he

/-! ### Printed rows -/

/-- The rows of an accepted log print as those of its bins. -/
theorem printRows_eq {ms : ℕ} {es : List LogEvent} {rows : List Row} {b : BinTotals}
    (hne : es ≠ []) (hrows : (totalsOf .exact ms es).rows .exact ms = .ok rows)
    (hbits : b.bits = (totalsOf .exact ms es).bits)
    (hleast : IsLeast { bin | ∃ e ∈ es, msToBin .exact ms e.time = bin } b.earliest)
    (hgreatest : IsGreatest { bin | ∃ e ∈ es, msToBin .exact ms e.time = bin } b.latest) :
    printRows .exact ms b = rows.flatMap (Row.text .exact ms) := by
  obtain ⟨earliest, latest, hleast', hgreatest', heq⟩ := rows_totalsOf .exact ms hne
  rw [hleast'.unique hleast, hgreatest'.unique hgreatest, hrows] at heq
  split at heq
  · cases heq
  · rw [Except.ok.inj heq, printRows, hbits, BinTotals.count]

end NatcpSpec.Trace
