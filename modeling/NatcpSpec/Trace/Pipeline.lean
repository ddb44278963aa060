import NatcpSpec.Trace.Agreement
import NatcpSpec.Trace.Binning

/-!
# From a log to the trace in memory

`feedback/trace.to.minrtt.sh` runs `mm-throughput-minrtt` on a log and awk on its rows, and
`src/server.cc:278–284` loads the file that it leaves. The output of a program that stops is
empty, because `mm-throughput-minrtt` prints all its rows at the end.
-/

namespace NatcpSpec.Trace

open NatcpSpec.Base NatcpSpec.Server

/-- The file that the script leaves for a log, in exact arithmetic; `trace.to.minrtt.sh:8–11`. -/
def traceToMinrtt (p : Perl) (lines : List Text) : Text :=
  match mmThroughputMinrtt .exact p [53, 48] lines with
  | .ok rows => awk 0 (records (rows.flatMap (Row.text .exact feedbackPeriod)))
  | .error _ => awk 0 (records [])

/-- Capacity in a bin of the feedback period, in bits. -/
def capacityIn (es : List LogEvent) (bin : ℤ) : ℕ :=
  bitsWhere (fun e ↦ e.kind = .capacity ∧ InBin feedbackPeriod bin e.time) es

/-- A log that nothing is lost of on the way: its events are not before the base timestamp,
its numbers are in the range of a double, and the capacity of a bin has few enough digits to
be printed. -/
structure CleanLog (lines : List Text) (es : List LogEvent) : Prop where
  events : logEvents .exact keepAll lines = .ok es
  time_nonneg : ∀ e ∈ es, 0 ≤ e.time
  time_lt : ∀ e ∈ es, e.time < doubleRange
  capacity_lt : ∀ bin, capacityIn es bin < 5 * 10 ^ 14

section Clean

variable {p : Perl} {lines : List Text} {es : List LogEvent} {rows : List Row}

private theorem feedbackPeriod_pos : 0 < feedbackPeriod := by decide

private theorem le_of_inBin {bin time : ℤ} (ht : 0 ≤ time) (h : InBin feedbackPeriod bin time) :
    0 ≤ bin ∧ bin ≤ time := by
  unfold InBin feedbackPeriod at h
  omega

private theorem lt_doubleRange : 5 * 10 ^ 14 ≤ doubleRange := by decide +kernel

/-- What the programs hand on is the capacity of the bins from the first to the last that
hold an event. -/
theorem CleanLog.exists_binTotals (h : CleanLog lines es)
    (haccept : mmThroughputMinrtt .exact p [53, 48] lines = .ok rows) :
    ∃ b : BinTotals, (∀ bin, b.capacity bin = capacityIn es bin) ∧
      IsLeast { bin | ∃ e ∈ es, InBin feedbackPeriod bin e.time } b.earliest ∧
      IsGreatest { bin | ∃ e ∈ es, InBin feedbackPeriod bin e.time } b.latest ∧
      b.count = rows.length ∧ traceToMinrtt p lines = traceFile b := by
  obtain ⟨es', base, hes', hne, -, hrows⟩ :=
    accepted_spec (show msPerBin [53, 48] = .ok feedbackPeriod from rfl) feedbackPeriod_pos haccept
  obtain rfl : es' = es := Except.ok.inj (hes'.symm.trans h.events)
  obtain ⟨earliest, latest, hleast, hgreatest, hbins, -⟩ := rows_spec feedbackPeriod_pos hne hrows
  have hset := bins_eq_inBin feedbackPeriod_pos h.time_nonneg
  have hcapacity := count_eq_inBin feedbackPeriod_pos h.time_nonneg .capacity
  have hearliest : -(doubleRange : ℤ) < earliest := by
    obtain ⟨e, he, hb⟩ := (hset ▸ hleast).1
    have hle := (le_of_inBin (h.time_nonneg e he) hb).1
    have hpos : (0 : ℤ) < doubleRange := by decide +kernel
    omega
  have hlatest : latest < (doubleRange : ℤ) := by
    obtain ⟨e, he, hb⟩ := (hset ▸ hgreatest).1
    have hle := (le_of_inBin (h.time_nonneg e he) hb).2
    have hlt := h.time_lt e he
    omega
  have hrange : ∀ bin, (totalsOf .exact feedbackPeriod es').bits .capacity bin < doubleRange := by
    intro bin
    rw [hcapacity]
    exact (h.capacity_lt bin).trans_le lt_doubleRange
  refine ⟨⟨earliest, latest, (totalsOf .exact feedbackPeriod es').bits, hearliest, hlatest,
    hrange⟩, hcapacity, hset ▸ hleast, hset ▸ hgreatest, ?_, ?_⟩
  · have hlength := congrArg List.length hbins
    simpa [BinTotals.count] using hlength.symm
  · rw [traceToMinrtt, haccept, traceFile]
    dsimp only
    rw [printRows_eq hne hrows rfl hleast hgreatest]

/-- The entries in memory are those of the bins. -/
theorem CleanLog.exists_entries (h : CleanLog lines es)
    (haccept : mmThroughputMinrtt .exact p [53, 48] lines = .ok rows)
    (hmax : rows.length < maxLines) (mem : ℕ → Entry) :
    ∃ b : BinTotals, (∀ bin, b.capacity bin = capacityIn es bin) ∧
      IsLeast { bin | ∃ e ∈ es, InBin feedbackPeriod bin e.time } b.earliest ∧
      IsGreatest { bin | ∃ e ∈ es, InBin feedbackPeriod bin e.time } b.latest ∧
      (load .exact (traceToMinrtt p lines) mem).overrun = false ∧
      entries (load .exact (traceToMinrtt p lines) mem) =
        some ((List.range b.count).map b.entry) := by
  obtain ⟨b, hcapacity, hleast, hgreatest, hcount, hfile⟩ := h.exists_binTotals haccept
  have hexact : ∀ i < b.count, b.PrintsExactly (b.earliest + i) := by
    intro i _
    apply printsExactly_of_lt
    rw [hcapacity]
    exact h.capacity_lt _
  obtain ⟨hnum, hover, hentry⟩ := load_traceFile hexact (hcount ▸ hmax) mem
  refine ⟨b, hcapacity, hleast, hgreatest, hfile ▸ hover, ?_⟩
  rw [hfile, entries_eq_some hnum hentry]

end Clean

end NatcpSpec.Trace
