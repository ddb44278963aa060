import NatcpSpec.Server.ReplaySchedule
import NatcpSpec.System.Rates

/-!
# Feedback on time

From a log of the link, through `feedback/mm-throughput-minrtt`, `feedback/trace.to.minrtt.sh`
and the loader of the server, to the replay loop, `src/server.cc:434–498`, in exact arithmetic.
The time of a line is the beginning of its bin. When no iteration overruns its sleep by a bin,
the kernel is told the capacity of every bin that begins after the client's start, and told it
as long after the beginning as the sleep for `lag_time` took, `src/server.cc:440`.
-/

namespace NatcpSpec.System

open NatcpSpec.Base NatcpSpec.Server NatcpSpec.Trace

/-- Length of a bin in microseconds. -/
def binMicros : ℕ := 50000

section Bins

variable {b : BinTotals} {r : Replay}

/-- The time of a line is the beginning of its bin. -/
theorem entry_micros (b : BinTotals) (i : ℕ) :
    (b.entry i).time * 1000000 = ((50000 * (b.earliest + i) : ℤ) : ℚ) := by
  simp only [BinTotals.entry]
  push_cast
  ring

private theorem wholeMicros_of_mem {e : STrace} (h : e ∈ (List.range b.count).map b.entry) :
    WholeMicros e.time := by
  obtain ⟨i, -, rfl⟩ := List.mem_map.mp h
  exact ⟨_, entry_micros b i⟩

private theorem isChain_entries : ((List.range b.count).map b.entry).IsChain
    (fun x y : STrace ↦ x.time * 1000000 + binMicros ≤ y.time * 1000000) := by
  rw [List.isChain_map, List.isChain_range]
  intro i _
  rw [entry_micros, entry_micros, binMicros]
  push_cast
  linarith

private theorem skips_entry_iff (i : ℕ) :
    r.Skips .exact (b.entry i) ↔ 50 * (b.earliest + i) ≤ (r.setupTime.toNat / 1000 : ℕ) := by
  have htime : 1000 * (b.entry i).time = ((50 * (b.earliest + i) : ℤ) : ℚ) := by
    simp only [BinTotals.entry]
    push_cast
    ring
  rw [← not_iff_not, not_skips_exact_iff, htime, Int.floor_intCast, biasTimeScaled_exact, not_le]

private theorem bounds_of_mem {es : List LogEvent} {earliest latest : ℤ}
    (hleast : IsLeast { bin | ∃ e ∈ es, InBin feedbackPeriod bin e.time } earliest)
    (hgreatest : IsGreatest { bin | ∃ e ∈ es, InBin feedbackPeriod bin e.time } latest)
    {e : LogEvent} (he : e ∈ es) : 50 * earliest ≤ e.time ∧ e.time < 50 * (latest + 1) := by
  have hbin : InBin feedbackPeriod (e.time / 50) e.time := by
    unfold InBin feedbackPeriod
    omega
  have hlow := hleast.2 ⟨e, he, hbin⟩
  have hhigh := hgreatest.2 ⟨e, he, hbin⟩
  omega

private theorem count_pos {es : List LogEvent}
    (hleast : IsLeast { bin | ∃ e ∈ es, InBin feedbackPeriod bin e.time } b.earliest)
    (hgreatest : IsGreatest { bin | ∃ e ∈ es, InBin feedbackPeriod bin e.time } b.latest) :
    0 < b.count := by
  have hle := hleast.2 hgreatest.1
  unfold BinTotals.count
  omega

-- The clock starts where the client is if an event of the log is not after its start.
private theorem startsAligned_of_le (hr : r.trace = (List.range b.count).map b.entry)
    (hcount : 0 < b.count) (hle : 50 * b.earliest ≤ (r.setupTime.toNat / 1000 : ℕ)) :
    StartsAligned r := by
  refine Or.inr ⟨b.entry 0, ?_, ?_⟩
  · rw [hr, List.head?_eq_getElem?, List.getElem?_map, List.getElem?_range hcount]
    rfl
  · rw [skips_entry_iff]
    push_cast
    omega

end Bins

/-- The bins whose rates are put in force are those that begin after the client's start, and
each rate is in force the lag after its bin has begun. -/
structure OnTime (g : Settings) (es : List LogEvent) (r : Replay) (lag : ℕ)
    (ps : List (Pass CntState Iteration)) : Prop where
  every : ∀ bin : ℤ, (∃ e ∈ es, e.time < 50 * (bin + 1)) → (∃ e ∈ es, 50 * bin ≤ e.time) →
    (r.setupTime.toNat / 1000 : ℕ) < 50 * bin →
    ∃ i, PutsInForce r lag ps i (rateOf g es bin) (50000 * bin + lag)
  only : ∀ (i : ℕ) (p : Pass CntState Iteration) (o : ℤ), ps[i]? = some p →
    p.out.visit = .applied o → ∃ bin : ℤ, (r.setupTime.toNat / 1000 : ℕ) < 50 * bin ∧
      PutsInForce r lag ps i (rateOf g es bin) (50000 * bin + lag)

/-- The trace of a log is loaded. If the client is at zero or an event of the log is not after
its start, and every iteration goes through and overruns its sleep by less than a bin, the
kernel is told the capacity of every bin the lag after that bin has begun. -/
theorem rates_on_time (p : Perl) (g : Settings) (lines : List Text) (es : List LogEvent)
    (rows : List Row) (mem : ℕ → Entry) (hlog : CleanLog lines es)
    (haccept : mmThroughputMinrtt .exact p [53, 48] lines = .ok rows)
    (hmax : rows.length < maxLines) :
    ∃ trace, entries (load .exact (traceToMinrtt p lines) mem) = some trace ∧
      ∀ (setup : UInt64) (lag : ℕ) (env : ℕ → IterEnv) (inForce : SockOpt → ℤ),
        (setup = 0 ∨ ∃ e ∈ es, e.time ≤ (setup.toNat / 1000 : ℕ)) →
        (∀ q ∈ cntThread .exact ⟨g, trace, setup⟩ env inForce, Prompt g binMicros q) →
        OnTime g es ⟨g, trace, setup⟩ lag (cntThread .exact ⟨g, trace, setup⟩ env inForce) := by
  obtain ⟨b, hcapacity, hleast, hgreatest, -, hentries⟩ := hlog.exists_entries haccept hmax mem
  refine ⟨_, hentries, ?_⟩
  intro setup lag env inForce hstart hprompt
  have hcount := count_pos hleast hgreatest
  have hbounds := fun e he ↦ bounds_of_mem (e := e) hleast hgreatest he
  have haligned : StartsAligned ⟨g, (List.range b.count).map b.entry, setup⟩ := by
    rcases hstart with hz | ⟨e, he, hle⟩
    · exact Or.inl hz
    · exact startsAligned_of_le rfl hcount ((hbounds e he).1.trans hle)
  have happlied : ∀ i : ℕ, i < b.count → (setup.toNat / 1000 : ℕ) < 50 * (b.earliest + i) →
      PutsInForce ⟨g, (List.range b.count).map b.entry, setup⟩ lag
        (cntThread .exact ⟨g, (List.range b.count).map b.entry, setup⟩ env inForce) i
        (rateOf g es (b.earliest + i)) (50000 * (b.earliest + i : ℤ) + lag) := by
    intro i hi hlt
    have htime : (b.entry i).time * 1000000 = 50000 * ((b.earliest + i : ℤ) : ℚ) := by
      rw [entry_micros]
      push_cast
      ring
    rw [← val1_entry g hcapacity, ← htime]
    refine applied_on_time (e := b.entry i) lag isChain_entries (fun _ ↦ wholeMicros_of_mem)
      haligned hprompt ?_ ?_
    · rw [List.getElem?_map, List.getElem?_range hi]
      rfl
    · rw [skips_entry_iff]
      exact not_le.mpr hlt
  refine ⟨?_, ?_⟩
  · rintro bin ⟨e, he, hlow⟩ ⟨e', he', hhigh⟩ hlt
    have hfirst := hbounds e he
    have hlast := hbounds e' he'
    obtain ⟨i, rfl⟩ : ∃ i : ℕ, bin = b.earliest + i := ⟨(bin - b.earliest).toNat, by omega⟩
    have hi : i < b.count := by
      unfold BinTotals.count
      omega
    exact ⟨i, happlied i hi hlt⟩
  · intro i q o hq hv
    have hentry := cntThread_entry hq
    obtain ⟨hi, he⟩ := List.getElem?_eq_some_iff.mp hentry
    rw [List.length_map, List.length_range] at hi
    rw [List.getElem_map, List.getElem_range] at he
    have hs := (applied_spec hq hv).1
    rw [← he, skips_entry_iff, not_le] at hs
    exact ⟨_, hs, happlied i hi hs⟩

/-- Iterations that sleep for a bin and take no time for the calls. -/
def onTheBeat (_ : ℕ) : IterEnv := ⟨0, 50000, fun _ ↦ true⟩

/-- The first bin of a log is handed over 7 ms after it has begun, with a lag of 7 ms. -/
theorem rates_on_time_two : ∃ (es : List LogEvent) (i : ℕ),
    CleanLog twoOpportunities es ∧ capacityIn es 1 = 12000 ∧
      PutsInForce ⟨⟨5, 1, 1, 2⟩, twoOpportunitiesTrace, 0⟩ 7000
        (cntThread .exact ⟨⟨5, 1, 1, 2⟩, twoOpportunitiesTrace, 0⟩ onTheBeat (fun _ ↦ 0)) i
        (rateOf ⟨5, 1, 1, 2⟩ es 1) 57000 := by
  obtain ⟨es, rows, hlog, haccept, hmax, htimes, hcapacity⟩ := cleanLog_twoOpportunities
  have hprompt : ∀ q ∈ cntThread .exact ⟨⟨5, 1, 1, 2⟩, twoOpportunitiesTrace, 0⟩ onTheBeat
      (fun _ ↦ 0), Prompt ⟨5, 1, 1, 2⟩ binMicros q := by
    decide +kernel
  obtain ⟨e, he, htime⟩ : ∃ e ∈ es, e.time = 51 := by
    have hmem : (51 : ℤ) ∈ es.map LogEvent.time := by simp [htimes]
    exact List.mem_map.mp hmem
  obtain ⟨trace, hentries, honTime⟩ := rates_on_time (.sorted 100) ⟨5, 1, 1, 2⟩ twoOpportunities
    es rows (fun _ ↦ STrace.entry ⟨0, 0, 0⟩) hlog haccept hmax
  obtain rfl := Option.some.inj (entries_twoOpportunities.symm.trans hentries)
  obtain ⟨i, hi⟩ := (honTime 0 7000 onTheBeat (fun _ ↦ 0) (Or.inl rfl) hprompt).every 1
    ⟨e, he, by omega⟩ ⟨e, he, by omega⟩ (by decide)
  norm_num at hi
  exact ⟨es, i, hlog, hcapacity, hi⟩

end NatcpSpec.System
