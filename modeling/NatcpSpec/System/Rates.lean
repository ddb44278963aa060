import NatcpSpec.Server.Threads
import NatcpSpec.Trace.Pipeline

/-!
# From a log to the kernel

The bottleneck rate that `src/server.cc:465,472` hands to the kernel comes from the third
program after the one that wrote the log: `mm-throughput-minrtt` counts the delivery
opportunities of a bin, awk writes the rate of the bin to the trace, and the server loads it.
However the threads are scheduled, the kernel is told rates of bins of the log, in the order
of the bins and each at most once. Numbers are exact here: in doubles, a rate may be cut to the
integer below it.
-/

namespace NatcpSpec.System

open NatcpSpec.Base NatcpSpec.Server NatcpSpec.Trace

/-- The rate that a call hands to the kernel. -/
def rate? : SockOpt × ℤ → Option ℤ
  | (.tcpBbrBwval, rate) => some rate
  | _ => none

/-- The bottleneck rates that the kernel is told in a run, in kbit/s. -/
def ratesOf (actions : List Action) : List ℤ := (feedbackOf actions).filterMap rate?

/-! ### Rates of any trace -/

section Session

variable {c : Arith} {g : Settings}

private theorem filterMap_feedbackCalls (e : STrace) :
    (feedbackCalls c g e).filterMap rate? = [(feedbackVals c g e).val1] := by
  unfold feedbackCalls
  by_cases h1 : g.feedback = 1 <;> by_cases h3 : g.feedback = 3 <;> simp [h1, h3, rate?]

/-- Iterations hand over the rates of some of their lines, in order. -/
theorem filterMap_replayCalls_sublist (ps : List (Pass CntState Iteration)) :
    ((replayCalls c g ps).filterMap rate?).Sublist
      (ps.map (fun p ↦ (feedbackVals c g p.out.entry).val1)) := by
  induction ps with
  | nil => exact List.Sublist.slnil
  | cons p ps ih =>
    rw [replayCalls, List.flatMap_cons, List.filterMap_append, List.map_cons,
      ← List.singleton_append]
    refine List.Sublist.append ?_ ih
    unfold Iteration.calls
    split
    · rw [filterMap_feedbackCalls]
    · exact List.nil_sublist _

/-- Iterations take the lines of the trace from the first on. -/
theorem map_entry_cntThread (r : Replay) (env : ℕ → IterEnv) (inForce : SockOpt → ℤ) :
    (cntThread c r env inForce).map (fun p ↦ p.out.entry) <+: r.trace := by
  rw [List.prefix_iff_getElem?]
  intro i hi
  rw [List.length_map] at hi
  rw [List.getElem_map]
  exact cntThread_entry (List.getElem?_eq_getElem hi)

/-- In every run the kernel is told rates of the trace, in order and each at most once. -/
theorem ratesOf_sublist {x : Session} {actions : List Action} {s : Sys}
    (h : Run (Step c x) Sys.start actions s) :
    (ratesOf actions).Sublist (x.trace.map (fun e ↦ (feedbackVals c x.settings e).val1)) := by
  rcases (traced_of_run h).exists_thread with hnil | ⟨setup, env, inForce, -, hpre, -⟩
  · rw [ratesOf, hnil]
    exact List.nil_sublist _
  · have hlines := (map_entry_cntThread (c := c) (x.replay setup) env inForce).map
      (fun e ↦ (feedbackVals c x.settings e).val1)
    rw [List.map_map] at hlines
    exact ((hpre.filterMap rate?).sublist.trans (filterMap_replayCalls_sublist _)).trans
      hlines.sublist

end Session

/-! ### Rates of a log -/

/-- The rate of a bin of the log in kbit/s, as the server hands it on. -/
def rateOf (g : Settings) (es : List LogEvent) (bin : ℤ) : ℤ :=
  trunc (capacityIn es bin / 50 * g.bwScale)

/-- The rate of a line is that of its bin. -/
theorem val1_entry (g : Settings) {es : List LogEvent} {b : BinTotals}
    (hcapacity : ∀ bin, b.capacity bin = capacityIn es bin) (i : ℕ) :
    (feedbackVals .exact g (b.entry i)).val1 = rateOf g es (b.earliest + i) := by
  simp only [feedbackVals, BinTotals.entry, hcapacity, Arith.exact_round, Arith.exact_toInt, rateOf]
  congr 1
  ring

/-- The server loads the trace of a log, and in every run on it the rates that the kernel is
told are capacities of bins of 50 ms of the log in kbit/s, scaled by the server's argument: in
the order of the bins, and each at most once. -/
theorem rates_of_log (p : Perl) (g : Settings) (lines : List Text) (es : List LogEvent)
    (rows : List Row) (mem : ℕ → Entry) (hlog : CleanLog lines es)
    (haccept : mmThroughputMinrtt .exact p [53, 48] lines = .ok rows)
    (hmax : rows.length < maxLines) :
    ∃ trace earliest latest,
      entries (load .exact (traceToMinrtt p lines) mem) = some trace ∧
      IsLeast { bin | ∃ e ∈ es, InBin feedbackPeriod bin e.time } earliest ∧
      IsGreatest { bin | ∃ e ∈ es, InBin feedbackPeriod bin e.time } latest ∧
      ∀ (received : Text) (actions : List Action) (s : Sys),
        Run (Step .exact ⟨g, trace, received⟩) Sys.start actions s →
        (ratesOf actions).Sublist ((List.range (latest + 1 - earliest).toNat).map
          (fun i : ℕ ↦ rateOf g es (earliest + i))) := by
  obtain ⟨b, hcapacity, hleast, hgreatest, -, hentries⟩ := hlog.exists_entries haccept hmax mem
  refine ⟨_, b.earliest, b.latest, hentries, hleast, hgreatest, ?_⟩
  intro received actions s h
  have hsub := ratesOf_sublist h
  rw [List.map_map] at hsub
  simpa only [Function.comp_def, val1_entry g hcapacity, BinTotals.count] using hsub

/-- A log of two delivery opportunities 100 ms apart and one departure. -/
def twoOpportunities : List Text :=
  [baseHeader ++ [49, 48, 48], [49, 53, 49, 32, 35, 32, 49, 53, 48, 48],
    [49, 53, 49, 32, 45, 32, 49, 48, 32, 49], [50, 53, 49, 32, 35, 32, 49, 53, 48, 48]]

private theorem bitsWhere_le (p : LogEvent → Bool) (es : List LogEvent) :
    bitsWhere p es ≤ (es.map LogEvent.bits).sum :=
  (List.filter_sublist.map LogEvent.bits).sum_le_sum (fun _ _ ↦ Nat.zero_le _)

/-- The log is accepted and loses nothing. -/
theorem cleanLog_twoOpportunities : ∃ (es : List LogEvent) (rows : List Row),
    CleanLog twoOpportunities es ∧
      mmThroughputMinrtt .exact (.sorted 100) [53, 48] twoOpportunities = .ok rows ∧
      rows.length < maxLines ∧ es.map LogEvent.time = [51, 51, 151] ∧ capacityIn es 1 = 12000 := by
  have hevents : (logEvents .exact keepAll twoOpportunities).toOption.map (fun es ↦
      (es.map LogEvent.time, (es.map LogEvent.bits).sum, capacityIn es 1)) =
      some ([51, 51, 151], 24080, 12000) := by
    decide +kernel
  have hrows : (mmThroughputMinrtt .exact (.sorted 100) [53, 48] twoOpportunities).toOption.map
      List.length = some 3 := by
    decide +kernel
  obtain ⟨es, hes, hfacts⟩ := exists_ok_of_map hevents
  obtain ⟨rows, hrows, hlength⟩ := exists_ok_of_map hrows
  rw [Prod.mk.injEq, Prod.mk.injEq] at hfacts
  obtain ⟨htimes, hbits, hcapacity⟩ := hfacts
  have htime : ∀ e ∈ es, e.time = 51 ∨ e.time = 151 := by
    intro e he
    have hmem := List.mem_map_of_mem (f := LogEvent.time) he
    rw [htimes] at hmem
    simpa using hmem
  have hrange : (1000 : ℤ) ≤ doubleRange := by decide +kernel
  refine ⟨es, rows, ⟨hes, ?_, ?_, ?_⟩, hrows, ?_, htimes, hcapacity⟩
  · intro e he
    have := htime e he
    omega
  · intro e he
    have := htime e he
    omega
  · intro bin
    have := bitsWhere_le (fun e ↦ e.kind = .capacity ∧ InBin feedbackPeriod bin e.time) es
    unfold capacityIn
    omega
  · rw [hlength]
    decide

/-- The trace of that log in memory. -/
def twoOpportunitiesTrace : List STrace :=
  [⟨1 / 20, 6 / 25, 50000⟩, ⟨1 / 10, 0, 50000⟩, ⟨3 / 20, 6 / 25, 50000⟩]

/-- What the server loads of it. -/
theorem entries_twoOpportunities :
    entries (load .exact (traceToMinrtt (.sorted 100) twoOpportunities)
      (fun _ ↦ STrace.entry ⟨0, 0, 0⟩)) = some twoOpportunitiesTrace := by
  decide +kernel

/-- A run on the trace of a log in which the replay loop makes a call. -/
theorem rates_of_log_two :
    ∃ (es : List LogEvent) (actions : List Action) (s : Sys) (earliest latest : ℤ),
      CleanLog twoOpportunities es ∧
      Run (Step .exact ⟨⟨5, 1, 1, 2⟩, twoOpportunitiesTrace, oneLineSession.received⟩) Sys.start
        actions s ∧
      feedbackOf actions ≠ [] ∧
      (ratesOf actions).Sublist ((List.range (latest + 1 - earliest).toNat).map
        (fun i : ℕ ↦ rateOf ⟨5, 1, 1, 2⟩ es (earliest + i))) := by
  obtain ⟨es, rows, hlog, haccept, hmax, -⟩ := cleanLog_twoOpportunities
  let x : Session := ⟨⟨5, 1, 1, 2⟩, twoOpportunitiesTrace, oneLineSession.received⟩
  have hvisits : (cntThread .exact (x.replay 0) (fun _ ↦ ⟨0, 50000, fun _ ↦ true⟩)
      (fun _ ↦ 0))[0]?.map (fun p ↦ p.out.visit) = some (.applied 50000) := by
    decide +kernel
  obtain ⟨p, hp, hv⟩ := Option.map_eq_some_iff.mp hvisits
  obtain ⟨first, s, len, rest, hfirst, hr, -, hc⟩ := exists_run_start (c := .exact) (x := x)
    (show (1 : ℤ) ≠ 0 by decide) (show MayAccept oneLineSession.received by decide) 0 (fun _ ↦ 0)
  obtain ⟨passes, call, t, hlast⟩ := exists_run_feedback hr hc hp hv
  have hrun := hfirst.append hlast
  obtain ⟨trace, earliest, latest, hentries, -, -, hrates⟩ := rates_of_log (.sorted 100)
    ⟨5, 1, 1, 2⟩ twoOpportunities es rows (fun _ ↦ STrace.entry ⟨0, 0, 0⟩) hlog haccept hmax
  obtain rfl := Option.some.inj (entries_twoOpportunities.symm.trans hentries)
  exact ⟨es, _, t, earliest, latest, hlog, hrun, by simp [feedbackOf, Action.call?],
    hrates _ _ t hrun⟩

end NatcpSpec.System
