import NatcpSpec.Server.Loader
import NatcpSpec.Trace.Generator

/-!
# Generator and loader

The feedback trace that `feedback/trace.to.minrtt.sh` writes for a log is loaded by
`src/server.cc:278–284` as one entry per row, without loss.
-/

namespace NatcpSpec.Trace

open NatcpSpec.Base NatcpSpec.Server

variable {b : BinTotals}

/-! ### Lines of the trace -/

private def lineBody (time bw minRtt : ℚ) : Text :=
  fixed 6 time ++ 32 :: (fixed 6 bw ++ 32 :: leftPad 9 (fixed 0 minRtt))

private theorem feedbackLine_eq (time bw minRtt : ℚ) :
    feedbackLine time bw minRtt = lineBody time bw minRtt ++ [10] := by
  simp [feedbackLine, lineBody]

private theorem eq_or_lt_of_mem_lineBody {time bw minRtt : ℚ} {c : UInt8}
    (h : c ∈ lineBody time bw minRtt) : c = 32 ∨ 32 < c := by
  have hfixed (p : ℕ) (q : ℚ) (hc : c ∈ fixed p q) : c = 32 ∨ 32 < c :=
    Or.inr (graphic_fixed p q c hc)
  simp only [lineBody, leftPad, List.mem_append, List.mem_cons, List.mem_replicate] at h
  rcases h with h | h | h | h | ⟨-, h⟩ | h
  · exact hfixed _ _ h
  · exact Or.inl h
  · exact hfixed _ _ h
  · exact Or.inl h
  · exact Or.inl h
  · exact hfixed _ _ h

-- Numbers of at most 309 digits make a line that fits the buffer.
private theorem length_lineBody_le {time bw minRtt : ℚ} (ht : |time| ≤ 10 ^ 309)
    (hb : |bw| ≤ 10 ^ 309) (hm : |minRtt| ≤ 10 ^ 309) :
    (lineBody time bw minRtt).length + 2 ≤ lineBuffer := by
  have h1 := length_fixed_le (p := 6) ht
  have h2 := length_fixed_le (p := 6) hb
  have h3 := length_fixed_le (p := 0) hm
  simp only [lineBody, leftPad, lineBuffer, List.length_append, List.length_cons,
    List.length_replicate]
  omega

/-- A line of the trace is scanned to the doubles of what its numbers are rounded to. -/
theorem scans_feedbackLine (c : Arith) (time bw minRtt : ℚ) :
    Scans c (feedbackLine time bw minRtt) ⟨.ofNumeral c (rounded 6 time),
      .ofNumeral c (rounded 6 bw), .ofNumeral c (rounded 0 minRtt)⟩ := by
  intro tr
  have hstr : cString (feedbackLine time bw minRtt) = feedbackLine time bw minRtt := by
    apply List.takeWhile_eq_self_iff.mpr
    intro c hc
    rw [feedbackLine_eq, List.mem_append, List.mem_singleton] at hc
    rw [bne_iff_ne]
    rintro rfl
    rcases hc with hc | hc
    · exact absurd (eq_or_lt_of_mem_lineBody hc) (by decide)
    · exact absurd hc (by decide)
  have hblank : isSpace 32 = true := rfl
  rw [hstr, scanFile, feedbackLine, scanFloat_fixed _ _ (stops_cons.mpr hblank)]
  dsimp only
  rw [scanFloat_congr (signAndRest_cons hblank), scanFloat_fixed _ _ (stops_cons.mpr hblank)]
  dsimp only
  rw [scanFloat_congr ((signAndRest_cons hblank).trans (signAndRest_leftPad _ _ _)),
    scanFloat_fixed _ _ (stops_cons.mpr rfl)]

/-! ### Ranges -/

private theorem doubleRange_div_le : (doubleRange : ℚ) / 20 ≤ 10 ^ 309 := by
  decide +kernel

private theorem doubleRange_lt_overflow : (doubleRange : ℚ) / 20 < Number.overflow := by
  decide +kernel

private theorem packetTime_le : (6 * 10 ^ 8 : ℚ) ≤ doubleRange / 20 := by
  decide +kernel

/-- The carried packet time is not negative and at most that of one bit. -/
theorem carried_bounds (b : BinTotals) (i : ℕ) : 0 ≤ b.carried i ∧ b.carried i ≤ 6 * 10 ^ 8 := by
  induction i with
  | zero => simp [BinTotals.carried]
  | succ i ih =>
    unfold BinTotals.carried
    split
    · exact ih
    · next h =>
      have hc : (1 : ℚ) ≤ b.capacity (b.earliest + i) := by
        exact_mod_cast Nat.one_le_iff_ne_zero.mpr h
      refine ⟨by positivity, ?_⟩
      rw [div_div_eq_mul_div, div_le_iff₀ (by linarith)]
      linarith

private theorem row_bounds {i : ℕ} (hi : i < b.count) :
    |((b.earliest : ℚ) + i) / 20| ≤ doubleRange / 20 ∧
      |(b.capacity (b.earliest + i) : ℚ) / 50000| ≤ doubleRange / 20 := by
  have hlast : b.earliest + i < doubleRange := by
    have := b.latest_lt
    unfold BinTotals.count at hi
    omega
  constructor
  · have h1 : (-doubleRange : ℚ) < b.earliest := by exact_mod_cast b.earliest_gt
    have h2 : (b.earliest : ℚ) + i < doubleRange := by exact_mod_cast hlast
    have h3 : (0 : ℚ) ≤ i := Nat.cast_nonneg i
    rw [abs_le]
    constructor <;> linarith
  · have h1 : (b.capacity (b.earliest + i) : ℚ) < doubleRange := by
      exact_mod_cast b.capacity_lt (b.earliest + i)
    have h2 : (0 : ℚ) ≤ b.capacity (b.earliest + i) := Nat.cast_nonneg _
    rw [abs_le]
    constructor <;> linarith

/-- Every line of the trace fits the buffer. -/
theorem length_line_le {i : ℕ} (hi : i < b.count) : (b.line i).length + 1 ≤ lineBuffer := by
  obtain ⟨htime, hbw⟩ := row_bounds hi
  have hminRtt : |b.carried (i + 1)| ≤ doubleRange / 20 := by
    have h := carried_bounds b (i + 1)
    rw [abs_of_nonneg h.1]
    exact h.2.trans packetTime_le
  have hbody := length_lineBody_le (htime.trans doubleRange_div_le) (hbw.trans doubleRange_div_le)
    (hminRtt.trans doubleRange_div_le)
  rw [BinTotals.line, feedbackLine_eq, List.length_append, List.length_singleton]
  omega

/-! ### The loaded trace -/

/-- The entry of row `i`. -/
def BinTotals.entry (b : BinTotals) (i : ℕ) : STrace where
  time := (b.earliest + i) / 20
  bw := b.capacity (b.earliest + i) / 50000
  minRtt := roundEven (b.carried (i + 1))

/-- Six decimals lose nothing of a time or a capacity. -/
theorem scans_line {i : ℕ} (hi : i < b.count) : Scans .exact (b.line i) (b.entry i).entry := by
  have htime : rounded 6 (((b.earliest : ℚ) + i) / 20) = (b.earliest + i) / 20 := by
    apply rounded_of_int (n := (b.earliest + i) * 50000)
    push_cast
    ring
  have hbw : rounded 6 ((b.capacity (b.earliest + i) : ℚ) / 50000) =
      b.capacity (b.earliest + i) / 50000 := by
    apply rounded_of_int (n := b.capacity (b.earliest + i) * 20)
    push_cast
    ring
  have hcarried := carried_bounds b (i + 1)
  have hminRtt : |(roundEven (b.carried (i + 1)) : ℚ)| ≤ 6 * 10 ^ 8 := by
    have hle : roundEven (b.carried (i + 1)) ≤ 6 * 10 ^ 8 := by
      apply roundEven_le
      exact_mod_cast hcarried.2
    rw [abs_of_nonneg (by exact_mod_cast roundEven_nonneg hcarried.1)]
    exact_mod_cast hle
  have hfinite : ∀ {q : ℚ}, |q| ≤ doubleRange / 20 → Number.ofNumeral .exact q = .finite q :=
    fun h ↦ Number.ofNumeral_of_lt .exact (h.trans_lt doubleRange_lt_overflow)
  have hscan := scans_feedbackLine .exact ((b.earliest + i) / 20)
    (b.capacity (b.earliest + i) / 50000) (b.carried (i + 1))
  rwa [htime, hbw, rounded_zero hcarried.1, hfinite (row_bounds hi).1, hfinite (row_bounds hi).2,
    hfinite (hminRtt.trans packetTime_le)] at hscan

/-- The file is read line by line. -/
theorem fgetsLines_lines (n i : ℕ) (h : i + n ≤ b.count) :
    fgetsLines lineBuffer 0 ((List.range' i n).flatMap b.line) = (List.range' i n).map b.line := by
  induction n generalizing i with
  | zero => rfl
  | succ n ih =>
    have hlen := length_line_le (b := b) (i := i) (by omega)
    rw [List.range'_succ, List.flatMap_cons, List.map_cons, ← ih (i + 1) (by omega)]
    rw [BinTotals.line, feedbackLine_eq, List.length_append, List.length_singleton] at hlen
    rw [BinTotals.line, feedbackLine_eq, List.append_assoc, List.singleton_append]
    apply fgetsLines_append_cons
    · intro h10
      exact absurd (eq_or_lt_of_mem_lineBody h10) (by decide)
    · omega

/-- The loader ends with the entries of the rows. -/
theorem load_traceFile (hexact : ∀ i < b.count, b.PrintsExactly (b.earliest + i))
    (hmax : b.count < maxLines) (mem : ℕ → Entry) :
    (load .exact (traceFile b) mem).numLines = b.count ∧
    (load .exact (traceFile b) mem).overrun = false ∧
    ∀ i < b.count, (load .exact (traceFile b) mem).trace i = (b.entry i).entry := by
  have hfile : traceFile b = (List.range' 0 b.count).flatMap b.line := by
    have h := awk_rowLoop (b := b) b.count 0 0 (fun j _ hj ↦ hexact j (by omega))
    rwa [Nat.cast_zero, add_zero] at h
  have hscans : List.Forall₂ (Scans .exact) ((List.range' 0 b.count).map b.line)
      ((List.range' 0 b.count).map (fun i ↦ (b.entry i).entry)) := by
    rw [List.forall₂_map_left_iff, List.forall₂_map_right_iff, List.forall₂_same]
    intro i hi
    exact scans_line (by simpa using hi)
  have hload := foldl_loadLine hscans ⟨mem, 0, false⟩ (by simp; omega)
  rw [load, hfile, fgetsLines_lines _ _ (by omega)]
  rcases hload with ⟨hnum, hover, -, hentry⟩
  refine ⟨by simpa using hnum, hover, ?_⟩
  intro i hi
  have := hentry i (b.entry i).entry (by simp [hi])
  simpa using this

/-! ### Agreement -/

/-- Idle rows carry the packet time unchanged. -/
theorem carried_of_idle {i k : ℕ} (hik : i ≤ k)
    (h : ∀ m, i ≤ m → m < k → b.capacity (b.earliest + m) = 0) : b.carried k = b.carried i := by
  induction k, hik using Nat.le_induction with
  | base => rfl
  | succ k hik ih =>
    rw [BinTotals.carried, if_pos (h k hik (Nat.lt_succ_self k))]
    exact ih (fun m hm hmk ↦ h m hm (Nat.lt_succ_of_lt hmk))

/-- The loaded trace says what the rows say: one entry per row and in order, with the start
of the bin, its capacity in Mbit/s and the packet time at the last rate that was not zero. -/
structure Agrees (b : BinTotals) (l : Loader) (trace : ℕ → STrace) : Prop where
  numLines : l.numLines = b.count
  inBounds : l.overrun = false
  finite : ∀ i < b.count, l.trace i = (trace i).entry
  time : ∀ i < b.count, (trace i).time = (b.earliest + i) * (5 / 100)
  time_lt : ∀ i j, i < j → j < b.count → (trace i).time < (trace j).time
  bw : ∀ i < b.count, (trace i).bw * 50000 = b.capacity (b.earliest + i)
  minRtt_busy : ∀ i < b.count, 0 < b.capacity (b.earliest + i) →
    (trace i).minRtt = roundEven (12000 / (trace i).bw)
  minRtt_idle : ∀ i < b.count, ∀ j < i, 0 < b.capacity (b.earliest + j) →
    (∀ m, j < m → m ≤ i → b.capacity (b.earliest + m) = 0) →
    (trace i).minRtt = (trace j).minRtt
  minRtt_none : ∀ i < b.count, (∀ m ≤ i, b.capacity (b.earliest + m) = 0) →
    (trace i).minRtt = 0

/-- The trace file that the generator writes for fewer than `MAXLINES` bins, with capacities
printed exactly, is loaded without loss. -/
theorem load_agrees (b : BinTotals) (hmax : b.count < maxLines)
    (hexact : ∀ i < b.count, b.PrintsExactly (b.earliest + i)) (mem : ℕ → Entry) :
    ∃ trace, Agrees b (load .exact (traceFile b) mem) trace := by
  rcases load_traceFile hexact hmax mem with ⟨hnum, hover, hentry⟩
  refine ⟨b.entry, hnum, hover, hentry, ?_, ?_, ?_, ?_, ?_, ?_⟩
  · intro i _
    rw [BinTotals.entry]
    ring
  · intro i j hij _
    rw [BinTotals.entry, BinTotals.entry]
    have : (i : ℚ) < j := by exact_mod_cast hij
    dsimp only
    linarith
  · intro i _
    rw [BinTotals.entry]
    ring
  · intro i _ hbusy
    rw [BinTotals.entry, BinTotals.carried, if_neg hbusy.ne']
  · intro i _ j hj _ hidle
    rw [BinTotals.entry, BinTotals.entry,
      carried_of_idle (Nat.succ_le_succ hj.le) (fun m hm hmi ↦ hidle m hm (Nat.le_of_lt_succ hmi))]
  · intro i _ hidle
    rw [BinTotals.entry,
      carried_of_idle (Nat.zero_le _) (fun m _ hmi ↦ hidle m (Nat.le_of_lt_succ hmi)),
      BinTotals.carried, roundEven_zero, Int.cast_zero]

/-- Three rows: idle, 4.8128 Mbit/s, idle. -/
theorem load_agrees_three_rows :
    ∃ b : BinTotals, b.count = 3 ∧ b.capacity 1 = 240640 ∧
      ∃ trace, Agrees b (load .exact (traceFile b) (fun _ ↦ STrace.entry ⟨0, 0, 0⟩)) trace := by
  have hcap : ∀ bin : ℤ, (if Kind.capacity = .capacity ∧ bin = 1 then 240640 else 0) <
      5 * 10 ^ 14 := by
    intro bin
    split <;> norm_num
  have hdouble : 5 * 10 ^ 14 ≤ doubleRange := by decide +kernel
  let b : BinTotals :=
    ⟨0, 2, fun kind bin ↦ if kind = .capacity ∧ bin = 1 then 240640 else 0, by decide +kernel,
      by decide +kernel, fun bin ↦ (hcap bin).trans_le hdouble⟩
  have hcount : b.count = 3 := rfl
  have hmax : b.count < maxLines := by
    rw [hcount]
    decide
  exact ⟨b, hcount, rfl, load_agrees b hmax (fun i _ ↦ printsExactly_of_lt (hcap _)) _⟩

end NatcpSpec.Trace
