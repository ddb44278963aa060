import NatcpSpec.Base.Arith
import NatcpSpec.Base.Scanf
import NatcpSpec.Base.Tokens

/-!
# Feedback generator

The row output of `feedback/mm-throughput-minrtt:180–205`, which `mm-thr:229–237` has as well, and
the awk step of `feedback/trace.to.minrtt.sh:8–10`. Perl prints the start of each bin with three
decimals and its rates with fifteen significant digits; awk turns the first two fields of a row
into a line of the feedback trace and carries the last packet time over idle bins. The awk step
is in exact arithmetic, on numbers in the range of a double.
-/

namespace NatcpSpec.Trace

open NatcpSpec.Base

/-- A bound of the finite doubles. -/
def doubleRange : ℕ := 2 ^ 1024

/-- What an event is about: `#`, `+` or `-`. -/
inductive Kind where
  | capacity
  | arrival
  | departure
deriving DecidableEq

/-- `feedback_period`, the bin size in milliseconds; `trace.to.minrtt.sh:8`. -/
def feedbackPeriod : ℕ := 50

/-! ### Rows -/

section Rows

variable (c : Arith) (msPerBin : ℕ)

/-- `bin_to_seconds`; `mm-throughput-minrtt:26–28`. -/
def binToSeconds (bin : ℤ) : Text := fixed 3 (c.round (bin * msPerBin / 1000))

/-- A rate in Mbit/s; `mm-throughput-minrtt:197`. -/
def toRate (bits : ℕ) : ℚ := c.round (c.round (bits / c.round (msPerBin / 1000)) / 1000000)

/-- A number in a string, fifteen significant digits. -/
def perlNumber (q : ℚ) : Text := general 15 q

/-- The numbers of a row: its bin, the rates in Mbit/s and the bits in the buffer. -/
structure Row where
  bin : ℤ
  rate : Kind → ℚ
  occupancy : ℤ

/-- The output loop for `n` bins from `bin` on, with the bits of each kind in a bin;
`mm-throughput-minrtt:195–203`. -/
def rowLoop (bits : Kind → ℤ → ℕ) : ℕ → ℤ → ℤ → List Row
  | 0, _, _ => []
  | n + 1, bin, occupancy =>
    let occupancy := occupancy + bits .arrival bin - bits .departure bin
    ⟨bin, fun kind ↦ toRate c msPerBin (bits kind bin), occupancy⟩ ::
      rowLoop bits n (bin + 1) occupancy

/-- The fields of a row; `mm-throughput-minrtt:196–202`. -/
def Row.fields (r : Row) : List Text :=
  [binToSeconds c msPerBin r.bin, perlNumber (r.rate .capacity), perlNumber (r.rate .arrival),
    perlNumber (r.rate .departure), signedDecimal r.occupancy]

/-- A row as it is printed; `mm-throughput-minrtt:202`. -/
def Row.text (r : Row) : Text := [32].intercalate (r.fields c msPerBin) ++ [10]

/-- Bits counted per bin and the bins that rows are printed for. -/
structure BinTotals where
  earliest : ℤ
  latest : ℤ
  bits : Kind → ℤ → ℕ
  earliest_gt : -doubleRange < earliest
  latest_lt : latest < doubleRange
  capacity_lt : ∀ bin, bits .capacity bin < doubleRange

/-- Number of rows. -/
def BinTotals.count (b : BinTotals) : ℕ := (b.latest + 1 - b.earliest).toNat

/-- Capacity of a bin. -/
abbrev BinTotals.capacity (b : BinTotals) (bin : ℤ) : ℕ := b.bits .capacity bin

/-- The rows of a log; `mm-throughput-minrtt:187–205`. -/
def printRows (b : BinTotals) : Text :=
  (rowLoop c msPerBin b.bits b.count b.earliest 0).flatMap (Row.text c msPerBin)

end Rows

/-! ### The awk step -/

/-- Field separators inside a record. -/
def isFieldBlank (b : UInt8) : Bool := b == 32 || b == 9

/-- Numeric value of a field, zero where it does not start with a number. -/
def awkNumber (f : Text) : ℚ := (scanNumber f).elim 0 Prod.fst

/-- A field that is compared as a number. -/
def looksNumeric (f : Text) : Bool := (scanNumber f).elim false (fun m ↦ m.2.isEmpty)

/-- `printf("%f %f %9.0f\n", ...)`; `trace.to.minrtt.sh:10`. -/
def feedbackLine (time bw minRtt : ℚ) : Text :=
  fixed 6 time ++ 32 :: (fixed 6 bw ++ 32 :: (leftPad 9 (fixed 0 minRtt) ++ [10]))

/-- One record with the carried variable `a`: the line printed and the new `a`, or none when
awk stops on a division by zero. A field that is missing is zero, and one that is no number
differs from zero as a string; `trace.to.minrtt.sh:10`. -/
def awkRecord (a : ℚ) (record : Text) : Option (Text × ℚ) :=
  let fields := tokens isFieldBlank record
  let time := awkNumber (fields[0]?.getD [])
  let cap := fields[1]?.getD []
  if cap = [] ∨ (looksNumeric cap = true ∧ awkNumber cap = 0) then some (feedbackLine time 0 a, a)
  else if awkNumber cap = 0 then none
  else some (feedbackLine time (awkNumber cap) (12000 / awkNumber cap), 12000 / awkNumber cap)

/-- The output of the awk program on records, with the carried variable. -/
def awk : ℚ → List Text → Text
  | _, [] => []
  | a, record :: rest =>
    match awkRecord a record with
    | none => []
    | some (line, a') => line ++ awk a' rest

/-- The feedback trace of a log; `trace.to.minrtt.sh:8–10`. -/
def traceFile (b : BinTotals) : Text := awk 0 (records (printRows .exact feedbackPeriod b))

/-! ### Exact rows -/

/-- The capacity of a bin is printed with all its digits. -/
def BinTotals.PrintsExactly (b : BinTotals) (bin : ℤ) : Prop :=
  scanNumber (perlNumber (toRate .exact feedbackPeriod (b.capacity bin))) =
    some (toRate .exact feedbackPeriod (b.capacity bin), [])

/-- A rate per bin of 50 ms. -/
theorem toRate_feedbackPeriod (bits : ℕ) : toRate .exact feedbackPeriod bits = bits / 50000 := by
  simp only [toRate, feedbackPeriod, Arith.exact_round]
  push_cast
  ring

private theorem printsExactly_of_five_le {b : BinTotals} {bin : ℤ} (h5 : 5 ≤ b.capacity bin)
    (hlt : b.capacity bin < 5 * 10 ^ 14) : b.PrintsExactly bin := by
  have hc : (5 : ℚ) ≤ b.capacity bin := by exact_mod_cast h5
  have hc' : (b.capacity bin : ℚ) < 5 * 10 ^ 14 := by exact_mod_cast hlt
  rw [BinTotals.PrintsExactly, toRate_feedbackPeriod]
  have hpos : (0 : ℚ) < b.capacity bin / 50000 := by positivity
  have hlow : -4 ≤ Int.log 10 ((b.capacity bin : ℚ) / 50000) := by
    rw [← Int.zpow_le_iff_le_log (by norm_num) hpos]
    norm_num
    linarith
  have hhigh : Int.log 10 ((b.capacity bin : ℚ) / 50000) < 10 := by
    rw [← Int.lt_zpow_iff_log_lt (by norm_num) hpos]
    norm_num
    linarith
  rw [← List.append_nil (perlNumber _)]
  apply scanNumber_general hpos hlow (by push_cast; omega) _ stops_nil
  · exact 2 * b.capacity bin * 10 ^ (9 - Int.log 10 ((b.capacity bin : ℚ) / 50000)).toNat
  · push_cast
    rw [← zpow_natCast, Int.toNat_of_nonneg (by omega),
      show (14 : ℤ) - Int.log 10 ((b.capacity bin : ℚ) / 50000) =
        5 + (9 - Int.log 10 ((b.capacity bin : ℚ) / 50000)) by ring,
      zpow_add₀ (by norm_num)]
    ring

/-- Capacities below 10 Pbit/s are printed with all their digits. -/
theorem printsExactly_of_lt {b : BinTotals} {bin : ℤ} (h : b.capacity bin < 5 * 10 ^ 14) :
    b.PrintsExactly bin := by
  by_cases h5 : 5 ≤ b.capacity bin
  · exact printsExactly_of_five_le h5 h
  · unfold BinTotals.PrintsExactly
    -- Zero and the four rates that are printed in scientific notation.
    have hall : ∀ c < 5, scanNumber (perlNumber (toRate .exact feedbackPeriod c)) =
        some (toRate .exact feedbackPeriod c, []) := by decide +kernel
    exact hall _ (by omega)

/-! ### The run of the awk step -/

private theorem perlNumber_ne_nil (q : ℚ) : perlNumber q ≠ [] := general_ne_nil 15 q

section Fields

variable {c : Arith} {msPerBin : ℕ} {r : Row}

/-- Every field of a row is a graphic text. -/
theorem graphic_of_mem_fields {w : Text} (h : w ∈ r.fields c msPerBin) : w ≠ [] ∧ Graphic w := by
  have hnumber (q : ℚ) : perlNumber q ≠ [] ∧ Graphic (perlNumber q) :=
    ⟨perlNumber_ne_nil q, graphic_general 15 q⟩
  simp only [Row.fields, List.mem_cons, List.not_mem_nil, or_false] at h
  rcases h with rfl | rfl | rfl | rfl | rfl
  · exact ⟨fixed_ne_nil _ _, graphic_fixed _ _⟩
  · exact hnumber _
  · exact hnumber _
  · exact hnumber _
  · constructor
    · simp [signedDecimal, decimal_ne_nil]
    · unfold signedDecimal
      split <;> simp

/-- The fields of a row are read back as fields. -/
theorem tokens_fields : tokens isFieldBlank ([32].intercalate (r.fields c msPerBin)) =
    r.fields c msPerBin := by
  apply tokens_intercalate (by rfl)
  intro w hw
  rcases graphic_of_mem_fields hw with ⟨hne, hg⟩
  refine ⟨hne, ?_⟩
  intro c hc
  have hgt := hg c hc
  unfold isFieldBlank
  grind

/-- A row is one record. -/
theorem not_mem_fields : 10 ∉ [32].intercalate (r.fields c msPerBin) := by
  intro h
  rcases eq_or_mem_of_mem_intercalate h with h | ⟨w, hw, h⟩
  · exact absurd h (by decide)
  · exact absurd ((graphic_of_mem_fields hw).2 10 h) (by decide)

end Fields

/-- The variable `a` after `i` rows: the packet time at the last rate that was not zero. -/
def BinTotals.carried (b : BinTotals) : ℕ → ℚ
  | 0 => 0
  | i + 1 =>
    if b.capacity (b.earliest + i) = 0 then b.carried i
    else 12000 / (b.capacity (b.earliest + i) / 50000)

/-- The line printed for row `i`. -/
def BinTotals.line (b : BinTotals) (i : ℕ) : Text :=
  feedbackLine ((b.earliest + i) / 20) (b.capacity (b.earliest + i) / 50000) (b.carried (i + 1))

/-- The start of a bin of 50 ms is read back exactly. -/
theorem awkNumber_binToSeconds (bin : ℤ) :
    awkNumber (binToSeconds .exact feedbackPeriod bin) = bin / 20 := by
  have hexact : ((bin : ℚ) * feedbackPeriod / 1000) * 10 ^ 3 = ((bin * 50 : ℤ) : ℚ) := by
    simp only [feedbackPeriod]
    push_cast
    ring
  rw [awkNumber, binToSeconds, Arith.exact_round, ← List.append_nil (fixed _ _),
    scanNumber_fixed _ _ stops_nil, rounded_of_int hexact]
  simp only [Option.elim_some, feedbackPeriod]
  push_cast
  ring

/-- What awk does with a row that is printed exactly. -/
theorem awkRecord_row {b : BinTotals} {i : ℕ} (h : b.PrintsExactly (b.earliest + i)) {r : Row}
    (hbin : r.bin = b.earliest + i)
    (hrate : r.rate .capacity = toRate .exact feedbackPeriod (b.capacity (b.earliest + i))) :
    awkRecord (b.carried i) ([32].intercalate (r.fields .exact feedbackPeriod)) =
      some (b.line i, b.carried (i + 1)) := by
  unfold BinTotals.PrintsExactly at h
  have hcap : awkNumber (perlNumber (r.rate .capacity)) =
      b.capacity (b.earliest + i) / 50000 := by
    rw [awkNumber, hrate, h, toRate_feedbackPeriod]
    rfl
  have hnum : looksNumeric (perlNumber (r.rate .capacity)) = true := by
    rw [looksNumeric, hrate, h]
    rfl
  have htime := awkNumber_binToSeconds (b.earliest + i)
  push_cast at htime
  unfold awkRecord
  rw [tokens_fields]
  simp only [Row.fields, hbin, List.getElem?_cons_zero, List.getElem?_cons_succ, Option.getD_some,
    hcap, hnum, htime, perlNumber_ne_nil, false_or, true_and]
  by_cases hzero : b.capacity (b.earliest + i) = 0
  · simp [hzero, BinTotals.line, BinTotals.carried]
  · simp [hzero, BinTotals.line, BinTotals.carried]

/-- The rows from row `i` on become their lines. -/
theorem awk_rowLoop {b : BinTotals} (n i : ℕ) (occupancy : ℤ)
    (h : ∀ j, i ≤ j → j < i + n → b.PrintsExactly (b.earliest + j)) :
    awk (b.carried i) (records ((rowLoop .exact feedbackPeriod b.bits n (b.earliest + i)
      occupancy).flatMap (Row.text .exact feedbackPeriod))) = (List.range' i n).flatMap b.line := by
  induction n generalizing i occupancy with
  | zero => rfl
  | succ n ih =>
    have hrest := ih (i + 1) (occupancy + b.bits .arrival (b.earliest + i) -
      b.bits .departure (b.earliest + i)) (fun j hj hj' ↦ h j (by omega) (by omega))
    rw [rowLoop, List.flatMap_cons, Row.text, List.append_assoc, List.singleton_append,
      records_append_cons not_mem_fields, awk, awkRecord_row (h i le_rfl (by omega)) rfl rfl,
      List.range'_succ, List.flatMap_cons, ← hrest]
    push_cast
    rw [add_assoc]

end NatcpSpec.Trace
