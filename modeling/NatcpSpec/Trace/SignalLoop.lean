import NatcpSpec.Base.Number
import NatcpSpec.Base.Scanf
import NatcpSpec.Base.Series

/-!
# The table of signal delays

`mm-thr:112–115,165–173`, and the same lines in `feedback/mm-throughput-minrtt` and `mm-del`. A
hash takes the least delay of the packets created at a time. A loop then goes from the last of
these times down to the first, a millisecond at a time, and fills what is missing.

The times are what is left of a text when a text is subtracted from it, so that they need not be
whole numbers, nor numbers at all. Where one subtracted makes no difference, the loop goes on for
ever. It therefore has a number of tests of its condition that it may make.
-/

namespace NatcpSpec.Trace

open NatcpSpec.Base

/-! ### The program -/

/-- What is left open of a run of Perl: where the two sorts leave a NaN, and how often the loop
over the signal delays may test its condition. -/
structure Perl where
  delaySort : NumberSort
  keySort : NumberSort
  fuel : ℕ

/-- A run whose sorts put every NaN last. -/
def Perl.sorted (fuel : ℕ) : Perl := ⟨.insertion, .insertion, fuel⟩

/-- The number that the text of a hash key stands for. Integers are written with all their digits
and other numbers with fifteen. -/
def hashKey (c : Arith) : Number → Number
  | .finite q => .finite (if q.den = 1 then q else c.round (roundedTo 15 q))
  | a => a

/-- The largest double, from which `min` starts. -/
def dblMax : ℚ := 2 ^ 1024 - 2 ^ 971

/-- `min` of a delay alone; what is not less than the largest double leaves it. -/
def leastDelay : Number → Number
  | .finite q => .finite q
  | .inf true => .inf true
  | _ => .finite dblMax

/-- Enter the delay of a packet at the time it was created; `mm-thr:112–115`. -/
def noteDelay (c : Arith) (s : Series Number Number) (time : ℤ) (delay : Number) :
    Series Number Number :=
  s.lower (hashKey c (.sub c (.finite time) delay)) (leastDelay delay)

/-- One more than the entry above, which counts as zero if it is absent; `mm-thr:171`. -/
def signalAbove (c : Arith) (above : Option Number) : Number :=
  (above.getD (.finite 0)).add c (.finite 1)

/-- The loop down to `first`, with the number of tests that are left; `mm-thr:169–173`. -/
def signalLoop (c : Arith) (first : Number) :
    ℕ → Number → Series Number Number → Option (Series Number Number)
  | 0, _, _ => none
  | fuel + 1, ts, s =>
    if ts.atLeast first then
      signalLoop c first fuel (ts.sub c (.finite 1))
        (s.fillStep (signalAbove c) (hashKey c ts) (hashKey c (ts.add c (.finite 1))))
    else some s

/-- The keys in order; `mm-thr:167`. -/
def signalDelaySamples (p : Perl) (s : Series Number Number) : List Number := p.keySort.sort s.keys

/-- The table after the loop, if the loop ends; `mm-thr:165–173`. -/
def measureSignalDelay (c : Arith) (p : Perl) (s : Series Number Number) :
    Option (Series Number Number) :=
  match (signalDelaySamples p s).head?, (signalDelaySamples p s).getLast? with
  | some first, some last => signalLoop c first p.fuel last s
  | _, _ => some s

/-- A time is only a NaN if the delay is. -/
theorem eq_nan_of_hashKey {c : Arith} {time : ℤ} {delay : Number}
    (h : hashKey c (.sub c (.finite time) delay) = .nan) : delay = .nan := by
  apply Number.eq_nan_of_sub c (a := time)
  cases hsub : Number.sub c (.finite (time : ℚ)) delay with
  | finite q =>
    rw [hsub] at h
    cases h
  | inf s =>
    rw [hsub] at h
    cases h
  | nan => rfl

/-! ### The end of the loop -/

section Ends

variable {c : Arith}

/-- Whether the loop ends does not depend on what is in the table. -/
theorem signalLoop_isSome_congr (first ts : Number) (fuel : ℕ) (s s' : Series Number Number) :
    (signalLoop c first fuel ts s).isSome = (signalLoop c first fuel ts s').isSome := by
  induction fuel generalizing ts s s' with
  | zero => rfl
  | succ fuel ih =>
    unfold signalLoop
    split
    · exact ih _ _ _
    · rfl

/-- Nor does it depend on the order that the keys were entered in. -/
theorem measureSignalDelay_isSome_congr (p : Perl) {s s' : Series Number Number}
    (h : s.keys.Perm s'.keys) (hnan : .nan ∉ s.keys) :
    (measureSignalDelay c p s).isSome = (measureSignalDelay c p s').isSome := by
  unfold measureSignalDelay signalDelaySamples
  rw [p.keySort.sort_perm h hnan]
  split
  · exact signalLoop_isSome_congr _ _ _ _ _
  · rfl

/-- The loop ends if every step takes half a millisecond at least. -/
theorem signalLoop_isSome {first bound : ℚ}
    (hstep : ∀ q, first ≤ q → q ≤ bound → c.round (q - 1) ≤ q - 1 / 2) {n fuel : ℕ} (hn : n < fuel)
    {q : ℚ} (hbound : q ≤ bound) (hq : q < first + n / 2) (s : Series Number Number) :
    (signalLoop c (.finite first) fuel (.finite q) s).isSome = true := by
  induction n generalizing fuel q s with
  | zero =>
    obtain ⟨fuel, rfl⟩ := Nat.exists_eq_succ_of_ne_zero hn.ne'
    have hlt : ¬first ≤ q := by
      push_cast at hq
      linarith
    simp [signalLoop, hlt]
  | succ n ih =>
    obtain ⟨fuel, rfl⟩ := Nat.exists_eq_succ_of_ne_zero (Nat.zero_lt_of_lt hn).ne'
    by_cases hle : first ≤ q
    · have hnext := hstep q hle hbound
      push_cast at hq
      simp only [signalLoop, Number.atLeast_finite, hle, decide_true, if_true, Number.sub_finite]
      exact ih (Nat.lt_of_succ_lt_succ hn) (by linarith) (by linarith) _
    · simp [signalLoop, hle]

-- One can be subtracted from a double up to `2 ^ 52`.
private theorem roundDouble_sub_one_le {q : ℚ} (h0 : 0 ≤ q) (hq : q ≤ 2 ^ 52) :
    roundDouble (q - 1) ≤ q - 1 / 2 := by
  have herr := (abs_le.mp (abs_roundDouble_sub_le (q - 1))).2
  have habs : |q - 1| ≤ 2 ^ 52 := by
    rw [abs_le]
    constructor <;> linarith
  linarith

/-- On amd64 the loop ends for times that are less than `2 ^ 52` or no numbers, in whatever order
the latter are left. -/
theorem measureSignalDelay_isSome {p : Perl} (hfuel : 2 ^ 54 ≤ p.fuel) {s : Series Number Number}
    (hkeys : ∀ k ∈ s.keys, k = .nan ∨ ∃ q : ℚ, k = .finite q ∧ 0 ≤ q ∧ q ≤ 2 ^ 52) :
    (measureSignalDelay .amd64 p s).isSome = true := by
  have hsamples : ∀ k ∈ signalDelaySamples p s, k = .nan ∨ ∃ q : ℚ, k = .finite q ∧ 0 ≤ q ∧
      q ≤ 2 ^ 52 := fun k hk ↦ hkeys k ((p.keySort.perm _).mem_iff.mp hk)
  have hpos : 0 < p.fuel := lt_of_lt_of_le (by positivity) hfuel
  have hnan : ∀ first ts : Number, ts.atLeast first = false →
      (signalLoop .amd64 first p.fuel ts s).isSome = true := by
    intro first ts h
    obtain ⟨fuel, hf⟩ := Nat.exists_eq_succ_of_ne_zero hpos.ne'
    simp [hf, signalLoop, h]
  unfold measureSignalDelay
  cases hhead : (signalDelaySamples p s).head? with
  | none => rfl
  | some first =>
    cases hlast : (signalDelaySamples p s).getLast? with
    | none => rfl
    | some last =>
      dsimp only
      rcases hsamples last (List.mem_of_getLast? hlast) with rfl | ⟨l, rfl, -, hl⟩
      · exact hnan _ _ (Number.nan_atLeast first)
      rcases hsamples first (List.mem_of_head? hhead) with rfl | ⟨f, rfl, hf, -⟩
      · exact hnan _ _ (Number.atLeast_nan _)
      have hstep : ∀ q, f ≤ q → q ≤ 2 ^ 52 → Arith.amd64.round (q - 1) ≤ q - 1 / 2 :=
        fun q hq hle ↦ roundDouble_sub_one_le (hf.trans hq) hle
      refine signalLoop_isSome hstep (n := 2 ^ 54 - 1) (by omega) hl ?_ s
      push_cast
      linarith

end Ends

/-! ### Whole milliseconds -/

/-- Integers are keys. -/
@[simp]
theorem hashKey_intCast (c : Arith) (n : ℤ) : hashKey c (.finite n) = .finite n := by
  simp [hashKey]

/-- In exact arithmetic the loop over whole milliseconds fills `n` keys, from the last one down. -/
theorem signalLoop_exact (first : ℤ) {n fuel : ℕ} (hn : n < fuel) (s : Series Number Number) :
    signalLoop .exact (.finite first) fuel (.finite ((first + n - 1 : ℤ) : ℚ)) s =
      some (s.fill (signalAbove .exact) ((List.range n).map (fun i : ℕ ↦
        (.finite ((first + n - 1 - i : ℤ) : ℚ), .finite ((first + n - i : ℤ) : ℚ))))) := by
  induction n generalizing fuel s with
  | zero =>
    obtain ⟨fuel, rfl⟩ := Nat.exists_eq_succ_of_ne_zero hn.ne'
    simp [signalLoop, Series.fill]
  | succ n ih =>
    obtain ⟨fuel, rfl⟩ := Nat.exists_eq_succ_of_ne_zero (Nat.zero_lt_of_lt hn).ne'
    have hle : (first : ℚ) ≤ ((first + ((n + 1 : ℕ) : ℤ) - 1 : ℤ) : ℚ) := by
      exact_mod_cast (by omega : first ≤ first + ((n + 1 : ℕ) : ℤ) - 1)
    have hdown : ((first + ((n + 1 : ℕ) : ℤ) - 1 : ℤ) : ℚ) - 1 = ((first + n - 1 : ℤ) : ℚ) := by
      push_cast
      ring
    have hup : ((first + ((n + 1 : ℕ) : ℤ) - 1 : ℤ) : ℚ) + 1 =
        ((first + ((n + 1 : ℕ) : ℤ) : ℤ) : ℚ) := by
      push_cast
      ring
    rw [signalLoop, Number.atLeast_finite, if_pos (decide_eq_true hle), Number.sub_finite,
      Number.add_finite, Arith.exact_round, Arith.exact_round, hdown, hup, hashKey_intCast,
      hashKey_intCast, ih (Nat.lt_of_succ_lt_succ hn), List.range_succ_eq_map, List.map_cons,
      List.map_map, Series.fill, Series.fill, List.foldl_cons]
    congr 2
    · norm_num
    · apply List.map_congr_left
      intro i _
      simp only [Function.comp_apply]
      push_cast
      ring_nf

end NatcpSpec.Trace
