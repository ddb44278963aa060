import NatcpSpec.Base.Arith

/-!
# Feedback values and the socket options that carry them

`src/server.cc:465–491`. One trace line is turned into six integers, which are handed
to the kernel by up to six `setsockopt` calls. Bandwidth and delay are computed in doubles and
converted; products are then formed in 32-bit `int`. Signed overflow is read as two's
complement reduction, as the unoptimised build of `build.sh` computes it. The kernel keeps the
last value a successful call set.
-/

namespace NatcpSpec.Server

open NatcpSpec.Base

/-- `struct sTrace`, one line of the feedback trace; `src/server.cc:75–80`. -/
structure STrace where
  time : ℚ
  bw : ℚ
  minRtt : ℚ
  deriving DecidableEq, Repr

/-- The globals the control thread reads; `src/server.cc:49–52,87`. -/
structure Settings where
  delayMs : ℤ
  feedback : ℤ
  bwScale : ℚ
  cwndScale : ℚ
  deriving DecidableEq, Repr

/-- Options set for one trace line, the pacing rate at socket level and the others at
TCP level; `src/server.cc:65–73,472–485`. -/
inductive SockOpt
  | tcpBbrBwval
  | tcpBbrTrgtdelMs
  | tcpBbrCwndrvgain
  | tcpBbrApply
  | tcpCwndClamp
  | soMaxPacingRate
  deriving DecidableEq, Repr

/-- The six locals of `src/server.cc:414–415` after a line has been converted. -/
structure FeedbackVals where
  val1 : ℤ
  val2 : ℤ
  val3 : ℤ
  val4 : ℤ
  val5 : ℤ
  val6 : ℤ
  deriving DecidableEq, Repr

/-- Conversion of one line; `src/server.cc:414,465–470`. -/
def feedbackVals (c : Arith) (g : Settings) (e : STrace) : FeedbackVals :=
  let val1 := c.toInt (c.round (c.round (e.bw * 1000) * g.bwScale))
  let val3 := int32 (val1 * 125)
  let val2 := c.toInt (c.round (e.minRtt + int32 (2 * 1000 * g.delayMs)))
  let val6 := c.toInt g.cwndScale
  -- The product is an `int` product; only its quotient is widened to 64 bits.
  let tmp := (int32 (val2 * val1)).tdiv 8000
  let val4 := int32 (int32 tmp * val6)
  { val1, val2, val3, val4, val5 := 0, val6 }

/-- The `setsockopt` calls of one line, in order; `src/server.cc:472–486`. -/
def feedbackCalls (c : Arith) (g : Settings) (e : STrace) : List (SockOpt × ℤ) :=
  let v := feedbackVals c g e
  [(.tcpBbrBwval, v.val1), (.tcpBbrTrgtdelMs, v.val2), (.tcpBbrCwndrvgain, v.val6)] ++
    (if g.feedback = 1 then [(.tcpBbrApply, v.val5)] else []) ++
    (if g.feedback = 3 then [(.tcpCwndClamp, v.val4)] else []) ++
    [(.soMaxPacingRate, v.val3)]

/-- Result of a call: zero on success and minus one on failure. -/
def sockRet (ok : SockOpt → Bool) (o : SockOpt) : ℤ := if ok o then 0 else -1

/-- The variables `ret1` and `ret2` after the calls of one line; `src/server.cc:472–483`. -/
def feedbackRets (g : Settings) (ok : SockOpt → Bool) : ℤ × ℤ :=
  let ret1 := sockRet ok .tcpBbrBwval
  let _ret2 := sockRet ok .tcpBbrTrgtdelMs
  -- A plain assignment: the result of the call before is gone.
  let ret2 := sockRet ok .tcpBbrCwndrvgain
  let ret2 := if g.feedback = 1 then ret2 + sockRet ok .tcpBbrApply else ret2
  let ret2 := if g.feedback = 3 then ret2 + sockRet ok .tcpCwndClamp else ret2
  (ret1, ret2)

/-- The test that ends the thread; `src/server.cc:487`. -/
def feedbackFails (g : Settings) (ok : SockOpt → Bool) : Bool :=
  (feedbackRets g ok).1 < 0 || (feedbackRets g ok).2 < 0

/-- Values in force after a list of calls: a successful call replaces the value of its
option and a failed one leaves it. -/
def setOptions (ok : SockOpt → Bool) (calls : List (SockOpt × ℤ)) (inForce : SockOpt → ℤ) :
    SockOpt → ℤ :=
  calls.foldl (fun f call ↦ if ok call.1 then Function.update f call.1 call.2 else f) inForce

/-! ### Results of the calls -/

/-- The option whose call belongs to the mode, if the mode has one. -/
def modeOpt (feedback : ℤ) : Option SockOpt :=
  if feedback = 1 then some .tcpBbrApply
  else if feedback = 3 then some .tcpCwndClamp
  else none

private theorem sockRet_neg_iff (ok : SockOpt → Bool) (o : SockOpt) :
    sockRet ok o < 0 ↔ ok o = false := by
  unfold sockRet
  cases ok o <;> simp

private theorem sockRet_add_neg_iff (ok : SockOpt → Bool) (o o' : SockOpt) :
    sockRet ok o + sockRet ok o' < 0 ↔ ok o = false ∨ ok o' = false := by
  unfold sockRet
  cases ok o <;> cases ok o' <;> simp

/-- The thread stops exactly when a call other than the target delay's fails. -/
theorem feedbackFails_iff (g : Settings) (ok : SockOpt → Bool) :
    feedbackFails g ok = true ↔
      ok .tcpBbrBwval = false ∨ ok .tcpBbrCwndrvgain = false ∨
        ∃ o ∈ modeOpt g.feedback, ok o = false := by
  rw [feedbackFails, Bool.or_eq_true, decide_eq_true_eq, decide_eq_true_eq]
  apply or_congr (sockRet_neg_iff ok .tcpBbrBwval)
  by_cases h1 : g.feedback = 1
  · simpa [feedbackRets, modeOpt, h1] using sockRet_add_neg_iff ok .tcpBbrCwndrvgain .tcpBbrApply
  · by_cases h3 : g.feedback = 3
    · simpa [feedbackRets, modeOpt, h3] using
        sockRet_add_neg_iff ok .tcpBbrCwndrvgain .tcpCwndClamp
    · simpa [feedbackRets, modeOpt, h1, h3] using sockRet_neg_iff ok .tcpBbrCwndrvgain

/-- One line sets no option twice. -/
theorem feedbackCalls_nodup (c : Arith) (g : Settings) (e : STrace) :
    ((feedbackCalls c g e).map Prod.fst).Nodup := by
  unfold feedbackCalls
  by_cases h1 : g.feedback = 1
  · simp [h1]
  · by_cases h3 : g.feedback = 3
    · simp [h3]
    · simp [h1, h3]

private theorem setOptions_of_not_mem (ok : SockOpt → Bool) (calls : List (SockOpt × ℤ))
    (inForce : SockOpt → ℤ) (o : SockOpt) (h : o ∉ calls.map Prod.fst) :
    setOptions ok calls inForce o = inForce o := by
  induction calls generalizing inForce with
  | nil => rfl
  | cons call calls ih =>
    simp only [List.map_cons, List.mem_cons, not_or] at h
    rw [setOptions, List.foldl_cons]
    change setOptions ok calls _ o = _
    rw [ih _ h.2]
    split
    · exact Function.update_of_ne h.1 _ _
    · rfl

/-- A successful call of a duplicate-free list leaves its value in force. -/
theorem setOptions_of_mem (ok : SockOpt → Bool) (calls : List (SockOpt × ℤ))
    (inForce : SockOpt → ℤ) (hn : (calls.map Prod.fst).Nodup) {o : SockOpt} {v : ℤ}
    (hm : (o, v) ∈ calls) (ho : ok o = true) : setOptions ok calls inForce o = v := by
  induction calls generalizing inForce with
  | nil => simp at hm
  | cons call calls ih =>
    rw [List.map_cons, List.nodup_cons] at hn
    rw [setOptions, List.foldl_cons]
    change setOptions ok calls _ o = _
    rcases List.mem_cons.mp hm with he | hm
    · subst he
      rw [setOptions_of_not_mem _ _ _ _ hn.1, if_pos ho]
      exact Function.update_self _ _ _
    · exact ih _ hn.2 hm

/-! ### Exactness of the values -/

/-- Bandwidth of a line in kbit/s, in exact arithmetic. -/
def bandwidth (g : Settings) (e : STrace) : ℤ := ⌊e.bw * 1000 * g.bwScale⌋

/-- Target delay of a line in microseconds, in exact arithmetic. -/
def targetDelay (g : Settings) (e : STrace) : ℤ := ⌊e.minRtt + 2000 * g.delayMs⌋

/-- Bandwidth-delay product of a line in bytes, in exact arithmetic. -/
def delayProduct (g : Settings) (e : STrace) : ℤ := bandwidth g e * targetDelay g e / 8000

/-- No input of the conversion is negative. -/
structure NonNegative (g : Settings) (e : STrace) : Prop where
  bw : 0 ≤ e.bw
  minRtt : 0 ≤ e.minRtt
  delayMs : 0 ≤ g.delayMs
  bwScale : 0 ≤ g.bwScale
  cwndScale : 0 ≤ g.cwndScale

/-- The exact results of a line fit an `int`, and `clamp` is the exact window clamp. -/
structure Representable (g : Settings) (e : STrace) (clamp : ℤ) : Prop where
  bandwidth : InInt32 (bandwidth g e)
  targetDelay : InInt32 (targetDelay g e)
  pacingRate : InInt32 (125 * Server.bandwidth g e)
  clamp_eq : (clamp : ℚ) = delayProduct g e * g.cwndScale
  clamp : InInt32 clamp

/-- The calls of a line hand over the exact values: the rate, the target delay and the pacing
rate once each, the clamp in its mode, and no clamp is negative. -/
def CallsExact (c : Arith) (g : Settings) (e : STrace) (clamp : ℤ) : Prop :=
  (∀ v, (.tcpBbrBwval, v) ∈ feedbackCalls c g e ↔ v = bandwidth g e) ∧
  (∀ v, (.tcpBbrTrgtdelMs, v) ∈ feedbackCalls c g e ↔ v = targetDelay g e) ∧
  (∀ v, (.soMaxPacingRate, v) ∈ feedbackCalls c g e ↔ v = 125 * bandwidth g e) ∧
  (∀ v, (.tcpCwndClamp, v) ∈ feedbackCalls c g e ↔ g.feedback = 3 ∧ v = clamp) ∧
  0 ≤ clamp

section Exact

variable {c : Arith} {g : Settings} {e : STrace} {clamp : ℤ}

private theorem bandwidth_nonneg (hn : NonNegative g e) : 0 ≤ bandwidth g e := by
  apply Int.floor_nonneg.mpr
  have := hn.bw
  have := hn.bwScale
  positivity

private theorem targetDelay_nonneg (hn : NonNegative g e) : 0 ≤ targetDelay g e := by
  apply Int.floor_nonneg.mpr
  have := hn.minRtt
  have : (0 : ℚ) ≤ g.delayMs := by exact_mod_cast hn.delayMs
  positivity

private theorem val1_eq (hc : ∀ q, c.round q = q) (hn : NonNegative g e)
    (hr : Representable g e clamp) : (feedbackVals c g e).val1 = bandwidth g e := by
  have h0 : 0 ≤ e.bw * 1000 * g.bwScale := by
    have := hn.bw
    have := hn.bwScale
    positivity
  have ht : trunc (e.bw * 1000 * g.bwScale) = bandwidth g e := trunc_of_nonneg h0
  change c.toInt _ = _
  rw [hc, hc, c.toInt_eq _ (by rw [ht]; exact hr.bandwidth), ht]

private theorem val2_eq (hc : ∀ q, c.round q = q) (hn : NonNegative g e)
    (hr : Representable g e clamp) : (feedbackVals c g e).val2 = targetDelay g e := by
  have hd : (0 : ℚ) ≤ g.delayMs := by exact_mod_cast hn.delayMs
  -- The delay part alone fits because the whole sum does and the RTT is not negative.
  have hfit : InInt32 (2 * 1000 * g.delayMs) := by
    have hle : 2000 * g.delayMs ≤ targetDelay g e := by
      apply Int.le_floor.mpr
      push_cast
      linarith [hn.minRtt]
    have := hr.targetDelay.2
    have := hn.delayMs
    constructor <;> omega
  have h0 : 0 ≤ e.minRtt + 2000 * g.delayMs := by
    have := hn.minRtt
    positivity
  have ht : trunc (e.minRtt + 2000 * g.delayMs) = targetDelay g e := trunc_of_nonneg h0
  have hs : e.minRtt + (int32 (2 * 1000 * g.delayMs) : ℤ) = e.minRtt + 2000 * g.delayMs := by
    rw [int32_of_inInt32 hfit]
    push_cast
    ring
  change c.toInt _ = _
  rw [hc, hs, c.toInt_eq _ (by rw [ht]; exact hr.targetDelay), ht]

private theorem val3_eq (hc : ∀ q, c.round q = q) (hn : NonNegative g e)
    (hr : Representable g e clamp) :
    (feedbackVals c g e).val3 = 125 * bandwidth g e := by
  change int32 ((feedbackVals c g e).val1 * 125) = _
  rw [val1_eq hc hn hr, mul_comm, int32_of_inInt32 hr.pacingRate]

private theorem int32_tdiv_bounds (p : ℤ) :
    -268435 ≤ (int32 p).tdiv 8000 ∧ (int32 p).tdiv 8000 ≤ 268435 := by
  obtain ⟨hl, hu⟩ := inInt32_int32 p
  rcases le_total 0 (int32 p) with h | h
  · rw [Int.tdiv_eq_ediv_of_nonneg h]
    omega
  · have hneg : (int32 p).tdiv 8000 = -((-int32 p) / 8000) := by
      rw [← Int.tdiv_eq_ediv_of_nonneg (by omega), Int.neg_tdiv, neg_neg]
    omega

/-- The clamp in terms of the reduced product and the converted gain. -/
theorem val4_eq (hc : ∀ q, c.round q = q) (hn : NonNegative g e)
    (hr : Representable g e clamp) :
    (feedbackVals c g e).val4 =
      int32 ((int32 (bandwidth g e * targetDelay g e)).tdiv 8000 * c.toInt g.cwndScale) := by
  change int32 (int32 ((int32 ((feedbackVals c g e).val2 * (feedbackVals c g e).val1)).tdiv 8000)
    * c.toInt g.cwndScale) = _
  have hb := int32_tdiv_bounds (targetDelay g e * bandwidth g e)
  rw [val1_eq hc hn hr, val2_eq hc hn hr, int32_of_inInt32 (n := Int.tdiv _ _) ⟨by omega, by omega⟩,
    mul_comm (targetDelay g e)]

private theorem product_nonneg (hn : NonNegative g e) : 0 ≤ bandwidth g e * targetDelay g e :=
  mul_nonneg (bandwidth_nonneg hn) (targetDelay_nonneg hn)

private theorem toInt_gain (hn : NonNegative g e) (hr : Representable g e clamp)
    (hp : 1 ≤ delayProduct g e) : c.toInt g.cwndScale = ⌊g.cwndScale⌋ ∧ 0 ≤ ⌊g.cwndScale⌋ ∧
      delayProduct g e * ⌊g.cwndScale⌋ ≤ clamp := by
  have h0 : 0 ≤ ⌊g.cwndScale⌋ := Int.floor_nonneg.mpr hn.cwndScale
  have hle : delayProduct g e * ⌊g.cwndScale⌋ ≤ clamp := by
    have hp' : (1 : ℚ) ≤ delayProduct g e := by exact_mod_cast hp
    have hq : ((delayProduct g e * ⌊g.cwndScale⌋ : ℤ) : ℚ) ≤ clamp := by
      rw [hr.clamp_eq]
      push_cast
      exact mul_le_mul_of_nonneg_left (Int.floor_le _) (by linarith)
    exact_mod_cast hq
  have hs : ⌊g.cwndScale⌋ ≤ clamp :=
    le_trans (by nlinarith : ⌊g.cwndScale⌋ ≤ delayProduct g e * ⌊g.cwndScale⌋) hle
  have ht : trunc g.cwndScale = ⌊g.cwndScale⌋ := trunc_of_nonneg hn.cwndScale
  have hi : InInt32 (trunc g.cwndScale) := by
    rw [ht]
    have := hr.clamp.2
    constructor <;> omega
  exact ⟨(c.toInt_eq _ hi).trans ht, h0, hle⟩

private theorem val4_of_product_lt (hc : ∀ q, c.round q = q) (hn : NonNegative g e)
    (hr : Representable g e clamp)
    (hlt : bandwidth g e * targetDelay g e < 2 ^ 31) :
    (feedbackVals c g e).val4 = int32 (delayProduct g e * c.toInt g.cwndScale) := by
  have h0 := product_nonneg hn
  rw [val4_eq hc hn hr, int32_of_inInt32 (n := bandwidth g e * targetDelay g e)
    ⟨by omega, hlt⟩, Int.tdiv_eq_ediv_of_nonneg h0]
  rfl

-- A wrapped product has a quotient below the exact one.
private theorem wrapped_tdiv_lt {p : ℤ} (h : 2 ^ 31 ≤ p) : (int32 p).tdiv 8000 < p / 8000 := by
  obtain ⟨-, hu⟩ := int32_tdiv_bounds p
  by_contra hcon
  -- Equality would leave the product just above the limit, where it wraps below zero.
  have hq : p / 8000 = 268435 := by omega
  have hw : int32 p = p - 2 ^ 32 := by
    unfold int32
    rw [Int.bmod_def]
    norm_num
    omega
  have hneg : (int32 p).tdiv 8000 ≤ 0 := by
    rw [hw, ← neg_neg (_ - _), Int.neg_tdiv, Int.tdiv_eq_ediv_of_nonneg (by omega)]
    omega
  omega

private theorem mul_floor_lt {t q : ℤ} {s : ℚ} (ht : t < q) (hq : 0 < q) (hs : 0 < s) :
    (t : ℚ) * ⌊s⌋ < q * s := by
  have hf : (⌊s⌋ : ℚ) ≤ s := Int.floor_le _
  have hf0 : (0 : ℚ) ≤ ⌊s⌋ := by exact_mod_cast Int.floor_nonneg.mpr hs.le
  have ht' : (t : ℚ) < q := by exact_mod_cast ht
  have hq' : (0 : ℚ) < q := by exact_mod_cast hq
  calc (t : ℚ) * ⌊s⌋ ≤ max (t : ℚ) 0 * s := by
        rcases le_total (t : ℚ) 0 with h | h
        · rw [max_eq_right h]
          nlinarith
        · rw [max_eq_left h]
          exact mul_le_mul_of_nonneg_left hf h
    _ < q * s := mul_lt_mul_of_pos_right (max_lt ht' hq') hs

private theorem val4_ne_of_product_ge (hc : ∀ q, c.round q = q) (hn : NonNegative g e)
    (hr : Representable g e clamp)
    (hge : 2 ^ 31 ≤ bandwidth g e * targetDelay g e) (hs : 0 < g.cwndScale) :
    (feedbackVals c g e).val4 ≠ clamp := by
  have hF : 268435 ≤ delayProduct g e := by
    unfold delayProduct
    omega
  obtain ⟨hg, hg0, hgle⟩ := toInt_gain (c := c) hn hr (by omega)
  have hgain : ⌊g.cwndScale⌋ ≤ 8000 := by
    have := hr.clamp.2
    by_contra hgt
    have : 268435 * 8001 ≤ delayProduct g e * ⌊g.cwndScale⌋ :=
      mul_le_mul hF (by omega) (by norm_num) (by omega)
    omega
  obtain ⟨hl, hu⟩ := int32_tdiv_bounds (bandwidth g e * targetDelay g e)
  have hlt := mul_floor_lt (wrapped_tdiv_lt hge) (by unfold delayProduct at hF; omega) hs
  rw [val4_eq hc hn hr, hg]
  generalize (int32 (bandwidth g e * targetDelay g e)).tdiv 8000 = t at hl hu hlt
  rw [int32_of_inInt32 (n := t * ⌊g.cwndScale⌋) (by constructor <;> nlinarith)]
  intro he
  have hclamp := hr.clamp_eq
  rw [← he, delayProduct] at hclamp
  push_cast at hclamp
  exact absurd hclamp (ne_of_lt (by exact_mod_cast hlt))

private theorem clamp_eq_mul (hr : Representable g e clamp) {n : ℤ} (hs : g.cwndScale = n) :
    clamp = delayProduct g e * n := by
  have h := hr.clamp_eq
  rw [hs] at h
  exact_mod_cast h

private theorem clamp_eq_zero (hr : Representable g e clamp) (h0 : delayProduct g e = 0) :
    clamp = 0 := by
  have h := hr.clamp_eq
  rw [h0, Int.cast_zero, zero_mul] at h
  exact_mod_cast h

-- An exact clamp leaves no fraction of the gain to be lost.
private theorem gain_eq_floor (hc : ∀ q, c.round q = q) (hn : NonNegative g e)
    (hr : Representable g e clamp)
    (hlt : bandwidth g e * targetDelay g e < 2 ^ 31) (hF : 1 ≤ delayProduct g e)
    (he : (feedbackVals c g e).val4 = clamp) : g.cwndScale = ⌊g.cwndScale⌋ := by
  obtain ⟨hg, hg0, hgle⟩ := toInt_gain (c := c) hn hr hF
  rw [val4_of_product_lt hc hn hr hlt, hg, int32_of_inInt32 (by
    have := hr.clamp.2
    have := mul_nonneg (by omega : 0 ≤ delayProduct g e) hg0
    constructor <;> omega)] at he
  have hF0 : (delayProduct g e : ℚ) ≠ 0 := by
    have : delayProduct g e ≠ 0 := by omega
    exact_mod_cast this
  apply mul_left_cancel₀ hF0
  rw [← hr.clamp_eq, ← he]
  push_cast
  rfl

private theorem val4_of_integral_gain (hc : ∀ q, c.round q = q) (hn : NonNegative g e)
    (hr : Representable g e clamp)
    (hlt : bandwidth g e * targetDelay g e < 2 ^ 31) {n : ℤ} (hs : g.cwndScale = n) :
    (feedbackVals c g e).val4 = clamp := by
  rw [val4_of_product_lt hc hn hr hlt]
  by_cases hF : 1 ≤ delayProduct g e
  · rw [(toInt_gain (c := c) hn hr hF).1, hs, Int.floor_intCast, ← clamp_eq_mul hr hs,
      int32_of_inInt32 hr.clamp]
  · have hF0 : delayProduct g e = 0 := by
      have : 0 ≤ delayProduct g e := Int.ediv_nonneg (product_nonneg hn) (by norm_num)
      omega
    rw [clamp_eq_zero hr hF0, hF0, zero_mul]
    rfl

/-- The clamp is exact precisely when the product fits an `int` and no fraction of the
gain is lost, or when there is nothing to scale. -/
theorem val4_eq_clamp_iff (hc : ∀ q, c.round q = q) (hn : NonNegative g e)
    (hr : Representable g e clamp) :
    (feedbackVals c g e).val4 = clamp ↔
      g.cwndScale = 0 ∨ bandwidth g e * targetDelay g e < 2 ^ 31 ∧
        (bandwidth g e * targetDelay g e < 8000 ∨ ∃ n : ℤ, g.cwndScale = n) := by
  have h0 := product_nonneg hn
  constructor
  · intro he
    rcases hn.cwndScale.eq_or_lt with hs | hs
    · exact .inl hs.symm
    right
    have hlt : bandwidth g e * targetDelay g e < 2 ^ 31 := by
      by_contra hge
      exact val4_ne_of_product_ge hc hn hr (by omega) hs he
    refine ⟨hlt, ?_⟩
    by_cases hsmall : bandwidth g e * targetDelay g e < 8000
    · exact .inl hsmall
    · exact .inr ⟨_, gain_eq_floor hc hn hr hlt (by unfold delayProduct; omega) he⟩
  · rintro (hs | ⟨hlt, hsmall | ⟨n, hs⟩⟩)
    · have ht : c.toInt 0 = 0 := c.toInt_eq 0 (by decide)
      rw [val4_eq hc hn hr, hs, ht, mul_zero, clamp_eq_mul hr (n := 0) (by simpa using hs),
        mul_zero]
      rfl
    · have hF0 : delayProduct g e = 0 := by
        unfold delayProduct
        omega
      rw [val4_of_product_lt hc hn hr hlt, hF0, zero_mul, clamp_eq_zero hr hF0]
      rfl
    · exact val4_of_integral_gain hc hn hr hlt hs

/-- All values handed to the kernel are exact if and only if the mode sets no clamp, or
the product of bandwidth and delay fits an `int` and the gain loses no fraction. -/
theorem feedbackCalls_exact_iff (c : Arith) (g : Settings) (e : STrace) (clamp : ℤ)
    (hc : ∀ q, c.round q = q) (hn : NonNegative g e) (hr : Representable g e clamp) :
    CallsExact c g e clamp ↔ (g.feedback = 3 →
      g.cwndScale = 0 ∨ bandwidth g e * targetDelay g e < 2 ^ 31 ∧
        (bandwidth g e * targetDelay g e < 8000 ∨ ∃ n : ℤ, g.cwndScale = n)) := by
  have hc0 : 0 ≤ clamp := by
    have hq : (0 : ℚ) ≤ clamp := by
      rw [hr.clamp_eq]
      have hF : 0 ≤ delayProduct g e := Int.ediv_nonneg (product_nonneg hn) (by norm_num)
      have hFq : (0 : ℚ) ≤ delayProduct g e := by exact_mod_cast hF
      exact mul_nonneg hFq hn.cwndScale
    exact_mod_cast hq
  rw [← val4_eq_clamp_iff hc hn hr]
  constructor
  · rintro ⟨-, -, -, hclamp, -⟩ h3
    exact ((hclamp _).mp (by simp [feedbackCalls, h3])).2
  · intro h
    refine ⟨?_, ?_, ?_, ?_, hc0⟩
    · intro v
      rw [← val1_eq hc hn hr]
      simp [feedbackCalls]
    · intro v
      rw [← val2_eq hc hn hr]
      simp [feedbackCalls]
    · intro v
      rw [← val3_eq hc hn hr]
      simp [feedbackCalls]
    · intro v
      have hv : (.tcpCwndClamp, v) ∈ feedbackCalls c g e ↔
          g.feedback = 3 ∧ v = (feedbackVals c g e).val4 := by
        simp [feedbackCalls]
      rw [hv]
      exact and_congr_right (fun h3 ↦ by rw [h h3])

end Exact

/-- The first line of `feedback/TMobile-LTE-driving.down-50-trace` at the default latency. -/
theorem feedbackCalls_exact_first_line :
    CallsExact .amd64Casts ⟨5, 3, 1, 2⟩ ⟨0, 48128 / 10000, 2493⟩ 15028 := by
  refine (feedbackCalls_exact_iff .amd64Casts ⟨5, 3, 1, 2⟩ ⟨0, 48128 / 10000, 2493⟩ 15028
    (fun _ ↦ rfl) ⟨by norm_num, by norm_num, by norm_num, by norm_num, by norm_num⟩
    ⟨by decide +kernel, by decide +kernel, by decide +kernel, by decide +kernel,
      by decide⟩).mpr ?_
  intro _
  exact .inr ⟨by decide +kernel, .inr ⟨2, rfl⟩⟩

/-- Line 15 of the same trace with a latency of 20 ms: every exact result fits an `int`,
and the clamp handed to the kernel is negative. -/
theorem feedbackCalls_negative_clamp :
    NonNegative ⟨20, 3, 1, 2⟩ ⟨7 / 10, 5751296 / 100000, 209⟩ ∧
    Representable ⟨20, 3, 1, 2⟩ ⟨7 / 10, 5751296 / 100000, 209⟩ 578124 ∧
    (.tcpCwndClamp, -495616) ∈
      feedbackCalls .amd64Casts ⟨20, 3, 1, 2⟩ ⟨7 / 10, 5751296 / 100000, 209⟩ ∧
    ¬ CallsExact .amd64Casts ⟨20, 3, 1, 2⟩ ⟨7 / 10, 5751296 / 100000, 209⟩ 578124 := by
  have hm : (.tcpCwndClamp, -495616) ∈
      feedbackCalls .amd64Casts ⟨20, 3, 1, 2⟩ ⟨7 / 10, 5751296 / 100000, 209⟩ := by
    decide +kernel
  refine ⟨⟨by norm_num, by norm_num, by norm_num, by norm_num, by norm_num⟩,
    ⟨by decide +kernel, by decide +kernel, by decide +kernel, by decide +kernel, by decide⟩,
    hm, ?_⟩
  rintro ⟨-, -, -, hclamp, -⟩
  have hne := ((hclamp _).mp hm).2
  omega

end NatcpSpec.Server
